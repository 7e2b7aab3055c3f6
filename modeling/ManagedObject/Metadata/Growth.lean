import ManagedObject.Metadata.Load

/-!
# Growing a table

In every run at most half of the key slots are occupied, so every search ends and no assertion of the
table code fails. A set doubles the table when half of its slots are occupied, by tombstones as well as
by present keys, or when the key is absent and the MPS reports its location dependency stale.
-/

namespace ManagedObject.Metadata

open Format Outcome Lib

variable {α : Type} [DecidableEq α] {W : World α} {e : Nat} {key value : α} {start m m' : Machine α}
  {hist : List (Call α × Answer α)} {sizeofLd now length : Nat}

/-- The invariant with the bound on the load. -/
structure Loaded (W : World α) (e : Nat) (m : Machine α) : Prop where
  table : TableOk W e m
  load : 2 * occupied W m ≤ 2 ^ e

theorem Loaded.occupied_lt (h : Loaded W e m) : occupied W m < 2 ^ e := by
  have hpos := Nat.two_pow_pos e
  have hload := h.load
  omega

theorem Loaded.mem_unused (h : Loaded W e m) : W.unused ∈ m.tbl.keys.bucket := by
  apply Metadata.mem_unused
  rw [h.table.slots.length]
  exact h.occupied_lt

/-- Why a set doubles the table. -/
def Grows (W : World α) (m : Machine α) (key : α) : Prop :=
  tableFull m.tbl = true ∨ stored W m key = none ∧ staleAt W m key true = true

/-- A set keeps the load, and doubles the table for a reason only. -/
theorem tableSet_loaded (hW : W.Lawful) (htracked : W.Tracked) (h : Loaded W e m) (hkey : W.IsKey key)
    (value : α) : Meets (tableSet W m key value) (SetStop W m) fun m' =>
      Loaded W e m' ∨ Grows W m key ∧ Loaded W (e + 1) m' := by
  have hload := h.load
  have hpos := Nat.two_pow_pos e
  have hfirst : Meets (if tableFull m.tbl then pure (false, m) else tableTrySet W m key value)
      (SetStop W m) fun r => TableOk W e r.2 ∧ (m.now ≤ r.2.now ∧ r.2.now ≤ m.now + 2) ∧
        (r.1 = true → 2 * occupied W r.2 ≤ 2 ^ e) ∧ (r.1 = false → occupied W r.2 ≤ occupied W m ∧ Grows W m key) := by
    cases hfull : tableFull m.tbl with
    | true =>
      exact ⟨h.table, ⟨le_rfl, Nat.le_add_right _ _⟩, fun hres => absurd hres Bool.false_ne_true,
        fun _ => ⟨le_rfl, .inl hfull⟩⟩
    | false =>
      rw [if_neg Bool.false_ne_true]
      have hroom : 2 * occupied W m + 1 < 2 ^ e := by
        by_contra hnot
        rw [(tableFull_iff h.table).mpr (by omega)] at hfull
        cases hfull
      have htry := ((tableTrySet_meets hW htracked h.table hkey value).and
        (tableTrySet_occupied hW h.table key value)).and
        (tableTrySet_absent hW htracked h.table hkey value)
      refine htry.mono (fun _ => Or.inl) ?_
      intro r hr
      obtain ⟨res, m'⟩ := r
      obtain ⟨⟨⟨hok, hclock, _⟩, hle, hkept, hstale⟩, habsent⟩ := hr
      refine ⟨hok, hclock, fun _ => ?_, fun hres =>
        ⟨hkept hres, .inr ⟨habsent hres, hstale h.occupied_lt hres⟩⟩⟩
      obtain ⟨n, rfl⟩ : ∃ n, e = n + 1 := by
        apply Nat.exists_eq_succ_of_ne_zero
        intro he
        rw [he] at hroom
        omega
      dsimp only at hle ⊢
      rw [pow_succ] at hroom ⊢
      omega
  refine hfirst.bind ?_
  intro r hr
  obtain ⟨res, m'⟩ := r
  obtain ⟨hok, ⟨hlow, hhigh⟩, hdone, hgrow⟩ := hr
  cases res with
  | true => exact .inl ⟨hok, hdone rfl⟩
  | false =>
    obtain ⟨hle, hgrows⟩ := hgrow rfl
    have hroom : (entries W m').length < 2 ^ (e + 1) := length_entries_lt_double hok
    dsimp only
    rw [if_neg Bool.false_ne_true, TableOk.double_eq hok]
    have hdouble : 2 ^ (e + 1) = untagCount m.tbl.keys.length * 2 := by rw [h.table.length_eq, pow_succ]
    dsimp only at hok hlow hhigh
    refine ((tableRehash_meets hW hok hroom.le W.null).mono
      (fun s hs => Or.inr (Or.inl (hdouble ▸ hs.mono hlow (by omega)))) fun _ h => h).bind ?_
    intro r hr
    obtain ⟨found, m''⟩ := r
    have hclock : m''.now = m'.now + 2 := hr.clock
    have hcount : occupied W m'' ≤ occupied W m := by
      rw [hr.occupied_eq hW]
      exact (length_entries_le_occupied hW hok).trans hle
    have hretry := (tableTrySet_meets hW htracked hr.table hkey value).and
      (tableTrySet_occupied hW hr.table key value)
    refine (hretry.mono (fun s hs => hs.later (by omega) (by omega) (hr.table.length_eq.trans hdouble))
      fun _ h => h).bind ?_
    intro retried hretried
    obtain ⟨res, m₃⟩ := retried
    obtain ⟨⟨hok₃, _, _, _, hsettled⟩, hle₃, _⟩ := hretried
    cases res with
    | true =>
      refine .inr ⟨hgrows, hok₃, ?_⟩
      dsimp only at hle₃ ⊢
      rw [pow_succ]
      omega
    | false =>
      refine Or.inr (Or.inr ⟨rfl, fun hs => ?_⟩)
      rw [← hr.perm.length_eq] at hroom
      cases hsettled hs hr.reset hroom

theorem Loaded.call (hW : W.Lawful) (htracked : W.Tracked) (h : Loaded W e m) {c : Call α}
    (hc : Moving W c) : Meets (m.call W c) (CallStop W m c) fun (_, m') =>
      Loaded W e m' ∨ (∃ key value, c = .set key value ∧ Grows W m key) ∧ Loaded W (e + 1) m' := by
  have hload := h.load
  cases c with
  | set key value =>
    refine (tableSet_loaded hW htracked h hc value).bind ?_
    intro m' hpost
    rcases hpost with hsame | ⟨hgrows, hdouble⟩
    · exact .inl hsame
    · exact .inr ⟨⟨key, value, rfl, hgrows⟩, hdouble⟩
  | delete key =>
    have hdelete := (tableDelete_meets hW htracked h.table hc).and (tableDelete_occupied hW h.table key)
    refine hdelete.bind ?_
    intro m' ⟨⟨hok, _⟩, hle⟩
    exact .inl ⟨hok, by omega⟩
  | ref key =>
    have href := (tableRef_meets hW htracked h.table hc).and (tableRef_occupied hW h.table key)
    refine href.bind ?_
    intro ⟨v, m'⟩ ⟨⟨hok, _⟩, hle⟩
    exact .inl ⟨hok, by dsimp only at hle ⊢; omega⟩
  | relocate => exact .inl ⟨ArraysOk.mono h.table (Nat.le_succ _) (fun _ h => h) rfl, h.load⟩
  | trySet | rehash | scan => exact hc.elim

/-! ### A new table -/

/-- The length of a new table is the least power of two that is not below the requested one. -/
theorem roundUp_least (length : Nat) : ∀ fuel i, i ≤ 63 → (∀ j < i, 2 ^ j < length) →
    Meets (roundUp length fuel (2 ^ i)) (fun _ => True) fun l => ∀ p, length ≤ 2 ^ p → l ≤ 2 ^ p := by
  intro fuel
  induction fuel with
  | zero =>
    intro i _ _
    trivial
  | succ fuel ih =>
    intro i hi hbelow
    rw [roundUp, ← pow_succ]
    split
    · rename_i hlt
      rcases Nat.lt_or_eq_of_le hi with hi | rfl
      · rw [wrap_of_lt (Nat.pow_lt_pow_right (by decide) (by omega))]
        apply ih (i + 1) hi
        intro j hj
        rcases Nat.lt_succ_iff_lt_or_eq.mp hj with hj | rfl
        · exact hbelow j hj
        · exact hlt
      · have hwrap : wrap (2 ^ (63 + 1)) = 0 := by decide
        rw [hwrap, roundUp_zero (by omega)]
        trivial
    · intro p hp
      apply Nat.pow_le_pow_right (by decide)
      by_contra hlt
      have := hbelow p (by omega)
      omega

theorem makeTable_loaded (hW : W.Lawful) (hmake : makeTable W sizeofLd now length false false = .ok start) :
    ∃ e, Loaded W e start ∧ length ≤ 2 ^ e ∧ ∀ p, length ≤ 2 ^ p → 2 ^ e ≤ 2 ^ p := by
  rw [makeTable] at hmake
  split at hmake
  · cases hmake
  · obtain ⟨l, hround, hmake⟩ := bind_eq_ok hmake
    have hpower := (roundUp_meets length 65 0 (by decide)).and
      (roundUp_least length 65 0 (by decide) (fun j hj => absurd hj (Nat.not_lt_zero j)))
    obtain ⟨⟨e, -, rfl, hlength⟩, hleast⟩ := hpower.of_ok hround
    obtain ⟨keys, hkeys, hmake⟩ := bind_eq_ok hmake
    obtain ⟨values, hvalues, hmake⟩ := bind_eq_ok hmake
    obtain ⟨he, rfl⟩ := (makeBuckets_meets W (now + 1) e).of_ok hkeys
    obtain ⟨-, rfl⟩ := (makeBuckets_meets W (now + 2) e).of_ok hvalues
    cases hmake
    refine ⟨e, ⟨arraysOk_fresh hW he le_rfl, ?_⟩, hlength, hleast⟩
    dsimp only [occupied]
    rw [usedCount_replicate]
    exact Nat.zero_le _

/-! ### Runs -/

omit [DecidableEq α] in
/-- A reservation that failed, or arrays too big for the computation of their size, is all that stops a call. -/
theorem memory_of_callStop (hlength : untagCount m.tbl.keys.length = 2 ^ e) (hsettled : W.Settled) {c : Call α}
    {s : Stop} (hc : Moving W c) (hs : CallStop W m c s) : s = .outOfMemory ∨ s = .overrun ∧ 60 < e + 1 := by
  cases c with
  | set key value =>
    rcases hs with hfind | (hmemory | ⟨hoverrun, hwraps⟩) | ⟨-, hunsettled⟩
    · exact .inl hfind.1
    · exact .inl hmemory.1
    · rw [hlength, ← pow_succ] at hwraps
      exact .inr ⟨hoverrun, hwraps.big⟩
    · exact absurd hsettled hunsettled
  | delete | ref => exact .inl hs.1
  | trySet | rehash | scan => exact hc.elim
  | relocate => exact hs.elim

theorem CallRun.loaded (hW : W.Lawful) (htracked : W.Tracked)
    (hmake : makeTable W sizeofLd now length false false = .ok start)
    (hrun : CallRun W (fun _ _ c => Moving W c) start hist m) : ∃ e, Loaded W e m := by
  apply hrun.invariant fun _ m => ∃ e, Loaded W e m
  · obtain ⟨e, hstart, -⟩ := makeTable_loaded hW hmake
    exact ⟨e, hstart⟩
  · intro hist m ⟨c, answer⟩ m' ⟨e, h⟩ ⟨hc, hcall⟩
    rcases (h.call hW htracked hc).of_ok hcall with h' | ⟨-, h'⟩
    · exact ⟨e, h'⟩
    · exact ⟨e + 1, h'⟩

/-- With a hash of the contents no assertion fails and the load stays at most one half. -/
theorem table_load_le_half (hW : W.Lawful) (hfixed : W.Fixed) (hsettled : W.Settled)
    (hmake : makeTable W sizeofLd now length false false = .ok start)
    (hrun : CallRun W (fun _ _ c => Moving W c) start hist m) :
    (∃ e ≤ 60, untagCount m.tbl.keys.length = 2 ^ e ∧ m.tbl.keys.bucket.length = 2 ^ e ∧
      ∀ c, Moving W c → Meets (m.call W c) (fun s => s = .outOfMemory ∨ s = .overrun ∧ 60 < e + 1)
        fun _ => True) ∧
    2 * untagCount m.tbl.keys.used ≤ untagCount m.tbl.keys.length ∧
    W.unused ∈ m.tbl.keys.bucket ∧
    (∀ ld now key add, ∃ b ld', bucketsFind W ld now m.tbl.keys key add = .ok (some b, ld')) ∧
    (∃ n, tableSize m.tbl = .ok n) ∧
    ∀ (tbl : HashTable α) e used, 1 ≤ e → e ≤ 60 → used ≤ 2 ^ e → tbl.keys.length = tagCount (2 ^ e) →
      tbl.keys.used = tagCount used → (tableFull tbl = true ↔ used ≥ 2 ^ e / 2) := by
  have htracked := World.Tracked.of_fixed hW hfixed
  obtain ⟨e, h⟩ := hrun.loaded hW htracked hmake
  refine ⟨⟨e, h.table.small, h.table.length_eq, h.table.slots.length, ?_⟩, ?_, h.mem_unused, ?_,
    ⟨_, tableSize_eq hW h.table⟩, ?_⟩
  · intro c hc
    exact (h.call hW htracked hc).mono (fun _ hs => memory_of_callStop h.table.length_eq hsettled hc hs) fun _ _ => trivial
  · rw [h.table.used_eq, h.table.length_eq]
    exact h.load
  · intro ld now key add
    obtain ⟨b, hb⟩ := Option.ne_none_iff_exists'.mp
      (search_ne_none h.table.slots.length h.mem_unused key (W.hash now key))
    exact ⟨b, _, by rw [bucketsFind_eq h.table.small h.table.slots.length h.table.keysLength, hb]⟩
  · intro tbl e used he hsmall hused hlength hcount
    rw [tableFull, decide_eq_true_eq, hlength, hcount]
    exact tagCount_ge_half_iff he hsmall hused

theorem digitWorld_settled : digitWorld.Settled := fun _ _ _ => rfl

/-- The table of four calls, seven of whose eight slots are unused. -/
theorem table_load_le_half_digits :
    2 * untagCount digitTable.tbl.keys.used ≤ untagCount digitTable.tbl.keys.length ∧
    ∃ n, tableSize digitTable.tbl = .ok n := by
  have hkeys : ∀ c ∈ digitCalls, Moving digitWorld c := by
    simp [digitCalls, Moving, World.IsKey, digitWorld]
  have hrun : CallRun digitWorld (fun _ _ c => Moving digitWorld c) emptyTable
      [(.set 13 9, .done), (.delete 4, .done), (.set 4 8, .done), (.set 3 7, .done)] digitTable :=
    CallRun.callAll .start (fun _ _ c hc => hkeys c hc)
      (rfl : emptyTable.callAll digitWorld [] digitCalls = _)
  have hmake : makeTable digitWorld 24 0 2 false false = .ok emptyTable := rfl
  obtain ⟨-, hload, -, -, hsize, -⟩ := table_load_le_half digitWorld_lawful (fun _ _ _ => rfl)
    digitWorld_settled hmake hrun
  exact ⟨hload, hsize⟩

/-! ### How far a table grows -/

/-- Calls of a client while at most `taken` key slots are occupied, none of them a set of an absent key
whose location dependency is reported stale. -/
def Sparse (W : World α) (taken : Nat) (m : Machine α) (c : Call α) : Prop :=
  Moving W c ∧ untagCount m.tbl.keys.used ≤ taken ∧
    ∀ key value, c = .set key value → stored W m key = none → staleAt W m key true = false

/-- A table whose occupied slots are few stays short, however long the run. -/
theorem table_length_le (hW : W.Lawful) (htracked : W.Tracked) (hlength : 2 ≤ length) {taken : Nat}
    (hmake : makeTable W sizeofLd now length false false = .ok start)
    (hrun : CallRun W (fun _ m c => Sparse W taken m c) start hist m) (p : Nat) (hp : length ≤ 2 ^ p) :
    untagCount m.tbl.keys.length ≤ max (2 ^ p) (4 * taken) := by
  have hshort : ∃ e, 1 ≤ e ∧ Loaded W e m ∧ 2 ^ e ≤ max (2 ^ p) (4 * taken) := by
    apply hrun.invariant fun _ m => ∃ e, 1 ≤ e ∧ Loaded W e m ∧ 2 ^ e ≤ max (2 ^ p) (4 * taken)
    · obtain ⟨e, hstart, hle, hleast⟩ := makeTable_loaded hW hmake
      have he : e ≠ 0 := by
        rintro rfl
        omega
      exact ⟨e, by omega, hstart, le_max_of_le_left (hleast p hp)⟩
    · intro hist m ⟨c, answer⟩ m' ⟨e, he, h, hbound⟩ ⟨⟨hc, htaken, hfresh⟩, hcall⟩
      rcases (h.call hW htracked hc).of_ok hcall with h' | ⟨⟨key, value, rfl, hgrows⟩, h'⟩
      · exact ⟨e, he, h', hbound⟩
      · refine ⟨e + 1, by omega, h', le_max_of_le_right ?_⟩
        rcases hgrows with hfull | ⟨habsent, hstale⟩
        · -- half of the slots are occupied before the table is doubled
          have hhalf := (tableFull_iff h.table).mp hfull
          rw [h.table.used_eq] at htaken
          obtain ⟨n, rfl⟩ : ∃ n, e = n + 1 := ⟨e - 1, by omega⟩
          rw [pow_succ, pow_succ]
          rw [pow_succ] at hhalf
          omega
        · rw [hfresh key value rfl habsent] at hstale
          cases hstale
  obtain ⟨e, -, h, hbound⟩ := hshort
  rw [h.table.length_eq]
  exact hbound

/-- One slot is taken in a table of two. -/
theorem table_length_le_one :
    ∃ m, CallRun digitWorld (fun _ m c => Sparse digitWorld 1 m c) emptyTable [(.set 3 7, .done)] m ∧
      untagCount m.tbl.keys.length ≤ max (2 ^ 1) (4 * 1) := by
  have hrule : Sparse digitWorld 1 emptyTable (.set 3 7) :=
    ⟨⟨rfl, rfl⟩, by decide, fun _ _ _ _ => rfl⟩
  have hrun : CallRun digitWorld (fun _ m c => Sparse digitWorld 1 m c) emptyTable
      [(.set 3 7, .done)] _ := Run.start.next ⟨hrule, rfl⟩
  have hmake : makeTable digitWorld 24 0 2 false false = .ok emptyTable := rfl
  exact ⟨_, hrun, table_length_le digitWorld_lawful (.of_fixed digitWorld_lawful fun _ _ _ => rfl)
    (by decide) hmake hrun 1 (by decide)⟩

/-- Calls with at most one key present at any time. -/
def Single (W : World α) (m : Machine α) : Call α → Prop
  | .set key _ => W.IsKey key ∧ entries W m = []
  | .delete key | .ref key => W.IsKey key ∧ (entries W m).length ≤ 1
  | .relocate => (entries W m).length ≤ 1
  | .trySet .. | .rehash .. | .scan _ => False

instance (W : World α) (m : Machine α) (c : Call α) : Decidable (Single W m c) :=
  match c with
  | .set _ _ => inferInstanceAs (Decidable ((_ = _ ∧ _ = _) ∧ entries W m = []))
  | .delete _ | .ref _ => inferInstanceAs (Decidable ((_ = _ ∧ _ = _) ∧ (entries W m).length ≤ 1))
  | .relocate => inferInstanceAs (Decidable ((entries W m).length ≤ 1))
  | .trySet .. | .rehash .. | .scan _ => inferInstanceAs (Decidable False)

/-- Four keys, each deleted before the next is set, and none with a deleted slot on its path, bring a
table of two slots to eight. A key that is absent and reported stale doubles a table without keys. And a
key whose path starts at a deleted slot is stored behind it, in an unused one. -/
theorem tombstones_grow_table :
    (∃ m, CallRun digitWorld (fun _ m c => Single digitWorld m c) emptyTable
      [(.set 6 7, .done), (.delete 5, .done), (.set 5 7, .done), (.delete 4, .done), (.set 4 7, .done),
        (.delete 3, .done), (.set 3 7, .done)] m ∧ (entries digitWorld m).length = 1 ∧
      ¬ untagCount m.tbl.keys.length ≤ max 2 (4 * 1)) ∧
    (∃ start m, makeTable movingWorld 24 0 8 false false = .ok start ∧
      CallRun movingWorld (fun _ m c => Single movingWorld m c) start
        [(.set 4 7, .done), (.relocate, .done), (.delete 4, .done), (.set 4 7, .done)] m ∧
      (entries movingWorld m).length = 1 ∧ ¬ untagCount m.tbl.keys.length ≤ max 8 (4 * 1)) ∧
    ∃ start m, makeTable digitWorld 24 0 8 false false = .ok start ∧
      CallRun digitWorld (fun _ m c => Single digitWorld m c) start
        [(.set 13 7, .done), (.delete 3, .done), (.set 3 7, .done)] m ∧
      m.tbl.keys.bucket = [1, 1, 1, 2, 13, 1, 1, 1] := by
  refine ⟨?_, ?_, ?_⟩
  · have hrun : CallRun digitWorld (fun _ m c => Single digitWorld m c) emptyTable
        [(.set 6 7, .done), (.delete 5, .done), (.set 5 7, .done), (.delete 4, .done),
          (.set 4 7, .done), (.delete 3, .done), (.set 3 7, .done)] _ :=
      ((((((Run.start.next ⟨by decide, rfl⟩).next ⟨by decide, rfl⟩).next ⟨by decide, rfl⟩).next
        ⟨by decide, rfl⟩).next ⟨by decide, rfl⟩).next ⟨by decide, rfl⟩).next ⟨by decide, rfl⟩
    exact ⟨_, hrun, by decide, by decide⟩
  · refine ⟨_, _, rfl, ((((Run.start.next ⟨?_, rfl⟩).next ⟨?_, rfl⟩).next ⟨?_, rfl⟩).next ⟨?_, rfl⟩),
      ?_, ?_⟩
    all_goals decide
  · refine ⟨_, _, rfl, ((Run.start.next ⟨?_, rfl⟩).next ⟨?_, rfl⟩).next ⟨?_, rfl⟩, rfl⟩
    all_goals decide

end ManagedObject.Metadata
