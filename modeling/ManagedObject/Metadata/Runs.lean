import ManagedObject.Lib.Run
import ManagedObject.Metadata.Operations

/-!
# Runs over a table

The calls of the table interface as one step function, and the map that a run of calls describes:
each key has the value of the last set that succeeded, unless it was deleted since. Every call keeps
the table invariant and moves the entries along with that map.
-/

namespace ManagedObject.Metadata

open Format Outcome Lib

variable {α : Type} [DecidableEq α]

inductive Call (α : Type)
  | set (key value : α)
  | trySet (key value : α)
  | delete (key : α)
  | rehash (newLength : Nat) (key : α)
  | ref (key : α)
  /-- objects move between two calls -/
  | relocate
  | scan (s : Scan α)

inductive Answer (α : Type)
  | done
  | flag (b : Bool)
  | value (v : α)

def Machine.call (W : World α) (m : Machine α) : Call α → Except Stop (Answer α × Machine α)
  | .set key value => do
    let m ← tableSet W m key value
    return (.done, m)
  | .trySet key value => do
    let (res, m) ← tableTrySet W m key value
    return (.flag res, m)
  | .delete key => do
    let m ← tableDelete W m key
    return (.done, m)
  | .rehash newLength key => do
    let (found, m) ← tableRehash W m newLength key
    return (.flag found.isSome, m)
  | .ref key => do
    let (v, m) ← tableRef W m key
    return (.value v, m)
  | .relocate => return (.done, { m with now := m.now + 1 })
  | .scan s => do
    let m ← scanTable W m s
    return (.done, m)

/-- A run of calls that a client makes under a rule. -/
abbrev CallRun (W : World α) (rule : List (Call α × Answer α) → Machine α → Call α → Prop) :
    Machine α → List (Call α × Answer α) → Machine α → Prop :=
  Run fun hist m event m' => rule hist m event.1 ∧ m.call W event.1 = .ok (event.2, m')

def Machine.callAll (W : World α) (m : Machine α) (hist : List (Call α × Answer α)) :
    List (Call α) → Except Stop (List (Call α × Answer α) × Machine α)
  | [] => .ok (hist, m)
  | c :: cs => do
    let (answer, m) ← m.call W c
    m.callAll W ((c, answer) :: hist) cs

theorem CallRun.callAll {W : World α} {rule : List (Call α × Answer α) → Machine α → Call α → Prop}
    {start : Machine α} {cs : List (Call α)} : ∀ {hist hist' : List (Call α × Answer α)}
      {m m' : Machine α}, CallRun W rule start hist m → (∀ hist m, ∀ c ∈ cs, rule hist m c) →
        m.callAll W hist cs = .ok (hist', m') → CallRun W rule start hist' m' := by
  induction cs with
  | nil =>
    intro hist hist' m m' hrun _ hcalls
    cases hcalls
    exact hrun
  | cons c cs ih =>
    intro hist hist' m m' hrun hrule hcalls
    obtain ⟨⟨answer, m₁⟩, hcall, hrest⟩ := bind_eq_ok hcalls
    exact ih (hrun.next ⟨hrule hist m c List.mem_cons_self, hcall⟩)
      (fun hist m c hc => hrule hist m c (List.mem_cons_of_mem _ hc)) hrest

/-! ### The abstract map -/

/-- What a completed call does to the map. -/
def Call.effect (cmp : α → α → Bool) (f : α → Option α) : Call α × Answer α → α → Option α
  | (.set key value, _) => Assoc.update cmp f key (some value)
  | (.trySet key value, .flag true) => Assoc.update cmp f key (some value)
  | (.delete key, _) => Assoc.update cmp f key none
  | _ => f

/-- The map after a history: the value of the last successful set of an equal key since it was last
deleted. -/
def contents (cmp : α → α → Bool) : List (Call α × Answer α) → α → Option α
  | [] => fun _ => none
  | event :: hist => Call.effect cmp (contents cmp hist) event

structure Holds (W : World α) (hist : List (Call α × Answer α)) (m : Machine α) : Prop where
  table : ∃ e, TableOk W e m
  get : ∀ key, stored W m key = contents W.cmp hist key

variable {W : World α} {hist : List (Call α × Answer α)} {m m' : Machine α} {key value : α}

theorem Holds.size (hW : W.Lawful) (h : Holds W hist m) :
    ∃ keys, Assoc.Keys W.cmp (contents W.cmp hist) keys ∧ tableSize m.tbl = .ok keys.length := by
  obtain ⟨e, hok⟩ := h.table
  refine ⟨(entries W m).map Prod.fst, ?_, ?_⟩
  · rw [← funext h.get]
    exact Assoc.keys_get hW.comparison (ArraysOk.distinct hok)
  · rw [tableSize_eq hW hok, List.length_map]

/-! ### A new table -/

theorem roundUp_zero {length : Nat} (h : 0 < length) (fuel : Nat) :
    roundUp length fuel 0 = .error .diverges := by
  induction fuel with
  | zero => rfl
  | succ fuel ih => rw [roundUp, if_pos h, Nat.zero_mul, wrap_of_lt (by decide), ih]

/-- The loop ends in the least power of two that is not below the length, or never, when that power
is `2 ^ 64`. -/
theorem roundUp_meets (length : Nat) : ∀ fuel i, i ≤ 63 →
    Meets (roundUp length fuel (2 ^ i)) (· = .diverges) fun l =>
      ∃ j ≤ 63, l = 2 ^ j ∧ length ≤ l := by
  intro fuel
  induction fuel with
  | zero =>
    intro i _
    rfl
  | succ fuel ih =>
    intro i hi
    rw [roundUp, ← pow_succ]
    split
    · rename_i hlt
      rcases Nat.lt_or_eq_of_le hi with hi | rfl
      · rw [wrap_of_lt (Nat.pow_lt_pow_right (by decide) (by omega))]
        exact ih (i + 1) hi
      · rw [show wrap (2 ^ (63 + 1)) = 0 from by decide, roundUp_zero (by omega)]
        rfl
    · rename_i hge
      exact ⟨i, hi, rfl, by omega⟩

theorem makeTable_meets (hW : W.Lawful) (sizeofLd now length : Nat) (weakKey weakValue : Bool) :
    Meets (makeTable W sizeofLd now length weakKey weakValue)
      (fun s => s = .outOfMemory ∨ s = .diverges ∨ s = .overrun) fun m =>
        Holds W [] m ∧ m.tbl.weakKey = weakKey ∧ m.tbl.weakValue = weakValue := by
  have hmemory : ∀ {t t' l} s, MemoryStop W t t' l s → s = .outOfMemory ∨ s = .diverges ∨ s = .overrun := by
    rintro t t' l s (⟨rfl, -⟩ | ⟨rfl, -⟩)
    · exact Or.inl rfl
    · exact Or.inr (Or.inr rfl)
  rw [makeTable]
  split
  · exact Or.inl rfl
  · refine ((roundUp_meets length 65 0 (by decide)).mono (fun _ h => Or.inr (Or.inl h))
      fun _ h => h).bind ?_
    rintro _ ⟨e, -, rfl, -⟩
    refine ((makeBuckets_meets W (now + 1) e).mono hmemory fun _ h => h).bind ?_
    rintro _ ⟨he, rfl⟩
    refine ((makeBuckets_meets W (now + 2) e).mono hmemory fun _ h => h).bind ?_
    rintro _ ⟨-, rfl⟩
    refine ⟨⟨⟨e, arraysOk_fresh hW he le_rfl⟩, fun key => ?_⟩, rfl, rfl⟩
    rw [stored, entries, entriesOf_fresh hW]
    rfl

/-! ### A call keeps the invariant -/

/-- The calls of a client that only uses keys and rehashes to a power of two above the number of
entries. -/
def Fits (W : World α) (m : Machine α) : Call α → Prop
  | .set key _ | .trySet key _ | .delete key | .ref key => W.IsKey key
  | .rehash newLength _ => (∃ e, newLength = 2 ^ e) ∧ (entries W m).length < newLength
  | .relocate => True
  | .scan _ => False

/-- How a call can stop: for want of memory, or in the `AVER` on the retry of `table_set`. -/
def CallStop (W : World α) (m : Machine α) : Call α → Stop → Prop
  | .set .., s => SetStop W m s
  | .trySet .., s | .delete _, s | .ref _, s => FindStop W m s
  | .rehash newLength _, s => MemoryStop W m.now (m.now + 2) newLength s
  | .relocate, _ | .scan _, _ => False

omit [DecidableEq α] in
/-- Where the MPS reports staleness for a reason only, no `AVER` fails. -/
theorem CallStop.ne_aver {c : Call α} {s : Stop} (h : CallStop W m c s) (hsettled : W.Settled) : s ≠ .aver := by
  rintro rfl
  cases c with
  | set key value =>
    rcases h with hfind | hmemory | ⟨-, hunsettled⟩
    · cases hfind.1
    · rcases hmemory with hmemory | hmemory
      · cases hmemory.1
      · cases hmemory.1
    · exact hunsettled hsettled
  | trySet | delete | ref => cases h.1
  | rehash newLength key =>
    rcases h with h | h
    · cases h.1
    · cases h.1
  | relocate | scan => exact h

theorem call_meets (hW : W.Lawful) (htracked : W.Tracked) {e : Nat} (h : TableOk W e m)
    {c : Call α} (hfits : Fits W m c) :
    Meets (m.call W c) (CallStop W m c) fun (answer, m') => (∃ e, TableOk W e m') ∧
      ∀ key, stored W m' key = Call.effect W.cmp (stored W m) (c, answer) key := by
  cases c with
  | set key value =>
    refine (tableSet_meets hW htracked h hfits value).bind ?_
    intro m' hpost
    exact ⟨hpost.1.elim (fun h => ⟨e, h⟩) fun h => ⟨e + 1, h⟩, hpost.2⟩
  | trySet key value =>
    refine (tableTrySet_meets hW htracked h hfits value).bind ?_
    rintro ⟨res, m'⟩ ⟨hok, -, hdone, hsame, -⟩
    refine ⟨⟨e, hok⟩, ?_⟩
    cases res with
    | true => exact hdone rfl
    | false => exact fun k => (stored_perm hW h (hsame rfl).symm k).symm
  | delete key =>
    refine (tableDelete_meets hW htracked h hfits).bind ?_
    intro m' hpost
    exact ⟨⟨e, hpost.1⟩, hpost.2⟩
  | rehash newLength key =>
    obtain ⟨⟨e', rfl⟩, hroom⟩ := hfits
    refine (tableRehash_meets hW h hroom.le key).bind ?_
    intro ⟨found, m'⟩ hr
    exact ⟨⟨e', hr.table⟩, fun k => (stored_perm hW h hr.perm.symm k).symm⟩
  | ref key =>
    refine (tableRef_meets hW htracked h hfits).bind ?_
    rintro ⟨v, m'⟩ ⟨hok, -, hperm, -⟩
    exact ⟨⟨e, hok⟩, fun k => (stored_perm hW h hperm.symm k).symm⟩
  | relocate => exact ⟨⟨e, ArraysOk.mono h (Nat.le_succ _) (fun _ h => h) rfl⟩, fun _ => rfl⟩
  | scan s => exact hfits.elim

/-! ### Runs without scans -/

/-- `Fits`, with the number of keys taken from the map of the history. -/
def Allowed (W : World α) (hist : List (Call α × Answer α)) : Call α → Prop
  | .set key _ | .trySet key _ | .delete key | .ref key => W.IsKey key
  | .rehash newLength _ => (∃ e, newLength = 2 ^ e) ∧
      ∀ keys, Assoc.Keys W.cmp (contents W.cmp hist) keys → keys.length < newLength
  | .relocate => True
  | .scan _ => False

theorem Allowed.fits (hW : W.Lawful) (h : Holds W hist m) {c : Call α} (hallowed : Allowed W hist c) :
    Fits W m c := by
  cases c with
  | rehash newLength key =>
    obtain ⟨e, hok⟩ := h.table
    obtain ⟨keys, hkeys, hsize⟩ := h.size hW
    rw [tableSize_eq hW hok, Except.ok.injEq] at hsize
    exact ⟨hallowed.1, hsize ▸ hallowed.2 keys hkeys⟩
  | set | trySet | delete | ref | relocate | scan => exact hallowed

theorem Holds.call (hW : W.Lawful) (htracked : W.Tracked) (h : Holds W hist m) {c : Call α}
    (hallowed : Allowed W hist c) :
    Meets (m.call W c) (CallStop W m c) fun (answer, m') => Holds W ((c, answer) :: hist) m' := by
  obtain ⟨e, hok⟩ := h.table
  refine (call_meets hW htracked hok (hallowed.fits hW h)).mono (fun _ h => h) ?_
  intro ⟨answer, m'⟩ hpost
  refine ⟨hpost.1, fun key => ?_⟩
  rw [contents, ← funext h.get]
  exact hpost.2 key

theorem Holds.ref (hW : W.Lawful) (htracked : W.Tracked) (h : Holds W hist m) (hkey : W.IsKey key) :
    Meets (tableRef W m key) (FindStop W m) fun (v, _) => v = (contents W.cmp hist key).getD W.null := by
  obtain ⟨e, hok⟩ := h.table
  refine (tableRef_meets hW htracked hok hkey).mono (fun _ h => h) ?_
  rintro ⟨v, m'⟩ ⟨-, -, -, hv⟩
  rw [← h.get, hv]

/-- The table holds the map of its history in every state of every run. -/
theorem CallRun.holds (hW : W.Lawful) (htracked : W.Tracked)
    {rule : List (Call α × Answer α) → Machine α → Call α → Prop}
    (hrule : ∀ hist m c, rule hist m c → Allowed W hist c) {start : Machine α}
    (hstart : Holds W [] start) (hrun : CallRun W rule start hist m) : Holds W hist m := by
  refine hrun.invariant (Holds W) hstart ?_
  intro hist m ⟨c, answer⟩ m' hholds ⟨hok, hcall⟩
  exact (hholds.call hW htracked (hrule hist m c hok)).of_ok hcall

/-! ### A small world -/

/-- A new table of two slots, at time 3. -/
def emptyTable : Machine Nat where
  tbl := {
    keys := ⟨5, 1, 1, [1, 1]⟩
    values := ⟨5, 1, 1, [1, 1]⟩
    ld := ⟨[], 3⟩
    weakKey := false
    weakValue := false }
  now := 3
  calls := 0

end ManagedObject.Metadata
