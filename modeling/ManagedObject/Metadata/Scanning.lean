import ManagedObject.Metadata.Runs

/-!
# Scanning a table with weak references

The collector scans the two arrays of a table one at a time, between any two operations. A slot
whose referent died is turned into a tombstone in both arrays. The scanner recognises such a slot by
a `NULL` behind the fix, and a slot can hold `NULL` for another reason: `table_delete` stores it
under the tombstone it leaves, and a client may store it as a value.
-/

namespace ManagedObject.Metadata

open Format Outcome Lib

variable {α : Type} [DecidableEq α]

def Machine.part (m : Machine α) : Part → Buckets α
  | .keys => m.tbl.keys
  | .values => m.tbl.values

def Machine.weak (m : Machine α) : Part → Bool
  | .keys => m.tbl.weakKey
  | .values => m.tbl.weakValue

/-- The reference in slot `i` of the scanned array dies in this scan. -/
def dying (W : World α) (m : Machine α) (s : Scan α) (i : Nat) : Bool :=
  (m.part s.part).bucket[i]?.any fun p => W.managed p && m.weak s.part && s.dies i

/-- What the MPS guarantees for a scan: the filter accepts a reference that dies, and what dies is
the key or the value of an entry. -/
structure ScanOk (W : World α) (m : Machine α) (s : Scan α) : Prop where
  filter : ∀ i p, dying W m s i = true → (m.part s.part).bucket[i]? = some p → s.fix1 p = true
  entry : ∀ i, dying W m s i = true → ∃ k, m.tbl.keys.bucket[i]? = some k ∧ W.live k = true

/-- No slot of the scanned array holds `NULL`, unless the filter rejects it. -/
def NullSafe (W : World α) (m : Machine α) (s : Scan α) : Prop :=
  W.null ∈ (m.part s.part).bucket → s.fix1 W.null = false

/-- The entries in the slots that do not die, in the order of the slots. -/
def survivors (W : World α) (m : Machine α) (s : Scan α) : List (α × α) :=
  ((m.tbl.keys.bucket.zip m.tbl.values.bucket).zipIdx.filter fun p =>
    W.live p.1.1 && !dying W m s p.2).map Prod.fst

variable {W : World α} {e n i : Nat} {ks vs xs : List α} {ld : Ld α} {now : Nat} {key k x : α}
  {m : Machine α} {s : Scan α} {b d keys values values' : Buckets α} {dead : Nat → Bool}

/-! ### Clearing slots -/

/-- The slots before `n` that `dead` selects are tombstones. -/
def cleared (W : World α) (dead : Nat → Bool) (n : Nat) (xs : List α) : List α :=
  xs.mapIdx fun i x => if i < n && dead i then W.deleted else x

omit [DecidableEq α] in
theorem getElem?_cleared : (cleared W dead n xs)[i]? =
    xs[i]?.map fun x => if i < n && dead i then W.deleted else x := by
  rw [cleared, List.getElem?_mapIdx]

omit [DecidableEq α] in
theorem getElem?_cleared_of_le (h : n ≤ i) : (cleared W dead n xs)[i]? = xs[i]? := by
  rw [getElem?_cleared]
  simp [Nat.not_lt.mpr h]

omit [DecidableEq α] in
theorem cleared_zero : cleared W dead 0 xs = xs := by
  apply List.ext_getElem?
  intro i
  rw [getElem?_cleared]
  simp

omit [DecidableEq α] in
theorem cleared_succ_of_dead (hdead : dead n = true) :
    cleared W dead (n + 1) xs = (cleared W dead n xs).set n W.deleted := by
  apply List.ext_getElem?
  intro i
  rw [List.getElem?_set, getElem?_cleared, getElem?_cleared]
  by_cases hi : n = i
  · subst hi
    cases hx : xs[n]? with
    | none => simp_all [cleared]
    | some x => simp_all [cleared, (List.getElem?_eq_some_iff.mp hx).1]
  · have hlt : i < n + 1 ↔ i < n := by omega
    simp only [hi, hlt, if_false]

omit [DecidableEq α] in
theorem cleared_succ_of_not_dead (hdead : dead n = false) :
    cleared W dead (n + 1) xs = cleared W dead n xs := by
  apply List.ext_getElem?
  intro i
  rw [getElem?_cleared, getElem?_cleared]
  by_cases hi : i = n
  · subst hi
    simp [hdead]
  · have hlt : i < n + 1 ↔ i < n := by omega
    simp only [hlt]

theorem entriesOf_cleared (hn : n = ks.length) :
    entriesOf W (cleared W dead n ks) (cleared W dead n vs) =
      ((ks.zip vs).zipIdx.filter fun p => W.live p.1.1 && !dead p.2).map Prod.fst := by
  have hzip : (cleared W dead n ks).zip (cleared W dead n vs) =
      (ks.zip vs).zipIdx.map fun p => if dead p.2 then (W.deleted, W.deleted) else p.1 := by
    apply List.ext_getElem
    · simp [cleared]
    · intro i hi hi'
      have hlt : i < n := by
        rw [List.length_zip, cleared, List.length_mapIdx] at hi
        omega
      simp only [cleared, List.getElem_zip, List.getElem_map, List.getElem_zipIdx,
        List.getElem_mapIdx, hlt, decide_true, Bool.true_and, Nat.zero_add]
      cases dead i <;> rfl
  have hlive : ∀ p : (α × α) × Nat,
      W.live (if dead p.2 then (W.deleted, W.deleted) else p.1).1 = (W.live p.1.1 && !dead p.2) := by
    intro p
    cases dead p.2 <;> simp [World.live]
  rw [entriesOf, hzip, List.filter_map]
  simp only [Function.comp_def, hlive]
  apply List.map_congr_left
  intro p hp
  obtain ⟨-, hp⟩ := List.mem_filter.mp hp
  rw [Bool.and_eq_true, Bool.not_eq_true'] at hp
  rw [hp.2, if_neg Bool.false_ne_true]

/-! ### One round -/

def Buckets.splat (W : World α) (b : Buckets α) (i : Nat) : Buckets α :=
  { b with deleted := tagCount (untagCount b.deleted + 1), bucket := b.bucket.set i W.deleted }

omit [DecidableEq α] in
theorem fix2_of_not_dies {weak : Bool} (h : (W.managed x && weak && s.dies i) = false) :
    fix2 W weak s.dies i x = x := by
  rw [fix2, h, if_neg Bool.false_ne_true]

theorem scanSlot_eq {weak : Bool} (hb : b.bucket[i]? = some x) :
    scanSlot W weak s (b, d) i =
      .ok (if s.fix1 x && decide (fix2 W weak s.dies i x = W.null) then (b.splat W i, d.splat W i)
        else (b, d)) := by
  simp only [scanSlot, bind, Except.bind, read_eq hb]
  cases hfix : s.fix1 x with
  | false => rfl
  | true =>
    by_cases hnull : fix2 W weak s.dies i x = W.null
    · simp only [hnull, if_true, decide_true, Bool.and_self]
      rfl
    · have hkept : fix2 W weak s.dies i x = x := by
        apply fix2_of_not_dies
        rw [← Bool.not_eq_true]
        intro hdies
        rw [fix2, if_pos hdies] at hnull
        exact hnull rfl
      have hsame : b.write i x = b := by
        obtain ⟨hlt, rfl⟩ := List.getElem?_eq_some_iff.mp hb
        rw [Buckets.write, List.set_getElem_self hlt]
      rw [hkept] at hnull ⊢
      simp only [if_true, hnull, decide_false, Bool.and_false, if_false, hsame]
      rfl

/-- Which of two arrays in the order of a scan holds the keys. -/
def Part.keysOf : Part → Buckets α × Buckets α → Buckets α
  | .keys, arrays => arrays.1
  | .values, arrays => arrays.2

def Part.valuesOf : Part → Buckets α × Buckets α → Buckets α
  | .keys, arrays => arrays.2
  | .values, arrays => arrays.1

/-- The two arrays before round `n` of a scan. -/
structure ScanInv (W : World α) (e : Nat) (m : Machine α) (s : Scan α) (n : Nat)
    (arrays : Buckets α × Buckets α) : Prop where
  ok : ArraysOk W e (s.part.keysOf arrays) (s.part.valuesOf arrays) m.tbl.ld m.now
  keys : (s.part.keysOf arrays).bucket = cleared W (dying W m s) n m.tbl.keys.bucket
  values : (s.part.valuesOf arrays).bucket = cleared W (dying W m s) n m.tbl.values.bucket

theorem ArraysOk.congr_values (h : ArraysOk W e keys values ld now)
    (hlength : values'.length = values.length) (hbucket : values'.bucket = values.bucket) :
    ArraysOk W e keys values' ld now :=
  { h with
    valueSlots := by rw [hbucket, h.valueSlots]
    valuesLength := by rw [hlength, h.valuesLength] }

section
variable (hW : W.Lawful) (hok : ScanOk W m s) (hsafe : NullSafe W m s)
include hok hsafe

/-- Under these conditions a `NULL` behind the fix means that the slot died. -/
theorem splat_iff_dying (hx : (m.part s.part).bucket[i]? = some x) :
    (s.fix1 x && decide (fix2 W (m.weak s.part) s.dies i x = W.null)) = dying W m s i := by
  have hslot : dying W m s i = (W.managed x && m.weak s.part && s.dies i) := by
    rw [dying, hx, Option.any_some]
  rw [hslot]
  cases hdies : W.managed x && m.weak s.part && s.dies i with
  | true =>
    rw [hok.filter i x (hslot.trans hdies) hx, fix2, if_pos hdies]
    simp
  | false =>
    rw [fix2_of_not_dies hdies]
    by_cases hnull : x = W.null
    · subst hnull
      rw [hsafe (List.mem_of_getElem? hx), Bool.false_and]
    · rw [decide_eq_false hnull, Bool.and_false]

include hW

theorem ScanInv.round (hi : i < 2 ^ e) {arrays : Buckets α × Buckets α}
    (hinv : ScanInv W e m s i arrays) :
    Meets (scanSlot W (m.weak s.part) s arrays i) (fun _ => False) (ScanInv W e m s (i + 1)) := by
  obtain ⟨b, d⟩ := arrays
  have hb : b.bucket = cleared W (dying W m s) i (m.part s.part).bucket := by
    have hkeys := hinv.keys
    have hvalues := hinv.values
    cases hpart : s.part with
    | keys => rwa [hpart] at hkeys
    | values => rwa [hpart] at hvalues
  have hlength : b.bucket.length = 2 ^ e := by
    have hslots := hinv.ok.slots.length
    have hvalues := hinv.ok.valueSlots
    cases hpart : s.part with
    | keys => rwa [hpart] at hslots
    | values => rwa [hpart] at hvalues
  obtain ⟨x, hx⟩ := exists_slot hlength hi
  have hword := hx
  rw [hb, getElem?_cleared_of_le le_rfl] at hword
  rw [scanSlot_eq hx, splat_iff_dying hok hsafe hword, meets_ok]
  cases hdying : dying W m s i with
  | false =>
    refine { ok := hinv.ok, keys := ?_, values := ?_ }
    · rw [cleared_succ_of_not_dead hdying]
      exact hinv.keys
    · rw [cleared_succ_of_not_dead hdying]
      exact hinv.values
  | true =>
    obtain ⟨k, hk, hlive⟩ := hok.entry i hdying
    have hkey : (s.part.keysOf (b, d)).bucket[i]? = some k := by
      rw [hinv.keys, getElem?_cleared_of_le le_rfl, hk]
    have hsplat : s.part.keysOf (b.splat W i, d.splat W i) = (s.part.keysOf (b, d)).splat W i ∧
        s.part.valuesOf (b.splat W i, d.splat W i) = (s.part.valuesOf (b, d)).splat W i := by
      cases s.part <;> exact ⟨rfl, rfl⟩
    obtain ⟨hafter, -⟩ := hinv.ok.entomb (x := W.deleted) hW hkey hlive
    refine { ok := ?_, keys := ?_, values := ?_ }
    · rw [if_pos rfl, hsplat.1, hsplat.2]
      exact hafter.congr_values rfl rfl
    · rw [if_pos rfl, hsplat.1, Buckets.splat, hinv.keys, cleared_succ_of_dead hdying]
    · rw [if_pos rfl, hsplat.2, Buckets.splat, hinv.values, cleared_succ_of_dead hdying]

theorem scanBuckets_meets (h : TableOk W e m) (hkeys : s.part.keysOf (b, d) = m.tbl.keys)
    (hvalues : s.part.valuesOf (b, d) = m.tbl.values) :
    Meets (scanBuckets W (m.weak s.part) s b d) (fun _ => False) (ScanInv W e m s (2 ^ e)) := by
  have hlengths : b.length = tagCount (2 ^ e) ∧ d.length = tagCount (2 ^ e) := by
    have hkl := h.keysLength
    have hvl := h.valuesLength
    rw [← hkeys] at hkl
    rw [← hvalues] at hvl
    cases hpart : s.part with
    | keys =>
      rw [hpart] at hkl hvl
      exact ⟨hkl, hvl⟩
    | values =>
      rw [hpart] at hkl hvl
      exact ⟨hvl, hkl⟩
  have hpow := h.pow_lt
  rw [scanBuckets, hlengths.1, hlengths.2, untagCount_tagCount (by omega), aver,
    if_pos (decide_eq_true rfl)]
  refine Meets.foldlM_range ?_ fun i hi arrays hinv => hinv.round hW hok hsafe hi
  refine { ok := ?_, keys := ?_, values := ?_ }
  · rw [hkeys, hvalues]
    exact h
  · rw [hkeys, cleared_zero]
  · rw [hvalues, cleared_zero]

/-- A scan makes tombstones of the entries that die and leaves the others where they are. -/
theorem scanTable_meets (h : TableOk W e m) :
    Meets (scanTable W m s) (fun _ => False) fun m' =>
      TableOk W e m' ∧ entries W m' = survivors W m s := by
  have hpost : ∀ {arrays : Buckets α × Buckets α}, ScanInv W e m s (2 ^ e) arrays →
      ArraysOk W e (s.part.keysOf arrays) (s.part.valuesOf arrays) m.tbl.ld m.now ∧
      entriesOf W (s.part.keysOf arrays).bucket (s.part.valuesOf arrays).bucket = survivors W m s := by
    intro arrays hinv
    refine ⟨hinv.ok, ?_⟩
    rw [hinv.keys, hinv.values, entriesOf_cleared h.slots.length.symm, survivors]
  have hscan : ∀ {b d : Buckets α}, s.part.keysOf (b, d) = m.tbl.keys →
      s.part.valuesOf (b, d) = m.tbl.values → Meets (scanBuckets W (m.weak s.part) s b d)
        (fun _ => False) (ScanInv W e m s (2 ^ e)) :=
    scanBuckets_meets hW hok hsafe h
  rw [scanTable]
  cases hpart : s.part with
  | keys =>
    rw [hpart] at hpost hscan
    refine (hscan rfl rfl).bind ?_
    intro arrays hinv
    exact hpost hinv
  | values =>
    rw [hpart] at hpost hscan
    refine (hscan rfl rfl).bind ?_
    intro arrays hinv
    exact hpost hinv

end

/-! ### Runs with scans -/

/-- The calls of a client, and the scans of the collector. -/
def Served (W : World α) (m : Machine α) : Call α → Prop
  | .scan s => ScanOk W m s
  | c => Fits W m c

theorem Served.scan_or_fits {c : Call α} (h : Served W m c) :
    (∃ s, c = .scan s ∧ ScanOk W m s) ∨ Fits W m c := by
  cases c with
  | scan s => exact Or.inl ⟨s, rfl, h⟩
  | set | trySet | delete | rehash | ref | relocate => exact Or.inr h

/-- Every scan of the run is `NullSafe`. -/
def ScansSafe (W : World α) (m : Machine α) : Call α → Prop
  | .scan s => NullSafe W m s
  | _ => True

theorem TableOk.counts (h : TableOk W e m) :
    untagCount m.tbl.keys.used = usedCount W m.tbl.keys.bucket ∧
    untagCount m.tbl.keys.deleted = deletedCount W m.tbl.keys.bucket := by
  have hused := usedCount_le (W := W) m.tbl.keys.bucket
  have hdeleted := deletedCount_le (W := W) m.tbl.keys.bucket
  have hpow := ArraysOk.pow_lt h
  rw [h.slots.length] at hused hdeleted
  rw [h.used, h.deleted, untagCount_tagCount (by omega), untagCount_tagCount (by omega)]
  exact ⟨rfl, rfl⟩

theorem TableOk.found (h : TableOk W e m) (hW : W.Lawful) (htracked : W.Tracked) {p : α × α}
    (hp : p ∈ entries W m) :
    Meets (tableRef W m p.1) (FindStop W m) fun (v, _) => v = p.2 := by
  obtain ⟨hlive, i, hk, hv⟩ := mem_entriesOf.mp hp
  refine (tableRef_meets hW htracked h (h.slots.isKey i p.1 hk hlive)).mono (fun _ h => h) ?_
  rintro ⟨v, m'⟩ ⟨-, -, -, hanswer⟩
  rw [hanswer, stored_of_slot hW h hk hv hlive (hW.comparison.refl _), Option.getD_some]

theorem CallRun.table_ok (hW : W.Lawful) (htracked : W.Tracked) {hist : List (Call α × Answer α)}
    {start : Machine α} (hstart : ∃ e, TableOk W e start)
    (hrun : CallRun W (fun _ m c => Served W m c ∧ ScansSafe W m c) start hist m) :
    ∃ e, TableOk W e m := by
  refine hrun.invariant (fun _ m => ∃ e, TableOk W e m) hstart ?_
  intro hist m ⟨c, answer⟩ m' ⟨e, h⟩ ⟨⟨hserved, hsafe⟩, hcall⟩
  rcases hserved.scan_or_fits with ⟨s, rfl, hok⟩ | hfits
  · obtain ⟨m₁, hscan, hresult⟩ := bind_eq_ok hcall
    cases hresult
    exact ⟨e, ((scanTable_meets hW hok hsafe h).of_ok hscan).1⟩
  · exact ((call_meets hW htracked h hfits).of_ok hcall).1

theorem scans_keep_books (hW : W.Lawful) (htracked : W.Tracked) {sizeofLd length : Nat}
    {weakKey weakValue : Bool} {start : Machine α} {hist : List (Call α × Answer α)}
    (hmake : makeTable W sizeofLd now length weakKey weakValue = .ok start)
    (hrun : CallRun W (fun _ m c => Served W m c ∧ ScansSafe W m c) start hist m) :
    untagCount m.tbl.keys.used = usedCount W m.tbl.keys.bucket ∧
    untagCount m.tbl.keys.deleted = deletedCount W m.tbl.keys.bucket ∧
    (∀ p ∈ entries W m, Meets (tableRef W m p.1) (FindStop W m) fun (v, _) => v = p.2) ∧
    (∀ c, Fits W m c → Meets (m.call W c) (CallStop W m c) fun (answer, m') =>
      ∀ key, stored W m' key = Call.effect W.cmp (stored W m) (c, answer) key) ∧
    ∀ s, ScanOk W m s → NullSafe W m s → Meets (scanTable W m s) (fun _ => False) fun m' =>
      entries W m' = survivors W m s ∧
      ∀ p ∈ survivors W m s, Meets (tableRef W m' p.1) (FindStop W m') fun (v, _) => v = p.2 := by
  have hstart := ((makeTable_meets hW sizeofLd now length weakKey weakValue).of_ok hmake).1.table
  obtain ⟨e, h⟩ := hrun.table_ok hW htracked hstart
  refine ⟨h.counts.1, h.counts.2, fun p hp => h.found hW htracked hp, fun c hc => ?_,
    fun s hok hsafe => ?_⟩
  · exact (call_meets hW htracked h hc).mono (fun _ h => h) fun _ h => h.2
  · refine (scanTable_meets hW hok hsafe h).mono (fun _ h => h) ?_
    intro m' ⟨h', hentries⟩
    exact ⟨hentries, fun p hp => h'.found hW htracked (hentries.symm ▸ hp)⟩

def weakTable (keys values : Buckets Nat) (calls : Nat) : Machine Nat where
  tbl := { keys, values, ld := ⟨[], 3⟩, weakKey := false, weakValue := true }
  now := 3
  calls := calls

/-- The value of the first slot dies in a scan of the values, the only one that the filter accepts. -/
theorem scans_keep_books_weak : ∃ m',
    tableRef digitWorld (weakTable ⟨9, 5, 3, [2, 1, 1, 3]⟩ ⟨9, 1, 3, [2, 1, 1, 7]⟩ 2) 3 = .ok (7, m') := by
  have hserved : ∀ c ∈ [Call.set 3 7, .set 4 8], ∀ m,
      Served digitWorld m c ∧ ScansSafe digitWorld m c := by
    simp [Served, ScansSafe, Fits, World.IsKey, digitWorld]
  have hsets : CallRun digitWorld (fun _ m c => Served digitWorld m c ∧ ScansSafe digitWorld m c)
      (weakTable ⟨9, 1, 1, [1, 1, 1, 1]⟩ ⟨9, 1, 1, [1, 1, 1, 1]⟩ 0)
      [(.set 4 8, .done), (.set 3 7, .done)]
      (weakTable ⟨9, 5, 1, [4, 1, 1, 3]⟩ ⟨9, 1, 1, [8, 1, 1, 7]⟩ 2) :=
    CallRun.callAll .start (fun _ m c hc => hserved c hc m)
      (rfl : (weakTable ⟨9, 1, 1, [1, 1, 1, 1]⟩ ⟨9, 1, 1, [1, 1, 1, 1]⟩ 0).callAll digitWorld []
        [.set 3 7, .set 4 8] = _)
  have hfirst : ∀ i, dying digitWorld (weakTable ⟨9, 5, 1, [4, 1, 1, 3]⟩ ⟨9, 1, 1, [8, 1, 1, 7]⟩ 2)
      ⟨.values, (· = 8), (· = 0)⟩ i = true → i = 0 := by
    intro i hi
    simp only [dying, Option.any_eq_true, Bool.and_eq_true, decide_eq_true_eq] at hi
    obtain ⟨_, -, -, hi⟩ := hi
    exact hi
  have hscan : ScanOk digitWorld (weakTable ⟨9, 5, 1, [4, 1, 1, 3]⟩ ⟨9, 1, 1, [8, 1, 1, 7]⟩ 2)
      ⟨.values, (· = 8), (· = 0)⟩ := {
    filter := fun i x hi hx => by
      rw [hfirst i hi] at hx
      cases hx
      rfl
    entry := fun i hi => by
      rw [hfirst i hi]
      exact ⟨4, rfl, rfl⟩ }
  have hsafe : NullSafe digitWorld (weakTable ⟨9, 5, 1, [4, 1, 1, 3]⟩ ⟨9, 1, 1, [8, 1, 1, 7]⟩ 2)
      ⟨.values, (· = 8), (· = 0)⟩ := fun _ => rfl
  have hrun : CallRun digitWorld (fun _ m c => Served digitWorld m c ∧ ScansSafe digitWorld m c)
      (weakTable ⟨9, 1, 1, [1, 1, 1, 1]⟩ ⟨9, 1, 1, [1, 1, 1, 1]⟩ 0)
      [(.scan ⟨.values, (· = 8), (· = 0)⟩, .done), (.set 4 8, .done), (.set 3 7, .done)]
      (weakTable ⟨9, 5, 3, [2, 1, 1, 3]⟩ ⟨9, 1, 3, [2, 1, 1, 7]⟩ 2) :=
    hsets.next ⟨⟨hscan, hsafe⟩, rfl⟩
  have hmake : makeTable digitWorld 24 0 4 false true =
      .ok (weakTable ⟨9, 1, 1, [1, 1, 1, 1]⟩ ⟨9, 1, 1, [1, 1, 1, 1]⟩ 0) := rfl
  have htracked := World.Tracked.of_fixed digitWorld_lawful fun _ _ _ => rfl
  obtain ⟨-, -, hfound, -⟩ := scans_keep_books digitWorld_lawful htracked hmake hrun
  obtain ⟨⟨v, m'⟩, hcall, rfl⟩ := returns_of_reserved (hfound (3, 7) (by decide)) (World.not_refuses fun _ _ => rfl)
  exact ⟨m', hcall⟩

/-- A scan of the values that fixes every word. -/
def valueScan (dies : Nat → Bool) : Scan Nat := { part := .values, fix1 := fun _ => true, dies }

def deletedTable : Machine Nat where
  tbl := {
    keys := ⟨5, 3, 3, [1, 2]⟩
    values := ⟨5, 1, 1, [1, 0]⟩
    ld := ⟨[], 3⟩
    weakKey := false
    weakValue := false }
  now := 3
  calls := 1

def countedTwice : Machine Nat where
  tbl := {
    keys := ⟨5, 3, 5, [1, 2]⟩
    values := ⟨5, 1, 3, [1, 2]⟩
    ld := ⟨[], 3⟩
    weakKey := false
    weakValue := false }
  now := 3
  calls := 1

/-- A deleted entry is counted again by a scan of the values. -/
theorem scan_counts_twice : ∃ hist m,
    makeTable digitWorld 24 0 2 false false = .ok emptyTable ∧
    CallRun digitWorld (fun _ m c => Served digitWorld m c) emptyTable hist m ∧
    untagCount m.tbl.keys.deleted = 2 ∧ deletedCount digitWorld m.tbl.keys.bucket = 1 := by
  have hserved : ∀ c ∈ [Call.set 3 7, .delete 3], ∀ m, Served digitWorld m c := by
    simp [Served, Fits, World.IsKey, digitWorld]
  have hrun : CallRun digitWorld (fun _ m c => Served digitWorld m c) emptyTable
      [(.delete 3, .done), (.set 3 7, .done)] deletedTable :=
    CallRun.callAll .start (fun _ m c hc => hserved c hc m)
      (rfl : emptyTable.callAll digitWorld [] [.set 3 7, .delete 3] = _)
  have hscan : Served digitWorld deletedTable (.scan (valueScan fun _ => false)) := {
    filter := fun _ _ _ _ => rfl
    entry := fun i hi => by simp [dying, valueScan] at hi }
  have hlast : deletedTable.call digitWorld (.scan (valueScan fun _ => false)) =
      .ok (.done, countedTwice) := rfl
  have hcounted : CallRun digitWorld (fun _ m c => Served digitWorld m c) emptyTable
      [(.scan (valueScan fun _ => false), .done), (.delete 3, .done), (.set 3 7, .done)]
      countedTwice := hrun.next ⟨hscan, hlast⟩
  exact ⟨_, _, rfl, hcounted, rfl, rfl⟩

end ManagedObject.Metadata
