import ManagedObject.Metadata.Refinement

/-!
# The load of a table

How many key slots are occupied, by present keys and by tombstones, and how that count decides whether
`table_set` doubles the table. A search that records nothing and a rehash never occupy more slots, and a
set occupies at most one more.
-/

namespace ManagedObject.Metadata

open Format Outcome Lib

variable {α : Type} [DecidableEq α] {W : World α} {e b : Nat} {key value : α} {m m' : Machine α}
  {ks : List α} {add : Bool} {found : Option Nat}

def occupied (W : World α) (m : Machine α) : Nat := usedCount W m.tbl.keys.bucket

theorem TableOk.used_eq (h : TableOk W e m) : untagCount m.tbl.keys.used = occupied W m := by
  have hle := usedCount_le (W := W) m.tbl.keys.bucket
  have hpow := ArraysOk.pow_lt h
  rw [h.slots.length] at hle
  rw [h.used, untagCount_tagCount (by omega), occupied]

theorem length_entries_le_occupied (hW : W.Lawful) (h : TableOk W e m) :
    (entries W m).length ≤ occupied W m := by
  rw [entries, length_entriesOf (ArraysOk.slots_eq h), occupied, usedCount_eq hW]
  omega

/-- A rehash leaves the tombstones behind. -/
theorem Rehashed.occupied_eq (hW : W.Lawful) (hr : Rehashed W e key m found m') :
    occupied W m' = (entries W m).length := by
  rw [occupied, usedCount_eq hW, hr.noTombs, Nat.add_zero,
    ← length_entriesOf (ArraysOk.slots_eq hr.table), ← hr.perm.length_eq, entries]

/-! ### Searching a table that is not full -/

theorem mem_unused (hlt : usedCount W ks < ks.length) : W.unused ∈ ks := by
  by_contra hnot
  have hall : usedCount W ks = ks.length := by
    rw [usedCount, List.countP_eq_length]
    intro k hk
    rw [decide_eq_true_eq]
    rintro rfl
    exact hnot hk
  omega

/-- An unused slot lies on every probe sequence, so every search ends. -/
theorem search_ne_none (hlength : ks.length = 2 ^ e) (hunused : W.unused ∈ ks) (key : α)
    (hash : BitVec 64) :
    Probe.search (freeAt W ks) (hitAt W ks key) (tombAt W ks) (probes e hash) ≠ none := by
  intro hnone
  exact ((search_eq_none_iff hlength hash).mp hnone W.unused hunused).1 rfl

/-- The answer of the MPS to the query that a search for a key makes. -/
def staleAt (W : World α) (m : Machine α) (key : α) (add : Bool) : Bool :=
  W.isStale m.calls (m.tbl.ld.afterFind W m.now key add) m.now key

theorem tableFind_occupied (hW : W.Lawful) (h : TableOk W e m) (key : α) (add : Bool) :
    Meets (tableFind W m key add) (fun _ => True) fun (found, m') => occupied W m' ≤ occupied W m ∧
      (occupied W m < 2 ^ e → found = none → staleAt W m key add = true) := by
  have hlater : TableOk W e { m with tbl := { m.tbl with ld := m.tbl.ld.afterFind W m.now key add } } :=
    h.mono le_rfl (Ld.subset_afterFind add) (Ld.reset_afterFind add)
  rw [tableFind, bucketsFind_eq h.small h.slots.length h.keysLength]
  cases hs : Probe.search (freeAt W m.tbl.keys.bucket) (hitAt W m.tbl.keys.bucket key)
      (tombAt W m.tbl.keys.bucket) (probes e (W.hash m.now key)) with
  | none =>
    refine ⟨le_rfl, fun hroom _ => ?_⟩
    rw [occupied, ← h.slots.length] at hroom
    exact absurd hs (search_ne_none h.slots.length (mem_unused hroom) key _)
  | some b =>
    obtain ⟨-, k, hb, -⟩ := search_some hs
    simp only [bind, Except.bind, read_eq hb]
    split
    · split
      · rename_i hstale
        have hroom : (entries W m).length ≤ 2 ^ e := length_entries_le h
        have hcount : (entries W m).length ≤ occupied W m := length_entries_le_occupied hW h
        have hrehash := tableRehash_meets (m := { m with
          tbl := { m.tbl with ld := m.tbl.ld.afterFind W m.now key add }, calls := m.calls + 1 })
          hW hlater hroom key
        rw [TableOk.length_eq h]
        refine hrehash.mono (fun _ _ => trivial) ?_
        intro r hr
        obtain ⟨found, m'⟩ := r
        refine ⟨?_, fun _ _ => hstale⟩
        rw [hr.occupied_eq hW]
        exact hcount
      · exact ⟨le_rfl, fun _ hnone => by cases hnone⟩
    · exact ⟨le_rfl, fun _ hnone => by cases hnone⟩

/-! ### Storing a key -/

theorem usedCount_set_le {x k : α} (hk : ks[b]? = some k) :
    usedCount W (ks.set b x) ≤ usedCount W ks + 1 := by
  rw [usedCount_set hk]
  split <;> split <;> omega

theorem usedCount_set_of_ne {x k : α} (hk : ks[b]? = some k) (hne : k ≠ W.unused) :
    usedCount W (ks.set b x) ≤ usedCount W ks := by
  have hpos := usedCount_pos hk hne
  rw [usedCount_set hk, if_pos hne]
  split <;> omega

theorem storeAt_occupied (W : World α) (m : Machine α) (b : Nat) (key value : α) :
    Meets (storeAt W m b key value) (fun _ => True) fun m' => occupied W m' ≤ occupied W m + 1 := by
  cases hk : m.tbl.keys.bucket[b]? with
  | none => simp [storeAt, Buckets.read, hk, bind, Except.bind]
  | some k =>
    have hset := usedCount_set_le (W := W) (x := key) hk
    simp only [storeAt, bind, Except.bind, read_eq hk]
    by_cases hun : k = W.unused
    · rw [if_pos hun]
      exact hset
    · rw [if_neg hun]
      by_cases hdel : k = W.deleted
      · rw [if_pos hdel]
        cases aver _ with
        | ok _ => exact hset
        | error _ => trivial
      · rw [if_neg hdel]
        exact Nat.le_succ _

theorem tableTrySet_occupied (hW : W.Lawful) (h : TableOk W e m) (key value : α) :
    Meets (tableTrySet W m key value) (fun _ => True) fun (res, m') =>
      occupied W m' ≤ occupied W m + 1 ∧ (res = false → occupied W m' ≤ occupied W m) ∧
      (occupied W m < 2 ^ e → res = false → staleAt W m key true = true) := by
  refine (tableFind_occupied hW h key true).bind ?_
  intro ⟨found, m'⟩ ⟨hle, hstale⟩
  cases found with
  | none => exact ⟨Nat.le_succ_of_le hle, fun _ => hle, fun hroom _ => hstale hroom rfl⟩
  | some b =>
    refine (storeAt_occupied W m' b key value).bind ?_
    intro m'' hle'
    exact ⟨by omega, fun hres => absurd hres (by decide), fun _ hres => absurd hres (by decide)⟩

/-- The key that `table_try_set` has no slot for is not in the table. -/
theorem tableTrySet_absent (hW : W.Lawful) (htracked : W.Tracked) (h : TableOk W e m) (hkey : W.IsKey key)
    (value : α) : Meets (tableTrySet W m key value) (fun _ => True) fun (res, _) =>
      res = false → stored W m key = none := by
  refine ((tableFind_meets hW htracked h hkey true).mono (fun _ _ => trivial) fun _ h => h).bind ?_
  intro ⟨found, m'⟩ hfind
  cases found with
  | none =>
    intro _
    rw [stored_perm hW h hfind.perm.symm key]
    rcases hfind.outcome with ⟨_, _, hfound, _⟩ | ⟨habsent, _⟩
    · cases hfound
    · exact stored_of_absent hfind.table habsent
  | some b =>
    refine (storeAt_occupied W m' b key value).bind ?_
    intro m'' _ hres
    cases hres

theorem tableDelete_occupied (hW : W.Lawful) (h : TableOk W e m) (key : α) :
    Meets (tableDelete W m key) (fun _ => True) fun m' => occupied W m' ≤ occupied W m := by
  refine (tableFind_occupied hW h key false).bind ?_
  intro ⟨found, m'⟩ ⟨hle, _⟩
  cases found with
  | none => exact hle
  | some b =>
    cases hk : m'.tbl.keys.bucket[b]? with
    | none => simp [Buckets.read, hk, bind, Except.bind]
    | some k =>
      simp only [bind, Except.bind, read_eq hk]
      split
      · rename_i hlive
        rw [live_test] at hlive
        exact (usedCount_set_of_ne hk (live_iff.mp hlive).1).trans hle
      · exact hle

theorem tableRef_occupied (hW : W.Lawful) (h : TableOk W e m) (key : α) :
    Meets (tableRef W m key) (fun _ => True) fun (_, m') => occupied W m' ≤ occupied W m := by
  refine (tableFind_occupied hW h key false).bind ?_
  intro ⟨found, m'⟩ ⟨hle, _⟩
  cases found with
  | none => exact hle
  | some b =>
    cases hk : m'.tbl.keys.bucket[b]? with
    | none => simp [Buckets.read, hk, bind, Except.bind]
    | some k =>
      simp only [bind, Except.bind, read_eq hk]
      split
      · cases hv : m'.tbl.values.bucket[b]? with
        | none => simp [Buckets.read, hv]
        | some v =>
          simp only [read_eq hv]
          exact hle
      · exact hle

/-! ### When a table is full -/

/-- The comparison of a tagged count with half a tagged length. -/
theorem tagCount_ge_half_iff (he : 1 ≤ e) (hsmall : e ≤ 60) {used : Nat} (hused : used ≤ 2 ^ e) :
    tagCount used ≥ tagCount (2 ^ e) / 2 ↔ used ≥ 2 ^ e / 2 := by
  obtain ⟨e, rfl⟩ : ∃ n, e = n + 1 := ⟨e - 1, by omega⟩
  have hpow : 2 ^ (e + 1) ≤ 2 ^ 60 := Nat.pow_le_pow_right (by decide) hsmall
  rw [tagCount_of_lt (by omega), tagCount_of_lt (by omega), pow_succ]
  omega

theorem tableFull_iff (h : TableOk W e m) : tableFull m.tbl = true ↔ 2 ^ e ≤ 2 * occupied W m + 1 := by
  have hle := usedCount_le (W := W) m.tbl.keys.bucket
  have hpow := ArraysOk.pow_lt h
  have hpos := Nat.two_pow_pos e
  rw [h.slots.length] at hle
  rw [tableFull, decide_eq_true_eq, h.used, h.keysLength, tagCount_of_lt (by omega),
    tagCount_of_lt (by omega), ← occupied]
  omega

end ManagedObject.Metadata
