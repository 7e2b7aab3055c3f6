import ManagedObject.Hashmap.Probing

/-!
# What the functions of the map do

The hook, the frees and the new tables in the equations of the functions, and for each function the cases
of its result: what an error leaves, and what the state is after a success.
-/

namespace ManagedObject.Hashmap

open Format Linear Outcome

variable {K D : Type} {f : Functions K} {p p' : Process K D} {tableSize : Nat}

@[simp] theorem report_base (newMem : Option Nat) (lengthInBytes : Nat) :
    (p.report newMem lengthInBytes).base = p.base := by
  rw [Process.report]
  split <;> rfl

theorem report_reports (newMem : Option Nat) (lengthInBytes : Nat) :
    (p.report newMem lengthInBytes).reports = if p.base.onRealloc then
      ⟨newMem, lengthInBytes, p.base.table, p.blocks⟩ :: p.reports else p.reports := by
  rw [Process.report]
  split <;> rfl

@[simp] theorem free_base (table : Option (Table K D)) : (p.free table).base = p.base := rfl

@[simp] theorem free_reports (table : Option (Table K D)) : (p.free table).reports = p.reports := rfl

@[simp] theorem freeKeys_base : p.freeKeys.base = p.base := by
  rw [Process.freeKeys]
  split <;> rfl

@[simp] theorem freeKeys_reports : p.freeKeys.reports = p.reports := by
  rw [Process.freeKeys]
  split <;> rfl

/-! ### Cases -/

/-- A map whose table is a new one of the given entries. The hook is called before the old table is freed. -/
def Process.replaced (p : Process K D) (addr tableSize : Nat) (entries : List (Option (Entry K D))) :
    Process K D where
  base := { p.base with tableSize := tableSize, table := some ⟨addr, entries⟩ }
  blocks := (addr :: p.blocks).filter fun a => p.base.table.map Table.addr ≠ some a
  freedKeys := p.freedKeys
  reports := if p.base.onRealloc then
    ⟨some addr, wrap (tableSize * 2), some ⟨addr, entries⟩, addr :: p.blocks⟩ :: p.reports else p.reports

theorem replaced_eq (p : Process K D) (addr tableSize : Nat) (entries : List (Option (Entry K D))) :
    p.replaced addr tableSize entries = (Process.report
      { p with
        base := { p.base with tableSize := tableSize, table := some ⟨addr, entries⟩ }
        blocks := addr :: p.blocks } (some addr) (wrap (tableSize * 2))).free p.base.table := by
  rw [Process.report]
  split
  · rename_i honRealloc
    rw [Process.replaced, if_pos honRealloc]
    rfl
  · rename_i honRealloc
    rw [Process.replaced, if_neg honRealloc]
    rfl

@[simp] theorem free_none (p : Process K D) : p.free none = p := by
  cases p
  simp [Process.free]

theorem rehash_cases {calloc : Option Nat} {r : Option Errno}
    (h : p.rehash f tableSize calloc = .ok (r, p')) :
    (calloc = none ∧ r = some .nomem ∧ p' = p) ∨ ∃ addr entries, calloc = some addr ∧ r = none ∧
      p.base.size ≤ tableSize ∧
      rehashLoop f tableSize p.base.entries (List.replicate tableSize none) = .ok entries ∧
      p' = p.replaced addr tableSize entries := by
  unfold Process.rehash at h
  dsimp only at h
  split at h
  · cases h
  split at h
  · cases h
  rename_i hroom
  cases calloc with
  | none =>
    cases h
    exact .inl ⟨rfl, rfl, rfl⟩
  | some addr =>
    right
    dsimp only at h
    split at h
    · rename_i htable
      cases h
      refine ⟨addr, List.replicate tableSize none, rfl, rfl, Nat.le_of_not_lt hroom, ?_, ?_⟩
      · rw [Base.entries, htable]
        rfl
      · rw [replaced_eq, htable, free_none]
    · rename_i old htable
      split at h
      · cases h
      obtain ⟨entries, hloop, h⟩ := bind_eq_ok h
      cases h
      refine ⟨addr, entries, rfl, rfl, Nat.le_of_not_lt hroom, ?_, ?_⟩
      · rw [Base.entries, htable]
        exact hloop
      · rw [replaced_eq, htable]
        rfl

theorem reserve_cases {capacity : Nat} {calloc : Option Nat} {r : Option Errno}
    (h : p.reserve f capacity calloc = .ok (r, p')) :
    (r.isSome ∧ p' = p) ∨ ∃ sizeInit, calcTableSize sizeMin capacity = .ok sizeInit ∧ r = none ∧
      ((sizeInit ≤ p.base.tableSize ∧ p' = { p with base := { p.base with tableSizeInit := sizeInit } }) ∨
        (p.base.tableSize < sizeInit ∧ ∃ addr entries, calloc = some addr ∧ p.base.size ≤ sizeInit ∧
          rehashLoop f sizeInit p.base.entries (List.replicate sizeInit none) = .ok entries ∧
          p' = Process.replaced { p with base := { p.base with tableSizeInit := sizeInit } } addr sizeInit
            entries)) := by
  obtain ⟨sizeInit, hcalc, h⟩ := bind_eq_ok h
  dsimp only at h
  split at h
  · rename_i hgrow
    obtain ⟨⟨r', p₁⟩, hrehash, h⟩ := bind_eq_ok h
    rcases rehash_cases hrehash with ⟨-, rfl, rfl⟩ | ⟨addr, entries, rfl, rfl, hroom, hloop, rfl⟩
    · cases h
      exact .inl ⟨rfl, rfl⟩
    · cases h
      exact .inr ⟨sizeInit, hcalc, rfl, .inr ⟨hgrow, addr, entries, rfl, hroom, hloop, rfl⟩⟩
  · rename_i hgrow
    cases h
    exact .inr ⟨sizeInit, hcalc, rfl, .inl ⟨Nat.le_of_not_lt hgrow, rfl⟩⟩

/-- The map after the rehash of a `put`, if there is one. -/
inductive Grown (f : Functions K) (p : Process K D) (calloc : Option Nat) : Process K D → Prop
  | same : Grown f p calloc p
  | replaced {addr tableSize : Nat} {entries : List (Option (Entry K D))} :
    calcTableSize p.base.tableSizeInit p.base.size = .ok tableSize → p.base.tableSize < tableSize →
    calloc = some addr → p.base.size ≤ tableSize →
    rehashLoop f tableSize p.base.entries (List.replicate tableSize none) = .ok entries →
    Grown f p calloc (p.replaced addr tableSize entries)

/-- A `put` that fails leaves the map as its rehash left it; one that succeeds fills an empty slot with the
key it was handed, or with the copy of it. -/
theorem put_cases {key : Option K} {data : Option D} {calloc : Option Nat} {dup : Option K} {r : Option Errno}
    (h : p.put f key data calloc dup = .ok (r, p')) :
    (r.isSome ∧ p' = p) ∨ ∃ k d p₁, key = some k ∧ data = some d ∧ Grown f p calloc p₁ ∧
      ((r.isSome ∧ p' = p₁) ∨ (r = none ∧ ∃ i k', p₁.base.find f k true = .ok (some i) ∧
        p₁.base.entries[i]? = some none ∧ (if p.base.keyDup then dup else some k) = some k' ∧
        p' = { p₁ with base := {
          p₁.base.setEntries (p₁.base.entries.set i (some ⟨k', d⟩)) with size := wrap (p₁.base.size + 1) } })) := by
  cases key with
  | none =>
    cases h
    exact .inl ⟨rfl, rfl⟩
  | some k =>
    cases data with
    | none =>
      cases h
      exact .inl ⟨rfl, rfl⟩
    | some d =>
      right
      obtain ⟨tableSize, hcalc, h⟩ := bind_eq_ok h
      obtain ⟨⟨r₁, p₁⟩, hgrow, h⟩ := bind_eq_ok h
      have hgrown : Grown f p calloc p₁ ∧ p₁.base.keyDup = p.base.keyDup := by
        split at hgrow
        · rename_i hlarger
          rcases rehash_cases hgrow with ⟨-, -, rfl⟩ | ⟨addr, entries, hcalloc, -, hroom, hloop, rfl⟩
          · exact ⟨.same, rfl⟩
          · exact ⟨.replaced hcalc hlarger hcalloc hroom hloop, rfl⟩
        · cases hgrow
          exact ⟨.same, rfl⟩
      refine ⟨k, d, p₁, rfl, rfl, hgrown.1, ?_⟩
      obtain ⟨found, hfind, h⟩ := bind_eq_ok h
      cases found with
      | none =>
        cases h
        exact .inl ⟨rfl, rfl⟩
      | some i =>
        dsimp only at h
        split at h
        · cases h
        · cases h
          exact .inl ⟨rfl, rfl⟩
        · rename_i hempty
          rw [hgrown.2] at h
          split at h
          · cases h
            exact .inl ⟨rfl, rfl⟩
          · rename_i k' hkey
            cases h
            exact .inr ⟨rfl, i, k', hfind, hempty, hkey, rfl⟩

/-- A `put` of a key and a value computes a table size. -/
theorem calc_of_put {k : K} {d : D} {calloc : Option Nat} {dup : Option K} {r : Option Errno}
    (h : p.put f (some k) (some d) calloc dup = .ok (r, p')) :
    ∃ n, calcTableSize p.base.tableSizeInit p.base.size = .ok n := by
  obtain ⟨n, hcalc, -⟩ := bind_eq_ok h
  exact ⟨n, hcalc⟩

theorem remove_cases {key : Option K} {data : Option D} (h : p.remove f key = .ok (data, p')) :
    p' = p ∨ ∃ i e entries, slot p.base.entries i = some e ∧
      removeLoop f p.base.tableSize (wrap (p.base.size + (2 ^ 64 - 1))) (probeNext p.base.tableSize i) i
        p.base.entries = .ok entries ∧
      p'.base = { p.base.setEntries entries with size := wrap (p.base.size + (2 ^ 64 - 1)) } ∧
      p'.freedKeys = (if p.base.keyFree then e.key :: p.freedKeys else p.freedKeys) ∧
      p'.blocks = p.blocks ∧ p'.reports = p.reports := by
  cases key with
  | none =>
    cases h
    exact .inl rfl
  | some key =>
    obtain ⟨found, -, h⟩ := bind_eq_ok h
    cases found with
    | none =>
      cases h
      exact .inl rfl
    | some i =>
      dsimp only at h
      split at h
      · cases h
      · rename_i e he
        obtain ⟨p₁, hremove, h⟩ := bind_eq_ok h
        cases h
        unfold Process.entryRemove at hremove
        obtain ⟨entries, hloop, hremove⟩ := bind_eq_ok hremove
        cases hremove
        refine .inr ⟨i, e, entries, he, ?_, ?_, ?_, ?_⟩
        · split at hloop <;> exact hloop
        · dsimp only
          split <;> rfl
        · dsimp only
          split <;> rfl
        · dsimp only
          split <;> exact ⟨rfl, rfl⟩

/-- The keys are given up, and the size is 0. -/
def Process.emptied (p : Process K D) : Process K D :=
  { p.freeKeys with base := { p.base with size := 0 } }

theorem reset_eq (p : Process K D) (calloc : Option Nat) : p.reset calloc =
    if p.base.tableSize ≠ p.base.tableSizeInit then
      match calloc with
      | none => (some .nomem, p.emptied)
      | some addr =>
        (none, p.emptied.replaced addr p.base.tableSizeInit (List.replicate p.base.tableSizeInit none))
    else (none, { p.emptied with base := p.emptied.base.setEntries (List.replicate p.base.tableSize none) }) := by
  unfold Process.reset
  dsimp only
  rw [freeKeys_base]
  split
  · cases calloc with
    | none => rfl
    | some addr =>
      dsimp only
      rw [replaced_eq]
      rfl
  · rfl

theorem Base.find_ok {b : Base K D} {key : K} {findEmpty : Bool} {i : Nat}
    (h : b.find f key findEmpty = .ok (some i)) :
    entryFind f b.tableSize b.entries key findEmpty = .ok (some i) := by
  rw [Base.find] at h
  split at h
  · exact h
  · cases h

end ManagedObject.Hashmap
