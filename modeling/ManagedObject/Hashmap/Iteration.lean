import ManagedObject.Hashmap.Refinement

/-!
# Iterators

An iterator is the position of an entry of the table, or `NULL`. It goes to the next entry by a scan of the
table, so a loop that does not change the map visits the entries in the order of the table. The loops of
`managed_object_hashmap.h` are modelled by their rounds.
-/

namespace ManagedObject.Hashmap

open Format Linear Lib Outcome

variable {K D : Type} {f : Functions K} {p p' : Process K D} {entries : List (Option (Entry K D))}
  {e : Entry K D} {keyDup : Bool} {i j n : Nat} {pos : Option Nat}

/-! ### The functions -/

/-- The loop of `managed_object_hashmap_entry_get_populated`, for as many rounds as entries are left. -/
def getPopulatedLoop (entries : List (Option (Entry K D))) : Nat → Nat → Except Fault (Option Nat)
  | 0, _ => .ok none
  | rounds + 1, i =>
    match entries[i]? with
    | none => .error .outOfRange
    | some none => getPopulatedLoop entries rounds (i + 1)
    | some (some _) => .ok (some i)

def Base.getPopulated (b : Base K D) (i : Nat) : Except Fault (Option Nat) :=
  if b.size > 0 then getPopulatedLoop b.entries (b.tableSize - i) i else .ok none

namespace Process

def iter (p : Process K D) (pos : Option Nat) : Except Fault (Option Nat) := p.base.getPopulated (pos.getD 0)

def iterValid (p : Process K D) (pos : Option Nat) : Bool :=
  pos.any fun i => (p.base.entries[i]?.join).isSome && i < p.base.tableSize

/-- `managed_object_hashmap_base_iter_next`; the result is whether the new position is not `NULL`. -/
def iterNext (p : Process K D) : Option Nat → Except Fault (Option Nat)
  | none => .ok none
  | some i => p.base.getPopulated (i + 1)

/-- `managed_object_hashmap_base_iter_remove`; the result is whether the new position is not `NULL`. -/
def iterRemove (f : Functions K) (p : Process K D) : Option Nat → Except Fault (Option Nat × Process K D)
  | none => .ok (none, p)
  | some i => do
    match p.base.entries[i]? with
    | none => throw .outOfRange
    | some none =>
      let pos ← p.base.getPopulated i
      return (pos, p)
    | some (some e) =>
      let p ← p.entryRemove f i e.key
      let pos ← p.base.getPopulated i
      return (pos, p)

def iterGetKey (p : Process K D) : Option Nat → Except Fault (Option K)
  | none => .ok none
  | some i =>
    match p.base.entries[i]? with
    | none => .error .outOfRange
    | some x => .ok (x.map Entry.key)

def iterGetData (p : Process K D) : Option Nat → Except Fault (Option D)
  | none => .ok none
  | some i =>
    match p.base.entries[i]? with
    | none => .error .outOfRange
    | some x => .ok (x.map Entry.data)

/-- The condition of the loops: the key and the data that are assigned, unless one of them is `NULL`. -/
def current (p : Process K D) (pos : Option Nat) : Except Fault (Option (Entry K D)) := do
  match ← p.iterGetKey pos with
  | none => return none
  | some key =>
    let data ← p.iterGetData pos
    return data.map fun data => ⟨key, data⟩

end Process

/-- The state of a loop over a map: the map, the position of the iterator, and the entries that were visited,
with what the body has done with them, the last one first. -/
structure Loop (K D : Type) where
  map : Process K D
  pos : Option Nat
  visits : List (Entry K D × Bool)

/-- The rounds of a loop, at most `n`; the state in which it ends. -/
def rounds (round : Loop K D → Except Fault (Option (Loop K D))) : Nat → Loop K D → Except Fault (Option (Loop K D))
  | 0, _ => .ok none
  | n + 1, s => do
    match ← round s with
    | none => return some s
    | some s => rounds round n s

def Process.loop (round : Loop K D → Except Fault (Option (Loop K D))) (p : Process K D) (n : Nat) :
    Except Fault (Option (Loop K D)) := do
  let pos ← p.iter none
  rounds round n ⟨p, pos, []⟩

namespace Loop

def foreachRound (s : Loop K D) : Except Fault (Option (Loop K D)) := do
  match ← s.map.current s.pos with
  | none => return none
  | some e =>
    let pos ← s.map.iterNext s.pos
    return some { s with pos := pos, visits := (e, false) :: s.visits }

end Loop

/-- `managed_object_hashmap_foreach`, with the entries that it visits. -/
def Process.foreach (p : Process K D) (n : Nat) : Except Fault (Option (Loop K D)) := p.loop Loop.foreachRound n

/-! ### Scans of the table -/

def nextPopulated (entries : List (Option (Entry K D))) (i : Nat) : Option Nat :=
  (List.range' i (entries.length - i)).find? fun j => (slot entries j).isSome

theorem getPopulatedLoop_eq (hn : i + n = entries.length) :
    getPopulatedLoop entries n i = .ok (nextPopulated entries i) := by
  induction n generalizing i with
  | zero =>
    have hnone : entries.length - i = 0 := by omega
    rw [nextPopulated, hnone]
    rfl
  | succ n ih =>
    have hi : i < entries.length := by omega
    have hrange : entries.length - i = n + 1 := by omega
    have hrest : entries.length - (i + 1) = n := by omega
    rw [getPopulatedLoop, getElem?_eq_slot hi, nextPopulated, hrange, List.range'_succ]
    cases hslot : slot entries i with
    | none =>
      rw [List.find?_cons_of_neg (by simp [hslot])]
      have hrec := ih (i := i + 1) (by omega)
      rw [nextPopulated, hrest] at hrec
      exact hrec
    | some e =>
      rw [List.find?_cons_of_pos (by simp [hslot])]

theorem Tidy.getPopulated (h : Tidy f p) (i : Nat) :
    p.base.getPopulated i = .ok (nextPopulated p.base.entries i) := by
  have hlength := h.length
  rw [Base.getPopulated]
  split
  · by_cases hi : i ≤ p.base.tableSize
    · exact getPopulatedLoop_eq (by omega)
    · have hzero : p.base.tableSize - i = 0 := by omega
      rw [nextPopulated, hlength, hzero]
      rfl
  · -- a map without entries
    rename_i hsize
    have hempty : populated p.base.entries = [] := List.eq_nil_of_length_eq_zero (by rw [← h.size]; omega)
    refine congrArg Except.ok (Eq.symm (List.find?_eq_none.mpr fun j _ hj => ?_))
    obtain ⟨e, he⟩ := Option.isSome_iff_exists.mp hj
    have hmem := mem_populated.mpr ⟨j, he⟩
    rw [hempty] at hmem
    cases hmem

/-- The next entry, and what is left after it. -/
theorem nextPopulated_eq_some (h : nextPopulated entries i = some j) :
    i ≤ j ∧ (∀ k, i ≤ k → k < j → slot entries k = none) ∧
      ∃ e, slot entries j = some e ∧ populated (entries.drop i) = e :: populated (entries.drop (j + 1)) := by
  generalize hn : entries.length - i = n
  induction n generalizing i with
  | zero =>
    rw [nextPopulated, hn] at h
    cases h
  | succ n ih =>
    have hi : i < entries.length := by omega
    have hdrop := List.drop_eq_getElem_cons hi
    rw [nextPopulated, hn, List.range'_succ] at h
    cases hslot : slot entries i with
    | none =>
      have hgap : entries[i] = none := by
        rwa [slot, List.getElem?_eq_getElem hi, Option.join_some] at hslot
      rw [List.find?_cons_of_neg (by simp [hslot])] at h
      have hrest : entries.length - (i + 1) = n := by omega
      obtain ⟨hle, hbefore, e, he, hpopulated⟩ := ih (by rw [nextPopulated, hrest]; exact h) hrest
      refine ⟨by omega, fun k hk hkj => ?_, e, he, ?_⟩
      · by_cases heq : k = i
        · rwa [heq]
        · exact hbefore k (by omega) hkj
      · rw [hdrop, hgap]
        exact hpopulated
    | some e =>
      have hentry : entries[i] = some e := (List.getElem?_eq_some_iff.mp (slot_eq_some.mp hslot)).2
      rw [List.find?_cons_of_pos (by simp [hslot])] at h
      cases h
      refine ⟨Nat.le_refl _, fun k hk hki => by omega, e, hslot, ?_⟩
      rw [hdrop, hentry]
      rfl

theorem nextPopulated_eq_none (h : nextPopulated entries i = none) (hj : i ≤ j) : slot entries j = none := by
  cases hslot : slot entries j with
  | none => rfl
  | some e =>
    have hlt := lt_of_slot hslot
    have hfind := List.find?_eq_none.mp h j (by rw [List.mem_range'_1]; omega)
    rw [hslot] at hfind
    exact absurd rfl hfind

theorem populated_drop_of_none (h : nextPopulated entries i = none) : populated (entries.drop i) = [] := by
  rw [List.eq_nil_iff_forall_not_mem]
  intro e he
  obtain ⟨j, hj⟩ := mem_populated.mp he
  rw [slot, List.getElem?_drop] at hj
  have hnone := nextPopulated_eq_none h (Nat.le_add_right i j)
  rw [slot, hj] at hnone
  cases hnone

/-! ### The plain loop -/

theorem current_of_slot (he : slot p.base.entries i = some e) : p.current (some i) = .ok (some e) := by
  unfold Process.current Process.iterGetKey Process.iterGetData
  simp only [slot_eq_some.mp he, ok_bind]
  rfl

theorem current_none : p.current none = .ok none := rfl

/-- From a position on, the loop visits what is left of the table. -/
theorem Tidy.foreach_rounds {i : Nat} (h : Tidy f p) (visits : List (Entry K D × Bool))
    (hn : (populated (p.base.entries.drop i)).length < n) :
    rounds Loop.foreachRound n ⟨p, nextPopulated p.base.entries i, visits⟩ =
      .ok (some ⟨p, none, (populated (p.base.entries.drop i)).reverse.map (fun e => (e, false)) ++ visits⟩) := by
  induction n generalizing i visits with
  | zero => omega
  | succ n ih =>
    cases hnext : nextPopulated p.base.entries i with
    | none =>
      rw [populated_drop_of_none hnext]
      rfl
    | some j =>
      obtain ⟨-, -, e, he, hpopulated⟩ := nextPopulated_eq_some hnext
      rw [hpopulated] at hn ⊢
      rw [List.length_cons] at hn
      have hround : Loop.foreachRound (⟨p, some j, visits⟩ : Loop K D) =
          .ok (some ⟨p, nextPopulated p.base.entries (j + 1), (e, false) :: visits⟩) := by
        unfold Loop.foreachRound Process.iterNext
        simp only [current_of_slot he, ok_bind, h.getPopulated]
        rfl
      rw [rounds, hround]
      simp only [ok_bind]
      rw [ih _ (by omega)]
      simp

theorem Serving.get_iff (hf : f.Lawful) (h : Serving f keyDup p) (hfunctions : p.base.functions = true) {k : K}
    {d : D} : p.get f (some k) = .ok (some d) ↔
      ∃ e ∈ populated p.base.entries, f.compare e.key k = true ∧ e.data = d := by
  rw [h.get_eq hf hfunctions, Except.ok.injEq, Option.bind_some]
  constructor
  · exact exists_of_view
  · rintro ⟨e, he, hmatch, rfl⟩
    obtain ⟨i, hi⟩ := mem_populated.mp he
    exact h.tidy.view_of_slot hf hi (hf.comparison.symm _ _ hmatch)

/-- The plain loop ends after one round for each entry. It visits the entries in the order of the table, no two
of them with the same key, and they are what the map holds. -/
theorem foreach_visits (hf : f.Lawful) {keyFree : Bool} {hist : List (Call K D × Answer D)}
    (hrun : CallRun f keyDup keyFree hist p) (hfunctions : p.base.functions = true) :
    (∀ n, p.base.size < n → p.foreach n =
      .ok (some ⟨p, none, (populated p.base.entries).reverse.map fun e => (e, false)⟩)) ∧
    ((populated p.base.entries).Pairwise fun e e' => f.compare e.key e'.key = false) ∧
    ∀ k d, p.get f (some k) = .ok (some d) ↔
      ∃ e ∈ populated p.base.entries, f.compare e.key k = true ∧ e.data = d := by
  obtain ⟨hserving, -⟩ := hrun.simulates hf
  have h := hserving.tidy
  refine ⟨fun n hn => ?_, ?_, fun k d => hserving.get_iff hf hfunctions⟩
  · have hiter : p.iter none = .ok (nextPopulated p.base.entries 0) := h.getPopulated 0
    rw [Process.foreach, Process.loop, hiter]
    simp only [ok_bind]
    rw [h.foreach_rounds [] (by rw [List.drop_zero, ← h.size]; exact hn), List.drop_zero, List.append_nil]
  · exact h.mergeFree.imp fun {e e'} hmiss => by rwa [hf.comparison.comm]

theorem foreach_visits_crowded :
    (∀ n, crowded.base.size < n → crowded.foreach n = .ok (some ⟨crowded, none,
      (populated crowded.base.entries).reverse.map fun e => (e, false)⟩)) ∧
    ((populated crowded.base.entries).Pairwise fun e e' => numbers.compare e.key e'.key = false) ∧
    ∀ k d, crowded.get numbers (some k) = .ok (some d) ↔
      ∃ e ∈ populated crowded.base.entries, numbers.compare e.key k = true ∧ e.data = d :=
  foreach_visits numbers_lawful crowded_calls rfl

end ManagedObject.Hashmap
