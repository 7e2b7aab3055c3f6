import Mathlib.Algebra.Ring.Nat
import Mathlib.Logic.Function.Basic
import ManagedObject.Lib.Outcome

/-!
# A page of values

`ManagedObjectPage` holds an array of slots, a count of those that are set, and two flags that repeat
what the count says. The loop of `set` takes the first slot that is not set.
-/

namespace ManagedObject.Pages

open Outcome

variable {T : Type}

structure Slot (T : Type) where
  value : T
  set : Bool := false

/-- `page_list[index]` or `sets[index]` past the end. -/
inductive Fault
  | outOfRange (index : Nat)
  deriving DecidableEq, Repr

/-- A page; `max` is the length of the array, and an empty array is the null pointer. -/
structure Page (T : Type) where
  sets : List (Slot T)
  used : Nat
  empty : Bool
  full : Bool

def Page.max (p : Page T) : Nat := p.sets.length

/-- `ManagedObjectPage(size)`: a size of 0 leaves the initial values of the fields. -/
def Page.new [Inhabited T] (size : Nat) : Page T :=
  if size = 0 then ⟨[], 0, false, false⟩
  else ⟨List.replicate size { value := default }, 0, true, false⟩

/-- `set`, both overloads; no index stands for the returned `-1`. -/
def Page.set (p : Page T) (value : T) : Option Nat × Page T :=
  match p.sets.findIdx? (fun s => !s.set) with
  | none => (none, p)
  | some i =>
    (some i,
      { sets := p.sets.set i { value := value, set := true }
        used := p.used + 1
        empty := false
        full := if p.used + 1 = p.max then true else p.full })

/-- `used_--` on an unsigned count. -/
def decrement (used : Nat) : Nat := if used = 0 then 2 ^ 64 - 1 else used - 1

def Page.unset (p : Page T) (index : Nat) : Except Fault (Page T) :=
  match p.sets[index]? with
  | none => .error (.outOfRange index)
  | some s =>
    if s.set then
      .ok { sets := p.sets.set index { s with set := false }
            used := decrement p.used
            empty := decrement p.used = 0
            full := false }
    else .ok p

/-- The value that a slot holds while it is set. -/
def Slot.held (s : Slot T) : Option T := if s.set then some s.value else none

def Page.held (p : Page T) (index : Nat) : Option T := p.sets[index]?.bind Slot.held

/-- The count and the flags agree with the slots. -/
structure Page.Ok (size : Nat) (p : Page T) : Prop where
  max : p.max = size
  used : p.used = p.sets.countP (·.set)
  empty : p.empty = true ↔ p.used = 0
  full : p.full = true ↔ p.used = size

variable {p p' : Page T} {size i : Nat} {value : T}

theorem Page.held_lt (h : p.held i = some value) : i < p.max := by
  by_contra hi
  rw [Page.held, List.getElem?_eq_none (by simpa [Page.max] using hi)] at h
  cases h

theorem countP_set_slot {s s' : Slot T} {sets : List (Slot T)} (hs : sets[i]? = some s) :
    (sets.set i s').countP (·.set) = sets.countP (·.set) - (if s.set then 1 else 0) + (if s'.set then 1 else 0) := by
  obtain ⟨hi, rfl⟩ := List.getElem?_eq_some_iff.mp hs
  exact List.countP_set hi

theorem held_set_slot {s s' : Slot T} {x : Option T} (hs : p.sets[i]? = some s)
    (hp' : p'.sets = p.sets.set i s') (hx : s'.held = x) : p'.held = Function.update p.held i x := by
  subst hx
  obtain ⟨hi, -⟩ := List.getElem?_eq_some_iff.mp hs
  funext k
  by_cases hk : k = i
  · subst hk
    rw [Function.update_self, Page.held, hp', List.getElem?_set_self hi, Option.bind_some]
  · rw [Function.update_of_ne hk, Page.held, Page.held, hp', List.getElem?_set_ne (Ne.symm hk)]

/-- A page without set slots holds nothing, and the count tells. -/
theorem Page.Ok.held_eq_none_iff (hp : p.Ok size) : (∀ k, p.held k = none) ↔ p.used = 0 := by
  rw [hp.used, List.countP_eq_zero]
  constructor
  · intro h s hs
    obtain ⟨k, hk⟩ := List.mem_iff_getElem?.mp hs
    have := h k
    rw [Page.held, hk, Option.bind_some, Slot.held] at this
    by_contra hset
    rw [if_pos hset] at this
    cases this
  · intro h k
    rw [Page.held]
    cases hk : p.sets[k]? with
    | none => rfl
    | some s => simp [Slot.held, h s (List.mem_of_getElem? hk)]

theorem Page.Ok.exists_held (hp : p.Ok size) (hused : p.used ≠ 0) : ∃ k a, k < size ∧ p.held k = some a := by
  by_contra hnone
  apply hused
  rw [← hp.held_eq_none_iff]
  intro k
  cases hk : p.held k with
  | none => rfl
  | some a => exact absurd ⟨k, a, hp.max ▸ Page.held_lt hk, hk⟩ hnone

section New

variable [Inhabited T]

theorem Page.new_held (k : Nat) : (Page.new size : Page T).held k = none := by
  rw [Page.held, Page.new]
  split
  · rfl
  · rw [List.getElem?_replicate]
    split
    · rfl
    · rfl

theorem Page.new_ok (hsize : 1 ≤ size) : (Page.new size : Page T).Ok size := by
  have hne : size ≠ 0 := by omega
  constructor
  · simp [Page.new, hne, Page.max]
  · simp [Page.new, hne, List.countP_replicate]
  · simp [Page.new, hne]
  · simp [Page.new, hne, eq_comm]

end New

/-- What a `set` does, if it finds a slot. -/
theorem Page.set_cases (value : T) : p.set value = (none, p) ∨ ∃ i s, p.sets[i]? = some s ∧ s.set = false ∧
    p.set value = (some i, ⟨p.sets.set i ⟨value, true⟩, p.used + 1, false,
      if p.used + 1 = p.max then true else p.full⟩) := by
  cases hfind : p.sets.findIdx? (fun s => !s.set) with
  | none =>
    left
    rw [Page.set, hfind]
  | some i =>
    right
    obtain ⟨hi, hfree, -⟩ := List.findIdx?_eq_some_iff_getElem.mp hfind
    exact ⟨i, p.sets[i], List.getElem?_eq_getElem hi, by simpa using hfree, by rw [Page.set, hfind]⟩

theorem Page.max_set (p : Page T) (value : T) : (p.set value).2.max = p.max := by
  rw [Page.set]
  split
  · rfl
  · exact List.length_set

/-- What an `unset` does, if the slot is set. -/
theorem Page.unset_cases (h : p.unset i = .ok p') : ∃ s, p.sets[i]? = some s ∧ ((s.set = false ∧ p' = p) ∨
    (s.set = true ∧ p' = ⟨p.sets.set i { s with set := false }, decrement p.used, decrement p.used = 0, false⟩)) := by
  rw [Page.unset] at h
  split at h
  · cases h
  · rename_i s hslot
    refine ⟨s, hslot, ?_⟩
    split at h
    · rename_i hset
      cases h
      exact .inr ⟨hset, rfl⟩
    · rename_i hset
      cases h
      exact .inl ⟨by simpa using hset, rfl⟩

theorem Page.unset_free (hi : i < p.max) (hheld : p.held i = none) : p.unset i = .ok p := by
  have hslot : p.sets[i]? = some p.sets[i] := List.getElem?_eq_getElem hi
  rw [Page.held, hslot, Option.bind_some, Slot.held] at hheld
  rw [Page.unset, hslot]
  split at hheld
  · cases hheld
  · rename_i hset
    exact if_neg hset

/-- `set` on a page that is not full stores into a slot that was not set. -/
theorem Page.Ok.set (hp : p.Ok size) (hfull : p.full = false) (value : T) :
    ∃ i p', p.set value = (some i, p') ∧ i < size ∧ p.held i = none ∧ p'.Ok size ∧ p'.used = p.used + 1 ∧
      p'.held = Function.update p.held i (some value) := by
  have hused : p.used ≠ size := by
    intro h
    rw [hp.full.mpr h] at hfull
    cases hfull
  cases hfind : p.sets.findIdx? (fun s => !s.set) with
  | none =>
    -- every slot is set, so the count is the length
    rw [List.findIdx?_eq_none_iff] at hfind
    refine absurd ?_ hused
    rw [hp.used, ← hp.max, Page.max, List.countP_eq_length]
    intro s hs
    simpa using hfind s hs
  | some i =>
    obtain ⟨hi, hfree, -⟩ := List.findIdx?_eq_some_iff_getElem.mp hfind
    have hslot : p.sets[i]? = some p.sets[i] := List.getElem?_eq_getElem hi
    have hunset : p.sets[i].set = false := by simpa using hfree
    refine ⟨i, _, by rw [Page.set, hfind], hp.max ▸ hi, ?_, ?_, rfl, ?_⟩
    · rw [Page.held, hslot, Option.bind_some, Slot.held, hunset]
      rfl
    · constructor
      · rw [Page.max, List.length_set]
        exact hp.max
      · rw [countP_set_slot hslot, hunset, hp.used]
        rfl
      · simp
      · dsimp only
        rw [hp.max, hfull]
        split
        · simp [*]
        · simp [*]
    · exact held_set_slot hslot rfl rfl

theorem Page.Ok.unset (hp : p.Ok size) (hheld : p.held i = some value) :
    ∃ p', p.unset i = .ok p' ∧ p'.Ok size ∧ p.used = p'.used + 1 ∧
      p'.held = Function.update p.held i none := by
  cases hslot : p.sets[i]? with
  | none =>
    rw [Page.held, hslot] at hheld
    cases hheld
  | some s =>
    have hset : s.set = true := by
      by_contra hset
      rw [Page.held, hslot, Option.bind_some, Slot.held, if_neg hset] at hheld
      cases hheld
    have hpos : 0 < p.sets.countP (·.set) :=
      List.countP_pos_iff.mpr ⟨s, List.mem_of_getElem? hslot, hset⟩
    have hdec : decrement p.used + 1 = p.used := by
      rw [decrement, if_neg (by rw [hp.used]; omega), hp.used]
      omega
    have hle : p.used ≤ size := by
      rw [hp.used, ← hp.max]
      exact List.countP_le_length
    refine ⟨_, by rw [Page.unset, hslot]; exact if_pos hset, ?_, hdec.symm, held_set_slot hslot rfl rfl⟩
    constructor
    · rw [Page.max, List.length_set]
      exact hp.max
    · rw [countP_set_slot hslot, hset]
      have hused := hp.used
      simp
      omega
    · simp
    · dsimp only
      constructor
      · intro h
        cases h
      · intro h
        omega

end ManagedObject.Pages
