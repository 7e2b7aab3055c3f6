import Mathlib.Logic.Basic

/-!
# Lifetimes of objects

What is done with objects, as a list of events with the newest first. An object is alive from its construction
to its destruction, and a trace is orderly if everything in it is done with objects that are alive.
-/

namespace ManagedObject.Lifetime

variable {α : Type} [DecidableEq α]

inductive Event (α : Type)
  | construct (x : α)
  | assign (x : α)
  | moveFrom (x : α)
  | destroy (x : α)
  deriving DecidableEq, Repr

def alive : List (Event α) → α → Bool
  | [], _ => false
  | .construct y :: trace, x => decide (x = y) || alive trace x
  | .destroy y :: trace, x => decide (x ≠ y) && alive trace x
  | _ :: trace, x => alive trace x

/-- The event is on an object that is alive, or it constructs one that is not. -/
def Event.Proper (trace : List (Event α)) : Event α → Prop
  | .construct x => alive trace x = false
  | .assign x => alive trace x = true
  | .moveFrom x => alive trace x = true
  | .destroy x => alive trace x = true

def Orderly : List (Event α) → Prop
  | [] => True
  | e :: trace => e.Proper trace ∧ Orderly trace

variable {trace trace' : List (Event α)} {objects : List α} {x y : α}

@[simp] theorem alive_construct : alive (.construct y :: trace) x = (decide (x = y) || alive trace x) := rfl

@[simp] theorem alive_assign : alive (.assign y :: trace) x = alive trace x := rfl

@[simp] theorem alive_moveFrom : alive (.moveFrom y :: trace) x = alive trace x := rfl

@[simp] theorem alive_destroy : alive (.destroy y :: trace) x = (decide (x ≠ y) && alive trace x) := rfl

theorem Orderly.of_append (h : Orderly (trace' ++ trace)) : Orderly trace := by
  induction trace' with
  | nil => exact h
  | cons e trace' ih => exact ih h.2

/-- In an orderly trace an object has been destroyed as often as it has been constructed, unless it is alive. -/
theorem Orderly.count_destroy (h : Orderly trace) (x : α) :
    trace.count (.destroy x) + (alive trace x).toNat = trace.count (.construct x) := by
  induction trace with
  | nil => rfl
  | cons e trace ih =>
    obtain ⟨hproper, horderly⟩ := h
    have hrest := ih horderly
    rw [List.count_cons, List.count_cons]
    cases e with
    | construct y =>
      by_cases hx : x = y
      · subst hx
        have hdead : alive trace x = false := hproper
        simp [hdead] at hrest ⊢
        exact hrest
      · simp [hx, Ne.symm hx, hrest]
    | assign y => simp [hrest]
    | moveFrom y => simp [hrest]
    | destroy y =>
      by_cases hx : x = y
      · subst hx
        have halive : alive trace x = true := hproper
        simp [halive] at hrest ⊢
        exact hrest
      · simp [hx, Ne.symm hx, hrest]

/-! ### Arrays of objects -/

def constructAll (objects : List α) (trace : List (Event α)) : List (Event α) :=
  (objects.map .construct).reverse ++ trace

/-- The objects are destroyed, the last one first. -/
def destroyAll (objects : List α) (trace : List (Event α)) : List (Event α) := objects.map .destroy ++ trace

def moveAll (pairs : List (α × α)) (trace : List (Event α)) : List (Event α) :=
  (pairs.flatMap fun p => [.moveFrom p.2, .assign p.1]).reverse ++ trace

omit [DecidableEq α] in
theorem constructAll_cons (objects : List α) (y : α) (trace : List (Event α)) :
    constructAll (y :: objects) trace = constructAll objects (.construct y :: trace) := by
  simp [constructAll]

omit [DecidableEq α] in
theorem moveAll_cons (pairs : List (α × α)) (p : α × α) (trace : List (Event α)) :
    moveAll (p :: pairs) trace = moveAll pairs (.assign p.1 :: .moveFrom p.2 :: trace) := by
  simp [moveAll]

theorem alive_constructAll : alive (constructAll objects trace) x = (decide (x ∈ objects) || alive trace x) := by
  induction objects generalizing trace with
  | nil => simp [constructAll]
  | cons y objects ih =>
    rw [constructAll_cons, ih, alive_construct]
    by_cases hy : x = y <;> by_cases hmem : x ∈ objects <;> simp [hy, hmem]

theorem alive_moveAll {pairs : List (α × α)} : alive (moveAll pairs trace) x = alive trace x := by
  induction pairs generalizing trace with
  | nil => rfl
  | cons p pairs ih => rw [moveAll_cons, ih, alive_assign, alive_moveFrom]

theorem alive_destroyAll : alive (destroyAll objects trace) x = (decide (x ∉ objects) && alive trace x) := by
  induction objects with
  | nil => simp [destroyAll]
  | cons y objects ih =>
    have hcons : destroyAll (y :: objects) trace = .destroy y :: destroyAll objects trace := rfl
    rw [hcons, alive_destroy, ih]
    by_cases hy : x = y <;> by_cases hmem : x ∈ objects <;> simp [hy, hmem]

theorem count_construct_constructAll :
    (constructAll objects trace).count (.construct x) = objects.count x + trace.count (.construct x) := by
  induction objects generalizing trace with
  | nil => simp [constructAll]
  | cons y objects ih =>
    rw [constructAll_cons, ih, List.count_cons, List.count_cons]
    by_cases hy : y = x
    · simp [hy]
      omega
    · simp [hy]

theorem count_construct_moveAll {pairs : List (α × α)} :
    (moveAll pairs trace).count (.construct x) = trace.count (.construct x) := by
  induction pairs generalizing trace with
  | nil => rfl
  | cons p pairs ih => rw [moveAll_cons, ih, List.count_cons_of_ne (by simp), List.count_cons_of_ne (by simp)]

theorem count_construct_destroyAll :
    (destroyAll objects trace).count (.construct x) = trace.count (.construct x) := by
  rw [destroyAll, List.count_append, List.count_eq_zero_of_not_mem, Nat.zero_add]
  simp

theorem Orderly.constructAll (h : Orderly trace) (hnodup : objects.Nodup)
    (hdead : ∀ x ∈ objects, alive trace x = false) : Orderly (constructAll objects trace) := by
  induction objects generalizing trace with
  | nil => exact h
  | cons y objects ih =>
    rw [List.nodup_cons] at hnodup
    rw [constructAll_cons]
    refine ih ⟨hdead y List.mem_cons_self, h⟩ hnodup.2 fun x hx => ?_
    have hne : x ≠ y := fun heq => hnodup.1 (heq ▸ hx)
    simp [hne, hdead x (List.mem_cons_of_mem _ hx)]

theorem Orderly.moveAll {pairs : List (α × α)} (h : Orderly trace)
    (halive : ∀ p ∈ pairs, alive trace p.1 = true ∧ alive trace p.2 = true) : Orderly (moveAll pairs trace) := by
  induction pairs generalizing trace with
  | nil => exact h
  | cons p pairs ih =>
    obtain ⟨htarget, hsource⟩ := halive p List.mem_cons_self
    rw [moveAll_cons]
    exact ih ⟨htarget, hsource, h⟩ fun q hq => halive q (List.mem_cons_of_mem _ hq)

/-- An array is destroyed in an orderly way exactly if every object of it is alive. -/
theorem orderly_destroyAll_iff (hnodup : objects.Nodup) :
    Orderly (destroyAll objects trace) ↔ Orderly trace ∧ ∀ x ∈ objects, alive trace x = true := by
  induction objects with
  | nil => simp [destroyAll]
  | cons y objects ih =>
    rw [List.nodup_cons] at hnodup
    have hcons : destroyAll (y :: objects) trace = .destroy y :: destroyAll objects trace := rfl
    rw [hcons, Orderly, Event.Proper, ih hnodup.2, alive_destroyAll, List.forall_mem_cons]
    simp only [hnodup.1, not_false_eq_true, decide_true, Bool.true_and]
    exact and_left_comm

end ManagedObject.Lifetime
