import Mathlib.Algebra.Ring.Nat
import Mathlib.Algebra.BigOperators.Group.List.Basic

/-!
# Tilings of an interval

A list of tiles laid end to end from a base address, each as long as its `size` says.
`Tiled size P base ts` says that every tile has the property `P` at the address where it starts. A
tile can be exchanged for one of the same size without moving the others, and a property of what lies
under a tile survives any change outside of it.
-/

namespace ManagedObject.Lib

variable {τ : Type} (size : τ → Nat)

def extent (ts : List τ) : Nat := (ts.map size).sum

def addresses : Nat → List τ → List Nat
  | _, [] => []
  | base, t :: ts => base :: addresses (base + size t) ts

/-- What the tiles contribute, in order. -/
def gather {α : Type} (f : Nat → τ → List α) : Nat → List τ → List α
  | _, [] => []
  | base, t :: ts => f base t ++ gather f (base + size t) ts

def Tiled (P : Nat → τ → Prop) : Nat → List τ → Prop
  | _, [] => True
  | base, t :: ts => P base t ∧ Tiled P (base + size t) ts

variable {size} {P Q : Nat → τ → Prop} {base : Nat} {t t' : τ} {ts pre post : List τ}

@[simp] theorem extent_nil : extent size [] = 0 := rfl

@[simp] theorem extent_cons : extent size (t :: ts) = size t + extent size ts := List.sum_cons

@[simp] theorem extent_append (ts' : List τ) : extent size (ts ++ ts') = extent size ts + extent size ts' := by
  rw [extent, List.map_append, List.sum_append]
  rfl

theorem tiled_append :
    Tiled size P base (pre ++ post) ↔ Tiled size P base pre ∧ Tiled size P (base + extent size pre) post := by
  induction pre generalizing base with
  | nil => simp [Tiled]
  | cons t pre ih =>
    rw [List.cons_append, Tiled, Tiled, ih, extent_cons, Nat.add_assoc, and_assoc]

/-- From one property of the tiles to another one, address by address within the extent. -/
theorem Tiled.imp (h : Tiled size P base ts)
    (himp : ∀ a, ∀ u ∈ ts, base ≤ a → a + size u ≤ base + extent size ts → P a u → Q a u) :
    Tiled size Q base ts := by
  induction ts generalizing base with
  | nil => trivial
  | cons t ts ih =>
    obtain ⟨hhead, htail⟩ := h
    rw [extent_cons] at himp
    have hrest : Tiled size Q (base + size t) ts := by
      apply ih htail
      intro a u hmem hlow hhigh hu
      exact himp a u (List.mem_cons_of_mem _ hmem) (by omega) (by omega) hu
    exact ⟨himp base t List.mem_cons_self (by omega) (by omega) hhead, hrest⟩

theorem Tiled.and (hP : Tiled size P base ts) (hQ : Tiled size Q base ts) :
    Tiled size (fun a t => P a t ∧ Q a t) base ts := by
  induction ts generalizing base with
  | nil => trivial
  | cons t ts ih => exact ⟨⟨hP.1, hQ.1⟩, ih hP.2 hQ.2⟩

theorem Tiled.map {σ : Type} {size' : σ → Nat} {R : Nat → σ → Prop} {g : τ → σ} (h : Tiled size P base ts)
    (hg : ∀ a t, P a t → size' (g t) = size t ∧ R a (g t)) : Tiled size' R base (ts.map g) := by
  induction ts generalizing base with
  | nil => trivial
  | cons t ts ih =>
    obtain ⟨hsize, hhead⟩ := hg base t h.1
    refine ⟨hhead, ?_⟩
    rw [hsize]
    exact ih h.2

theorem Tiled.middle (h : Tiled size P base (pre ++ t :: post)) : P (base + extent size pre) t :=
  (tiled_append.mp h).2.1

/-- Exchanging a tile for one of its size: the other tiles have to keep what they have, and they lie
entirely before or entirely behind it. -/
theorem Tiled.exchange (h : Tiled size P base (pre ++ t :: post)) (hsize : size t' = size t)
    (hnew : Q (base + extent size pre) t')
    (hothers : ∀ a u, a + size u ≤ base + extent size pre ∨ base + extent size pre + size t ≤ a →
      P a u → Q a u) :
    Tiled size Q base (pre ++ t' :: post) := by
  obtain ⟨hpre, hmiddle, hpost⟩ := tiled_append.mp h
  rw [tiled_append, Tiled, hsize]
  have hbefore : Tiled size Q base pre := by
    apply hpre.imp
    intro a u _ _ hhigh hu
    exact hothers a u (.inl hhigh) hu
  have hbehind : Tiled size Q (base + extent size pre + size t) post := by
    apply hpost.imp
    intro a u _ hlow _ hu
    exact hothers a u (.inr hlow) hu
  exact ⟨hbefore, hnew, hbehind⟩

theorem le_addresses {a : Nat} (h : a ∈ addresses size base ts) : base ≤ a := by
  induction ts generalizing base with
  | nil => cases h
  | cons t ts ih =>
    rcases List.mem_cons.mp h with hhead | htail
    · exact Nat.le_of_eq hhead.symm
    · exact Nat.le_trans (Nat.le_add_right base (size t)) (ih htail)

/-- Tiles that are not empty start at increasing addresses. -/
theorem addresses_increasing (h : ∀ t ∈ ts, 0 < size t) : (addresses size base ts).Pairwise (· < ·) := by
  induction ts generalizing base with
  | nil => exact .nil
  | cons t ts ih =>
    have hrest : (addresses size (base + size t) ts).Pairwise (· < ·) :=
      ih fun u hu => h u (List.mem_cons_of_mem _ hu)
    apply List.Pairwise.cons _ hrest
    intro a ha
    have hpos := h t List.mem_cons_self
    have hle := le_addresses ha
    omega

end ManagedObject.Lib
