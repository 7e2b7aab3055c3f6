import Mathlib.Logic.Relation

/-!
# Forests

A relation under which a root has no predecessor and everything else has one at most. What the root leads to
is a tree: it has no cycles, and a branch may be moved to another place of the tree, as long as it is not
moved below itself.
-/

namespace ManagedObject.Lib

open Relation

variable {α : Type} {edge edge' : α → α → Prop} {r a o t : α}

structure Forest (edge : α → α → Prop) (r : α) : Prop where
  root : ∀ a, ¬ edge a r
  parent : ∀ a b c, edge a c → edge b c → a = b

/-- The last edge into an element is the edge from its parent. -/
theorem Forest.of_transGen (h : Forest edge r) {p : α} (hedge : edge p a) (hb : TransGen edge t a) :
    ReflTransGen edge t p := by
  obtain ⟨q, hq, hlast⟩ := TransGen.tail'_iff.mp hb
  rwa [h.parent p q a hedge hlast]

/-- No cycle goes through what the root leads to: it would go through the parent as well. -/
theorem Forest.acyclic (h : Forest edge r) (ha : ReflTransGen edge r a) : ¬ TransGen edge a a := by
  induction ha with
  | refl =>
    intro hcycle
    obtain ⟨q, -, hlast⟩ := TransGen.tail'_iff.mp hcycle
    exact h.root q hlast
  | tail _ hedge ih => exact fun hcycle => ih (TransGen.head' hedge (h.of_transGen hedge hcycle))

/-- The branch at `o` is moved below `t`, which is not in the branch: all that the root led to it still
leads to. -/
theorem reach_of_move (hsame : ∀ a b, edge a b → edge' a b ∨ b = o) (ht : ReflTransGen edge r t)
    (hout : ¬ ReflTransGen edge o t) (hmoved : edge' t o) (ha : ReflTransGen edge r a) :
    ReflTransGen edge' r a := by
  have hreach : ∀ b, ReflTransGen edge r b → ReflTransGen edge' r b ∨ ReflTransGen edge o b := by
    intro b hb
    induction hb with
    | refl => exact .inl .refl
    | tail _ hedge ih =>
      rcases ih with hreach | hbelow
      · rcases hsame _ _ hedge with hkept | rfl
        · exact .inl (hreach.tail hkept)
        · exact .inr .refl
      · exact .inr (hbelow.tail hedge)
  have hbranch : ReflTransGen edge' r o := ((hreach t ht).resolve_right hout).tail hmoved
  induction ha with
  | refl => exact .refl
  | tail _ hedge ih =>
    rcases hsame _ _ hedge with hkept | rfl
    · exact ih.tail hkept
    · exact hbranch

end ManagedObject.Lib
