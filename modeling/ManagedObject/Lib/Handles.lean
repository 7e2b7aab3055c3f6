import Mathlib.Logic.Function.Basic
import Mathlib.Data.List.Nodup

/-!
# Handle tables and paged storage

A handle table gives out numbers for values and takes them back. Its abstract state is the partial map
from numbers to values; a client holds the numbers that are given out. Paged storage is a list of blocks
of one size, addressed by a number: the quotient selects the block and the remainder the cell in it.
-/

namespace ManagedObject.Handles

variable {α β : Type}

/-! ### Numbers that are given out -/

/-- The client holds every number of the map once, with its value, and no other. -/
structure Tracks (content : Nat → Option α) (held : List (Nat × α)) : Prop where
  nodup : (held.map Prod.fst).Nodup
  mem_iff : ∀ i a, (i, a) ∈ held ↔ content i = some a

variable {content : Nat → Option α} {held : List (Nat × α)} {i : Nat} {a : α}

theorem Tracks.nil : Tracks (fun _ => (none : Option α)) [] := ⟨List.nodup_nil, by simp⟩

theorem Tracks.mem_fst_iff (h : Tracks content held) : i ∈ held.map Prod.fst ↔ ∃ a, content i = some a := by
  simp [h.mem_iff]

theorem Tracks.give (h : Tracks content held) (hfree : content i = none) (a : α) :
    Tracks (Function.update content i (some a)) ((i, a) :: held) := by
  have hnew : i ∉ held.map Prod.fst := by
    rw [h.mem_fst_iff, hfree]
    simp
  constructor
  · rw [List.map_cons, List.nodup_cons]
    exact ⟨hnew, h.nodup⟩
  · intro k b
    rw [List.mem_cons, h.mem_iff, Prod.mk.injEq]
    by_cases hk : k = i
    · subst hk
      rw [Function.update_self, hfree]
      simp [eq_comm]
    · simp [hk]

theorem Tracks.take (h : Tracks content held) (i : Nat) :
    Tracks (Function.update content i none) (held.filter (·.1 ≠ i)) := by
  constructor
  · exact h.nodup.sublist (List.filter_sublist.map _)
  · intro k b
    rw [List.mem_filter, h.mem_iff]
    by_cases hk : k = i
    · simp [hk]
    · simp [hk]

/-! ### Blocks of one size -/

/-- What is stored at a number: `cell` reads a block. -/
def lookup (size : Nat) (cell : β → Nat → Option α) (blocks : List β) (i : Nat) : Option α :=
  blocks[i / size]?.bind fun block => cell block (i % size)

variable {size j : Nat} {cell : β → Nat → Option α} {blocks l r : List β} {b b' : β} {x : Option α}

theorem lookup_nil : lookup size cell [] = fun _ => none := by
  funext i
  simp [lookup]

theorem div_lt_of_lookup (h : lookup size cell blocks i = some a) : i / size < blocks.length := by
  by_contra hlt
  rw [lookup, List.getElem?_eq_none (by omega)] at h
  cases h

theorem lookup_of_block (hb : blocks[i / size]? = some b) :
    lookup size cell blocks i = cell b (i % size) := by
  rw [lookup, hb, Option.bind_some]

theorem div_of_block (hj : j < size) : (l.length * size + j) / size = l.length := by
  rw [Nat.mul_comm, Nat.mul_add_div (by omega), Nat.div_eq_of_lt hj, Nat.add_zero]

theorem mod_of_block (hj : j < size) : (l.length * size + j) % size = j := by
  rw [Nat.mul_comm, Nat.mul_add_mod, Nat.mod_eq_of_lt hj]

theorem lookup_middle (hj : j < size) :
    lookup size cell (l ++ b :: r) (l.length * size + j) = cell b j := by
  rw [lookup_of_block (b := b) (by rw [div_of_block hj]; simp), mod_of_block hj]

/-- Writing one cell of one block writes one number. -/
theorem lookup_exchange (hj : j < size) (hcell : cell b' = Function.update (cell b) j x) :
    lookup size cell (l ++ b' :: r) =
      Function.update (lookup size cell (l ++ b :: r)) (l.length * size + j) x := by
  funext i
  by_cases hi : i = l.length * size + j
  · subst hi
    rw [Function.update_self, lookup_middle hj, hcell, Function.update_self]
  · rw [Function.update_of_ne hi]
    by_cases hc : i / size = l.length
    · have hm : i % size ≠ j := by
        intro hm
        apply hi
        rw [← hc, ← hm, Nat.mul_comm]
        exact (Nat.div_add_mod i size).symm
      rw [lookup_of_block (b := b') (by rw [hc]; simp), lookup_of_block (b := b) (by rw [hc]; simp),
        hcell, Function.update_of_ne hm]
    · rw [lookup, lookup]
      congr 1
      rcases Nat.lt_or_gt_of_ne hc with hc | hc
      · rw [List.getElem?_append_left hc, List.getElem?_append_left hc]
      · obtain ⟨n, hn⟩ : ∃ n, i / size - l.length = n + 1 := ⟨i / size - l.length - 1, by omega⟩
        rw [List.getElem?_append_right (by omega), List.getElem?_append_right (by omega), hn,
          List.getElem?_cons_succ, List.getElem?_cons_succ]

/-- A last block without values can be added or dropped. -/
theorem lookup_concat (hcell : ∀ j, cell b j = none) :
    lookup size cell (l ++ [b]) = lookup size cell l := by
  funext i
  rcases Nat.lt_trichotomy (i / size) l.length with h | h | h
  · rw [lookup, lookup, List.getElem?_append_left h]
  · rw [lookup_of_block (b := b) (by rw [h]; simp), hcell, lookup, List.getElem?_eq_none (by omega)]
    rfl
  · rw [lookup, lookup, List.getElem?_eq_none (by simp; omega), List.getElem?_eq_none (by omega)]

end ManagedObject.Handles
