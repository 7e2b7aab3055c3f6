import Mathlib.Data.List.Induction
import Mathlib.Data.List.Perm.Basic

/-!
# Lists that are erased from the end

A loop over reverse iterators that erases the first element it finds erases the last one that
satisfies the test. Numbers that are appended at the position they name, in a list from which others
are erased, stay at least as large as their positions.
-/

namespace ManagedObject.Lists

variable {α : Type} {p : α → Bool} {l : List α} {a : α}

def eraseLast (p : α → Bool) (l : List α) : List α := (l.reverse.eraseP p).reverse

theorem eraseLast_sublist : (eraseLast p l).Sublist l := by
  have h := (List.eraseP_sublist (p := p) (l := l.reverse)).reverse
  rwa [List.reverse_reverse] at h

/-- The list around the element that is erased. -/
theorem eraseLast_eq (ha : a ∈ l) (hp : p a = true) :
    ∃ b l₁ l₂, p b = true ∧ (∀ x ∈ l₂, p x = false) ∧ l = l₁ ++ b :: l₂ ∧
      eraseLast p l = l₁ ++ l₂ := by
  obtain ⟨b, l₁, l₂, hbefore, hb, hl, herase⟩ :=
    List.exists_of_eraseP (List.mem_reverse.mpr ha) hp
  refine ⟨b, l₂.reverse, l₁.reverse, hb, fun x hx => ?_, ?_, ?_⟩
  · have h := hbefore x (List.mem_reverse.mp hx)
    simpa using h
  · rw [← List.reverse_reverse l, hl]
    simp
  · rw [eraseLast, herase, List.reverse_append]

theorem eraseLast_concat (hp : p a = true) : eraseLast p (l ++ [a]) = l := by
  rw [eraseLast, List.reverse_concat, List.eraseP_cons_of_pos hp, List.reverse_reverse]

theorem perm_eraseLast {v : Nat} {l : List Nat} (hv : v ∈ l) :
    l.Perm (v :: eraseLast (· = v) l) := by
  obtain ⟨b, l₁, l₂, hb, -, hl, herase⟩ :=
    eraseLast_eq (p := fun x => decide (x = v)) hv (decide_eq_true rfl)
  rw [decide_eq_true_eq] at hb
  subst hb
  rw [herase, hl]
  exact List.perm_middle

/-- Erasing a number next to the element of another list that it belongs to. -/
theorem perm_eraseLast_middle {v : Nat} {l l₁ l₂ : List Nat} (h : l.Perm (l₁ ++ v :: l₂)) :
    (eraseLast (· = v) l).Perm (l₁ ++ l₂) := by
  have hv : v ∈ l := h.mem_iff.mpr (List.mem_append_right _ List.mem_cons_self)
  exact ((perm_eraseLast hv).symm.trans (h.trans List.perm_middle)).cons_inv

theorem eraseLast_of_find? (h : l.reverse.find? p = some a) :
    ∃ l₁ l₂, p a = true ∧ l = l₁ ++ a :: l₂ ∧ eraseLast p l = l₁ ++ l₂ := by
  obtain ⟨hp, l₂, l₁, hl, hbefore⟩ := List.find?_eq_some_iff_append.mp h
  have hl' : l = l₁.reverse ++ a :: l₂.reverse := by
    rw [← List.reverse_reverse l, hl]
    simp
  have hnot : ∀ x ∈ l₂, ¬ p x = true := fun x hx => by simpa using hbefore x hx
  refine ⟨l₁.reverse, l₂.reverse, hp, hl', ?_⟩
  rw [eraseLast, hl, List.eraseP_append_right _ hnot, List.eraseP_cons_of_pos hp,
    List.reverse_append]

theorem map_set_of_eq {β : Type} {f : α → β} {i : Nat} {b : α} (ha : l[i]? = some a) (hf : f b = f a) :
    (l.set i b).map f = l.map f := by
  obtain ⟨hi, rfl⟩ := List.getElem?_eq_some_iff.mp ha
  rw [List.map_set, hf, ← List.getElem_map f (h := by simpa using hi)]
  exact List.set_getElem_self _

/-! ### The element with a key -/

section Keyed

variable {κ : Type} [DecidableEq κ] {key : α → κ} {k : κ} {f : α → α} {x : α} {l l₁ l₂ : List α}

def updateKey (key : α → κ) (k : κ) (f : α → α) (l : List α) : List α :=
  l.map fun x => if key x = k then f x else x

theorem updateKey_of_notMem (hk : k ∉ l.map key) : updateKey key k f l = l := by
  apply (List.map_congr_left ?_).trans (List.map_id l)
  intro x hx
  apply if_neg
  intro h
  rw [← h] at hk
  exact hk (List.mem_map_of_mem hx)

/-- An update that leaves the keys as they are. -/
theorem map_updateKey (hf : ∀ x, key (f x) = key x) : (updateKey key k f l).map key = l.map key := by
  rw [updateKey, List.map_map]
  refine List.map_congr_left fun x _ => ?_
  rw [Function.comp_apply]
  split
  · exact hf x
  · rfl

theorem updateKey_middle (hnodup : ((l₁ ++ x :: l₂).map key).Nodup) (hx : key x = k) :
    updateKey key k f (l₁ ++ x :: l₂) = l₁ ++ f x :: l₂ := by
  subst hx
  rw [List.map_append, List.map_cons, List.nodup_append, List.nodup_cons] at hnodup
  obtain ⟨-, ⟨hafter, -⟩, hbefore⟩ := hnodup
  have hleft : updateKey key (key x) f l₁ = l₁ :=
    updateKey_of_notMem fun h => hbefore _ h _ List.mem_cons_self rfl
  have hright : updateKey key (key x) f l₂ = l₂ := updateKey_of_notMem hafter
  rw [updateKey] at hleft hright ⊢
  rw [List.map_append, List.map_cons, hleft, hright, if_pos rfl]

end Keyed

/-! ### Numbers and their positions -/

/-- Every number is at least its position. -/
def Late (l : List Nat) : Prop := ∀ l₁ v l₂, l = l₁ ++ v :: l₂ → l₁.length ≤ v

/-- Every number is at most its position. -/
def Early (l : List Nat) : Prop := ∀ l₁ v l₂, l = l₁ ++ v :: l₂ → v ≤ l₁.length

variable {k k' : List Nat} {v : Nat}

theorem Late.nil : Late [] := fun l₁ _ _ h => absurd h.symm (by simp)

theorem Early.nil : Early [] := fun l₁ _ _ h => absurd h.symm (by simp)

theorem Late.sublist (hk : Late k) (h : k'.Sublist k) : Late k' := by
  intro l₁ v l₂ hl
  subst hl
  obtain ⟨r₁, r₂, rfl, h₁, h₂⟩ := List.append_sublist_iff.mp h
  obtain ⟨r₃, r₄, rfl, hv, -⟩ := List.cons_sublist_iff.mp h₂
  obtain ⟨a, b, rfl⟩ := List.append_of_mem hv
  have hlate := hk (r₁ ++ a) v (b ++ r₄) (by simp)
  have hlength := h₁.length_le
  rw [List.length_append] at hlate
  omega

theorem Late.concat (hk : Late k) (hv : k.length ≤ v) : Late (k ++ [v]) := by
  intro l₁ w l₂ hl
  rcases List.eq_nil_or_concat l₂ with rfl | ⟨l₃, u, rfl⟩
  · obtain ⟨rfl, hw⟩ := List.append_inj' hl rfl
    cases hw
    exact hv
  · have hl' : k ++ [v] = (l₁ ++ w :: l₃) ++ [u] := by rw [hl]; simp
    exact hk l₁ w l₃ (List.append_inj' hl' rfl).1

theorem Early.dropLast (hk : Early (k ++ [v])) : Early k ∧ v ≤ k.length :=
  ⟨fun l₁ w l₂ hl => hk l₁ w (l₂ ++ [v]) (by simp [hl]), hk k v [] rfl⟩

theorem Early.concat (hk : Early k) (hv : v ≤ k.length) : Early (k ++ [v]) := by
  intro l₁ w l₂ hl
  rcases List.eq_nil_or_concat l₂ with rfl | ⟨l₃, u, rfl⟩
  · obtain ⟨rfl, hw⟩ := List.append_inj' hl rfl
    cases hw
    exact hv
  · have hl' : k ++ [v] = (l₁ ++ w :: l₃) ++ [u] := by rw [hl]; simp
    exact hk l₁ w l₃ (List.append_inj' hl' rfl).1

/-- The same numbers in a late and an early order are the numbers from 0 on, in both. -/
theorem eq_range_of_late_early : ∀ {k k' : List Nat}, k'.Perm k → Late k → Early k' →
    k = List.range k.length ∧ k' = List.range k.length := by
  intro k
  induction k using List.reverseRecOn with
  | nil =>
    intro k' hperm _ _
    rw [hperm.eq_nil]
    exact ⟨rfl, rfl⟩
  | append_singleton k w ih =>
    intro k' hperm hlate hearly
    obtain rfl | ⟨k', v, rfl⟩ := List.eq_nil_or_concat k'
    · exact absurd hperm.symm.eq_nil (by simp)
    · rw [List.concat_eq_append] at hperm hearly ⊢
      have hlength : k'.length = k.length := by simpa using hperm.length_eq
      have hw : k.length ≤ w := hlate k w [] rfl
      obtain ⟨hearly', hv⟩ := hearly.dropLast
      -- the last number of the late list is too large for any other place of the early one
      have hwv : w = v := by
        have hmem : w ∈ k' ++ [v] := hperm.mem_iff.mpr (by simp)
        rcases List.mem_append.mp hmem with hmem | hmem
        · obtain ⟨l₁, l₂, rfl⟩ := List.append_of_mem hmem
          have hle : w ≤ l₁.length := hearly' l₁ w l₂ rfl
          rw [List.length_append, List.length_cons] at hlength
          omega
        · exact List.mem_singleton.mp hmem
      subst hwv
      have hlast : w = k.length := by omega
      obtain ⟨hk, hk'⟩ := ih ((List.perm_append_right_iff [w]).mp hperm)
        (hlate.sublist (List.sublist_append_left _ _)) hearly'
      rw [List.length_append, List.length_singleton, List.range_succ, ← hk, ← hlast]
      exact ⟨rfl, by rw [hk', ← hk]⟩

/-! ### Elements and their positions -/

section Aligned

variable {α : Type} {key : α → Nat} {a b : α} {l l' : List α} {i : Nat}

/-- The key of every element is its position. -/
def Aligned (key : α → Nat) (l : List α) : Prop := l.map key = List.range l.length

theorem Aligned.nil : Aligned key [] := rfl

theorem Aligned.concat (hl : Aligned key l) (ha : key a = l.length) : Aligned key (l ++ [a]) := by
  rw [Aligned, List.map_append, hl, List.length_append, List.length_singleton, List.range_succ,
    List.map_singleton, ha]

theorem Aligned.first (hl : Aligned key l) (h : l' <+: l) : Aligned key l' := by
  have hlength := h.length_le
  rw [List.prefix_iff_eq_take] at h
  rw [Aligned, h, List.map_take, hl, List.take_range, List.length_take]

theorem Aligned.set (hl : Aligned key l) (ha : l[i]? = some a) (hkey : key b = key a) :
    Aligned key (l.set i b) := by
  rw [Aligned, map_set_of_eq ha hkey, hl, List.length_set]

theorem Aligned.getElem? (hl : Aligned key l) (ha : a ∈ l) : l[key a]? = some a := by
  obtain ⟨i, hi, rfl⟩ := List.getElem_of_mem ha
  have hkey : (l.map key)[i]? = some (key l[i]) := by simp [hi]
  rw [hl, List.getElem?_range hi] at hkey
  rw [← Option.some_inj.mp hkey, List.getElem?_eq_getElem hi]

/-- Some elements of an aligned list are aligned when they are its first ones. -/
theorem Aligned.sublist_iff (hl : Aligned key l) (hsub : l'.Sublist l) : Aligned key l' ↔ l' <+: l := by
  refine ⟨fun hl' => ?_, hl.first⟩
  induction l' using List.reverseRecOn with
  | nil => exact List.nil_prefix
  | append_singleton k a ih =>
    have hk : k <+: l := by
      apply ih ((List.sublist_append_left k [a]).trans hsub)
      exact hl'.first (List.prefix_append k [a])
    have ha : l[key a]? = some a := hl.getElem? (hsub.subset (by simp))
    have hlast : key a = k.length := by
      have hmap := hl'
      rw [Aligned, List.map_append, List.length_append, List.length_singleton, List.range_succ] at hmap
      exact List.singleton_inj.mp (List.append_inj_right' hmap rfl)
    obtain ⟨l₂, rfl⟩ := hk
    rw [hlast, List.getElem?_append_right (Nat.le_refl _), Nat.sub_self] at ha
    cases l₂ with
    | nil => cases ha
    | cons b l₂ =>
      obtain rfl : b = a := by simpa using ha
      exact ⟨l₂, by simp⟩

/-- Elements that are taken out are the last ones when nothing that is kept follows one of them. -/
theorem prefix_iff_of_sublist (hsub : l'.Sublist l) (hnodup : l.Nodup) :
    l' <+: l ↔ ∀ l₁ a l₂, l = l₁ ++ a :: l₂ → a ∉ l' → ∀ b ∈ l₂, b ∉ l' := by
  constructor
  · rintro ⟨k, rfl⟩ l₁ a l₂ hl ha b hb hmem
    have hoff : b ∉ k := fun hk => (List.nodup_append.mp hnodup).2.2 b hmem b hk rfl
    rcases List.append_eq_append_iff.mp hl with ⟨c, -, rfl⟩ | ⟨c, rfl, hc⟩
    · exact hoff (List.mem_append_right _ (List.mem_cons_of_mem _ hb))
    · cases c with
      | nil =>
        rw [List.nil_append] at hc
        exact hoff (hc ▸ List.mem_cons_of_mem _ hb)
      | cons x c =>
        obtain ⟨rfl, -⟩ := List.cons.inj hc
        exact ha (List.mem_append_right _ List.mem_cons_self)
  · intro hlast
    induction hsub with
    | slnil => exact List.prefix_rfl
    | @cons k l a hsub ih =>
      have ha : a ∉ k := fun hmem => (List.nodup_cons.mp hnodup).1 (hsub.subset hmem)
      rw [List.eq_nil_iff_forall_not_mem.mpr fun b hb => hlast [] a l rfl ha b (hsub.subset hb) hb]
      exact List.nil_prefix
    | @cons_cons k l a hsub ih =>
      rw [List.nodup_cons] at hnodup
      rw [List.cons_prefix_cons]
      refine ⟨rfl, ih hnodup.2 fun l₁ x l₂ hl hx b hb hmem => ?_⟩
      have hne : x ∉ a :: k := by
        rw [List.mem_cons]
        rintro (rfl | hmem)
        · exact hnodup.1 (hl ▸ List.mem_append_right _ List.mem_cons_self)
        · exact hx hmem
      exact hlast (a :: l₁) x l₂ (by rw [hl]; rfl) hne b hb (List.mem_cons_of_mem _ hmem)

end Aligned

end ManagedObject.Lists
