import Mathlib.Data.Nat.Find
import Mathlib.Data.Nat.ModEq
import Mathlib.Data.List.Nodup
import Mathlib.Data.List.Perm.Basic
import Mathlib.Data.List.Perm.Subperm

/-!
# Linear probing without tombstones

A table of optional entries, searched from the home slot of a key to the first empty slot. Every entry is
reached from its home over occupied slots, and a removal closes the gap that it leaves. The table may be
full, and then no empty slot cuts the circle of slots. So the invariant names a slot at which the circle is
cut: seen from there no path runs over the cut, but for the entry in the last slot of a full table.
-/

namespace ManagedObject.Linear

variable {α : Type} {home : α → Nat} {t : List (Option α)} {c h i j k n d s x z : Nat} {e : α}

def slot (t : List (Option α)) (i : Nat) : Option α := t[i]?.join

/-- The entry at distance `k` from the slot `c`. -/
def cell (t : List (Option α)) (c k : Nat) : Option α := slot t ((c + k) % t.length)

theorem slot_eq_some : slot t i = some e ↔ t[i]? = some (some e) := by
  rw [slot, Option.join_eq_some_iff]

theorem lt_of_slot (hi : slot t i = some e) : i < t.length := by
  obtain ⟨hlt, -⟩ := List.getElem?_eq_some_iff.mp (slot_eq_some.mp hi)
  exact hlt

theorem slot_set (hi : i < t.length) (x : Option α) : slot (t.set i x) j = if j = i then x else slot t j := by
  rw [slot, slot, List.getElem?_set]
  by_cases hj : j = i
  · subst hj
    rw [if_pos rfl, if_pos hi, if_pos rfl]
    rfl
  · rw [if_neg (Ne.symm hj), if_neg hj]

/-! ### Counting entries -/

theorem map_slot_range (t : List (Option α)) : (List.range t.length).map (slot t) = t := by
  apply List.ext_getElem
  · rw [List.length_map, List.length_range]
  · intro i hi hlt
    rw [List.getElem_map, List.getElem_range, slot, List.getElem?_eq_getElem hlt, Option.join_some]

theorem countP_eq (p : α → Bool) :
    t.countP (Option.any p) = ((List.range t.length).filter fun i => (slot t i).any p).length := by
  conv_lhs => rw [← map_slot_range t]
  rw [List.countP_map, List.countP_eq_length_filter]
  rfl

theorem length_le_countP {p : α → Bool} {l : List Nat} (hnodup : l.Nodup)
    (hl : ∀ i ∈ l, ∃ e, slot t i = some e ∧ p e = true) : l.length ≤ t.countP (Option.any p) := by
  rw [countP_eq]
  apply List.Subperm.length_le
  apply hnodup.subperm
  intro i hi
  obtain ⟨e, he, hp⟩ := hl i hi
  rw [List.mem_filter, List.mem_range, he]
  exact ⟨lt_of_slot he, hp⟩

theorem countP_le_length {p : α → Bool} {l : List Nat}
    (hl : ∀ i e, slot t i = some e → p e = true → i ∈ l) : t.countP (Option.any p) ≤ l.length := by
  rw [countP_eq]
  apply List.Subperm.length_le
  apply (List.nodup_range.filter _).subperm
  intro i hi
  obtain ⟨-, hany⟩ := List.mem_filter.mp hi
  obtain ⟨e, he, hp⟩ := Option.any_eq_true _ _ |>.mp hany
  exact hl i e he hp

theorem perm_move (hi : slot t i = none) (hlt : i < t.length) (hk : slot t k = some e) :
    ((t.set i (some e)).set k none).Perm t := by
  have hki : k ≠ i := by
    rintro rfl
    rw [hi] at hk
    cases hk
  have hklt : k < (t.set i (some e)).length := by
    rw [List.length_set]
    exact lt_of_slot hk
  have hsource : (t.set i (some e))[k] = some e := by
    rw [List.getElem_set_ne hki.symm]
    exact (List.getElem?_eq_some_iff.mp (slot_eq_some.mp hk)).2
  have hgap : t[i] = none := by
    rw [slot, List.getElem?_eq_getElem hlt, Option.join_some] at hi
    exact hi
  -- without the slot that is filled and without the one that is emptied, the same entries are left
  have hrest : ((t.set i (some e)).eraseIdx k).Perm (t.eraseIdx i) := by
    apply List.Perm.cons_inv (a := some e)
    calc some e :: (t.set i (some e)).eraseIdx k
        _ = (t.set i (some e))[k] :: (t.set i (some e)).eraseIdx k := by rw [hsource]
        List.Perm _ (t.set i (some e)) := List.getElem_cons_eraseIdx_perm hklt
        List.Perm _ (some e :: t.eraseIdx i) := List.set_perm_cons_eraseIdx hlt _
  calc (t.set i (some e)).set k none
      List.Perm _ (none :: (t.set i (some e)).eraseIdx k) := List.set_perm_cons_eraseIdx hklt _
      List.Perm _ (none :: t.eraseIdx i) := hrest.cons none
      _ = t[i] :: t.eraseIdx i := by rw [hgap]
      List.Perm _ t := List.getElem_cons_eraseIdx_perm hlt

/-! ### Distances on the circle -/

theorem eq_of_add_mod_eq {m : Nat} (hj : j < m) (hk : k < m) (heq : (c + j) % m = (c + k) % m) : j = k := by
  have hmod : j ≡ k [MOD m] := Nat.ModEq.add_left_cancel' c heq
  rwa [Nat.ModEq, Nat.mod_eq_of_lt hj, Nat.mod_eq_of_lt hk] at hmod

/-- Every slot has a distance from `c`. -/
theorem exists_rank {m : Nat} (c : Nat) (hs : s < m) : ∃ k < m, (c + k) % m = s := by
  have hc : c % m < m := Nat.mod_lt _ (by omega)
  refine ⟨(s + (m - c % m)) % m, Nat.mod_lt _ (by omega), ?_⟩
  rw [Nat.add_mod_mod, ← Nat.mod_add_mod]
  have hsum : c % m + (s + (m - c % m)) = s + m := by omega
  rw [hsum, Nat.add_mod_right, Nat.mod_eq_of_lt hs]

/-- The distance from `s` to `x`, as the code computes it. -/
theorem distance_eq {m : Nat} (hs : s < m) (hd : d < m) (hx : (s + d) % m = x) : (x + m - s) % m = d := by
  by_cases hwrap : s + d < m
  · rw [Nat.mod_eq_of_lt hwrap] at hx
    have hsum : x + m - s = d + m := by omega
    rw [hsum, Nat.add_mod_right, Nat.mod_eq_of_lt hd]
  · rw [Nat.mod_eq_sub_mod (by omega), Nat.mod_eq_of_lt (by omega)] at hx
    have hsum : x + m - s = d := by omega
    rw [hsum, Nat.mod_eq_of_lt hd]

theorem distance_rank {m : Nat} (hle : h ≤ k) (hk : k < m) :
    ((c + k) % m + m - (c + h) % m) % m = k - h := by
  refine distance_eq (Nat.mod_lt _ (by omega)) (by omega) ?_
  have hsum : c + h + (k - h) = c + k := by omega
  rw [Nat.mod_add_mod, hsum]

theorem distance_rank_wrap {m : Nat} (hlt : k < h) (hh : h < m) :
    ((c + k) % m + m - (c + h) % m) % m = k + m - h := by
  refine distance_eq (Nat.mod_lt _ (by omega)) (by omega) ?_
  have hsum : c + h + (k + m - h) = c + k + m := by omega
  rw [Nat.mod_add_mod, hsum, Nat.add_mod_right]

theorem cell_set (hj : j < t.length) (hk : k < t.length) (x : Option α) :
    cell (t.set ((c + j) % t.length) x) c k = if k = j then x else cell t c k := by
  rw [cell, List.length_set, slot_set (Nat.mod_lt _ (by omega))]
  by_cases heq : k = j
  · rw [if_pos (by rw [heq]), if_pos heq]
  · rw [if_neg (fun hmod => heq (eq_of_add_mod_eq hk hj hmod)), if_neg heq]
    rfl

/-! ### Paths -/

/-- From slot `s` to slot `i` over occupied slots. -/
def Reach (t : List (Option α)) (s i : Nat) : Prop :=
  ∃ d < t.length, (s + d) % t.length = i ∧ ∀ j < d, slot t ((s + j) % t.length) ≠ none

/-- The circle can be cut before slot `c`. -/
structure Chained (home : α → Nat) (t : List (Option α)) (c : Nat) : Prop where
  path : ∀ k e, k + 1 < t.length → cell t c k = some e →
    ∃ h ≤ k, (c + h) % t.length = home e ∧ ∀ j, h ≤ j → j < k → cell t c j ≠ none
  last : cell t c (t.length - 1) ≠ none → ∀ k < t.length, cell t c k ≠ none

theorem reach_of_rank (hk : k < t.length) (hle : h ≤ k) (hhome : (c + h) % t.length = s)
    (hpath : ∀ j, h ≤ j → j < k → cell t c j ≠ none) : Reach t s ((c + k) % t.length) := by
  subst hhome
  refine ⟨k - h, by omega, ?_, fun j hj => ?_⟩
  · have hsum : c + h + (k - h) = c + k := by omega
    rw [Nat.mod_add_mod, hsum]
  · have hcell := hpath (h + j) (by omega) (by omega)
    rwa [cell, ← Nat.add_assoc, ← Nat.mod_add_mod] at hcell

/-- An entry of a chained table is reached from its home. -/
theorem Chained.reach (ht : Chained home t c) (hhome : ∀ e, home e < t.length) (hi : slot t i = some e) :
    Reach t (home e) i := by
  have hlt := lt_of_slot hi
  obtain ⟨k, hk, rfl⟩ := exists_rank c hlt
  by_cases hlast : k + 1 < t.length
  · obtain ⟨h, hle, hh, hpath⟩ := ht.path k e hlast hi
    exact reach_of_rank hk hle hh hpath
  · have hrank : t.length - 1 = k := by omega
    have hfull := ht.last (by rw [hrank, cell, hi]; exact Option.some_ne_none e)
    obtain ⟨h, hh, hrank⟩ := exists_rank c (hhome e)
    exact reach_of_rank hk (by omega) hrank fun j _ hj => hfull j (by omega)

/-- A table with an empty slot is cut after it. -/
theorem chained_of_reach (hhome : ∀ e, home e < t.length) (hz : z < t.length) (hempty : slot t z = none)
    (hreach : ∀ i e, slot t i = some e → Reach t (home e) i) : Chained home t (z + 1) := by
  have hcut : cell t (z + 1) (t.length - 1) = none := by
    have hsum : z + 1 + (t.length - 1) = z + t.length := by omega
    rw [cell, hsum, Nat.add_mod_right, Nat.mod_eq_of_lt hz, hempty]
  constructor
  · intro k e hk he
    obtain ⟨d, hd, hend, hpath⟩ := hreach _ e he
    obtain ⟨h, hh, hrank⟩ := exists_rank (z + 1) (hhome e)
    have hcell : ∀ j < d, cell t (z + 1) (h + j) ≠ none := by
      intro j hj
      rw [cell, ← Nat.add_assoc, ← Nat.mod_add_mod, hrank]
      exact hpath j hj
    -- a path over the cut would contain the empty slot
    have hbefore : h + d < t.length := by
      by_contra hover
      refine hcell (t.length - 1 - h) (by omega) ?_
      have hsum : h + (t.length - 1 - h) = t.length - 1 := by omega
      rw [hsum, hcut]
    have heq : h + d = k := by
      apply eq_of_add_mod_eq hbefore (by omega)
      rw [← hend, ← hrank, Nat.mod_add_mod, ← Nat.add_assoc]
    refine ⟨h, by omega, hrank, fun j hle hj => ?_⟩
    have hsum : h + (j - h) = j := by omega
    have := hcell (j - h) (by omega)
    rwa [hsum] at this
  · intro hlast
    exact absurd hcut hlast

theorem Reach.mono {t' : List (Option α)} (hreach : Reach t s i) (hlength : t'.length = t.length)
    (hoccupied : ∀ j, slot t j ≠ none → slot t' j ≠ none) : Reach t' s i := by
  obtain ⟨d, hd, hend, hpath⟩ := hreach
  rw [Reach, hlength]
  exact ⟨d, hd, hend, fun j hj => hoccupied _ (hpath j hj)⟩

/-- A path that does not run over the end of the table. -/
theorem Reach.forward (hreach : Reach t s i) (hle : s ≤ i) (hj : s ≤ j) (hlt : j < i) :
    slot t j ≠ none := by
  obtain ⟨d, hd, hend, hpath⟩ := hreach
  have hi : i < t.length := hend ▸ Nat.mod_lt _ (by omega)
  have hsum : s + (i - s) = i := by omega
  have heq : d = i - s := by
    apply eq_of_add_mod_eq hd (by omega)
    rw [hend, hsum, Nat.mod_eq_of_lt hi]
  have hoccupied := hpath (j - s) (by omega)
  rwa [Nat.add_sub_cancel' hj, Nat.mod_eq_of_lt (by omega)] at hoccupied

/-- A path that ends before its start runs over the last slot. -/
theorem Reach.last (hreach : Reach t s i) (hs : s < t.length) (hlt : i < s) :
    slot t (t.length - 1) ≠ none := by
  obtain ⟨d, hd, hend, hpath⟩ := hreach
  have hover : t.length - 1 - s < d := by
    by_contra hshort
    rw [Nat.mod_eq_of_lt (by omega)] at hend
    omega
  have hoccupied := hpath _ hover
  rwa [Nat.add_sub_cancel' (by omega), Nat.mod_eq_of_lt (by omega)] at hoccupied

/-- The entries lie in the first `m` slots if and only if, from each slot on, these have room for the
entries whose home is there or later. -/
theorem Chained.slots_lt_iff {m : Nat} (ht : Chained home t c) (hhome : ∀ e, home e < t.length)
    (hm : m < t.length) : (∀ i e, slot t i = some e → i < m) ↔
      ∀ k ≤ m, t.countP (Option.any fun e => decide (k ≤ home e)) + k ≤ m := by
  constructor
  · intro hlow k hk
    have hle : t.countP (Option.any fun e => decide (k ≤ home e)) ≤ (List.range' k (m - k)).length := by
      apply countP_le_length
      intro i e he hke
      have hke := of_decide_eq_true hke
      have hi := hlow i e he
      rw [List.mem_range'_1]
      by_contra hbefore
      have hlast := (ht.reach hhome he).last (hhome e) (by omega)
      obtain ⟨e', he'⟩ := Option.ne_none_iff_exists'.mp hlast
      have := hlow _ e' he'
      omega
    rw [List.length_range'] at hle
    omega
  · intro hroom i e he
    by_contra hover
    have hsmall : ∀ i e, slot t i = some e → home e < m := by
      intro i e he
      by_contra hlarge
      have hone : [i].length ≤ t.countP (Option.any fun e => decide (m ≤ home e)) := by
        apply length_le_countP (List.nodup_singleton i)
        intro j hj
        rw [List.mem_singleton] at hj
        subst hj
        exact ⟨e, he, decide_eq_true (by omega)⟩
      have hroom := hroom m (Nat.le_refl m)
      rw [List.length_singleton] at hone
      omega
    have hfull : slot t m ≠ none := by
      have hi : i ≠ m → slot t m ≠ none := fun hne =>
        (ht.reach hhome he).forward (by have := hsmall i e he; omega)
          (Nat.le_of_lt (hsmall i e he)) (by omega)
      by_cases him : i = m
      · rw [← him, he]
        exact Option.some_ne_none e
      · exact hi him
    -- the occupied slots before `m`, from the first one of the row on
    have hrow : ∃ j, j ≤ m ∧ ∀ x, j ≤ x → x ≤ m → slot t x ≠ none :=
      ⟨m, Nat.le_refl m, fun x hx hxm => Nat.le_antisymm hx hxm ▸ hfull⟩
    classical
    obtain ⟨hj, hoccupied⟩ := Nat.find_spec hrow
    generalize hfirst : Nat.find hrow = j at hj hoccupied
    have hcount : (List.range' j (m + 1 - j)).length ≤ t.countP (Option.any fun e => decide (j ≤ home e)) := by
      apply length_le_countP List.nodup_range'
      intro x hx
      rw [List.mem_range'_1] at hx
      obtain ⟨e', he'⟩ := Option.ne_none_iff_exists'.mp (hoccupied x hx.1 (by omega))
      refine ⟨e', he', decide_eq_true ?_⟩
      by_contra hbefore
      have hprev : slot t (j - 1) ≠ none :=
        (ht.reach hhome he').forward (by omega) (by omega) (by omega)
      refine Nat.find_min hrow (m := j - 1) (by omega) ⟨by omega, fun y hy hym => ?_⟩
      by_cases hyj : y = j - 1
      · rwa [hyj]
      · exact hoccupied y (by omega) hym
    have hroom := hroom j hj
    rw [List.length_range'] at hcount
    omega

/-! ### Insertion -/

theorem exists_empty (hcount : t.countP (Option.any fun _ => true) < t.length) :
    ∃ z < t.length, slot t z = none := by
  by_contra hfull
  push Not at hfull
  have hle : (List.range t.length).length ≤ t.countP (Option.any fun _ => true) := by
    apply length_le_countP List.nodup_range
    intro i hi
    obtain ⟨e, he⟩ := Option.ne_none_iff_exists'.mp (hfull i (List.mem_range.mp hi))
    exact ⟨e, he, rfl⟩
  rw [List.length_range] at hle
  omega

theorem slot_set_ne_none (hi : i < t.length) (hj : slot t j ≠ none) : slot (t.set i (some e)) j ≠ none := by
  rw [slot_set hi]
  split
  · exact Option.some_ne_none e
  · exact hj

/-- An entry is stored in a slot that is reached from its home, and an empty slot is left. -/
theorem Chained.set (ht : Chained home t c) (hhome : ∀ e, home e < t.length) (hi : i < t.length)
    (hreach : Reach t (home e) i) (hz : z < t.length) (hempty : slot (t.set i (some e)) z = none) :
    ∃ c', Chained home (t.set i (some e)) c' := by
  have hlength : (t.set i (some e)).length = t.length := List.length_set
  refine ⟨z + 1, chained_of_reach (by rwa [hlength]) (by rwa [hlength]) hempty fun j e' hj => ?_⟩
  refine Reach.mono ?_ hlength fun _ => slot_set_ne_none hi
  rw [slot_set hi] at hj
  split at hj
  · cases hj
    subst j
    exact hreach
  · exact ht.reach hhome hj

/-- An entry is stored in the first empty slot after its home. -/
theorem Chained.insert (ht : Chained home t c) (hhome : ∀ e, home e < t.length) (hi : i < t.length)
    (hempty : slot t i = none) (hreach : Reach t (home e) i) : ∃ c', Chained home (t.set i (some e)) c' := by
  have hlength : (t.set i (some e)).length = t.length := List.length_set
  by_cases hfree : ∃ z < t.length, slot (t.set i (some e)) z = none
  · obtain ⟨z, hz, hfree⟩ := hfree
    exact ht.set hhome hi hreach hz hfree
  · -- the table is full now: it is cut after the entry that came last
    push Not at hfree
    have hold : Chained home t (i + 1) := chained_of_reach hhome hi hempty fun j e' hj => ht.reach hhome hj
    have hfull : ∀ k, k < t.length → cell (t.set i (some e)) (i + 1) k ≠ none := by
      intro k hk
      rw [cell, hlength]
      exact hfree _ (Nat.mod_lt _ (by omega))
    refine ⟨i + 1, ?_, ?_⟩
    · intro k e' hk he'
      rw [hlength] at hk ⊢
      have hne : (i + 1 + k) % t.length ≠ i := by
        intro heq
        have hself : (i + 1 + (t.length - 1)) % t.length = i := by
          have hsum : i + 1 + (t.length - 1) = i + t.length := by omega
          rw [hsum, Nat.add_mod_right, Nat.mod_eq_of_lt hi]
        have := eq_of_add_mod_eq (by omega) (by omega) (heq.trans hself.symm)
        omega
      rw [cell, hlength, slot_set hi, if_neg hne] at he'
      obtain ⟨h, hle, hrank, -⟩ := hold.path k e' hk he'
      exact ⟨h, hle, hrank, fun j _ hj => hfull j (by omega)⟩
    · intro _ k hk
      exact hfull k (by rwa [hlength] at hk)

theorem chained_replicate (n : Nat) : Chained home (List.replicate n none) 0 := by
  have hcell : ∀ k, cell (List.replicate n (none : Option α)) 0 k = none := by
    intro k
    rw [cell, slot, List.getElem?_replicate]
    split <;> rfl
  constructor
  · intro k e _ he
    rw [hcell] at he
    cases he
  · intro hlast
    exact absurd (hcell _) hlast

/-! ### Searching -/

/-- From a slot on, the first one that is empty or holds a match. -/
def walk (hit : α → Bool) (t : List (Option α)) : Nat → Nat → Option Nat
  | 0, _ => none
  | n + 1, i =>
    match slot t i with
    | none => some i
    | some e => if hit e then some i else walk hit t n ((i + 1) % t.length)

variable {hit : α → Bool}

theorem walk_eq_some (hs : s < t.length) (hwalk : walk hit t n s = some i) :
    ∃ d < n, (s + d) % t.length = i ∧ (∀ e, slot t i = some e → hit e = true) ∧
      ∀ j < d, ∃ e, slot t ((s + j) % t.length) = some e ∧ hit e = false := by
  induction n generalizing s with
  | zero => cases hwalk
  | succ n ih =>
    have hhere : (s + 0) % t.length = s := Nat.mod_eq_of_lt hs
    rw [walk] at hwalk
    split at hwalk
    · rename_i hempty
      cases hwalk
      exact ⟨0, Nat.succ_pos n, hhere, by simp [hempty], by omega⟩
    · rename_i e he
      split at hwalk
      · rename_i hhit
        cases hwalk
        refine ⟨0, Nat.succ_pos n, hhere, fun e' he' => ?_, by omega⟩
        rw [he] at he'
        cases he'
        exact hhit
      · rename_i hmiss
        obtain ⟨d, hd, hend, hstop, hbefore⟩ := ih (Nat.mod_lt _ (by omega)) hwalk
        have hnext : ∀ j, ((s + 1) % t.length + j) % t.length = (s + (j + 1)) % t.length := by
          intro j
          rw [Nat.mod_add_mod, Nat.add_assoc, Nat.add_comm 1 j]
        refine ⟨d + 1, by omega, by rw [← hnext, hend], hstop, fun j hj => ?_⟩
        cases j with
        | zero => exact ⟨e, by rw [hhere, he], by simpa using hmiss⟩
        | succ j =>
          rw [← hnext]
          exact hbefore j (by omega)

theorem reach_of_walk (hs : s < t.length) (hwalk : walk hit t t.length s = some i) : Reach t s i := by
  obtain ⟨d, hd, hend, -, hbefore⟩ := walk_eq_some hs hwalk
  refine ⟨d, hd, hend, fun j hj => ?_⟩
  obtain ⟨e, he, -⟩ := hbefore j hj
  rw [he]
  exact Option.some_ne_none e

/-- A search meets a match on a path over occupied slots, if not before. -/
theorem walk_of_path (hs : s < t.length) (hd : d < n)
    (hpath : ∀ j < d, slot t ((s + j) % t.length) ≠ none) (hend : slot t ((s + d) % t.length) = some e)
    (hhit : hit e = true) : ∃ i e', walk hit t n s = some i ∧ slot t i = some e' ∧ hit e' = true := by
  have hhere : (s + 0) % t.length = s := Nat.mod_eq_of_lt hs
  induction n generalizing s d with
  | zero => omega
  | succ n ih =>
    cases hslot : slot t s with
    | none =>
      cases d with
      | zero =>
        rw [hhere, hslot] at hend
        cases hend
      | succ d => exact absurd (by rw [hhere, hslot]) (hpath 0 (Nat.succ_pos d))
    | some e' =>
      rw [walk, hslot]
      cases hmatch : hit e' with
      | true => exact ⟨s, e', if_pos hmatch, hslot, hmatch⟩
      | false =>
        have hnext : ∀ j, ((s + 1) % t.length + j) % t.length = (s + (j + 1)) % t.length := by
          intro j
          rw [Nat.mod_add_mod, Nat.add_assoc, Nat.add_comm 1 j]
        cases d with
        | zero =>
          rw [hhere, hslot] at hend
          cases hend
          rw [hhit] at hmatch
          cases hmatch
        | succ d =>
          have hlt : (s + 1) % t.length < t.length := Nat.mod_lt _ (by omega)
          simp only [hmatch, Bool.false_eq_true, if_false]
          refine ih hlt (Nat.lt_of_succ_lt_succ hd) ?_ (by rw [hnext, hend]) (Nat.mod_eq_of_lt hlt)
          intro j hj
          rw [hnext]
          exact hpath (j + 1) (by omega)

theorem Reach.walk (hit : α → Bool) (hreach : Reach t s i) (hs : s < t.length) (hi : slot t i = some e)
    (hhit : hit e = true) :
    ∃ i e', walk hit t t.length s = some i ∧ slot t i = some e' ∧ hit e' = true := by
  obtain ⟨d, hd, rfl, hpath⟩ := hreach
  exact walk_of_path hs hd hpath hi hhit

/-! ### Removal -/

/-- The gap at `removed` is closed: the entries after it, up to the first empty slot, move back into the
gap where they are still reached from their home. -/
def closeGap (home : α → Nat) : Nat → Nat → Nat → List (Option α) → List (Option α)
  | 0, _, removed, t => t.set removed none
  | n + 1, index, removed, t =>
    match slot t index with
    | none => t.set removed none
    | some e =>
      if (index + t.length - home e) % t.length > (removed + t.length - home e) % t.length then
        closeGap home n ((index + 1) % t.length) index (t.set removed (some e))
      else closeGap home n ((index + 1) % t.length) removed t

/-- Whatever the homes are, the entries other than the removed one stay. -/
theorem closeGap_perm (home : α → Nat) (hx : x < t.length) (hi : (x + d) % t.length = i) (hd : 0 < d)
    (hn : d + n ≤ t.length) : (closeGap home n i x t).Perm (t.set x none) := by
  induction n generalizing t i x d with
  | zero => exact .refl _
  | succ n ih =>
    rw [closeGap]
    cases hslot : slot t i with
    | none => exact .refl _
    | some e =>
      have hne : i ≠ x := by
        rintro rfl
        have hhere : (i + 0) % t.length = i := Nat.mod_eq_of_lt hx
        have := eq_of_add_mod_eq (by omega) (by omega) (hhere.trans hi.symm)
        omega
      have hlength : (t.set x (some e)).length = t.length := List.length_set
      dsimp only
      split
      · have hrest := ih (t := t.set x (some e)) (x := i) (d := 1) (i := (i + 1) % t.length)
          (by rw [hlength]; exact lt_of_slot hslot) (by rw [hlength]) Nat.one_pos (by rw [hlength]; omega)
        have hmove : (((t.set x none).set x (some e)).set i none).Perm (t.set x none) := by
          refine perm_move ?_ (by rw [List.length_set]; exact hx) ?_
          · rw [slot_set hx, if_pos rfl]
          · rw [slot_set hx, if_neg hne, hslot]
        rw [List.set_set] at hmove
        exact hrest.trans hmove
      · refine ih hx ?_ (Nat.succ_pos d) (by omega)
        rw [← hi, Nat.mod_add_mod, Nat.add_assoc]

/-- The table while a gap is closed, seen from the cut: the gap is at `r`, the slots from the removed
entry at `a` on are handled up to `b`, and only a path that ends at `b` or later can run over the gap. -/
structure Gap (home : α → Nat) (t : List (Option α)) (c a r b : Nat) : Prop where
  low : a ≤ r
  high : r < b
  bound : b ≤ t.length
  gap : cell t c r = none
  near : ∀ j, a ≤ j → j < b → j ≠ r → cell t c j ≠ none
  path : ∀ k e, k < t.length → (k + 1 < t.length ∨ k < b) → cell t c k = some e →
    ∃ h ≤ k, (c + h) % t.length = home e ∧ ∀ j, h ≤ j → j < k → cell t c j ≠ none ∨ j = r ∧ b ≤ k
  last : cell t c (t.length - 1) ≠ none → ∀ k < t.length, k ≠ r → cell t c k ≠ none

variable {a b r : Nat}

theorem Chained.gap (ht : Chained home t c) (ha : a < t.length) :
    Gap home (t.set ((c + a) % t.length) none) c a a (a + 1) := by
  have hlength : (t.set ((c + a) % t.length) none).length = t.length := List.length_set
  have hcell : ∀ k < t.length, cell (t.set ((c + a) % t.length) none) c k = if k = a then none else cell t c k :=
    fun k hk => cell_set ha hk none
  refine ⟨Nat.le_refl a, Nat.lt_succ_self a, by omega, by rw [hcell a ha, if_pos rfl], by omega, ?_, ?_⟩
  · intro k e hk hnear he
    rw [hlength] at hk hnear ⊢
    rw [hcell k hk] at he
    split at he
    · cases he
    · rename_i hne
      have hpath : ∃ h ≤ k, (c + h) % t.length = home e ∧ ∀ j, h ≤ j → j < k → cell t c j ≠ none := by
        apply ht.path k e _ he
        omega
      obtain ⟨h, hle, hrank, hpath⟩ := hpath
      refine ⟨h, hle, hrank, fun j hj hlt => ?_⟩
      by_cases hja : j = a
      · exact Or.inr ⟨hja, by omega⟩
      · left
        rw [hcell j (by omega), if_neg hja]
        exact hpath j hj hlt
  · intro hlast k hk hne
    rw [hlength] at hlast hk
    rw [hcell k hk, if_neg hne]
    refine ht.last ?_ k hk
    rw [hcell _ (by omega)] at hlast
    split at hlast
    · exact absurd rfl hlast
    · exact hlast

/-- At the first empty slot, or once the whole circle is handled, no path runs over the gap. -/
theorem Gap.closed (hgap : Gap home t c a r b) (hhome : ∀ e, home e < t.length)
    (hend : b = t.length ∨ cell t c b = none) : ∃ c', Chained home t c' := by
  have hr : r < t.length := Nat.lt_of_lt_of_le hgap.high hgap.bound
  refine ⟨_, chained_of_reach hhome (Nat.mod_lt (c + r) (by omega)) hgap.gap fun i e hi => ?_⟩
  obtain ⟨k, hk, rfl⟩ := exists_rank c (lt_of_slot hi)
  by_cases hb : b = t.length
  · obtain ⟨h, hle, hrank, hpath⟩ := hgap.path k e hk (Or.inr (by omega)) hi
    refine reach_of_rank hk hle hrank fun j hj hlt => ?_
    rcases hpath j hj hlt with hcell | ⟨-, hover⟩
    · exact hcell
    · omega
  · have hempty : cell t c b = none := hend.resolve_left hb
    have hbound := hgap.bound
    have hhigh := hgap.high
    have hkb : k ≠ b := by
      rintro rfl
      rw [cell, hi] at hempty
      cases hempty
    have hlast : k + 1 < t.length := by
      by_contra hover
      have hrank : t.length - 1 = k := by omega
      refine hgap.last ?_ b (by omega) (by omega) hempty
      rw [hrank, cell, hi]
      exact Option.some_ne_none e
    obtain ⟨h, hle, hrank, hpath⟩ := hgap.path k e hk (Or.inl hlast) hi
    refine reach_of_rank hk hle hrank fun j hj hlt => ?_
    rcases hpath j hj hlt with hcell | ⟨hjr, hover⟩
    · exact hcell
    · -- the path would also run over the empty slot
      exfalso
      rcases hpath b (by omega) (by omega) with hcell | ⟨hbr, -⟩
      · exact hcell hempty
      · omega

/-- The entry at `b` has its home after the gap, and stays. -/
theorem Gap.keep (hgap : Gap home t c a r b) (hb : b < t.length) (he : cell t c b = some e)
    (hrank : (c + h) % t.length = home e) (hle : h ≤ b) (hr : r < h) : Gap home t c a r (b + 1) := by
  refine ⟨hgap.low, Nat.lt_succ_of_lt hgap.high, hb, hgap.gap, ?_, ?_, hgap.last⟩
  · intro j hj hlt hne
    by_cases hjb : j = b
    · rw [hjb, he]
      exact Option.some_ne_none e
    · exact hgap.near j hj (by omega) hne
  · intro k e' hk hnear he'
    by_cases hkb : k = b
    · subst k
      rw [he] at he'
      cases he'
      refine ⟨h, hle, hrank, fun j hj hlt => ?_⟩
      left
      by_cases hlast : b + 1 < t.length
      · obtain ⟨h', hle', hrank', hpath⟩ := hgap.path b e hb (Or.inl hlast) he
        have heq : h' = h := eq_of_add_mod_eq (by omega) (by omega) (hrank'.trans hrank.symm)
        subst heq
        exact (hpath j hj hlt).resolve_right (by omega)
      · have hlast : t.length - 1 = b := by omega
        refine hgap.last ?_ j (by omega) (by omega)
        rw [hlast, he]
        exact Option.some_ne_none e
    · have hhigh := hgap.high
      obtain ⟨h', hle', hrank', hpath⟩ := hgap.path k e' hk (by omega) he'
      refine ⟨h', hle', hrank', fun j hj hlt => ?_⟩
      rcases hpath j hj hlt with hcell | ⟨hjr, hover⟩
      · exact Or.inl hcell
      · exact Or.inr ⟨hjr, by omega⟩

/-- The entry at `b` has its home at or before the gap, and moves there. -/
theorem Gap.move (hgap : Gap home t c a r b) (hb : b < t.length) (he : cell t c b = some e)
    (hrank : (c + h) % t.length = home e) (hr : h ≤ r) :
    Gap home ((t.set ((c + r) % t.length) (some e)).set ((c + b) % t.length) none) c a b (b + 1) := by
  have hlow := hgap.low
  have hhigh := hgap.high
  generalize ht' : (t.set ((c + r) % t.length) (some e)).set ((c + b) % t.length) none = t'
  have hlength : t'.length = t.length := by rw [← ht', List.length_set, List.length_set]
  have hcell : ∀ k < t.length, cell t' c k = if k = b then none else if k = r then some e else cell t c k := by
    intro k hk
    have hset : (t.set ((c + r) % t.length) (some e)).length = t.length := List.length_set
    have hfirst := cell_set (t := t.set ((c + r) % t.length) (some e)) (c := c) (j := b) (k := k)
      (by omega) (by omega) none
    rw [hset, ht'] at hfirst
    rw [hfirst, cell_set (by omega) hk]
  have hkept : ∀ k < t.length, k ≠ b → cell t c k ≠ none → cell t' c k ≠ none := by
    intro k hk hne hocc
    rw [hcell k hk, if_neg hne]
    split
    · exact Option.some_ne_none e
    · exact hocc
  have hfilled : cell t' c r ≠ none := by
    rw [hcell r (by omega), if_neg (by omega), if_pos rfl]
    exact Option.some_ne_none e
  refine ⟨by omega, Nat.lt_succ_self b, by omega, by rw [hcell b hb, if_pos rfl], ?_, ?_, ?_⟩
  · intro j hj hlt hne
    by_cases hjr : j = r
    · rwa [hjr]
    · exact hkept j (by omega) hne (hgap.near j hj (by omega) hjr)
  · intro k e' hk hnear he'
    rw [hlength] at hk hnear ⊢
    rw [hcell k hk] at he'
    split at he'
    · cases he'
    rename_i hkb
    split at he'
    · -- the entry that moved
      rename_i hkr
      subst k
      cases he'
      refine ⟨h, hr, hrank, fun j hj hlt => ?_⟩
      left
      apply hkept j (by omega) (by omega)
      by_cases hlast : b + 1 < t.length
      · obtain ⟨h', hle', hrank', hpath⟩ := hgap.path b e hb (Or.inl hlast) he
        have heq : h' = h := eq_of_add_mod_eq (by omega) (by omega) (hrank'.trans hrank.symm)
        subst heq
        exact (hpath j hj (by omega)).resolve_right (by omega)
      · have hlast : t.length - 1 = b := by omega
        refine hgap.last ?_ j (by omega) (by omega)
        rw [hlast, he]
        exact Option.some_ne_none e
    · rename_i hkr
      obtain ⟨h', hle', hrank', hpath⟩ := hgap.path k e' hk (by omega) he'
      refine ⟨h', hle', hrank', fun j hj hlt => ?_⟩
      by_cases hjb : j = b
      · exact Or.inr ⟨hjb, by omega⟩
      · left
        rcases hpath j hj hlt with hocc | ⟨rfl, -⟩
        · exact hkept j (by omega) hjb hocc
        · exact hfilled
  · intro hlast k hk hne
    rw [hlength] at hlast hk
    rw [hcell _ (by omega)] at hlast
    split at hlast
    · exact absurd rfl hlast
    rename_i hne'
    by_cases hkr : k = r
    · rwa [hkr]
    · refine hkept k hk hne (hgap.last ?_ k hk hkr)
      rw [if_neg] at hlast
      · exact hlast
      · omega

/-- When as many slots are handled as there are entries, the next one is empty. -/
theorem Gap.exhausted (hgap : Gap home t c a r b) (hcount : t.countP (Option.any fun _ => true) + a + 1 ≤ b) :
    b = t.length ∨ cell t c b = none := by
  by_contra hmore
  push Not at hmore
  obtain ⟨hb, hocc⟩ := hmore
  have hlow := hgap.low
  have hhigh := hgap.high
  have hbound := hgap.bound
  have hmem : ∀ k ∈ (List.range' a (b + 1 - a)).erase r, a ≤ k ∧ k ≤ b ∧ k ≠ r := by
    intro k hk
    rw [List.Nodup.mem_erase_iff List.nodup_range', List.mem_range'_1] at hk
    omega
  have hlength : ((List.range' a (b + 1 - a)).erase r).length = b - a := by
    rw [List.length_erase_of_mem (by rw [List.mem_range'_1]; omega), List.length_range']
    omega
  have hle : (((List.range' a (b + 1 - a)).erase r).map fun k => (c + k) % t.length).length ≤
      t.countP (Option.any fun _ => true) := by
    apply length_le_countP
    · refine List.Nodup.map_on ?_ (List.Nodup.erase r List.nodup_range')
      intro j hj k hk heq
      have := hmem j hj
      have := hmem k hk
      exact eq_of_add_mod_eq (by omega) (by omega) heq
    · intro i hi
      obtain ⟨k, hk, rfl⟩ := List.mem_map.mp hi
      have hbetween := hmem k hk
      have hcell : cell t c k ≠ none := by
        by_cases hkb : k = b
        · rwa [hkb]
        · exact hgap.near k (by omega) (by omega) (by omega)
      obtain ⟨e, he⟩ := Option.ne_none_iff_exists'.mp hcell
      exact ⟨e, he, rfl⟩
  rw [List.length_map, hlength] at hle
  omega

/-- Once the whole circle is handled, nothing is left to move. -/
theorem closeGap_idle (hhome : ∀ e, home e < t.length)
    (hgap : Gap home (t.set ((c + r) % t.length) none) c a r t.length) (hi : i < t.length) :
    closeGap home n i ((c + r) % t.length) t = t.set ((c + r) % t.length) none := by
  have hhigh := hgap.high
  have hlength : (t.set ((c + r) % t.length) none).length = t.length := List.length_set
  induction n generalizing i with
  | zero => rfl
  | succ n ih =>
    obtain ⟨k, hk, rfl⟩ := exists_rank c hi
    rw [closeGap]
    split
    · rfl
    · rename_i e he
      obtain ⟨h, hh, hrank⟩ := exists_rank c (hhome e)
      have hstay : ¬ ((c + k) % t.length + t.length - home e) % t.length >
          ((c + r) % t.length + t.length - home e) % t.length := by
        by_cases hkr : k = r
        · rw [hkr]
          omega
        · have hcell : cell (t.set ((c + r) % t.length) none) c k = some e := by
            rw [cell_set hhigh hk, if_neg hkr]
            exact he
          obtain ⟨h', hle, hrank', hpath⟩ := hgap.path k e (by omega) (Or.inr hk) hcell
          rw [hlength] at hrank'
          have heq : h' = h := eq_of_add_mod_eq (by omega) hh (hrank'.trans hrank.symm)
          subst heq
          rw [← hrank, distance_rank hle hk]
          by_cases hr : h' ≤ r
          · rw [distance_rank hr hhigh]
            by_cases hover : r < k
            · rcases hpath r hr hover with hocc | ⟨-, hover⟩
              · exact absurd hgap.gap hocc
              · omega
            · omega
          · rw [distance_rank_wrap (by omega) hh]
            omega
      rw [if_neg hstay]
      exact ih (Nat.mod_lt _ (by omega))

/-- Closing the gap keeps the entries, and leaves a chained table. -/
theorem closeGap_spec (hhome : ∀ e, home e < t.length) (hgap : Gap home (t.set ((c + r) % t.length) none) c a r b)
    (hcount : (t.set ((c + r) % t.length) none).countP (Option.any fun _ => true) + a + 1 ≤ n + b) :
    (∃ c', Chained home (closeGap home n ((c + b) % t.length) ((c + r) % t.length) t) c') ∧
      (closeGap home n ((c + b) % t.length) ((c + r) % t.length) t).Perm (t.set ((c + r) % t.length) none) := by
  induction n generalizing b r t with
  | zero =>
    have hend := hgap.exhausted (by omega)
    exact ⟨hgap.closed (by simpa using hhome) hend, .refl _⟩
  | succ n ih =>
    have hlength : (t.set ((c + r) % t.length) none).length = t.length := List.length_set
    have hlow := hgap.low
    have hhigh := hgap.high
    have hbound := hgap.bound
    rw [hlength] at hbound
    have hhome' : ∀ e, home e < (t.set ((c + r) % t.length) none).length := by rwa [hlength]
    by_cases hb : b = t.length
    · subst hb
      rw [closeGap_idle hhome hgap (Nat.mod_lt _ (by omega))]
      exact ⟨hgap.closed hhome' (Or.inl hlength.symm), .refl _⟩
    · have hcell : cell (t.set ((c + r) % t.length) none) c b = slot t ((c + b) % t.length) := by
        rw [cell_set (by omega) (by omega), if_neg (by omega)]
        rfl
      have hnext : ((c + b) % t.length + 1) % t.length = (c + (b + 1)) % t.length := by
        rw [Nat.mod_add_mod, Nat.add_assoc]
      rw [closeGap]
      split
      · rename_i hempty
        rw [hempty] at hcell
        exact ⟨hgap.closed hhome' (Or.inr hcell), .refl _⟩
      · rename_i e he
        rw [he] at hcell
        obtain ⟨h, hh, hrank⟩ := exists_rank c (hhome e)
        have hle : h ≤ b := by
          by_cases hlast : b + 1 < t.length
          · obtain ⟨h', hle', hrank', -⟩ := hgap.path b e (by omega) (by omega) hcell
            rw [hlength] at hrank'
            have heq : h' = h := eq_of_add_mod_eq (by omega) hh (hrank'.trans hrank.symm)
            omega
          · omega
        rw [← hrank, distance_rank hle (by omega), hnext]
        by_cases hr : h ≤ r
        · -- the gap is on the path of the entry
          have hmove := hgap.move (h := h) (by omega) hcell (by rw [hlength]; exact hrank) hr
          rw [hlength, List.set_set] at hmove
          have hperm := perm_move (t := t.set ((c + r) % t.length) none) hgap.gap
            (by rw [hlength]; exact Nat.mod_lt _ (by omega)) (by rw [cell, hlength] at hcell; exact hcell)
          rw [hlength, List.set_set] at hperm
          have hsame : (t.set ((c + r) % t.length) (some e)).length = t.length := List.length_set
          rw [distance_rank hr (by omega), if_pos (by omega)]
          have hrec := ih (t := t.set ((c + r) % t.length) (some e)) (r := b) (b := b + 1) (by rwa [hsame])
            (by rwa [hsame]) (by rw [hsame, hperm.countP_eq]; omega)
          rw [hsame] at hrec
          exact ⟨hrec.1, hrec.2.trans hperm⟩
        · rw [distance_rank_wrap (by omega) hh, if_neg (by omega)]
          have hkeep := hgap.keep (h := h) (by omega) hcell (by rw [hlength]; exact hrank) hle (by omega)
          exact ih hhome hkeep (by omega)

/-- The removal of an entry: the others stay, and are reached from their homes. -/
theorem Chained.remove (ht : Chained home t c) (hhome : ∀ e, home e < t.length) (hi : slot t i = some e)
    (hcount : t.countP (Option.any fun _ => true) ≤ n + 1) :
    (∃ c', Chained home (closeGap home n ((i + 1) % t.length) i t) c') ∧
      (closeGap home n ((i + 1) % t.length) i t).Perm (t.set i none) := by
  obtain ⟨a, ha, rfl⟩ := exists_rank c (lt_of_slot hi)
  have hless : (t.set ((c + a) % t.length) none).countP (Option.any fun _ => true) ≤ n := by
    rw [List.countP_set (lt_of_slot hi), (List.getElem?_eq_some_iff.mp (slot_eq_some.mp hi)).2]
    rw [Option.any_some, if_pos rfl, Option.any_none, if_neg Bool.false_ne_true]
    omega
  have hspec := closeGap_spec hhome (ht.gap ha) (n := n) (by omega)
  rwa [← Nat.add_assoc, ← Nat.mod_add_mod] at hspec

/-! ### Entries that are replaced in their slots -/

end ManagedObject.Linear
