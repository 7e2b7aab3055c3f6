import ManagedObject.Lib.Linear

/-!
# How far entries are from home

A search in a table of linear probing ends within one round of the circle where a slot is empty. An entry
lies as many slots after its home as a search for it passes.
-/

namespace ManagedObject.Linear

variable {α : Type} {home : α → Nat} {t : List (Option α)} {c d i j k n s x z : Nat} {e : α}

/-! ### Searches that end -/

variable {hit : α → Bool}

theorem walk_of_empty (hs : s < t.length) (hd : d < n) (hempty : slot t ((s + d) % t.length) = none) :
    ∃ i, walk hit t n s = some i := by
  induction n generalizing s d with
  | zero => omega
  | succ n ih =>
    rw [walk]
    split
    · exact ⟨s, rfl⟩
    · rename_i e he
      split
      · exact ⟨s, rfl⟩
      · cases d with
        | zero =>
          rw [Nat.add_zero, Nat.mod_eq_of_lt hs, he] at hempty
          cases hempty
        | succ d =>
          refine ih (d := d) (Nat.mod_lt _ (by omega)) (by omega) ?_
          rwa [Nat.mod_add_mod, Nat.add_assoc, Nat.add_comm 1 d]

/-- A search over the whole circle ends where a slot is empty. -/
theorem exists_walk (hit : α → Bool) (hs : s < t.length) (hz : z < t.length) (hempty : slot t z = none) :
    ∃ i, walk hit t t.length s = some i := by
  obtain ⟨d, hd, rfl⟩ := exists_rank s hz
  exact walk_of_empty hs hd hempty

/-- A search that does not end has passed entries that are no match. -/
theorem walk_eq_none (hs : s < t.length) (hwalk : walk hit t n s = none) :
    ∀ j < n, ∃ e, slot t ((s + j) % t.length) = some e ∧ hit e = false := by
  induction n generalizing s with
  | zero => exact fun j hj => absurd hj (Nat.not_lt_zero j)
  | succ n ih =>
    rw [walk] at hwalk
    split at hwalk
    · cases hwalk
    · rename_i e he
      split at hwalk
      · cases hwalk
      · rename_i hmiss
        intro j hj
        cases j with
        | zero =>
          rw [Nat.add_zero, Nat.mod_eq_of_lt hs]
          exact ⟨e, he, Bool.eq_false_iff.mpr hmiss⟩
        | succ j =>
          have hrest := ih (Nat.mod_lt _ (by omega)) hwalk j (by omega)
          rwa [Nat.mod_add_mod, Nat.add_assoc, Nat.add_comm 1 j] at hrest

/-! ### Moves -/

/-- Where the entry of slot `j` goes while the gap at `i` is closed: to a slot before, without passing the gap
or its home, or over the end of the table to a slot from the gap on, which it had been pushed out of. -/
def Moved (home : α → Nat) (i j j' : Nat) (e : α) : Prop :=
  j' < j ∧ (home e ≤ j → home e ≤ j') ∧ (i < j → i ≤ j') ∨ j < i ∧ i ≤ j' ∧ j < home e ∧ home e ≤ j'

/-- One move, from slot `j` into the gap that is at `r` then. -/
theorem moved_of_closer {m r dr : Nat} (hhome : home e < m) (hi : i < m) (hd : d < m) (hdr : dr < d)
    (hr : (i + dr) % m = r) (hj : (i + d) % m = j) (hcloser : (j + m - home e) % m > (r + m - home e) % m) :
    Moved home i j r e := by
  have hmod : ∀ x < m, (x + m - home e) % m = if home e ≤ x then x - home e else x + m - home e := by
    intro x hx
    split
    · have hsum : x + m - home e = x - home e + m := by omega
      rw [hsum, Nat.add_mod_right, Nat.mod_eq_of_lt (by omega)]
    · rw [Nat.mod_eq_of_lt (by omega)]
  have hwrap : ∀ x < m, (i + x) % m = if i + x < m then i + x else i + x - m := by
    intro x hx
    split
    · rw [Nat.mod_eq_of_lt (by assumption)]
    · rw [Nat.mod_eq_sub_mod (by omega), Nat.mod_eq_of_lt (by omega)]
  rw [hwrap _ (by omega)] at hr hj
  rw [hmod _ (by split at hj <;> omega), hmod _ (by split at hr <;> omega)] at hcloser
  rw [Moved]
  split at hr <;> split at hj <;> split at hcloser <;> split at hcloser <;> omega

/-- A pass over the slots comes to an entry that moves as often as to one that stays, and once more where the
entry moves back over the end of the table. -/
theorem count_of_source {P : Prop} [Decidable P] (hj : j ≠ i) (hsource : j = k ∨ Moved home i j k e)
    (hP : j < home e → P) : (k < home e → P) ∧
      (if j < i then 1 else 0) + (if P ∧ ¬ j < home e then 1 else 0) =
        (if k < i then 1 else 0) + if P ∧ ¬ k < home e then 1 else 0 := by
  rcases hsource with rfl | ⟨hlt, hhome, hi⟩ | ⟨hlt, hle, hbefore, hafter⟩
  · exact ⟨hP, rfl⟩
  · have hsame : j < i ↔ k < i := by omega
    have hwraps : j < home e ↔ k < home e := by omega
    refine ⟨fun hwrapped => hP (hwraps.mpr hwrapped), ?_⟩
    rw [if_congr hsame rfl rfl, if_congr (and_congr_right' (not_congr hwraps)) rfl rfl]
  · have hfirst : ¬ k < i := by omega
    have hback : ¬ k < home e := by omega
    have hstays : ¬ (P ∧ ¬ j < home e) := fun hand => hand.2 hbefore
    rw [if_pos hlt, if_neg hfirst, if_neg hstays, if_pos ⟨hP hbefore, hback⟩]
    exact ⟨fun hwraps => absurd hwraps hback, rfl⟩

theorem slot_cleared {r : Nat} (hr : r < t.length) (hslot : slot (t.set r none) j = some e) :
    slot t j = some e ∧ j ≠ r := by
  rw [slot_set hr] at hslot
  split at hslot
  · cases hslot
  · rename_i hne
    exact ⟨hslot, hne⟩

/-- The entries after the gap is closed come from where they are, or from a slot that they were moved from. -/
theorem closeGap_source {r dr j' : Nat} (hhome : ∀ e, home e < t.length) (hi : i < t.length) (hdr : dr < d)
    (hr : (i + dr) % t.length = r) (hx : (i + d) % t.length = x) (hn : d + n ≤ t.length)
    (hslot : slot (closeGap home n x r t) j' = some e) :
    ∃ j, slot t j = some e ∧ j ≠ r ∧ (j = j' ∨ Moved home i j j' e ∧ ∃ k, d ≤ k ∧ k < t.length ∧ (i + k) % t.length = j) := by
  induction n generalizing t x r d dr with
  | zero =>
    obtain ⟨hj, hne⟩ := slot_cleared (hr ▸ Nat.mod_lt _ (by omega)) hslot
    exact ⟨j', hj, hne, .inl rfl⟩
  | succ n ih =>
    have hrlt : r < t.length := hr ▸ Nat.mod_lt _ (by omega)
    have hxlt : x < t.length := hx ▸ Nat.mod_lt _ (by omega)
    have hnext : (i + (d + 1)) % t.length = (x + 1) % t.length := by rw [← hx, Nat.mod_add_mod, Nat.add_assoc]
    rw [closeGap] at hslot
    split at hslot
    · obtain ⟨hj, hne⟩ := slot_cleared hrlt hslot
      exact ⟨j', hj, hne, .inl rfl⟩
    rename_i e' he'
    split at hslot
    · rename_i hcloser
      have hlength : (t.set r (some e')).length = t.length := List.length_set
      obtain ⟨j, hj, hne, hsource⟩ := ih (t := t.set r (some e')) (d := d + 1) (by rwa [hlength]) (by rwa [hlength])
        (Nat.lt_succ_self d) (by rwa [hlength]) (by rwa [hlength]) (by rw [hlength]; omega) hslot
      rw [hlength] at hsource
      rw [slot_set hrlt] at hj
      split at hj
      · -- the entry that moved into the gap is not moved again
        rename_i hjr
        cases hj
        refine ⟨x, he', fun heq => ?_, .inr ?_⟩
        · have := eq_of_add_mod_eq (by omega) (by omega) ((hx.trans heq).trans hr.symm)
          omega
        · rcases hsource with rfl | ⟨-, k, hk, hklt, heq⟩
          · rw [hjr]
            exact ⟨moved_of_closer (hhome _) hi (by omega) hdr hr hx hcloser, d, Nat.le_refl d, by omega, hx⟩
          · have := eq_of_add_mod_eq (by omega) hklt ((hr.trans hjr.symm).trans heq.symm)
            omega
      · rename_i hjr
        refine ⟨j, hj, hjr, hsource.imp_right fun hmoved => ?_⟩
        obtain ⟨hmoved, k, hk, hklt, heq⟩ := hmoved
        exact ⟨hmoved, k, by omega, hklt, heq⟩
    · obtain ⟨j, hj, hne, hsource⟩ := ih hhome hi (Nat.lt_succ_of_lt hdr) hr hnext (by omega) hslot
      refine ⟨j, hj, hne, hsource.imp_right fun hmoved => ?_⟩
      obtain ⟨hmoved, k, hk, hklt, heq⟩ := hmoved
      exact ⟨hmoved, k, by omega, hklt, heq⟩

end ManagedObject.Linear
