import Mathlib.Data.Nat.ModEq
import Mathlib.Data.Nat.Prime.Basic
import Mathlib.Data.Fintype.EquivFin
import Mathlib.Data.List.Nodup

/-!
# Odd-step probing in a power-of-two table

The probe sequence of double hashing, `home, home + step, home + 2 * step, …` modulo `2 ^ e`.
With an odd step it visits every slot once before it returns to its start, which is all an
open-addressing table needs of it. `search` is the lookup every such table performs on the
sequence: the first slot that ends the chain, or else the first reusable one.
-/

namespace ManagedObject.Probe

/-- The slot visited after `j` steps. -/
def slot (e home step j : Nat) : Nat := (home + j * step) % 2 ^ e

/-- The slots in the order they are probed. -/
def sequence (e home step : Nat) : List Nat := (List.range (2 ^ e)).map (slot e home step)

variable {e home step : Nat}

theorem slot_lt (j : Nat) : slot e home step j < 2 ^ e := Nat.mod_lt _ (Nat.two_pow_pos e)

theorem slot_zero (hhome : home < 2 ^ e) : slot e home step 0 = home := by
  rw [slot, Nat.zero_mul, Nat.add_zero, Nat.mod_eq_of_lt hhome]

theorem slot_succ (j : Nat) : slot e home step (j + 1) = (slot e home step j + step) % 2 ^ e := by
  rw [slot, slot, Nat.mod_add_mod, Nat.succ_mul, Nat.add_assoc]

theorem slot_period : slot e home step (2 ^ e) = slot e home step 0 := by
  rw [slot, slot, Nat.zero_mul, Nat.add_zero, Nat.add_mul_mod_self_left]

theorem slot_injective (hstep : step % 2 = 1) {i j : Nat} (hi : i < 2 ^ e) (hj : j < 2 ^ e)
    (h : slot e home step i = slot e home step j) : i = j := by
  have hcoprime : Nat.gcd (2 ^ e) step = 1 := by
    apply Nat.Coprime.pow_left
    rw [Nat.coprime_two_left, Nat.odd_iff]
    exact hstep
  have hmul : i * step ≡ j * step [MOD 2 ^ e] := Nat.ModEq.add_left_cancel' home h
  have hmod : i ≡ j [MOD 2 ^ e] := Nat.ModEq.cancel_right_of_coprime hcoprime hmul
  rwa [Nat.ModEq, Nat.mod_eq_of_lt hi, Nat.mod_eq_of_lt hj] at hmod

/-- The walk is back at its start after `2 ^ e` steps and not before. -/
theorem slot_eq_home_iff (hstep : step % 2 = 1) (hhome : home < 2 ^ e) {j : Nat}
    (hpos : 0 < j) (hj : j ≤ 2 ^ e) : slot e home step j = home ↔ j = 2 ^ e := by
  constructor
  · intro h
    by_contra hne
    have hzero : slot e home step j = slot e home step 0 := by rw [h, slot_zero hhome]
    have := slot_injective hstep (by omega) (Nat.two_pow_pos e) hzero
    omega
  · rintro rfl
    rw [slot_period, slot_zero hhome]

theorem length_sequence : (sequence e home step).length = 2 ^ e := by
  rw [sequence, List.length_map, List.length_range]

theorem nodup_sequence (hstep : step % 2 = 1) : (sequence e home step).Nodup := by
  refine List.Nodup.map_on ?_ List.nodup_range
  intro i hi j hj h
  exact slot_injective hstep (List.mem_range.mp hi) (List.mem_range.mp hj) h

/-- Every slot lies on the probe sequence. -/
theorem mem_sequence (hstep : step % 2 = 1) {i : Nat} (hi : i < 2 ^ e) :
    i ∈ sequence e home step := by
  let walk : Fin (2 ^ e) → Fin (2 ^ e) := fun j => ⟨slot e home step j, slot_lt j⟩
  have hinj : Function.Injective walk := by
    intro a b h
    exact Fin.ext (slot_injective hstep a.isLt b.isLt (congrArg Fin.val h))
  obtain ⟨j, hj⟩ := Finite.injective_iff_surjective.mp hinj ⟨i, hi⟩
  exact List.mem_map.mpr ⟨j, List.mem_range.mpr j.isLt, congrArg Fin.val hj⟩

theorem perm_sequence (hstep : step % 2 = 1) : (sequence e home step).Perm (List.range (2 ^ e)) := by
  rw [List.perm_ext_iff_of_nodup (nodup_sequence hstep) List.nodup_range]
  intro i
  rw [List.mem_range]
  constructor
  · intro hi
    obtain ⟨j, -, rfl⟩ := List.mem_map.mp hi
    exact slot_lt j
  · exact mem_sequence hstep

theorem take_sequence_succ {j : Nat} (hj : j < 2 ^ e) :
    (sequence e home step).take (j + 1) = (sequence e home step).take j ++ [slot e home step j] := by
  rw [List.take_succ_eq_append_getElem (by rwa [length_sequence])]
  simp [sequence]

/-! ### Searching along a sequence -/

/-- The lookup of open addressing: the first slot that is free or matches, or else the first
reusable one. -/
def search (free hit reusable : Nat → Bool) (seq : List Nat) : Option Nat :=
  (seq.find? fun i => free i || hit i).or (seq.find? reusable)

/-- A slot that a walk along the sequence reaches without meeting a free slot. -/
def OnPath (free : Nat → Bool) (seq : List Nat) (i : Nat) : Prop :=
  ∃ before after, seq = before ++ i :: after ∧ ∀ j ∈ before, free j = false

variable {free hit reusable free' : Nat → Bool} {seq before after : List Nat} {i : Nat}

theorem OnPath.mem (h : OnPath free seq i) : i ∈ seq := by
  obtain ⟨before, after, rfl, -⟩ := h
  simp

/-- Filling slots never breaks a path. -/
theorem OnPath.mono (h : OnPath free seq i) (hfree : ∀ j, free j = false → free' j = false) :
    OnPath free' seq i := by
  obtain ⟨before, after, hseq, hbefore⟩ := h
  exact ⟨before, after, hseq, fun j hj => hfree j (hbefore j hj)⟩

/-- The search ends at the first slot that is free or matches. -/
theorem search_of_first (hseq : seq = before ++ i :: after)
    (hbefore : ∀ j ∈ before, free j = false ∧ hit j = false) (hi : free i = true ∨ hit i = true) :
    search free hit reusable seq = some i := by
  have hfind : seq.find? (fun j => free j || hit j) = some i := by
    rw [List.find?_eq_some_iff_append]
    exact ⟨by simpa using hi, before, after, hseq, fun j hj => by simp [hbefore j hj]⟩
  rw [search, hfind, Option.some_or]

/-- Where no slot is free or matches, the search takes the first reusable one. -/
theorem search_of_quiet (hquiet : ∀ j ∈ seq, free j = false ∧ hit j = false) :
    search free hit reusable seq = seq.find? reusable := by
  have hfind : seq.find? (fun j => free j || hit j) = none := by
    rw [List.find?_eq_none]
    intro j hj
    simp [hquiet j hj]
  rw [search, hfind, Option.none_or]

/-- A matching slot on the path is the one found, when it is the only match. -/
theorem search_of_onPath (hnodup : seq.Nodup) (hpath : OnPath free seq i) (hi : hit i = true)
    (hunique : ∀ j ∈ seq, hit j = true → j = i) : search free hit reusable seq = some i := by
  obtain ⟨before, after, rfl, hbefore⟩ := hpath
  refine search_of_first rfl (fun j hj => ⟨hbefore j hj, ?_⟩) (.inr hi)
  have hne : j ≠ i := by
    rintro rfl
    exact (List.nodup_append.mp hnodup).2.2 j hj j (List.mem_cons_self ..) rfl
  cases h : hit j with
  | false => rfl
  | true => exact absurd (hunique j (by simp [hj]) h) hne

/-- What the search reports: a slot on the path that is free, matches, or is reusable while
nothing on the whole sequence matches. -/
theorem search_eq_some (h : search free hit reusable seq = some i) :
    OnPath free seq i ∧ (free i = true ∨ hit i = true ∨
      reusable i = true ∧ ∀ j ∈ seq, free j = false ∧ hit j = false) := by
  rw [search, Option.or_eq_some_iff] at h
  rcases h with h | ⟨hnone, h⟩
  · obtain ⟨hi, before, after, hseq, hbefore⟩ := List.find?_eq_some_iff_append.mp h
    refine ⟨⟨before, after, hseq, fun j hj => ?_⟩, ?_⟩
    · have := hbefore j hj
      simp only [Bool.not_eq_eq_eq_not, Bool.not_true, Bool.or_eq_false_iff] at this
      exact this.1
    · rw [Bool.or_eq_true] at hi
      exact hi.imp_right Or.inl
  · obtain ⟨hi, before, after, hseq, -⟩ := List.find?_eq_some_iff_append.mp h
    have hquiet : ∀ j ∈ seq, free j = false ∧ hit j = false := by
      intro j hj
      simpa using List.find?_eq_none.mp hnone j hj
    refine ⟨⟨before, after, hseq, fun j hj => (hquiet j (by simp [hseq, hj])).1⟩, ?_⟩
    exact Or.inr (Or.inr ⟨hi, hquiet⟩)

theorem search_eq_none_iff : search free hit reusable seq = none ↔
    ∀ j ∈ seq, free j = false ∧ hit j = false ∧ reusable j = false := by
  constructor
  · intro h
    rw [search, Option.or_eq_none_iff, List.find?_eq_none, List.find?_eq_none] at h
    intro j hj
    have hquiet := h.1 j hj
    have hkeep := h.2 j hj
    simp_all
  · intro h
    rw [search_of_quiet fun j hj => ⟨(h j hj).1, (h j hj).2.1⟩, List.find?_eq_none]
    intro j hj
    simp [(h j hj).2.2]

end ManagedObject.Probe
