import Mathlib.Algebra.BigOperators.Group.Finset.Sigma
import Mathlib.Algebra.BigOperators.Intervals
import Mathlib.Algebra.Order.BigOperators.Group.Finset
import ManagedObject.Lib.Linear

/-!
# Entries that are pushed over a slot

An entry of a table of linear probing is pushed over the slots from its home to the slot that it is in. Along
the circle, the number of entries that are pushed over a slot grows by the entries that have their home there,
and one of them stays if there is any. Where some slot has none pushed over it, this has only one solution. So
the homes alone, whatever the order in which the entries came, say which slots are occupied and how far the
entries are from their homes altogether.
-/

open Finset

namespace ManagedObject.Linear

variable {α β : Type} {home : α → Nat} {home' : β → Nat} {t : List (Option α)} {t' : List (Option β)}
  {c c' d h i m x y z : Nat} {e : α}

/-! ### Distances -/

/-- How many slots `x` is after `h`, in a circle of `m` slots. -/
def distance (m h x : Nat) : Nat := (x + m - h) % m

theorem distance_lt (hm : 0 < m) : distance m h x < m := Nat.mod_lt _ hm

theorem add_distance (hh : h < m) (hx : x < m) : (h + distance m h x) % m = x := by
  have hsum : h + (x + m - h) = x + m := by omega
  rw [distance, Nat.add_mod_mod, hsum, Nat.add_mod_right, Nat.mod_eq_of_lt hx]

theorem distance_add (hh : h < m) (hd : d < m) : distance m h ((h + d) % m) = d := distance_eq hh hd rfl

theorem distance_self (m h : Nat) : distance m h h = 0 := by
  rw [distance, Nat.add_sub_cancel_left, Nat.mod_self]

theorem distance_eq_zero (hh : h < m) (hx : x < m) : distance m h x = 0 ↔ h = x := by
  constructor
  · intro hzero
    have hadd := add_distance hh hx
    rwa [hzero, Nat.add_zero, Nat.mod_eq_of_lt hh] at hadd
  · rintro rfl
    exact distance_self m h

theorem distance_inj (hh : h < m) (hx : x < m) (hy : y < m) (heq : distance m h x = distance m h y) : x = y := by
  rw [← add_distance hh hx, heq, add_distance hh hy]

theorem distance_succ (hh : h < m) (hx : x < m) :
    distance m h ((x + 1) % m) = (distance m h x + 1) % m := by
  have hm : 0 < m := Nat.zero_lt_of_lt hx
  have hnext : (h + (distance m h x + 1) % m) % m = (x + 1) % m := by
    rw [Nat.add_mod_mod, ← Nat.add_assoc, ← Nat.mod_add_mod, add_distance hh hx]
  rw [← hnext, distance_add hh (Nat.mod_lt _ hm)]

/-- An entry at distance `d` from its home is pushed over `d` slots. -/
theorem sum_distance_lt (hh : h < m) (hd : d < m) :
    ∑ x ∈ range m, (if distance m h x < d then 1 else 0) = d := by
  calc ∑ x ∈ range m, (if distance m h x < d then 1 else 0)
      _ = ∑ r ∈ range m, (if r < d then 1 else 0) := by
        refine sum_nbij' (distance m h) (fun r => (h + r) % m) (fun x _ => ?_) (fun r _ => ?_) (fun x hx => ?_)
          (fun r hr => ?_) fun x _ => rfl
        · exact mem_range.mpr (distance_lt (by omega))
        · exact mem_range.mpr (Nat.mod_lt _ (by omega))
        · exact add_distance hh (mem_range.mp hx)
        · exact distance_add hh (mem_range.mp hr)
      _ = ∑ r ∈ range d, 1 := by
        rw [← sum_filter]
        refine sum_congr ?_ fun _ _ => rfl
        ext r
        rw [mem_filter, mem_range, mem_range]
        omega
      _ = d := by rw [sum_const, card_range, Nat.nsmul_eq_mul, Nat.mul_one]

/-! ### Sums over the entries -/

/-- The sum of `g i e` over the slots `i` with an entry `e`. -/
def slotSum (t : List (Option α)) (g : Nat → α → Nat) : Nat := ∑ i ∈ range t.length, (slot t i).elim 0 (g i)

theorem slotSum_congr {g g' : Nat → α → Nat} (h : ∀ i e, slot t i = some e → g i e = g' i e) :
    slotSum t g = slotSum t g' := by
  refine sum_congr rfl fun i _ => ?_
  cases hslot : slot t i with
  | none => rfl
  | some e => exact h i e hslot

theorem slotSum_add (g g' : Nat → α → Nat) :
    slotSum t (fun i e => g i e + g' i e) = slotSum t g + slotSum t g' := by
  rw [slotSum, slotSum, slotSum, ← sum_add_distrib]
  refine sum_congr rfl fun i _ => ?_
  cases slot t i with
  | none => rfl
  | some e => rfl

theorem sum_slotSum (g : Nat → Nat → α → Nat) :
    ∑ x ∈ range m, slotSum t (g x) = slotSum t fun i e => ∑ x ∈ range m, g x i e := by
  rw [show ∑ x ∈ range m, slotSum t (g x) = ∑ x ∈ range m, ∑ i ∈ range t.length, (slot t i).elim 0 (g x i) from rfl,
    sum_comm]
  refine sum_congr rfl fun i _ => ?_
  cases slot t i with
  | none => exact sum_const_zero
  | some e => rfl

theorem slotSum_eq_zero {g : Nat → α → Nat} (h : ∀ i e, slot t i = some e → g i e = 0) : slotSum t g = 0 := by
  calc slotSum t g
      _ = slotSum t fun _ _ => 0 := slotSum_congr h
      _ = 0 := ?_
  refine sum_eq_zero fun i _ => ?_
  cases slot t i with
  | none => rfl
  | some e => rfl

/-- A sum that does not look at the slots is one over the list of the entries. -/
theorem slotSum_eq_sum (g : α → Nat) : slotSum t (fun _ => g) = ((t.filterMap id).map g).sum := by
  have hlist : slotSum t (fun _ => g) = (t.map fun entry => entry.elim 0 g).sum := by
    conv_rhs => rw [← map_slot_range t, List.map_map]
    rfl
  rw [hlist]
  clear hlist
  induction t with
  | nil => rfl
  | cons entry t ih =>
    rw [List.map_cons, List.sum_cons, ih]
    cases entry with
    | none => exact Nat.zero_add _
    | some e => rfl

/-! ### The entries that are pushed over a slot -/

/-- How many entries have their home at slot `y`. -/
def settlers (home : α → Nat) (t : List (Option α)) (y : Nat) : Nat :=
  slotSum t fun _ e => if home e = y then 1 else 0

/-- How many entries are pushed over slot `x`. -/
def passing (home : α → Nat) (t : List (Option α)) (x : Nat) : Nat :=
  slotSum t fun i e => if distance t.length (home e) x < distance t.length (home e) i then 1 else 0

/-- How far the entries are from their homes altogether. -/
def displacement (home : α → Nat) (t : List (Option α)) : Nat :=
  slotSum t fun i e => distance t.length (home e) i

theorem displacement_eq_sum (hhome : ∀ e, home e < t.length) :
    displacement home t = ∑ x ∈ range t.length, passing home t x := by
  rw [show ∑ x ∈ range t.length, passing home t x = _ from sum_slotSum _]
  refine slotSum_congr fun i e hi => ?_
  exact (sum_distance_lt (hhome e) (distance_lt (Nat.zero_lt_of_lt (hhome e)))).symm

theorem displacement_le : displacement home t ≤ t.length * t.length := by
  have hle := sum_le_card_nsmul (range t.length)
    (fun i => (slot t i).elim 0 fun e => distance t.length (home e) i) t.length fun i hi => ?_
  · rwa [card_range, Nat.nsmul_eq_mul] at hle
  · cases slot t i with
    | none => exact Nat.zero_le _
    | some e => exact Nat.le_of_lt (distance_lt (Nat.zero_lt_of_lt (mem_range.mp hi)))

theorem occupied_eq (hy : y < t.length) :
    slotSum t (fun i _ => if i = y then 1 else 0) = if (slot t y).isSome then 1 else 0 := by
  rw [slotSum, sum_eq_single y]
  · cases slot t y with
    | none => rfl
    | some e => exact if_pos rfl
  · intro i _ hne
    cases slot t i with
    | none => rfl
    | some e => exact if_neg hne
  · exact fun hnot => absurd (mem_range.mpr hy) hnot

/-- Of the entries that come to a slot, one stays. -/
theorem passing_succ (hhome : ∀ e, home e < t.length) (hx : x < t.length) :
    passing home t ((x + 1) % t.length) + (if (slot t ((x + 1) % t.length)).isSome then 1 else 0) =
      passing home t x + settlers home t ((x + 1) % t.length) := by
  have hnext : (x + 1) % t.length < t.length := Nat.mod_lt _ (Nat.zero_lt_of_lt hx)
  rw [← occupied_eq hnext, passing, passing, settlers, ← slotSum_add, ← slotSum_add]
  refine slotSum_congr fun i e hi => ?_
  have hlt := lt_of_slot hi
  have hdistance := distance_lt (h := home e) (x := i) (Nat.zero_lt_of_lt hlt)
  have hrank := distance_lt (h := home e) (x := x) (Nat.zero_lt_of_lt hlt)
  have hsame : i = (x + 1) % t.length ↔
      distance t.length (home e) i = distance t.length (home e) ((x + 1) % t.length) :=
    ⟨fun heq => by rw [heq], distance_inj (hhome e) hlt hnext⟩
  have hsettles : home e = (x + 1) % t.length ↔ distance t.length (home e) ((x + 1) % t.length) = 0 :=
    (distance_eq_zero (hhome e) hnext).symm
  rw [if_congr hsame rfl rfl, if_congr hsettles rfl rfl, distance_succ (hhome e) hx]
  by_cases hround : distance t.length (home e) x + 1 = t.length
  · rw [hround, Nat.mod_self, if_pos rfl]
    split_ifs <;> omega
  · rw [Nat.mod_eq_of_lt (by omega), if_neg (Nat.succ_ne_zero (distance t.length (home e) x))]
    split_ifs <;> omega

/-- No entry is pushed over an empty slot. -/
theorem Chained.passing_empty (ht : Chained home t c) (hhome : ∀ e, home e < t.length) (hx : x < t.length)
    (hempty : slot t x = none) : passing home t x = 0 := by
  refine slotSum_eq_zero fun i e hi => if_neg fun hover => ?_
  obtain ⟨d, hd, hend, hpath⟩ := ht.reach hhome hi
  rw [← hend, distance_add (hhome e) hd] at hover
  have hoccupied := hpath _ hover
  rw [add_distance (hhome e) hx] at hoccupied
  exact hoccupied hempty

/-- No entry is pushed over the cut. -/
theorem Chained.passing_cut (ht : Chained home t c) (hm : 0 < t.length) :
    passing home t ((c + (t.length - 1)) % t.length) = 0 := by
  refine slotSum_eq_zero fun i e hi => if_neg fun hover => ?_
  obtain ⟨k, hk, rfl⟩ := exists_rank c (lt_of_slot hi)
  by_cases hlast : k + 1 < t.length
  · obtain ⟨h, hle, hh, -⟩ := ht.path k e hlast hi
    rw [← hh, distance, distance, distance_rank (by omega) (by omega), distance_rank hle hk] at hover
    omega
  · have hrank : t.length - 1 = k := by omega
    rw [hrank] at hover
    exact Nat.lt_irrefl _ hover

theorem Chained.passing_next (ht : Chained home t c) (hhome : ∀ e, home e < t.length) (hx : x < t.length) :
    passing home t ((x + 1) % t.length) = passing home t x + settlers home t ((x + 1) % t.length) - 1 := by
  have hsucc := passing_succ hhome hx
  cases hslot : slot t ((x + 1) % t.length) with
  | none =>
    have hzero := ht.passing_empty hhome (Nat.mod_lt _ (Nat.zero_lt_of_lt hx)) hslot
    rw [hslot, Option.isSome_none, if_neg Bool.false_ne_true] at hsucc
    omega
  | some e =>
    rw [hslot, Option.isSome_some, if_pos rfl] at hsucc
    omega

/-! ### The homes decide -/

/-- What flows around the circle: what comes to `x` flows on but for one. -/
theorem flow_le {a flow flow' : Nat → Nat} (hflow : ∀ x < m, flow ((x + 1) % m) = flow x + a ((x + 1) % m) - 1)
    (hflow' : ∀ x < m, flow' ((x + 1) % m) = flow' x + a ((x + 1) % m) - 1) (hz : z < m) (hle : flow z ≤ flow' z)
    (hx : x < m) : flow x ≤ flow' x := by
  obtain ⟨d, -, rfl⟩ := exists_rank z hx
  induction d with
  | zero => rwa [Nat.add_zero, Nat.mod_eq_of_lt hz]
  | succ d ih =>
    have hlt : (z + d) % m < m := Nat.mod_lt _ (Nat.zero_lt_of_lt hz)
    have hle := ih hlt
    rw [← Nat.add_assoc, ← Nat.mod_add_mod, hflow _ hlt, hflow' _ hlt]
    omega

/-- Two solutions that are 0 somewhere are the same. -/
theorem flow_eq {a flow flow' : Nat → Nat} (hflow : ∀ x < m, flow ((x + 1) % m) = flow x + a ((x + 1) % m) - 1)
    (hflow' : ∀ x < m, flow' ((x + 1) % m) = flow' x + a ((x + 1) % m) - 1) (hz : z < m) (hzero : flow z = 0)
    (hy : y < m) (hzero' : flow' y = 0) (hx : x < m) : flow x = flow' x :=
  Nat.le_antisymm (flow_le hflow hflow' hz (by omega) hx) (flow_le hflow' hflow hy (by omega) hx)

/-- Chained tables whose entries have the same homes have the same slots occupied, as many entries pushed over
each slot, and the same displacement. -/
theorem Chained.flow_eq (ht : Chained home t c) (hhome : ∀ e, home e < t.length) (ht' : Chained home' t' c')
    (hhome' : ∀ e, home' e < t'.length) (hlength : t'.length = t.length)
    (hsettlers : ∀ y < t.length, settlers home' t' y = settlers home t y) :
    displacement home' t' = displacement home t ∧
      ∀ x < t.length, (slot t' x).isSome = (slot t x).isSome := by
  have hpassing : ∀ x < t.length, passing home' t' x = passing home t x := by
    intro x hx
    have hm : 0 < t.length := Nat.zero_lt_of_lt hx
    have hflow' := fun x hx => ht'.passing_next (x := x) hhome' hx
    have hcut' := ht'.passing_cut (by omega)
    rw [hlength] at hflow' hcut'
    refine Linear.flow_eq (a := settlers home t) (fun x hx => ?_) (fun x hx => ht.passing_next hhome hx)
      (Nat.mod_lt _ hm) hcut' (Nat.mod_lt _ hm) (ht.passing_cut hm) hx
    rw [hflow' x hx, hsettlers _ (Nat.mod_lt _ hm)]
  constructor
  · rw [displacement_eq_sum hhome, displacement_eq_sum hhome', hlength]
    exact sum_congr rfl fun x hx => hpassing x (mem_range.mp hx)
  · intro x hx
    obtain ⟨y, hy, rfl⟩ : ∃ y < t.length, (y + 1) % t.length = x := by
      obtain ⟨d, hd, heq⟩ := exists_rank 1 hx
      exact ⟨d, hd, by rwa [Nat.add_comm]⟩
    have hsucc := passing_succ hhome hy
    have hsucc' := passing_succ hhome' (x := y) (by omega)
    rw [hlength, hpassing _ hx, hpassing _ hy, hsettlers _ hx] at hsucc'
    cases hslot : (slot t ((y + 1) % t.length)).isSome with
    | false =>
      by_contra hother
      rw [Bool.not_eq_false] at hother
      rw [hslot, if_neg Bool.false_ne_true] at hsucc
      rw [hother, if_pos rfl] at hsucc'
      omega
    | true =>
      by_contra hother
      rw [Bool.not_eq_true] at hother
      rw [hslot, if_pos rfl] at hsucc
      rw [hother, if_neg Bool.false_ne_true] at hsucc'
      omega

end ManagedObject.Linear
