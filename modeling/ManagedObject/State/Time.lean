import Mathlib.Algebra.Ring.Int.Defs
import Mathlib.Algebra.Ring.Nat
import ManagedObject.Lib.Outcome

/-!
# Time stamps

`managed_obj_convert_to_time` splits a stamp of the clock into seconds, milliseconds and microseconds. The
three fields are of type `int` and serve as intermediate values, so the products in it are products of
ints. A product or a conversion that leaves the range of an int has no defined result.
-/

namespace ManagedObject.State

open Outcome

structure ManagedObjTime where
  seconds : Int
  milliseconds : Int
  microseconds : Int
  deriving DecidableEq, Repr

/-- What leaves the range of an int. -/
inductive IntFault
  | multiplication
  | conversion
  deriving DecidableEq, Repr

/-- The value of an `unsigned long`, assigned to an int. -/
def toInt (n : Nat) : Except IntFault Int := if n < 2 ^ 31 then .ok n else .error .conversion

def mulInt (a b : Int) : Except IntFault Int :=
  if -2 ^ 31 ≤ a * b ∧ a * b < 2 ^ 31 then .ok (a * b) else .error .multiplication

/-- The value of an int, assigned to an `unsigned long`. -/
def toULong (i : Int) : Nat := (i % 2 ^ 64).toNat

/-- `n - i` for an `unsigned long` and an int. -/
def subULong (n : Nat) (i : Int) : Nat := (n + (2 ^ 64 - toULong i)) % 2 ^ 64

/-- `managed_obj_convert_to_time`, where `cps` is the answer of `mps_clocks_per_sec`. -/
def convertToTime (cps stamp : Nat) : Except IntFault ManagedObjTime := do
  if cps ≥ 1000000 then
    -- microsecond resolution
    if stamp ≥ 1000000 then
      let seconds ← toInt (stamp / 1000000)
      let milliseconds ← toInt (subULong stamp (← mulInt seconds 1000000))
      let stampMs := toULong milliseconds
      let milliseconds ← toInt (stampMs / 1000)
      let microseconds ← toInt (subULong stampMs (← mulInt milliseconds 1000))
      return ⟨seconds, milliseconds, microseconds⟩
    else if stamp ≥ 1000 then
      let milliseconds ← toInt (stamp / 1000)
      let microseconds ← toInt (subULong stamp (← mulInt milliseconds 1000))
      return ⟨0, milliseconds, microseconds⟩
    else
      let microseconds ← toInt stamp
      return ⟨0, 0, microseconds⟩
  else if cps ≥ 1000 then
    -- millisecond resolution
    if stamp ≥ 1000 then
      let seconds ← toInt (stamp / 1000)
      let milliseconds ← toInt (subULong stamp (← mulInt seconds 1000))
      return ⟨seconds, milliseconds, 0⟩
    else
      let milliseconds ← toInt stamp
      return ⟨0, milliseconds, 0⟩
  else
    let seconds ← toInt stamp
    return ⟨seconds, 0, 0⟩

/-- How many units of the branch taken make a second. -/
def unitsPerSecond (cps : Nat) : Nat := if cps ≥ 1000000 then 1000000 else if cps ≥ 1000 then 1000 else 1

/-- The stamp that a time stands for, in the unit of the branch taken. -/
def ManagedObjTime.recompose (cps : Nat) (t : ManagedObjTime) : Int :=
  if cps ≥ 1000000 then t.seconds * 1000000 + t.milliseconds * 1000 + t.microseconds
  else if cps ≥ 1000 then t.seconds * 1000 + t.milliseconds
  else t.seconds

/-- A time splits a stamp into fields of their proper ranges. -/
structure ManagedObjTime.Splits (cps stamp : Nat) (t : ManagedObjTime) : Prop where
  milliseconds : 0 ≤ t.milliseconds ∧ t.milliseconds < 1000
  microseconds : 0 ≤ t.microseconds ∧ t.microseconds < 1000
  recompose : t.recompose cps = stamp

/-- No operation on ints overflows, and the result splits the stamp. -/
def ConvertsExactly (cps stamp : Nat) : Prop :=
  ∃ t, convertToTime cps stamp = .ok t ∧ t.Splits cps stamp

/-- The whole seconds of the stamp make a number of units that an int can hold. -/
def SecondsFit (cps stamp : Nat) : Prop :=
  unitsPerSecond cps = 1 ∨ stamp / unitsPerSecond cps * unitsPerSecond cps < 2 ^ 31

instance (cps stamp : Nat) : Decidable (SecondsFit cps stamp) := inferInstanceAs (Decidable (_ ∨ _))

variable {cps stamp n k : Nat} {i : Int}

theorem toInt_of_lt (h : n < 2 ^ 31) : toInt n = .ok n := if_pos h

theorem mulInt_of_lt (hi : i = k) (h : n * k < 2 ^ 31) : mulInt n i = .ok (n * k : Nat) := by
  subst hi
  rw [mulInt, if_pos]
  · rfl
  · omega

theorem mulInt_of_le (hi : i = k) (h : 2 ^ 31 ≤ n * k) : mulInt n i = .error .multiplication := by
  subst hi
  rw [mulInt, if_neg]
  omega

theorem toULong_natCast (h : n < 2 ^ 64) : toULong n = n := by
  rw [toULong]
  omega

theorem subULong_natCast (hk : k ≤ n) (hn : n < 2 ^ 64) : subULong n k = n - k := by
  rw [subULong, toULong_natCast (by omega)]
  omega

/-- `n - (n / k) * k`, once the product of ints is there. -/
theorem toInt_remainder (hn : n < 2 ^ 64) (hrest : n % k < 2 ^ 31) :
    toInt (subULong n (n / k * k : Nat)) = .ok (n % k : Nat) := by
  have hdiv : n / k * k + n % k = n := by
    rw [Nat.mul_comm]
    exact Nat.div_add_mod n k
  rw [subULong_natCast (by omega) hn, show n - n / k * k = n % k by omega, toInt_of_lt hrest]

/-- Below a second the split into milliseconds and microseconds does not overflow. -/
theorem split_thousand (hn : n < 1000000) :
    (do
      let milliseconds ← toInt (n / 1000)
      let microseconds ← toInt (subULong n (← mulInt milliseconds 1000))
      return (⟨i, milliseconds, microseconds⟩ : ManagedObjTime)) =
      .ok ⟨i, (n / 1000 : Nat), (n % 1000 : Nat)⟩ := by
  have hmilli : toInt (n / 1000) = .ok (n / 1000 : Nat) := toInt_of_lt (by omega)
  have hproduct : mulInt (n / 1000 : Nat) 1000 = .ok (n / 1000 * 1000 : Nat) :=
    mulInt_of_lt (by simp) (by omega)
  have hmicro : toInt (subULong n (n / 1000 * 1000 : Nat)) = .ok (n % 1000 : Nat) :=
    toInt_remainder (by omega) (by omega)
  rw [hmilli, ok_bind, hproduct, ok_bind, hmicro, ok_bind]
  rfl

/-- Where the product of the whole seconds fits, the time is made of the three quotients. -/
theorem convertToTime_micro (hcps : cps ≥ 1000000) (hfit : stamp / 1000000 * 1000000 < 2 ^ 31) :
    convertToTime cps stamp =
      .ok ⟨(stamp / 1000000 : Nat), (stamp % 1000000 / 1000 : Nat), (stamp % 1000000 % 1000 : Nat)⟩ := by
  have hstamp : stamp < 2 ^ 64 := by omega
  have hrest : stamp % 1000000 < 1000000 := by omega
  rw [convertToTime, if_pos hcps]
  by_cases hsecond : stamp ≥ 1000000
  · have hseconds : toInt (stamp / 1000000) = .ok (stamp / 1000000 : Nat) := toInt_of_lt (by omega)
    have hproduct : mulInt (stamp / 1000000 : Nat) 1000000 = .ok (stamp / 1000000 * 1000000 : Nat) :=
      mulInt_of_lt (by simp) hfit
    have hremainder : toInt (subULong stamp (stamp / 1000000 * 1000000 : Nat)) =
        .ok (stamp % 1000000 : Nat) := toInt_remainder hstamp (by omega)
    rw [if_pos hsecond, hseconds, ok_bind, hproduct, ok_bind, hremainder, ok_bind]
    rw [toULong_natCast (by omega)]
    exact split_thousand hrest
  · have hbelow : stamp % 1000000 = stamp := Nat.mod_eq_of_lt (by omega)
    have hzero : stamp / 1000000 = 0 := Nat.div_eq_of_lt (by omega)
    rw [if_neg hsecond, hbelow, hzero]
    by_cases hmilli : stamp ≥ 1000
    · rw [if_pos hmilli]
      exact split_thousand (by omega)
    · have hmicro : toInt stamp = .ok (stamp : Nat) := toInt_of_lt (by omega)
      rw [if_neg hmilli, hmicro, Nat.div_eq_of_lt (by omega), Nat.mod_eq_of_lt (by omega)]
      rfl

theorem convertToTime_milli (hcps : ¬ cps ≥ 1000000) (hmilli : cps ≥ 1000)
    (hfit : stamp / 1000 * 1000 < 2 ^ 31) :
    convertToTime cps stamp = .ok ⟨(stamp / 1000 : Nat), (stamp % 1000 : Nat), 0⟩ := by
  rw [convertToTime, if_neg hcps, if_pos hmilli]
  by_cases hsecond : stamp ≥ 1000
  · have hseconds : toInt (stamp / 1000) = .ok (stamp / 1000 : Nat) := toInt_of_lt (by omega)
    have hproduct : mulInt (stamp / 1000 : Nat) 1000 = .ok (stamp / 1000 * 1000 : Nat) :=
      mulInt_of_lt (by simp) hfit
    have hremainder : toInt (subULong stamp (stamp / 1000 * 1000 : Nat)) = .ok (stamp % 1000 : Nat) :=
      toInt_remainder (by omega) (by omega)
    rw [if_pos hsecond, hseconds, ok_bind, hproduct, ok_bind, hremainder, ok_bind]
    rfl
  · rw [if_neg hsecond, toInt_of_lt (by omega), Nat.mod_eq_of_lt (by omega), Nat.div_eq_of_lt (by omega)]
    rfl

theorem convertToTime_seconds (hmilli : ¬ cps ≥ 1000) (hfit : stamp < 2 ^ 31) :
    convertToTime cps stamp = .ok ⟨stamp, 0, 0⟩ := by
  rw [convertToTime, if_neg (by omega), if_neg hmilli, toInt_of_lt hfit]
  rfl

/-- The product of the whole seconds is the one that leaves the range. -/
theorem convertToTime_micro_error (hcps : cps ≥ 1000000) (hfit : stamp / 1000000 < 2 ^ 31)
    (hover : 2 ^ 31 ≤ stamp / 1000000 * 1000000) :
    convertToTime cps stamp = .error .multiplication := by
  have hproduct : mulInt (stamp / 1000000 : Nat) 1000000 = .error .multiplication :=
    mulInt_of_le (by simp) hover
  rw [convertToTime, if_pos hcps, if_pos (by omega), toInt_of_lt hfit, ok_bind, hproduct, error_bind]

theorem convertToTime_milli_error (hcps : ¬ cps ≥ 1000000) (hmilli : cps ≥ 1000)
    (hfit : stamp / 1000 < 2 ^ 31) (hover : 2 ^ 31 ≤ stamp / 1000 * 1000) :
    convertToTime cps stamp = .error .multiplication := by
  have hproduct : mulInt (stamp / 1000 : Nat) 1000 = .error .multiplication :=
    mulInt_of_le (by simp) hover
  rw [convertToTime, if_neg hcps, if_pos hmilli, if_pos (by omega), toInt_of_lt hfit, ok_bind, hproduct, error_bind]

theorem not_convertsExactly {fault : IntFault} (h : convertToTime cps stamp = .error fault) :
    ¬ ConvertsExactly cps stamp := by
  intro hexact
  obtain ⟨t, ht, -⟩ := hexact
  rw [h] at ht
  exact absurd ht (by simp)

theorem convertsExactly_micro (hcps : cps ≥ 1000000) (hfit : stamp / 1000000 < 2 ^ 31) :
    ConvertsExactly cps stamp ↔ stamp / 1000000 * 1000000 < 2 ^ 31 := by
  constructor
  · intro hexact
    refine Decidable.byContradiction fun hover => ?_
    exact not_convertsExactly (convertToTime_micro_error hcps hfit (by omega)) hexact
  · intro hsmall
    refine ⟨_, convertToTime_micro hcps hsmall, by dsimp only; omega, by dsimp only; omega, ?_⟩
    rw [ManagedObjTime.recompose, if_pos hcps]
    dsimp only
    omega

theorem convertsExactly_milli (hcps : ¬ cps ≥ 1000000) (hmilli : cps ≥ 1000)
    (hfit : stamp / 1000 < 2 ^ 31) :
    ConvertsExactly cps stamp ↔ stamp / 1000 * 1000 < 2 ^ 31 := by
  constructor
  · intro hexact
    refine Decidable.byContradiction fun hover => ?_
    exact not_convertsExactly (convertToTime_milli_error hcps hmilli hfit (by omega)) hexact
  · intro hsmall
    refine ⟨_, convertToTime_milli hcps hmilli hsmall, by dsimp only; omega, by simp, ?_⟩
    rw [ManagedObjTime.recompose, if_neg hcps, if_pos hmilli]
    dsimp only
    omega

/-- Stamps whose whole seconds fit in an int convert exactly where their units fit too: the products
`seconds * 1000000` and `seconds * 1000` are taken in int. -/
theorem converts_exactly_iff (cps stamp : Nat)
    (hfit : stamp / unitsPerSecond cps < 2 ^ 31) :
    ConvertsExactly cps stamp ↔ SecondsFit cps stamp := by
  rw [SecondsFit]
  by_cases hmicro : cps ≥ 1000000
  · rw [unitsPerSecond, if_pos hmicro] at *
    simpa using convertsExactly_micro hmicro hfit
  by_cases hmilli : cps ≥ 1000
  · rw [unitsPerSecond, if_neg hmicro, if_pos hmilli] at *
    simpa using convertsExactly_milli hmicro hmilli hfit
  · rw [unitsPerSecond, if_neg hmicro, if_neg hmilli] at *
    have hexact : ConvertsExactly cps stamp := by
      refine ⟨_, convertToTime_seconds hmilli (by omega), by simp, by simp, ?_⟩
      rw [ManagedObjTime.recompose, if_neg hmicro, if_neg hmilli]
    simpa using hexact

theorem converts_exactly_minute : ConvertsExactly 1000000 61234567 ↔ SecondsFit 1000000 61234567 :=
  converts_exactly_iff 1000000 61234567 (by decide)

/-- Thirty-six minutes of microseconds: the whole seconds fit, and the product overflows. -/
theorem thirty_six_minutes_overflow :
    2160000000 / unitsPerSecond 1000000 < 2 ^ 31 ∧
      convertToTime 1000000 2160000000 = .error .multiplication ∧
      ¬ ConvertsExactly 1000000 2160000000 := by
  have herror : convertToTime 1000000 2160000000 = .error .multiplication :=
    convertToTime_micro_error (by decide) (by decide) (by decide)
  exact ⟨by decide, herror, not_convertsExactly herror⟩

end ManagedObject.State
