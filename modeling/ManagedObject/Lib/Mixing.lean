import Mathlib.Data.Nat.ModEq

/-!
# Mixing steps

The steps of a hash function that is built from shifts: each of them can be undone. A function that folds such
steps over its input therefore gives different values to inputs that differ in one place.
-/

namespace ManagedObject.Lib

variable {w k : Nat} {σ α : Type} {step : σ → α → σ} {s : σ} {l before after : List α} {a a' : α}

/-- The high bits are there as they were, and each bit below is found from those above it. -/
theorem xorShift_injective (hk : 0 < k) : Function.Injective fun x : BitVec w => x ^^^ (x >>> k) := by
  intro x y h
  have hbit : ∀ i, (x.getLsbD i ^^ x.getLsbD (k + i)) = (y.getLsbD i ^^ y.getLsbD (k + i)) := by
    intro i
    have hi := congrArg (fun z : BitVec w => z.getLsbD i) h
    simpa only [BitVec.getLsbD_xor, BitVec.getLsbD_ushiftRight] using hi
  have habove : ∀ n i, w ≤ i + n → x.getLsbD i = y.getLsbD i := by
    intro n
    induction n with
    | zero =>
      intro i hi
      rw [BitVec.getLsbD_of_ge x i hi, BitVec.getLsbD_of_ge y i hi]
    | succ n ih =>
      intro i hi
      have hi' := hbit i
      rw [ih (k + i) (by omega)] at hi'
      exact (Bool.xor_left_inj).mp hi'
  exact BitVec.eq_of_getLsbD_eq fun i _ => habove w i (Nat.le_add_left w i)

/-- The step multiplies by an odd number. -/
theorem addShift_injective (hk : 0 < k) : Function.Injective fun x : BitVec w => x + (x <<< k) := by
  intro x y h
  have hodd : Nat.Coprime (2 ^ w) (1 + 2 ^ k) := by
    refine Nat.Coprime.pow_left w ?_
    rw [← Nat.sub_add_cancel hk, Nat.pow_succ', Nat.coprime_add_mul_left_right]
    exact Nat.coprime_one_right 2
  have hvalue : ∀ z : BitVec w, (z + (z <<< k)).toNat = z.toNat * (1 + 2 ^ k) % 2 ^ w := by
    intro z
    rw [BitVec.toNat_add, BitVec.toNat_shiftLeft, Nat.shiftLeft_eq, Nat.add_mod_mod, Nat.mul_add, Nat.mul_one]
  have hmod : x.toNat * (1 + 2 ^ k) ≡ y.toNat * (1 + 2 ^ k) [MOD 2 ^ w] := by
    rw [Nat.ModEq, ← hvalue, ← hvalue]
    exact congrArg BitVec.toNat h
  have heq := Nat.ModEq.cancel_right_of_coprime hodd hmod
  exact BitVec.eq_of_toNat_eq (heq.eq_of_lt_of_lt x.isLt y.isLt)

/-- Where no step forgets the state, neither do several. -/
theorem foldl_injective (hstate : ∀ a, Function.Injective fun s => step s a) :
    Function.Injective fun s => l.foldl step s := by
  induction l with
  | nil => exact Function.injective_id
  | cons a l ih => exact ih.comp (hstate a)

/-- Inputs that differ in one place lead to different states. -/
theorem foldl_differ (hstate : ∀ a, Function.Injective fun s => step s a)
    (hinput : ∀ s, step s a = step s a' ↔ a = a') :
    (before ++ a :: after).foldl step s = (before ++ a' :: after).foldl step s ↔ a = a' := by
  rw [List.foldl_append, List.foldl_append, List.foldl_cons, List.foldl_cons]
  exact (foldl_injective hstate).eq_iff.trans (hinput _)

end ManagedObject.Lib
