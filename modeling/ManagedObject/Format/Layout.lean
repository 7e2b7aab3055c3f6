import Mathlib.Algebra.Ring.Nat

/-!
# Object layout

Sizes and offsets of the managed object structures on a 64-bit target, and the rounding macros of
`managed_object_obj.h`. `size_t` values are natural numbers and every computation that the code
does in `size_t` is followed by `wrap`. `managed_obj_type_t` and `mps_bool_t` are four-byte
integers, pointers and `size_t` take eight bytes; the size of `mps_ld_s`, which belongs to the
MPS, is left open.
-/

namespace ManagedObject.Format

/-- The value of a `size_t` expression. -/
def wrap (n : Nat) : Nat := n % 2 ^ 64

theorem wrap_of_lt {n : Nat} (h : n < 2 ^ 64) : wrap n = n := Nat.mod_eq_of_lt h

theorem wrap_lt (n : Nat) : wrap n < 2 ^ 64 := Nat.mod_lt _ (by decide)

/-- `MANAGED_OBJECT_ALIGNMENT`, the alignment of `managed_obj_s`. -/
def alignment : Nat := 8

def sizeofEmpty : Nat := 8
def sizeofScannedPointer : Nat := 32
def sizeofFwd2 : Nat := 16
def sizeofFwd : Nat := 24
def sizeofPad1 : Nat := 8
def sizeofPointer : Nat := 8

/-- `offsetof(managed_obj_metadata_buckets_s, bucket)`. -/
def offsetofBucket : Nat := 40

/-- `offsetof(managed_obj_metadata_string_s, string)`. -/
def offsetofString : Nat := 16

/-- `sizeof(managed_obj_metadata_hashtable_s)`, given that of the location dependency in it. -/
def sizeofHashtable (sizeofLd : Nat) : Nat := 56 + sizeofLd

/-- `MANAGED_OBJECT_ALIGN_WORD`: up to the next multiple of the word size. -/
def alignWord (size : Nat) : Nat := wrap (size + (alignment - 1)) &&& (2 ^ 64 - alignment)

/-- `MANAGED_OBJECT_ALIGN_OBJ`: additionally big enough to store a forwarding pointer. -/
def alignObj (size : Nat) : Nat :=
  if alignWord size ≥ alignWord sizeofFwd then alignWord size else alignWord sizeofFwd

/-- `MANAGED_OBJECT_METADATA_TAG_COUNT`: counts carry a set bottom bit. -/
def tagCount (i : Nat) : Nat := wrap ((i <<< 1) + 1)

def untagCount (i : Nat) : Nat := i >>> 1

theorem tagCount_of_lt {i : Nat} (h : i < 2 ^ 63) : tagCount i = 2 * i + 1 := by
  rw [tagCount, Nat.shiftLeft_eq, wrap_of_lt (by omega)]
  omega

theorem untagCount_tagCount {i : Nat} (h : i < 2 ^ 63) : untagCount (tagCount i) = i := by
  rw [tagCount_of_lt h, untagCount, Nat.shiftRight_eq_div_pow]
  omega

/-- Masking with `~(MANAGED_OBJECT_ALIGNMENT - 1)` clears the bits below the alignment. -/
theorem and_alignment_mask {n : Nat} (h : n < 2 ^ 64) : n &&& (2 ^ 64 - alignment) = n / 8 * 8 := by
  have hmask : 2 ^ 64 - alignment = (2 ^ 61 - 1) <<< 3 := by decide
  have hclear : n / 8 * 8 = (n >>> 3) <<< 3 := by
    rw [Nat.shiftRight_eq_div_pow, Nat.shiftLeft_eq]
  rw [hmask, hclear]
  apply Nat.eq_of_testBit_eq
  intro i
  rw [Nat.testBit_and, Nat.testBit_shiftLeft, Nat.testBit_shiftLeft, Nat.testBit_shiftRight,
    Nat.testBit_two_pow_sub_one]
  by_cases hlow : i < 3
  · simp [show ¬ i ≥ 3 from by omega]
  · have hsum : 3 + (i - 3) = i := by omega
    rw [hsum]
    by_cases hhigh : i < 64
    · simp [show i ≥ 3 from by omega, show i - 3 < 61 from by omega]
    · have hzero : n.testBit i = false :=
        Nat.testBit_lt_two_pow (Nat.lt_of_lt_of_le h (Nat.pow_le_pow_right (by decide) (by omega)))
      rw [hzero, Bool.false_and, Bool.and_false]

theorem alignWord_of_lt {size : Nat} (h : size + 7 < 2 ^ 64) :
    alignWord size = (size + 7) / 8 * 8 := by
  have hwrap : wrap (size + (alignment - 1)) = size + 7 := wrap_of_lt h
  rw [alignWord, hwrap, and_alignment_mask h]

theorem alignWord_of_dvd {size : Nat} (h : size < 2 ^ 64) (hdvd : 8 ∣ size) : alignWord size = size := by
  obtain ⟨k, rfl⟩ := hdvd
  rw [alignWord_of_lt (by omega)]
  omega

theorem alignObj_of_lt {size : Nat} (h : size + 7 < 2 ^ 64) :
    alignObj size = max ((size + 7) / 8 * 8) 24 := by
  have hfwd : alignWord sizeofFwd = 24 := by decide
  rw [alignObj, alignWord_of_lt h, hfwd]
  split <;> omega

theorem le_alignObj {size : Nat} (h : size + 7 < 2 ^ 64) : size ≤ alignObj size := by
  rw [alignObj_of_lt h]
  omega

/-- The size of a string that fits is computed without wrapping around. -/
theorem wrap_stringNeeds {length : Nat} (h : offsetofString + length + 1 + (alignment - 1) < 2 ^ 64) :
    wrap (offsetofString + length + 1) = offsetofString + length + 1 :=
  wrap_of_lt (Nat.lt_of_le_of_lt (Nat.le_add_right _ _) h)

/-- The size of a bucket array that fits is computed without wrapping around, and its length can be
tagged. -/
theorem wrap_bucketsNeeds {length : Nat}
    (h : offsetofBucket + length * sizeofPointer + (alignment - 1) < 2 ^ 64) :
    wrap (offsetofBucket + wrap (length * sizeofPointer)) = offsetofBucket + length * sizeofPointer ∧
      length < 2 ^ 63 := by
  simp only [offsetofBucket, sizeofPointer, alignment] at h ⊢
  have hinner : wrap (length * 8) = length * 8 := wrap_of_lt (by omega)
  rw [hinner, wrap_of_lt (by omega)]
  omega

end ManagedObject.Format
