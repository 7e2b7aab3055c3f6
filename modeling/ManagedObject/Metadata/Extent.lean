import ManagedObject.Metadata.Strings
import ManagedObject.Metadata.Runs

/-!
# Computed sizes

The sizes that `managed_obj_metadata_make_buckets` and `managed_obj_metadata_make_string` ask for are
computed in `size_t`, from a length that comes from the caller. A length from `2 ^ 61 - 5` on makes the size
of the buckets wrap, and one above `2 ^ 63` is above every power of two that the rounding loop reaches.
-/

namespace ManagedObject.Metadata

open Format Outcome

/-- The size that `managed_obj_metadata_make_string` reserves. -/
def stringSize (length : Nat) : Nat := alignObj (wrap (offsetofString + length + 1))

/-- The loop of `managed_obj_metadata_make_table` ends, and a block that was reserved for a length has room
for what is written in it and keeps the length in its tagged count. -/
structure SizesNeverWrap (reserve : Nat → Bool) (length : Nat) : Prop where
  rounds : ∃ fuel l, roundUp length fuel 1 = .ok l
  buckets : reserve (bucketsSize length) = true →
    offsetofBucket + length * sizeofPointer ≤ bucketsSize length
  string : reserve (stringSize length) = true → offsetofString + length + 1 ≤ stringSize length
  count : untagCount (tagCount length) = length

variable {α : Type} {length now : Nat} {reserve : Nat → Bool}

/-! ### The loop -/

theorem roundUp_ends : ∀ k i, i + k ≤ 63 → length ≤ 2 ^ (i + k) →
    ∃ l, roundUp length (k + 1) (2 ^ i) = .ok l := by
  intro k
  induction k with
  | zero =>
    intro i _ hlength
    rw [Nat.add_zero] at hlength
    exact ⟨2 ^ i, by rw [roundUp, if_neg (Nat.not_lt.mpr hlength)]⟩
  | succ k ih =>
    intro i hi hlength
    rw [roundUp, ← pow_succ, wrap_of_lt (Nat.pow_lt_pow_right (by decide) (by omega))]
    split
    · rw [← Nat.add_assoc, Nat.add_right_comm] at hlength
      exact ih (i + 1) (by omega) hlength
    · exact ⟨_, rfl⟩

/-- The loop ends where some power of two below `2 ^ 64` is not below the length. -/
theorem roundUp_ends_iff : (∃ fuel l, roundUp length fuel 1 = .ok l) ↔ length ≤ 2 ^ 63 := by
  constructor
  · intro ⟨fuel, l, hround⟩
    obtain ⟨j, hj, rfl, hlength⟩ := (roundUp_meets length fuel 0 (by decide)).of_ok hround
    exact hlength.trans (Nat.pow_le_pow_right (by decide) hj)
  · intro hlength
    obtain ⟨l, hround⟩ := roundUp_ends 63 0 (by decide) hlength
    exact ⟨64, l, hround⟩

/-! ### The blocks -/

theorem alignWord_lt (size : Nat) : alignWord size < 2 ^ 64 :=
  Nat.lt_of_le_of_lt Nat.and_le_left (wrap_lt _)

theorem alignObj_lt (size : Nat) : alignObj size < 2 ^ 64 := by
  rw [alignObj]
  split <;> exact alignWord_lt _

theorem bucketsSize_fits_iff :
    offsetofBucket + length * sizeofPointer ≤ bucketsSize length ↔ length < 2 ^ 61 - 5 := by
  constructor
  · intro hfits
    have hlt := alignObj_lt (wrap (offsetofBucket + wrap (length * sizeofPointer)))
    rw [bucketsSize] at hfits
    simp only [offsetofBucket, sizeofPointer] at hfits hlt
    omega
  · intro hlength
    have hbytes : length * sizeofPointer < 2 ^ 64 := by
      simp only [sizeofPointer]
      omega
    have hsize : offsetofBucket + length * sizeofPointer + 7 < 2 ^ 64 := by
      simp only [offsetofBucket, sizeofPointer]
      omega
    rw [bucketsSize, wrap_of_lt hbytes, wrap_of_lt (by omega)]
    exact le_alignObj hsize

theorem stringSize_fits (hlength : length < 2 ^ 63) : offsetofString + length + 1 ≤ stringSize length := by
  have hsize : offsetofString + length + 1 + 7 < 2 ^ 64 := by
    simp only [offsetofString]
    omega
  rw [stringSize, wrap_of_lt (by omega)]
  exact le_alignObj hsize

theorem untagCount_tagCount_iff : untagCount (tagCount length) = length ↔ length < 2 ^ 63 := by
  constructor
  · intro hcount
    have hlt := wrap_lt (length <<< 1 + 1)
    rw [untagCount, tagCount, Nat.shiftRight_eq_div_pow] at hcount
    omega
  · exact untagCount_tagCount

/-- The sizes are right for the lengths below `2 ^ 63` whose buckets cannot be reserved or are fewer than
`2 ^ 61 - 5`. -/
theorem sizes_never_wrap_iff (reserve : Nat → Bool) (length : Nat) : SizesNeverWrap reserve length ↔
    length < 2 ^ 63 ∧ (reserve (bucketsSize length) = true → length < 2 ^ 61 - 5) := by
  constructor
  · intro h
    exact ⟨untagCount_tagCount_iff.mp h.count, fun hreserve => bucketsSize_fits_iff.mp (h.buckets hreserve)⟩
  · intro ⟨hlength, hbuckets⟩
    exact {
      rounds := roundUp_ends_iff.mpr hlength.le
      buckets := fun hreserve => bucketsSize_fits_iff.mpr (hbuckets hreserve)
      string := fun _ => stringSize_fits hlength
      count := untagCount_tagCount hlength }

/-- The initialisation writes past the block where a wrapped size was reserved. -/
theorem makeBuckets_overrun_iff (W : World α) : makeBuckets W now length = .error .overrun ↔
    W.reserve now (bucketsSize length) = true ∧ ¬ length < 2 ^ 61 - 5 := by
  rw [← bucketsSize_fits_iff]
  change (if W.reserve now (bucketsSize length) = true then
    if offsetofBucket + length * sizeofPointer ≤ bucketsSize length then _ else _ else _) = _ ↔ _
  by_cases hreserve : W.reserve now (bucketsSize length) = true
  · by_cases hfits : offsetofBucket + length * sizeofPointer ≤ bucketsSize length
    · simp [if_pos hreserve, hfits]
    · rw [if_pos hreserve, if_neg hfits]
      simp only [hreserve, hfits, not_false_eq_true, and_self]
  · simp [hreserve]

/-- A string whose bytes are there is made, unless there is no memory for it. -/
theorem makeString_meets {reserve : Nat → Nat → Bool} {source : List (BitVec 8)} (hlength : length < 2 ^ 63)
    (hsource : length < source.length) :
    Meets (makeString reserve now length (some source))
      (fun s => s = .outOfMemory ∧ reserve now (stringSize length) = false) fun a => a = ⟨now, length, source.take (length + 1)⟩ := by
  have hfits := stringSize_fits hlength
  have hcopied : wrap (length + 1) = length + 1 := wrap_of_lt (by omega)
  rw [Nat.add_assoc] at hfits
  change Meets (if reserve now (stringSize length) = true then
    if offsetofString + wrap (length + 1) ≤ stringSize length then _ else _ else _) _ _
  rw [hcopied, if_pos hfits]
  dsimp only
  rw [if_pos (show length + 1 ≤ source.length from hsource)]
  split
  · rfl
  · rename_i hreserve
    exact ⟨rfl, Bool.not_eq_true _ ▸ hreserve⟩

/-- `2 ^ 61` buckets: a block of 40 bytes is reserved, and the loop that fills it runs past its end. -/
theorem wrapped_buckets :
    bucketsSize (2 ^ 61) = 40 ∧
    makeBuckets { digitWorld with reserve := fun _ size => size ≤ 4096 } 0 (2 ^ 61) = .error .overrun ∧
    ¬ SizesNeverWrap (fun size => size ≤ 4096) (2 ^ 61) := by
  have hsize : bucketsSize (2 ^ 61) = 40 := by decide
  refine ⟨hsize, (makeBuckets_overrun_iff _).mpr ⟨by rw [hsize]; rfl, by decide⟩, fun h => ?_⟩
  have hlength := ((sizes_never_wrap_iff _ _).mp h).2 (by rw [hsize]; rfl)
  exact absurd hlength (by decide)

end ManagedObject.Metadata
