import ManagedObject.Hashmap.Handover
import ManagedObject.Lib.Mixing

/-!
# The hash functions for strings

A string is the list of its characters up to the terminator. `managed_object_hashmap_hash_string` adds each of
them as a `char`, `managed_object_hashmap_hash_string_i` adds what `tolower` makes of it, which is a parameter.
No round of the hash functions loses anything of the hash value or of what is added to it.
-/

namespace ManagedObject.Hashmap

open Lib

variable {signed : Bool} {tolower : BitVec 32 → BitVec 32} {key before after : List (BitVec 8)} {c c' : BitVec 8}

/-- The value of a `char`, which is signed or not, as an `int`. -/
def charToInt (signed : Bool) (c : BitVec 8) : BitVec 32 := if signed then c.signExtend 32 else c.setWidth 32

def hashString (signed : Bool) (key : List (BitVec 8)) : BitVec 64 :=
  let hash := key.foldl (fun (hash : BitVec 64) c =>
    let hash := hash + (charToInt signed c).signExtend 64
    let hash := hash + (hash <<< 10)
    hash ^^^ (hash >>> 6)) 0
  let hash := hash + (hash <<< 3)
  let hash := hash ^^^ (hash >>> 11)
  hash + (hash <<< 15)

def hashStringI (tolower : BitVec 32 → BitVec 32) (signed : Bool) (key : List (BitVec 8)) : BitVec 64 :=
  let hash := key.foldl (fun (hash : BitVec 64) c =>
    let hash := hash + (tolower (charToInt signed c)).signExtend 64
    let hash := hash + (hash <<< 10)
    hash ^^^ (hash >>> 6)) 0
  let hash := hash + (hash <<< 3)
  let hash := hash ^^^ (hash >>> 11)
  hash + (hash <<< 15)

/-! ### Rounds -/

/-- One round of the loops, which adds a value to the hash value. -/
def mix (hash value : BitVec 64) : BitVec 64 :=
  let hash := hash + value
  let hash := hash + (hash <<< 10)
  hash ^^^ (hash >>> 6)

def finish (hash : BitVec 64) : BitVec 64 :=
  let hash := hash + (hash <<< 3)
  let hash := hash ^^^ (hash >>> 11)
  hash + (hash <<< 15)

theorem shifts_injective : Function.Injective fun hash : BitVec 64 =>
    (hash + (hash <<< 10)) ^^^ ((hash + (hash <<< 10)) >>> 6) :=
  (xorShift_injective (by decide)).comp (addShift_injective (by decide))

theorem mix_state (value : BitVec 64) : Function.Injective fun hash => mix hash value :=
  shifts_injective.comp fun _ _ heq => (BitVec.add_left_inj value).mp heq

theorem mix_input (hash : BitVec 64) {value value' : BitVec 64} : mix hash value = mix hash value' ↔ value = value' :=
  shifts_injective.eq_iff.trans (BitVec.add_right_inj hash)

theorem finish_injective : Function.Injective finish :=
  (addShift_injective (by decide)).comp ((xorShift_injective (by decide)).comp (addShift_injective (by decide)))

/-- Keys that differ in one place have different hash values, if what is added there is different. -/
theorem finish_differ {α : Type} {value : α → BitVec 64} {before after : List α} {a a' : α} :
    finish ((before ++ a :: after).foldl (fun hash a => mix hash (value a)) 0) =
      finish ((before ++ a' :: after).foldl (fun hash a => mix hash (value a)) 0) ↔ value a = value a' := by
  have hstate : ∀ v, Function.Injective fun hash => mix hash v := mix_state
  simp only [← List.foldl_map (f := value) (g := mix), List.map_append, List.map_cons]
  exact finish_injective.eq_iff.trans (foldl_differ hstate fun hash => mix_input hash)

theorem signExtend_injective {v w : Nat} (h : v ≤ w) : Function.Injective fun x : BitVec v => x.signExtend w := by
  intro x y heq
  have hvalue := congrArg BitVec.toInt heq
  simp only [BitVec.toInt_signExtend_of_le h] at hvalue
  exact BitVec.eq_of_toInt_eq hvalue

theorem setWidth_injective {v w : Nat} (h : v ≤ w) : Function.Injective fun x : BitVec v => x.setWidth w := by
  intro x y heq
  have hvalue := congrArg BitVec.toNat heq
  simp only [BitVec.toNat_setWidth_of_le h] at hvalue
  exact BitVec.eq_of_toNat_eq hvalue

theorem charToInt_injective : Function.Injective (charToInt signed) := by
  cases signed
  · exact setWidth_injective (by decide)
  · exact signExtend_injective (by decide)

/-! ### Keys that differ in one place -/

/-- Keys of one length that differ in one place never have the same hash value; without case, unless `tolower`
makes the two characters the same. -/
theorem hash_differ (signed : Bool) (tolower : BitVec 32 → BitVec 32) (before after : List (BitVec 8))
    (c c' : BitVec 8) :
    (hashDefault (before ++ c :: after) = hashDefault (before ++ c' :: after) ↔ c = c') ∧
    (hashString signed (before ++ c :: after) = hashString signed (before ++ c' :: after) ↔ c = c') ∧
    (hashStringI tolower signed (before ++ c :: after) = hashStringI tolower signed (before ++ c' :: after) ↔
      tolower (charToInt signed c) = tolower (charToInt signed c')) := by
  have hint : Function.Injective fun x : BitVec 32 => x.signExtend 64 := signExtend_injective (by decide)
  have hbyte : Function.Injective fun x : BitVec 8 => x.setWidth 64 := setWidth_injective (by decide)
  refine ⟨finish_differ.trans hbyte.eq_iff, finish_differ.trans ?_, finish_differ.trans hint.eq_iff⟩
  exact hint.eq_iff.trans charToInt_injective.eq_iff

/-! ### Keys without case -/

/-- Strings are the same key if a function makes their characters the same. -/
def caseless (fold : BitVec 8 → BitVec 8) (tolower : BitVec 32 → BitVec 32) (signed : Bool) :
    Functions (List (BitVec 8)) where
  hash := hashStringI tolower signed
  compare a b := a.map fold = b.map fold

/-- A map may compare its keys so if and only if `tolower` makes the characters the same as well, as the `int`
that a `char` is converted to. -/
theorem caseless_lawful_iff (fold : BitVec 8 → BitVec 8) (tolower : BitVec 32 → BitVec 32) (signed : Bool) :
    (caseless fold tolower signed).Lawful ↔
      ∀ c c', fold c = fold c' → tolower (charToInt signed c) = tolower (charToInt signed c') := by
  constructor
  · intro hf c c' hfold
    have hhash := hf.hash [c] [c'] (decide_eq_true (congrArg (fun x => [x]) hfold))
    exact (hash_differ signed tolower [] [] c c').2.2.mp hhash
  · intro hlower
    constructor
    · exact ⟨fun a => decide_eq_true rfl, fun a b h => decide_eq_true (of_decide_eq_true h).symm,
        fun a b c h h' => decide_eq_true ((of_decide_eq_true h).trans (of_decide_eq_true h'))⟩
    · intro a b h
      obtain ⟨g, hg⟩ := (Function.factorsThrough_iff _).mp hlower
      have hlowered : a.map (fun c => tolower (charToInt signed c)) = b.map fun c => tolower (charToInt signed c) := by
        rw [hg, ← List.map_map, ← List.map_map, of_decide_eq_true h]
      have hfold : ∀ key : List (BitVec 8), hashStringI tolower signed key =
          finish ((key.map fun c => tolower (charToInt signed c)).foldl (fun hash x => mix hash (x.signExtend 64)) 0) := by
        intro key
        rw [List.foldl_map]
        rfl
      exact (hfold a).trans (hlowered ▸ (hfold b).symm)

end ManagedObject.Hashmap
