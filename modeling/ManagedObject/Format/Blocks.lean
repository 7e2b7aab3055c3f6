import ManagedObject.Format.Methods
import ManagedObject.Format.Scan

/-!
# Blocks and their references

What a scanned region consists of, type by type and with the sizes that are in memory, the fields of a
block that are references, and the pairs of bucket arrays that `managed_obj_metadata_make_table` and
`managed_obj_metadata_table_rehash` make.
-/

namespace ManagedObject.Format

open Lib

variable {sizeofLd addr base : Nat} {mem mem' : Memory} {w : Write}

/-- The fields that `MPS_FIX1` accepts. -/
def accepted (F : Fix) (mem : Memory) (fields : List Nat) : List Nat :=
  fields.filter fun a => F.fix1 (mem.load a sizeofPointer)

/-- The fix of a field that relocates by `f`. -/
def fixed (f : Nat → Nat) (mem : Memory) (a : Nat) : Event :=
  .fix a (mem.load a sizeofPointer) (.ok (f (mem.load a sizeofPointer)))

inductive Block
  | empty
  | scannedPointer
  | string (length : Nat)
  | buckets (length : Nat)
  | hashtable
  | fwd2
  | fwd (size : Nat)
  | pad1
  | pad (size : Nat)

namespace Block

/-- The size before it is rounded. -/
def needs (sizeofLd : Nat) : Block → Nat
  | .empty => sizeofEmpty
  | .scannedPointer => sizeofScannedPointer
  | .string length => offsetofString + length + 1
  | .buckets length => offsetofBucket + length * sizeofPointer
  | .hashtable => sizeofHashtable sizeofLd
  | .fwd2 => sizeofFwd2
  | .fwd size => size
  | .pad1 => sizeofPad1
  | .pad size => size

/-- `MANAGED_OBJECT_ALIGN_OBJ` for objects, `MANAGED_OBJECT_ALIGN_WORD` for what replaces them. -/
def size (sizeofLd : Nat) (b : Block) : Nat :=
  match b with
  | .fwd2 | .fwd _ | .pad1 | .pad _ => alignWord (b.needs sizeofLd)
  | _ => alignObj (b.needs sizeofLd)

/-- The size fits into a `size_t` when it is rounded, and has room for the field that states it. -/
def Fits (sizeofLd : Nat) (b : Block) : Prop :=
  b.needs sizeofLd + (alignment - 1) < 2 ^ 64 ∧
    match b with
    | .fwd size => sizeofFwd ≤ size
    | .pad size => offsetofPadSize + sizeofSize ≤ size
    | _ => True

/-- The type and, where the size depends on it, the length or the size. -/
def header (addr : Nat) : Block → List Write
  | .empty => [setType addr .empty]
  | .scannedPointer => [setType addr .scannedPointer]
  | .string length => [setType addr .metadataString, setWord addr offsetofStringLength length]
  | .buckets length =>
    [setType addr .metadataHashTableBucket, setWord addr offsetofBucketsLength (tagCount length)]
  | .hashtable => [setType addr .metadataHashTable]
  | .fwd2 => [setType addr .fwd2]
  | .fwd size => [setType addr .fwd, setWord addr offsetofFwdSize size]
  | .pad1 => [setType addr .pad1]
  | .pad size => [setType addr .pad, setWord addr offsetofPadSize size]

/-- A block at an address: it ends in the address space, and memory holds its header. -/
structure Laid (sizeofLd : Nat) (mem : Memory) (addr : Nat) (b : Block) : Prop where
  fits : b.Fits sizeofLd
  below : addr + b.size sizeofLd < 2 ^ 64
  holds : ∀ w ∈ b.header addr, mem.Holds w

/-- The addresses of the buckets of a bucket array. -/
def slots (addr : Nat) : Block → List Nat
  | .buckets length => (List.range length).map fun i => addr + offsetofSlot i
  | _ => []

/-- The addresses of the fields that are presented to the fix operation: the keys and the values of a
hash table, and of a bucket array the dependent unless it is `NULL` and the buckets that `MPS_FIX1`
accepts. -/
def presented (sizeofLd : Nat) (F : Fix) (mem : Memory) (addr : Nat) (b : Block) : List Nat :=
  match b with
  | .buckets _ =>
    (if word mem addr offsetofDependent = null then [] else [addr + offsetofDependent]) ++
      accepted F mem (b.slots addr)
  | .hashtable => [addr + offsetofKeys sizeofLd, addr + offsetofValues sizeofLd]
  | _ => []

/-- The calls that scanning the block makes, in order, when all of them succeed. -/
def calls (sizeofLd : Nat) (F : Fix) (f : Nat → Nat) (mem : Memory) (addr : Nat) (b : Block) :
    List Event :=
  match b with
  | .scannedPointer => [.call (word mem addr 16) (word mem addr 8) (.ok ())]
  | _ => (b.presented sizeofLd F mem addr).map (fixed f mem)

theorem size_eq (b : Block) (hfits : b.Fits sizeofLd) :
    b.size sizeofLd = (b.needs sizeofLd + 7) / 8 * 8 ∨
      b.size sizeofLd = max ((b.needs sizeofLd + 7) / 8 * 8) 24 := by
  have hneeds : b.needs sizeofLd + 7 < 2 ^ 64 := hfits.1
  cases b <;> first
    | exact .inl (alignWord_of_lt hneeds)
    | exact .inr (alignObj_of_lt hneeds)

/-- A block has room for what it needs. -/
theorem needs_le (b : Block) (hfits : b.Fits sizeofLd) : b.needs sizeofLd ≤ b.size sizeofLd := by
  rcases b.size_eq hfits with hsize | hsize <;> omega

theorem le_header {b : Block} (hw : w ∈ b.header addr) : addr ≤ w.addr := by
  have hfields : ∀ w ∈ b.header addr, w.Within addr (w.addr + w.width) := by
    cases b <;> simp [header, Write.Within, setType, setWord]
  exact (hfields w hw).1

theorem slots_within {b : Block} {a : Nat} (hfits : b.Fits sizeofLd) (ha : a ∈ b.slots addr) :
    addr + offsetofBucket ≤ a ∧ a + sizeofPointer ≤ addr + b.size sizeofLd := by
  have hroom := b.needs_le hfits
  cases b with
  | buckets length =>
    obtain ⟨i, hi, rfl⟩ := List.mem_map.mp ha
    rw [List.mem_range] at hi
    simp only [needs, offsetofSlot, offsetofBucket, sizeofPointer] at hroom ⊢
    omega
  | _ => simp [slots] at ha

end Block

/-! ## Pairs of bucket arrays -/

/-- `n` bytes from `a` on and `k` bytes from `b` on do not overlap. -/
def Separate (a n b k : Nat) : Prop := a + n ≤ b ∨ b + k ≤ a

def sizeofBuckets (length : Nat) : Nat := offsetofBucket + length * sizeofPointer

/-- What `managed_obj_metadata_table_rehash` stores before it goes through the old arrays. -/
def tableRehashArrays (sizeofLd tbl newKeys newValues newLength unused ld : Nat) : List Write :=
  makeBuckets newKeys newLength unused ++ makeBuckets newValues newLength unused ++
    [setWord newKeys offsetofDependent newValues, setWord newValues offsetofDependent newKeys,
      ⟨tbl + offsetofLd, sizeofLd, ld⟩]

/-- In the memory, two bucket arrays that were made for the same table by one call. After that the
program stores to any fields but their lengths, and the MPS may move the arrays. -/
inductive BuiltPair (sizeofLd : Nat) : Memory → Nat → Nat → Prop
  | makeTable {mem : Memory} (obj keys values : Nat) (p : TableParts)
      (harrays : Separate keys (sizeofBuckets p.l) values (sizeofBuckets p.l))
      (hkeys : Separate obj (sizeofHashtable sizeofLd) keys (sizeofBuckets p.l))
      (hvalues : Separate obj (sizeofHashtable sizeofLd) values (sizeofBuckets p.l)) :
      BuiltPair sizeofLd (mem.storeAll (makeTable sizeofLd obj keys values p)) keys values
  | tableRehash {mem : Memory} (tbl newKeys newValues newLength unused ld : Nat)
      (harrays : Separate newKeys (sizeofBuckets newLength) newValues (sizeofBuckets newLength))
      (hkeys : Separate tbl (sizeofHashtable sizeofLd) newKeys (sizeofBuckets newLength))
      (hvalues : Separate tbl (sizeofHashtable sizeofLd) newValues (sizeofBuckets newLength)) :
      BuiltPair sizeofLd
        (mem.storeAll (tableRehashArrays sizeofLd tbl newKeys newValues newLength unused ld))
        newKeys newValues
  | symm {mem : Memory} {a d : Nat} (h : BuiltPair sizeofLd mem a d) : BuiltPair sizeofLd mem d a
  | assign {mem : Memory} {a d : Nat} (w : Write) (h : BuiltPair sizeofLd mem a d)
      (ha : w.Apart (setWord a offsetofBucketsLength 0)) (hd : w.Apart (setWord d offsetofBucketsLength 0)) :
      BuiltPair sizeofLd (mem.store w) a d
  | move {mem mem' : Memory} {a d a' d' : Nat} (h : BuiltPair sizeofLd mem a d)
      (ha : ∀ k < offsetofBucket, mem' (a' + k) = mem (a + k))
      (hd : ∀ k < offsetofBucket, mem' (d' + k) = mem (d + k)) :
      BuiltPair sizeofLd mem' a' d'

/-- Stores within an object are apart from the length of an array that does not overlap it. -/
theorem Separate.apart_length {a n array l low high : Nat} (h : Separate a n array (sizeofBuckets l))
    (hw : w.Within low high) (hlow : a ≤ low) (hhigh : high ≤ a + n) :
    w.Apart (setWord array offsetofBucketsLength (tagCount l)) := by
  have hfield : (setWord array offsetofBucketsLength (tagCount l)).Within array
      (array + sizeofBuckets l) := by
    rw [setWord_within]
    simp only [offsetofBucketsLength, sizeofBuckets, offsetofBucket]
    omega
  exact (hw.mono hlow hhigh).apart hfield h

theorem Separate.symm {a n b k : Nat} (h : Separate a n b k) : Separate b k a n := Or.symm h

theorem setDependent_apart {a d l : Nat} (v : Nat) (h : Separate a (sizeofBuckets l) d (sizeofBuckets l)) :
    (setWord a offsetofDependent v).Apart (setWord a offsetofBucketsLength (tagCount l)) ∧
      (setWord a offsetofDependent v).Apart (setWord d offsetofBucketsLength (tagCount l)) := by
  constructor
  · simp [offsetofDependent, offsetofBucketsLength]
  · have hwithin : (setWord a offsetofDependent v).Within (a + 8) (a + 16) := by
      simp [offsetofDependent]
    apply h.apart_length hwithin (Nat.le_add_right a 8)
    simp only [sizeofBuckets, offsetofBucket]
    omega

/-- The `dependent` fields and the location dependency, which are stored to last. -/
theorem linked_apart {keys values tbl l ld : Nat}
    (harrays : Separate keys (sizeofBuckets l) values (sizeofBuckets l))
    (hkeys : Separate tbl (sizeofHashtable sizeofLd) keys (sizeofBuckets l))
    (hvalues : Separate tbl (sizeofHashtable sizeofLd) values (sizeofBuckets l))
    (hw : w ∈ [setWord keys offsetofDependent values, setWord values offsetofDependent keys,
      ⟨tbl + offsetofLd, sizeofLd, ld⟩]) :
    w.Apart (setWord keys offsetofBucketsLength (tagCount l)) ∧
      w.Apart (setWord values offsetofBucketsLength (tagCount l)) := by
  simp only [List.mem_cons, List.not_mem_nil, or_false] at hw
  rcases hw with rfl | rfl | rfl
  · exact setDependent_apart values harrays
  · exact (setDependent_apart keys harrays.symm).symm
  · have hwithin : (⟨tbl + offsetofLd, sizeofLd, ld⟩ : Write).Within tbl (tbl + sizeofHashtable sizeofLd) := by
      simp only [Write.Within, offsetofLd, sizeofHashtable]
      omega
    exact ⟨hkeys.apart_length hwithin (Nat.le_refl _) (Nat.le_refl _),
      hvalues.apart_length hwithin (Nat.le_refl _) (Nat.le_refl _)⟩

/-- Two arrays of one length, made one after the other, both have it when nothing else is stored to the
length fields. -/
theorem pair_lengths {keys values l unused : Nat} (before between : List Write) {after : List Write}
    (harrays : Separate keys (sizeofBuckets l) values (sizeofBuckets l))
    (hbetween : ∀ w ∈ between, w.Apart (setWord keys offsetofBucketsLength (tagCount l)))
    (hafter : ∀ w ∈ after, w.Apart (setWord keys offsetofBucketsLength (tagCount l)) ∧
      w.Apart (setWord values offsetofBucketsLength (tagCount l))) :
    let built := mem.storeAll
      (before ++ (makeBuckets keys l unused ++ (between ++ (makeBuckets values l unused ++ after))))
    word built keys offsetofBucketsLength = word built values offsetofBucketsLength := by
  have hheader : ∀ (m : Memory) a, (m.storeAll (makeBuckets a l unused)).Holds
      (setWord a offsetofBucketsLength (tagCount l)) := by
    intro m a
    exact makeBuckets_header (by simp [Constructor.header])
  simp only [Memory.storeAll_append]
  generalize mem.storeAll before = start
  have hkeys : (((start.storeAll (makeBuckets keys l unused)).storeAll between).storeAll
      (makeBuckets values l unused)).Holds (setWord keys offsetofBucketsLength (tagCount l)) := by
    apply Memory.Holds.storeAll ((hheader start keys).storeAll hbetween)
    intro w hw
    exact harrays.symm.apart_length (makeBuckets_within hw) (Nat.le_refl _) (Nat.le_refl _)
  have hvalues := hheader ((start.storeAll (makeBuckets keys l unused)).storeAll between) values
  have hkeys' := word_of_holds (hkeys.storeAll fun w hw => (hafter w hw).1)
  have hvalues' := word_of_holds (hvalues.storeAll fun w hw => (hafter w hw).2)
  exact hkeys'.trans hvalues'.symm

/-- Arrays that were built together have one length, so `AVER` in the scanner holds. -/
theorem BuiltPair.length_eq {a d : Nat} (h : BuiltPair sizeofLd mem a d) :
    word mem a offsetofBucketsLength = word mem d offsetofBucketsLength := by
  induction h with
  | makeTable obj keys values p harrays hkeys hvalues =>
    have hset : ∀ offset v, offset + 8 ≤ sizeofHashtable sizeofLd →
        (setWord obj offset v).Apart (setWord keys offsetofBucketsLength (tagCount p.l)) ∧
          (setWord obj offset v).Apart (setWord values offsetofBucketsLength (tagCount p.l)) := by
      intro offset v hoffset
      have hwithin : (setWord obj offset v).Within obj (obj + sizeofHashtable sizeofLd) := by
        rw [setWord_within]
        omega
      exact ⟨hkeys.apart_length hwithin (Nat.le_refl _) (Nat.le_refl _),
        hvalues.apart_length hwithin (Nat.le_refl _) (Nat.le_refl _)⟩
    have hshape : Format.makeTable sizeofLd obj keys values p =
        (makeTableReserved sizeofLd obj ++ makeTableFunctions sizeofLd obj p) ++
          (makeBuckets keys p.l p.unused ++ ([setWord obj (offsetofKeys sizeofLd) keys] ++
            (makeBuckets values p.l p.unused ++ (setWord obj (offsetofValues sizeofLd) values ::
              [setWord keys offsetofDependent values, setWord values offsetofDependent keys,
                ⟨obj + offsetofLd, sizeofLd, p.ld⟩])))) := by
      simp [Format.makeTable]
    rw [hshape]
    apply pair_lengths _ _ harrays
    · intro w hw
      rw [List.mem_singleton.mp hw]
      exact (hset _ _ (by simp only [offsetofKeys, sizeofHashtable]; omega)).1
    · intro w hw
      rcases List.mem_cons.mp hw with rfl | hlinked
      · exact hset _ _ (by simp only [offsetofValues, sizeofHashtable]; omega)
      · exact linked_apart harrays hkeys hvalues hlinked
  | tableRehash tbl newKeys newValues newLength unused ld harrays hkeys hvalues =>
    rw [tableRehashArrays, List.append_assoc]
    apply pair_lengths [] [] harrays
    · simp
    · intro w hw
      exact linked_apart harrays hkeys hvalues hw
  | symm h ih => exact ih.symm
  | assign w h ha hd ih =>
    have hkept : ∀ {m : Memory} {x : Nat}, w.Apart (setWord x offsetofBucketsLength 0) →
        word (m.store w) x offsetofBucketsLength = word m x offsetofBucketsLength := by
      intro m x hapart
      apply Memory.load_congr
      intro b hlow hhigh
      apply Memory.store_outside
      simp only [Write.Apart, setWord, sizeofPointer] at hapart hhigh
      omega
    rw [hkept ha, hkept hd, ih]
  | move h ha hd ih =>
    have hcopied : ∀ {m m' : Memory} {x x' : Nat}, (∀ k < offsetofBucket, m' (x' + k) = m (x + k)) →
        word m' x' offsetofBucketsLength = word m x offsetofBucketsLength := by
      intro m m' x x' hcopy
      apply Memory.load_copy
      intro k hk
      rw [Nat.add_assoc, Nat.add_assoc]
      apply hcopy
      simp only [offsetofBucketsLength, offsetofBucket, sizeofPointer] at hk ⊢
      omega
    rw [hcopied ha, hcopied hd, ih]

end ManagedObject.Format
