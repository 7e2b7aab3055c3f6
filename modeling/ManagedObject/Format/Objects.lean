import ManagedObject.Format.Layout
import ManagedObject.Lib.Bytes

/-!
# Objects in memory

The object constructors and the format methods of `managed_object_obj.c` on the bytes of memory. An
object is its address. A function that stores gives the list of its stores, in order, so what it
writes is visible next to what is in memory afterwards; a function that only reads takes the memory.
`sizeofLd` is the size of the location dependency in a hash table, a structure of the MPS.
-/

namespace ManagedObject.Format

open Lib

/-- The `MANAGED_OBJECT_TYPE_…` enumeration, in its order. -/
inductive ObjType
  | empty
  | scannedPointer
  | metadata
  | metadataFieldPointer
  | metadataMethodPointer
  | metadataHashTable
  | metadataHashTableBucket
  | metadataString
  | fwd2
  | fwd
  | pad1
  | pad
  deriving DecidableEq, Repr

namespace ObjType

def code : ObjType → Nat
  | .empty => 0
  | .scannedPointer => 1
  | .metadata => 2
  | .metadataFieldPointer => 3
  | .metadataMethodPointer => 4
  | .metadataHashTable => 5
  | .metadataHashTableBucket => 6
  | .metadataString => 7
  | .fwd2 => 8
  | .fwd => 9
  | .pad1 => 10
  | .pad => 11

def ofCode (n : Nat) : Option ObjType :=
  [.empty, .scannedPointer, .metadata, .metadataFieldPointer, .metadataMethodPointer,
    .metadataHashTable, .metadataHashTableBucket, .metadataString, .fwd2, .fwd, .pad1, .pad][n]?

@[simp] theorem ofCode_code (t : ObjType) : ofCode t.code = some t := by cases t <;> rfl

theorem code_lt (t : ObjType) : t.code < 12 := by cases t <;> decide

end ObjType

inductive Abort
  /-- `managed_obj_error("Unexpected object on the heap\n")` -/
  | unexpectedObject
  /-- an `AVER` or `AVER_CRITICAL` failed -/
  | aver
  deriving DecidableEq, Repr

def sizeofType : Nat := 4
def sizeofBool : Nat := 4
def sizeofSize : Nat := 8
def null : Nat := 0

def offsetofType : Nat := 0
def offsetofPinned : Nat := 4

/-! ## Constructors

What a constructor stores between `mps_reserve`, which gives it the address, and `mps_commit`. -/

def setType (obj : Nat) (type : ObjType) : Write := ⟨obj + offsetofType, sizeofType, type.code⟩

def setPinned (obj : Nat) (pinned : Bool) : Write := ⟨obj + offsetofPinned, sizeofBool, pinned.toNat⟩

/-- A pointer or a `size_t` stored to the field at an offset. -/
def setWord (obj offset value : Nat) : Write := ⟨obj + offset, sizeofPointer, value⟩

def makeEmpty (obj : Nat) : List Write := [setType obj .empty, setPinned obj false]

def makeScannedWithFinalizer (obj pointer scanner finalizationCallback : Nat) : List Write :=
  [setType obj .scannedPointer, setPinned obj false, setWord obj 8 pointer, setWord obj 16 scanner,
    setWord obj 24 finalizationCallback]

/-- `offsetof(managed_obj_metadata_string_s, length)`. -/
def offsetofStringLength : Nat := 8

/-- What `memcpy` copies from `string`, or the zero that `managed_obj_volatile_memset` fills in. -/
def stringByte (string : Option (Nat → UInt8)) (i : Nat) : UInt8 :=
  match string with
  | some s => s i
  | none => 0

def makeString (obj length : Nat) (string : Option (Nat → UInt8)) : List Write :=
  [setType obj .metadataString, setPinned obj false, setWord obj offsetofStringLength length] ++
    (List.range (wrap (length + 1))).map fun i =>
      ⟨obj + offsetofString + i, 1, (stringByte string i).toNat⟩

def offsetofDependent : Nat := 8

/-- `offsetof(managed_obj_metadata_buckets_s, length)`. -/
def offsetofBucketsLength : Nat := 16

/-- `managed_obj_metadata_make_buckets`; `unused` is `managed_obj_global_metadata_ids.unused`. -/
def makeBuckets (obj length unused : Nat) : List Write :=
  [setType obj .metadataHashTableBucket, setPinned obj false, setWord obj offsetofDependent null,
    setWord obj offsetofBucketsLength (tagCount length), setWord obj 24 (tagCount 0),
    setWord obj 32 (tagCount 0)] ++
    (List.range length).map fun i => setWord obj (offsetofBucket + i * sizeofPointer) unused

def offsetofLd : Nat := 24
def offsetofKeyAp (sizeofLd : Nat) : Nat := 24 + sizeofLd
def offsetofValueAp (sizeofLd : Nat) : Nat := 32 + sizeofLd
def offsetofKeys (sizeofLd : Nat) : Nat := 40 + sizeofLd
def offsetofValues (sizeofLd : Nat) : Nat := 48 + sizeofLd

/-- `managed_obj_metadata_make_table` up to the commit of the table itself. -/
def makeTableReserved (sizeofLd obj : Nat) : List Write :=
  [setType obj .metadataHashTable, setPinned obj false, setWord obj (offsetofValues sizeofLd) null,
    setWord obj (offsetofKeys sizeofLd) null]

/-- What a table is made with: the two functions, the allocation points its `weak` flags select, the
rounded length `l`, the id `unused`, and what `mps_ld_reset` leaves in the location dependency. -/
structure TableParts where
  hashf : Nat
  cmpf : Nat
  keyAp : Nat
  valueAp : Nat
  l : Nat
  unused : Nat
  ld : Nat

/-- What `managed_obj_metadata_make_table` stores to the table after its commit and before the first
bucket array is made. -/
def makeTableFunctions (sizeofLd obj : Nat) (p : TableParts) : List Write :=
  [setWord obj 8 p.hashf, setWord obj 16 p.cmpf, setWord obj (offsetofKeyAp sizeofLd) p.keyAp,
    setWord obj (offsetofValueAp sizeofLd) p.valueAp]

/-- `managed_obj_metadata_make_table`: the table is reserved at `obj`, and its two bucket arrays,
each made by `managed_obj_metadata_make_buckets`, at `keys` and `values`. -/
def makeTable (sizeofLd obj keys values : Nat) (p : TableParts) : List Write :=
  makeTableReserved sizeofLd obj ++ makeTableFunctions sizeofLd obj p ++
    makeBuckets keys p.l p.unused ++ [setWord obj (offsetofKeys sizeofLd) keys] ++
    makeBuckets values p.l p.unused ++ [setWord obj (offsetofValues sizeofLd) values] ++
    [setWord keys offsetofDependent values, setWord values offsetofDependent keys,
      ⟨obj + offsetofLd, sizeofLd, p.ld⟩]

/-! ## Format methods -/

def offsetofFwd : Nat := 8
def offsetofFwdSize : Nat := 16
def offsetofPadSize : Nat := 8

/-- `MANAGED_OBJECT_TYPE(obj)`. -/
def typeOf (m : Memory) (obj : Nat) : Option ObjType := ObjType.ofCode (m.load (obj + offsetofType) sizeofType)

/-- A pointer or a `size_t` loaded from the field at an offset. -/
def word (m : Memory) (obj offset : Nat) : Nat := m.load (obj + offset) sizeofPointer

def skip (sizeofLd : Nat) (m : Memory) (base : Nat) : Except Abort Nat :=
  match typeOf m base with
  | some .empty => .ok (wrap (base + alignObj sizeofEmpty))
  | some .scannedPointer => .ok (wrap (base + alignObj sizeofScannedPointer))
  | some .metadataHashTableBucket =>
    let length := untagCount (word m base offsetofBucketsLength)
    .ok (wrap (base + alignObj (wrap (offsetofBucket + wrap (length * sizeofPointer)))))
  | some .metadataHashTable => .ok (wrap (base + alignObj (sizeofHashtable sizeofLd)))
  | some .metadataString =>
    let length := word m base offsetofStringLength
    .ok (wrap (base + alignObj (wrap (offsetofString + length + 1))))
  | some .fwd2 => .ok (wrap (base + alignWord sizeofFwd2))
  | some .fwd => .ok (wrap (base + alignWord (word m base offsetofFwdSize)))
  | some .pad => .ok (wrap (base + alignWord (word m base offsetofPadSize)))
  | some .pad1 => .ok (wrap (base + alignWord sizeofPad1))
  | _ => .error .unexpectedObject

def isfwd (m : Memory) (addr : Nat) : Nat :=
  match typeOf m addr with
  | some .fwd2 => word m addr offsetofFwd
  | some .fwd => word m addr offsetofFwd
  | _ => null

def fwd (sizeofLd : Nat) (m : Memory) (old new : Nat) : Except Abort (List Write) := do
  let limit ← skip sizeofLd m old
  let size := wrap (2 ^ 64 + limit - old)
  if size < alignWord sizeofFwd2 then throw .aver
  if size = alignWord sizeofFwd2 then
    return [setType old .fwd2, setWord old offsetofFwd new]
  else
    return [setType old .fwd, setWord old offsetofFwd new, setWord old offsetofFwdSize size]

def pad (addr size : Nat) : Except Abort (List Write) := do
  if size < alignWord sizeofPad1 then throw .aver
  if size = alignWord sizeofPad1 then
    return [setType addr .pad1]
  else
    return [setType addr .pad, setWord addr offsetofPadSize size]

end ManagedObject.Format
