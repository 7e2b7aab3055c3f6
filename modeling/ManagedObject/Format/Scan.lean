import ManagedObject.Format.Objects

/-!
# The scan method

`managed_obj_scan` hands every reference in a region to the MPS and stores what comes back. It reads
and stores while it goes, and returns out of the middle of a loop when a reference cannot be fixed, so
here the code runs in a state: memory, and the calls that have left the repository. What the MPS does
to memory itself while it fixes, a copy at the new address and a forwarding object at the old one, is
taken to be in memory already; what is stored here are the stores of the scanner.
-/

namespace ManagedObject.Format

open Lib

/-- A call of the scanner to the outside, with what was answered; results other than `MPS_RES_OK` are
errors. -/
inductive Event
  /-- `MPS_FIX12` or `MPS_FIX2` with the value of the field at an address -/
  | fix (field value : Nat) (result : Except Nat Nat)
  /-- the scanner of a scanned pointer -/
  | call (scanner pointer : Nat) (result : Except Nat Unit)

/-- What is outside: the two parts of the MPS' fix operation, and the clients' scanners. What they
answer can depend on all calls before, the last one first. -/
structure Fix where
  fix1 : Nat → Bool
  fix2 : List Event → Nat → Except Nat Nat
  scanner : List Event → Nat → Nat → Except Nat Unit

structure Scan where
  mem : Memory
  /-- the calls so far, the last one first -/
  log : List Event

inductive Stop
  | abort (why : Abort)
  /-- `return res` with another result than `MPS_RES_OK` -/
  | res (r : Nat)

abbrev ScanM := EStateM Stop Scan

def offsetofDeleted : Nat := 32

def offsetofSlot (i : Nat) : Nat := offsetofBucket + i * sizeofPointer

def loadType (obj : Nat) : ScanM (Option ObjType) := fun s => .ok (typeOf s.mem obj) s

def loadWord (obj offset : Nat) : ScanM Nat := fun s => .ok (word s.mem obj offset) s

def storeWord (obj offset value : Nat) : ScanM Unit := fun s =>
  .ok () { s with mem := s.mem.store (setWord obj offset value) }

def aver (condition : Bool) : ScanM Unit := if condition then pure () else throw (.abort .aver)

/-- `MPS_FIX2`, and the return when it fails. -/
def mpsFix2 (F : Fix) (field value : Nat) : ScanM Nat := fun s =>
  let s' := { s with log := .fix field value (F.fix2 s.log value) :: s.log }
  match F.fix2 s.log value with
  | .ok new => .ok new s'
  | .error r => .error (.res r) s'

/-- `MPS_FIX12`: a reference that `MPS_FIX1` rejects stays as it is. -/
def mpsFix12 (F : Fix) (field value : Nat) : ScanM Nat := fun s =>
  if F.fix1 value then mpsFix2 F field value s
  else .ok value { s with log := .fix field value (.ok value) :: s.log }

/-- The call of a scanned pointer's scanner, and the return when it fails. -/
def callScanner (F : Fix) (scanner pointer : Nat) : ScanM Unit := fun s =>
  let s' := { s with log := .call scanner pointer (F.scanner s.log scanner pointer) :: s.log }
  match F.scanner s.log scanner pointer with
  | .ok _ => .ok () s'
  | .error r => .error (.res r) s'

def fixRef (F : Fix) (obj offset : Nat) : ScanM Unit := do
  let addr ← loadWord obj offset
  let addr ← mpsFix12 F (obj + offset) addr
  storeWord obj offset addr

def countDeleted (obj : Nat) : ScanM Unit := do
  let deleted ← loadWord obj offsetofDeleted
  storeWord obj offsetofDeleted (tagCount (untagCount deleted + 1))

/-- The branch for a splatted key or value: the value or key in the dependent array is deleted with
it. `deleted` is `managed_obj_global_metadata_ids.deleted`. -/
def splat (deleted obj i : Nat) : ScanM Nat := do
  countDeleted obj
  let dependent ← loadWord obj offsetofDependent
  if dependent ≠ null then
    storeWord dependent (offsetofSlot i) deleted
    countDeleted dependent
  return deleted

def scanBucket (F : Fix) (deleted obj i : Nat) : ScanM Unit := do
  let p ← loadWord obj (offsetofSlot i)
  if F.fix1 p then
    let p ← mpsFix2 F (obj + offsetofSlot i) p
    let p ← if p = null then splat deleted obj i else pure p
    let stored ← loadWord obj (offsetofSlot i)
    if stored ≠ p then
      storeWord obj (offsetofSlot i) p

def scanBuckets (F : Fix) (deleted obj length : Nat) : ScanM Unit := do
  let dependent ← loadWord obj offsetofDependent
  if dependent ≠ null then
    fixRef F obj offsetofDependent
    let dependent ← loadWord obj offsetofDependent
    let dependentLength ← loadWord dependent offsetofBucketsLength
    let ownLength ← loadWord obj offsetofBucketsLength
    aver (dependentLength = ownLength)
  (List.range length).forM (scanBucket F deleted obj)

/-- The body of the loop over the objects: the references of the object at `base`, and where the next
object is. -/
def scanObject (sizeofLd : Nat) (F : Fix) (deleted base : Nat) : ScanM Nat := do
  let type ← loadType base
  match type with
  | some .empty => return wrap (base + alignObj sizeofEmpty)
  | some .scannedPointer =>
    let scanner ← loadWord base 16
    let pointer ← loadWord base 8
    callScanner F scanner pointer
    return wrap (base + alignObj sizeofScannedPointer)
  | some .metadataHashTableBucket =>
    let tagged ← loadWord base offsetofBucketsLength
    let length := untagCount tagged
    scanBuckets F deleted base length
    return wrap (base + alignObj (wrap (offsetofBucket + wrap (length * sizeofPointer))))
  | some .metadataHashTable =>
    fixRef F base (offsetofKeys sizeofLd)
    fixRef F base (offsetofValues sizeofLd)
    return wrap (base + alignObj (sizeofHashtable sizeofLd))
  | some .metadataString =>
    let length ← loadWord base offsetofStringLength
    return wrap (base + alignObj (wrap (offsetofString + length + 1)))
  | some .fwd2 => return wrap (base + alignWord sizeofFwd2)
  | some .fwd =>
    let size ← loadWord base offsetofFwdSize
    return wrap (base + alignWord size)
  | some .pad1 => return wrap (base + alignWord sizeofPad1)
  | some .pad =>
    let size ← loadWord base offsetofPadSize
    return wrap (base + alignWord size)
  | _ => throw (.abort .unexpectedObject)

/-- `managed_obj_scan` from `base` on, at most `fuel` objects: the addresses it comes to, and the one
it reaches. -/
def scan (sizeofLd : Nat) (F : Fix) (deleted limit : Nat) : Nat → Nat → ScanM (List Nat × Nat)
  | 0, base => return ([], base)
  | fuel + 1, base =>
    if base < limit then do
      let next ← scanObject sizeofLd F deleted base
      let (visited, reached) ← scan sizeofLd F deleted limit fuel next
      return (base :: visited, reached)
    else return ([], base)

end ManagedObject.Format
