import ManagedObject.Format.Layout

/-!
# The metadata hash table

The table of `managed_object_obj_metadata.h`: two parallel bucket arrays for keys and values, open
addressing with double hashing, tombstones, and tagged counters. References are elements of a type
`α` with three distinguished ones, `NULL` and the two sentinel ids; `==` on references is equality.

Everything the code takes from outside stands in a `World`: the hash and comparison functions of
the table and what it asks of the MPS. The MPS may move an object whenever the program allocates,
so an arena carries a clock that every allocation advances, and a hash value is a function of the
time at which it is computed. Allocation can fail, a failed `AVER` or an allocation error aborts the
program, and an array written past its end has no defined behaviour: all of these stop a run.
-/

namespace ManagedObject.Metadata

open Format

inductive Stop
  /-- an `AVER` failed -/
  | aver
  /-- `mps_reserve` failed and `managed_obj_error` aborted -/
  | outOfMemory
  /-- an array was accessed outside its block -/
  | overrun
  /-- a loop that does not end -/
  | diverges
  deriving DecidableEq, Repr

/-- `mps_ld_s`: the references added since the last reset, with the times they were added. -/
structure Ld (α : Type) where
  added : List (α × Nat)
  reset : Nat
  deriving DecidableEq

/-- What the table code takes from its environment. -/
structure World (α : Type) where
  null : α
  /-- `managed_obj_global_metadata_ids.unused` -/
  unused : α
  /-- `managed_obj_global_metadata_ids.deleted` -/
  deleted : α
  /-- whether a word is a reference to an object the MPS manages -/
  managed : α → Bool
  /-- the hash function's value at a time -/
  hash : Nat → α → BitVec 64
  /-- whether the hash function calls `mps_ld_add`, as `managed_obj_metadata_eq_hash` does -/
  addsToLd : Bool
  cmp : α → α → Bool
  /-- the answer of the n-th call of `mps_ld_isstale`, at a time -/
  isStale : Nat → Ld α → Nat → α → Bool
  /-- whether `mps_reserve` succeeds at a time, for a size -/
  reserve : Nat → Nat → Bool

variable {α : Type} [DecidableEq α]

/-- `managed_obj_metadata_buckets_s`; the three counts are tagged. -/
structure Buckets (α : Type) where
  length : Nat
  used : Nat
  deleted : Nat
  bucket : List α
  deriving DecidableEq

/-- `managed_obj_metadata_hashtable_s`. The two arrays are each other's `dependent`. -/
structure HashTable (α : Type) where
  keys : Buckets α
  values : Buckets α
  ld : Ld α
  weakKey : Bool
  weakValue : Bool
  deriving DecidableEq

/-- A table in its arena: the clock and the number of staleness queries so far. -/
structure Machine (α : Type) where
  tbl : HashTable α
  now : Nat
  calls : Nat
  deriving DecidableEq

def aver (b : Bool) : Except Stop Unit := if b then .ok () else .error .aver

def Buckets.read (b : Buckets α) (i : Nat) : Except Stop α :=
  match b.bucket[i]? with
  | some k => .ok k
  | none => .error .overrun

def Buckets.write (b : Buckets α) (i : Nat) (k : α) : Buckets α :=
  { b with bucket := b.bucket.set i k }

def bucketsSize (length : Nat) : Nat := alignObj (wrap (offsetofBucket + wrap (length * sizeofPointer)))

/-- `managed_obj_metadata_make_buckets`, run at a time; it ends one tick later. -/
def makeBuckets (W : World α) (now length : Nat) : Except Stop (Buckets α) :=
  let size := alignObj (wrap (offsetofBucket + wrap (length * sizeofPointer)))
  if W.reserve now size then
    -- the initialisation writes `length` slots behind the header, whatever was reserved
    if offsetofBucket + length * sizeofPointer ≤ size then
      .ok { length := tagCount length, used := tagCount 0, deleted := tagCount 0,
            bucket := List.replicate length W.unused }
    else .error .overrun
  else .error .outOfMemory

/-- `for(l = 1; l < length; l *= 2);`, given up after `fuel` tests. -/
def roundUp (length : Nat) : Nat → Nat → Except Stop Nat
  | 0, _ => .error .diverges
  | fuel + 1, l => if l < length then roundUp length fuel (wrap (l * 2)) else .ok l

/-- `managed_obj_metadata_make_table`; `sizeofLd` is the size of the MPS structure in the table. -/
def makeTable (W : World α) (sizeofLd now length : Nat) (weakKey weakValue : Bool) :
    Except Stop (Machine α) := do
  if !W.reserve now (alignObj (sizeofHashtable sizeofLd)) then throw .outOfMemory
  let l ← roundUp length 65 1
  let keys ← makeBuckets W (now + 1) l
  let values ← makeBuckets W (now + 2) l
  return { tbl := { keys, values, ld := ⟨[], now + 3⟩, weakKey, weakValue },
           now := now + 3, calls := 0 }

/-- The loop of `managed_obj_metadata_buckets_find`, given up after `fuel` rounds. The answer is
the value left in `*b` when the loop returns 1, and nothing when it returns 0. -/
def probeLoop (W : World α) (buckets : Buckets α) (key : α) (l probe h : Nat) :
    Nat → Nat → Option Nat → Except Stop (Option Nat)
  | 0, _, _ => .error .diverges
  | fuel + 1, i, result => do
    let k ← buckets.read i
    if k = W.unused || W.cmp k key then return some i
    let result := if result.isNone && k = W.deleted then some i else result
    let i := wrap (i + probe) &&& l
    if i = h then return result
    probeLoop W buckets key l probe h fuel i result

/-- `managed_obj_metadata_buckets_find`. With `add` the hash function records its dependency. -/
def bucketsFind (W : World α) (ld : Ld α) (now : Nat) (buckets : Buckets α) (key : α) (add : Bool) :
    Except Stop (Option Nat × Ld α) := do
  let l := wrap (untagCount buckets.length + (2 ^ 64 - 1))
  let hash := (W.hash now key).toNat
  let ld := if add && W.addsToLd then { ld with added := (key, now) :: ld.added } else ld
  let probe := (hash >>> 8) ||| 1
  let h := hash &&& l
  let b ← probeLoop W buckets key l probe h (untagCount buckets.length) h none
  return (b, ld)

def tableSize (tbl : HashTable α) : Except Stop Nat := do
  let used := untagCount tbl.keys.used
  let deleted := untagCount tbl.keys.deleted
  aver (used ≥ deleted)
  return used - deleted

/-- The new arrays of a rehash in progress, and the bucket in which `key` was put. -/
structure Rehash (α : Type) where
  keys : Buckets α
  values : Buckets α
  ld : Ld α
  result : Option Nat

def rehashLoop (W : World α) (now : Nat) (key : α) :
    List (α × α) → Rehash α → Except Stop (Rehash α)
  | [], r => .ok r
  | (oldKey, oldValue) :: rest, r => do
    if oldKey ≠ W.unused && oldKey ≠ W.deleted then
      let (found, ld) ← bucketsFind W r.ld now r.keys oldKey true
      match found with
      | none => throw .aver
      | some b =>
        let k ← r.keys.read b
        aver (k = W.unused)
        let keys := r.keys.write b oldKey
        let keys := { keys with used := tagCount (untagCount keys.used + 1) }
        let result := if key ≠ W.null && W.cmp oldKey key then some b else r.result
        rehashLoop W now key rest { keys, values := r.values.write b oldValue, ld, result }
    else rehashLoop W now key rest r

/-- `managed_obj_metadata_table_rehash`. A caller without a key passes `NULL`. -/
def tableRehash (W : World α) (m : Machine α) (newLength : Nat) (key : α) :
    Except Stop (Option Nat × Machine α) := do
  let newKeys ← makeBuckets W m.now newLength
  let newValues ← makeBuckets W (m.now + 1) newLength
  let now := m.now + 2
  let r ← rehashLoop W now key (m.tbl.keys.bucket.zip m.tbl.values.bucket)
    { keys := newKeys, values := newValues, ld := ⟨[], now⟩, result := none }
  let size ← tableSize m.tbl
  aver (untagCount r.keys.used = size)
  return (r.result,
    { m with tbl := { m.tbl with keys := r.keys, values := r.values, ld := r.ld }, now })

def tableFind (W : World α) (m : Machine α) (key : α) (add : Bool) :
    Except Stop (Option Nat × Machine α) := do
  let (found, ld) ← bucketsFind W m.tbl.ld m.now m.tbl.keys key add
  let m := { m with tbl := { m.tbl with ld } }
  match found with
  | none => return (none, m)
  | some b =>
    let k ← m.tbl.keys.read b
    if k = W.unused || k = W.deleted then
      let stale := W.isStale m.calls m.tbl.ld m.now key
      let m := { m with calls := m.calls + 1 }
      if stale then tableRehash W m (untagCount m.tbl.keys.length) key else return (some b, m)
    else return (some b, m)

def tableRef (W : World α) (m : Machine α) (key : α) : Except Stop (α × Machine α) := do
  let (found, m) ← tableFind W m key false
  match found with
  | none => return (W.null, m)
  | some b =>
    let k ← m.tbl.keys.read b
    if k ≠ W.unused && k ≠ W.deleted then
      let v ← m.tbl.values.read b
      return (v, m)
    else return (W.null, m)

/-- The two stores of `managed_obj_metadata_table_try_set` into the slot that was found. -/
def storeAt (W : World α) (m : Machine α) (b : Nat) (key value : α) : Except Stop (Machine α) := do
  let k ← m.tbl.keys.read b
  let keys ←
    if k = W.unused then
      let keys := m.tbl.keys.write b key
      pure { keys with used := tagCount (untagCount keys.used + 1) }
    else if k = W.deleted then
      let keys := m.tbl.keys.write b key
      aver (keys.deleted > tagCount 0)
      pure { keys with deleted := tagCount (untagCount keys.deleted - 1) }
    else pure m.tbl.keys
  return { m with tbl := { m.tbl with keys, values := m.tbl.values.write b value } }

def tableTrySet (W : World α) (m : Machine α) (key value : α) : Except Stop (Bool × Machine α) := do
  let (found, m) ← tableFind W m key true
  match found with
  | none => return (false, m)
  | some b =>
    let m ← storeAt W m b key value
    return (true, m)

/-- `managed_obj_metadata_table_full`: both counts are compared as they are, tagged. -/
def tableFull (tbl : HashTable α) : Bool := tbl.keys.used ≥ tbl.keys.length / 2

def tableSet (W : World α) (m : Machine α) (key value : α) : Except Stop (Machine α) := do
  let (res, m) ← (if tableFull m.tbl then pure (false, m) else tableTrySet W m key value)
  if res then return m
  let (_, m) ← tableRehash W m (wrap (untagCount m.tbl.keys.length * 2)) W.null
  let (res, m) ← tableTrySet W m key value
  aver res
  return m

def tableDelete (W : World α) (m : Machine α) (key : α) : Except Stop (Machine α) := do
  let (found, m) ← tableFind W m key false
  match found with
  | none => return m
  | some b =>
    let k ← m.tbl.keys.read b
    if k ≠ W.unused && k ≠ W.deleted then
      let keys := m.tbl.keys.write b W.deleted
      let keys := { keys with deleted := tagCount (untagCount keys.deleted + 1) }
      return { m with tbl := { m.tbl with keys, values := m.tbl.values.write b W.null } }
    else return m

/-! ### The scanner -/

inductive Part
  | keys
  | values
  deriving DecidableEq, Repr

/-- One scan of a bucket array: the answers of `MPS_FIX1`, and the slots whose referent dies. -/
structure Scan (α : Type) where
  part : Part
  fix1 : α → Bool
  dies : Nat → Bool

/-- What `MPS_FIX2` leaves in slot `i`: it clears a dying weak reference to a managed object. -/
def fix2 (W : World α) (weak : Bool) (dies : Nat → Bool) (i : Nat) (p : α) : α :=
  if W.managed p && weak && dies i then W.null else p

/-- One round of the bucket loop of `MANAGED_OBJECT_METADATA_SCAN`: the scanned array and its
dependent. -/
def scanSlot (W : World α) (weak : Bool) (s : Scan α) (arrays : Buckets α × Buckets α) (i : Nat) :
    Except Stop (Buckets α × Buckets α) := do
  let (b, dependent) := arrays
  let p ← b.read i
  if s.fix1 p then
    let p := fix2 W weak s.dies i p
    if p = W.null then
      -- key/value was splatted: splat value/key too
      let b := { b with deleted := tagCount (untagCount b.deleted + 1) }
      let dependent := dependent.write i W.deleted
      let dependent := { dependent with deleted := tagCount (untagCount dependent.deleted + 1) }
      return (b.write i W.deleted, dependent)
    return (b.write i p, dependent)
  return (b, dependent)

/-- The bucket case of `managed_obj_scan` on one array of a table. -/
def scanBuckets (W : World α) (weak : Bool) (s : Scan α) (b dependent : Buckets α) :
    Except Stop (Buckets α × Buckets α) := do
  aver (dependent.length = b.length)
  (List.range (untagCount b.length)).foldlM (scanSlot W weak s) (b, dependent)

def scanTable (W : World α) (m : Machine α) (s : Scan α) : Except Stop (Machine α) := do
  match s.part with
  | .keys =>
    let (keys, values) ← scanBuckets W m.tbl.weakKey s m.tbl.keys m.tbl.values
    return { m with tbl := { m.tbl with keys, values } }
  | .values =>
    let (values, keys) ← scanBuckets W m.tbl.weakValue s m.tbl.values m.tbl.keys
    return { m with tbl := { m.tbl with keys, values } }

end ManagedObject.Metadata
