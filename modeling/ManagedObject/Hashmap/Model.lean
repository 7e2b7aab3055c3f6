import ManagedObject.Format.Layout

/-!
# The hashmap

The map of `managed_object_hashmap.c`: open addressing with linear probing, without tombstones. A table
is replaced when it grows or is reset, and the hook `on_realloc` is told where the new one is. `NULL` is
`none` where a pointer can be `NULL`, an entry without a key is no entry, and the outcome of an
allocation is an argument of the operation that makes it.
-/

namespace ManagedObject.Hashmap

open Format

variable {K D : Type}

inductive Fault
  /-- an `assert` failed -/
  | assert
  /-- `1 << n` does not fit an `int`, or `__builtin_clzl(0)` -/
  | undefined
  /-- a function pointer is `NULL` -/
  | nullFunction
  /-- an entry outside the table -/
  | outOfRange
  deriving DecidableEq, Repr

inductive Errno
  | nomem
  | inval
  | addrnotavail
  | exist
  deriving DecidableEq, Repr

/-- The hash function of a map, and whether its comparison of two keys gives 0. -/
structure Functions (K : Type) where
  hash : K → BitVec 64
  compare : K → K → Bool

structure Entry (K D : Type) where
  key : K
  data : D
  deriving DecidableEq, Repr

structure Table (K D : Type) where
  addr : Nat
  entries : List (Option (Entry K D))
  deriving DecidableEq, Repr

/-- `managed_object_hashmap_base`; of the function pointers, whether they are set. -/
structure Base (K D : Type) where
  tableSizeInit : Nat
  tableSize : Nat
  size : Nat
  table : Option (Table K D)
  functions : Bool
  keyDup : Bool
  keyFree : Bool
  onRealloc : Bool
  deriving DecidableEq, Repr

/-- A call of `on_realloc`, with the table and the allocated blocks at that moment. -/
structure Report (K D : Type) where
  newMem : Option Nat
  lengthInBytes : Nat
  table : Option (Table K D)
  blocks : List Nat
  deriving DecidableEq, Repr

/-- A map with the blocks it has allocated, the keys it has passed to `key_free`, and the calls of the
hook, the last one first. -/
structure Process (K D : Type) where
  base : Base K D
  blocks : List Nat
  freedKeys : List K
  reports : List (Report K D)
  deriving DecidableEq, Repr

def sizeMin : Nat := 32
def sizeDefault : Nat := 128

/-- `sizeof(struct managed_object_hashmap_entry)`. -/
def sizeofEntry : Nat := 16

def sizeMod (tableSize val : Nat) : Nat := val &&& wrap (tableSize + (2 ^ 64 - 1))

def probeNext (tableSize index : Nat) : Nat := sizeMod tableSize (wrap (index + 1))

/-! ### Hash values -/

def hashDefault (data : List (BitVec 8)) : BitVec 64 :=
  let hash := data.foldl (fun (hash : BitVec 64) byte =>
    let hash := hash + byte.setWidth 64
    let hash := hash + (hash <<< 10)
    hash ^^^ (hash >>> 6)) 0
  let hash := hash + (hash <<< 3)
  let hash := hash ^^^ (hash >>> 11)
  hash + (hash <<< 15)

/-- The bytes of a `size_t` in memory. -/
def bytesOf (n : BitVec 64) : List (BitVec 8) := (List.range 8).map fun i => (n >>> (8 * i)).setWidth 8

def calcIndex (f : Functions K) (tableSize : Nat) (key : K) : Nat :=
  sizeMod tableSize (hashDefault (bytesOf (f.hash key))).toNat

/-- `1 << n` on an `int`. -/
def shiftOne (n : Nat) : Except Fault Nat := if n < 31 then .ok (2 ^ n) else .error .undefined

/-- `managed_object_hashmap_calc_table_size`; the shift is 64 less the number of leading zeros. -/
def calcTableSize (tableSizeInit size : Nat) : Except Fault Nat :=
  let tableSize := wrap (size + size / 3)
  if tableSize < tableSizeInit then .ok tableSizeInit
  else if tableSize = 1 then .error .undefined
  else shiftOne (Nat.log2 (wrap (tableSize + (2 ^ 64 - 1))) + 1)

/-! ### Finding an entry -/

/-- The loop of `managed_object_hashmap_entry_find`. -/
def findLoop (f : Functions K) (tableSize : Nat) (entries : List (Option (Entry K D))) (key : K)
    (findEmpty : Bool) : Nat → Nat → Except Fault (Option Nat)
  | 0, _ => .ok none
  | rounds + 1, index =>
    match entries[index]? with
    | none => .error .outOfRange
    | some none => .ok (if findEmpty then some index else none)
    | some (some e) =>
      if f.compare key e.key then .ok (some index)
      else findLoop f tableSize entries key findEmpty rounds (probeNext tableSize index)

/-- `managed_object_hashmap_entry_find`: the position of the entry. -/
def entryFind (f : Functions K) (tableSize : Nat) (entries : List (Option (Entry K D))) (key : K)
    (findEmpty : Bool) : Except Fault (Option Nat) :=
  findLoop f tableSize entries key findEmpty tableSize (calcIndex f tableSize key)

namespace Base

def entries (b : Base K D) : List (Option (Entry K D)) := b.table.elim [] Table.entries

def setEntries (b : Base K D) (entries : List (Option (Entry K D))) : Base K D :=
  { b with table := b.table.map fun t => { t with entries := entries } }

def find (f : Functions K) (b : Base K D) (key : K) (findEmpty : Bool) : Except Fault (Option Nat) :=
  if b.functions then entryFind f b.tableSize b.entries key findEmpty else .error .nullFunction

end Base

/-! ### Removing an entry -/

/-- The loop of `managed_object_hashmap_entry_remove`, which closes the gap at `removed`. -/
def removeLoop (f : Functions K) (tableSize : Nat) : Nat → Nat → Nat → List (Option (Entry K D)) →
    Except Fault (List (Option (Entry K D)))
  | 0, _, removed, entries => .ok (entries.set removed none)
  | rounds + 1, index, removed, entries =>
    match entries[index]? with
    | none => .error .outOfRange
    -- the end of the chain
    | some none => .ok (entries.set removed none)
    | some (some e) =>
      let entryIndex := calcIndex f tableSize e.key
      if sizeMod tableSize (wrap (index + (2 ^ 64 - entryIndex))) >
          sizeMod tableSize (wrap (removed + (2 ^ 64 - entryIndex))) then
        removeLoop f tableSize rounds (probeNext tableSize index) index (entries.set removed (some e))
      else removeLoop f tableSize rounds (probeNext tableSize index) removed entries

namespace Process

/-- `managed_object_hashmap_entry_remove` of the entry with key `key` at position `i`. -/
def entryRemove (f : Functions K) (p : Process K D) (i : Nat) (key : K) : Except Fault (Process K D) := do
  let p := if p.base.keyFree then { p with freedKeys := key :: p.freedKeys } else p
  let size := wrap (p.base.size + (2 ^ 64 - 1))
  let entries ← removeLoop f p.base.tableSize size (probeNext p.base.tableSize i) i p.base.entries
  return { p with base := { p.base.setEntries entries with size := size } }

/-! ### Replacing the table -/

/-- A call of `on_realloc`, if it is set. -/
def report (p : Process K D) (newMem : Option Nat) (lengthInBytes : Nat) : Process K D :=
  if p.base.onRealloc then
    { p with reports := ⟨newMem, lengthInBytes, p.base.table, p.blocks⟩ :: p.reports }
  else p

def free (p : Process K D) (table : Option (Table K D)) : Process K D :=
  { p with blocks := p.blocks.filter fun addr => table.map Table.addr ≠ some addr }

end Process

/-- The loop of `managed_object_hashmap_rehash` over the old table. -/
def rehashLoop (f : Functions K) (tableSize : Nat) : List (Option (Entry K D)) →
    List (Option (Entry K D)) → Except Fault (List (Option (Entry K D)))
  | [], entries => .ok entries
  | none :: rest, entries => rehashLoop f tableSize rest entries
  | some e :: rest, entries => do
    match ← entryFind f tableSize entries e.key true with
    | none => throw .assert
    | some i => rehashLoop f tableSize rest (entries.set i (some e))

namespace Process

/-- `managed_object_hashmap_rehash`; `calloc` is what the allocation of the new table gives. -/
def rehash (f : Functions K) (p : Process K D) (tableSize : Nat) (calloc : Option Nat) :
    Except Fault (Option Errno × Process K D) := do
  if tableSize &&& wrap (tableSize + (2 ^ 64 - 1)) ≠ 0 then throw .assert
  if tableSize < p.base.size then throw .assert
  match calloc with
  | none => return (some .nomem, p)
  | some addr =>
    let empty := List.replicate tableSize none
    let oldTable := p.base.table
    let p := { p with
      base := { p.base with tableSize := tableSize, table := some ⟨addr, empty⟩ }
      blocks := addr :: p.blocks }
    match oldTable with
    | none => return (none, p.report (some addr) (wrap (tableSize * 2)))
    | some old =>
      if p.base.functions = false ∧ old.entries.any Option.isSome then throw .nullFunction
      let entries ← rehashLoop f tableSize old.entries empty
      let p := { p with base := p.base.setEntries entries }
      return (none, (p.report (some addr) (wrap (tableSize * 2))).free (some old))

def freeKeys (p : Process K D) : Process K D :=
  if p.base.keyFree && p.base.size ≠ 0 then
    { p with freedKeys := (p.base.entries.filterMap id).reverse.map Entry.key ++ p.freedKeys }
  else p

/-! ### Operations -/

/-- `managed_object_hashmap_base_init`, `managed_object_hashmap_base_set_key_alloc_funcs` for the
functions that are given, and `managed_object_hashmap_base_set_on_realloc_func`. -/
def init (keyDup keyFree : Bool) : Process K D where
  base := {
    tableSizeInit := sizeDefault, tableSize := 0, size := 0, table := none, functions := true,
    keyDup := keyDup, keyFree := keyFree, onRealloc := true }
  blocks := []
  freedKeys := []
  reports := []

def cleanup (p : Process K D) : Process K D :=
  let p := p.freeKeys
  let p := p.report none 0
  let p := p.free p.base.table
  { p with base := {
      tableSizeInit := 0, tableSize := 0, size := 0, table := none, functions := false,
      keyDup := false, keyFree := false, onRealloc := false } }

def reserve (f : Functions K) (p : Process K D) (capacity : Nat) (calloc : Option Nat) :
    Except Fault (Option Errno × Process K D) := do
  let oldSizeInit := p.base.tableSizeInit
  let sizeInit ← calcTableSize sizeMin capacity
  let p := { p with base := { p.base with tableSizeInit := sizeInit } }
  if sizeInit > p.base.tableSize then
    let (r, p) ← p.rehash f sizeInit calloc
    if r.isSome then return (r, { p with base := { p.base with tableSizeInit := oldSizeInit } })
    else return (r, p)
  else return (none, p)

/-- `managed_object_hashmap_base_put`; `dup` is what `key_dup` gives. -/
def put (f : Functions K) (p : Process K D) (key : Option K) (data : Option D) (calloc : Option Nat)
    (dup : Option K) : Except Fault (Option Errno × Process K D) :=
  match key, data with
  | some key, some data => do
    let tableSize ← calcTableSize p.base.tableSizeInit p.base.size
    let grow := if tableSize > p.base.tableSize then p.rehash f tableSize calloc else .ok (none, p)
    let (r, p) ← grow
    match ← p.base.find f key true with
    | none => return (some (r.getD .addrnotavail), p)
    | some i =>
      match p.base.entries[i]? with
      | none => throw .outOfRange
      | some (some _) => return (some .exist, p)
      | some none =>
        match if p.base.keyDup then dup else some key with
        | none => return (some .nomem, p)
        | some key =>
          let base := p.base.setEntries (p.base.entries.set i (some ⟨key, data⟩))
          return (none, { p with base := { base with size := wrap (base.size + 1) } })
  | _, _ => return (some .inval, p)

def get (f : Functions K) (p : Process K D) (key : Option K) : Except Fault (Option D) :=
  match key with
  | none => .ok none
  | some key => do
    match ← p.base.find f key false with
    | none => return none
    | some i => return (p.base.entries[i]?.join).map Entry.data

def remove (f : Functions K) (p : Process K D) (key : Option K) :
    Except Fault (Option D × Process K D) :=
  match key with
  | none => .ok (none, p)
  | some key => do
    match ← p.base.find f key false with
    | none => return (none, p)
    | some i =>
      match p.base.entries[i]?.join with
      | none => throw .outOfRange
      | some e =>
        let p ← p.entryRemove f i e.key
        return (some e.data, p)

def clear (p : Process K D) : Process K D :=
  let p := p.freeKeys
  let base := { p.base with size := 0 }
  { p with base := base.setEntries (List.replicate base.tableSize none) }

def reset (p : Process K D) (calloc : Option Nat) : Option Errno × Process K D :=
  let p := p.freeKeys
  let p := { p with base := { p.base with size := 0 } }
  if p.base.tableSize ≠ p.base.tableSizeInit then
    match calloc with
    | none => (some .nomem, p)
    | some addr =>
      let oldTable := p.base.table
      let p := { p with
        base := { p.base with
          table := some ⟨addr, List.replicate p.base.tableSizeInit none⟩
          tableSize := p.base.tableSizeInit }
        blocks := addr :: p.blocks }
      (none, (p.report (some addr) (wrap (p.base.tableSize * 2))).free oldTable)
  else
    (none, { p with base := p.base.setEntries (List.replicate p.base.tableSize none) })

end Process

end ManagedObject.Hashmap
