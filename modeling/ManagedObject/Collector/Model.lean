import ManagedObject.Lib.Lists

/-!
# The reference-tracking heap

`ManagedObjectHeap` and the operations of `ManagedObject`. A handle is a `ManagedObjectHeap`: it
points to a `Memory`, which several handles may share, and the Infos of a `Memory` hold stored values
or point to other handles. The root list is the `Memory` of one more handle, which is never
deallocated. A collection marks from the root and then sweeps, and the sweep writes what is to be
destroyed into two lists that are executed at its end.

Use of a handle or a `Memory` that was destroyed and access outside a vector have no defined
behaviour: they end a run. A destructor that runs during a sweep finds `inside_destructor` set, and
`dealloc` then returns at once, so the execution of the lists changes nothing else.
-/

namespace ManagedObject.Collector

open ManagedObject.Lists

abbrev HandleId := Nat

abbrev MemoryId := Nat

inductive Color
  | white
  | gray
  | black
  deriving DecidableEq, Repr

/-- What `Info::ptr` holds. -/
inductive Ptr
  | null
  | value (v : Nat)
  /-- the address of the `ManagedObject` with a handle, stored by `reroot` -/
  | object (h : HandleId)
  | heap (h : HandleId)
  deriving DecidableEq, Repr

/-- `ManagedObjectHeap::Info`. The `id` stands for its identity; the destructor follows from the
pointer. -/
structure Info where
  id : Nat
  index : Nat
  ptr : Ptr
  ptrIsRef : Bool
  deriving DecidableEq, Repr

def Info.getHeap (info : Info) : Option HandleId :=
  match info.ptrIsRef, info.ptr with
  | true, .heap h => some h
  | _, _ => none

structure Memory where
  indexes : List Nat
  memory : List Info
  color : Color
  deallocCount : Nat
  seen : Bool
  keepMemory : Bool
  deriving DecidableEq, Repr

def Memory.new : Memory := ⟨[], [], .gray, 0, false, false⟩

/-- A `ManagedObjectHeap`. The name of its Memory is fixed when the handle is made; until `get_memory`
is called for the first time it is not `created`, and the pointer in the source is null. -/
structure Handle where
  memory : MemoryId
  created : Bool
  deallocated : Bool
  deriving DecidableEq, Repr

/-- All handles and Memories, and what the sweeps so far have destroyed, in that order. -/
structure Heap where
  handle : HandleId → Handle
  mem : MemoryId → Memory
  nextHandle : HandleId
  nextMemory : MemoryId
  nextInfo : Nat
  destroyed : List Info
  destroyedMemory : List MemoryId

/-- Why an operation has no defined result. -/
inductive Fault
  | destroyedHandle (h : HandleId)
  | destroyedMemory (m : MemoryId)
  | outOfRange
  /-- `reroot` of an Info that is a reference, or a write to it -/
  | rerootRef
  /-- the recursion went deeper than the fuel -/
  | depth
  /-- the program has no such variable -/
  | noVariable (h : HandleId)
  deriving DecidableEq, Repr

def root : HandleId := 0

def Heap.start : Heap where
  handle _ := ⟨0, false, false⟩
  mem _ := .new
  nextHandle := 1
  nextMemory := 1
  nextInfo := 0
  destroyed := []
  destroyedMemory := []

def Heap.isDestroyed (s : Heap) (h : HandleId) : Bool := s.destroyed.any fun info => info.getHeap = some h

def Heap.setHandle (s : Heap) (h : HandleId) (x : Handle) : Heap :=
  { s with handle := fun i => if i = h then x else s.handle i }

def Heap.setMem (s : Heap) (m : MemoryId) (x : Memory) : Heap :=
  { s with mem := fun i => if i = m then x else s.mem i }

/-- The handle and its Memory exist. -/
def Heap.check (s : Heap) (h : HandleId) : Except Fault Unit :=
  if s.isDestroyed h then .error (.destroyedHandle h)
  else if (s.handle h).memory ∈ s.destroyedMemory then .error (.destroyedMemory (s.handle h).memory)
  else .ok ()

def Heap.create (s : Heap) (h : HandleId) : Heap := s.setHandle h { s.handle h with created := true }

/-- `get_memory()`, at a place that goes on to use the Memory. -/
def Heap.getMemory (s : Heap) (h : HandleId) : Except Fault (MemoryId × Heap) := do
  s.check h
  return ((s.handle h).memory, s.create h)

/-- `push`: a new Info at the end. -/
def Heap.push (s : Heap) (h : HandleId) (ptr : Ptr) (ptrIsRef : Bool) : Except Fault (Nat × Heap) := do
  let (m, s) ← s.getMemory h
  let x := s.mem m
  let index := x.memory.length
  let x := { x with
    indexes := x.indexes ++ [index]
    memory := x.memory ++ [⟨s.nextInfo, index, ptr, ptrIsRef⟩] }
  return (index, { s.setMem m x with nextInfo := s.nextInfo + 1 })

/-! ### Collection -/

def mark : Nat → Heap → HandleId → Except Fault Heap
  | 0, _, _ => .error .depth
  | depth + 1, s, h => do
    let (m, s) ← s.getMemory h
    let s := s.setMem m { s.mem m with keepMemory := false }
    if (s.mem m).color ≠ .gray then return s
    let color := if (s.handle h).deallocated then .white else .black
    let s := s.setMem m { s.mem m with color }
    ((s.mem m).memory.filterMap Info.getHeap).foldlM (mark depth) s

/-- A heap in the middle of a sweep, with the two lists of what is to be destroyed. -/
structure Sweep where
  heap : Heap
  list : List Info
  memoryList : List MemoryId

def Sweep.setMem (st : Sweep) (m : MemoryId) (x : Memory) : Sweep :=
  { st with heap := st.heap.setMem m x }

/-- The Info at a position goes to the destroy list, and its index goes with it. -/
def Sweep.remove (st : Sweep) (m : MemoryId) (i : Nat) (info : Info) : Sweep :=
  let x := st.heap.mem m
  { st.setMem m { x with
      indexes := eraseLast (· = info.index) x.indexes
      memory := x.memory.eraseIdx i } with
    list := st.list ++ [info] }

/-- The loop over `indexes2`: all that is left in a Memory goes to the destroy list. An index is used
as a position, and the search for it in `mem2` has no end test. -/
def destroyRemaining (r : MemoryId) : Nat → Sweep → Except Fault Sweep
  | 0, st => .ok st
  | n + 1, st =>
    let x := st.heap.mem r
    match x.indexes.getLast? with
    | none => .ok st
    | some v =>
      match x.memory[v]? with
      | none => .error .outOfRange
      | some info2 =>
        let mem2 := x.memory.set v { info2 with ptr := .null }
        if mem2.any (·.index = v) then
          destroyRemaining r n { st.setMem r { x with
              indexes := x.indexes.dropLast
              memory := eraseLast (·.index = v) mem2 } with
            list := st.list ++ [info2] }
        else .error .outOfRange

/-- The branch of `do_sweep` for a white Memory that was not emptied before. -/
def freeMemory (r : MemoryId) (st : Sweep) : Except Fault Sweep := do
  let st := st.setMem r { st.heap.mem r with keepMemory := true }
  let st ← destroyRemaining r (st.heap.mem r).indexes.length st
  if (st.heap.mem r).memory = [] then return { st with memoryList := st.memoryList ++ [r] }
  return st

/-- One round of the loop of `do_sweep`. -/
def sweepInfo (doSweep : Sweep → HandleId → Except Fault Sweep) (m : MemoryId) (i : Nat)
    (info : Info) (st : Sweep) : Except Fault Sweep := do
  if !info.ptrIsRef then
    if (st.heap.mem m).color = .white then return st.remove m i info
    return st
  match info.getHeap with
  | none => return st
  | some ref =>
    let (r, heap) ← st.heap.getMemory ref
    let st := { st with heap }
    -- skip this reference, we are already processing it somewhere else
    if (st.heap.mem r).seen then return st
    let st ← doSweep st ref
    let (r, heap) ← st.heap.getMemory ref
    let st := { st with heap }
    if (st.heap.mem r).keepMemory then return st.remove m i info
    if (st.heap.mem r).color = .white then
      let st ← freeMemory r st
      return st.remove m i info
    return st

/-- The loop over the reverse iterators of a Memory; `n` positions are left. -/
def sweepInfos (doSweep : Sweep → HandleId → Except Fault Sweep) (m : MemoryId) :
    Nat → Sweep → Except Fault Sweep
  | 0, st => .ok st
  | i + 1, st => do
    match (st.heap.mem m).memory[i]? with
    | none => throw .outOfRange
    | some info =>
      let st ← sweepInfo doSweep m i info st
      sweepInfos doSweep m i st

def doSweep : Nat → Sweep → HandleId → Except Fault Sweep
  | 0, _, _ => .error .depth
  | depth + 1, st, h => do
    let (m, heap) ← st.heap.getMemory h
    let st := { st with heap }
    let x := st.heap.mem m
    if x.seen then return st
    let st := st.setMem m { x with
      seen := true
      color := if x.color = .black then .gray else x.color }
    let st ← sweepInfos (doSweep depth) m x.memory.length st
    return st.setMem m { st.heap.mem m with seen := false }

/-- `mark` and `do_sweep` from the root, up to the execution of the lists. -/
def gather (s : Heap) : Except Fault Sweep := do
  let s ← mark (s.nextMemory + 1) s root
  doSweep (s.nextMemory + 1) ⟨s, [], []⟩ root

/-- The end of `sweep_`: both lists are executed from the back. -/
def Sweep.execute (st : Sweep) : Heap :=
  { st.heap with
    destroyed := st.heap.destroyed ++ st.list.reverse
    destroyedMemory := st.heap.destroyedMemory ++ st.memoryList.reverse }

def collect (s : Heap) : Except Fault Heap := do
  let (m, s) ← s.getMemory root
  if (s.mem m).memory.length = 0 then return s
  let st ← gather s
  let (m, s) ← st.execute.getMemory root
  return s.setMem m { s.mem m with deallocCount := 0 }

/-- `dealloc` up to the collection that it may start; the flag says whether one is due. -/
def release (deallocLimit : Nat) (s : Heap) (h : HandleId) : Except Fault (Bool × Heap) := do
  if s.isDestroyed h then throw (.destroyedHandle h)
  let s := s.setHandle h { s.handle h with deallocated := true }
  let (m, s) ← s.getMemory root
  -- an 8-bit counter
  let deallocCount := ((s.mem m).deallocCount + 1) % 256
  return (deallocLimit ≠ 0 && deallocCount ≥ deallocLimit, s.setMem m { s.mem m with deallocCount })

def dealloc (deallocLimit : Nat) (s : Heap) (h : HandleId) : Except Fault Heap := do
  let (due, s) ← release deallocLimit s h
  if due then collect s else return s

/-! ### Managed objects -/

def Heap.newHandle (s : Heap) (x : Handle) : HandleId × Heap :=
  (s.nextHandle, { s.setHandle s.nextHandle x with nextHandle := s.nextHandle + 1 })

/-- What a copy of a handle points to. A Memory that was not created yet is not shared. -/
def Heap.copyHandle (s : Heap) (x : Handle) : Handle × Heap :=
  if x.created then (x, s) else ({ x with memory := s.nextMemory }, { s with nextMemory := s.nextMemory + 1 })

/-- `ManagedObject::ManagedObject(tag)`. -/
def construct (s : Heap) : Except Fault (HandleId × Heap) := do
  let (h, s) := { s with nextMemory := s.nextMemory + 1 }.newHandle ⟨s.nextMemory, false, false⟩
  let (_, s) ← s.push root (.heap h) true
  return (h, s)

/-- `ManagedObject::ManagedObject(other)`. -/
def copyConstruct (s : Heap) (other : HandleId) : Except Fault (HandleId × Heap) := do
  if s.isDestroyed other then throw (.destroyedHandle other)
  let (x, s) := s.copyHandle (s.handle other)
  let (h, s) := s.newHandle x
  let (_, s) ← s.push root (.heap h) true
  return (h, s)

/-- `operator=` between different variables, up to the `dealloc` of the old heap. -/
def reassign (s : Heap) (this other : HandleId) : Except Fault (HandleId × Heap) := do
  if s.isDestroyed this then throw (.destroyedHandle this)
  let (old, s) := s.newHandle (s.handle this)
  let (_, s) ← s.push root (.heap old) true
  if s.isDestroyed other then throw (.destroyedHandle other)
  let (x, s) := s.copyHandle (s.handle other)
  return (old, s.setHandle this x)

/-- `ManagedObject::operator=`. -/
def assign (deallocLimit : Nat) (s : Heap) (this other : HandleId) : Except Fault Heap := do
  if this = other then return s
  let (old, s) ← reassign s this other
  dealloc deallocLimit s old

/-- The loop of `byRef` and `reroot` that takes a handle off the root list. -/
def Heap.unroot (s : Heap) (h : HandleId) : Except Fault Heap := do
  let (m, s) ← s.getMemory root
  let x := s.mem m
  match x.memory.reverse.find? fun info => info.getHeap = some h with
  | none => return s
  | some info => return s.setMem m { x with
      indexes := eraseLast (· = info.index) x.indexes
      memory := eraseLast (fun info => info.getHeap = some h) x.memory }

def byRef (s : Heap) (this other : HandleId) : Except Fault Heap := do
  let (_, s) ← s.push this (.heap other) true
  s.unroot other

/-- `ManagedObject::reroot` with a pointer to a `ManagedObject`. -/
def reroot (s : Heap) (this : HandleId) (index : Nat) (other : HandleId) : Except Fault Heap := do
  let (m, s) ← s.getMemory this
  let x := s.mem m
  match x.memory[index]? with
  | none => throw .outOfRange
  | some info =>
    -- the pointer would be taken for a handle
    if info.ptrIsRef then throw .rerootRef
    let s := s.setMem m { x with memory := x.memory.set index { info with ptr := .object other } }
    let (_, s) ← s.push this (.heap other) true
    s.unroot other

/-- `push_value`, in each of its overloads: the Info is no reference. -/
def pushValue (s : Heap) (this : HandleId) (v : Nat) : Except Fault Heap := do
  let (_, s) ← s.push this (.value v) false
  return s

def getValueAt (s : Heap) (this : HandleId) (index : Nat) : Except Fault (Ptr × Heap) := do
  let (m, s) ← s.getMemory this
  match (s.mem m).memory[index]? with
  | none => throw .outOfRange
  | some info => return (info.ptr, s)

/-- A write through the reference that `get_value_at` returns, and `reroot` with a pointer to something
that is no `ManagedObject`. -/
def setValueAt (s : Heap) (this : HandleId) (index v : Nat) : Except Fault Heap := do
  let (m, s) ← s.getMemory this
  let x := s.mem m
  match x.memory[index]? with
  | none => throw .outOfRange
  | some info =>
    -- the value would be taken for a handle
    if info.ptrIsRef then throw .rerootRef
    return s.setMem m { x with memory := x.memory.set index { info with ptr := .value v } }

end ManagedObject.Collector
