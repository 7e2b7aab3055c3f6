import ManagedObject.Collector.Liveness

/-!
# The searches for an index

`indexes` holds the index of every Info of a Memory, in an order of its own, and where an Info is erased
a loop looks for its index there; the loop that empties a Memory looks in the other direction, for an Info
with an index, and would run off the vector if there were none. The operations are stated once more here
so that they stop where such a loop finds nothing, and in every reachable state they do what they did.
-/

namespace ManagedObject.Collector

open Outcome ManagedObject.Lists Lib

variable {α β : Type}

/-- Why an operation that checks its searches stops. -/
inductive Stop
  | fault (f : Fault)
  /-- a loop finds no entry with the index it looks for -/
  | noEntry
  deriving DecidableEq, Repr

/-- An operation that searches for no index. -/
def plain (r : Except Fault α) : Except Stop α := r.mapError .fault

/-! ### The operations with their searches -/

/-- `Sweep.remove`, after the search for the index of the Info. -/
def Sweep.removeChecked (st : Sweep) (m : MemoryId) (i : Nat) (info : Info) : Except Stop Sweep :=
  if info.index ∈ (st.heap.mem m).indexes then .ok (st.remove m i info) else .error .noEntry

/-- `destroyRemaining`; whether `mem2` has an Info with the index does not depend on the pointers. -/
def destroyRemainingChecked (r : MemoryId) : Nat → Sweep → Except Stop Sweep
  | 0, st => .ok st
  | n + 1, st =>
    let x := st.heap.mem r
    match x.indexes.getLast? with
    | none => .ok st
    | some v =>
      if v ∈ x.memory.map Info.index then
        match x.memory[v]? with
        | none => .error (.fault .outOfRange)
        | some info2 =>
          let mem2 := x.memory.set v { info2 with ptr := .null }
          destroyRemainingChecked r n { st.setMem r { x with
              indexes := x.indexes.dropLast
              memory := eraseLast (·.index = v) mem2 } with
            list := st.list ++ [info2] }
      else .error .noEntry

def freeMemoryChecked (r : MemoryId) (st : Sweep) : Except Stop Sweep := do
  let st := st.setMem r { st.heap.mem r with keepMemory := true }
  let st ← destroyRemainingChecked r (st.heap.mem r).indexes.length st
  if (st.heap.mem r).memory = [] then return { st with memoryList := st.memoryList ++ [r] }
  return st

def sweepInfoChecked (doSweep : Sweep → HandleId → Except Stop Sweep) (m : MemoryId) (i : Nat)
    (info : Info) (st : Sweep) : Except Stop Sweep := do
  if !info.ptrIsRef then
    if (st.heap.mem m).color = .white then st.removeChecked m i info else return st
  else
    match info.getHeap with
    | none => return st
    | some ref =>
      let (r, heap) ← plain (st.heap.getMemory ref)
      let st := { st with heap }
      if (st.heap.mem r).seen then return st
      else
        let st ← doSweep st ref
        let (r, heap) ← plain (st.heap.getMemory ref)
        let st := { st with heap }
        if (st.heap.mem r).keepMemory then st.removeChecked m i info
        else if (st.heap.mem r).color = .white then
          let st ← freeMemoryChecked r st
          st.removeChecked m i info
        else return st

def sweepInfosChecked (doSweep : Sweep → HandleId → Except Stop Sweep) (m : MemoryId) :
    Nat → Sweep → Except Stop Sweep
  | 0, st => .ok st
  | i + 1, st => do
    match (st.heap.mem m).memory[i]? with
    | none => throw (.fault .outOfRange)
    | some info =>
      let st ← sweepInfoChecked doSweep m i info st
      sweepInfosChecked doSweep m i st

def doSweepChecked : Nat → Sweep → HandleId → Except Stop Sweep
  | 0, _, _ => .error (.fault .depth)
  | depth + 1, st, h => do
    let (m, heap) ← plain (st.heap.getMemory h)
    let st := { st with heap }
    let x := st.heap.mem m
    if x.seen then return st
    else
      let st := st.setMem m { x with
        seen := true
        color := if x.color = .black then .gray else x.color }
      let st ← sweepInfosChecked (doSweepChecked depth) m x.memory.length st
      return st.setMem m { st.heap.mem m with seen := false }

def gatherChecked (s : Heap) : Except Stop Sweep := do
  let s ← plain (mark (s.nextMemory + 1) s root)
  doSweepChecked (s.nextMemory + 1) ⟨s, [], []⟩ root

def collectChecked (s : Heap) : Except Stop Heap := do
  let (m, s) ← plain (s.getMemory root)
  if (s.mem m).memory.length = 0 then return s
  else
    let st ← gatherChecked s
    let (m, s) ← plain (st.execute.getMemory root)
    return s.setMem m { s.mem m with deallocCount := 0 }

def Heap.unrootChecked (s : Heap) (h : HandleId) : Except Stop Heap := do
  let (m, s) ← plain (s.getMemory root)
  let x := s.mem m
  match x.memory.reverse.find? fun info => info.getHeap = some h with
  | none => return s
  | some info =>
    if info.index ∈ x.indexes then
      return s.setMem m { x with
        indexes := eraseLast (· = info.index) x.indexes
        memory := eraseLast (fun info => info.getHeap = some h) x.memory }
    else throw .noEntry

def byRefChecked (s : Heap) (this other : HandleId) : Except Stop Heap := do
  let (_, s) ← plain (s.push this (.heap other) true)
  s.unrootChecked other

def rerootChecked (s : Heap) (this : HandleId) (index : Nat) (other : HandleId) : Except Stop Heap := do
  let (m, s) ← plain (s.getMemory this)
  let x := s.mem m
  match x.memory[index]? with
  | none => throw (.fault .outOfRange)
  | some info =>
    if info.ptrIsRef then throw (.fault .rerootRef)
    else
      let s := s.setMem m { x with memory := x.memory.set index { info with ptr := .object other } }
      let (_, s) ← plain (s.push this (.heap other) true)
      s.unrootChecked other

/-- A step of a program, with its searches. -/
def Program.stepChecked (deallocLimit : Nat) (p : Program) : Op → Except Stop Program
  | .byRef this other => do
    plain (p.variable this)
    plain (p.variable other)
    return { p with heap := ← byRefChecked p.heap this other }
  | .reroot this index other => do
    plain (p.variable this)
    plain (p.variable other)
    return { p with heap := ← rerootChecked p.heap this index other }
  | op => do
    let (due, q) ← plain (p.begin deallocLimit op)
    if due then return { q with heap := ← collectChecked q.heap } else return q

variable {s : Heap} {st st' : Sweep} {S : List MemoryId} {m r : MemoryId} {info : Info} {h : HandleId}
  {i depth : Nat} {visit : Sweep → HandleId → Except Fault Sweep}
  {visitChecked : Sweep → HandleId → Except Stop Sweep}

/-! ### The searches find an entry -/

theorem plain_bind {r : Except Fault α} {r' : Except Stop α} {f : α → Except Fault β}
    {g : α → Except Stop β} (hr : r' = plain r) (hg : ∀ a, r = .ok a → g a = plain (f a)) :
    r' >>= g = plain (r >>= f) := by
  subst hr
  cases r with
  | ok a => exact hg a rfl
  | error e => rfl

theorem mem_indexes {x : Memory} (hindexes : x.indexes.Perm (x.memory.map Info.index))
    (hinfo : info ∈ x.memory) : info.index ∈ x.indexes :=
  hindexes.mem_iff.mpr (List.mem_map_of_mem hinfo)

theorem removeChecked_eq (hst : Swept s S st) (hinfo : info ∈ (st.heap.mem m).memory) :
    st.removeChecked m i info = .ok (st.remove m i info) :=
  if_pos (mem_indexes (hst.cell m).indexes hinfo)

/-- One round of the loop over `indexes2` keeps the agreement. -/
theorem perm_round {x : Memory} {v : Nat} {info : Info} {mem2 : List Info}
    (hindexes : x.indexes.Perm (x.memory.map Info.index)) (hlast : x.indexes.getLast? = some v)
    (hinfo : x.memory[v]? = some info) (hmem2 : mem2 = x.memory.set v { info with ptr := .null }) :
    x.indexes.dropLast.Perm ((eraseLast (fun i : Info => i.index = v) mem2).map Info.index) := by
  have hmap : mem2.map Info.index = x.memory.map Info.index := by
    rw [hmem2]
    exact map_set_of_eq hinfo rfl
  rw [← hmap] at hindexes
  have hconcat : x.indexes = x.indexes.dropLast ++ [v] := by
    rw [List.dropLast_append_getLast?]
    rw [hlast]
    rfl
  have hv : v ∈ mem2.map Info.index := by
    rw [← hindexes.mem_iff, hconcat]
    exact List.mem_append_right _ List.mem_cons_self
  obtain ⟨a, ha, hav⟩ := List.mem_map.mp hv
  obtain ⟨b, l₁, l₂, hb, -, hl, herase⟩ :=
    eraseLast_eq (p := fun i : Info => decide (i.index = v)) ha (decide_eq_true hav)
  rw [decide_eq_true_eq] at hb
  rw [hconcat, hl, List.map_append, List.map_cons, hb] at hindexes
  rw [herase, List.map_append]
  exact ((List.perm_append_singleton v _).symm.trans (hindexes.trans List.perm_middle)).cons_inv

theorem destroyRemainingChecked_eq : ∀ {n st},
    (st.heap.mem r).indexes.Perm ((st.heap.mem r).memory.map Info.index) →
      destroyRemainingChecked r n st = plain (destroyRemaining r n st) := by
  intro n
  induction n with
  | zero => exact fun _ => rfl
  | succ n ih =>
    intro st hindexes
    rw [destroyRemainingChecked, destroyRemaining]
    dsimp only
    cases hlast : (st.heap.mem r).indexes.getLast? with
    | none => rfl
    | some v =>
      have hv : v ∈ (st.heap.mem r).memory.map Info.index :=
        hindexes.mem_iff.mp (List.mem_of_getLast? hlast)
      dsimp only
      rw [if_pos hv]
      cases hinfo : (st.heap.mem r).memory[v]? with
      | none => rfl
      | some info =>
        have hmap : ((st.heap.mem r).memory.set v { info with ptr := .null }).map Info.index =
            (st.heap.mem r).memory.map Info.index := map_set_of_eq hinfo rfl
        have hany : (((st.heap.mem r).memory.set v { info with ptr := .null }).any
            fun i => decide (i.index = v)) = true := by
          rw [← hmap] at hv
          obtain ⟨a, ha, hav⟩ := List.mem_map.mp hv
          exact List.any_eq_true.mpr ⟨a, ha, decide_eq_true hav⟩
        dsimp only
        rw [if_pos hany]
        apply ih
        show (Heap.mem (Sweep.heap (st.setMem r _)) r).indexes.Perm _
        rw [sweep_setMem_mem, if_pos rfl]
        exact perm_round hindexes hlast hinfo rfl

theorem freeMemoryChecked_eq (hindexes : (st.heap.mem r).indexes.Perm ((st.heap.mem r).memory.map Info.index)) :
    freeMemoryChecked r st = plain (freeMemory r st) := by
  rw [freeMemoryChecked, freeMemory]
  apply plain_bind
  · apply destroyRemainingChecked_eq
    rw [sweep_setMem_mem, if_pos rfl]
    exact hindexes
  · intro st' _
    split <;> rfl

theorem sweepInfoChecked_eq (hs : HeapOk s) (hvisits : Visits s (m :: S) visit) (hst : Swept s (m :: S) st)
    (hm : s.Reachable m) (hinfo : info ∈ (st.heap.mem m).memory)
    (hvisit : ∀ st h, Swept s (m :: S) st → s.Reachable (s.target h) → s.target h ∉ m :: S →
      visitChecked st h = plain (visit st h)) :
    sweepInfoChecked visitChecked m i info st = plain (sweepInfo visit m i info st) := by
  rw [sweepInfoChecked, sweepInfo]
  by_cases hvalue : (!info.ptrIsRef) = true
  · rw [if_pos hvalue, if_pos hvalue, removeChecked_eq hst hinfo]
    split <;> rfl
  · rw [if_neg hvalue, if_neg hvalue]
    cases href : info.getHeap with
    | none => rfl
    | some ref =>
      refine plain_bind rfl fun a hget => ?_
      obtain ⟨-, rfl⟩ := getMemory_ok hget
      have hleads := leads_of_mem hst hinfo href
      have hreach := hm.trans hleads
      have htarget : st.heap.target ref = s.target ref := hst.frame.target ref
      dsimp only
      rw [htarget]
      by_cases hseen : ((st.heap.create ref).mem (s.target ref)).seen = true
      · rw [if_pos hseen, if_pos hseen]
        rfl
      · have hoff : s.target ref ∉ m :: S := fun hmem => hseen ((hst.cell (s.target ref)).seen.mpr hmem)
        have hcreate := hst.create (h := ref)
        rw [if_neg hseen, if_neg hseen]
        refine plain_bind (hvisit _ ref hcreate hreach hoff) fun st₁ hrec => ?_
        have hvisited : Visited visit s (m :: S) info ref st st₁ := ⟨href, hoff, hrec⟩
        obtain ⟨-, hst₁, -, -, hsame⟩ := hvisited.spec hvisits hst hm hinfo
        refine plain_bind rfl fun a hget => ?_
        obtain ⟨-, rfl⟩ := getMemory_ok hget
        have htarget₁ : st₁.heap.target ref = s.target ref := hst₁.frame.target ref
        have hcreate₁ := hst₁.create (h := ref)
        have hcell := hcreate₁.cell (s.target ref)
        have hinfo₁ : info ∈ ((st₁.create ref).heap.mem m).memory := by
          show info ∈ (st₁.heap.mem m).memory
          rwa [hsame]
        dsimp only
        rw [htarget₁]
        by_cases hkeep : ((st₁.heap.create ref).mem (s.target ref)).keepMemory = true
        · rw [if_pos hkeep, if_pos hkeep]
          exact removeChecked_eq hcreate₁ hinfo₁
        · rw [if_neg hkeep, if_neg hkeep]
          by_cases hwhite : ((st₁.heap.create ref).mem (s.target ref)).color = .white
          · rw [if_pos hwhite, if_pos hwhite]
            refine plain_bind (freeMemoryChecked_eq hcell.indexes) fun st₂ hfreed => ?_
            obtain rfl := freeMemory_ok hcell.indexes ((hs.late _).sublist (hcell.sub.map _)) hfreed
            have hnew : s.target ref ∉ st₁.memoryList := fun hmem => hkeep ((hcell.keep hreach).mpr hmem)
            have hfree₂ := hcreate₁.free hs hreach ((hcell.white hreach).mp hwhite) hnew
            have hne : m ≠ s.target ref := fun heq => hoff (heq ▸ List.mem_cons_self)
            apply removeChecked_eq hfree₂
            show info ∈ (Heap.mem (Sweep.heap (Sweep.setMem (st₁.create ref) _ _)) m).memory
            rw [sweep_setMem_mem, if_neg hne]
            exact hinfo₁
          · rw [if_neg hwhite, if_neg hwhite]
            rfl

theorem sweepInfosChecked_eq (hs : HeapOk s) (hvisits : Visits s (m :: S) visit) (hm : s.Reachable m)
    (hoff : m ∉ S) (hvisit : ∀ st h, Swept s (m :: S) st → s.Reachable (s.target h) →
      s.target h ∉ m :: S → visitChecked st h = plain (visit st h)) :
    ∀ {i st}, Swept s (m :: S) st → sweepInfosChecked visitChecked m i st = plain (sweepInfos visit m i st) := by
  intro i
  induction i with
  | zero => exact fun _ => rfl
  | succ i ih =>
    intro st hst
    rw [sweepInfosChecked, sweepInfos]
    cases hget : (st.heap.mem m).memory[i]? with
    | none => rfl
    | some info =>
      have hinfo := List.mem_of_getElem? hget
      refine plain_bind (sweepInfoChecked_eq hs hvisits hst hm hinfo hvisit) fun st₁ hround => ?_
      obtain ⟨hst₁, -⟩ := (sweepInfo_round hs hvisits hst hm hinfo hround).spec hs hvisits hst hm hoff hget
      exact ih hst₁

theorem doSweepChecked_eq (hs : HeapOk s) : ∀ depth S st h, Swept s S st → s.Reachable (s.target h) →
    doSweepChecked depth st h = plain (doSweep depth st h) := by
  intro depth
  induction depth with
  | zero => exact fun _ _ _ _ _ => rfl
  | succ depth ih =>
    intro S st h hst hm
    rw [doSweepChecked, doSweep]
    refine plain_bind rfl fun a hget => ?_
    obtain ⟨-, rfl⟩ := getMemory_ok hget
    have htarget : st.heap.target h = s.target h := hst.frame.target h
    dsimp only
    rw [htarget]
    by_cases hseen : ((st.heap.create h).mem (s.target h)).seen = true
    · rw [if_pos hseen, if_pos hseen]
      rfl
    · have hoff : s.target h ∉ S := fun hmem => hseen ((hst.cell (s.target h)).seen.mpr hmem)
      rw [if_neg hseen, if_neg hseen]
      refine plain_bind ?_ fun _ _ => rfl
      exact sweepInfosChecked_eq hs (doSweep_visits hs depth _) hm hoff
        (fun st₁ h₁ hst₁ hm₁ _ => ih _ st₁ h₁ hst₁ hm₁) ((hst.create (h := h)).enter hm)

theorem gatherChecked_eq (hs : HeapOk s) : gatherChecked s = plain (gather s) := by
  refine plain_bind rfl fun s₁ hmark => ?_
  have hmarked := mark_coloured hs.gray hs.rootLives hmark
  exact doSweepChecked_eq hs _ _ _ _ (hmarked.swept hs) .refl

theorem collectChecked_eq (hs : HeapOk s) : collectChecked s = plain (collect s) := by
  refine plain_bind rfl fun a hget => ?_
  obtain ⟨-, rfl⟩ := getMemory_ok hget
  dsimp only
  by_cases hlength : (((s.create root).mem (s.target root)).memory.length = 0)
  · rw [if_pos hlength, if_pos hlength]
    rfl
  · rw [if_neg hlength, if_neg hlength]
    exact plain_bind (gatherChecked_eq hs.create) fun st _ => plain_bind rfl fun _ _ => rfl

theorem unrootChecked_eq (hs : HeapOk s) : s.unrootChecked h = plain (s.unroot h) := by
  refine plain_bind rfl fun a hget => ?_
  obtain ⟨-, rfl⟩ := getMemory_ok hget
  dsimp only
  cases hfind : ((s.create root).mem (s.target root)).memory.reverse.find?
      fun info => decide (info.getHeap = some h) with
  | none => rfl
  | some info =>
    have hinfo : info ∈ (s.mem (s.target root)).memory := List.mem_reverse.mp (List.mem_of_find?_eq_some hfind)
    exact if_pos (mem_indexes (hs.indexes _) hinfo)

theorem byRefChecked_eq (hs : HeapOk s) {this other : HandleId} (hother : s.Known other) :
    byRefChecked s this other = plain (byRef s this other) := by
  refine plain_bind rfl fun a hpush => ?_
  exact unrootChecked_eq (hs.pushHeap hother hpush).ok

theorem rerootChecked_eq (hs : HeapOk s) {this other : HandleId} {index : Nat} (hother : s.Known other) :
    rerootChecked s this index other = plain (reroot s this index other) := by
  refine plain_bind rfl fun a hget => ?_
  obtain ⟨-, rfl⟩ := getMemory_ok hget
  dsimp only
  cases hinfo : ((s.create this).mem (s.target this)).memory[index]? with
  | none => rfl
  | some info =>
    dsimp only
    by_cases href : info.ptrIsRef = true
    · rw [if_pos href, if_pos href]
      rfl
    · rw [if_neg href, if_neg href]
      refine plain_bind rfl fun a hpush => ?_
      have hset : HeapOk (Heap.setMem _ _ _) := (hs.create (h := this)).setPtr (object_ne_heap other) hinfo
      exact unrootChecked_eq (hset.pushHeap hother hpush).ok

variable {deallocLimit : Nat} {p : Program} {op : Op} {hist : List Op}

/-- Where the collection of a step starts, the invariant holds. -/
theorem ProgramOk.stepChecked_eq (hp : ProgramOk p) :
    p.stepChecked deallocLimit op = plain (p.step deallocLimit op) := by
  have hbegun : ∀ op, (do
      let (due, q) ← plain (p.begin deallocLimit op)
      if due then return { q with heap := ← collectChecked q.heap } else return q) =
        plain (p.step deallocLimit op) := by
    intro op
    rw [step_eq]
    refine plain_bind rfl fun a hbegin => ?_
    obtain ⟨due, q⟩ := a
    cases due with
    | false => rfl
    | true =>
      have hq := (begin_ok hp hbegin).ok
      exact plain_bind (collectChecked_eq hq.heap) fun _ _ => rfl
  cases op with
  | byRef this other =>
    refine plain_bind rfl fun _ _ => plain_bind rfl fun _ hother => ?_
    exact plain_bind (byRefChecked_eq hp.heap (hp.scope other (variable_ok hother))) fun _ _ => rfl
  | reroot this index other =>
    refine plain_bind rfl fun _ _ => plain_bind rfl fun _ hother => ?_
    exact plain_bind (rerootChecked_eq hp.heap (hp.scope other (variable_ok hother))) fun _ _ => rfl
  | construct => exact hbegun _
  | copy other => exact hbegun _
  | assign this other => exact hbegun _
  | pushValue this v => exact hbegun _
  | getValueAt this index => exact hbegun _
  | setValueAt this index v => exact hbegun _
  | dealloc this => exact hbegun _
  | destroy this => exact hbegun _
  | collect => exact hbegun _

/-- In every state of a run the indexes of a Memory are those of its Infos, and every search of the next
operation for an index finds one. -/
theorem indexes_agree (hrun : ProgramRun deallocLimit (fun _ => True) hist p) :
    (∀ m, (p.heap.mem m).indexes.Perm ((p.heap.mem m).memory.map Info.index) ∧
      (p.heap.mem m).indexes.length = (p.heap.mem m).memory.length) ∧
      ∀ op, p.stepChecked deallocLimit op = plain (p.step deallocLimit op) := by
  have hp := hrun.ok
  refine ⟨fun m => ⟨hp.heap.indexes m, ?_⟩, fun op => hp.stepChecked_eq⟩
  rw [(hp.heap.indexes m).length_eq, List.length_map]

theorem indexes_agree_oneDropped :
    (∀ m, (oneDropped.heap.mem m).indexes.Perm ((oneDropped.heap.mem m).memory.map Info.index) ∧
      (oneDropped.heap.mem m).indexes.length = (oneDropped.heap.mem m).memory.length) ∧
      ∀ op, oneDropped.stepChecked 0 op = plain (oneDropped.step 0 op) := by
  have hrun : ProgramRun 0 (fun _ => True) [.destroy 1, .construct, .construct] oneDropped :=
    run_of_after rfl
  exact indexes_agree hrun

end ManagedObject.Collector
