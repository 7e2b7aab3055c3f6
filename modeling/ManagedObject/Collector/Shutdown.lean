import ManagedObject.Collector.Exact

/-!
# The end of the program

The destructor of the root list deallocates it: a last collection runs, in which the root list is deallocated as
well, and then its Memory is deleted. The collection goes the way of one in which the root list lives: nothing
refers to it, and it holds references only, so nobody looks at the colour of its Memory.
-/

namespace ManagedObject.Collector

open Lib Outcome ManagedObject.Lists

variable {s s' : Heap} {st st' : Sweep} {m r : MemoryId} {h : HandleId} {deallocLimit : Nat} {p : Program}
  {hist : List Op} {target₀ : HandleId → MemoryId}

attribute [ext] Heap

/-- The heap with the root list deallocated, and its Memory white. -/
def Heap.doomed (s : Heap) : Heap :=
  { s with
    handle := fun h => if h = root then { s.handle h with deallocated := true } else s.handle h
    mem := fun m => if m = s.target root then { s.mem m with color := .white } else s.mem m }

theorem doomed_mem (hne : m ≠ s.target root) : s.doomed.mem m = s.mem m := if_neg hne

theorem doomed_mem_root : s.doomed.mem (s.target root) = { s.mem (s.target root) with color := .white } := if_pos rfl

theorem doomed_setMem (hne : m ≠ s.target root) (x : Memory) : (s.setMem m x).doomed = s.doomed.setMem m x := by
  ext n
  · rfl
  · show (if n = s.target root then { (s.setMem m x).mem n with color := .white } else (s.setMem m x).mem n) = _
    rw [setMem_mem, setMem_mem]
    by_cases hn : n = m
    · rw [if_pos hn, if_pos hn, if_neg (hn ▸ hne)]
    · rw [if_neg hn, if_neg hn]
      rfl
  all_goals rfl

theorem doomed_setMem_root (x : Memory) :
    (s.setMem (s.target root) x).doomed = s.doomed.setMem (s.target root) { x with color := .white } := by
  ext n
  · rfl
  · show (if n = s.target root then { (s.setMem (s.target root) x).mem n with color := .white }
      else (s.setMem (s.target root) x).mem n) = _
    rw [setMem_mem, setMem_mem]
    by_cases hn : n = s.target root
    · rw [if_pos hn, if_pos hn, if_pos hn]
    · rw [if_neg hn, if_neg hn, if_neg hn, doomed_mem hn]
  all_goals rfl

/-- The handles lead where they led, and the root list holds references only. -/
structure Rooted (target₀ : HandleId → MemoryId) (s : Heap) : Prop where
  target : s.target = target₀
  refs : ∀ info ∈ (s.mem (target₀ root)).memory, info.ptrIsRef = true

theorem Rooted.create (hs : Rooted target₀ s) : Rooted target₀ (s.create h) where
  target := (funext Frame.create.target).trans hs.target
  refs := hs.refs

theorem Rooted.setMem {x : Memory} (hs : Rooted target₀ s)
    (hx : m = target₀ root → ∀ info ∈ x.memory, info ∈ (s.mem m).memory) : Rooted target₀ (s.setMem m x) where
  target := hs.target
  refs info hinfo := by
    rw [setMem_mem] at hinfo
    split at hinfo
    · rename_i heq
      exact hs.refs info (heq ▸ hx heq.symm info hinfo)
    · exact hs.refs info hinfo

def Sweep.doomed (st : Sweep) : Sweep := { st with heap := st.heap.doomed }

/-- The sweep is below the root list, whose Memory is marked as seen. -/
structure Below (target₀ : HandleId → MemoryId) (st st' : Sweep) : Prop where
  doomed : st' = st.doomed
  rooted : Rooted target₀ st.heap
  seen : (st.heap.mem (target₀ root)).seen = true

theorem Below.lists (hst : Below target₀ st st') : st'.list = st.list ∧ st'.memoryList = st.memoryList := by
  rw [hst.doomed]
  exact ⟨rfl, rfl⟩

theorem Below.mem (hst : Below target₀ st st') (hm : m ≠ target₀ root) : st'.heap.mem m = st.heap.mem m := by
  rw [hst.doomed]
  exact doomed_mem (by rwa [hst.rooted.target])

theorem Below.setMem {list list' : List Info} {memoryList memoryList' : List MemoryId} (hst : Below target₀ st st')
    (hm : m ≠ target₀ root) (x : Memory) (hlist : list' = list) (hmemoryList : memoryList' = memoryList) :
    Below target₀ ⟨st.heap.setMem m x, list, memoryList⟩ ⟨st'.heap.setMem m x, list', memoryList'⟩ where
  doomed := by
    rw [hst.doomed, Sweep.doomed, Sweep.doomed, doomed_setMem, hlist, hmemoryList]
    rwa [hst.rooted.target]
  rooted := hst.rooted.setMem fun heq => absurd heq hm
  seen := by
    rw [setMem_mem_of_ne hm.symm]
    exact hst.seen

theorem doomed_remove {i : Nat} {info : Info} : st.doomed.remove m i info = (st.remove m i info).doomed := by
  have hheap : (st.doomed.remove m i info).heap = (st.remove m i info).heap.doomed := by
    show st.heap.doomed.setMem m _ = (st.heap.setMem m _).doomed
    by_cases hm : m = st.heap.target root
    · subst hm
      rw [doomed_setMem_root]
      exact congrArg _ (by rw [Sweep.doomed, doomed_mem_root])
    · rw [doomed_setMem hm]
      exact congrArg _ (by rw [Sweep.doomed, doomed_mem hm])
  exact congrArg (fun heap => Sweep.mk heap (st.list ++ [info]) st.memoryList) hheap

theorem Below.remove {i : Nat} {info : Info} (hst : Below target₀ st st') :
    Below target₀ (st.remove m i info) (st'.remove m i info) where
  doomed := by rw [hst.doomed, doomed_remove]
  rooted := hst.rooted.setMem fun _ x hx => List.mem_of_mem_eraseIdx hx
  seen := by
    show ((st.heap.setMem m _).mem _).seen = true
    rw [setMem_mem]
    split
    · rename_i heq
      exact heq ▸ hst.seen
    · exact hst.seen

/-- An Info is in the destroy lists of the past, or its value is in a Memory. -/
def Heap.Accounts (s : Heap) (id : Nat) : Prop := id ∈ s.destroyed.map Info.id ∨ s.Stores id

theorem Cleaned.accounts (hcleaned : Cleaned s s') {id : Nat} (hid : s.Accounts id) : s'.Accounts id :=
  hid.elim (fun hgone => .inl (hcleaned.gone hgone)) hcleaned.stores

theorem SameHandles.accounts (hsame : SameHandles s s') {id : Nat} (hid : s.Accounts id) : s'.Accounts id := by
  rw [Heap.Accounts, hsame.destroyed]
  exact hid.imp_right hsame.stores

theorem ScopeEnded.accounts (hended : ScopeEnded s h s') {id : Nat} (hid : s.Accounts id) : s'.Accounts id := by
  rw [Heap.Accounts, hended.destroyed]
  refine hid.imp_right (KeepsValues.stores fun m info hinfo _ => ?_)
  rwa [hended.memory]

theorem Advances.accounts {q : Program} {op : Op} {due : Bool} (h : Advances deallocLimit p op due q) {id : Nat}
    (hid : p.heap.Accounts id) : q.heap.Accounts id := by
  cases h with
  | makes hmade => exact hmade.same.accounts hid
  | uses _ hsame => exact hsame.accounts hid
  | ends _ hended => exact hended.accounts hid
  | collects => exact hid

theorem Steps.accounts {p' : Program} {op : Op} (h : Steps deallocLimit p op p') {id : Nat}
    (hid : p.heap.Accounts id) : p'.heap.Accounts id := by
  cases h with
  | quiet _ hadvances => exact hadvances.accounts hid
  | collects _ hadvances hcleaned => exact hcleaned.accounts (hadvances.accounts hid)

end ManagedObject.Collector
