import ManagedObject.Collector.Runs

/-!
# What a collection takes and what it leaves

A Memory is live if a path of handles that were not deallocated leads to it. A collection decides
otherwise: it takes the Memories whose first handle, in the order of the search from the root list, was
deallocated. Where the two agree a collection takes no live Memory, and where they differ it does; the
same goes for the garbage that it misses.
-/

namespace ManagedObject.Collector

open Lib

variable {s : Heap} {st : Sweep} {m : MemoryId} {deallocLimit : Nat} {hist : List Op} {q : Program}

def Heap.LiveEdge (s : Heap) (m n : MemoryId) : Prop :=
  ∃ h ∈ s.refs m, (s.handle h).deallocated = false ∧ s.target h = n

/-- A path of handles that were not deallocated leads to the Memory. -/
def Heap.Live (s : Heap) (m : MemoryId) : Prop := Relation.ReflTransGen s.LiveEdge (s.target root) m

/-- The handle lies on such a path. -/
def Heap.LiveHandle (s : Heap) (h : HandleId) : Prop :=
  ∃ m, s.Live m ∧ h ∈ s.refs m ∧ (s.handle h).deallocated = false

theorem Heap.Live.reachable (hm : s.Live m) : s.Reachable m :=
  Relation.ReflTransGen.mono (fun _ _ ⟨h, hh, _, htarget⟩ => ⟨h, hh, htarget⟩) _ _ hm

/-- Memories that live handles do not lead out of. -/
theorem Heap.Live.mem {l : List MemoryId} (hroot : s.target root ∈ l)
    (hstep : ∀ m ∈ l, ∀ h ∈ s.refs m, (s.handle h).deallocated = false → s.target h ∈ l) (hm : s.Live m) :
    m ∈ l := by
  induction hm with
  | refl => exact hroot
  | tail _ hedge ih =>
    obtain ⟨h, hh, hlive, rfl⟩ := hedge
    exact hstep _ ih h hh hlive

/-- Memories that no reference leads out of. -/
theorem Heap.Reachable.mem {l : List MemoryId} (hroot : s.target root ∈ l)
    (hstep : ∀ m ∈ l, ∀ h ∈ s.refs m, s.target h ∈ l) (hm : s.Reachable m) : m ∈ l := by
  induction hm with
  | refl => exact hroot
  | tail _ hedge ih =>
    obtain ⟨h, hh, rfl⟩ := hedge
    exact hstep _ ih h hh

/-- Nothing live is in the lists of a sweep. -/
structure SparesLive (s : Heap) (st : Sweep) : Prop where
  memory : ∀ m, s.Live m → m ∉ st.memoryList
  handle : ∀ h, s.LiveHandle h → ∀ info ∈ st.list, info.getHeap ≠ some h
  value : ∀ m, s.Live m → ∀ info ∈ (s.mem m).memory, info.ptrIsRef = false → info ∉ st.list

/-- No live Memory is first reached through a deallocated handle, and no Memory that is refers to a
live handle. -/
structure LiveFirst (s : Heap) : Prop where
  memory : ∀ m, s.Live m → ¬ s.DeadFirst m
  handle : ∀ h, s.LiveHandle h → ∀ m, s.DeadFirst m → h ∉ s.refs m

theorem getHeap_value {info : Info} (hvalue : info.ptrIsRef = false) : info.getHeap = none := by
  rw [Info.getHeap, hvalue]

/-- All that a dead Memory holds is queued. -/
theorem Gathered.queued_of_dead (hgathered : Gathered s st) (hdead : s.DeadFirst m) {info : Info}
    (hinfo : info ∈ (s.mem m).memory) : info ∈ st.list := by
  have hempty := (hgathered.swept.cell m).emptied ((hgathered.freed m).mpr hdead)
  refine (hgathered.swept.kept m info hinfo).resolve_left ?_
  rw [hempty]
  exact List.not_mem_nil

/-- A queued reference is held by a dead Memory or refers to one. -/
theorem Gathered.queued_ref (hgathered : Gathered s st) {info : Info} (hinfo : info ∈ st.list)
    {h : HandleId} (href : info.getHeap = some h) : ∃ m, s.Reachable m ∧ info ∈ (s.mem m).memory ∧
      (s.DeadFirst m ∨ s.DeadFirst (s.target h)) := by
  obtain ⟨m, hm, horig, -, hreleased⟩ := hgathered.swept.queued info hinfo
  refine ⟨m, hm, horig, ?_⟩
  rcases hreleased with hfreed | hreleased
  · exact Or.inl ((hgathered.freed m).mp hfreed)
  · rw [href] at hreleased
    exact Or.inr ((hgathered.freed _).mp hreleased)

/-- A value is queued with its Memory only. -/
theorem Gathered.queued_value (hs : HeapOk s) (hgathered : Gathered s st) {info : Info}
    (hinfo : info ∈ (s.mem m).memory) (hvalue : info.ptrIsRef = false) (hqueued : info ∈ st.list) :
    s.DeadFirst m := by
  obtain ⟨m', -, horig, -, hreleased⟩ := hgathered.swept.queued info hqueued
  obtain ⟨rfl, -⟩ := hs.info_eq hinfo horig rfl
  rcases hreleased with hfreed | hreleased
  · exact (hgathered.freed m).mp hfreed
  · rw [getHeap_value hvalue] at hreleased
    exact hreleased

theorem Heap.LiveHandle.target (h : HandleId) (hh : s.LiveHandle h) : s.Live (s.target h) := by
  obtain ⟨m, hm, href, hlive⟩ := hh
  exact hm.tail ⟨h, href, hlive, rfl⟩

theorem Collects.of_after (hafter : Program.after deallocLimit hist = .ok q) :
    Collects deallocLimit hist q := ⟨q, .collect, run_of_after hafter, rfl⟩

/-- Two variables, of which the first has left its scope. -/
def oneDropped : Program :=
  (Program.after 0 [.destroy 1, .construct, .construct]).toOption.getD .start

theorem oneDropped_collects : Collects 0 [.destroy 1, .construct, .construct] oneDropped :=
  .of_after rfl

theorem oneDropped_deadFirst (hdead : oneDropped.heap.DeadFirst m) : m = 1 := by
  obtain ⟨p, hp, rfl, hnull⟩ := deadFirst_of_search rfl hdead
  have hfound : ∀ p ∈ [(2, 2), (1, 1), (0, 0)],
      (oneDropped.heap.handle p.2).deallocated = true → p.1 = 1 := by decide
  exact hfound p hp hnull

theorem oneDropped_refs (hne : m ≠ 0) : oneDropped.heap.refs m = [] := by
  have hmem : oneDropped.heap.mem m = .new := by
    show (if m = 0 then _ else if m = 0 then _ else if m = 0 then _ else Memory.new) = _
    rw [if_neg hne, if_neg hne, if_neg hne]
  rw [Heap.refs, hmem]
  rfl

/-- That program runs on with a collection. -/
theorem oneDropped_run (good : Program → Prop) (hgood : good oneDropped) : ∃ p,
    ProgramRun 0 good [.collect, .destroy 1, .construct, .construct] p ∧ p.scope = [2] ∧
      p.heap.destroyedHandles = [1] := by
  have hrun : ProgramRun 0 good [.destroy 1, .construct, .construct] oneDropped :=
    run_of_after_zero rfl (by decide)
  refine ⟨_, hrun.next ⟨rfl, fun q hq => ?_⟩, rfl, rfl⟩
  cases hq
  exact hgood

/-! ### Soundness -/

/-- A collection spares what is live exactly when the search reaches it through live handles first. -/
theorem live_spared_iff (hcollects : Collects deallocLimit hist q) (hgather : gather q.heap = .ok st) :
    SparesLive q.heap st ↔ LiveFirst q.heap := by
  have hs := hcollects.ok.heap
  have hgathered := gather_ok hs hgather
  constructor
  · intro hspares
    constructor
    · exact fun m hm hdead => hspares.memory m hm ((hgathered.freed m).mpr hdead)
    · intro h hh m hdead href
      obtain ⟨info, hinfo, hget⟩ := List.mem_filterMap.mp href
      exact hspares.handle h hh info (hgathered.queued_of_dead hdead hinfo) hget
  · intro hfirst
    constructor
    · exact fun m hm hfreed => hfirst.memory m hm ((hgathered.freed m).mp hfreed)
    · intro h hh info hinfo hget
      obtain ⟨m, -, horig, hdead | hdead⟩ := hgathered.queued_ref hinfo hget
      · exact hfirst.handle h hh m hdead (List.mem_filterMap.mpr ⟨info, horig, hget⟩)
      · exact hfirst.memory _ hh.target hdead
    · exact fun m hm info hinfo hvalue hqueued =>
        hfirst.memory m hm (hgathered.queued_value hs hinfo hvalue hqueued)

theorem live_spared_oneDropped : ∃ st, gather oneDropped.heap = .ok st ∧ st.memoryList = [1] ∧
    SparesLive oneDropped.heap st := by
  refine ⟨_, rfl, rfl, (live_spared_iff oneDropped_collects rfl).mpr ⟨?_, ?_⟩⟩
  · intro m hm hdead
    have hlive : m ∈ [0, 2] := hm.mem (by decide) (by decide)
    rw [oneDropped_deadFirst hdead] at hlive
    exact absurd hlive (by decide)
  · intro h hh m hdead
    rw [oneDropped_deadFirst hdead]
    exact List.not_mem_nil

/-- A variable with a copy of it, when the variable is set to null. -/
def copiedThenNull : List Op := [.dealloc 1, .copy 1, .pushValue 1 7, .construct]

/-- The copy has the value still, and the collection takes the Memory, the value and the handle. -/
theorem live_not_spared : ∃ q st, Collects 10 copiedThenNull q ∧ gather q.heap = .ok st ∧
    ¬ SparesLive q.heap st := by
  refine ⟨_, _, .of_after rfl, rfl, fun hspares => ?_⟩
  refine hspares.memory 1 (.single ⟨2, by decide, rfl, rfl⟩) (by decide)

/-! ### Completeness -/

/-- A collection frees all garbage exactly when the search reaches it through deallocated handles
first. -/
theorem garbage_freed_iff (hcollects : Collects deallocLimit hist q) (hgather : gather q.heap = .ok st) :
    (∀ m, q.heap.Reachable m → ¬ q.heap.Live m → m ∈ st.memoryList) ↔
      ∀ m, q.heap.Reachable m → ¬ q.heap.Live m → q.heap.DeadFirst m := by
  have hgathered := gather_ok hcollects.ok.heap hgather
  constructor
  · exact fun hfreed m hm hdead => (hgathered.freed m).mp (hfreed m hm hdead)
  · exact fun hfirst m hm hdead => (hgathered.freed m).mpr (hfirst m hm hdead)

theorem garbage_freed_oneDropped : ∃ st, gather oneDropped.heap = .ok st ∧
    ∀ m, oneDropped.heap.Reachable m → ¬ oneDropped.heap.Live m → m ∈ st.memoryList := by
  refine ⟨_, rfl, (garbage_freed_iff oneDropped_collects rfl).mpr ?_⟩
  intro m hm hdead
  have hreach : m ∈ [0, 1, 2] := hm.mem (by decide) (by decide)
  rcases List.mem_cons.mp hreach with rfl | hreach
  · exact absurd .refl hdead
  · rcases List.mem_cons.mp hreach with rfl | hreach
    · exact ⟨1, rfl, rfl⟩
    · rw [List.mem_singleton.mp hreach] at hdead
      exact absurd (.single ⟨2, by decide, rfl, rfl⟩) hdead

/-- A variable that holds another one by reference, when it is set to null. -/
def ownerThenNull : List Op := [.dealloc 1, .byRef 1 2, .construct, .construct]

/-- What only the dead owner refers to is not freed, though nothing live leads to it. -/
theorem garbage_not_freed : ∃ q st, Collects 10 ownerThenNull q ∧ gather q.heap = .ok st ∧
    q.heap.Reachable 2 ∧ ¬ q.heap.Live 2 ∧ 2 ∉ st.memoryList := by
  refine ⟨_, _, .of_after rfl, rfl, ?_, fun hlive => ?_, by decide⟩
  · exact (Relation.ReflTransGen.single ⟨1, by decide, rfl⟩).tail ⟨2, by decide, rfl⟩
  · exact absurd (hlive.mem (l := [0]) (by decide) (by decide)) (by decide)

end ManagedObject.Collector
