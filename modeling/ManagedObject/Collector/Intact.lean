import ManagedObject.Collector.Exact

/-!
# Programs that destroy everything once

When every reference leads to a handle and a Memory that exist, marking and sweeping use nothing that was
destroyed. An operation on variables that exist keeps it so, and so does a collection that takes no handle
twice, leaves no reference to what it takes, and drains the Memories that it empties. Then every step of a
program has a defined result, and what its collections destroy is destroyed once.
-/

namespace ManagedObject.Collector

open Lib Outcome ManagedObject.Lists

variable {s s' s₁ : Heap} {st : Sweep} {m : MemoryId} {h this other : HandleId} {x : Handle}
  {index v deallocLimit : Nat} {p p' q : Program} {op : Op} {hist : List Op}

/-- Every reference leads to a handle and a Memory that exist. -/
structure Heap.Intact (s : Heap) : Prop where
  checkRoot : s.check root = .ok ()
  refs : ∀ m, m ∉ s.destroyedMemory → ∀ h ∈ s.refs m, s.check h = .ok ()
  old : ∀ m ∈ s.destroyedMemory, m < s.nextMemory

theorem check_iff : s.check h = .ok () ↔ h ∉ s.destroyedHandles ∧ s.target h ∉ s.destroyedMemory := by
  rw [← isDestroyed_iff, Bool.not_eq_true]
  refine ⟨check_ok, fun ⟨hhandle, hmemory⟩ => ?_⟩
  rw [Heap.check, hhandle]
  exact if_neg hmemory

theorem Heap.Intact.not_destroyed (hs : s.Intact) (hm : s.Reachable m) : m ∉ s.destroyedMemory := by
  induction hm with
  | refl => exact (check_ok hs.checkRoot).2
  | tail _ hedge ih =>
    obtain ⟨h, hh, rfl⟩ := hedge
    exact (check_ok (hs.refs _ ih h hh)).2

theorem Heap.Intact.graph (hs : s.Intact) (hok : HeapOk s) : s.Graph :=
  hok.graph hs.checkRoot fun m hm => hs.refs m (hs.not_destroyed hm)

/-! ### What keeps the references -/

/-- Nothing is destroyed, and every new reference leads to what exists. -/
structure Harmless (s s' : Heap) : Prop where
  destroyedMemory : s'.destroyedMemory = s.destroyedMemory
  nextMemory : s.nextMemory ≤ s'.nextMemory
  check : ∀ h, s.check h = .ok () → s'.check h = .ok ()
  refs : ∀ m, ∀ h ∈ s'.refs m, h ∈ s.refs m ∨ s'.check h = .ok ()

theorem Harmless.refl : Harmless s s := ⟨rfl, Nat.le_refl _, fun _ => id, fun _ _ => .inl⟩

theorem Harmless.trans (h₁ : Harmless s s₁) (h₂ : Harmless s₁ s') : Harmless s s' where
  destroyedMemory := h₂.destroyedMemory.trans h₁.destroyedMemory
  nextMemory := Nat.le_trans h₁.nextMemory h₂.nextMemory
  check h hh := h₂.check h (h₁.check h hh)
  refs m h hh := by
    rcases h₂.refs m h hh with hold | hexists
    · exact (h₁.refs m h hold).imp_right (h₂.check h)
    · exact .inr hexists

theorem Heap.Intact.keep (hs : s.Intact) (hharmless : Harmless s s') : s'.Intact where
  checkRoot := hharmless.check root hs.checkRoot
  refs m hm h hh := by
    rw [hharmless.destroyedMemory] at hm
    exact (hharmless.refs m h hh).elim (fun hold => hharmless.check h (hs.refs m hm h hold)) id
  old m hm := by
    rw [hharmless.destroyedMemory] at hm
    exact Nat.lt_of_lt_of_le (hs.old m hm) hharmless.nextMemory

theorem SameHandles.harmless (hsame : SameHandles s s')
    (hrefs : ∀ m, ∀ h ∈ s'.refs m, h ∈ s.refs m ∨ s.check h = .ok ()) : Harmless s s' where
  destroyedMemory := hsame.destroyedMemory
  nextMemory := Nat.le_of_eq hsame.nextMemory.symm
  check _ hh := hsame.check.trans hh
  refs m h hh := (hrefs m h hh).imp_right hsame.check.trans

theorem Harmless.setHandle (hx : s.check h = .ok () → x.memory ∉ s.destroyedMemory) :
    Harmless s (s.setHandle h x) where
  destroyedMemory := rfl
  nextMemory := Nat.le_refl _
  check h' hh := by
    obtain ⟨hhandle, hmemory⟩ := check_iff.mp hh
    refine check_iff.mpr ⟨hhandle, ?_⟩
    show (if h' = h then x else s.handle h').memory ∉ s.destroyedMemory
    split
    · rename_i heq
      exact hx (heq ▸ hh)
    · exact hmemory
  refs _ _ := .inl

theorem newHandle_harmless (hfresh : s.nextHandle ∉ s.destroyedHandles) (hx : x.memory ∉ s.destroyedMemory) :
    Harmless s (s.newHandle x).2 ∧ (s.newHandle x).2.check s.nextHandle = .ok () := by
  have hset : Harmless s (s.setHandle s.nextHandle x) := .setHandle fun _ => hx
  refine ⟨⟨hset.destroyedMemory, hset.nextMemory, hset.check, hset.refs⟩, check_iff.mpr ⟨hfresh, ?_⟩⟩
  show (if s.nextHandle = s.nextHandle then x else s.handle s.nextHandle).memory ∉ s.destroyedMemory
  rwa [if_pos rfl]

theorem Harmless.newMemory : Harmless s { s with nextMemory := s.nextMemory + 1 } :=
  ⟨rfl, Nat.le_succ _, fun _ => id, fun _ _ => .inl⟩

theorem Heap.Intact.fresh (hs : s.Intact) : s.nextMemory ∉ s.destroyedMemory := fun hm =>
  Nat.lt_irrefl _ (hs.old _ hm)

theorem Heap.Intact.copyHandle {y : Handle} (hs : s.Intact) (hx : x.memory ∉ s.destroyedMemory)
    (h' : s.copyHandle x = (y, s')) : Harmless s s' ∧ y.memory ∉ s'.destroyedMemory := by
  rw [Heap.copyHandle] at h'
  split at h'
  · cases h'
    exact ⟨.refl, hx⟩
  · cases h'
    exact ⟨.newMemory, hs.fresh⟩

theorem HeapOk.fresh_handle (hok : HeapOk s) : s.nextHandle ∉ s.destroyedHandles := fun hh =>
  Nat.lt_irrefl _ (hok.oldHandle _ hh).2

/-- An Info is pushed whose reference, if it is one, leads to what exists. -/
theorem push_harmless (ptr : Ptr) (ptrIsRef : Bool) (hcheck : s.check h = .ok ())
    (hptr : ptrIsRef = true → ∀ other, ptr = .heap other → s.check other = .ok ()) :
    ∃ index s', s.push h ptr ptrIsRef = .ok (index, s') ∧ Harmless s s' := by
  obtain ⟨index, s', hpush, hpushed⟩ := push_pushed ptr ptrIsRef hcheck
  refine ⟨index, s', hpush, hpushed.same.harmless fun m other hother => ?_⟩
  rw [hpushed.refs] at hother
  split at hother
  · refine (List.mem_append.mp hother).imp_right fun hnew => ?_
    rw [Option.mem_toList, Info.getHeap] at hnew
    split at hnew
    · rename_i href hheap
      cases hnew
      exact hptr href other hheap
    · cases hnew
  · exact .inl hother

theorem pushHeap_harmless (hcheck : s.check h = .ok ()) (hother : s.check other = .ok ()) :
    ∃ index s', s.push h (.heap other) true = .ok (index, s') ∧ Harmless s s' := by
  refine push_harmless _ _ hcheck fun _ h' heq => ?_
  rwa [← Ptr.heap.inj heq]

theorem unroot_harmless (hcheck : s.check root = .ok ()) : ∃ s', s.unroot h = .ok s' ∧ Harmless s s' := by
  obtain ⟨s', hunroot, hunrooted⟩ := unroot_unrooted (h := h) hcheck
  exact ⟨s', hunroot, hunrooted.same.harmless fun m _ hh => .inl (((hunrooted.sub m).filterMap _).subset hh)⟩

theorem write_harmless {info : Info} {ptr : Ptr} (hinfo : (s.mem (s.target h)).memory[index]? = some info)
    (hvalue : info.ptrIsRef = false) : Harmless s (s.write h index info ptr) :=
  (write_same hinfo).harmless fun m _ hh => .inl (write_refs hinfo hvalue m ▸ hh)

theorem count_harmless (n : Nat) : Harmless s (s.setMem m { s.mem m with deallocCount := n }) := by
  refine ⟨rfl, Nat.le_refl _, fun _ => id, fun m' h hh => .inl ?_⟩
  rw [refs_setMem] at hh
  split at hh
  · rename_i heq
    exact heq ▸ hh
  · exact hh

theorem create_harmless : Harmless s (s.create h) :=
  (SameHandles.of_frame .create (fun _ => rfl) id).harmless fun _ _ => .inl

/-! ### The operations -/

theorem Heap.Intact.construct_ok (hs : s.Intact) (hok : HeapOk s) :
    ∃ h s', construct s = .ok (h, s') ∧ Harmless s s' := by
  have hmade : Harmless s s.made ∧ s.made.check s.nextHandle = .ok () := by
    obtain ⟨hmade, hnew⟩ := newHandle_harmless (s := { s with nextMemory := s.nextMemory + 1 })
      (x := ⟨s.nextMemory, false, false⟩) hok.fresh_handle hs.fresh
    exact ⟨Harmless.newMemory.trans hmade, hnew⟩
  obtain ⟨index, s', hpush, hpushed⟩ := pushHeap_harmless (hs.keep hmade.1).checkRoot hmade.2
  refine ⟨s.nextHandle, s', ?_, hmade.1.trans hpushed⟩
  show (s.made.push root (.heap s.nextHandle) true >>= fun r => .ok (s.nextHandle, r.2)) = _
  rw [hpush]
  rfl

theorem Heap.Intact.copyConstruct_ok (hs : s.Intact) (hok : HeapOk s) (hother : s.check other = .ok ()) :
    ∃ h s', copyConstruct s other = .ok (h, s') ∧ Harmless s s' := by
  obtain ⟨hhandle, hmemory⟩ := check_ok hother
  rcases hcopy : s.copyHandle (s.handle other) with ⟨x, s₁⟩
  obtain ⟨hcopied, hx⟩ := hs.copyHandle hmemory hcopy
  have hok₁ := (hok.copyHandle (hok.target other) hcopy).1.ok
  obtain ⟨hmade, hnew⟩ := newHandle_harmless hok₁.fresh_handle hx
  have hstart := hcopied.trans hmade
  obtain ⟨index, s', hpush, hpushed⟩ := pushHeap_harmless (hs.keep hstart).checkRoot hnew
  refine ⟨s₁.nextHandle, s', ?_, hstart.trans hpushed⟩
  rw [copyConstruct, hhandle, hcopy]
  show ((s₁.newHandle x).2.push root (.heap s₁.nextHandle) true >>= fun r => .ok (s₁.nextHandle, r.2)) = _
  rw [hpush]
  rfl

theorem Heap.Intact.reassign_ok (hs : s.Intact) (hok : HeapOk s) (hthis : s.check this = .ok ())
    (hother : s.check other = .ok ()) : ∃ old s', reassign s this other = .ok (old, s') ∧
      s'.isDestroyed old = false ∧ Harmless s s' := by
  obtain ⟨hhandle, hmemory⟩ := check_ok hthis
  obtain ⟨hmade, hnew⟩ := newHandle_harmless (x := s.handle this) hok.fresh_handle hmemory
  obtain ⟨index, s₂, hpush, hpushed⟩ := pushHeap_harmless (hs.keep hmade).checkRoot hnew
  have hstart := hmade.trans hpushed
  obtain ⟨hhandle₂, hmemory₂⟩ := check_ok (hstart.check other hother)
  rcases hcopy : s₂.copyHandle (s₂.handle other) with ⟨x, s₃⟩
  obtain ⟨hcopied, hx⟩ := (hs.keep hstart).copyHandle hmemory₂ hcopy
  have hend : Harmless s₂ (s₃.setHandle this x) := hcopied.trans (.setHandle fun _ => hx)
  refine ⟨s.nextHandle, _, ?_, (check_ok (hend.check _ (hpushed.check _ hnew))).1, hstart.trans hend⟩
  rw [reassign, hhandle]
  show ((s.newHandle (s.handle this)).2.push root (.heap s.nextHandle) true >>= fun r => _) = _
  rw [hpush]
  dsimp only [bind, Except.bind]
  rw [hhandle₂, hcopy]
  rfl

theorem ScopeEnded.harmless (hended : ScopeEnded s h s') : Harmless s s' where
  destroyedMemory := hended.destroyedMemory
  nextMemory := Nat.le_of_eq hended.nextMemory.symm
  check h' hh := by
    rwa [check_iff, hended.target, Heap.destroyedHandles, hended.destroyed, hended.destroyedMemory,
      ← Heap.destroyedHandles, ← check_iff]
  refs m h' hh := by
    rw [Heap.refs, hended.memory] at hh
    exact .inl hh

theorem Heap.Intact.release_ok (hs : s.Intact) (deallocLimit : Nat) (hexists : s.isDestroyed h = false) :
    ∃ due s', release deallocLimit s h = .ok (due, s') ∧ Harmless s s' := by
  obtain ⟨s', hrelease, hended⟩ := release_ended deallocLimit hexists hs.checkRoot
  exact ⟨_, s', hrelease, hended.harmless⟩

theorem Heap.Intact.byRef_ok (hs : s.Intact) (hthis : s.check this = .ok ()) (hother : s.check other = .ok ()) :
    ∃ s', byRef s this other = .ok s' ∧ Harmless s s' := by
  obtain ⟨index, s₁, hpush, hpushed⟩ := pushHeap_harmless hthis hother
  obtain ⟨s', hunroot, hunrooted⟩ := unroot_harmless (h := other) (hs.keep hpushed).checkRoot
  refine ⟨s', ?_, hpushed.trans hunrooted⟩
  rw [byRef, hpush]
  exact hunroot

theorem Heap.Intact.reroot_ok (hs : s.Intact) (hthis : s.check this = .ok ()) (hother : s.check other = .ok ())
    (hvalue : s.ValueAt this index) : ∃ s', reroot s this index other = .ok s' ∧ Harmless s s' := by
  obtain ⟨info, hinfo, hptr⟩ := hvalue
  have hwritten : Harmless s (s.write this index info (.object other)) := write_harmless hinfo hptr
  obtain ⟨s', hbyRef, hmoved⟩ :=
    (hs.keep hwritten).byRef_ok (hwritten.check this hthis) (hwritten.check other hother)
  refine ⟨s', ?_, hwritten.trans hmoved⟩
  rw [reroot, getMemory_eq hthis]
  dsimp only [bind, Except.bind]
  rw [create_mem, hinfo]
  dsimp only
  rw [if_neg (Bool.eq_false_iff.mp hptr)]
  exact hbyRef

theorem pushValue_harmless (hthis : s.check this = .ok ()) :
    ∃ s', pushValue s this v = .ok s' ∧ Harmless s s' := by
  obtain ⟨index, s', hpush, hpushed⟩ :=
    push_harmless (.value v) false hthis fun href => by cases href
  refine ⟨s', ?_, hpushed⟩
  rw [pushValue, hpush]
  rfl

theorem getValueAt_harmless (hthis : s.check this = .ok ())
    (hindex : index < (s.mem (s.target this)).memory.length) :
    ∃ ptr s', getValueAt s this index = .ok (ptr, s') ∧ Harmless s s' := by
  rw [getValueAt_eq hthis, List.getElem?_eq_getElem hindex]
  exact ⟨_, _, rfl, create_harmless⟩

theorem setValueAt_harmless (hthis : s.check this = .ok ()) (hvalue : s.ValueAt this index) :
    ∃ s', setValueAt s this index v = .ok s' ∧ Harmless s s' := by
  obtain ⟨info, hinfo, hptr⟩ := hvalue
  refine ⟨s.write this index info (.value v), ?_, write_harmless hinfo hptr⟩
  rw [setValueAt, getMemory_eq hthis]
  dsimp only [bind, Except.bind]
  rw [create_mem, hinfo]
  dsimp only
  rw [if_neg (Bool.eq_false_iff.mp hptr)]
  rfl

/-! ### Programs -/

/-- The variable is in scope, and its handle and Memory exist. -/
structure Program.Holds (p : Program) (h : HandleId) : Prop where
  scope : h ∈ p.scope
  check : p.heap.check h = .ok ()

/-- An operation on variables that exist, at indexes of what they hold. -/
def Op.Fits (p : Program) : Op → Prop
  | .construct | .collect => True
  | .copy other => p.Holds other
  | .assign this other | .byRef this other => p.Holds this ∧ p.Holds other
  | .reroot this index other => (p.Holds this ∧ p.Holds other) ∧ p.heap.ValueAt this index
  | .pushValue this _ => p.Holds this
  | .getValueAt this index => p.Holds this ∧ index < (p.heap.mem (p.heap.target this)).memory.length
  | .setValueAt this index _ => p.Holds this ∧ p.heap.ValueAt this index
  | .dealloc this | .destroy this => this ∈ p.scope ∧ p.heap.isDestroyed this = false

theorem Program.Holds.variable (hh : p.Holds h) : p.variable h = .ok () := variable_eq hh.scope

/-- Such an operation returns, up to its collection. -/
theorem begin_harmless (hp : ProgramOk p) (hs : p.heap.Intact) (deallocLimit : Nat) (hfits : op.Fits p) :
    ∃ due q, p.begin deallocLimit op = .ok (due, q) ∧ Harmless p.heap q.heap := by
  cases op with
  | construct =>
    obtain ⟨h, s', hop, hharmless⟩ := hs.construct_ok hp.heap
    refine ⟨false, ⟨s', h :: p.scope⟩, begin_of_step rfl ?_, hharmless⟩
    rw [Program.step, hop]
    rfl
  | copy other =>
    obtain ⟨h, s', hop, hharmless⟩ := hs.copyConstruct_ok hp.heap hfits.check
    refine ⟨false, ⟨s', h :: p.scope⟩, begin_of_step rfl ?_, hharmless⟩
    rw [Program.step, hfits.variable, ok_bind, hop]
    rfl
  | assign this other =>
    obtain ⟨hthis, hother⟩ := hfits
    by_cases hself : this = other
    · refine ⟨false, p, ?_, .refl⟩
      rw [Program.begin, hthis.variable, hother.variable]
      exact if_pos hself
    · obtain ⟨old, s₁, hop, hold, hharmless⟩ := hs.reassign_ok hp.heap hthis.check hother.check
      obtain ⟨due, s', hrelease, hreleased⟩ := (hs.keep hharmless).release_ok deallocLimit hold
      refine ⟨due, ⟨s', p.scope⟩, ?_, hharmless.trans hreleased⟩
      rw [Program.begin, hthis.variable, hother.variable, ok_bind, ok_bind, if_neg hself, hop, ok_bind]
      dsimp only
      rw [hrelease]
      rfl
  | byRef this other =>
    obtain ⟨hthis, hother⟩ := hfits
    obtain ⟨s', hop, hharmless⟩ := hs.byRef_ok hthis.check hother.check
    refine ⟨false, ⟨s', p.scope⟩, begin_of_step rfl ?_, hharmless⟩
    rw [Program.step, hthis.variable, hother.variable, hop]
    rfl
  | reroot this index other =>
    obtain ⟨⟨hthis, hother⟩, hvalue⟩ := hfits
    obtain ⟨s', hop, hharmless⟩ := hs.reroot_ok hthis.check hother.check hvalue
    refine ⟨false, ⟨s', p.scope⟩, begin_of_step rfl ?_, hharmless⟩
    rw [Program.step, hthis.variable, hother.variable, hop]
    rfl
  | pushValue this v =>
    obtain ⟨s', hop, hharmless⟩ := pushValue_harmless (v := v) hfits.check
    refine ⟨false, ⟨s', p.scope⟩, begin_of_step rfl ?_, hharmless⟩
    rw [Program.step, hfits.variable, hop]
    rfl
  | getValueAt this index =>
    obtain ⟨hthis, hindex⟩ := hfits
    obtain ⟨ptr, s', hop, hharmless⟩ := getValueAt_harmless hthis.check hindex
    refine ⟨false, ⟨s', p.scope⟩, begin_of_step rfl ?_, hharmless⟩
    rw [Program.step, hthis.variable, hop]
    rfl
  | setValueAt this index v =>
    obtain ⟨hthis, hvalue⟩ := hfits
    obtain ⟨s', hop, hharmless⟩ := setValueAt_harmless (v := v) hthis.check hvalue
    refine ⟨false, ⟨s', p.scope⟩, begin_of_step rfl ?_, hharmless⟩
    rw [Program.step, hthis.variable, hop]
    rfl
  | dealloc this =>
    obtain ⟨hthis, hexists⟩ := hfits
    obtain ⟨due, s', hrelease, hharmless⟩ := hs.release_ok deallocLimit hexists
    refine ⟨due, ⟨s', p.scope⟩, ?_, hharmless⟩
    rw [Program.begin, variable_eq hthis, hrelease]
    rfl
  | destroy this =>
    obtain ⟨hthis, hexists⟩ := hfits
    obtain ⟨due, s', hrelease, hharmless⟩ := hs.release_ok deallocLimit hexists
    refine ⟨due, ⟨s', p.scope.erase this⟩, ?_, hharmless⟩
    rw [Program.begin, variable_eq hthis, hrelease]
    rfl
  | collect => exact ⟨true, p, rfl, .refl⟩

/-! ### Collections -/

/-- The collection takes no handle twice, leaves no reference to what it takes, and drains the Memories that
it empties. -/
structure Heap.Separate (s : Heap) : Prop where
  unshared : s.Unshared
  closable : Closable s
  drains : s.Drains

theorem Gathered.intact (hs : s.Intact) (hok : HeapOk s) (hseparate : s.Separate) (hgathered : Gathered s st) :
    st.execute.Intact := by
  have hframe := hgathered.swept.frame
  have hlist : st.execute.destroyedHandles = s.destroyedHandles ++ st.handles.reverse := by
    rw [Heap.destroyedHandles, Sweep.execute, hframe.destroyed, List.filterMap_append, List.filterMap_reverse]
    rfl
  have hfreed : st.execute.destroyedMemory = s.destroyedMemory ++ st.memoryList.reverse := by
    rw [Sweep.execute, hframe.destroyedMemory]
  have hcheck : ∀ h, s.check h = .ok () → h ∉ st.handles → s.target h ∉ st.memoryList →
      st.execute.check h = .ok () := by
    intro h hh hhandle hmemory
    obtain ⟨holdHandle, holdMemory⟩ := check_iff.mp hh
    rw [check_iff, hlist, hfreed, List.mem_append, List.mem_reverse, List.mem_append, List.mem_reverse]
    exact ⟨not_or.mpr ⟨holdHandle, hhandle⟩, (hframe.target h).symm ▸ not_or.mpr ⟨holdMemory, hmemory⟩⟩
  constructor
  · refine hcheck root hs.checkRoot (fun hqueued => ?_) fun hmem => hgathered.rootLives ((hgathered.freed _).mp hmem)
    obtain ⟨m, -, href, -⟩ := hgathered.handle_ref hqueued
    exact (hok.known m root href).1 rfl
  · intro m hm h hh
    rw [hfreed, List.mem_append, List.mem_reverse, not_or] at hm
    have hold := hs.refs m hm.1 h ((hgathered.refs m).subset hh)
    obtain ⟨hhandle, hmemory⟩ := hgathered.refsClosed hseparate.closable m hm.1 hm.2 h hh
    exact hcheck h hold hhandle hmemory
  · intro m hm
    show m < st.heap.nextMemory
    rw [hframe.nextMemory]
    rw [hfreed, List.mem_append, List.mem_reverse] at hm
    rcases hm with hm | hm
    · exact hs.old m hm
    · obtain ⟨-, hreach⟩ := hgathered.swept.dead m hm
      cases hreach with
      | refl => exact hok.target root
      | tail _ hedge =>
        obtain ⟨h, -, rfl⟩ := hedge
        exact hok.target h

theorem Heap.Intact.collect_ok (hs : s.Intact) (hok : HeapOk s) (hseparate : s.Separate) :
    ∃ s', collect s = .ok s' ∧ s'.Intact ∧ (s.destroyedHandles.Nodup → s'.destroyedHandles.Nodup) := by
  by_cases hempty : (s.mem (s.target root)).memory = []
  · refine ⟨s.create root, ?_, hs.keep create_harmless, id⟩
    rw [collect, getMemory_eq hs.checkRoot]
    exact if_pos (by rw [create_mem, hempty]; rfl)
  · obtain ⟨st, hgather⟩ := (hs.graph hok).gather hseparate.drains
    have hgathered := gather_ok hok hgather
    have hintact := hgathered.intact hs hok hseparate
    have hcollected := hgathered.collected hok
    have hcollect : collect s = .ok ((st.execute.create root).setMem (st.heap.target root)
        { st.heap.mem (st.heap.target root) with deallocCount := 0 }) := by
      rw [collect, getMemory_eq hs.checkRoot, ok_bind]
      dsimp only
      rw [create_mem, if_neg (by rwa [List.length_eq_zero_iff]), gather_create, hgather, ok_bind,
        getMemory_eq hintact.checkRoot]
      rfl
    refine ⟨_, hcollect, hintact.keep ?_, (hok.collect hcollect).nodup hseparate.unshared⟩
    exact (create_harmless (h := root)).trans (count_harmless (m := st.heap.target root) 0)

/-- An operation on what exists, whose collection takes apart a heap that comes apart cleanly. -/
structure SafeStep (deallocLimit : Nat) (p : Program) (op : Op) (p' : Program) : Prop where
  fits : op.Fits p
  step : Step deallocLimit (fun q => q.heap.Separate) p op p'

/-- Everything exists that is referred to, and no handle was destroyed twice. -/
structure Program.Sound (p : Program) : Prop where
  ok : ProgramOk p
  intact : p.heap.Intact
  once : p.heap.destroyedHandles.Nodup

/-- Every such step has a result. -/
theorem Program.Sound.step (hp : p.Sound) (hfits : op.Fits p)
    (hseparate : ∀ q, p.begin deallocLimit op = .ok (true, q) → q.heap.Separate) :
    ∃ p', p.step deallocLimit op = .ok p' ∧ p'.Sound := by
  obtain ⟨due, q, hbegin, hharmless⟩ := begin_harmless hp.ok hp.intact deallocLimit hfits
  have hbegun := begin_ok hp.ok hbegin
  have hq : q.heap.Intact := hp.intact.keep hharmless
  have honce : q.heap.destroyedHandles.Nodup := by
    rw [Heap.destroyedHandles, hbegun.next.destroyed]
    exact hp.once
  cases due with
  | false =>
    refine ⟨q, ?_, hbegun.ok, hq, honce⟩
    rw [step_eq, hbegin]
    rfl
  | true =>
    obtain ⟨s', hcollect, hintact, hnodup⟩ := hq.collect_ok hbegun.ok.heap (hseparate q hbegin)
    have hend : q.collect = .ok ⟨s', q.scope⟩ := by
      rw [Program.collect, hcollect]
      rfl
    refine ⟨⟨s', q.scope⟩, ?_, (hbegun.ok.collect hend).1, hintact, hnodup honce⟩
    rw [step_eq, hbegin]
    exact hend

theorem Program.Sound.next (hp : p.Sound) (hstep : SafeStep deallocLimit p op p') : p'.Sound := by
  obtain ⟨p₁, hstep₁, hp₁⟩ := hp.step hstep.fits hstep.step.2
  rw [hstep.step.1] at hstep₁
  cases hstep₁
  exact hp₁

/-! ### Programs in which every object has one owner -/

theorem Heap.Owned.separate (hs : s.Owned) : s.Separate where
  unshared := hs.unshared
  closable := by
    constructor
    · intro m _ hlives h hh _
      have hm : s.Reachable m := hs.placed m (ne_nil_of_refs hh)
      obtain ⟨h₀, hh₀, rfl, -⟩ := hs.exists_handle hm
      have hlive : (s.handle h₀).deallocated = false := by
        rw [← Bool.not_eq_true, ← hs.deadFirst_iff hh₀ hm]
        exact hlives
      exact (hs.firm hh₀ hm hlive).reachableOutside _
    · intro m _ hlives h hh n hdead hh'
      exact absurd (hs.owner m n h hh hh' ▸ hdead) hlives
  drains := hs.drains

theorem Program.Tidy.holds (hp : p.Tidy) (hh : h ∈ p.scope) : p.Holds h :=
  ⟨hh, hp.owned.alive_check ((hp.scope h).mp hh)⟩

theorem Program.Tidy.holds_of_canOwn (hp : p.Tidy) (hown : p.heap.CanOwn this other) :
    p.Holds this ∧ p.Holds other :=
  ⟨hp.holds ((hp.scope this).mpr hown.owner), hp.holds ((hp.scope other).mpr hown.owned)⟩

theorem Program.Tidy.fits (hp : p.Tidy) (hop : op.Disciplined p) : op.Fits p := by
  cases op with
  | construct => trivial
  | copy => exact hop.elim
  | dealloc => exact hop.elim
  | assign this other =>
    obtain ⟨hthis, rfl⟩ := hop
    exact ⟨hp.holds hthis, hp.holds hthis⟩
  | byRef this other => exact hp.holds_of_canOwn hop
  | reroot this index other => exact ⟨hp.holds_of_canOwn hop.1, hop.2⟩
  | pushValue this v => exact hp.holds hop
  | getValueAt this index => exact ⟨hp.holds hop.1, hop.2⟩
  | setValueAt this index v => exact ⟨hp.holds hop.1, hop.2⟩
  | destroy this => exact ⟨hop.1, (check_ok (hp.holds hop.1).check).1⟩
  | collect => trivial

theorem Program.Tidy.safe (hp : p.Tidy) (hstep : DisciplinedStep deallocLimit hist p op p') :
    SafeStep deallocLimit p op p' := by
  refine ⟨hp.fits hstep.1, hstep.2, fun q hbegin => ?_⟩
  obtain ⟨due, q', hbegin', hq, -⟩ := hp.begin deallocLimit hstep.1
  rw [hbegin] at hbegin'
  cases hbegin'
  exact hq.owned.separate

theorem DisciplinedRun.safe (hrun : DisciplinedRun deallocLimit hist p) :
    Run (fun _ => SafeStep deallocLimit) .start hist p := by
  refine (hrun.invariant (fun hist p => p.Tidy ∧ Run (fun _ => SafeStep deallocLimit) .start hist p)
    ⟨start_tidy, .start⟩ ?_).2
  intro hist p op p' hp hstep
  exact ⟨(hp.1.steps hstep).1, hp.2.next (hp.1.safe hstep)⟩

/-! ### Destroyed once -/

end ManagedObject.Collector
