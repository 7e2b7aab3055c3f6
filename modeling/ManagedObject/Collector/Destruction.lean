import ManagedObject.Collector.Liveness

/-!
# What is destroyed, and who refers to it

A handle is destroyed with every Info that refers to it and is queued, so it is destroyed twice when two
such Infos share it, it is destroyed under a reference that stays, or under a variable that is still in
scope. For each of the three, a condition on the heap at the start of a collection excludes it.
-/

namespace ManagedObject.Collector

open Lib

variable {s : Heap} {st : Sweep} {m : MemoryId} {h : HandleId} {deallocLimit : Nat} {hist : List Op}
  {p q : Program}

def Sweep.handles (st : Sweep) : List HandleId := st.list.filterMap Info.getHeap

theorem Gathered.handle_ref (hgathered : Gathered s st) (hh : h ∈ st.handles) :
    ∃ m, s.Reachable m ∧ h ∈ s.refs m ∧ (s.DeadFirst m ∨ s.DeadFirst (s.target h)) := by
  obtain ⟨info, hinfo, href⟩ := List.mem_filterMap.mp hh
  obtain ⟨m, hm, horig, hdead⟩ := hgathered.queued_ref hinfo href
  exact ⟨m, hm, List.mem_filterMap.mpr ⟨info, horig, href⟩, hdead⟩

/-- What a sweep queues was not destroyed before. -/
theorem Gathered.handle_fresh (hgathered : Gathered s st) (hh : h ∈ st.handles) :
    h ∉ s.destroyedHandles := by
  obtain ⟨s₁, hmarked⟩ := hgathered.coloured
  obtain ⟨m, hm, href, -⟩ := hgathered.handle_ref hh
  rw [← isDestroyed_iff, (check_ok (hmarked.check m hm h href)).1]
  exact Bool.false_ne_true

theorem Collected.handles_eq {s' : Heap} (hcollected : Collected s s') :
    s'.destroyedHandles = s.destroyedHandles ∨ ∃ st, Gathered s st ∧
      s'.destroyedHandles = s.destroyedHandles ++ st.handles.reverse := by
  rcases hcollected.lists with ⟨hsame, -⟩ | ⟨st, hgathered, hlist, -⟩
  · refine Or.inl ?_
    rw [Heap.destroyedHandles, hsame, Heap.destroyedHandles]
  · refine Or.inr ⟨st, hgathered, ?_⟩
    rw [Heap.destroyedHandles, hlist, List.filterMap_append, List.filterMap_reverse]
    rfl

/-! ### Handles that are shared -/

/-- No two references share a handle, of which the collection is to take both. -/
def Heap.Unshared (s : Heap) : Prop :=
  ∀ m n, s.Reachable m → s.Reachable n → ∀ x ∈ (s.mem m).memory, ∀ y ∈ (s.mem n).memory, x ≠ y →
    ∀ h, x.getHeap = some h → y.getHeap = some h →
      ¬ s.DeadFirst (s.target h) ∧ ¬ (s.DeadFirst m ∧ s.DeadFirst n)

theorem Gathered.handles_nodup (hgathered : Gathered s st) (hunshared : s.Unshared) :
    st.handles.Nodup := by
  rw [Sweep.handles, List.Nodup, List.pairwise_filterMap]
  have honce : st.list.Pairwise fun x y => x.id ≠ y.id := List.pairwise_map.mp hgathered.swept.once
  refine honce.imp_of_mem ?_
  intro x y hx hy hid h href h' href' heq
  subst heq
  obtain ⟨m, hm, hxm, hxdead⟩ := hgathered.queued_ref hx href
  obtain ⟨n, hn, hyn, hydead⟩ := hgathered.queued_ref hy href'
  have hne : x ≠ y := fun heq => hid (congrArg Info.id heq)
  obtain ⟨htarget, howners⟩ := hunshared m n hm hn x hxm y hyn hne h href href'
  exact howners ⟨hxdead.resolve_right htarget, hydead.resolve_right htarget⟩

/-- What a collection destroys, in addition to what was destroyed before, it destroys once. -/
theorem Collected.nodup {s' : Heap} (hcollected : Collected s s') (hunshared : s.Unshared)
    (hnodup : s.destroyedHandles.Nodup) : s'.destroyedHandles.Nodup := by
  rcases hcollected.handles_eq with heq | ⟨st, hgathered, heq⟩
  · rw [heq]
    exact hnodup
  · rw [heq, List.nodup_append]
    refine ⟨hnodup, List.nodup_reverse.mpr (hgathered.handles_nodup hunshared), ?_⟩
    intro h hh h' hh' heq
    exact hgathered.handle_fresh (List.mem_reverse.mp hh') (heq ▸ hh)

/-! ### References that stay -/

/-- Every reference that stays leads to what stays. -/
def RefsClosed (s : Heap) (st : Sweep) : Prop :=
  ∀ m, m ∉ s.destroyedMemory → m ∉ st.memoryList → ∀ h ∈ st.heap.refs m,
    h ∉ st.handles ∧ s.target h ∉ st.memoryList

/-- A kept Memory refers to a dead one only where the search reaches it outside of what the dead one
hides, and it does not share a handle with a dead Memory. -/
structure Closable (s : Heap) : Prop where
  dead : ∀ m, m ∉ s.destroyedMemory → ¬ s.DeadFirst m → ∀ h ∈ s.refs m, s.DeadFirst (s.target h) →
    s.ReachableOutside (s.target h) m
  shared : ∀ m, m ∉ s.destroyedMemory → ¬ s.DeadFirst m → ∀ h ∈ s.refs m, ∀ n, s.DeadFirst n →
    h ∈ s.refs n → s.DeadFirst (s.target h)

theorem Gathered.refsClosed (hgathered : Gathered s st) (hclosable : Closable s) : RefsClosed s st := by
  intro m hm hkept h hh
  have hlives : ¬ s.DeadFirst m := fun hdead => hkept ((hgathered.freed m).mpr hdead)
  have hsub : (st.heap.refs m).Sublist (s.refs m) := (hgathered.swept.cell m).sub.filterMap _
  have hh₀ : h ∈ s.refs m := hsub.subset hh
  have htarget : ¬ s.DeadFirst (s.target h) := by
    intro hdead
    obtain ⟨info, hinfo, href⟩ := List.mem_filterMap.mp hh
    exact hgathered.clean _ hdead m (hclosable.dead m hm hlives h hh₀ hdead) hlives info hinfo h href rfl
  refine ⟨fun hqueued => ?_, fun hfreed => htarget ((hgathered.freed _).mp hfreed)⟩
  obtain ⟨n, -, hn, hdead⟩ := hgathered.handle_ref hqueued
  exact htarget (hclosable.shared m hm hlives h hh₀ n (hdead.resolve_right htarget) hn)

theorem refs_closed (hcollects : Collects deallocLimit hist q) (hgather : gather q.heap = .ok st)
    (hclosable : Closable q.heap) : RefsClosed q.heap st :=
  (gather_ok hcollects.ok.heap hgather).refsClosed hclosable

theorem refs_closed_oneDropped : ∃ st, gather oneDropped.heap = .ok st ∧ st.handles = [1] ∧
    RefsClosed oneDropped.heap st := by
  refine ⟨_, rfl, rfl, refs_closed oneDropped_collects rfl ⟨?_, ?_⟩⟩
  · intro m _ _ h hh hdead
    by_cases hm : m = 0
    · rw [hm]
      exact .refl
    · rw [oneDropped_refs hm] at hh
      cases hh
  · intro m _ _ h _ n hdead hh
    rw [oneDropped_deadFirst hdead, oneDropped_refs (by decide)] at hh
    cases hh

/-- Two objects hold a third one by reference, and the first of them is set to null. -/
def oneOwnerNull : List Op := [.dealloc 1, .byRef 2 3, .byRef 1 3, .construct, .construct, .construct]

/-- The handle that the second one still refers to is destroyed. -/
theorem reference_dangles : ∃ q st, Collects 10 oneOwnerNull q ∧ gather q.heap = .ok st ∧
    ¬ RefsClosed q.heap st := by
  refine ⟨_, _, .of_after rfl, rfl, fun hclosed => ?_⟩
  exact (hclosed 2 (by decide) (by decide) 3 (by decide)).1 (by decide)

/-! ### Variables in scope -/

/-- No collection takes a reference to the handle of a variable that is in scope. -/
def Program.ScopeKept (q : Program) : Prop :=
  ∀ h ∈ q.scope, ∀ m, q.heap.Reachable m → h ∈ q.heap.refs m →
    ¬ q.heap.DeadFirst m ∧ ¬ q.heap.DeadFirst (q.heap.target h)

/-- Then a variable in scope never holds a handle that was destroyed. -/
theorem scope_not_destroyed (hrun : ProgramRun deallocLimit Program.ScopeKept hist p) :
    ∀ h ∈ p.scope, p.heap.isDestroyed h = false := by
  obtain ⟨-, hinv⟩ := hrun.invariant (fun p => ∀ h ∈ p.scope, h ∉ p.heap.destroyedHandles)
    (fun _ hh => by cases hh)
    (fun p q hok hbegun hinv h hh => by
      rw [Heap.destroyedHandles, hbegun.next.destroyed]
      rcases hbegun.scope h hh with hold | hnew
      · exact hinv h hold
      · exact fun hdestroyed => Nat.not_le_of_gt (hok.heap.oldHandle h hdestroyed).2 hnew)
    (fun q p' hkept _ hcollected hscope hinv h hh => by
      rw [hscope] at hh
      rcases hcollected.handles_eq with heq | ⟨st, hgathered, heq⟩
      · rw [heq]
        exact hinv h hh
      · rw [heq, List.mem_append, List.mem_reverse]
        refine not_or.mpr ⟨hinv h hh, fun hqueued => ?_⟩
        obtain ⟨m, hm, href, hdead⟩ := hgathered.handle_ref hqueued
        obtain ⟨howner, htarget⟩ := hkept h hh m hm href
        exact hdead.elim howner htarget)
  intro h hh
  rw [← Bool.not_eq_true, isDestroyed_iff]
  exact hinv h hh

theorem scope_not_destroyed_oneDropped : ∃ p,
    ProgramRun 0 Program.ScopeKept [.collect, .destroy 1, .construct, .construct] p ∧
      p.scope = [2] ∧ p.heap.destroyedHandles = [1] ∧ ∀ h ∈ p.scope, p.heap.isDestroyed h = false := by
  have hkept : oneDropped.ScopeKept := by
    intro h hh m _ href
    have heq : h = 2 := List.mem_singleton.mp hh
    subst heq
    refine ⟨fun hdead => ?_, fun hdead => ?_⟩
    · rw [oneDropped_deadFirst hdead, oneDropped_refs (by decide)] at href
      cases href
    · exact absurd (oneDropped_deadFirst hdead) (by decide)
  obtain ⟨p, hrun, hscope, hhandles⟩ := oneDropped_run _ hkept
  exact ⟨p, hrun, hscope, hhandles, scope_not_destroyed hrun⟩

/-- A variable is set to null, and the next collection destroys the handle that it holds. -/
theorem scope_destroyed : ∃ p, ProgramRun 10 (fun _ => True) [.collect, .dealloc 1, .construct] p ∧
    1 ∈ p.scope ∧ p.heap.isDestroyed 1 = true := ⟨_, run_of_after rfl, by decide, rfl⟩

end ManagedObject.Collector
