import ManagedObject.Collector.Liveness

/-!
# Deallocated handles that stay

A collection takes a reference with the Memory that it leads to. So a handle that was deallocated is
taken off a live Memory exactly when its own Memory goes, which depends on the other handles that
share it.
-/

namespace ManagedObject.Collector

open Lib

variable {s s' : Heap} {st : Sweep} {m : MemoryId} {h : HandleId} {deallocLimit : Nat} {hist : List Op}
  {p' q : Program}

/-- No live Memory, the root list included, refers to a handle that was deallocated. -/
def Reclaimed (s : Heap) : Prop := ∀ m, s.Live m → ∀ h ∈ s.refs m, (s.handle h).deallocated = false

/-- A path of handles that were not deallocated leads to the Memory, over Memories that the search reaches
through such handles first. -/
def Heap.Firm (s : Heap) (m : MemoryId) : Prop :=
  Relation.ReflTransGen (fun m n => s.LiveEdge m n ∧ ¬ s.DeadFirst n) (s.target root) m

/-- Where such a Memory refers to a deallocated handle, the Memory of the handle is first reached through
a deallocated one as well. -/
def Reclaimable (s : Heap) : Prop :=
  ∀ m, s.Firm m → ∀ h ∈ s.refs m, (s.handle h).deallocated = true → s.DeadFirst (s.target h)

theorem Heap.Firm.reachable (hm : s.Firm m) : s.Reachable m :=
  Relation.ReflTransGen.mono (fun _ _ ⟨⟨h, hh, _, htarget⟩, _⟩ => ⟨h, hh, htarget⟩) _ _ hm

theorem Heap.Firm.reachableOutside (hm : s.Firm m) (t : MemoryId) : s.ReachableOutside t m :=
  Relation.ReflTransGen.mono
    (fun _ _ ⟨⟨h, hh, _, htarget⟩, hlives⟩ => ⟨⟨h, hh, htarget⟩, fun hdead => hlives hdead.1⟩) _ _ hm

theorem Gathered.rootLives (hgathered : Gathered s st) : ¬ s.DeadFirst (s.target root) := by
  obtain ⟨s₁, hmarked⟩ := hgathered.coloured
  exact hmarked.rootLives

theorem Gathered.firm_lives (hgathered : Gathered s st) (hm : s.Firm m) : ¬ s.DeadFirst m := by
  cases hm with
  | refl => exact hgathered.rootLives
  | tail _ hedge => exact hedge.2

/-- A reference between two Memories that are kept stays. -/
theorem Gathered.mem_refs (hs : HeapOk s) (hgathered : Gathered s st) (hm : ¬ s.DeadFirst m)
    (hh : h ∈ s.refs m) (hlives : ¬ s.DeadFirst (s.target h)) : h ∈ st.heap.refs m := by
  obtain ⟨info, hinfo, href⟩ := List.mem_filterMap.mp hh
  rcases hgathered.swept.kept m info hinfo with hkept | hqueued
  · exact List.mem_filterMap.mpr ⟨info, hkept, href⟩
  · exfalso
    obtain ⟨m', -, horig, hdead⟩ := hgathered.queued_ref hqueued href
    obtain ⟨rfl, -⟩ := hs.info_eq hinfo horig rfl
    exact hdead.elim hm hlives

/-- A Memory that is taken holds nothing any more. -/
theorem Gathered.refs_of_dead (hgathered : Gathered s st) (hm : s.DeadFirst m) : st.heap.refs m = [] := by
  rw [Heap.refs, (hgathered.swept.cell m).emptied ((hgathered.freed m).mpr hm)]
  rfl

/-- A heap with the references that a sweep leaves. -/
structure Left (s : Heap) (st : Sweep) (s' : Heap) : Prop where
  refs : ∀ m, s'.refs m = st.heap.refs m
  target : ∀ h, s'.target h = s.target h
  deallocated : ∀ h, (s'.handle h).deallocated = (s.handle h).deallocated

theorem Left.live_of_firm (hs : HeapOk s) (hgathered : Gathered s st) (hleft : Left s st s') (hm : s.Firm m) :
    s'.Live m := by
  induction hm with
  | refl =>
    rw [← hleft.target]
    exact .refl
  | @tail m n hm hedge ih =>
    obtain ⟨⟨h, hh, hlive, rfl⟩, hlives⟩ := hedge
    refine ih.tail ⟨h, ?_, (hleft.deallocated h).trans hlive, hleft.target h⟩
    rw [hleft.refs]
    exact hgathered.mem_refs hs (hgathered.firm_lives hm) hh hlives

/-- What live handles lead to after the collection, they led to before, or it is gone. -/
theorem Left.firm_of_live (hgathered : Gathered s st) (hleft : Left s st s') (hm : s'.Live m) :
    s.Firm m ∨ s.DeadFirst m := by
  induction hm with
  | refl =>
    left
    rw [hleft.target]
    exact .refl
  | @tail m n hm hedge ih =>
    obtain ⟨h, hh, hlive, rfl⟩ := hedge
    rw [hleft.refs] at hh
    rw [hleft.target]
    rcases ih with hfirm | hdead
    · by_cases hlives : s.DeadFirst (s.target h)
      · exact Or.inr hlives
      · have hsub : (st.heap.refs m).Sublist (s.refs m) := (hgathered.swept.cell m).sub.filterMap _
        exact Or.inl (hfirm.tail ⟨⟨h, hsub.subset hh, (hleft.deallocated h).symm.trans hlive, rfl⟩, hlives⟩)
    · rw [hgathered.refs_of_dead hdead] at hh
      cases hh

theorem Left.reclaimed_iff (hs : HeapOk s) (hgathered : Gathered s st) (hleft : Left s st s') :
    Reclaimed s' ↔ Reclaimable s := by
  constructor
  · intro hreclaimed m hm h hh hdealloc
    by_contra hlives
    have hstays : h ∈ s'.refs m := by
      rw [hleft.refs]
      exact hgathered.mem_refs hs (hgathered.firm_lives hm) hh hlives
    have hlive := hreclaimed m (hleft.live_of_firm hs hgathered hm) h hstays
    rw [hleft.deallocated, hdealloc] at hlive
    cases hlive
  · intro hreclaimable m hm h hh
    rw [hleft.refs] at hh
    rw [hleft.deallocated, ← Bool.not_eq_true]
    intro hdealloc
    rcases hleft.firm_of_live hgathered hm with hfirm | hdead
    · have hsub : (st.heap.refs m).Sublist (s.refs m) := (hgathered.swept.cell m).sub.filterMap _
      have htarget := hreclaimable m hfirm h (hsub.subset hh) hdealloc
      -- the sweep has cleaned `m` of what refers to the dead Memory
      have hclean := hgathered.clean _ htarget m (hfirm.reachableOutside _) (hgathered.firm_lives hfirm)
      obtain ⟨info, hinfo, href⟩ := List.mem_filterMap.mp hh
      exact hclean info hinfo h href rfl
    · rw [hgathered.refs_of_dead hdead] at hh
      cases hh

/-- An empty root list leads nowhere. -/
theorem eq_root_of_empty (hroot : s.refs (s.target root) = []) (hm : s.Reachable m) : m = s.target root := by
  apply List.mem_singleton.mp
  apply hm.mem List.mem_cons_self
  intro m hm h hh
  rw [List.mem_singleton.mp hm, hroot] at hh
  cases hh

theorem reclaimed_of_empty (hroot : s.refs (s.target root) = []) : Reclaimed s := by
  intro m hm h hh
  rw [eq_root_of_empty hroot hm.reachable, hroot] at hh
  cases hh

theorem reclaimable_of_empty (hroot : s.refs (s.target root) = []) : Reclaimable s := by
  intro m hm h hh
  rw [eq_root_of_empty hroot hm.reachable, hroot] at hh
  cases hh

/-- The heap after the lists of a sweep have been executed. -/
theorem Gathered.left (hgathered : Gathered s st) {x : Memory}
    (hx : x.memory = (st.heap.mem m).memory) : Left s st ((st.execute.create root).setMem m x) := by
  have hframe := hgathered.swept.frame
  have hcreate : Frame st.execute (st.execute.create root) := .create
  constructor
  · intro m'
    rw [refs_setMem]
    split
    · rename_i heq
      rw [heq, hx]
      rfl
    · rfl
  · exact fun h => (hcreate.target h).trans (hframe.target h)
  · exact fun h => (hcreate.deallocated h).trans (hframe.deallocated h)

theorem reclaimed_collect_iff (hs : HeapOk s) (h' : collect s = .ok s') : Reclaimed s' ↔ Reclaimable s := by
  obtain ⟨hempty, rfl⟩ | ⟨st, hgather, rfl⟩ := collect_ok h'
  · have hroot : s.refs (s.target root) = [] := by
      rw [Heap.refs, hempty]
      rfl
    have hroot' : (s.create root).refs ((s.create root).target root) = [] := by
      rw [Frame.create.target]
      exact hroot
    exact iff_of_true (reclaimed_of_empty hroot') (reclaimable_of_empty hroot)
  · have hgathered := gather_ok hs hgather
    apply Left.reclaimed_iff hs hgathered
    exact hgathered.left rfl

/-- A collection takes every deallocated handle off the live Memories exactly when the Memories of these
handles are first reached through deallocated handles. -/
theorem dead_reclaimed_iff (hcollects : Collects deallocLimit hist q) (h' : q.collect = .ok p') :
    Reclaimed p'.heap ↔ Reclaimable q.heap := by
  obtain ⟨s', hcollect, h'⟩ := Outcome.bind_eq_ok h'
  cases h'
  exact reclaimed_collect_iff hcollects.ok.heap hcollect

theorem dead_reclaimed_oneDropped : ∃ p, oneDropped.collect = .ok p ∧ p.heap.destroyedHandles = [1] ∧
    Reclaimed p.heap := by
  refine ⟨_, rfl, rfl, (dead_reclaimed_iff oneDropped_collects rfl).mpr ?_⟩
  intro m hm h hh hdealloc
  have hroot : m = 0 := by
    by_contra hne
    rw [oneDropped_refs hne] at hh
    cases hh
  subst hroot
  have hdead : ∀ h ∈ oneDropped.heap.refs 0, (oneDropped.heap.handle h).deallocated = true → h = 1 := by decide
  rw [hdead h hh hdealloc]
  exact ⟨1, rfl, rfl⟩

/-- A temporary copy of an object that holds another one. -/
def temporaryCopy : List Op := [.dealloc 3, .copy 1, .byRef 1 2, .construct, .construct]

/-- The handle of the copy stays on the root list, although the copy is gone. -/
theorem dead_not_reclaimed : ∃ q p, Collects 10 temporaryCopy q ∧ q.collect = .ok p ∧
    p.heap.refs 0 = [1, 3] ∧ (p.heap.handle 3).deallocated = true ∧ ¬ Reclaimed p.heap := by
  refine ⟨_, _, .of_after rfl, rfl, by decide, rfl, fun hreclaimed => ?_⟩
  have hlive := hreclaimed 0 .refl 3 (by decide)
  exact absurd hlive (by decide)

end ManagedObject.Collector
