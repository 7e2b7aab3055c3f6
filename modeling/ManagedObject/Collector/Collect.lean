import ManagedObject.Collector.Complete

/-!
# A collection keeps the invariant

The depth bounds of a collection are never reached, and the heap it leaves satisfies the invariant
again, whatever was destroyed.
-/

namespace ManagedObject.Collector

open Outcome ManagedObject.Lists

variable {s s' : Heap} {st st' : Sweep} {S : List MemoryId} {m r : MemoryId} {info : Info}
  {h : HandleId} {i : Nat}

/-! ### The depth of a sweep -/

theorem getMemory_meets : Meets (s.getMemory h) (· ≠ .depth) fun r => r = (s.target h, s.create h) := by
  cases hcheck : s.check h with
  | error f =>
    rw [getMemory_error hcheck]
    exact fun heq => check_ne_depth (heq ▸ hcheck)
  | ok _ =>
    rw [getMemory_eq hcheck]
    exact rfl

theorem destroyRemaining_meets : ∀ {n st}, Meets (destroyRemaining r n st) (· ≠ .depth) fun _ => True := by
  intro n
  induction n with
  | zero => exact trivial
  | succ n ih =>
    intro st
    rw [destroyRemaining]
    dsimp only
    split
    · exact trivial
    · split
      · exact fun h => by cases h
      · split
        · exact ih
        · exact fun h => by cases h

theorem freeMemory_meets : Meets (freeMemory r st) (· ≠ .depth) fun _ => True := by
  refine Meets.bind destroyRemaining_meets fun st _ => ?_
  split <;> exact trivial

theorem sweepInfo_meets {visit : Sweep → HandleId → Except Fault Sweep} (hst : Swept s S st)
    (hm : s.Reachable m) (hinfo : info ∈ (st.heap.mem m).memory)
    (hvisit : ∀ h, s.Reachable (s.target h) → s.target h ∉ S →
      Meets (visit (st.create h) h) (· ≠ .depth) fun _ => True) :
    Meets (sweepInfo visit m i info st) (· ≠ .depth) fun _ => True := by
  rw [sweepInfo]
  split
  · split <;> exact trivial
  · split
    · exact trivial
    · rename_i ref href
      refine getMemory_meets.bind fun r hr => ?_
      subst hr
      dsimp only
      rw [hst.frame.target]
      split
      · exact trivial
      · rename_i hseen
        have hoff : s.target ref ∉ S := fun hmem => hseen (((hst.cell (s.target ref)).seen).mpr hmem)
        refine (hvisit ref (hm.trans (leads_of_mem hst hinfo href)) hoff).bind fun st₁ _ => ?_
        refine getMemory_meets.bind fun r _ => ?_
        split
        · exact trivial
        · split
          · exact freeMemory_meets.bind fun _ _ => trivial
          · exact trivial

theorem sweepInfos_meets {visit : Sweep → HandleId → Except Fault Sweep} (hs : HeapOk s)
    (hvisits : Visits s (m :: S) visit) (hm : s.Reachable m) (hoff : m ∉ S)
    (hvisit : ∀ st h, Swept s (m :: S) st → s.Reachable (s.target h) → s.target h ∉ m :: S →
      Meets (visit st h) (· ≠ .depth) fun _ => True) :
    ∀ {i st}, Swept s (m :: S) st → Meets (sweepInfos visit m i st) (· ≠ .depth) fun _ => True := by
  intro i
  induction i with
  | zero => exact fun _ => trivial
  | succ i ih =>
    intro st hst
    rw [sweepInfos]
    split
    · exact fun h => by cases h
    · rename_i info hget
      have hinfo := List.mem_of_getElem? hget
      have hmeets := sweepInfo_meets (i := i) hst hm hinfo fun h => hvisit _ h hst.create
      cases hround : sweepInfo visit m i info st with
      | error f =>
        rw [hround] at hmeets
        exact hmeets
      | ok st₁ =>
        obtain ⟨hst₁, -⟩ :=
          (sweepInfo_round hs hvisits hst hm hinfo hround).spec hs hvisits hst hm hoff hget
        exact ih hst₁

theorem doSweep_meets (hs : HeapOk s) : ∀ depth S st h, Swept s S st → s.Reachable (s.target h) →
    Dfs.left (List.range s.nextMemory) S < depth →
      Meets (doSweep depth st h) (· ≠ .depth) fun _ => True := by
  intro depth
  induction depth with
  | zero =>
    intro S st h _ _ hdepth
    exact absurd hdepth (Nat.not_lt_zero _)
  | succ depth ih =>
    intro S st h hst hm hdepth
    rw [doSweep]
    refine getMemory_meets.bind fun r hr => ?_
    subst hr
    dsimp only
    rw [hst.frame.target]
    split
    · exact trivial
    · rename_i hseen
      have hoff : s.target h ∉ S := fun hmem => hseen (((hst.cell (s.target h)).seen).mpr hmem)
      have hless : Dfs.left (List.range s.nextMemory) (s.target h :: S) <
          Dfs.left (List.range s.nextMemory) S := Dfs.left_cons (List.mem_range.mpr (hs.target h)) hoff
      refine Meets.bind (sweepInfos_meets hs (doSweep_visits hs depth _) hm hoff ?_
        (hst.create.enter hm)) fun _ _ => trivial
      intro st₁ h₁ hst₁ hm₁ _
      exact ih _ _ _ hst₁ hm₁ (by omega)

theorem Coloured.sweep_meets {s₁ : Heap} (hs : HeapOk s) (hmarked : Coloured s s₁) :
    Meets (doSweep (s₁.nextMemory + 1) ⟨s₁, [], []⟩ root) (· ≠ .depth) fun _ => True := by
  refine doSweep_meets hs _ [] _ _ (hmarked.swept hs) .refl ?_
  have hleft : Dfs.left (List.range s.nextMemory) [] ≤ _ := List.countP_le_length
  rw [List.length_range] at hleft
  rw [hmarked.frame.nextMemory]
  exact Nat.lt_succ_of_le hleft

/-- The depth bounds of a collection are never reached. -/
theorem gather_meets (hs : HeapOk s) : Meets (gather s) (· ≠ .depth) fun _ => True := by
  rw [gather]
  cases hmark : mark (s.nextMemory + 1) s root with
  | error f => exact fun heq => mark_ne_depth hs.gray hs.target (heq ▸ hmark)
  | ok s₁ => exact (mark_coloured hs.gray hs.rootLives hmark).sweep_meets hs

/-! ### The heap after a collection -/

theorem Coloured.not_destroyed {s₁ : Heap} (hmarked : Coloured s s₁) (hm : s.Reachable m) :
    m ∉ s.destroyedMemory := by
  cases hm with
  | refl => exact (check_ok hmarked.checkRoot).2
  | tail hpath hedge =>
    obtain ⟨h, hh, rfl⟩ := hedge
    exact (check_ok (hmarked.check _ hpath h hh)).2

theorem Gathered.id_fresh (hs : HeapOk s) (hgathered : Gathered s st) :
    ∀ i ∈ st.list.map Info.id, i < s.nextInfo ∧ i ∉ s.destroyed.map Info.id := by
  intro i hi
  obtain ⟨info, hinfo, rfl⟩ := List.mem_map.mp hi
  obtain ⟨m, -, horig, -⟩ := hgathered.swept.queued info hinfo
  exact hs.fresh m _ (List.mem_map_of_mem horig)

theorem Gathered.ids (hgathered : Gathered s st) (m : MemoryId) :
    (st.execute.ids m).Sublist (s.ids m) := ((hgathered.swept.cell m).sub).map _

theorem Gathered.refs (hgathered : Gathered s st) (m : MemoryId) :
    (st.execute.refs m).Sublist (s.refs m) := ((hgathered.swept.cell m).sub).filterMap _

theorem execute_known (hframe : Frame s st.heap) (hh : s.Known h) : st.execute.Known h := by
  refine ⟨hh.1, ?_⟩
  show h < st.heap.nextHandle
  rw [hframe.nextHandle]
  exact hh.2

theorem Gathered.heapOk (hs : HeapOk s) (hgathered : Gathered s st) : HeapOk st.execute := by
  obtain ⟨s₁, hmarked⟩ := hgathered.coloured
  have hframe := hgathered.swept.frame
  have hcell := hgathered.swept.cell
  have hids : st.execute.destroyed.map Info.id = s.destroyed.map Info.id ++ (st.list.map Info.id).reverse := by
    rw [Sweep.execute, hframe.destroyed, List.map_append, List.map_reverse]
  have hnextInfo : st.execute.nextInfo = s.nextInfo := hframe.nextInfo
  constructor
  case target =>
    intro h
    show st.heap.target h < st.heap.nextMemory
    rw [hframe.target, hframe.nextMemory]
    exact hs.target h
  case indexes => exact fun m => (hcell m).indexes
  case late => exact fun m => (hs.late m).sublist ((hcell m).sub.map _)
  case unseen =>
    intro m
    rw [Bool.eq_false_iff]
    exact fun hseen => List.not_mem_nil ((hcell m).seen.mp hseen)
  case gray =>
    intro m hm
    rw [Sweep.execute, hframe.destroyedMemory] at hm
    by_cases hreach : s.Reachable m
    · refine hgathered.gray m hreach fun hdead => hm (List.mem_append_right _ ?_)
      exact List.mem_reverse.mpr ((hgathered.freed m).mpr hdead)
    · rw [Sweep.execute, (hcell m).rest hreach]
      exact hs.gray m fun hmem => hm (List.mem_append_left _ hmem)
  case nodup => exact fun m => (hs.nodup m).sublist (hgathered.ids m)
  case owner =>
    exact fun m m' i hi hi' =>
      hs.owner m m' i ((hgathered.ids m).subset hi) ((hgathered.ids m').subset hi')
  case fresh =>
    intro m i hi
    obtain ⟨hless, hnew⟩ := hs.fresh m i ((hgathered.ids m).subset hi)
    rw [hnextInfo]
    refine ⟨hless, ?_⟩
    rw [hids, List.mem_append, List.mem_reverse]
    obtain ⟨info, hinfo, rfl⟩ := List.mem_map.mp hi
    exact not_or.mpr ⟨hnew, hgathered.swept.id_notMem hs hinfo⟩
  case known =>
    exact fun m h hh => execute_known hframe (hs.known m h ((hgathered.refs m).subset hh))
  case rootLives => exact (hframe.deallocated root).trans hs.rootLives
  case rootKnown =>
    show root < st.heap.nextHandle
    rw [hframe.nextHandle]
    exact hs.rootKnown
  case oldInfo =>
    intro i hi
    rw [hids, List.mem_append, List.mem_reverse] at hi
    rw [hnextInfo]
    rcases hi with hi | hi
    · exact hs.oldInfo i hi
    · exact (hgathered.id_fresh hs i hi).1
  case oldHandle =>
    intro h hh
    refine execute_known hframe ?_
    obtain ⟨info, hinfo, href⟩ := List.mem_filterMap.mp hh
    rw [Sweep.execute, hframe.destroyed, List.mem_append, List.mem_reverse] at hinfo
    rcases hinfo with hinfo | hinfo
    · exact hs.oldHandle h (List.mem_filterMap.mpr ⟨info, hinfo, href⟩)
    · obtain ⟨m, -, horig, -⟩ := hgathered.swept.queued info hinfo
      exact hs.known m h (List.mem_filterMap.mpr ⟨info, horig, href⟩)
  case once =>
    rw [hids, List.nodup_append]
    refine ⟨hs.once, List.nodup_reverse.mpr hgathered.swept.once, fun i hi j hj heq => ?_⟩
    exact (hgathered.id_fresh hs j (List.mem_reverse.mp hj)).2 (heq ▸ hi)
  case onceMemory =>
    rw [Sweep.execute, hframe.destroyedMemory, List.nodup_append]
    refine ⟨hs.onceMemory, List.nodup_reverse.mpr hgathered.swept.freedOnce, fun m hm n hn heq => ?_⟩
    obtain ⟨-, hreach⟩ := hgathered.swept.dead n (List.mem_reverse.mp hn)
    exact hmarked.not_destroyed hreach (heq ▸ hm)

/-! ### `collect` -/

theorem create_create : (s.create h).create h = s.create h := by
  rw [Heap.create, Heap.create, Heap.setHandle, Heap.setHandle]
  congr 1
  funext h'
  dsimp only
  split
  · rw [if_pos rfl]
  · rfl

theorem getMemory_create : (s.create h).getMemory h = s.getMemory h := by
  cases hcheck : s.check h with
  | error f => rw [getMemory_error hcheck, getMemory_error (Frame.create.check.trans hcheck)]
  | ok _ =>
    rw [getMemory_eq hcheck, getMemory_eq (Frame.create.check.trans hcheck), create_create,
      Frame.create.target]

theorem gather_create : gather (s.create root) = gather s := by
  have hmark : mark (s.nextMemory + 1) (s.create root) root = mark (s.nextMemory + 1) s root := by
    rw [mark, mark, getMemory_create]
  rw [gather, gather]
  exact congrArg (· >>= _) hmark

/-- A collection returns at once when the root list is empty. -/
theorem collect_ok (h' : collect s = .ok s') :
    ((s.mem (s.target root)).memory = [] ∧ s' = s.create root) ∨ ∃ st, gather s = .ok st ∧
    s' = (st.execute.create root).setMem (st.heap.target root)
      { st.heap.mem (st.heap.target root) with deallocCount := 0 } := by
  obtain ⟨⟨m, s₁⟩, hget, h'⟩ := bind_eq_ok h'
  obtain ⟨-, heq⟩ := getMemory_ok hget
  cases heq
  dsimp only at h'
  split at h'
  · rename_i hempty
    cases h'
    exact Or.inl ⟨List.length_eq_zero_iff.mp hempty, rfl⟩
  · obtain ⟨st, hgather, h'⟩ := bind_eq_ok h'
    obtain ⟨⟨m, s₂⟩, hget, h'⟩ := bind_eq_ok h'
    obtain ⟨-, heq⟩ := getMemory_ok hget
    cases heq
    cases h'
    exact Or.inr ⟨st, gather_create ▸ hgather, rfl⟩

structure Collected (s s' : Heap) : Prop where
  ok : HeapOk s'
  handles : s'.nextHandle = s.nextHandle
  lists : (s'.destroyed = s.destroyed ∧ s'.destroyedMemory = s.destroyedMemory) ∨
    ∃ st, Gathered s st ∧ s'.destroyed = s.destroyed ++ st.list.reverse ∧
      s'.destroyedMemory = s.destroyedMemory ++ st.memoryList.reverse

theorem Gathered.collected (hs : HeapOk s) (hgathered : Gathered s st) :
    Collected s ((st.execute.create root).setMem (st.heap.target root)
      { st.heap.mem (st.heap.target root) with deallocCount := 0 }) := by
  have hframe := hgathered.swept.frame
  have hok := hgathered.heapOk hs
  refine ⟨(hok.create (h := root)).shrink (hok.indexes _) (List.Sublist.refl _) (hok.unseen _) rfl,
    hframe.nextHandle, Or.inr ⟨st, hgathered, ?_, ?_⟩⟩
  · rw [← hframe.destroyed]
    rfl
  · rw [← hframe.destroyedMemory]
    rfl

theorem HeapOk.collect (hs : HeapOk s) (h' : collect s = .ok s') : Collected s s' := by
  obtain ⟨-, rfl⟩ | ⟨st, hgather, rfl⟩ := collect_ok h'
  · exact ⟨hs.create, rfl, Or.inl ⟨rfl, rfl⟩⟩
  · exact (gather_ok hs hgather).collected hs

end ManagedObject.Collector
