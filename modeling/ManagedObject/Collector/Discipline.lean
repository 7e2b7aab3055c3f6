import ManagedObject.Collector.Ownership

/-!
# Programs in which every object has one owner

A program that makes no copies, lets an object be owned by one other object at a time, never by what it owns
itself, and ends the scope of an owner after the scopes of what it owns. Its operations return, and the heap
stays one in which every object has one owner.
-/

namespace ManagedObject.Collector

open Lib Outcome ManagedObject.Lists

variable {s s' s₁ : Heap} {m : MemoryId} {h this other : HandleId} {index v deallocLimit : Nat} {p q : Program}
  {op : Op} {due : Bool}

/-- The counter of `dealloc`, in the Memory of the root list. -/
def Heap.deallocCount (s : Heap) : Nat := (s.mem (s.target root)).deallocCount

/-- A value is in a Memory. The `id` is the one of its Info. -/
def Heap.Stores (s : Heap) (id : Nat) : Prop := ∃ m, ∃ info ∈ (s.mem m).memory, info.id = id ∧ info.ptrIsRef = false

/-- The values of `s` are in the same Memories. -/
def KeepsValues (s s' : Heap) : Prop := ∀ m, ∀ info ∈ (s.mem m).memory, info.ptrIsRef = false → info ∈ (s'.mem m).memory

theorem KeepsValues.stores (hkeeps : KeepsValues s s') {id : Nat} (hid : s.Stores id) : s'.Stores id := by
  obtain ⟨m, info, hinfo, heq, hvalue⟩ := hid
  exact ⟨m, info, hkeeps m info hinfo hvalue, heq, hvalue⟩

/-- The handles stay as they are, but for their Memories having been created, and no value is lost. -/
structure SameHandles (s s' : Heap) : Prop where
  nextHandle : s'.nextHandle = s.nextHandle
  nextMemory : s'.nextMemory = s.nextMemory
  target : ∀ h, s'.target h = s.target h
  deallocated : ∀ h, (s'.handle h).deallocated = (s.handle h).deallocated
  destroyed : s'.destroyed = s.destroyed
  destroyedMemory : s'.destroyedMemory = s.destroyedMemory
  deallocCount : s'.deallocCount = s.deallocCount
  stores : ∀ {id}, s.Stores id → s'.Stores id

theorem SameHandles.trans (h₁ : SameHandles s s₁) (h₂ : SameHandles s₁ s') : SameHandles s s' where
  nextHandle := h₂.nextHandle.trans h₁.nextHandle
  nextMemory := h₂.nextMemory.trans h₁.nextMemory
  target h := (h₂.target h).trans (h₁.target h)
  deallocated h := (h₂.deallocated h).trans (h₁.deallocated h)
  destroyed := h₂.destroyed.trans h₁.destroyed
  destroyedMemory := h₂.destroyedMemory.trans h₁.destroyedMemory
  deallocCount := h₂.deallocCount.trans h₁.deallocCount
  stores hid := h₂.stores (h₁.stores hid)

theorem SameHandles.of_frame (hframe : Frame s s') (hcount : ∀ m, (s'.mem m).deallocCount = (s.mem m).deallocCount)
    (hstores : ∀ {id}, s.Stores id → s'.Stores id) : SameHandles s s' where
  nextHandle := hframe.nextHandle
  nextMemory := hframe.nextMemory
  target := hframe.target
  deallocated := hframe.deallocated
  destroyed := hframe.destroyed
  destroyedMemory := hframe.destroyedMemory
  deallocCount := by rw [Heap.deallocCount, hcount, hframe.target, Heap.deallocCount]
  stores := hstores

theorem SameHandles.check (hsame : SameHandles s s') : s'.check h = s.check h := by
  have htarget : (s'.handle h).memory = (s.handle h).memory := hsame.target h
  rw [Heap.check, Heap.isDestroyed, hsame.destroyed, hsame.destroyedMemory, htarget, Heap.check, Heap.isDestroyed]

theorem SameHandles.known (hsame : SameHandles s s') : s'.Known h ↔ s.Known h := by
  rw [Heap.Known, hsame.nextHandle, Heap.Known]

theorem SameHandles.destroyedHandles (hsame : SameHandles s s') : s'.destroyedHandles = s.destroyedHandles := by
  rw [Heap.destroyedHandles, hsame.destroyed, Heap.destroyedHandles]

/-! ### The steps of the operations -/

structure Pushed (s : Heap) (h : HandleId) (ptr : Ptr) (ptrIsRef : Bool) (s' : Heap) : Prop where
  same : SameHandles s s'
  memory : ∀ m, (s'.mem m).memory = if m = s.target h then (s.mem m).memory ++
    [⟨s.nextInfo, (s.mem m).memory.length, ptr, ptrIsRef⟩] else (s.mem m).memory

theorem push_pushed (ptr : Ptr) (ptrIsRef : Bool) (hcheck : s.check h = .ok ()) :
    ∃ index s', s.push h ptr ptrIsRef = .ok (index, s') ∧ Pushed s h ptr ptrIsRef s' := by
  have hpush : ∃ r, s.push h ptr ptrIsRef = .ok r := by
    rw [Heap.push, getMemory_eq hcheck]
    exact ⟨_, rfl⟩
  obtain ⟨⟨index, s'⟩, hpush⟩ := hpush
  refine ⟨index, s', hpush, ?_⟩
  obtain ⟨-, rfl⟩ := push_ok hpush
  refine ⟨?_, fun m => ?_⟩
  · have hframe : Frame s (s.create h) := .create
    refine ⟨hframe.nextHandle, hframe.nextMemory, hframe.target, hframe.deallocated, hframe.destroyed, hframe.destroyedMemory, ?_,
      KeepsValues.stores fun m info hinfo _ => ?_⟩
    · rw [Heap.deallocCount, Heap.deallocCount]
      show (((s.create h).setMem (s.target h) _).mem ((s.create h).target root)).deallocCount = _
      rw [hframe.target, setMem_mem]
      split
      · rename_i heq
        rw [heq]
      · rfl
    · show info ∈ (((s.create h).setMem (s.target h) _).mem m).memory
      rw [setMem_mem]
      split
      · rename_i heq
        exact List.mem_append_left _ (heq ▸ hinfo)
      · exact hinfo
  · show (((s.create h).setMem (s.target h) _).mem m).memory = _
    rw [setMem_mem]
    split
    · rename_i heq
      rw [heq]
    · rfl

theorem Pushed.refs {ptr : Ptr} {ptrIsRef : Bool} (hpushed : Pushed s h ptr ptrIsRef s') (m : MemoryId) :
    s'.refs m = if m = s.target h then s.refs m ++
      (Info.getHeap ⟨s.nextInfo, (s.mem m).memory.length, ptr, ptrIsRef⟩).toList else s.refs m := by
  rw [Heap.refs, hpushed.memory]
  split
  · rw [List.filterMap_append, Heap.refs]
    congr 1
  · rfl

theorem Pushed.placed {ptr : Ptr} {ptrIsRef : Bool} (hpushed : Pushed s h ptr ptrIsRef s')
    (hm : (s'.mem m).memory ≠ []) : (s.mem m).memory ≠ [] ∨ m = s.target h := by
  rw [hpushed.memory] at hm
  split at hm
  · rename_i heq
    exact .inr heq
  · exact .inl hm

theorem Pushed.pointed {ptr : Ptr} {ptrIsRef : Bool} (hpushed : Pushed s h ptr ptrIsRef s') (hs : s.Pointed)
    (hptr : ptrIsRef = true → ∃ h', ptr = .heap h') (hroot : s.target root = s.target h → ptrIsRef = true) :
    s'.Pointed where
  refs m info hinfo href := by
    rw [hpushed.memory] at hinfo
    split at hinfo
    · rcases List.mem_append.mp hinfo with hinfo | hinfo
      · exact hs.refs m info hinfo href
      · rw [List.mem_singleton.mp hinfo] at href ⊢
        obtain ⟨h', rfl⟩ := hptr href
        dsimp only at href
        subst href
        exact ⟨h', rfl⟩
    · exact hs.refs m info hinfo href
  rootRefs info hinfo := by
    rw [hpushed.same.target, hpushed.memory] at hinfo
    split at hinfo
    · rename_i heq
      rcases List.mem_append.mp hinfo with hinfo | hinfo
      · exact hs.rootRefs info hinfo
      · rw [List.mem_singleton.mp hinfo]
        exact hroot heq
    · exact hs.rootRefs info hinfo

structure Unrooted (s : Heap) (h : HandleId) (s' : Heap) : Prop where
  same : SameHandles s s'
  sub : ∀ m, (s'.mem m).memory.Sublist (s.mem m).memory
  refs : ∀ m, (s.refs m).Nodup → ∀ h', h' ∈ s'.refs m ↔ h' ∈ s.refs m ∧ ¬ (m = s.target root ∧ h' = h)

theorem unroot_unrooted (hcheck : s.check root = .ok ()) : ∃ s', s.unroot h = .ok s' ∧ Unrooted s h s' := by
  have hframe : Frame s (s.create root) := .create
  rw [Heap.unroot, getMemory_eq hcheck]
  dsimp only [bind, Except.bind, pure, Except.pure]
  split
  · rename_i hfind
    refine ⟨_, rfl, .of_frame hframe (fun _ => rfl) id, fun _ => .refl _, fun m _ h' => ?_⟩
    refine iff_self_and.mpr ?_
    rintro hh ⟨rfl, rfl⟩
    obtain ⟨info, hinfo, href⟩ := List.mem_filterMap.mp hh
    exact List.find?_eq_none.mp hfind info (List.mem_reverse.mpr hinfo) (decide_eq_true href)
  · rename_i info hfind
    rw [create_mem] at hfind
    obtain ⟨l₁, l₂, href, hmemory, herase⟩ := eraseLast_of_find? hfind
    rw [decide_eq_true_eq] at href
    refine ⟨_, rfl, .of_frame (hframe.trans (.setMem _)) (fun m => ?_) (KeepsValues.stores fun m x hx hvalue => ?_),
      fun m => ?_, fun m hnodup h' => ?_⟩
    · rw [setMem_mem]
      split
      · rename_i heq
        rw [heq, create_mem]
      · rfl
    · rw [setMem_mem]
      split
      · rename_i heq
        subst heq
        show x ∈ eraseLast (fun info => info.getHeap = some h) (s.mem (s.target root)).memory
        rw [herase]
        rw [hmemory, List.mem_append, List.mem_cons] at hx
        rcases hx with hx | rfl | hx
        · exact List.mem_append_left _ hx
        · rw [getHeap_value hvalue] at href
          cases href
        · exact List.mem_append_right _ hx
      · exact hx
    · rw [setMem_mem]
      split
      · rename_i heq
        rw [heq]
        exact eraseLast_sublist
      · exact .refl _
    · rw [refs_setMem]
      split
      · rename_i heq
        subst heq
        have hrefs : s.refs (s.target root) = l₁.filterMap Info.getHeap ++ h :: l₂.filterMap Info.getHeap := by
          rw [Heap.refs, hmemory, List.filterMap_append, List.filterMap_cons_some href]
        show h' ∈ (eraseLast (fun info => info.getHeap = some h) (s.mem (s.target root)).memory).filterMap _ ↔ _
        rw [herase, List.filterMap_append]
        rw [hrefs, List.nodup_append, List.nodup_cons] at hnodup
        obtain ⟨-, ⟨hafter, -⟩, hbefore⟩ := hnodup
        rw [hrefs, List.mem_append, List.mem_append, List.mem_cons]
        constructor
        · rintro (hh | hh)
          · exact ⟨.inl hh, fun hgone => hbefore h' hh h List.mem_cons_self hgone.2⟩
          · exact ⟨.inr (.inr hh), fun hgone => hafter (hgone.2 ▸ hh)⟩
        · rintro ⟨hh | hh | hh, hkept⟩
          · exact .inl hh
          · exact absurd ⟨rfl, hh⟩ hkept
          · exact .inr hh
      · rename_i hne
        exact (and_iff_left fun hgone => hne hgone.1).symm

/-! ### What the operations keep -/

/-- A heap with the same handles, in which everything that was reachable is reachable. -/
theorem Heap.Owned.of_reachable (hs : s.Owned) (hok : HeapOk s') (hsame : SameHandles s s') (hpointed : s'.Pointed)
    (hnodup : ∀ m, (s'.refs m).Nodup) (howner : ∀ m m', ∀ h ∈ s'.refs m, h ∈ s'.refs m' → m = m')
    (hplaced : ∀ m, (s'.mem m).memory ≠ [] → s.Reachable m) (hpresent : ∀ m, ∀ h ∈ s'.refs m, h ∉ s.destroyedHandles)
    (hinward : ∀ h < s.nextHandle, (s.handle h).deallocated = true →
      ∀ h' ∈ s'.refs (s.target h), (s.handle h').deallocated = true)
    (hreach : ∀ m, s.Reachable m → s'.Reachable m) : s'.Owned where
  ok := hok
  own h hh h' hh' htarget := by
    rw [hsame.nextHandle] at hh hh'
    rw [hsame.target, hsame.target] at htarget
    exact hs.own h hh h' hh' htarget
  nodup := hnodup
  owner := howner
  placed m hm := hreach m (hplaced m hm)
  present m h hh := by
    rw [hsame.destroyedHandles]
    exact hpresent m h hh
  held h hh hexists := by
    rw [hsame.destroyedHandles] at hexists
    rw [hsame.target]
    exact hreach _ (hs.held h (hsame.known.mp hh) hexists)
  inward h hh hdead h' hh' := by
    rw [hsame.nextHandle] at hh
    rw [hsame.deallocated] at hdead ⊢
    rw [hsame.target] at hh'
    exact hinward h hh hdead h' hh'
  dead h hh := by
    rw [hsame.destroyedHandles] at hh
    rw [hsame.deallocated]
    exact hs.dead h hh
  once := by
    rw [hsame.destroyedHandles]
    exact hs.once
  freed m := by
    rw [hsame.destroyedMemory, hsame.destroyedHandles, hs.freed]
    simp only [hsame.target]
  pointed := hpointed

theorem Heap.Owned.of_refs (hs : s.Owned) (hok : HeapOk s') (hsame : SameHandles s s') (hpointed : s'.Pointed)
    (hplaced : ∀ m, (s'.mem m).memory ≠ [] → s.Reachable m) (hrefs : ∀ m, s'.refs m = s.refs m) : s'.Owned := by
  have hrefs' : s'.refs = s.refs := funext hrefs
  have htarget : s'.target = s.target := funext hsame.target
  refine hs.of_reachable hok hsame hpointed ?_ ?_ hplaced ?_ ?_ ?_
  · rw [hrefs']
    exact hs.nodup
  · rw [hrefs']
    exact hs.owner
  · rw [hrefs']
    exact hs.present
  · rw [hrefs']
    exact hs.inward
  · intro m hm
    rw [Heap.Reachable, Heap.Leads, hrefs', htarget]
    exact hm

/-- An object gets another owner, which was not deallocated and which it does not lead to. -/
theorem Heap.Owned.move (hs : s.Owned) (hok : HeapOk s') (hsame : SameHandles s s') (hpointed : s'.Pointed)
    (hplaced : ∀ m, (s'.mem m).memory ≠ [] → s.Reachable m) (hnodup : ∀ m, (s'.refs m).Nodup)
    (hrefs : ∀ m h, h ∈ s'.refs m ↔ h ∈ s.refs m ∧ h ≠ other ∨ m = s.target this ∧ h = other)
    (hthis : this < s.nextHandle) (hlive : (s.handle this).deallocated = false)
    (hreach : s.Reachable (s.target this)) (hother : other ∉ s.destroyedHandles)
    (hout : ¬ s.Leads (s.target other) (s.target this)) : s'.Owned := by
  refine hs.of_reachable hok hsame hpointed hnodup ?_ hplaced ?_ ?_ ?_
  · intro m m' h hh hh'
    rcases (hrefs m h).mp hh with ⟨hh, hne⟩ | ⟨rfl, rfl⟩
    · rcases (hrefs m' h).mp hh' with ⟨hh', -⟩ | ⟨-, rfl⟩
      · exact hs.owner m m' h hh hh'
      · exact absurd rfl hne
    · rcases (hrefs m' h).mp hh' with ⟨-, hne⟩ | ⟨rfl, -⟩
      · exact absurd rfl hne
      · rfl
  · intro m h hh
    rcases (hrefs m h).mp hh with ⟨hh, -⟩ | ⟨rfl, rfl⟩
    · exact hs.present m h hh
    · exact hother
  · intro h hh hdead h' hh'
    rcases (hrefs _ h').mp hh' with ⟨hh', -⟩ | ⟨htarget, -⟩
    · exact hs.inward h hh hdead h' hh'
    · rw [hs.own h hh this hthis htarget, hlive] at hdead
      cases hdead
  · intro m hm
    have htarget : s'.target = s.target := funext hsame.target
    rw [Heap.Reachable, Heap.Leads, htarget]
    refine reach_of_move ?_ hreach hout ?_ hm
    · rintro a b ⟨h, hh, rfl⟩
      by_cases heq : h = other
      · exact .inr (heq ▸ rfl)
      · exact .inl ⟨h, (hrefs a h).mpr (.inl ⟨hh, heq⟩), rfl⟩
    · exact ⟨other, (hrefs _ other).mpr (.inr ⟨rfl, rfl⟩), rfl⟩

/-- The heap with a new handle, which nothing refers to yet. -/
def Heap.made (s : Heap) : Heap :=
  ({ s with nextMemory := s.nextMemory + 1 }.newHandle ⟨s.nextMemory, false, false⟩).2

theorem made_handle : s.made.handle h = if h = s.nextHandle then ⟨s.nextMemory, false, false⟩ else s.handle h := rfl

theorem made_handle_of_lt (hh : h < s.nextHandle) : s.made.handle h = s.handle h := by
  rw [made_handle, if_neg (Nat.ne_of_lt hh)]

theorem made_target_of_lt (hh : h < s.nextHandle) : s.made.target h = s.target h :=
  congrArg Handle.memory (made_handle_of_lt hh)

theorem made_target_self : s.made.target s.nextHandle = s.nextMemory := by
  rw [Heap.target, made_handle, if_pos rfl]

/-- An object has been made, and is on the root list. -/
structure Constructed (s s' : Heap) : Prop where
  same : SameHandles s.made s'
  refs : ∀ m, s'.refs m = if m = s.target root then s.refs m ++ [s.nextHandle] else s.refs m
  placed : ∀ m, (s'.mem m).memory ≠ [] → (s.mem m).memory ≠ [] ∨ m = s.target root
  pointed : s.Pointed → s'.Pointed

theorem Heap.Owned.construct_ok (hs : s.Owned) : ∃ s', construct s = .ok (s.nextHandle, s') ∧ Constructed s s' := by
  have htarget : s.made.target root = s.target root := made_target_of_lt hs.ok.rootKnown
  have hcheck : s.made.check root = .ok () := by
    have hroot := hs.checkRoot
    rw [Heap.check, ← Heap.target] at hroot ⊢
    rw [htarget]
    exact hroot
  obtain ⟨index, s', hpush, hpushed⟩ := push_pushed (.heap s.nextHandle) true hcheck
  refine ⟨s', ?_, hpushed.same, fun m => ?_, fun m hm => htarget ▸ hpushed.placed hm, fun hpointed => ?_⟩
  · show (s.made.push root (.heap s.nextHandle) true >>= fun r => .ok (s.nextHandle, r.2)) = _
    rw [hpush]
    rfl
  · rw [hpushed.refs, htarget]
    rfl
  · exact hpushed.pointed ⟨hpointed.refs, htarget ▸ hpointed.rootRefs⟩ (fun _ => ⟨_, rfl⟩) fun _ => rfl

theorem Heap.Owned.construct (hs : s.Owned) (hok : HeapOk s') (hmade : Constructed s s') : s'.Owned := by
  have hlt : ∀ h, h < s'.nextHandle ↔ h < s.nextHandle ∨ h = s.nextHandle := by
    intro h
    rw [hmade.same.nextHandle]
    exact Nat.lt_succ_iff_lt_or_eq
  have htarget : ∀ h < s.nextHandle, s'.target h = s.target h := fun h hh =>
    (hmade.same.target h).trans (made_target_of_lt hh)
  have htargetNew : s'.target s.nextHandle = s.nextMemory := (hmade.same.target _).trans made_target_self
  have hlive : ∀ h < s.nextHandle, (s'.handle h).deallocated = (s.handle h).deallocated := fun h hh => by
    rw [hmade.same.deallocated, made_handle_of_lt hh]
  have hliveNew : (s'.handle s.nextHandle).deallocated = false := by
    rw [hmade.same.deallocated, made_handle, if_pos rfl]
  have hdestroyed : s'.destroyedHandles = s.destroyedHandles := hmade.same.destroyedHandles
  have hmem : ∀ m h, h ∈ s'.refs m ↔ h ∈ s.refs m ∨ m = s.target root ∧ h = s.nextHandle := by
    intro m h
    rw [hmade.refs]
    split
    · rename_i heq
      simp [heq]
    · rename_i hne
      simp [hne]
  have hnew : ∀ m, s.nextHandle ∉ s.refs m := fun m hh => Nat.lt_irrefl _ (hs.ok.known m _ hh).2
  have hroot : s'.target root = s.target root := htarget root hs.ok.rootKnown
  have hreach : ∀ m, s.Reachable m → s'.Reachable m := by
    intro m hm
    rw [Heap.Reachable, hroot]
    refine Relation.ReflTransGen.mono (fun a b hedge => ?_) _ _ hm
    obtain ⟨h, hh, rfl⟩ := hedge
    exact ⟨h, (hmem a h).mpr (.inl hh), htarget h (hs.ok.known a h hh).2⟩
  have hrootReach : s'.Reachable (s.target root) := hroot ▸ .refl
  constructor
  · exact hok
  · intro h hh h' hh' heq
    rcases (hlt h).mp hh with hh | rfl <;> rcases (hlt h').mp hh' with hh' | rfl
    · rw [htarget h hh, htarget h' hh'] at heq
      exact hs.own h hh h' hh' heq
    · rw [htarget h hh, htargetNew] at heq
      exact absurd heq (Nat.ne_of_lt (hs.ok.target h))
    · rw [htarget h' hh', htargetNew] at heq
      exact absurd heq.symm (Nat.ne_of_lt (hs.ok.target h'))
    · rfl
  · intro m
    rw [hmade.refs]
    split
    · rw [← List.concat_eq_append]
      exact List.Nodup.concat (hnew m) (hs.nodup m)
    · exact hs.nodup m
  · intro m m' h hh hh'
    rcases (hmem m h).mp hh with hh | ⟨rfl, hself⟩ <;> rcases (hmem m' h).mp hh' with hh' | ⟨rfl, hself'⟩
    · exact hs.owner m m' h hh hh'
    · exact absurd (hself' ▸ hh) (hnew m)
    · exact absurd (hself ▸ hh') (hnew m')
    · rfl
  · intro m hm
    rcases hmade.placed m hm with hm | rfl
    · exact hreach m (hs.placed m hm)
    · exact hrootReach
  · intro m h hh
    rw [hdestroyed]
    rcases (hmem m h).mp hh with hh | ⟨rfl, rfl⟩
    · exact hs.present m h hh
    · exact fun hold => Nat.lt_irrefl _ (hs.ok.oldHandle _ hold).2
  · intro h hh hexists
    rw [hdestroyed] at hexists
    rcases (hlt h).mp hh.2 with hold | rfl
    · rw [htarget h hold]
      exact hreach _ (hs.held h ⟨hh.1, hold⟩ hexists)
    · exact hrootReach.tail ⟨s.nextHandle, (hmem _ _).mpr (.inr ⟨rfl, rfl⟩), rfl⟩
  · intro h hh hdead h' hh'
    rcases (hlt h).mp hh with hold | rfl
    · rw [hlive h hold] at hdead
      rw [htarget h hold] at hh'
      rcases (hmem _ h').mp hh' with hh' | ⟨heq, -⟩
      · rw [hlive h' (hs.ok.known _ h' hh').2]
        exact hs.inward h hold hdead h' hh'
      · rw [hs.own h hold root hs.ok.rootKnown heq, hs.ok.rootLives] at hdead
        cases hdead
    · rw [hliveNew] at hdead
      cases hdead
  · intro h hh
    rw [hdestroyed] at hh
    rw [hlive h (hs.ok.oldHandle h hh).2]
    exact hs.dead h hh
  · rw [hdestroyed]
    exact hs.once
  · intro m
    rw [hmade.same.destroyedMemory, hdestroyed]
    refine (hs.freed m).trans (exists_congr fun h => and_congr_right fun hh => ?_)
    rw [htarget h (hs.ok.oldHandle h hh).2]
  · exact hmade.pointed hs.pointed

/-! ### The end of a scope -/

/-- A handle has been deallocated, and the counter has counted it. -/
structure ScopeEnded (s : Heap) (h : HandleId) (s' : Heap) : Prop where
  nextHandle : s'.nextHandle = s.nextHandle
  nextMemory : s'.nextMemory = s.nextMemory
  target : ∀ h', s'.target h' = s.target h'
  deallocated : ∀ h', (s'.handle h').deallocated = (decide (h' = h) || (s.handle h').deallocated)
  memory : ∀ m, (s'.mem m).memory = (s.mem m).memory
  destroyed : s'.destroyed = s.destroyed
  destroyedMemory : s'.destroyedMemory = s.destroyedMemory
  deallocCount : s'.deallocCount = (s.deallocCount + 1) % 256

theorem release_ended (deallocLimit : Nat) (hhandle : s.isDestroyed h = false) (hroot : s.check root = .ok ()) :
    ∃ s', release deallocLimit s h = .ok (deallocLimit ≠ 0 && s'.deallocCount ≥ deallocLimit, s') ∧
      ScopeEnded s h s' := by
  let s₁ := s.setHandle h { s.handle h with deallocated := true }
  have htarget : ∀ h', s₁.target h' = s.target h' := by
    intro h'
    show (if h' = h then { s.handle h with deallocated := true } else s.handle h').memory = _
    split
    · rename_i heq
      rw [heq]
      rfl
    · rfl
  have hcheck : s₁.check root = .ok () := by
    rw [Heap.check, ← Heap.target] at hroot ⊢
    rw [htarget]
    exact hroot
  have hframe : Frame s₁ (s₁.create root) := .create
  have hcount : ∀ x, ((s₁.create root).setMem (s₁.target root) x).deallocCount = x.deallocCount := by
    intro x
    show (((s₁.create root).setMem (s₁.target root) x).mem ((s₁.create root).target root)).deallocCount = _
    rw [hframe.target, setMem_mem_self]
  refine ⟨(s₁.create root).setMem (s₁.target root) { s.mem (s₁.target root) with
    deallocCount := ((s.mem (s₁.target root)).deallocCount + 1) % 256 }, ?_, ?_⟩
  · rw [release, hhandle]
    show (s₁.getMemory root >>= fun r => _) = _
    rw [getMemory_eq hcheck]
    rw [hcount]
    rfl
  · constructor
    · rfl
    · rfl
    · exact fun h' => (hframe.target h').trans (htarget h')
    · intro h'
      refine (hframe.deallocated h').trans ?_
      show (if h' = h then { s.handle h with deallocated := true } else s.handle h').deallocated = _
      split
      · rename_i heq
        rw [heq, decide_eq_true rfl]
        rfl
      · rename_i hne
        rw [decide_eq_false hne, Bool.false_or]
    · intro m
      rw [setMem_mem]
      split
      · rename_i heq
        rw [heq]
      · rfl
    · rfl
    · rfl
    · rw [hcount, htarget]
      rfl

theorem Heap.Owned.release_ok (hs : s.Owned) (deallocLimit : Nat) (hh : h < s.nextHandle)
    (hexists : h ∉ s.destroyedHandles) :
    ∃ s', release deallocLimit s h = .ok (deallocLimit ≠ 0 && s'.deallocCount ≥ deallocLimit, s') ∧
      ScopeEnded s h s' :=
  release_ended deallocLimit (check_ok (hs.check hh hexists)).1 hs.checkRoot

/-- What the object holds has been deallocated before. -/
theorem Heap.Owned.release (hs : s.Owned) (hok : HeapOk s') (hended : ScopeEnded s h s') (hh : h < s.nextHandle)
    (hholds : ∀ h' ∈ s.refs (s.target h), (s.handle h').deallocated = true) : s'.Owned := by
  have hrefs : s'.refs = s.refs := funext fun m => by rw [Heap.refs, hended.memory, Heap.refs]
  have htarget : s'.target = s.target := funext hended.target
  have hdestroyed : s'.destroyedHandles = s.destroyedHandles := by
    rw [Heap.destroyedHandles, hended.destroyed, Heap.destroyedHandles]
  have hdead : ∀ h', (s.handle h').deallocated = true → (s'.handle h').deallocated = true := fun h' hdead => by
    rw [hended.deallocated, hdead, Bool.or_true]
  constructor
  · exact hok
  · rw [hended.nextHandle, htarget]
    exact hs.own
  · rw [hrefs]
    exact hs.nodup
  · rw [hrefs]
    exact hs.owner
  · simp only [Heap.Reachable, Heap.Leads, hrefs, htarget, hended.memory]
    exact hs.placed
  · rw [hrefs, hdestroyed]
    exact hs.present
  · simp only [Heap.Reachable, Heap.Leads, hrefs, htarget, hdestroyed, Heap.Known, hended.nextHandle]
    exact hs.held
  · intro h₁ hh₁ hdead₁ h' hh'
    rw [hended.nextHandle] at hh₁
    rw [hrefs, htarget] at hh'
    apply hdead
    rw [hended.deallocated, Bool.or_eq_true, decide_eq_true_iff] at hdead₁
    rcases hdead₁ with rfl | hdead₁
    · exact hholds h' hh'
    · exact hs.inward h₁ hh₁ hdead₁ h' hh'
  · rw [hdestroyed]
    exact fun h' hh' => hdead h' (hs.dead h' hh')
  · rw [hdestroyed]
    exact hs.once
  · rw [hended.destroyedMemory, hdestroyed, htarget]
    exact hs.freed
  · exact hs.pointed.of_subset (hended.target root) fun m _ hinfo => hended.memory m ▸ hinfo

/-! ### Values and owners -/

structure Heap.Alive (s : Heap) (h : HandleId) : Prop where
  known : s.Known h
  live : (s.handle h).deallocated = false

theorem Heap.Owned.alive_exists (hs : s.Owned) (hh : s.Alive h) : h ∉ s.destroyedHandles := by
  intro hdestroyed
  have hdead := hs.dead h hdestroyed
  rw [hh.live] at hdead
  cases hdead

theorem Heap.Owned.alive_check (hs : s.Owned) (hh : s.Alive h) : s.check h = .ok () :=
  hs.check hh.known.2 (hs.alive_exists hh)

theorem Heap.Owned.alive_reachable (hs : s.Owned) (hh : s.Alive h) : s.Reachable (s.target h) :=
  hs.held h hh.known (hs.alive_exists hh)

theorem Heap.Owned.alive_target (hs : s.Owned) (hh : s.Alive h) : s.target h ≠ s.target root :=
  fun heq => hh.known.1 (hs.own h hh.known.2 root hs.ok.rootKnown heq)

theorem SameHandles.alive (hsame : SameHandles s s') (hh : s.Alive h) : s'.Alive h :=
  ⟨hsame.known.mpr hh.known, (hsame.deallocated h).trans hh.live⟩

theorem Heap.Owned.pushValue_ok (hs : s.Owned) (hthis : s.Alive this) :
    ∃ s', pushValue s this v = .ok s' ∧ SameHandles s s' ∧ s'.Owned := by
  obtain ⟨index, s', hpush, hpushed⟩ := push_pushed (.value v) false (hs.alive_check hthis)
  have hvalue : pushValue s this v = .ok s' := by
    rw [pushValue, hpush]
    rfl
  refine ⟨s', hvalue, hpushed.same, hs.of_refs (hs.ok.pushValue hvalue).ok hpushed.same ?_ (fun m hm => ?_) fun m => ?_⟩
  · refine hpushed.pointed hs.pointed (fun hfalse => by cases hfalse) fun heq => ?_
    exact absurd heq.symm (hs.alive_target hthis)
  · rcases hpushed.placed hm with hm | rfl
    · exact hs.placed m hm
    · exact hs.alive_reachable hthis
  · rw [hpushed.refs]
    split
    · exact List.append_nil _
    · rfl

theorem Heap.Owned.create (hs : s.Owned) : SameHandles s (s.create h) ∧ (s.create h).Owned := by
  have hsame : SameHandles s (s.create h) := .of_frame .create (fun _ => rfl) id
  exact ⟨hsame, hs.of_refs hs.ok.create hsame
    (hs.pointed.of_subset (hsame.target root) fun _ _ => id) hs.placed fun _ => rfl⟩

theorem Heap.Owned.getValueAt_ok (hs : s.Owned) (hthis : s.Alive this)
    (hindex : index < (s.mem (s.target this)).memory.length) :
    ∃ ptr s', getValueAt s this index = .ok (ptr, s') ∧ SameHandles s s' ∧ s'.Owned := by
  rw [getValueAt_eq (hs.alive_check hthis), List.getElem?_eq_getElem hindex]
  exact ⟨_, _, rfl, hs.create⟩

def Heap.ValueAt (s : Heap) (h : HandleId) (index : Nat) : Prop :=
  ∃ info, (s.mem (s.target h)).memory[index]? = some info ∧ info.ptrIsRef = false

theorem filterMap_set_of_eq {α β : Type} {f : α → Option β} {l : List α} {i : Nat} {a b : α} (ha : l[i]? = some a)
    (hf : f b = f a) : (l.set i b).filterMap f = l.filterMap f := by
  have hmap : ∀ l : List α, l.filterMap f = (l.map f).filterMap id := fun l => by
    rw [List.filterMap_map, Function.id_comp]
  rw [hmap, map_set_of_eq ha hf, ← hmap]

def Heap.write (s : Heap) (h : HandleId) (index : Nat) (info : Info) (ptr : Ptr) : Heap :=
  (s.create h).setMem (s.target h) { s.mem (s.target h) with
    memory := (s.mem (s.target h)).memory.set index { info with ptr } }

variable {info : Info} {ptr : Ptr}

theorem write_refs (hinfo : (s.mem (s.target h)).memory[index]? = some info) (hvalue : info.ptrIsRef = false)
    (m : MemoryId) : (s.write h index info ptr).refs m = s.refs m := by
  rw [Heap.write, refs_setMem]
  split
  · rename_i heq
    rw [heq]
    refine filterMap_set_of_eq hinfo ?_
    rw [getHeap_value hvalue]
    exact getHeap_value hvalue
  · rfl

theorem write_memory (m : MemoryId) : ((s.write h index info ptr).mem m).memory =
    if m = s.target h then (s.mem m).memory.set index { info with ptr } else (s.mem m).memory := by
  rw [Heap.write, setMem_mem]
  split
  · rename_i heq
    rw [heq]
  · rfl

theorem write_same (hinfo : (s.mem (s.target h)).memory[index]? = some info) :
    SameHandles s (s.write h index info ptr) := by
  have hframe : Frame s (s.create h) := .create
  refine .of_frame (hframe.trans (.setMem _)) (fun m => ?_) ?_
  · rw [Heap.write, setMem_mem]
    split
    · rename_i heq
      rw [heq]
    · rfl
  · rintro id ⟨m, x, hx, rfl, hvalue⟩
    by_cases heq : m = s.target h
    · subst heq
      obtain ⟨i, hi⟩ := List.getElem?_of_mem hx
      by_cases hindex : index = i
      · subst hindex
        rw [hinfo] at hi
        cases hi
        refine ⟨s.target h, { info with ptr }, ?_, rfl, hvalue⟩
        rw [write_memory, if_pos rfl]
        exact List.mem_of_getElem? (List.getElem?_set_self (List.getElem?_eq_some_iff.mp hinfo).1)
      · refine ⟨s.target h, x, ?_, rfl, hvalue⟩
        rw [write_memory, if_pos rfl]
        exact List.mem_of_getElem? ((List.getElem?_set_ne hindex).trans hi)
    · refine ⟨m, x, ?_, rfl, hvalue⟩
      rw [write_memory, if_neg heq]
      exact hx

theorem Heap.Owned.write (hs : s.Owned) (hptr : ∀ h, ptr ≠ .heap h)
    (hinfo : (s.mem (s.target h)).memory[index]? = some info) (hvalue : info.ptrIsRef = false) :
    (s.write h index info ptr).Owned := by
  refine hs.of_refs ((hs.ok.create (h := h)).setPtr hptr hinfo) (write_same hinfo) ?_ ?_ (write_refs hinfo hvalue)
  · constructor
    · intro m x hx href
      rw [write_memory] at hx
      split at hx
      · rcases List.mem_or_eq_of_mem_set hx with hx | rfl
        · exact hs.pointed.refs m x hx href
        · rw [show info.ptrIsRef = true from href] at hvalue
          cases hvalue
      · exact hs.pointed.refs m x hx href
    · intro x hx
      rw [(write_same hinfo).target, write_memory] at hx
      split at hx
      · rename_i heq
        have hroot := hs.pointed.rootRefs info (heq ▸ List.mem_of_getElem? hinfo)
        rw [hvalue] at hroot
        cases hroot
      · exact hs.pointed.rootRefs x hx
  · intro m hm
    refine hs.placed m fun hempty => hm ?_
    rw [write_memory, hempty]
    split <;> rfl

theorem Heap.Owned.setValueAt_ok (hs : s.Owned) (hthis : s.Alive this) (hvalue : s.ValueAt this index) :
    ∃ s', setValueAt s this index v = .ok s' ∧ SameHandles s s' ∧ s'.Owned := by
  obtain ⟨info, hinfo, hptr⟩ := hvalue
  refine ⟨s.write this index info (.value v), ?_, write_same hinfo, hs.write (value_ne_heap v) hinfo hptr⟩
  rw [setValueAt, getMemory_eq (hs.alive_check hthis)]
  dsimp only [bind, Except.bind]
  rw [create_mem, hinfo]
  dsimp only
  rw [if_neg (Bool.eq_false_iff.mp hptr)]
  rfl

/-- An object may be owned by another one: it is on the root list, and does not own the other one. -/
structure Heap.CanOwn (s : Heap) (this other : HandleId) : Prop where
  owner : s.Alive this
  owned : s.Alive other
  free : other ∈ s.refs (s.target root)
  out : ¬ s.Leads (s.target other) (s.target this)

theorem Heap.Owned.byRef_ok (hs : s.Owned) (hown : s.CanOwn this other) :
    ∃ s', byRef s this other = .ok s' ∧ SameHandles s s' ∧ s'.Owned := by
  obtain ⟨index, s₁, hpush, hpushed⟩ := push_pushed (.heap other) true (hs.alive_check hown.owner)
  have hcheck : s₁.check root = .ok () := hpushed.same.check.trans hs.checkRoot
  obtain ⟨s', hunroot, hunrooted⟩ := unroot_unrooted (h := other) hcheck
  have hbyRef : byRef s this other = .ok s' := by
    rw [byRef, hpush]
    exact hunroot
  have hsame := hpushed.same.trans hunrooted.same
  have hroot : s₁.target root = s.target root := hpushed.same.target root
  have hne := hs.alive_target hown.owner
  have honly : ∀ m, other ∈ s.refs m → m = s.target root := fun m hm => hs.owner _ _ other hm hown.free
  have hrefs₁ : ∀ m, s₁.refs m = if m = s.target this then s.refs m ++ [other] else s.refs m := hpushed.refs
  have hnodup₁ : ∀ m, (s₁.refs m).Nodup := by
    intro m
    rw [hrefs₁]
    split
    · rename_i heq
      rw [← List.concat_eq_append]
      exact List.Nodup.concat (fun hmem => hne (heq ▸ honly m hmem)) (hs.nodup m)
    · exact hs.nodup m
  refine ⟨s', hbyRef, hsame, hs.move (hs.ok.byRef hown.owned.known hbyRef).ok hsame ?_ ?_ ?_ ?_ hown.owner.known.2
    hown.owner.live (hs.alive_reachable hown.owner) (hs.alive_exists hown.owned) hown.out⟩
  · have hpointed := hpushed.pointed hs.pointed (fun _ => ⟨other, rfl⟩) fun _ => rfl
    exact hpointed.of_subset (hunrooted.same.target root) fun m => (hunrooted.sub m).subset
  · intro m hm
    have hm₁ : (s₁.mem m).memory ≠ [] := fun hempty => hm (List.sublist_nil.mp (hempty ▸ hunrooted.sub m))
    rcases hpushed.placed hm₁ with hm₁ | rfl
    · exact hs.placed m hm₁
    · exact hs.alive_reachable hown.owner
  · exact fun m => (hnodup₁ m).sublist ((hunrooted.sub m).filterMap _)
  · intro m h
    rw [hunrooted.refs m (hnodup₁ m), hrefs₁, hroot]
    by_cases heq : m = s.target this
    · subst heq
      rw [if_pos rfl, List.mem_append, List.mem_singleton]
      simp only [hne, false_and, not_false_eq_true, and_true, true_and]
      refine or_congr_left (iff_self_and.mpr fun hh => ?_)
      rintro rfl
      exact hne (honly _ hh)
    · rw [if_neg heq]
      simp only [heq, false_and, or_false]
      refine and_congr_right fun hh => not_congr ⟨And.right, fun hself => ⟨?_, hself⟩⟩
      exact honly m (hself ▸ hh)

/-- The slot at the index gets the address of the object, which is owned from then on. -/
theorem Heap.Owned.reroot_ok (hs : s.Owned) (hown : s.CanOwn this other) (hvalue : s.ValueAt this index) :
    ∃ s', reroot s this index other = .ok s' ∧ SameHandles s s' ∧ s'.Owned := by
  obtain ⟨info, hinfo, hptr⟩ := hvalue
  have hs₁ := hs.write (object_ne_heap other) hinfo hptr
  have hsame : SameHandles s (s.write this index info (.object other)) := write_same hinfo
  have hrefs : (s.write this index info (.object other)).refs = s.refs := funext (write_refs hinfo hptr)
  have htarget : (s.write this index info (.object other)).target = s.target := funext hsame.target
  have hown' : (s.write this index info (.object other)).CanOwn this other := by
    refine ⟨hsame.alive hown.owner, hsame.alive hown.owned, ?_, ?_⟩
    · rw [hrefs, htarget]
      exact hown.free
    · rw [Heap.Leads, hrefs, htarget]
      exact hown.out
  obtain ⟨s', hbyRef, hsame', hs'⟩ := hs₁.byRef_ok hown'
  refine ⟨s', ?_, hsame.trans hsame', hs'⟩
  rw [reroot, getMemory_eq (hs.alive_check hown.owner)]
  dsimp only [bind, Except.bind]
  rw [create_mem, hinfo]
  dsimp only
  rw [if_neg (Bool.eq_false_iff.mp hptr)]
  exact hbyRef

end ManagedObject.Collector
