import ManagedObject.Collector.Steady

/-!
# Copies of a handle

A copy gets the pointer to the Memory of the original, which is null until that Memory is obtained for
the first time. What a copy construction and an assignment do to the handles is the same in both builds.
-/

namespace ManagedObject.Collector

open Outcome Lib

/-- No handle of the program points to the root list. -/
def Heap.Apart (s : Heap) : Prop := ∀ h, s.Known h → s.target h ≠ s.target root

/-- Handles may be made; of the others only the `changed` ones get another Memory. -/
structure Kept (changed : HandleId → Prop) (s s' : Heap) : Prop where
  handles : s.nextHandle ≤ s'.nextHandle
  target : ∀ h < s.nextHandle, ¬ changed h → s'.target h = s.target h
  created : ∀ h < s.nextHandle, ¬ changed h → (s.handle h).created = true → (s'.handle h).created = true

/-- What an operation does; the flag says whether it collected. -/
structure Flow (changed : HandleId → Prop) (collected : Bool) (s s' : Heap) : Prop where
  kept : Kept changed s s'
  ok : HeapOk s'
  apart : s'.Apart
  lists : collected = false → s'.destroyed = s.destroyed ∧ s'.destroyedMemory = s.destroyedMemory

variable {s s' s₁ s₂ : Heap} {h a b : HandleId} {debug collected : Bool} {deallocLimit : Nat}
  {changed : HandleId → Prop} {x : Handle} {n : Nat}

theorem Steady.kept (hsteady : Steady s s') : Kept changed s s' :=
  ⟨Nat.le_of_eq hsteady.nextHandle.symm, fun h _ _ => hsteady.target h, fun h _ _ => hsteady.created h⟩

theorem Kept.trans (h₁ : Kept changed s s₁) (h₂ : Kept changed s₁ s') : Kept changed s s' where
  handles := Nat.le_trans h₁.handles h₂.handles
  target h hh hsame := (h₂.target h (Nat.lt_of_lt_of_le hh h₁.handles) hsame).trans (h₁.target h hh hsame)
  created h hh hsame hcreated :=
    h₂.created h (Nat.lt_of_lt_of_le hh h₁.handles) hsame (h₁.created h hh hsame hcreated)

theorem Heap.Apart.steady (hapart : s.Apart) (hsteady : Steady s s') : s'.Apart := by
  intro h hh
  rw [hsteady.target, hsteady.target]
  exact hapart h ⟨hh.1, hsteady.nextHandle ▸ hh.2⟩

theorem Flow.trans (h₁ : Flow changed collected s s₁) (h₂ : Flow changed collected s₁ s') :
    Flow changed collected s s' where
  kept := h₁.kept.trans h₂.kept
  ok := h₂.ok
  apart := h₂.apart
  lists hquiet := ⟨(h₂.lists hquiet).1.trans (h₁.lists hquiet).1, (h₂.lists hquiet).2.trans (h₁.lists hquiet).2⟩

theorem Flow.of_steady (hapart : s.Apart) (hnext : Next s s') (hsteady : Steady s s') :
    Flow changed collected s s' :=
  ⟨hsteady.kept, hnext.ok, hapart.steady hsteady, fun _ => ⟨hnext.destroyed, hnext.destroyedMemory⟩⟩

theorem Flow.touched (hs : HeapOk s) (hapart : s.Apart) (htouched : Touched s s') :
    Flow changed collected s s' :=
  .of_steady hapart (hs.touched htouched) htouched.steady

/-! ### New handles -/

/-- A handle has been made and pushed to the root list. -/
structure Made (s : Heap) (x : Handle) (s' : Heap) : Prop where
  handle : ∀ h < s.nextHandle, h ≠ root → s'.handle h = s.handle h
  handles : s'.nextHandle = s.nextHandle + 1
  target : s'.target s.nextHandle = x.memory
  targetRoot : s'.target root = s.target root
  createdRoot : (s'.handle root).created = true
  refs : s.nextHandle ∈ s'.refs (s.target root)
  infos : ∀ m, m ≠ s.target root → (s'.mem m).memory = (s.mem m).memory

theorem made_of_push {r : Nat × Heap} (hroot : root < s.nextHandle)
    (h' : (({ s with nextMemory := n }.newHandle x).2).push root (.heap s.nextHandle) true = .ok r) :
    Made s x r.2 := by
  obtain ⟨-, hr⟩ := push_ok h'
  have htarget : ({ s with nextMemory := n }.newHandle x).2.target root = s.target root := by
    simp only [Heap.newHandle, Heap.target, Heap.setHandle]
    rw [if_neg (Nat.ne_of_lt hroot)]
  rw [htarget] at hr
  rw [hr]
  constructor
  · intro h hh hne
    simp only [Heap.newHandle, Heap.create, Heap.setHandle, Heap.setMem]
    rw [if_neg hne, if_neg (Nat.ne_of_lt hh)]
  · rfl
  · simp only [Heap.newHandle, Heap.target, Heap.create, Heap.setHandle, Heap.setMem]
    rw [if_neg (Nat.ne_of_gt hroot), if_true]
  · exact (Frame.create.target root).trans htarget
  · simp [Heap.setMem, created_create]
  · simp [Heap.refs, Heap.setMem, Info.getHeap]
  · intro m hm
    simp [Heap.newHandle, Heap.create, Heap.setHandle, Heap.setMem, hm]

theorem Made.target_eq (hmade : Made s x s') (hh : h < s.nextHandle) : s'.target h = s.target h := by
  by_cases hne : h = root
  · rw [hne]
    exact hmade.targetRoot
  · rw [Heap.target, hmade.handle h hh hne, Heap.target]

theorem Made.kept (hmade : Made s x s') : Kept changed s s' where
  handles := Nat.le_of_lt (hmade.handles ▸ Nat.lt_succ_self _)
  target _ hh _ := hmade.target_eq hh
  created h hh _ hcreated := by
    by_cases hne : h = root
    · rw [hne]
      exact hmade.createdRoot
    · rw [hmade.handle h hh hne]
      exact hcreated

theorem Made.apart (hmade : Made s x s') (hapart : s.Apart) (hx : x.memory ≠ s.target root) : s'.Apart := by
  intro h hh
  rw [hmade.targetRoot]
  rcases Nat.lt_succ_iff_lt_or_eq.mp (hmade.handles ▸ hh.2) with hold | rfl
  · rw [hmade.target_eq hold]
    exact hapart h ⟨hh.1, hold⟩
  · rw [hmade.target]
    exact hx

theorem Made.flow (hmade : Made s x s') (hapart : s.Apart) (hx : x.memory ≠ s.target root)
    (hnext : Next s s') : Flow changed collected s s' :=
  ⟨hmade.kept, hnext.ok, hmade.apart hapart hx, fun _ => ⟨hnext.destroyed, hnext.destroyedMemory⟩⟩

theorem construct_made (hs : HeapOk s) {r : HandleId × Heap} (h' : construct s = .ok r) :
    r.1 = s.nextHandle ∧ Made s ⟨s.nextMemory, false, false⟩ r.2 := by
  obtain ⟨r', hpush, h'⟩ := bind_eq_ok h'
  have hmade : Made s ⟨s.nextMemory, false, false⟩ r'.2 := made_of_push (n := s.nextMemory + 1) hs.rootKnown hpush
  cases h'
  exact ⟨rfl, hmade⟩

theorem copyHandle_snd : ∃ n, (s.copyHandle x).2 = { s with nextMemory := n } := by
  rw [Heap.copyHandle]
  split
  · exact ⟨s.nextMemory, rfl⟩
  · exact ⟨s.nextMemory + 1, rfl⟩

theorem copyHandle_memory :
    (s.copyHandle x).1.memory = if x.created then x.memory else s.nextMemory := by
  rw [Heap.copyHandle]
  split <;> rfl

theorem copyConstruct_made (hs : HeapOk s) {r : HandleId × Heap} (h' : copyConstruct s b = .ok r) :
    s.isDestroyed b = false ∧ r.1 = s.nextHandle ∧ Made s (s.copyHandle (s.handle b)).1 r.2 := by
  rw [copyConstruct] at h'
  split at h'
  · cases h'
  · rename_i halive
    obtain ⟨n, hcopy⟩ := copyHandle_snd (s := s) (x := s.handle b)
    dsimp only at h'
    rw [hcopy] at h'
    obtain ⟨r', hpush, h'⟩ := bind_eq_ok h'
    have hmade := made_of_push hs.rootKnown hpush
    cases h'
    exact ⟨Bool.eq_false_iff.mpr halive, rfl, hmade⟩

theorem reassign_made (hs : HeapOk s) {r : HandleId × Heap} (h' : reassign s a b = .ok r) :
    ∃ s₁, s.isDestroyed a = false ∧ Made s (s.handle a) s₁ ∧ s₁.nextMemory = s.nextMemory ∧
      s₁.isDestroyed b = false ∧
      r = (s.nextHandle, (s₁.copyHandle (s₁.handle b)).2.setHandle a (s₁.copyHandle (s₁.handle b)).1) := by
  rw [reassign] at h'
  split at h'
  · cases h'
  · rename_i halive
    obtain ⟨r', hpush, h'⟩ := bind_eq_ok h'
    dsimp only at h'
    split at h'
    · cases h'
    · rename_i halive'
      cases h'
      have hnextMemory : r'.2.nextMemory = s.nextMemory := by
        rw [(push_ok hpush).2]
        rfl
      exact ⟨r'.2, Bool.eq_false_iff.mpr halive, made_of_push (n := s.nextMemory) hs.rootKnown hpush,
        hnextMemory, Bool.eq_false_iff.mpr halive', rfl⟩

/-! ### Copies -/

/-- The variable `a` has become a copy of `b`: they share a Memory if there was one. The other variables
have the Memories that they had, with what these contained. -/
structure Copies (s : Heap) (a b : HandleId) (s' : Heap) : Prop where
  target : s'.target a = s'.target b ↔ (s.handle b).created = true
  others : ∀ c < s.nextHandle, c ≠ a → s'.target c = s.target c
  infos : ∀ m, m ≠ s.target root → (s'.mem m).memory = (s.mem m).memory
  alive : s'.isDestroyed a = false ∧ s'.isDestroyed b = false

theorem isDestroyed_congr (hlist : s'.destroyed = s.destroyed) : s'.isDestroyed h = s.isDestroyed h := by
  rw [Heap.isDestroyed, hlist, Heap.isDestroyed]

theorem Copies.before (hcopies : Copies s₁ a b s') (htouched : Touched s s₁)
    (hcreated : (s₁.handle b).created = true → (s.handle b).created = true) : Copies s a b s' where
  target := hcopies.target.trans ⟨hcreated, htouched.created b⟩
  others c hc hne := (hcopies.others c (htouched.frame.nextHandle ▸ hc) hne).trans (htouched.frame.target c)
  infos m hm := by
    rw [hcopies.infos m (htouched.frame.target root ▸ hm), htouched.mem]
  alive := hcopies.alive

theorem Copies.after (hcopies : Copies s a b s₁) (hsteady : Steady s₁ s')
    (hinfos : ∀ m, m ≠ s.target root → (s'.mem m).memory = (s₁.mem m).memory)
    (hlist : s'.destroyed = s₁.destroyed) : Copies s a b s' where
  target := by
    rw [hsteady.target, hsteady.target]
    exact hcopies.target
  others c hc hne := (hsteady.target c).trans (hcopies.others c hc hne)
  infos m hm := (hinfos m hm).trans (hcopies.infos m hm)
  alive := by
    rw [isDestroyed_congr hlist, isDestroyed_congr hlist]
    exact hcopies.alive

theorem Copies.touched (hcopies : Copies s a b s₁) (htouched : Touched s₁ s') : Copies s a b s' :=
  hcopies.after htouched.steady (fun _ _ => by rw [htouched.mem]) htouched.frame.destroyed

/-- The pointer that a copy gets is the one of the original, if there is one. -/
theorem copyHandle_memory_eq_iff (hx : x.memory < s.nextMemory) :
    (s.copyHandle x).1.memory = x.memory ↔ x.created = true := by
  rw [copyHandle_memory]
  split
  · rename_i hcreated
    exact iff_of_true rfl hcreated
  · rename_i hcreated
    exact iff_of_false (Nat.ne_of_gt hx) hcreated

theorem copyConstruct_copies (hs : HeapOk s) (hb : s.Known b) {r : HandleId × Heap}
    (h' : copyConstruct s b = .ok r) : Copies s r.1 b r.2 := by
  obtain ⟨hnext, -, -⟩ := hs.copyConstruct h'
  obtain ⟨halive, hr, hmade⟩ := copyConstruct_made hs h'
  rw [hr]
  constructor
  · rw [hmade.target, hmade.target_eq hb.2]
    exact copyHandle_memory_eq_iff (hs.target b)
  · exact fun c hc _ => hmade.target_eq hc
  · exact hmade.infos
  · rw [isDestroyed_congr hnext.destroyed, isDestroyed_congr hnext.destroyed]
    refine ⟨?_, halive⟩
    rw [Bool.eq_false_iff, Ne, isDestroyed_iff]
    exact fun hmem => Nat.lt_irrefl _ (hs.oldHandle _ hmem).2

theorem setHandle_target {c : HandleId} : (s.setHandle a x).target c = if c = a then x.memory else s.target c := by
  rw [Heap.target, Heap.setHandle]
  dsimp only
  split <;> rfl

/-- After `a` has got the copy of a handle, everything else is as it was. -/
theorem copied_frame (s : Heap) (a : HandleId) (x : Handle) :
    let s' := (s.copyHandle x).2.setHandle a (s.copyHandle x).1
    (∀ c, s'.target c = if c = a then (s.copyHandle x).1.memory else s.target c) ∧
      (∀ c, c ≠ a → s'.handle c = s.handle c) ∧ s'.nextHandle = s.nextHandle ∧
        s'.destroyed = s.destroyed ∧ s'.mem = s.mem := by
  obtain ⟨n, hcopy⟩ := copyHandle_snd (s := s) (x := x)
  dsimp only
  rw [hcopy]
  refine ⟨?_, ?_, rfl, rfl, rfl⟩
  · intro c
    rw [setHandle_target]
    rfl
  · intro c hne
    simp [Heap.setHandle, hne]

theorem reassign_copies (hs : HeapOk s) (ha : s.Known a) (hb : s.Known b) (hne : a ≠ b) {r : HandleId × Heap}
    (h' : reassign s a b = .ok r) : Copies s a b r.2 := by
  obtain ⟨hnext, -⟩ := hs.reassign ha.1 h'
  obtain ⟨s₁, halive, hmade, hnextMemory, halive', rfl⟩ := reassign_made hs h'
  obtain ⟨htarget, -, -, hdestroyed, hmem⟩ := copied_frame s₁ a (s₁.handle b)
  have hb₁ : s₁.handle b = s.handle b := hmade.handle b hb.2 hb.1
  constructor
  · dsimp only
    rw [htarget, htarget, if_pos rfl, if_neg (Ne.symm hne), Heap.target, hb₁]
    exact copyHandle_memory_eq_iff (hnextMemory ▸ hs.target b)
  · intro c hc hca
    dsimp only
    rw [htarget, if_neg hca]
    exact hmade.target_eq hc
  · intro m hm
    dsimp only
    rw [hmem, hmade.infos m hm]
  · constructor
    · rw [isDestroyed_congr hnext.destroyed]
      exact halive
    · rw [isDestroyed_congr hdestroyed]
      exact halive'

/-! ### The operations of both builds -/

theorem copyHandle_ne {m : MemoryId} (hx : x.memory ≠ m) (hm : m < s.nextMemory) :
    (s.copyHandle x).1.memory ≠ m := by
  rw [copyHandle_memory]
  split
  · exact hx
  · exact Nat.ne_of_gt hm

theorem reassign_flow (hs : HeapOk s) (hapart : s.Apart) (ha : s.Known a) (hb : s.Known b)
    {r : HandleId × Heap} (h' : reassign s a b = .ok r) : Flow (· = a) collected s r.2 := by
  obtain ⟨hnext, -⟩ := hs.reassign ha.1 h'
  obtain ⟨s₁, -, hmade, hnextMemory, -, rfl⟩ := reassign_made hs h'
  obtain ⟨htarget, hhandle, hhandles, -, -⟩ := copied_frame s₁ a (s₁.handle b)
  have hapart₁ := hmade.apart hapart (hapart a ha)
  refine ⟨⟨hnext.handles, ?_, ?_⟩, hnext.ok, ?_, fun _ => ⟨hnext.destroyed, hnext.destroyedMemory⟩⟩
  · intro h hh hne
    dsimp only
    rw [htarget, if_neg hne, hmade.target_eq hh]
  · intro h hh hne hcreated
    have hkept : Kept (· = a) s s₁ := hmade.kept
    dsimp only
    rw [hhandle h hne]
    exact hkept.created h hh hne hcreated
  · intro h hh
    dsimp only at hh ⊢
    rw [htarget, htarget, if_neg (Ne.symm ha.1)]
    split
    · rw [hmade.targetRoot]
      apply copyHandle_ne
      · rw [hmade.handle b hb.2 hb.1]
        exact hapart b hb
      · rw [hnextMemory]
        exact hs.target root
    · exact hapart₁ h ⟨hh.1, hhandles ▸ hh.2⟩

theorem touch_created (h' : s.touch true h = .ok s') : (s'.handle h).created = true := by
  obtain ⟨⟨m, s₁⟩, hget, h'⟩ := bind_eq_ok h'
  obtain ⟨-, heq⟩ := getMemory_ok hget
  cases heq
  cases h'
  simp [created_create]

/-- A printed root list has created what it refers to. -/
theorem printRoot_created (hs : HeapOk s) (hh : h ∈ s.refs (s.target root))
    (h' : s.printRoot true = .ok s') : (s'.handle h).created = true := by
  rw [Heap.printRoot, if_pos rfl, trace] at h'
  obtain ⟨⟨m, s₁⟩, hget, h'⟩ := bind_eq_ok h'
  obtain ⟨-, heq⟩ := getMemory_ok hget
  cases heq
  have hlives : ((s.create root).handle root).deallocated = false :=
    (Frame.create.deallocated root).trans hs.rootLives
  dsimp only at h'
  rw [create_mem, hs.unseen, hlives] at h'
  split at h'
  · rename_i hempty
    rw [Heap.refs, List.length_eq_zero_iff.mp hempty] at hh
    cases hh
  · obtain ⟨s₂, hfold, h'⟩ := bind_eq_ok h'
    cases h'
    obtain ⟨l₁, l₂, hl⟩ := List.append_of_mem hh
    rw [Heap.refs] at hl
    rw [hl, List.foldlM_append] at hfold
    obtain ⟨s₃, -, hfold⟩ := bind_eq_ok hfold
    obtain ⟨s₄, hvisit, hfold⟩ := bind_eq_ok hfold
    have hrest : Touched s₄ s₂ :=
      foldlM_rule (Touched s₄) (fun _ _ _ _ h₁ h₂ => h₁.trans (trace_touched h₂).1) .refl hfold
    exact hrest.created h (trace_touched hvisit).2

theorem build_construct_flow (hs : HeapOk s) (hapart : s.Apart) {r : HandleId × Heap}
    (h' : Build.construct debug s = .ok r) : Flow changed collected s r.2 ∧ r.2.Known r.1 ∧
      (debug = true → (r.2.handle r.1).created = true) := by
  obtain ⟨r₁, hconstruct, h'⟩ := bind_eq_ok h'
  obtain ⟨s₂, hprint, h'⟩ := bind_eq_ok h'
  cases h'
  obtain ⟨hnext, hknown, -⟩ := hs.construct hconstruct
  obtain ⟨hr, hmade⟩ := construct_made hs hconstruct
  have htouched := printRoot_touched hprint
  have hflow : Flow changed collected s r₁.2 := hmade.flow hapart (Nat.ne_of_gt (hs.target root)) hnext
  refine ⟨hflow.trans (.touched hflow.ok hflow.apart htouched), (hnext.ok.touched htouched).known hknown, ?_⟩
  rintro rfl
  apply printRoot_created hnext.ok _ hprint
  rw [hmade.targetRoot, hr]
  exact hmade.refs

theorem build_copyConstruct_flow (hs : HeapOk s) (hapart : s.Apart) (hb : s.Known b) {r : HandleId × Heap}
    (h' : Build.copyConstruct debug s b = .ok r) : Flow changed collected s r.2 ∧ r.2.Known r.1 ∧
      (debug = true → (r.2.handle r.1).created = true) := by
  obtain ⟨r₁, hconstruct, h'⟩ := bind_eq_ok h'
  obtain ⟨s₂, htouch, h'⟩ := bind_eq_ok h'
  obtain ⟨s₃, hprint, h'⟩ := bind_eq_ok h'
  cases h'
  obtain ⟨hnext, hknown, -⟩ := hs.copyConstruct hconstruct
  obtain ⟨-, -, hmade⟩ := copyConstruct_made hs hconstruct
  have htouched := (touch_touched htouch).trans (printRoot_touched hprint)
  have hflow : Flow changed collected s r₁.2 :=
    hmade.flow hapart (copyHandle_ne (hapart b hb) (hs.target root)) hnext
  refine ⟨hflow.trans (.touched hflow.ok hflow.apart htouched), (hnext.ok.touched htouched).known hknown, ?_⟩
  rintro rfl
  exact (printRoot_touched hprint).created _ (touch_created htouch)

theorem build_copyConstruct_copies (hs : HeapOk s) (hb : s.Known b) {r : HandleId × Heap}
    (h' : Build.copyConstruct debug s b = .ok r) :
    Copies s r.1 b r.2 ∧ s.nextHandle ≤ r.1 ∧ r.2.Known r.1 := by
  obtain ⟨r₁, hconstruct, h'⟩ := bind_eq_ok h'
  obtain ⟨s₂, htouch, h'⟩ := bind_eq_ok h'
  obtain ⟨s₃, hprint, h'⟩ := bind_eq_ok h'
  cases h'
  obtain ⟨hnext, hknown, hfresh⟩ := hs.copyConstruct hconstruct
  have htouched := (touch_touched htouch).trans (printRoot_touched hprint)
  exact ⟨(copyConstruct_copies hs hb hconstruct).touched htouched, hfresh,
    (hnext.ok.touched htouched).known hknown⟩

/-- Without a collection `dealloc` marks the handle, and counts. -/
theorem build_dealloc_quiet (h' : Build.dealloc debug deallocLimit s h = .ok (false, s')) :
    (∀ m, (s'.mem m).memory = (s.mem m).memory) ∧ s'.destroyed = s.destroyed := by
  rw [Build.dealloc] at h'
  split at h'
  · cases h'
    exact ⟨fun _ => rfl, rfl⟩
  · obtain ⟨⟨due, s₁⟩, hrelease, h'⟩ := bind_eq_ok h'
    cases due with
    | true =>
      obtain ⟨s₂, -, h'⟩ := bind_eq_ok h'
      cases h'
    | false =>
      cases h'
      obtain ⟨y, hy, hr⟩ := release_ok hrelease
      dsimp only at hr
      rw [hr]
      refine ⟨fun m => ?_, rfl⟩
      rw [setMem_mem]
      split
      · rename_i heq
        rw [heq]
        exact hy
      · rfl

theorem build_dealloc_flow (hs : HeapOk s) (hapart : s.Apart) (hh : h ≠ root) {r : Bool × Heap}
    (h' : Build.dealloc debug deallocLimit s h = .ok r) : Flow changed r.1 s r.2 ∧ Steady s r.2 := by
  rw [Build.dealloc] at h'
  split at h'
  · cases h'
    exact ⟨.of_steady hapart (.refl hs) .refl, .refl⟩
  · obtain ⟨⟨due, s₁⟩, hrelease, h'⟩ := bind_eq_ok h'
    have hnext := hs.release hh hrelease
    have hsteady := release_steady hrelease
    cases due with
    | true =>
      obtain ⟨s₂, hcollect, h'⟩ := bind_eq_ok h'
      cases h'
      obtain ⟨hok, hsteady'⟩ := build_collect_ok hnext.ok hcollect
      have hall := hsteady.trans hsteady'
      exact ⟨⟨hall.kept, hok, hapart.steady hall, fun hquiet => Bool.noConfusion hquiet⟩, hall⟩
    | false =>
      cases h'
      exact ⟨.of_steady hapart hnext hsteady, hsteady⟩

theorem build_assign_flow (hs : HeapOk s) (hapart : s.Apart) (ha : s.Known a) (hb : s.Known b) (hne : a ≠ b)
    (hcreated : debug = true → (s.handle b).created = true) {r : Bool × Heap}
    (h' : Build.assign debug deallocLimit s a b = .ok r) : Flow (· = a) r.1 s r.2 ∧
      (debug = true → (r.2.handle a).created = true) ∧ (r.1 = false → Copies s a b r.2) := by
  rw [Build.assign, if_neg hne] at h'
  obtain ⟨s₁, hprint₁, h'⟩ := bind_eq_ok h'
  obtain ⟨⟨old, s₂⟩, hreassign, h'⟩ := bind_eq_ok h'
  obtain ⟨s₃, hprint₂, h'⟩ := bind_eq_ok h'
  obtain ⟨⟨ran, s₄⟩, hdealloc, h'⟩ := bind_eq_ok h'
  obtain ⟨s₅, hprint₃, h'⟩ := bind_eq_ok h'
  obtain ⟨s₆, htouch, h'⟩ := bind_eq_ok h'
  cases h'
  have htouched₁ := printRoot_touched hprint₁
  have htouched₂ := printRoot_touched hprint₂
  have htouched₃ := (printRoot_touched hprint₃).trans (touch_touched htouch)
  have h₁ : Flow (· = a) ran s s₁ := .touched hs hapart htouched₁
  have hnext₁ := hs.touched htouched₁
  have h₂ : Flow (· = a) ran s₁ s₂ :=
    reassign_flow h₁.ok h₁.apart (hnext₁.known ha) (hnext₁.known hb) hreassign
  have h₃ : Flow (· = a) ran s₂ s₃ := .touched h₂.ok h₂.apart htouched₂
  obtain ⟨h₄, hsteady⟩ : Flow (· = a) ran s₃ s₄ ∧ Steady s₃ s₄ :=
    build_dealloc_flow h₃.ok h₃.apart (h₁.ok.reassign ha.1 hreassign).2 hdealloc
  have h₅ : Flow (· = a) ran s₄ s₆ := .touched h₄.ok h₄.apart htouched₃
  refine ⟨(((h₁.trans h₂).trans h₃).trans h₄).trans h₅, ?_, ?_⟩
  · rintro rfl
    exact touch_created htouch
  · rintro rfl
    obtain ⟨hinfos, hlist⟩ := build_dealloc_quiet hdealloc
    have hcopies : Copies s a b s₂ := by
      apply (reassign_copies h₁.ok (hnext₁.known ha) (hnext₁.known hb) hne hreassign).before htouched₁
      cases debug with
      | true => exact fun _ => hcreated rfl
      | false =>
        cases hprint₁
        exact id
    exact ((hcopies.touched htouched₂).after hsteady (fun m _ => hinfos m) hlist).touched htouched₃

theorem build_byRef_flow (hs : HeapOk s) (hapart : s.Apart) (hb : s.Known b)
    (h' : Build.byRef debug s a b = .ok s') : Flow changed collected s s' := by
  obtain ⟨s₁, hprint₁, h'⟩ := bind_eq_ok h'
  obtain ⟨s₂, hop, h'⟩ := bind_eq_ok h'
  obtain ⟨s₃, htouch, hprint₂⟩ := bind_eq_ok h'
  have htouched₁ := printRoot_touched hprint₁
  have htouched₂ := (touch_touched htouch).trans (printRoot_touched hprint₂)
  have hnext₁ := hs.touched htouched₁
  have hnext₂ := hnext₁.ok.byRef (hnext₁.known hb) hop
  exact .of_steady hapart ((hnext₁.trans hnext₂).trans (hnext₂.ok.touched htouched₂))
    ((htouched₁.steady.trans (byRef_steady hop)).trans htouched₂.steady)

theorem build_reroot_flow (hs : HeapOk s) (hapart : s.Apart) (hb : s.Known b) {index : Nat}
    (h' : Build.reroot debug s a index b = .ok s') : Flow changed collected s s' := by
  obtain ⟨s₁, hprint₁, h'⟩ := bind_eq_ok h'
  obtain ⟨s₂, hop, h'⟩ := bind_eq_ok h'
  obtain ⟨s₃, htouch, hprint₂⟩ := bind_eq_ok h'
  have htouched₁ := printRoot_touched hprint₁
  have htouched₂ := (touch_touched htouch).trans (printRoot_touched hprint₂)
  have hnext₁ := hs.touched htouched₁
  have hnext₂ := hnext₁.ok.reroot (hnext₁.known hb) hop
  exact .of_steady hapart ((hnext₁.trans hnext₂).trans (hnext₂.ok.touched htouched₂))
    ((htouched₁.steady.trans (reroot_steady hop)).trans htouched₂.steady)

end ManagedObject.Collector
