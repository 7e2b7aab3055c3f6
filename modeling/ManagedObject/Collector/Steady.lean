import ManagedObject.Collector.Builds

/-!
# What happens to handles

Most operations, and every collection, only create handles: they make none, and none gets another
Memory. Both builds are alike in this.
-/

namespace ManagedObject.Collector

open Outcome Lib

variable {s s' s₁ : Heap} {st : Sweep} {h : HandleId} {m r : MemoryId} {debug : Bool} {deallocLimit : Nat}
  {inv : Heap → Prop}

/-! ### What a marking and a sweep leave alone -/

/-- No change of a Memory and no creation breaks the property. -/
structure Stable (inv : Heap → Prop) : Prop where
  setMem : ∀ {s} m x, inv s → inv (s.setMem m x)
  create : ∀ {s} h, inv s → inv (s.create h)

theorem Stable.getMemory (hinv : Stable inv) (hs : inv s) :
    Meets (s.getMemory h) (fun _ => True) fun r => inv r.2 := by
  apply getMemory_meets.mono (fun _ _ => trivial)
  rintro _ rfl
  exact hinv.create h hs

theorem Stable.mark (hinv : Stable inv) : ∀ depth s h, inv s →
    Meets (mark depth s h) (fun _ => True) inv := by
  intro depth
  induction depth with
  | zero => exact fun _ _ _ => trivial
  | succ depth ih =>
    intro s h hs
    rw [Collector.mark]
    apply (hinv.getMemory hs).bind
    intro r hr
    dsimp only
    split
    · exact hinv.setMem _ _ hr
    · apply Meets.foldlM (hinv.setMem _ _ (hinv.setMem _ _ hr))
      exact fun ref _ s hs => ih s ref hs

theorem Stable.destroyRemaining (hinv : Stable inv) : ∀ n st, inv st.heap →
    Meets (destroyRemaining r n st) (fun _ => True) fun st => inv st.heap := by
  intro n
  induction n with
  | zero => exact fun _ hst => hst
  | succ n ih =>
    intro st hst
    rw [Collector.destroyRemaining]
    dsimp only
    split
    · exact hst
    · split
      · exact trivial
      · split
        · exact ih _ (hinv.setMem _ _ hst)
        · exact trivial

theorem Stable.freeMemory (hinv : Stable inv) (hst : inv st.heap) :
    Meets (freeMemory r st) (fun _ => True) fun st => inv st.heap := by
  apply (hinv.destroyRemaining _ _ (hinv.setMem r _ hst)).bind
  intro st hst
  split <;> exact hst

theorem Stable.sweepInfo (hinv : Stable inv) {visit : Sweep → HandleId → Except Fault Sweep} {i : Nat}
    {info : Info} (hvisit : ∀ st h, inv st.heap → Meets (visit st h) (fun _ => True) fun st => inv st.heap)
    (hst : inv st.heap) : Meets (sweepInfo visit m i info st) (fun _ => True) fun st => inv st.heap := by
  rw [Collector.sweepInfo]
  split
  · split
    · exact hinv.setMem _ _ hst
    · exact hst
  · split
    · exact hst
    · rename_i ref _
      apply (hinv.getMemory hst).bind
      intro r hr
      dsimp only
      split
      · exact hr
      · apply (hvisit _ _ hr).bind
        intro st hst
        apply (hinv.getMemory hst).bind
        intro r hr
        split
        · exact hinv.setMem _ _ hr
        · split
          · refine Meets.bind (hinv.freeMemory ?_) ?_
            · exact hr
            · intro st hst
              exact hinv.setMem _ _ hst
          · exact hr

theorem Stable.sweepInfos (hinv : Stable inv) {visit : Sweep → HandleId → Except Fault Sweep}
    (hvisit : ∀ st h, inv st.heap → Meets (visit st h) (fun _ => True) fun st => inv st.heap) :
    ∀ i st, inv st.heap → Meets (sweepInfos visit m i st) (fun _ => True) fun st => inv st.heap := by
  intro i
  induction i with
  | zero => exact fun _ hst => hst
  | succ i ih =>
    intro st hst
    rw [Collector.sweepInfos]
    split
    · exact trivial
    · exact (hinv.sweepInfo hvisit hst).bind ih

theorem Stable.doSweep (hinv : Stable inv) : ∀ depth st h, inv st.heap →
    Meets (doSweep depth st h) (fun _ => True) fun st => inv st.heap := by
  intro depth
  induction depth with
  | zero => exact fun _ _ _ => trivial
  | succ depth ih =>
    intro st h hst
    rw [Collector.doSweep]
    apply (hinv.getMemory hst).bind
    intro r hr
    dsimp only
    split
    · exact hr
    · apply (hinv.sweepInfos ih _ _ (hinv.setMem _ _ hr)).bind
      intro st hst
      exact hinv.setMem _ _ hst

/-! ### Handles -/

/-- No handle is made or given another Memory. -/
structure Steady (s s' : Heap) : Prop where
  nextHandle : s'.nextHandle = s.nextHandle
  target : ∀ h, s'.target h = s.target h
  created : ∀ h, (s.handle h).created = true → (s'.handle h).created = true

theorem Steady.refl : Steady s s := ⟨rfl, fun _ => rfl, fun _ => id⟩

theorem Steady.trans (h₁ : Steady s s₁) (h₂ : Steady s₁ s') : Steady s s' where
  nextHandle := h₂.nextHandle.trans h₁.nextHandle
  target h := (h₂.target h).trans (h₁.target h)
  created h hh := h₂.created h (h₁.created h hh)

theorem Touched.steady (htouched : Touched s s') : Steady s s' :=
  ⟨htouched.frame.nextHandle, htouched.frame.target, htouched.created⟩

/-- A handle is created; its Memory and everything but the handles may change. -/
theorem Steady.of_create (hhandle : s'.handle = (s.create h).handle) (hnext : s'.nextHandle = s.nextHandle) :
    Steady s s' where
  nextHandle := hnext
  target h₁ := by
    rw [Heap.target, hhandle]
    exact Frame.create.target h₁
  created h₁ hh := by
    rw [hhandle]
    exact Touched.create.created h₁ hh

theorem Steady.stable : Stable (Steady s) where
  setMem _ _ hs := hs.trans ⟨rfl, fun _ => rfl, fun _ => id⟩
  create _ hs := hs.trans Touched.create.steady

theorem push_steady {ptr : Ptr} {ptrIsRef : Bool} {r : Nat × Heap} (h' : s.push h ptr ptrIsRef = .ok r) :
    Steady s r.2 := by
  obtain ⟨-, hr⟩ := push_ok h'
  rw [hr]
  exact .of_create rfl rfl

theorem unroot_steady (h' : s.unroot h = .ok s') : Steady s s' := by
  obtain ⟨⟨m, s₁⟩, hget, h'⟩ := bind_eq_ok h'
  obtain ⟨-, heq⟩ := getMemory_ok hget
  cases heq
  dsimp only at h'
  split at h'
  all_goals
    cases h'
    exact .of_create rfl rfl

theorem byRef_steady {this other : HandleId} (h' : byRef s this other = .ok s') : Steady s s' := by
  obtain ⟨⟨i, s₁⟩, hpush, h'⟩ := bind_eq_ok h'
  exact (push_steady hpush).trans (unroot_steady h')

theorem pushValue_steady {v : Nat} (h' : pushValue s h v = .ok s') : Steady s s' := by
  obtain ⟨⟨i, s₁⟩, hpush, h'⟩ := bind_eq_ok h'
  cases h'
  exact push_steady hpush

theorem getValueAt_eq {index : Nat} (hcheck : s.check h = .ok ()) : getValueAt s h index =
    match (s.mem (s.target h)).memory[index]? with
    | none => .error .outOfRange
    | some info => .ok (info.ptr, s.create h) := by
  rw [getValueAt, getMemory_eq hcheck]
  rfl

theorem getValueAt_steady {index : Nat} {r : Ptr × Heap} (h' : getValueAt s h index = .ok r) :
    Steady s r.2 := by
  obtain ⟨⟨m, s₁⟩, hget, h'⟩ := bind_eq_ok h'
  obtain ⟨-, heq⟩ := getMemory_ok hget
  cases heq
  dsimp only at h'
  split at h'
  · cases h'
  · cases h'
    exact .of_create rfl rfl

theorem setValueAt_steady {index v : Nat} (h' : setValueAt s h index v = .ok s') : Steady s s' := by
  obtain ⟨⟨m, s₁⟩, hget, h'⟩ := bind_eq_ok h'
  obtain ⟨-, heq⟩ := getMemory_ok hget
  cases heq
  dsimp only at h'
  split at h'
  · cases h'
  · split at h'
    · cases h'
    · cases h'
      exact .of_create rfl rfl

theorem reroot_steady {this other : HandleId} {index : Nat} (h' : reroot s this index other = .ok s') :
    Steady s s' := by
  obtain ⟨⟨m, s₁⟩, hget, h'⟩ := bind_eq_ok h'
  obtain ⟨-, heq⟩ := getMemory_ok hget
  cases heq
  dsimp only at h'
  split at h'
  · cases h'
  · split at h'
    · cases h'
    · obtain ⟨⟨i, s₂⟩, hpush, h'⟩ := bind_eq_ok h'
      have hrest := (push_steady hpush).trans (unroot_steady h')
      exact (Steady.stable.setMem _ _ Touched.create.steady).trans hrest

theorem release_ok {r : Bool × Heap} (h' : release deallocLimit s h = .ok r) :
    ∃ x : Memory, x.memory = (s.mem (s.target root)).memory ∧
      r.2 = ((s.setHandle h { s.handle h with deallocated := true }).create root).setMem (s.target root) x := by
  rw [release] at h'
  split at h'
  · cases h'
  · obtain ⟨⟨m, s₁⟩, hget, h'⟩ := bind_eq_ok h'
    obtain ⟨-, heq⟩ := getMemory_ok hget
    cases heq
    cases h'
    have htarget : (s.setHandle h { s.handle h with deallocated := true }).target root = s.target root := by
      rw [Heap.target, Heap.setHandle]
      dsimp only
      split
      · rename_i heq
        rw [← heq]
        rfl
      · rfl
    dsimp only
    rw [htarget]
    refine ⟨_, ?_, rfl⟩
    rfl

theorem release_steady {r : Bool × Heap} (h' : release deallocLimit s h = .ok r) : Steady s r.2 := by
  obtain ⟨x, -, hr⟩ := release_ok h'
  rw [hr]
  apply Steady.stable.setMem
  apply Steady.stable.create
  refine ⟨rfl, fun h₁ => ?_, fun h₁ hh => ?_⟩
  · rw [Heap.target, Heap.setHandle]
    dsimp only
    split
    · rename_i heq
      rw [heq]
      rfl
    · rfl
  · rw [Heap.setHandle]
    dsimp only
    split
    · rename_i heq
      rw [← heq]
      exact hh
    · exact hh

/-! ### Collections of both builds -/

theorem Coloured.touched (hmarked : Coloured s s₁) (htouched : Touched s₁ s') : Coloured s s' where
  frame := hmarked.frame.trans htouched.frame
  reached m hm := by
    rw [htouched.mem]
    exact hmarked.reached m hm
  rest m hm := by
    rw [htouched.mem]
    exact hmarked.rest m hm
  check := hmarked.check
  checkRoot := hmarked.checkRoot
  rootLives := hmarked.rootLives
  reachable := hmarked.reachable

/-- The end of a collection: the flags of `debug` have only touched the heap. -/
theorem build_collect_ok {this : HandleId} (hs : HeapOk s) (h' : Build.collect debug s this = .ok s') :
    HeapOk s' ∧ Steady s s' := by
  obtain ⟨⟨m, s₁⟩, hget, h'⟩ := bind_eq_ok h'
  obtain ⟨-, heq⟩ := getMemory_ok hget
  cases heq
  dsimp only at h'
  split at h'
  · cases h'
    exact ⟨hs.create, Touched.create.steady⟩
  · obtain ⟨s₁, htouch, h'⟩ := bind_eq_ok h'
    obtain ⟨s₂, hprint, h'⟩ := bind_eq_ok h'
    have htouched : Touched s s₂ :=
      Touched.create.trans ((touch_touched htouch).trans (printRoot_touched hprint))
    have hs₂ := (hs.touched htouched).ok
    obtain ⟨st, hgather, h'⟩ := bind_eq_ok h'
    obtain ⟨s₃, hmark, hgather⟩ := bind_eq_ok hgather
    obtain ⟨s₄, hcolor, hsweep⟩ := bind_eq_ok hgather
    have hmarked : Coloured s₂ s₄ := (mark_coloured hs₂.gray hs₂.rootLives hmark).touched (colorRoot_touched hcolor)
    have hsteady : Steady s₂ st.heap := by
      have hstable : Stable (Steady s₂) := Steady.stable
      have h₃ := (hstable.mark _ _ root .refl).of_ok hmark
      exact (hstable.doSweep _ _ root (h₃.trans (colorRoot_touched hcolor).steady)).of_ok hsweep
    obtain ⟨⟨m, s₅⟩, hget, h'⟩ := bind_eq_ok h'
    obtain ⟨-, heq⟩ := getMemory_ok hget
    cases heq
    cases h'
    refine ⟨((hmarked.gathered hs₂ hsweep).collected hs₂).ok, htouched.steady.trans (hsteady.trans ?_)⟩
    have hexecute : Steady st.heap st.execute := ⟨rfl, fun _ => rfl, fun _ => id⟩
    exact Steady.stable.setMem _ _ (Steady.stable.create root hexecute)

end ManagedObject.Collector
