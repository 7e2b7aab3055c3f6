import ManagedObject.Collector.Runs

/-!
# Debug builds

With `MANAGED_OBJECT_HEAP_DEBUG` the operations print the heap and check assertions. A printed or
asserted Memory is obtained by `get_memory`, so it is created, and nothing else changes. Assertions that
stop the program are left out, so a run in the model may go on where the program stops.
-/

namespace ManagedObject.Collector

open Outcome

/-- `print` and `color`, without their output. Below a deallocated handle only `color` goes on. -/
def trace (stopAtDead : Bool) : Nat → Heap → HandleId → Except Fault Heap
  | 0, _, _ => .error .depth
  | depth + 1, s, h => do
    let (m, s) ← s.getMemory h
    let x := s.mem m
    if x.memory.length = 0 then return s
    if x.seen then return s
    if stopAtDead && (s.handle h).deallocated then return s
    let s := s.setMem m { x with seen := true }
    let s ← (x.memory.filterMap Info.getHeap).foldlM (trace stopAtDead depth) s
    return s.setMem m { s.mem m with seen := false }

/-- `get_root()->print()`, in a debug build. -/
def Heap.printRoot (debug : Bool) (s : Heap) : Except Fault Heap :=
  if debug then trace true (s.nextMemory + 1) s root else return s

/-- `root->color()`, in a debug build. -/
def Heap.colorRoot (debug : Bool) (s : Heap) : Except Fault Heap :=
  if debug then trace false (s.nextMemory + 1) s root else return s

/-- `get_memory()` in an assertion or a message. -/
def Heap.touch (debug : Bool) (s : Heap) (h : HandleId) : Except Fault Heap := do
  if debug then
    let (_, s) ← s.getMemory h
    return s
  return s

namespace Build

variable (debug : Bool)

/-- `mark` and `do_sweep` from the root. -/
def gather (s : Heap) : Except Fault Sweep := do
  let s ← mark (s.nextMemory + 1) s root
  let s ← s.colorRoot debug
  doSweep (s.nextMemory + 1) ⟨s, [], []⟩ root

/-- `collect`, called through the handle `this`. -/
def collect (s : Heap) (this : HandleId) : Except Fault Heap := do
  let (m, s) ← s.getMemory root
  if (s.mem m).memory.length = 0 then return s
  let s ← s.touch debug this
  let s ← s.printRoot debug
  let st ← gather debug s
  let (m, s) ← st.execute.getMemory root
  return s.setMem m { s.mem m with deallocCount := 0 }

/-- `dealloc`; the flag says whether it collected. -/
def dealloc (deallocLimit : Nat) (s : Heap) (h : HandleId) : Except Fault (Bool × Heap) := do
  if debug && (s.mem (s.handle root).memory).seen then return (false, s)
  let (due, s) ← release deallocLimit s h
  if due then return (true, ← collect debug s h)
  return (false, s)

def construct (s : Heap) : Except Fault (HandleId × Heap) := do
  let (h, s) ← Collector.construct s
  return (h, ← s.printRoot debug)

/-- The Memory of the copy is asserted to be unseen before the root list gets the copy. -/
def copyConstruct (s : Heap) (other : HandleId) : Except Fault (HandleId × Heap) := do
  let (h, s) ← Collector.copyConstruct s other
  let s ← s.touch debug h
  return (h, ← s.printRoot debug)

def assign (deallocLimit : Nat) (s : Heap) (this other : HandleId) : Except Fault (Bool × Heap) := do
  if this = other then return (false, s)
  let s ← s.printRoot debug
  let (old, s) ← reassign s this other
  let s ← s.printRoot debug
  let (collected, s) ← dealloc debug deallocLimit s old
  let s ← s.printRoot debug
  return (collected, ← s.touch debug this)

/-- The Memory of `other` is asserted to be unseen before the root list loses it. -/
def byRef (s : Heap) (this other : HandleId) : Except Fault Heap := do
  let s ← s.printRoot debug
  let s ← Collector.byRef s this other
  let s ← s.touch debug other
  s.printRoot debug

def reroot (s : Heap) (this : HandleId) (index : Nat) (other : HandleId) : Except Fault Heap := do
  let s ← s.printRoot debug
  let s ← Collector.reroot s this index other
  let s ← s.touch debug other
  s.printRoot debug

end Build

/-- A step in a debug or in a release build; the flag says whether a collection ran. -/
def Program.build (debug : Bool) (deallocLimit : Nat) (p : Program) : Op → Except Fault (Bool × Program)
  | .construct => do
    let (h, s) ← Build.construct debug p.heap
    return (false, ⟨s, h :: p.scope⟩)
  | .copy other => do
    p.variable other
    let (h, s) ← Build.copyConstruct debug p.heap other
    return (false, ⟨s, h :: p.scope⟩)
  | .assign this other => do
    p.variable this
    p.variable other
    let (collected, s) ← Build.assign debug deallocLimit p.heap this other
    return (collected, { p with heap := s })
  | .byRef this other => do
    p.variable this
    p.variable other
    return (false, { p with heap := ← Build.byRef debug p.heap this other })
  | .reroot this index other => do
    p.variable this
    p.variable other
    return (false, { p with heap := ← Build.reroot debug p.heap this index other })
  | .pushValue this v => do
    p.variable this
    return (false, { p with heap := ← pushValue p.heap this v })
  | .getValueAt this index => do
    p.variable this
    let (_, s) ← getValueAt p.heap this index
    return (false, { p with heap := s })
  | .setValueAt this index v => do
    p.variable this
    return (false, { p with heap := ← setValueAt p.heap this index v })
  | .dealloc this => do
    p.variable this
    let (collected, s) ← Build.dealloc debug deallocLimit p.heap this
    return (collected, { p with heap := s })
  | .destroy this => do
    p.variable this
    let (collected, s) ← Build.dealloc debug deallocLimit p.heap this
    return (collected, ⟨s, p.scope.erase this⟩)
  | .collect => return (true, { p with heap := ← Build.collect debug p.heap root })

variable {s s' s₁ : Heap} {h : HandleId} {m : MemoryId} {debug : Bool}

/-! ### Touching -/

/-- Handles have been created, and nothing else has happened. -/
structure Touched (s s' : Heap) : Prop where
  mem : s'.mem = s.mem
  frame : Frame s s'
  created : ∀ h, (s.handle h).created = true → (s'.handle h).created = true

theorem Touched.refl : Touched s s := ⟨rfl, .refl, fun _ => id⟩

theorem Touched.trans (h₁ : Touched s s₁) (h₂ : Touched s₁ s') : Touched s s' where
  mem := h₂.mem.trans h₁.mem
  frame := h₁.frame.trans h₂.frame
  created h hh := h₂.created h (h₁.created h hh)

theorem created_create (h₁ : HandleId) :
    ((s.create h).handle h₁).created = (decide (h₁ = h) || (s.handle h₁).created) := by
  rw [Heap.create, Heap.setHandle]
  dsimp only
  split
  · rename_i heq
    simp [heq]
  · rename_i hne
    simp [hne]

theorem Touched.create : Touched s (s.create h) := by
  refine ⟨rfl, .create, fun h₁ hh => ?_⟩
  rw [created_create, hh, Bool.or_true]

/-- A visited Memory is unseen, so its flag is the old one when it is left. -/
theorem trace_touched {stopAtDead : Bool} : ∀ {depth s s' h}, trace stopAtDead depth s h = .ok s' →
    Touched s s' ∧ (s'.handle h).created = true := by
  intro depth
  induction depth with
  | zero =>
    intro s s' h h'
    cases h'
  | succ depth ih =>
    intro s s' h h'
    have hcreated : ((s.create h).handle h).created = true := by
      simp [created_create]
    obtain ⟨⟨m, s₁⟩, hget, h'⟩ := bind_eq_ok h'
    obtain ⟨-, heq⟩ := getMemory_ok hget
    cases heq
    dsimp only at h'
    split at h'
    · cases h'
      exact ⟨.create, hcreated⟩
    · split at h'
      · cases h'
        exact ⟨.create, hcreated⟩
      · rename_i hunseen
        split at h'
        · cases h'
          exact ⟨.create, hcreated⟩
        · obtain ⟨s₂, hfold, h'⟩ := bind_eq_ok h'
          cases h'
          have hloop := foldlM_rule (Touched _) (fun _ _ _ _ h₁ h₂ => h₁.trans (ih h₂).1) .refl hfold
          have hmem : (s₂.setMem (s.target h) { s₂.mem (s.target h) with seen := false }).mem = s.mem := by
            funext m
            rw [setMem_mem, hloop.mem, setMem_mem_self, setMem_mem]
            split
            · rename_i heq
              rw [heq]
              exact congrArg (fun seen => { s.mem (s.target h) with seen }) (Bool.eq_false_iff.mpr hunseen).symm
            · rfl
          refine ⟨⟨hmem, (Frame.create.trans (.setMem _)).trans (hloop.frame.trans (.setMem _)), ?_⟩, ?_⟩
          · exact fun h₁ hh => hloop.created h₁ (Touched.create.created h₁ hh)
          · exact hloop.created h hcreated

/-- The visited Memories that have not been left are seen, so the depth is bounded by their number. -/
theorem trace_meets {stopAtDead : Bool} {n : Nat} : ∀ depth S s h, (∀ m, (s.mem m).seen = true ↔ m ∈ S) →
    (∀ h, s.target h < n) → Dfs.left (List.range n) S < depth →
      Meets (trace stopAtDead depth s h) (· ≠ .depth) fun _ => True := by
  intro depth
  induction depth with
  | zero =>
    intro S s h _ _ hdepth
    exact absurd hdepth (Nat.not_lt_zero _)
  | succ depth ih =>
    intro S s h hseen htarget hdepth
    rw [trace]
    refine getMemory_meets.bind fun r hr => ?_
    subst hr
    dsimp only
    split
    · exact trivial
    · split
      · exact trivial
      · rename_i hunseen
        split
        · exact trivial
        · have hoff : s.target h ∉ S := fun hmem => hunseen ((hseen (s.target h)).mpr hmem)
          have hless : Dfs.left (List.range n) (s.target h :: S) < Dfs.left (List.range n) S :=
            Dfs.left_cons (List.mem_range.mpr (htarget h)) hoff
          refine Meets.bind (Meets.foldlM (Touched.refl : Touched _ _) ?_) fun _ _ => trivial
          intro ref _ s₁ htouched
          have hmeets := ih (s.target h :: S) s₁ ref ?_ ?_ (by omega)
          · cases hround : trace stopAtDead depth s₁ ref with
            | ok s₂ => exact htouched.trans (trace_touched hround).1
            | error f =>
              rw [hround] at hmeets
              exact hmeets
          · intro m
            rw [htouched.mem, setMem_mem, List.mem_cons]
            split
            · rename_i heq
              exact iff_of_true rfl (Or.inl heq)
            · rename_i hne
              rw [or_iff_right hne]
              exact hseen m
          · intro h₁
            rw [htouched.frame.target]
            exact Nat.lt_of_le_of_lt (Nat.le_of_eq (Frame.create.target h₁)) (htarget h₁)

theorem trace_root_meets {stopAtDead : Bool} (hunseen : ∀ m, (s.mem m).seen = false)
    (htarget : ∀ h, s.target h < s.nextMemory) :
    Meets (trace stopAtDead (s.nextMemory + 1) s root) (· ≠ .depth) fun _ => True := by
  apply trace_meets _ [] _ _ (fun m => by simp [hunseen m]) htarget
  have hleft : Dfs.left (List.range s.nextMemory) [] ≤ _ := List.countP_le_length
  rw [List.length_range] at hleft
  exact Nat.lt_succ_of_le hleft

theorem printRoot_touched (h' : s.printRoot debug = .ok s') : Touched s s' := by
  rw [Heap.printRoot] at h'
  split at h'
  · exact (trace_touched h').1
  · cases h'
    exact .refl

theorem colorRoot_touched (h' : s.colorRoot debug = .ok s') : Touched s s' := by
  rw [Heap.colorRoot] at h'
  split at h'
  · exact (trace_touched h').1
  · cases h'
    exact .refl

theorem touch_touched (h' : s.touch debug h = .ok s') : Touched s s' := by
  rw [Heap.touch] at h'
  split at h'
  · obtain ⟨⟨m, s₁⟩, hget, h'⟩ := bind_eq_ok h'
    obtain ⟨-, heq⟩ := getMemory_ok hget
    cases heq
    cases h'
    exact .create
  · cases h'
    exact .refl

theorem Touched.ids (htouched : Touched s s') (m : MemoryId) : s'.ids m = s.ids m := by
  rw [Heap.ids, htouched.mem, Heap.ids]

theorem Touched.refs (htouched : Touched s s') (m : MemoryId) : s'.refs m = s.refs m := by
  rw [Heap.refs, htouched.mem, Heap.refs]

theorem HeapOk.touched (hs : HeapOk s) (htouched : Touched s s') : Next s s' := by
  have hmem := htouched.mem
  have hframe := htouched.frame
  refine ⟨?_, Nat.le_of_eq hframe.nextHandle.symm, hframe.destroyed, hframe.destroyedMemory⟩
  have hknown : ∀ h, s.Known h → s'.Known h := fun h hh => ⟨hh.1, hframe.nextHandle ▸ hh.2⟩
  constructor
  case target =>
    intro h
    rw [hframe.target, hframe.nextMemory]
    exact hs.target h
  case indexes => exact fun m => hmem ▸ hs.indexes m
  case late => exact fun m => hmem ▸ hs.late m
  case unseen => exact fun m => hmem ▸ hs.unseen m
  case gray => exact fun m hm => hmem ▸ hs.gray m (hframe.destroyedMemory ▸ hm)
  case nodup => exact fun m => htouched.ids m ▸ hs.nodup m
  case owner => exact fun m m' i hi hi' => hs.owner m m' i (htouched.ids m ▸ hi) (htouched.ids m' ▸ hi')
  case fresh =>
    intro m i hi
    rw [hframe.nextInfo, hframe.destroyed]
    exact hs.fresh m i (htouched.ids m ▸ hi)
  case known => exact fun m h hh => hknown h (hs.known m h (htouched.refs m ▸ hh))
  case rootLives => exact (hframe.deallocated root).trans hs.rootLives
  case rootKnown => exact hframe.nextHandle ▸ hs.rootKnown
  case oldInfo =>
    rw [hframe.nextInfo, hframe.destroyed]
    exact hs.oldInfo
  case oldHandle =>
    intro h hh
    rw [Heap.destroyedHandles, hframe.destroyed] at hh
    exact hknown h (hs.oldHandle h hh)
  case once => exact hframe.destroyed ▸ hs.once
  case onceMemory => exact hframe.destroyedMemory ▸ hs.onceMemory

/-! ### Release builds -/

theorem collect_release {this : HandleId} : Build.collect false s this = collect s := rfl

theorem dealloc_release {deallocLimit : Nat} :
    Prod.snd <$> Build.dealloc false deallocLimit s h = dealloc deallocLimit s h := by
  simp only [Build.dealloc, Bool.false_and, Bool.false_eq_true, if_false, map_bind, dealloc]
  apply bind_congr
  intro r
  cases r.1 <;> simp [collect_release]

theorem assign_release {deallocLimit : Nat} {this other : HandleId} :
    Prod.snd <$> Build.assign false deallocLimit s this other = assign deallocLimit s this other := by
  rw [Build.assign, assign]
  split
  · rfl
  · simp [Heap.printRoot, Heap.touch, ← dealloc_release]

theorem build_release {deallocLimit : Nat} {p : Program} {op : Op} :
    Prod.snd <$> p.build false deallocLimit op = p.step deallocLimit op := by
  cases op <;> simp [Program.build, Program.step, Build.construct, Build.copyConstruct, Build.byRef,
    Build.reroot, ← dealloc_release, ← assign_release, collect_release, Heap.printRoot, Heap.touch]

end ManagedObject.Collector
