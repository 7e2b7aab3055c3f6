import ManagedObject.Collector.Visit

/-!
# The trail of a sweep

`do_sweep` follows the references of a Memory from its last Info to its first, and it may enter a
Memory again for every path that leads there. The trail is the order in which the Memories are first
entered, each with the Memories that are on the recursion stack then. The invariant ties a sweep to its
trail: a dead Memory is emptied when its first visit is over, and all others have their colour reset.
Neither the order of the indexes nor the identity of the Infos plays a part.
-/

namespace ManagedObject.Collector

open Outcome ManagedObject.Lists

variable {s : Heap} {st st' : Sweep} {S path : List MemoryId} {found freed : List MemoryId}
  {acc acc' : List (MemoryId × List MemoryId)} {m r n : MemoryId} {x : Memory} {info : Info} {h : HandleId}
  {i : Nat}

/-- A heap between two collections: what the references lead to exists, and every Memory is gray, not
seen, and has the indexes of its Infos in `indexes`. -/
structure Heap.Graph (s : Heap) : Prop where
  target : ∀ h, s.target h < s.nextMemory
  checkRoot : s.check root = .ok ()
  check : ∀ m, s.Reachable m → ∀ h ∈ s.refs m, s.check h = .ok ()
  gray : ∀ m, m ∉ s.destroyedMemory → (s.mem m).color = .gray
  unseen : ∀ m, m ∉ s.destroyedMemory → (s.mem m).seen = false
  indexes : ∀ m, m ∉ s.destroyedMemory → (s.mem m).indexes.Perm ((s.mem m).memory.map Info.index)

instance : Decidable (s.DeadFirst m) :=
  match h : s.firstHandle m with
  | none => .isFalse (by simp [Heap.DeadFirst, h])
  | some a => decidable_of_iff ((s.handle a).deallocated = true) (by simp [Heap.DeadFirst, h])

/-- The Memories that a sweep finds, each with the ones on the stack when it does. -/
def Heap.trail (s : Heap) : Nat → List MemoryId → List (MemoryId × List MemoryId) → HandleId →
    List (MemoryId × List MemoryId) :=
  Dfs.trail s.target fun m => (s.refs m).reverse

/-- An Info of `m` is taken when `m` is first visited: a value of a dead Memory, or a reference to a dead
Memory that is not on the stack. -/
def Heap.takes (s : Heap) (stack : List MemoryId) (m : MemoryId) (info : Info) : Bool :=
  match info.getHeap with
  | none => !info.ptrIsRef && s.DeadFirst m
  | some h => s.DeadFirst (s.target h) && s.target h ∉ stack

def Heap.strike (s : Heap) (stack : List MemoryId) (m : MemoryId) (indexes : List Nat) (info : Info) :
    List Nat :=
  if s.takes stack m info then eraseLast (· = info.index) indexes else indexes

/-- The indexes that are left to a Memory when its first visit is over. -/
def Heap.remaining (s : Heap) (m : MemoryId) (path : List MemoryId) : List Nat :=
  (s.mem m).memory.reverse.foldl (s.strike (m :: path) m) (s.mem m).indexes

/-- No dead Memory, other than the root list, is left with an index beyond its position in `indexes`. -/
def Heap.Drains (s : Heap) : Prop :=
  ∀ p ∈ s.trail (s.nextMemory + 1) [] [] root, s.DeadFirst p.1 → p.1 ≠ s.target root →
    Early (s.remaining p.1 p.2)

/-- Why a sweep has no defined result. -/
def Overruns (s : Heap) (acc : List (MemoryId × List MemoryId)) (f : Fault) : Prop :=
  f = .outOfRange ∧ ∃ p ∈ acc, s.DeadFirst p.1 ∧ p.1 ≠ s.target root ∧ ¬ Early (s.remaining p.1 p.2)

theorem Overruns.mono {f : Fault} (h : Overruns s acc f) (hsuffix : acc <:+ acc') : Overruns s acc' f := by
  obtain ⟨rfl, p, hp, hbad⟩ := h
  exact ⟨rfl, p, hsuffix.subset hp, hbad⟩

/-! ### The invariant -/

/-- A Memory in a sweep with stack `S`, when `found` have been entered and `freed` are in the list of
Memories. -/
structure Tracked (s : Heap) (S found freed : List MemoryId) (m : MemoryId) (x : Memory) : Prop where
  seen : x.seen = true ↔ m ∈ S
  sub : x.memory.Sublist (s.mem m).memory
  indexes : x.indexes.Perm (x.memory.map Info.index)
  white : x.color = .white ↔ s.DeadFirst m
  gray : m ∈ found → ¬ s.DeadFirst m → x.color = .gray
  keep : x.keepMemory = true ↔ m ∈ found ∧ s.DeadFirst m ∧ m ∉ S
  emptied : m ∈ found → s.DeadFirst m → m ∉ S → x.memory = [] ∧ m ∈ freed
  whole : m ∉ found → x.memory = (s.mem m).memory ∧ x.indexes = (s.mem m).indexes

structure Tracks (s : Heap) (S : List MemoryId) (acc : List (MemoryId × List MemoryId)) (st : Sweep) :
    Prop where
  frame : Frame s st.heap
  cell : ∀ m, s.Reachable m → Tracked s S (Dfs.nodes acc) st.memoryList m (st.heap.mem m)
  nodup : (Dfs.nodes acc).Nodup
  stack : S ⊆ Dfs.nodes acc
  closed : ∀ n ∈ Dfs.nodes acc, n ∉ S → ∀ h ∈ s.refs n, s.target h ∈ Dfs.nodes acc
  drained : ∀ p ∈ acc, s.DeadFirst p.1 → p.1 ∉ S → Early (s.remaining p.1 p.2)

theorem Tracked.congr {S' found' freed' : List MemoryId} (hx : Tracked s S found freed m x)
    (hS : m ∈ S' ↔ m ∈ S) (hfound : m ∈ found' ↔ m ∈ found) (hfreed : freed ⊆ freed') :
    Tracked s S' found' freed' m x where
  seen := hx.seen.trans hS.symm
  sub := hx.sub
  indexes := hx.indexes
  white := hx.white
  gray hm := hx.gray (hfound.mp hm)
  keep := by rw [hx.keep, hfound, hS]
  emptied hm hdead hoff := by
    obtain ⟨hnil, hmem⟩ := hx.emptied (hfound.mp hm) hdead fun h => hoff (hS.mpr h)
    exact ⟨hnil, hfreed hmem⟩
  whole hm := hx.whole fun h => hm (hfound.mpr h)

theorem Tracks.cell_setMem {S' : List MemoryId} {list : List Info} (hst : Tracks s S acc st)
    (hS : ∀ n, n ≠ m → (n ∈ S' ↔ n ∈ S))
    (hfound : ∀ n, n ≠ m → (n ∈ Dfs.nodes acc' ↔ n ∈ Dfs.nodes acc)) (hfreed : st.memoryList ⊆ freed)
    (hx : Tracked s S' (Dfs.nodes acc') freed m x) (n : MemoryId) (hn : s.Reachable n) :
    Tracked s S' (Dfs.nodes acc') freed n
      (({ st.setMem m x with list, memoryList := freed } : Sweep).heap.mem n) := by
  rw [show ∀ n, Heap.mem (Sweep.heap _) n = _ from sweep_setMem_mem x]
  split
  · rename_i heq
    exact heq ▸ hx
  · rename_i hne
    exact (hst.cell n hn).congr (hS n hne) (hfound n hne) hfreed

theorem Tracks.create (hst : Tracks s S acc st) : Tracks s S acc (st.create h) where
  frame := hst.frame.trans .create
  cell := hst.cell
  nodup := hst.nodup
  stack := hst.stack
  closed := hst.closed
  drained := hst.drained

theorem mem_cons_of_ne (hne : n ≠ m) : n ∈ m :: S ↔ n ∈ S := by
  rw [List.mem_cons, or_iff_right hne]

theorem Tracked.enter {found' : List MemoryId} (hx : Tracked s S found freed m x)
    (hlives : m ∈ found → ¬ s.DeadFirst m) (hm : m ∈ found') :
    Tracked s (m :: S) found' freed m
      { x with seen := true, color := if x.color = .black then .gray else x.color } where
  seen := iff_of_true rfl List.mem_cons_self
  sub := hx.sub
  indexes := hx.indexes
  white := by
    rw [← hx.white]
    split
    · rename_i hblack
      simp [hblack]
    · rfl
  gray _ hlives' := by
    rw [← hx.white] at hlives'
    revert hlives'
    cases x.color <;> simp
  keep := by
    have hkeep : ¬ x.keepMemory = true := fun h => hlives (hx.keep.mp h).1 (hx.keep.mp h).2.1
    simp [hkeep]
  emptied _ _ hoff := absurd List.mem_cons_self hoff
  whole hnew := absurd hm hnew

theorem Tracks.enter (hst : Tracks s S acc st) (hm : s.Reachable m) (hnew : m ∉ Dfs.nodes acc) :
    Tracks s (m :: S) ((m, S) :: acc) (st.enter m) where
  frame := hst.frame.trans (.setMem _)
  cell := hst.cell_setMem (fun _ => mem_cons_of_ne) (fun _ => mem_cons_of_ne) (fun _ => id)
    ((hst.cell m hm).enter (fun h => absurd h hnew) List.mem_cons_self)
  nodup := List.nodup_cons.mpr ⟨hnew, hst.nodup⟩
  stack := List.cons_subset_cons _ hst.stack
  closed n hn hoff h hh := by
    have hne : n ≠ m := fun heq => hoff (heq ▸ List.mem_cons_self)
    have hfound := hst.closed n ((mem_cons_of_ne hne).mp hn) (fun h => hoff (List.mem_cons_of_mem _ h)) h hh
    exact List.mem_cons_of_mem _ hfound
  drained p hp hdead hoff := by
    rcases List.mem_cons.mp hp with rfl | hp
    · exact absurd List.mem_cons_self hoff
    · exact hst.drained p hp hdead fun h => hoff (List.mem_cons_of_mem _ h)

theorem Tracks.reenter (hst : Tracks s S acc st) (hm : s.Reachable m) (hfound : m ∈ Dfs.nodes acc)
    (hlives : ¬ s.DeadFirst m) : Tracks s (m :: S) acc (st.enter m) where
  frame := hst.frame.trans (.setMem _)
  cell := hst.cell_setMem (fun _ => mem_cons_of_ne) (fun _ _ => Iff.rfl) (fun _ => id)
    ((hst.cell m hm).enter (fun _ => hlives) hfound)
  nodup := hst.nodup
  stack := List.cons_subset.mpr ⟨hfound, hst.stack⟩
  closed n hn hoff := hst.closed n hn fun h => hoff (List.mem_cons_of_mem _ h)
  drained p hp hdead hoff := hst.drained p hp hdead fun h => hoff (List.mem_cons_of_mem _ h)

theorem Tracks.leave (hst : Tracks s (m :: S) acc st) (hm : s.Reachable m) (hoff : m ∉ S)
    (hlives : ¬ s.DeadFirst m) (hclosed : ∀ h ∈ s.refs m, s.target h ∈ Dfs.nodes acc) :
    Tracks s S acc (st.leave m) := by
  have hx := hst.cell m hm
  have hkeep : ¬ (st.heap.mem m).keepMemory = true := fun h => hlives (hx.keep.mp h).2.1
  constructor
  case frame => exact hst.frame.trans (.setMem _)
  case cell =>
    refine hst.cell_setMem (fun _ hne => (mem_cons_of_ne hne).symm) (fun _ _ => Iff.rfl) (fun _ => id) ?_
    constructor
    case seen => exact iff_of_false Bool.false_ne_true hoff
    case sub => exact hx.sub
    case indexes => exact hx.indexes
    case white => exact hx.white
    case gray => exact hx.gray
    case keep => exact iff_of_false hkeep fun h => hlives h.2.1
    case emptied => exact fun _ hdead => absurd hdead hlives
    case whole => exact hx.whole
  case nodup => exact hst.nodup
  case stack => exact List.Subset.trans (List.subset_cons_self _ _) hst.stack
  case closed =>
    intro n hn hoff'
    by_cases heq : n = m
    · exact heq ▸ hclosed
    · exact hst.closed n hn fun h => hoff' ((mem_cons_of_ne heq).mp h)
  case drained =>
    intro p hp hdead hoff'
    have hne : p.1 ≠ m := fun heq => hlives (heq ▸ hdead)
    exact hst.drained p hp hdead fun h => hoff' ((mem_cons_of_ne hne).mp h)

theorem Tracks.remove (hst : Tracks s S acc st) (hm : s.Reachable m) (hopen : m ∈ S)
    (hget : (st.heap.mem m).memory[i]? = some info) : Tracks s S acc (st.remove m i info) := by
  have hx := hst.cell m hm
  constructor
  case frame => exact hst.frame.trans (.setMem _)
  case cell =>
    refine hst.cell_setMem (fun _ _ => Iff.rfl) (fun _ _ => Iff.rfl) (fun _ => id) ?_
    constructor
    case seen => exact hx.seen
    case sub => exact (List.eraseIdx_sublist _ _).trans hx.sub
    case indexes => exact perm_remove hx.indexes hget
    case white => exact hx.white
    case gray => exact hx.gray
    case keep => exact hx.keep
    case emptied => exact fun _ _ hoff => absurd hopen hoff
    case whole => exact fun hnew => absurd (hst.stack hopen) hnew
  case nodup => exact hst.nodup
  case stack => exact hst.stack
  case closed => exact hst.closed
  case drained => exact hst.drained

/-- The first visit of a dead Memory is over. -/
structure Spent (s : Heap) (S : List MemoryId) (acc : List (MemoryId × List MemoryId)) (r : MemoryId)
    (st : Sweep) : Prop where
  tracks : Tracks s (r :: S) acc st
  off : r ∉ S
  dead : s.DeadFirst r
  path : (r, S) ∈ acc
  closed : ∀ h ∈ s.refs r, s.target h ∈ Dfs.nodes acc
  indexes : (st.heap.mem r).indexes = s.remaining r S

/-- A dead Memory is emptied after its first visit. -/
theorem Spent.free (hst : Spent s S acc r st) (hr : s.Reachable r) (hearly : Early (s.remaining r S))
    (list : List Info) : Tracks s S acc
      { ((st.leave r).create h).setMem r { ((st.leave r).create h).heap.mem r with
          indexes := [], memory := [], keepMemory := true } with
        list, memoryList := st.memoryList ++ [r] } := by
  have hx := hst.tracks.cell r hr
  have hfound : r ∈ Dfs.nodes acc := hst.tracks.stack List.mem_cons_self
  show Tracks s S acc { ((st.create h).setMem r _).setMem r _ with list, memoryList := _ }
  rw [setMem_setMem]
  constructor
  case frame => exact (hst.tracks.frame.trans .create).trans (.setMem _)
  case cell =>
    refine hst.tracks.create.cell_setMem (fun _ hne => (mem_cons_of_ne hne).symm) (fun _ _ => Iff.rfl)
      (List.subset_append_left _ _) ?_
    have hleft : ((st.leave r).create h).heap.mem r = { st.heap.mem r with seen := false } :=
      setMem_mem_self _
    rw [hleft]
    constructor
    case seen => exact iff_of_false Bool.false_ne_true hst.off
    case sub => exact List.nil_sublist _
    case indexes => exact .refl _
    case white => exact hx.white
    case gray => exact fun _ hlives => absurd hst.dead hlives
    case keep => exact iff_of_true rfl ⟨hfound, hst.dead, hst.off⟩
    case emptied => exact fun _ _ _ => ⟨rfl, List.mem_append_right _ List.mem_cons_self⟩
    case whole => exact fun hnew => absurd hfound hnew
  case nodup => exact hst.tracks.nodup
  case stack => exact List.Subset.trans (List.subset_cons_self _ _) hst.tracks.stack
  case closed =>
    intro n hn hoff
    by_cases heq : n = r
    · exact heq ▸ hst.closed
    · exact hst.tracks.closed n hn fun h => hoff ((mem_cons_of_ne heq).mp h)
  case drained =>
    intro p hp hdead hoff
    by_cases heq : p.1 = r
    · obtain rfl : p = (r, S) := List.inj_on_of_nodup_map hst.tracks.nodup hp hst.path heq
      exact hearly
    · exact hst.tracks.drained p hp hdead fun h => hoff ((mem_cons_of_ne heq).mp h)

end ManagedObject.Collector
