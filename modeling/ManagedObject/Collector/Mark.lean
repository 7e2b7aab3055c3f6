import ManagedObject.Collector.Model
import ManagedObject.Lib.Dfs

/-!
# Marking is a depth-first search

The Memories are the nodes of a graph and the handles in their Infos are its edges. When all
Memories are gray, `mark` colours exactly the ones that a depth-first search from the root finds, and
the colour of each is decided by the handle through which the search finds it first: it is white if
that handle was deallocated.
-/

namespace ManagedObject.Collector

/-- The handles that the Infos of a Memory refer to. -/
def Heap.refs (s : Heap) (m : MemoryId) : List HandleId := (s.mem m).memory.filterMap Info.getHeap

def Heap.target (s : Heap) (h : HandleId) : MemoryId := (s.handle h).memory

def Heap.search (s : Heap) : Except Fault (List (MemoryId × HandleId)) :=
  Dfs.visit s.target s.refs s.check .depth (s.nextMemory + 1) [] root

/-- The handle through which a search from the root list first reaches a Memory. -/
def Heap.firstHandle (s : Heap) (m : MemoryId) : Option HandleId :=
  match s.search with
  | .ok acc => Dfs.discovery acc m
  | .error _ => none

/-- The Memory is first reached through a deallocated handle. -/
def Heap.DeadFirst (s : Heap) (m : MemoryId) : Prop :=
  ∃ h, s.firstHandle m = some h ∧ (s.handle h).deallocated = true

/-- A path of reference Infos leads from one Memory to another. -/
def Heap.Leads (s : Heap) (m n : MemoryId) : Prop :=
  Relation.ReflTransGen (Dfs.Edge s.target s.refs) m n

/-- A path of reference Infos leads from the root list to a Memory. -/
def Heap.Reachable (s : Heap) (m : MemoryId) : Prop := s.Leads (s.target root) m

variable {s s₀ s' : Heap} {acc acc' : List (MemoryId × HandleId)} {m : MemoryId} {h : HandleId}

theorem deadFirst_of_search {acc : List (MemoryId × HandleId)} (h : s.search = .ok acc)
    (hdead : s.DeadFirst m) : ∃ p ∈ acc, p.1 = m ∧ (s.handle p.2).deallocated = true := by
  obtain ⟨h', hfirst, hdead⟩ := hdead
  rw [Heap.firstHandle, h] at hfirst
  exact ⟨(m, h'), Dfs.mem_of_discovery hfirst, rfl, hdead⟩

/-! ### Updates of a heap -/

theorem setMem_mem (x : Memory) (m' : MemoryId) :
    (s.setMem m x).mem m' = if m' = m then x else s.mem m' := rfl

@[simp] theorem setMem_mem_self (x : Memory) : (s.setMem m x).mem m = x := by
  rw [setMem_mem, if_pos rfl]

theorem setMem_mem_of_ne {m' : MemoryId} (hne : m' ≠ m) (x : Memory) :
    (s.setMem m x).mem m' = s.mem m' := by
  rw [setMem_mem, if_neg hne]

@[simp] theorem create_mem : (s.create h).mem = s.mem := rfl

/-- Everything but the Memories, and which of them have been created, is the same. -/
structure Frame (s s' : Heap) : Prop where
  target : ∀ h, s'.target h = s.target h
  deallocated : ∀ h, (s'.handle h).deallocated = (s.handle h).deallocated
  nextHandle : s'.nextHandle = s.nextHandle
  nextMemory : s'.nextMemory = s.nextMemory
  nextInfo : s'.nextInfo = s.nextInfo
  destroyed : s'.destroyed = s.destroyed
  destroyedMemory : s'.destroyedMemory = s.destroyedMemory

theorem Frame.refl : Frame s s :=
  ⟨fun _ => rfl, fun _ => rfl, rfl, rfl, rfl, rfl, rfl⟩

theorem Frame.trans {s₁ s₂ s₃ : Heap} (h₁ : Frame s₁ s₂) (h₂ : Frame s₂ s₃) : Frame s₁ s₃ where
  target h := (h₂.target h).trans (h₁.target h)
  deallocated h := (h₂.deallocated h).trans (h₁.deallocated h)
  nextHandle := h₂.nextHandle.trans h₁.nextHandle
  nextMemory := h₂.nextMemory.trans h₁.nextMemory
  nextInfo := h₂.nextInfo.trans h₁.nextInfo
  destroyed := h₂.destroyed.trans h₁.destroyed
  destroyedMemory := h₂.destroyedMemory.trans h₁.destroyedMemory

theorem Frame.setMem (x : Memory) : Frame s (s.setMem m x) :=
  ⟨fun _ => rfl, fun _ => rfl, rfl, rfl, rfl, rfl, rfl⟩

theorem Frame.create : Frame s (s.create h) := by
  have hhandle : ∀ h', ((s.create h).handle h').memory = (s.handle h').memory ∧
      ((s.create h).handle h').deallocated = (s.handle h').deallocated := by
    intro h'
    simp only [Heap.create, Heap.setHandle]
    split
    · rename_i heq
      rw [heq]
      exact ⟨rfl, rfl⟩
    · exact ⟨rfl, rfl⟩
  exact ⟨fun h' => (hhandle h').1, fun h' => (hhandle h').2, rfl, rfl, rfl, rfl, rfl⟩

theorem Frame.isDestroyed (hframe : Frame s s') : s'.isDestroyed h = s.isDestroyed h := by
  rw [Heap.isDestroyed, hframe.destroyed, Heap.isDestroyed]

theorem Frame.check (hframe : Frame s s') : s'.check h = s.check h := by
  have htarget : (s'.handle h).memory = (s.handle h).memory := hframe.target h
  rw [Heap.check, hframe.isDestroyed, hframe.destroyedMemory, htarget, Heap.check]

theorem getMemory_eq (hcheck : s.check h = .ok ()) :
    s.getMemory h = .ok (s.target h, s.create h) := by
  rw [Heap.getMemory, hcheck]
  rfl

theorem getMemory_error {f : Fault} (hcheck : s.check h = .error f) : s.getMemory h = .error f := by
  rw [Heap.getMemory, hcheck]
  rfl

theorem getMemory_ok {r : MemoryId × Heap} (hget : s.getMemory h = .ok r) :
    s.check h = .ok () ∧ r = (s.target h, s.create h) := by
  cases hcheck : s.check h with
  | error f =>
    rw [getMemory_error hcheck] at hget
    cases hget
  | ok _ =>
    rw [getMemory_eq hcheck] at hget
    cases hget
    exact ⟨rfl, rfl⟩

theorem check_ok (hcheck : s.check h = .ok ()) :
    s.isDestroyed h = false ∧ s.target h ∉ s.destroyedMemory := by
  rw [Heap.check] at hcheck
  split at hcheck
  · cases hcheck
  · rename_i hhandle
    split at hcheck
    · cases hcheck
    · rename_i hmemory
      exact ⟨by simpa using hhandle, hmemory⟩

theorem check_ne_depth : s.check h ≠ .error .depth := by
  rw [Heap.check]
  split
  · nofun
  · split <;> nofun

/-! ### The simulation -/

/-- The colour that the discovering handle of a Memory gives it. -/
def tint (s : Heap) (acc : List (MemoryId × HandleId)) (m : MemoryId) : Color :=
  match Dfs.discovery acc m with
  | some h => if (s.handle h).deallocated then .white else .black
  | none => .gray

theorem tint_ne_gray (hm : m ∈ Dfs.nodes acc) : tint s acc m ≠ .gray := by
  obtain ⟨h, hh⟩ := Option.isSome_iff_exists.mp (Dfs.discovery_isSome.mpr hm)
  rw [tint, hh]
  dsimp only
  split <;> nofun

/-- The heap `s₀` in the middle of its marking, when `acc` has been found. -/
structure Marked (s₀ : Heap) (acc : List (MemoryId × HandleId)) (s : Heap) : Prop where
  found : ∀ m ∈ Dfs.nodes acc, s.mem m = { s₀.mem m with color := tint s₀ acc m, keepMemory := false }
  rest : ∀ m, m ∉ Dfs.nodes acc → s.mem m = s₀.mem m
  frame : Frame s₀ s

theorem Marked.start : Marked s [] s where
  found _ hm := by cases hm
  rest _ _ := rfl
  frame := .refl

theorem Marked.refs (hs : Marked s₀ acc s) (m : MemoryId) : s.refs m = s₀.refs m := by
  rw [Heap.refs, Heap.refs]
  by_cases hm : m ∈ Dfs.nodes acc
  · rw [hs.found m hm]
  · rw [hs.rest m hm]

/-- A Memory that was found before is left as it is. -/
theorem Marked.again (hs : Marked s₀ acc s) (hm : m ∈ Dfs.nodes acc) :
    Marked s₀ acc ((s.create h).setMem m { (s.create h).mem m with keepMemory := false }) where
  found m' hm' := by
    rw [setMem_mem]
    split
    · rename_i heq
      rw [heq, create_mem, hs.found m hm]
    · exact hs.found m' hm'
  rest m' hm' := by
    rw [setMem_mem_of_ne]
    · exact hs.rest m' hm'
    · rintro rfl
      exact hm' hm
  frame := (hs.frame.trans .create).trans (.setMem _)

/-- A new Memory gets its colour from the handle that leads to it. -/
theorem Marked.discover (hs : Marked s₀ acc s) (hm : m ∉ Dfs.nodes acc) {x : Memory}
    (hx : x = { s₀.mem m with
      color := if (s₀.handle h).deallocated then .white else .black
      keepMemory := false }) {s₁ : Heap} (hmem : ∀ m', m' ≠ m → s₁.mem m' = s.mem m')
    (hframe : Frame s s₁) : Marked s₀ ((m, h) :: acc) (s₁.setMem m x) where
  found m' hm' := by
    rw [setMem_mem]
    by_cases heq : m' = m
    · subst heq
      rw [if_pos rfl, hx, tint, Dfs.discovery_cons_self]
    · rw [if_neg heq, hmem m' heq, hs.found m' ((List.mem_cons.mp hm').resolve_left heq), tint,
        tint, Dfs.discovery_cons_of_ne heq]
  rest m' hm' := by
    have hne : m' ≠ m := fun heq => hm' (heq ▸ List.mem_cons_self)
    rw [setMem_mem_of_ne hne, hmem m' hne]
    exact hs.rest m' fun hmem' => hm' (List.mem_cons_of_mem _ hmem')
  frame := (hs.frame.trans hframe).trans (.setMem _)

/-- `mark` and the search give the same error, or the heap coloured by the search. -/
def Simulates (s₀ : Heap) (found : Except Fault (List (MemoryId × HandleId)))
    (marked : Except Fault Heap) : Prop :=
  match found with
  | .ok acc => ∃ s, marked = .ok s ∧ Marked s₀ acc s
  | .error f => marked = .error f

theorem mark_simulates (hgray : ∀ m, m ∉ s₀.destroyedMemory → (s₀.mem m).color = .gray) :
    ∀ depth {acc s h}, Marked s₀ acc s →
      Simulates s₀ (Dfs.visit s₀.target s₀.refs s₀.check .depth depth acc h) (mark depth s h) := by
  intro depth
  induction depth with
  | zero =>
    intro acc s h _
    rfl
  | succ depth ih =>
    intro acc s h hs
    have hfold : ∀ (es : List HandleId) acc s, Marked s₀ acc s → Simulates s₀
        (es.foldlM (Dfs.visit s₀.target s₀.refs s₀.check .depth depth) acc)
        (es.foldlM (mark depth) s) := by
      intro es
      induction es with
      | nil => exact fun acc s hs => ⟨s, rfl, hs⟩
      | cons e es ih' =>
        intro acc s hs
        rw [List.foldlM_cons, List.foldlM_cons]
        have hstep := ih hs (h := e)
        cases hvisit : Dfs.visit s₀.target s₀.refs s₀.check .depth depth acc e with
        | error f =>
          rw [hvisit, Simulates] at hstep
          rw [hstep]
          rfl
        | ok acc' =>
          rw [hvisit, Simulates] at hstep
          obtain ⟨s', hmark, hs'⟩ := hstep
          rw [hmark]
          exact ih' acc' s' hs'
    rw [Dfs.visit, mark]
    cases hcheck : s₀.check h with
    | error f =>
      rw [getMemory_error (by rw [hs.frame.check, hcheck])]
      rfl
    | ok _ =>
      rw [getMemory_eq (by rw [hs.frame.check, hcheck]), hs.frame.target]
      simp only [bind, Except.bind]
      by_cases hm : s₀.target h ∈ Dfs.nodes acc
      · have hcolor : (s.mem (s₀.target h)).color ≠ .gray := by
          rw [hs.found _ hm]
          exact tint_ne_gray hm
        rw [if_pos hm, if_pos (by simpa using hcolor)]
        exact ⟨_, rfl, hs.again hm⟩
      · have hcolor : (s.mem (s₀.target h)).color = .gray := by
          rw [hs.rest _ hm]
          exact hgray _ (check_ok hcheck).2
        rw [if_neg hm, if_neg (by simpa using hcolor)]
        simp only [setMem_mem_self]
        have hrefs : (s.mem (s₀.target h)).memory.filterMap Info.getHeap = s₀.refs (s₀.target h) :=
          hs.refs _
        rw [create_mem, hrefs]
        refine hfold _ _ _ (hs.discover hm ?_ ?_ (Frame.create.trans (.setMem _)))
        · rw [hs.rest _ hm]
          have hdead := hs.frame.deallocated h
          simp only [Heap.create, Heap.setHandle, Heap.setMem, if_true, hdead]
        · exact fun m' hne => setMem_mem_of_ne hne _

/-! ### What a marking leaves -/

/-- The heap `s` is `s₀` with its Memories marked. -/
structure Coloured (s₀ s : Heap) : Prop where
  frame : Frame s₀ s
  reached : ∀ m, s₀.Reachable m → ∃ color, color ≠ .gray ∧ (color = .white ↔ s₀.DeadFirst m) ∧
    s.mem m = { s₀.mem m with color, keepMemory := false }
  rest : ∀ m, ¬ s₀.Reachable m → s.mem m = s₀.mem m
  check : ∀ m, s₀.Reachable m → ∀ h ∈ s₀.refs m, s₀.check h = .ok ()
  checkRoot : s₀.check root = .ok ()
  rootLives : ¬ s₀.DeadFirst (s₀.target root)
  reachable : ∀ m, s₀.DeadFirst m → s₀.Reachable m

theorem search_sound {acc : List (MemoryId × HandleId)} (h : s₀.search = .ok acc) :
    Dfs.Sound s₀.target acc :=
  Dfs.visit_sound .nil h

theorem search_closed {acc : List (MemoryId × HandleId)} (h : s₀.search = .ok acc) (hm : m ∈ Dfs.nodes acc) :
    ∀ e ∈ s₀.refs m, s₀.check e = .ok () ∧ s₀.target e ∈ Dfs.nodes acc := by
  have hclosed : Dfs.Closed s₀.target s₀.refs s₀.check (fun _ => False) acc :=
    Dfs.visit_closed (fun n hn => by cases hn) h
  exact (hclosed m hm).resolve_left id

/-- The search finds the reachable Memories. -/
theorem search_nodes {acc : List (MemoryId × HandleId)} (h : s₀.search = .ok acc) :
    m ∈ Dfs.nodes acc ↔ s₀.Reachable m := by
  constructor
  · exact fun hm => Dfs.visit_reach (fun n hn => by cases hn) .refl h m hm
  · intro hreach
    induction hreach with
    | refl => exact (Dfs.mem_visit h).2
    | tail _ hedge ih =>
      obtain ⟨e, he, rfl⟩ := hedge
      exact (search_closed h ih e he).2

theorem firstHandle_root {acc : List (MemoryId × HandleId)} (h : s₀.search = .ok acc) :
    s₀.firstHandle (s₀.target root) = some root := by
  rw [Heap.firstHandle, h]
  refine Dfs.discovery_of_mem (search_sound h) ?_
  obtain ⟨-, ⟨hm, -⟩ | ⟨-, hfold⟩⟩ := Dfs.visit_cases h
  · cases hm
  · exact (Dfs.foldlM_suffix hfold).subset List.mem_cons_self

theorem tint_eq_white {acc : List (MemoryId × HandleId)} (h : s₀.search = .ok acc) :
    tint s₀ acc m = .white ↔ s₀.DeadFirst m := by
  rw [Heap.DeadFirst, Heap.firstHandle, h, tint]
  dsimp only
  cases Dfs.discovery acc m with
  | none => simp
  | some e => cases hdead : (s₀.handle e).deallocated <;> simp [hdead]

theorem mark_coloured (hgray : ∀ m, m ∉ s₀.destroyedMemory → (s₀.mem m).color = .gray)
    (hroot : (s₀.handle root).deallocated = false)
    (hmark : mark (s₀.nextMemory + 1) s₀ root = .ok s) : Coloured s₀ s := by
  have hsim := mark_simulates hgray (s₀.nextMemory + 1) (h := root) Marked.start
  cases hsearch : Dfs.visit s₀.target s₀.refs s₀.check .depth (s₀.nextMemory + 1) [] root with
  | error f =>
    rw [hsearch, Simulates, hmark] at hsim
    cases hsim
  | ok acc =>
    rw [hsearch, Simulates, hmark] at hsim
    obtain ⟨_, heq, hs⟩ := hsim
    cases heq
    constructor
    · exact hs.frame
    · intro m hm
      have hmem := (search_nodes hsearch).mpr hm
      exact ⟨_, tint_ne_gray hmem, tint_eq_white hsearch, hs.found m hmem⟩
    · exact fun m hm => hs.rest m fun hmem => hm ((search_nodes hsearch).mp hmem)
    · exact fun m hm h hh => (search_closed hsearch ((search_nodes hsearch).mpr hm) h hh).1
    · exact (Dfs.mem_visit hsearch).1
    · intro hdead
      obtain ⟨h, hfirst, hdead⟩ := hdead
      rw [firstHandle_root hsearch, Option.some_inj] at hfirst
      rw [← hfirst, hroot] at hdead
      cases hdead
    · intro m hdead
      obtain ⟨h, hfirst, -⟩ := hdead
      rw [Heap.firstHandle, Heap.search, hsearch] at hfirst
      rw [← search_nodes hsearch, ← Dfs.discovery_isSome]
      exact Option.isSome_of_eq_some hfirst

theorem search_ne_depth (htarget : ∀ h, s₀.target h < s₀.nextMemory) : s₀.search ≠ .error .depth := by
  refine Dfs.visit_not_tooDeep (fun e => check_ne_depth)
    (fun n hn e he => List.mem_range.mpr (htarget e)) (List.mem_range.mpr (htarget root)) ?_
  have hleft : Dfs.left (List.range s₀.nextMemory) [] ≤ _ := List.countP_le_length
  rw [List.length_range] at hleft
  exact Nat.lt_succ_of_le hleft

/-- The depth bound of a marking is never reached. -/
theorem mark_ne_depth (hgray : ∀ m, m ∉ s₀.destroyedMemory → (s₀.mem m).color = .gray)
    (htarget : ∀ h, s₀.target h < s₀.nextMemory) :
    mark (s₀.nextMemory + 1) s₀ root ≠ .error .depth := by
  have hsim := mark_simulates hgray (s₀.nextMemory + 1) (h := root) Marked.start
  intro hmark
  cases hsearch : Dfs.visit s₀.target s₀.refs s₀.check .depth (s₀.nextMemory + 1) [] root with
  | ok acc =>
    rw [hsearch, Simulates, hmark] at hsim
    obtain ⟨_, hcontra, -⟩ := hsim
    cases hcontra
  | error f =>
    rw [hsearch, Simulates, hmark] at hsim
    cases hsim
    exact search_ne_depth htarget hsearch

end ManagedObject.Collector
