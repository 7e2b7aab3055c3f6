import ManagedObject.Collector.Sweep

/-!
# A visit of the sweep

What one round of the loop of `do_sweep` can do, and what a whole visit of a Memory does to the others:
Memories only lose Infos, and those on the recursion stack are not touched.
-/

namespace ManagedObject.Collector

open Outcome ManagedObject.Lists

variable {s : Heap} {st st' st₁ st₂ : Sweep} {S : List MemoryId} {m r : MemoryId} {info : Info}
  {h : HandleId} {i : Nat}

structure Grows (s : Heap) (S : List MemoryId) (m : MemoryId) (st st' : Sweep) : Prop where
  stack : ∀ n ∈ S, st'.heap.mem n = st.heap.mem n
  sub : ∀ n, (st'.heap.mem n).memory.Sublist (st.heap.mem n).memory
  gray : ∀ n, (st.heap.mem n).color = .gray → (st'.heap.mem n).color = .gray
  freed : st.memoryList ⊆ st'.memoryList
  leads : ∀ n ∈ st'.memoryList, n ∈ st.memoryList ∨ s.Leads m n

theorem Grows.refl : Grows s S m st st :=
  ⟨fun _ _ => rfl, fun _ => .refl _, fun _ => id, fun _ => id, fun _ => Or.inl⟩

theorem Grows.trans (h₁ : Grows s S m st st₁) (h₂ : Grows s S m st₁ st₂) : Grows s S m st st₂ where
  stack n hn := (h₂.stack n hn).trans (h₁.stack n hn)
  sub n := (h₂.sub n).trans (h₁.sub n)
  gray n hn := h₂.gray n (h₁.gray n hn)
  freed _ hn := h₂.freed (h₁.freed hn)
  leads n hn := by
    rcases h₂.leads n hn with hn | hn
    · exact h₁.leads n hn
    · exact Or.inr hn

/-- What a visit of a referenced Memory does belongs to the visit of the Memory that refers to it. -/
theorem Grows.of_visit (hgrows : Grows s (m :: S) r st st') (hleads : s.Leads m r) : Grows s S m st st' where
  stack n hn := hgrows.stack n (List.mem_cons_of_mem _ hn)
  sub := hgrows.sub
  gray := hgrows.gray
  freed := hgrows.freed
  leads n hn := (hgrows.leads n hn).imp id hleads.trans

theorem Grows.create : Grows s S m st (st.create h) := ⟨fun _ _ => rfl, fun _ => .refl _, fun _ => id,
  fun _ => id, fun _ => Or.inl⟩

theorem Grows.change {x : Memory} {list : List Info} {freed : List MemoryId} (hr : r ∉ S)
    (hsub : x.memory.Sublist (st.heap.mem r).memory)
    (hgray : (st.heap.mem r).color = .gray → x.color = .gray) (hfreed : st.memoryList ⊆ freed)
    (hleads : ∀ n ∈ freed, n ∈ st.memoryList ∨ s.Leads m n) :
    Grows s S m st { st.setMem r x with list, memoryList := freed } where
  stack n hn := by
    show (st.setMem r x).heap.mem n = _
    rw [sweep_setMem_mem, if_neg]
    exact fun heq => hr (heq ▸ hn)
  sub n := by
    show ((st.setMem r x).heap.mem n).memory.Sublist _
    rw [sweep_setMem_mem]
    split
    · rename_i heq
      exact heq ▸ hsub
    · exact .refl _
  gray n hn := by
    show ((st.setMem r x).heap.mem n).color = _
    rw [sweep_setMem_mem]
    split
    · rename_i heq
      exact hgray (heq ▸ hn)
    · exact hn
  freed := hfreed
  leads := hleads

theorem Grows.remove (hm : m ∉ S) : Grows s S m st (st.remove m i info) :=
  .change hm (List.eraseIdx_sublist _ i) id (fun _ => id) fun _ => Or.inl

theorem Grows.free (hr : r ∉ S) (hleads : s.Leads m r) : Grows s S m st (st.free r) := by
  refine .change hr (List.nil_sublist _) id (List.subset_append_left _ _) ?_
  intro n hn
  rcases List.mem_append.mp hn with hn | hn
  · exact Or.inl hn
  · exact Or.inr (List.mem_singleton.mp hn ▸ hleads)

/-! ### One round -/

/-- The Memory of a reference has just been visited, and the sweep is `st₁`. -/
structure Visited (visit : Sweep → HandleId → Except Fault Sweep) (s : Heap) (S : List MemoryId)
    (info : Info) (h : HandleId) (st st₁ : Sweep) : Prop where
  ref : info.getHeap = some h
  off : s.target h ∉ S
  visit : visit (st.create h) h = .ok st₁

/-- What one round of the loop of `do_sweep` can do with an Info. -/
inductive Round (visit : Sweep → HandleId → Except Fault Sweep) (s : Heap) (S : List MemoryId)
    (m : MemoryId) (i : Nat) (info : Info) (st : Sweep) : Sweep → Prop
  /-- a value of a Memory that is kept -/
  | stay : info.getHeap = none → Round visit s S m i info st st
  | value : info.getHeap = none → s.DeadFirst m → Round visit s S m i info st (st.remove m i info)
  /-- a reference to a Memory on the stack -/
  | skip {h : HandleId} : info.getHeap = some h → s.target h ∈ S →
      Round visit s S m i info st (st.create h)
  | keep {h : HandleId} {st₁ : Sweep} : Visited visit s S info h st st₁ → ¬ s.DeadFirst (s.target h) →
      Round visit s S m i info st (st₁.create h)
  /-- the Memory was emptied before -/
  | again {h : HandleId} {st₁ : Sweep} : Visited visit s S info h st st₁ →
      s.target h ∈ st₁.memoryList → Round visit s S m i info st ((st₁.create h).remove m i info)
  | free {h : HandleId} {st₁ : Sweep} : Visited visit s S info h st st₁ → s.DeadFirst (s.target h) →
      s.target h ∉ st₁.memoryList →
        Round visit s S m i info st (((st₁.create h).free (s.target h)).remove m i info)

/-- What a visit keeps, when `S` is the stack. -/
def Visits (s : Heap) (S : List MemoryId) (visit : Sweep → HandleId → Except Fault Sweep) : Prop :=
  ∀ st h st', Swept s S st → s.Reachable (s.target h) → s.target h ∉ S → visit st h = .ok st' →
    Swept s S st' ∧ Grows s S (s.target h) st st'

theorem leads_of_mem (hst : Swept s S st) (hinfo : info ∈ (st.heap.mem m).memory)
    (hget : info.getHeap = some h) : s.Leads m (s.target h) :=
  .single ⟨h, List.mem_filterMap.mpr ⟨info, (hst.cell m).sub.subset hinfo, hget⟩, rfl⟩

theorem sweepInfo_round {visit : Sweep → HandleId → Except Fault Sweep} (hs : HeapOk s)
    (hvisit : Visits s S visit) (hst : Swept s S st) (hm : s.Reachable m)
    (hinfo : info ∈ (st.heap.mem m).memory) (h' : sweepInfo visit m i info st = .ok st') :
    Round visit s S m i info st st' := by
  rw [sweepInfo] at h'
  split at h'
  · rename_i hvalue
    have hnone : info.getHeap = none := by
      rw [Info.getHeap]
      split
      · rename_i href _
        rw [href] at hvalue
        cases hvalue
      · rfl
    split at h'
    · rename_i hwhite
      cases h'
      exact .value hnone (((hst.cell m).white hm).mp hwhite)
    · cases h'
      exact .stay hnone
  · split at h'
    · rename_i hnone
      cases h'
      exact .stay hnone
    · rename_i ref href
      obtain ⟨⟨r, heap⟩, hget, h'⟩ := bind_eq_ok h'
      obtain ⟨-, heq⟩ := getMemory_ok hget
      cases heq
      have hr : st.heap.target ref = s.target ref := hst.frame.target ref
      have hleads := leads_of_mem hst hinfo href
      have hreach : s.Reachable (s.target ref) := hm.trans hleads
      dsimp only at h'
      rw [hr] at h'
      split at h'
      · rename_i hseen
        cases h'
        exact .skip href (((hst.cell (s.target ref)).seen).mp hseen)
      · rename_i hseen
        have hoff : s.target ref ∉ S := fun hmem => hseen (((hst.cell (s.target ref)).seen).mpr hmem)
        obtain ⟨st₁, hrec, h'⟩ := bind_eq_ok h'
        have hvisited : Visited visit s S info ref st st₁ := ⟨href, hoff, hrec⟩
        obtain ⟨hst₁, -⟩ := hvisit _ _ _ hst.create hreach hoff hrec
        obtain ⟨⟨r, heap⟩, hget, h'⟩ := bind_eq_ok h'
        obtain ⟨-, heq⟩ := getMemory_ok hget
        cases heq
        have hr : st₁.heap.target ref = s.target ref := hst₁.frame.target ref
        have hcell := (hst₁.create (h := ref)).cell (s.target ref)
        dsimp only at h'
        rw [hr] at h'
        split at h'
        · rename_i hkeep
          cases h'
          exact .again hvisited ((hcell.keep hreach).mp hkeep)
        · rename_i hkeep
          have hnew : s.target ref ∉ st₁.memoryList := fun hmem => hkeep ((hcell.keep hreach).mpr hmem)
          split at h'
          · rename_i hwhite
            obtain ⟨st₂, hfree, h'⟩ := bind_eq_ok h'
            obtain rfl := freeMemory_ok hcell.indexes ((hs.late _).sublist (hcell.sub.map _)) hfree
            cases h'
            exact .free hvisited ((hcell.white hreach).mp hwhite) hnew
          · rename_i hwhite
            cases h'
            exact .keep hvisited fun hdead => hwhite ((hcell.white hreach).mpr hdead)

/-- A reference leads to a Memory that is on the stack or is visited. -/
theorem Visited.spec {visit : Sweep → HandleId → Except Fault Sweep}
    (hvisited : Visited visit s (m :: S) info h st st₁) (hvisit : Visits s (m :: S) visit)
    (hst : Swept s (m :: S) st) (hm : s.Reachable m) (hinfo : info ∈ (st.heap.mem m).memory) :
    s.Leads m (s.target h) ∧ Swept s (m :: S) st₁ ∧ Grows s (m :: S) (s.target h) (st.create h) st₁ ∧
      Grows s S m st st₁ ∧ st₁.heap.mem m = st.heap.mem m := by
  have hleads := leads_of_mem hst hinfo hvisited.ref
  obtain ⟨hst₁, hgrows⟩ := hvisit _ _ _ hst.create (hm.trans hleads) hvisited.off hvisited.visit
  exact ⟨hleads, hst₁, hgrows, Grows.create.trans (hgrows.of_visit hleads),
    hgrows.stack m List.mem_cons_self⟩

/-- A round changes the visited Memory only at the position of its Info. A reference that it leaves
is one to the stack or to a Memory that is kept. -/
theorem Round.spec {visit : Sweep → HandleId → Except Fault Sweep} (hs : HeapOk s)
    (hvisit : Visits s (m :: S) visit) (hst : Swept s (m :: S) st) (hm : s.Reachable m) (hoff : m ∉ S)
    (hget : (st.heap.mem m).memory[i]? = some info) (hround : Round visit s (m :: S) m i info st st') :
    Swept s (m :: S) st' ∧ Grows s S m st st' ∧
      (((st'.heap.mem m).memory = (st.heap.mem m).memory ∧ ∀ h, info.getHeap = some h →
          s.target h ∈ m :: S ∨ ¬ s.DeadFirst (s.target h)) ∨
        (st'.heap.mem m).memory = (st.heap.mem m).memory.eraseIdx i) := by
  have hinfo := List.mem_of_getElem? hget
  have hremove : ∀ st : Sweep, ((st.remove m i info).heap.mem m).memory =
      (st.heap.mem m).memory.eraseIdx i := fun st =>
    (congrArg Memory.memory (sweep_setMem_mem _ m)).trans (congrArg Memory.memory (if_pos rfl))
  cases hround with
  | stay hnone =>
    refine ⟨hst, .refl, Or.inl ⟨rfl, fun h href => ?_⟩⟩
    rw [hnone] at href
    cases href
  | value hnone hdead =>
    refine ⟨hst.remove hs hm hget (Or.inr ?_), .remove hoff, Or.inr (hremove st)⟩
    rw [hnone]
    exact hdead
  | skip href hstack =>
    refine ⟨hst.create, .create, Or.inl ⟨rfl, fun h href' => Or.inl ?_⟩⟩
    rw [href] at href'
    cases href'
    exact hstack
  | keep hvisited hlives =>
    obtain ⟨-, hst₁, -, hgrows, hsame⟩ := hvisited.spec hvisit hst hm hinfo
    refine ⟨hst₁.create, hgrows.trans .create,
      Or.inl ⟨congrArg Memory.memory hsame, fun h href' => Or.inr ?_⟩⟩
    rw [hvisited.ref] at href'
    cases href'
    exact hlives
  | @again h st₁ hvisited hfreed =>
    obtain ⟨-, hst₁, -, hgrows, hsame⟩ := hvisited.spec hvisit hst hm hinfo
    have hget₁ : ((st₁.create h).heap.mem m).memory[i]? = some info := by
      rw [← hget]
      exact congrArg (fun x : Memory => x.memory[i]?) hsame
    refine ⟨hst₁.create.remove hs hm hget₁ (Or.inr ?_), hgrows.trans (Grows.create.trans (.remove hoff)),
      Or.inr ((hremove _).trans (congrArg (fun x : Memory => x.memory.eraseIdx i) hsame))⟩
    rw [hvisited.ref]
    exact hfreed
  | @free h st₁ hvisited hdead hnew =>
    obtain ⟨hleads, hst₁, -, hgrows, hsame⟩ := hvisited.spec hvisit hst hm hinfo
    have hne : m ≠ s.target h := fun heq => hvisited.off (heq ▸ List.mem_cons_self)
    have hsame' : ((st₁.create h).free (s.target h)).heap.mem m = st.heap.mem m :=
      (sweep_setMem_mem _ m).trans ((if_neg hne).trans hsame)
    have hget₁ : (((st₁.create h).free (s.target h)).heap.mem m).memory[i]? = some info := by
      rw [hsame', hget]
    have hst₂ := (hst₁.create (h := h)).free hs (hm.trans hleads) hdead hnew
    have hoffS : s.target h ∉ S := fun hmem => hvisited.off (List.mem_cons_of_mem _ hmem)
    refine ⟨hst₂.remove hs hm hget₁ (Or.inr ?_),
      hgrows.trans (Grows.create.trans ((Grows.free hoffS hleads).trans (.remove hoff))),
      Or.inr ((hremove _).trans (congrArg (fun x : Memory => x.memory.eraseIdx i) hsame'))⟩
    rw [hvisited.ref]
    exact List.mem_append_right _ List.mem_cons_self

/-! ### The loop and the visit -/

theorem sweepInfos_succ {visit : Sweep → HandleId → Except Fault Sweep}
    (h' : sweepInfos visit m (i + 1) st = .ok st') :
    ∃ info st₁, (st.heap.mem m).memory[i]? = some info ∧ sweepInfo visit m i info st = .ok st₁ ∧
      sweepInfos visit m i st₁ = .ok st' := by
  rw [sweepInfos] at h'
  split at h'
  · cases h'
  · rename_i info hinfo
    obtain ⟨st₁, hround, hrest⟩ := bind_eq_ok h'
    exact ⟨info, st₁, hinfo, hround, hrest⟩

theorem sweepInfos_spec {visit : Sweep → HandleId → Except Fault Sweep} (hs : HeapOk s)
    (hvisit : Visits s (m :: S) visit) (hm : s.Reachable m) (hoff : m ∉ S) :
    ∀ {i st}, Swept s (m :: S) st → sweepInfos visit m i st = .ok st' →
      Swept s (m :: S) st' ∧ Grows s S m st st' := by
  intro i
  induction i with
  | zero =>
    intro st hst h'
    cases h'
    exact ⟨hst, .refl⟩
  | succ i ih =>
    intro st hst h'
    obtain ⟨info, st₁, hget, hinfo, hrest⟩ := sweepInfos_succ h'
    have hround := sweepInfo_round hs hvisit hst hm (List.mem_of_getElem? hget) hinfo
    obtain ⟨hst₁, hgrows, -⟩ := hround.spec hs hvisit hst hm hoff hget
    obtain ⟨hst', hgrows'⟩ := ih hst₁ hrest
    exact ⟨hst', hgrows.trans hgrows'⟩

def Sweep.enter (st : Sweep) (m : MemoryId) : Sweep :=
  st.setMem m { st.heap.mem m with
    seen := true
    color := if (st.heap.mem m).color = .black then .gray else (st.heap.mem m).color }

def Sweep.leave (st : Sweep) (m : MemoryId) : Sweep :=
  st.setMem m { st.heap.mem m with seen := false }

theorem Swept.enter (hst : Swept s S st) (hm : s.Reachable m) : Swept s (m :: S) (st.enter m) := by
  have hcell := hst.cell m
  refine hst.setMem (fun m' hne => ?_) ?_ rfl
  · rw [List.mem_cons]
    exact or_iff_right hne
  · constructor
    · exact iff_of_true rfl List.mem_cons_self
    · exact hcell.sub
    · exact hcell.indexes
    · intro hreach
      rw [← hcell.white hreach]
      dsimp only
      split
      · rename_i hblack
        rw [hblack]
        decide
      · rfl
    · exact hcell.keep
    · exact hcell.emptied
    · exact fun hnot => absurd hm hnot

theorem Swept.leave (hst : Swept s (m :: S) st) (hm : s.Reachable m) (hoff : m ∉ S) :
    Swept s S (st.leave m) := by
  have hcell := hst.cell m
  refine hst.setMem (fun m' hne => ?_) ?_ rfl
  · rw [List.mem_cons]
    exact (or_iff_right hne).symm
  · constructor
    · exact iff_of_false Bool.false_ne_true hoff
    · exact hcell.sub
    · exact hcell.indexes
    · exact hcell.white
    · exact hcell.keep
    · exact hcell.emptied
    · exact fun hnot => absurd hm hnot

theorem Grows.enter (hm : m ∉ S) : Grows s S m st (st.enter m) := by
  refine .change hm (.refl _) ?_ (fun _ => id) fun _ => Or.inl
  intro hgray
  dsimp only
  split
  · rfl
  · exact hgray

theorem Grows.leave (hm : m ∉ S) : Grows s S m st (st.leave m) :=
  .change hm (.refl _) id (fun _ => id) fun _ => Or.inl

/-- A visit of a Memory off the stack enters it, goes over its Infos and leaves it. -/
theorem doSweep_succ {depth : Nat} (hst : Swept s S st) (hoff : s.target h ∉ S)
    (h' : doSweep (depth + 1) st h = .ok st') : ∃ st₁,
      sweepInfos (doSweep depth) (s.target h) (st.heap.mem (s.target h)).memory.length
        ((st.create h).enter (s.target h)) = .ok st₁ ∧ st' = st₁.leave (s.target h) := by
  obtain ⟨⟨m, heap⟩, hget, h'⟩ := bind_eq_ok h'
  obtain ⟨-, heq⟩ := getMemory_ok hget
  cases heq
  rw [hst.frame.target h] at h'
  dsimp only at h'
  split at h'
  · rename_i hseen
    exact absurd (((hst.cell _).seen).mp hseen) hoff
  · obtain ⟨st₁, hloop, h'⟩ := bind_eq_ok h'
    cases h'
    exact ⟨st₁, hloop, rfl⟩

theorem doSweep_visits (hs : HeapOk s) : ∀ depth S, Visits s S (doSweep depth) := by
  intro depth
  induction depth with
  | zero =>
    intro S st h st' _ _ _ h'
    cases h'
  | succ depth ih =>
    intro S st h st' hst hm hoff h'
    obtain ⟨st₁, hloop, rfl⟩ := doSweep_succ hst hoff h'
    obtain ⟨hst₁, hgrows⟩ := sweepInfos_spec hs (ih _) hm hoff (hst.create.enter hm) hloop
    exact ⟨hst₁.leave hm hoff, (Grows.create.trans (.enter hoff)).trans (hgrows.trans (.leave hoff))⟩

end ManagedObject.Collector
