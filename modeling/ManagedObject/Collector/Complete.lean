import ManagedObject.Collector.Visit

/-!
# What a sweep gets done

A sweep is a depth-first search as well, but it visits a Memory again for every path that leads to it,
and Infos that it has taken off a Memory are paths no longer. For a set `T` of dead Memories, the
Memories that have been visited while none of `T` was on the stack make up a set `C`. Where a reference
leads out of `C`, it leads to the stack, or to a dead Memory below `T` that a visit of `T` may have emptied
already. With an empty `T` this shows that a sweep visits all that is reachable; with `T` a single
Memory it shows which references to it are gone.
-/

namespace ManagedObject.Collector

open Outcome

variable {s : Heap} {T C : MemoryId → Prop} {Z S : List MemoryId} {st st' st₁ : Sweep} {m r : MemoryId}
  {info : Info} {h : HandleId} {i : Nat}

/-- A dead Memory that can be reached from `T`. -/
def Shadow (s : Heap) (T : MemoryId → Prop) (n : MemoryId) : Prop :=
  s.DeadFirst n ∧ ∃ t, T t ∧ s.Leads t n

/-- The Memory is visited, or open, or hidden from the search below `T`. -/
def Near (s : Heap) (T C : MemoryId → Prop) (Z : List MemoryId) (n : MemoryId) : Prop :=
  C n ∨ n ∈ Z ∨ Shadow s T n

/-- No Info refers to `T`. -/
def Clean (s : Heap) (T : MemoryId → Prop) (infos : List Info) : Prop :=
  ∀ info ∈ infos, ∀ h, info.getHeap = some h → ¬ T (s.target h)

/-- The Memories in `C` have been visited; those in `Z` are open. -/
structure Done (s : Heap) (T C : MemoryId → Prop) (Z : List MemoryId) (st : Sweep) : Prop where
  gray : ∀ n, C n → ¬ s.DeadFirst n → (st.heap.mem n).color = .gray
  freed : ∀ n, C n → s.DeadFirst n → n ∈ st.memoryList
  clean : ∀ n, C n → ¬ s.DeadFirst n → Clean s T (st.heap.mem n).memory
  closed : ∀ n, C n → ∀ h ∈ s.refs n, Near s T C Z (s.target h)
  covered : ∀ n ∈ st.memoryList, C n ∨ Shadow s T n

/-- All that `m` refers to has been visited, and where `m` is kept it refers to `T` no longer. -/
structure Ended (s : Heap) (T C : MemoryId → Prop) (Z : List MemoryId) (st : Sweep) (m : MemoryId) :
    Prop where
  near : ∀ h ∈ s.refs m, Near s T C Z (s.target h)
  gray : ¬ s.DeadFirst m → (st.heap.mem m).color = .gray
  clean : ¬ s.DeadFirst m → Clean s T (st.heap.mem m).memory

theorem Near.mono {C' : MemoryId → Prop} {Z' : List MemoryId} {n : MemoryId} (hC : ∀ n, C n → C' n)
    (hZ : Z ⊆ Z') (h : Near s T C Z n) : Near s T C' Z' n := by
  rcases h with hn | hn | hn
  · exact Or.inl (hC n hn)
  · exact Or.inr (Or.inl (hZ hn))
  · exact Or.inr (Or.inr hn)

theorem Clean.sublist {infos infos' : List Info} (hclean : Clean s T infos) (hsub : infos'.Sublist infos) :
    Clean s T infos' := fun info hinfo => hclean info (hsub.subset hinfo)

theorem Done.mono (hdone : Done s T C Z st) (hgrows : Grows s S m st st')
    (hnew : ∀ n ∈ st'.memoryList, n ∈ st.memoryList ∨ Shadow s T n) : Done s T C Z st' where
  gray n hn hlives := hgrows.gray n (hdone.gray n hn hlives)
  freed n hn hdead := hgrows.freed (hdone.freed n hn hdead)
  clean n hn hlives := (hdone.clean n hn hlives).sublist (hgrows.sub n)
  closed := hdone.closed
  covered n hn := by
    rcases hnew n hn with hn | hn
    · exact hdone.covered n hn
    · exact Or.inr hn

theorem Done.open (hdone : Done s T C Z st) : Done s T C (m :: Z) st where
  gray := hdone.gray
  freed := hdone.freed
  clean := hdone.clean
  closed n hn h hh := (hdone.closed n hn h hh).mono (fun _ => id) (List.subset_cons_self _ _)
  covered := hdone.covered

/-- A Memory whose visit is over is closed. -/
theorem Done.close (hdone : Done s T C (r :: Z) st)
    (hended : (C r ∨ Shadow s T r) ∨ Ended s T C (r :: Z) st r) (hgrows : Grows s S m st st')
    (hnew : ∀ n ∈ st'.memoryList, n ∈ st.memoryList ∨ n = r) (hfreed : s.DeadFirst r → r ∈ st'.memoryList) :
    ∃ C', (∀ n, C n → C' n) ∧ Done s T C' Z st' ∧ Near s T C' [] r := by
  let C' : MemoryId → Prop := fun n => C n ∨ (n = r ∧ Ended s T C (r :: Z) st r)
  have hC : ∀ n, C n → C' n := fun n => Or.inl
  have hr : C' r ∨ Shadow s T r := by
    rcases hended with (hr | hr) | hr
    · exact Or.inl (Or.inl hr)
    · exact Or.inr hr
    · exact Or.inl (Or.inr ⟨rfl, hr⟩)
  have hnear : ∀ n, Near s T C (r :: Z) n → Near s T C' Z n := by
    intro n hn
    rcases hn with hn | hn | hn
    · exact Or.inl (hC n hn)
    · rcases List.mem_cons.mp hn with rfl | hn
      · exact hr.imp id Or.inr
      · exact Or.inr (Or.inl hn)
    · exact Or.inr (Or.inr hn)
  refine ⟨C', hC, ⟨?_, ?_, ?_, ?_, ?_⟩, hr.imp id Or.inr⟩
  · intro n hn hlives
    rcases hn with hn | ⟨rfl, hn⟩
    · exact hgrows.gray n (hdone.gray n hn hlives)
    · exact hgrows.gray n (hn.gray hlives)
  · intro n hn hdead
    rcases hn with hn | ⟨rfl, -⟩
    · exact hgrows.freed (hdone.freed n hn hdead)
    · exact hfreed hdead
  · intro n hn hlives
    rcases hn with hn | ⟨rfl, hn⟩
    · exact (hdone.clean n hn hlives).sublist (hgrows.sub n)
    · exact (hn.clean hlives).sublist (hgrows.sub n)
  · intro n hn h hh
    rcases hn with hn | ⟨rfl, hn⟩
    · exact hnear _ (hdone.closed n hn h hh)
    · exact hnear _ (hn.near h hh)
  · intro n hn
    rcases hnew n hn with hn | rfl
    · exact (hdone.covered n hn).imp (hC n) id
    · exact hr

/-- What a visit gets done, when `S` is the stack and none of `T` is open. -/
def Searches (s : Heap) (T : MemoryId → Prop) (S : List MemoryId)
    (visit : Sweep → HandleId → Except Fault Sweep) : Prop :=
  ∀ st h st' C, Swept s S st → s.Reachable (s.target h) → s.target h ∉ S → ¬ T (s.target h) →
    Done s T C S st → visit st h = .ok st' → ∃ C', (∀ n, C n → C' n) ∧
      Done s T C' (s.target h :: S) st' ∧
      ((C' (s.target h) ∨ Shadow s T (s.target h)) ∨
        Ended s T C' (s.target h :: S) st' (s.target h))

/-- A visit below `T` leaves `C` as it is. -/
theorem Done.below (hdone : Done s T C Z st) (hgrows : Grows s S r st st') (hr : T r)
    (hst' : Swept s S st') : Done s T C Z st' := by
  refine hdone.mono hgrows ?_
  intro n hn
  exact (hgrows.leads n hn).imp id fun hleads => ⟨(hst'.dead n hn).1, r, hr, hleads⟩

/-- The Memory that a reference leads to is visited, unless it is one of `T`; then what happens is
hidden. -/
theorem Visited.done {visit : Sweep → HandleId → Except Fault Sweep} (hT : ∀ t, T t → s.DeadFirst t)
    (hvisit : Visits s (m :: S) visit) (hsearch : Searches s T (m :: S) visit)
    (hst : Swept s (m :: S) st) (hm : s.Reachable m) (hinfo : info ∈ (st.heap.mem m).memory)
    (hdone : Done s T C (m :: S) st) (hvisited : Visited visit s (m :: S) info h st st₁)
    (hgrows : Grows s S m st₁ st')
    (hnew : ∀ n ∈ st'.memoryList, n ∈ st₁.memoryList ∨ n = s.target h)
    (hfreed : s.DeadFirst (s.target h) → s.target h ∈ st'.memoryList) :
    ∃ C', (∀ n, C n → C' n) ∧ Done s T C' (m :: S) st' ∧ Near s T C' (m :: S) (s.target h) := by
  obtain ⟨hleads, hst₁, hgrows₁, -, -⟩ := hvisited.spec hvisit hst hm hinfo
  have hdone₀ : Done s T C (m :: S) (st.create h) :=
    hdone.mono (Grows.create (m := m) (S := S)) fun _ => Or.inl
  by_cases ht : T (s.target h)
  · have hshadow : Shadow s T (s.target h) := ⟨hT _ ht, _, ht, .refl⟩
    refine ⟨C, fun _ => id, (hdone₀.below hgrows₁ ht hst₁).mono hgrows ?_, Or.inr (Or.inr hshadow)⟩
    intro n hn
    rcases hnew n hn with hn | rfl
    · exact Or.inl hn
    · exact Or.inr hshadow
  · obtain ⟨C₁, hC₁, hdone₁, hended⟩ :=
      hsearch _ _ _ C hst.create (hm.trans hleads) hvisited.off ht hdone₀ hvisited.visit
    obtain ⟨C₂, hC₂, hdone₂, hnear⟩ := hdone₁.close hended hgrows hnew hfreed
    exact ⟨C₂, fun n hn => hC₂ n (hC₁ n hn), hdone₂, hnear.mono (fun _ => id) (List.nil_subset _)⟩

/-- A round deals with what its Info refers to. -/
theorem Round.done {visit : Sweep → HandleId → Except Fault Sweep} (hT : ∀ t, T t → s.DeadFirst t)
    (hvisit : Visits s (m :: S) visit) (hsearch : Searches s T (m :: S) visit)
    (hst : Swept s (m :: S) st) (hm : s.Reachable m) (hoff : m ∉ S)
    (hinfo : info ∈ (st.heap.mem m).memory) (hdone : Done s T C (m :: S) st)
    (hround : Round visit s (m :: S) m i info st st') :
    ∃ C', (∀ n, C n → C' n) ∧ Done s T C' (m :: S) st' ∧
      ∀ h, info.getHeap = some h → Near s T C' (m :: S) (s.target h) := by
  cases hround with
  | stay hnone =>
    refine ⟨C, fun _ => id, hdone, fun h href => ?_⟩
    rw [hnone] at href
    cases href
  | value hnone _ =>
    refine ⟨C, fun _ => id, hdone.mono (Grows.remove hoff) fun _ => Or.inl, fun h href => ?_⟩
    rw [hnone] at href
    cases href
  | skip href hstack =>
    refine ⟨C, fun _ => id, hdone.mono (Grows.create (m := m) (S := S)) fun _ => Or.inl, ?_⟩
    intro h' href'
    rw [href] at href'
    cases href'
    exact Or.inr (Or.inl hstack)
  | keep hvisited hlives =>
    obtain ⟨C', hC, hdone', hnear⟩ := hvisited.done hT hvisit hsearch hst hm hinfo hdone .create
      (fun _ => Or.inl) fun hdead => absurd hdead hlives
    refine ⟨C', hC, hdone', fun h' href' => ?_⟩
    rw [hvisited.ref] at href'
    cases href'
    exact hnear
  | again hvisited hfreed =>
    obtain ⟨C', hC, hdone', hnear⟩ := hvisited.done hT hvisit hsearch hst hm hinfo hdone
      (Grows.create.trans (.remove hoff)) (fun _ => Or.inl) fun _ => hfreed
    refine ⟨C', hC, hdone', fun h' href' => ?_⟩
    rw [hvisited.ref] at href'
    cases href'
    exact hnear
  | free hvisited hdead hnew =>
    obtain ⟨hleads, -⟩ := hvisited.spec hvisit hst hm hinfo
    have hoffS := fun hmem => hvisited.off (List.mem_cons_of_mem _ hmem)
    obtain ⟨C', hC, hdone', hnear⟩ := hvisited.done hT hvisit hsearch hst hm hinfo hdone
      (Grows.create.trans ((Grows.free hoffS hleads).trans (.remove hoff)))
      (fun n hn => (List.mem_append.mp hn).imp id List.mem_singleton.mp)
      fun _ => List.mem_append_right _ List.mem_cons_self
    refine ⟨C', hC, hdone', fun h' href' => ?_⟩
    rw [hvisited.ref] at href'
    cases href'
    exact hnear

/-- The loop, when `i` positions of the Memory are left. -/
structure Loop (s : Heap) (T C : MemoryId → Prop) (S : List MemoryId) (m : MemoryId) (i : Nat)
    (st : Sweep) : Prop where
  done : Done s T C (m :: S) st
  near : ∀ info ∈ (s.mem m).memory, ∀ h, info.getHeap = some h →
    Near s T C (m :: S) (s.target h) ∨ info ∈ (st.heap.mem m).memory.take i
  clean : Clean s T ((st.heap.mem m).memory.drop i)

theorem sweepInfos_done {visit : Sweep → HandleId → Except Fault Sweep} (hs : HeapOk s)
    (hT : ∀ t, T t → s.DeadFirst t) (hopen : ∀ n ∈ m :: S, ¬ T n) (hvisit : Visits s (m :: S) visit)
    (hsearch : Searches s T (m :: S) visit) (hm : s.Reachable m) (hoff : m ∉ S) :
    ∀ {i st C}, Swept s (m :: S) st → Loop s T C S m i st → sweepInfos visit m i st = .ok st' →
      ∃ C', (∀ n, C n → C' n) ∧ Loop s T C' S m 0 st' := by
  intro i
  induction i with
  | zero =>
    intro st C _ hloop h'
    cases h'
    exact ⟨C, fun _ => id, hloop⟩
  | succ i ih =>
    intro st C hst hloop h'
    obtain ⟨info, st₁, hget, hinfo, hrest⟩ := sweepInfos_succ h'
    have hmem := List.mem_of_getElem? hget
    have hround := sweepInfo_round hs hvisit hst hm hmem hinfo
    obtain ⟨hst₁, -, hmemory⟩ := hround.spec hs hvisit hst hm hoff hget
    obtain ⟨C₁, hC₁, hdone₁, hnear⟩ := hround.done hT hvisit hsearch hst hm hoff hmem hloop.done
    have htake : (st₁.heap.mem m).memory.take i = (st.heap.mem m).memory.take i := by
      rcases hmemory with ⟨hsame, -⟩ | herase
      · rw [hsame]
      · rw [herase, List.take_eraseIdx_eq_take_of_le _ _ _ (Nat.le_refl i)]
    have hloop₁ : Loop s T C₁ S m i st₁ := by
      refine ⟨hdone₁, ?_, ?_⟩
      · intro info' hinfo' h href
        rcases hloop.near info' hinfo' h href with hn | hn
        · exact Or.inl (hn.mono hC₁ fun _ => id)
        · rw [List.take_add_one, hget] at hn
          rcases List.mem_append.mp hn with hn | hn
          · exact Or.inr (htake ▸ hn)
          · obtain rfl : info' = info := by simpa using hn
            exact Or.inl (hnear h href)
      · obtain ⟨hi, hinfo'⟩ := List.getElem?_eq_some_iff.mp hget
        rcases hmemory with ⟨hsame, hkept⟩ | herase
        · rw [hsame, List.drop_eq_getElem_cons hi, hinfo']
          intro info' hmem' h href
          rcases List.mem_cons.mp hmem' with rfl | hmem'
          · rcases hkept h href with hstack | hlives
            · exact hopen _ hstack
            · exact fun ht => hlives (hT _ ht)
          · exact hloop.clean info' hmem' h href
        · rw [herase, List.eraseIdx_eq_take_drop_succ, List.drop_left' (by rw [List.length_take]; omega)]
          exact hloop.clean
    obtain ⟨C', hC', hloop'⟩ := ih hst₁ hloop₁ hrest
    exact ⟨C', fun n hn => hC' n (hC₁ n hn), hloop'⟩

/-- Visiting a Memory of the list of Memories again does nothing, as it is empty. -/
theorem doSweep_emptied {depth : Nat} (hst : Swept s S st) (hoff : s.target h ∉ S)
    (hfreed : s.target h ∈ st.memoryList) (h' : doSweep (depth + 1) st h = .ok st') :
    Grows s S (s.target h) st st' ∧ st'.memoryList = st.memoryList := by
  obtain ⟨st₁, hloop, rfl⟩ := doSweep_succ hst hoff h'
  rw [((hst.cell _).emptied hfreed), List.length_nil] at hloop
  cases hloop
  exact ⟨Grows.create.trans ((Grows.enter hoff).trans (.leave hoff)), rfl⟩

theorem enter_gray (hwhite : (st.heap.mem m).color ≠ .white) : ((st.enter m).heap.mem m).color = .gray := by
  rw [Sweep.enter, sweep_setMem_mem, if_pos rfl]
  cases hcolor : (st.heap.mem m).color with
  | white => exact absurd hcolor hwhite
  | gray => rfl
  | black => rfl

theorem doSweep_searches (hs : HeapOk s) (hT : ∀ t, T t → s.DeadFirst t) :
    ∀ depth S, (∀ n ∈ S, ¬ T n) → Searches s T S (doSweep depth) := by
  intro depth
  induction depth with
  | zero =>
    intro S _ st h st' C _ _ _ _ _ h'
    cases h'
  | succ depth ih =>
    intro S hopen st h st' C hst hm hoff ht hdone h'
    by_cases hfreed : s.target h ∈ st.memoryList
    · obtain ⟨hgrows, hsame⟩ := doSweep_emptied hst hoff hfreed h'
      refine ⟨C, fun _ => id, (hdone.mono hgrows fun n hn => ?_).open, Or.inl (hdone.covered _ hfreed)⟩
      rw [hsame] at hn
      exact Or.inl hn
    · obtain ⟨st₁, hloop, rfl⟩ := doSweep_succ hst hoff h'
      have hopen' : ∀ n ∈ s.target h :: S, ¬ T n := by
        intro n hn
        rcases List.mem_cons.mp hn with rfl | hn
        · exact ht
        · exact hopen n hn
      have hst₀ := (hst.create (h := h)).enter hm
      have hgrows₀ : Grows s S (s.target h) st ((st.create h).enter (s.target h)) :=
        Grows.create.trans (.enter hoff)
      have hstart : Loop s T C S (s.target h) (st.heap.mem (s.target h)).memory.length
          ((st.create h).enter (s.target h)) := by
        have hmemory : (((st.create h).enter (s.target h)).heap.mem (s.target h)).memory =
            (st.heap.mem (s.target h)).memory := by
          rw [Sweep.enter, sweep_setMem_mem, if_pos rfl]
          rfl
        refine ⟨(hdone.mono hgrows₀ fun _ => Or.inl).open, ?_, ?_⟩
        · intro info hinfo h₁ href
          rw [hmemory, List.take_length]
          refine (hst.kept _ info hinfo).symm.imp ?_ id
          intro hqueued
          -- an Info that is gone referred to a Memory that is gone
          obtain ⟨m, -, horig, -, hreleased⟩ := hst.queued info hqueued
          obtain ⟨rfl, -⟩ := hs.info_eq horig hinfo rfl
          have hgone := hreleased.resolve_left hfreed
          rw [href] at hgone
          exact (hdone.covered _ hgone).imp id Or.inr
        · rw [hmemory, List.drop_length]
          exact fun _ hinfo => absurd hinfo List.not_mem_nil
      obtain ⟨C', hC, hend⟩ := sweepInfos_done hs hT hopen' (doSweep_visits hs depth _)
        (ih _ hopen') hm hoff hst₀ hstart hloop
      obtain ⟨-, hgrows⟩ := sweepInfos_spec hs (doSweep_visits hs depth _) hm hoff hst₀ hloop
      have hleave : Grows s S (s.target h) st₁ (st₁.leave (s.target h)) := .leave hoff
      refine ⟨C', hC, hend.done.mono hleave fun _ => Or.inl, Or.inr ⟨?_, ?_, ?_⟩⟩
      · intro h₁ hh₁
        obtain ⟨info, hinfo, href⟩ := List.mem_filterMap.mp hh₁
        exact (hend.near info hinfo h₁ href).resolve_right List.not_mem_nil
      · intro hlives
        exact hleave.gray _ (hgrows.gray _ (enter_gray fun hwhite => hlives (((hst.cell _).white hm).mp hwhite)))
      · exact fun _ => hend.clean.sublist (hleave.sub _)

/-! ### A whole collection -/

/-- A path from the root list on which no Memory is both dead and reachable from `t`. -/
def Heap.ReachableOutside (s : Heap) (t m : MemoryId) : Prop :=
  Relation.ReflTransGen (fun a b => Dfs.Edge s.target s.refs a b ∧ ¬ (s.DeadFirst b ∧ s.Leads t b))
    (s.target root) m

/-- What a marking and a sweep from the root list gather in the two lists, and leave in the heap. -/
structure Gathered (s : Heap) (st : Sweep) : Prop where
  coloured : ∃ s₁, Coloured s s₁
  swept : Swept s [] st
  freed : ∀ m, m ∈ st.memoryList ↔ s.DeadFirst m
  gray : ∀ m, s.Reachable m → ¬ s.DeadFirst m → (st.heap.mem m).color = .gray
  clean : ∀ t, s.DeadFirst t → ∀ m, s.ReachableOutside t m → ¬ s.DeadFirst m →
    Clean s (· = t) (st.heap.mem m).memory

/-- A marked heap is the start of a sweep. -/
theorem Coloured.swept {s₁ : Heap} (hs : HeapOk s) (hmarked : Coloured s s₁) : Swept s [] ⟨s₁, [], []⟩ where
  frame := hmarked.frame
  cell m := by
    dsimp only
    by_cases hm : s.Reachable m
    · obtain ⟨color, -, hwhite, hmem⟩ := hmarked.reached m hm
      rw [hmem]
      constructor
      · exact iff_of_false (by rw [hs.unseen]; exact Bool.false_ne_true) List.not_mem_nil
      · exact .refl _
      · exact hs.indexes m
      · exact fun _ => hwhite
      · exact fun _ => iff_of_false Bool.false_ne_true List.not_mem_nil
      · exact fun hfreed => absurd hfreed List.not_mem_nil
      · exact fun hnot => absurd hm hnot
    · rw [hmarked.rest m hm]
      constructor
      · exact iff_of_false (by rw [hs.unseen]; exact Bool.false_ne_true) List.not_mem_nil
      · exact .refl _
      · exact hs.indexes m
      · exact fun hreach => absurd hreach hm
      · exact fun hreach => absurd hreach hm
      · exact fun hfreed => absurd hfreed List.not_mem_nil
      · exact fun _ => rfl
  kept m info hinfo := by
    refine Or.inl ?_
    dsimp only
    by_cases hm : s.Reachable m
    · obtain ⟨color, -, -, hmem⟩ := hmarked.reached m hm
      rw [hmem]
      exact hinfo
    · rw [hmarked.rest m hm]
      exact hinfo
  queued info hinfo := absurd hinfo List.not_mem_nil
  once := List.nodup_nil
  dead m hm := absurd hm List.not_mem_nil
  freedOnce := List.nodup_nil

/-- After the sweep of a marked heap everything that is reachable outside `T` has been visited. -/
theorem doSweep_root {depth : Nat} {s₁ : Heap} (hs : HeapOk s) (hmarked : Coloured s s₁)
    (hT : ∀ t, T t → s.DeadFirst t) (h' : doSweep depth ⟨s₁, [], []⟩ root = .ok st) :
    ∃ C, Done s T C [] st ∧ ∀ m, Relation.ReflTransGen
      (fun a b => Dfs.Edge s.target s.refs a b ∧ ¬ Shadow s T b) (s.target root) m → C m := by
  have hroot : ¬ T (s.target root) := fun ht => hmarked.rootLives (hT _ ht)
  have hstart : Done s T (fun _ => False) [] ⟨s₁, [], []⟩ :=
    ⟨nofun, nofun, nofun, nofun, fun _ hn => absurd hn List.not_mem_nil⟩
  obtain ⟨C₁, -, hdone, hended⟩ := doSweep_searches hs hT depth [] (fun _ hn => absurd hn List.not_mem_nil)
    _ _ _ _ (hmarked.swept hs) .refl List.not_mem_nil hroot hstart h'
  obtain ⟨C, -, hdone', hnear⟩ := hdone.close hended (.refl (S := []) (m := s.target root))
    (fun _ => Or.inl) fun hdead => absurd hdead hmarked.rootLives
  refine ⟨C, hdone', fun m hpath => ?_⟩
  induction hpath with
  | refl =>
    rcases hnear with hn | hn | hn
    · exact hn
    · exact absurd hn List.not_mem_nil
    · exact absurd hn.1 hmarked.rootLives
  | tail _ hedge ih =>
    obtain ⟨⟨h, hh, rfl⟩, hshadow⟩ := hedge
    rcases hdone'.closed _ ih h hh with hn | hn | hn
    · exact hn
    · exact absurd hn List.not_mem_nil
    · exact absurd hn hshadow

theorem Coloured.gathered {depth : Nat} {s₁ : Heap} (hs : HeapOk s) (hmarked : Coloured s s₁)
    (hsweep : doSweep depth ⟨s₁, [], []⟩ root = .ok st) : Gathered s st := by
  obtain ⟨hswept, -⟩ := doSweep_visits hs _ [] _ _ _ (hmarked.swept hs) .refl List.not_mem_nil hsweep
  -- nothing is hidden when `T` is empty
  obtain ⟨C, hdone, hpaths⟩ := doSweep_root (T := fun _ => False) hs hmarked nofun hsweep
  have hall : ∀ m, s.Reachable m → C m := fun m hm =>
    hpaths m (Relation.ReflTransGen.mono (fun a b hedge => ⟨hedge, fun ⟨_, _, ht, _⟩ => ht⟩) _ _ hm)
  constructor
  · exact ⟨s₁, hmarked⟩
  · exact hswept
  · exact fun m => ⟨fun hm => (hswept.dead m hm).1, fun hdead =>
      hdone.freed m (hall m (hmarked.reachable m hdead)) hdead⟩
  · exact fun m hm hlives => hdone.gray m (hall m hm) hlives
  · intro t ht m hm hlives
    obtain ⟨C, hdone, hpaths⟩ := doSweep_root (T := (· = t)) hs hmarked (fun _ heq => heq ▸ ht) hsweep
    refine hdone.clean m (hpaths m (Relation.ReflTransGen.mono (fun a b hedge => ?_) _ _ hm)) hlives
    refine ⟨hedge.1, fun hshadow => hedge.2 ⟨hshadow.1, ?_⟩⟩
    obtain ⟨-, t, rfl, hleads⟩ := hshadow
    exact hleads

theorem gather_ok (hs : HeapOk s) (h' : gather s = .ok st) : Gathered s st := by
  obtain ⟨s₁, hmark, hsweep⟩ := bind_eq_ok h'
  exact (mark_coloured hs.gray hs.rootLives hmark).gathered hs hsweep

end ManagedObject.Collector
