import ManagedObject.Collector.Destroy

/-!
# The invariant of a sweep

A sweep of a marked heap, with the Memories on its recursion stack. The invariant compares it with the
heap `s` before the marking: which Infos of a Memory are left, and that every other one was put into
the destroy list exactly once. The `seen` flags are the stack, and `keep_memory` is set on those Memories
that are in the list of Memories.
-/

namespace ManagedObject.Collector

open Outcome ManagedObject.Lists

variable {s : Heap} {st st' : Sweep} {S S' : List MemoryId} {freed : List MemoryId} {m r : MemoryId}
  {x : Memory} {info : Info} {h : HandleId}

/-- What a sweep leaves of one Memory, when the Memories in `freed` have been emptied. -/
structure Cell (s : Heap) (S freed : List MemoryId) (m : MemoryId) (x : Memory) : Prop where
  seen : x.seen = true ↔ m ∈ S
  sub : x.memory.Sublist (s.mem m).memory
  indexes : x.indexes.Perm (x.memory.map Info.index)
  white : s.Reachable m → (x.color = .white ↔ s.DeadFirst m)
  keep : s.Reachable m → (x.keepMemory = true ↔ m ∈ freed)
  emptied : m ∈ freed → x.memory = []
  rest : ¬ s.Reachable m → x = s.mem m

/-- Why an Info of a Memory is put into the destroy list. -/
def Released (s : Heap) (freed : List MemoryId) (m : MemoryId) (info : Info) : Prop :=
  m ∈ freed ∨ match info.getHeap with
    | none => s.DeadFirst m
    | some h => s.target h ∈ freed

structure Swept (s : Heap) (S : List MemoryId) (st : Sweep) : Prop where
  frame : Frame s st.heap
  cell : ∀ m, Cell s S st.memoryList m (st.heap.mem m)
  kept : ∀ m, ∀ info ∈ (s.mem m).memory, info ∈ (st.heap.mem m).memory ∨ info ∈ st.list
  queued : ∀ info ∈ st.list, ∃ m, s.Reachable m ∧ info ∈ (s.mem m).memory ∧
    info ∉ (st.heap.mem m).memory ∧ Released s st.memoryList m info
  once : (st.list.map Info.id).Nodup
  dead : ∀ m ∈ st.memoryList, s.DeadFirst m ∧ s.Reachable m
  freedOnce : st.memoryList.Nodup

theorem Released.mono {freed' : List MemoryId} (hsub : freed ⊆ freed') (h : Released s freed m info) :
    Released s freed' m info := by
  rcases h with hm | h
  · exact Or.inl (hsub hm)
  · refine Or.inr ?_
    revert h
    cases info.getHeap with
    | none => exact id
    | some h => exact fun hh => hsub hh

theorem Cell.congr {freed' : List MemoryId} (hx : Cell s S freed m x) (hS : m ∈ S' ↔ m ∈ S)
    (hfreed : m ∈ freed' ↔ m ∈ freed) : Cell s S' freed' m x where
  seen := hx.seen.trans hS.symm
  sub := hx.sub
  indexes := hx.indexes
  white := hx.white
  keep hm := (hx.keep hm).trans hfreed.symm
  emptied hm := hx.emptied (hfreed.mp hm)
  rest := hx.rest

/-- An Info is identified by its `id`. -/
theorem HeapOk.info_eq (hs : HeapOk s) {m' : MemoryId} {info' : Info} (hinfo : info ∈ (s.mem m).memory)
    (hinfo' : info' ∈ (s.mem m').memory) (hid : info.id = info'.id) : m = m' ∧ info = info' := by
  obtain rfl : m = m' :=
    hs.owner m m' info.id (List.mem_map_of_mem hinfo) (hid ▸ List.mem_map_of_mem hinfo')
  exact ⟨rfl, List.inj_on_of_nodup_map (hs.nodup m) hinfo hinfo' hid⟩

/-- An Info that is still in its Memory has not been queued. -/
theorem Swept.id_notMem (hst : Swept s S st) (hs : HeapOk s) (hinfo : info ∈ (st.heap.mem m).memory) :
    info.id ∉ st.list.map Info.id := by
  intro hmem
  obtain ⟨info', hinfo', hid⟩ := List.mem_map.mp hmem
  obtain ⟨m', -, horig, hgone, -⟩ := hst.queued info' hinfo'
  obtain ⟨rfl, rfl⟩ := hs.info_eq horig ((hst.cell m).sub.subset hinfo) hid
  exact hgone hinfo

theorem Swept.nodup (hst : Swept s S st) (hs : HeapOk s) (m : MemoryId) :
    ((st.heap.mem m).memory.map Info.id).Nodup :=
  (hs.nodup m).sublist ((hst.cell m).sub.map _)

def Sweep.create (st : Sweep) (h : HandleId) : Sweep := { st with heap := st.heap.create h }

theorem Swept.create (hst : Swept s S st) : Swept s S (st.create h) where
  frame := hst.frame.trans .create
  cell := hst.cell
  kept := hst.kept
  queued := hst.queued
  once := hst.once
  dead := hst.dead
  freedOnce := hst.freedOnce

theorem Swept.setMem (hst : Swept s S st) (hS : ∀ m', m' ≠ m → (m' ∈ S' ↔ m' ∈ S))
    (hx : Cell s S' st.memoryList m x) (hmem : x.memory = (st.heap.mem m).memory) :
    Swept s S' (st.setMem m x) := by
  have hmemory : ∀ m', ((st.setMem m x).heap.mem m').memory = (st.heap.mem m').memory := by
    intro m'
    rw [sweep_setMem_mem]
    split
    · rename_i heq
      rw [heq, hmem]
    · rfl
  constructor
  · exact hst.frame.trans (.setMem x)
  · intro m'
    rw [sweep_setMem_mem]
    split
    · rename_i heq
      exact heq ▸ hx
    · rename_i hne
      exact (hst.cell m').congr (hS m' hne) Iff.rfl
  · intro m' info hinfo
    rw [hmemory]
    exact hst.kept m' info hinfo
  · intro info hinfo
    obtain ⟨m', hm', horig, hgone, hreleased⟩ := hst.queued info hinfo
    exact ⟨m', hm', horig, by rwa [hmemory], hreleased⟩
  · exact hst.once
  · exact hst.dead
  · exact hst.freedOnce

/-- Infos of one Memory go to the destroy list, and the Memory may go to the list of Memories. -/
theorem Swept.take (hst : Swept s S st) (hs : HeapOk s) (hm : s.Reachable m) {taken : List Info}
    (hperm : (st.heap.mem m).memory.Perm (taken ++ x.memory)) (hx : Cell s S freed m x)
    (hother : ∀ m', m' ≠ m → (m' ∈ freed ↔ m' ∈ st.memoryList)) (hsub : st.memoryList ⊆ freed)
    (hreleased : ∀ info ∈ taken, Released s freed m info)
    (hdead : ∀ m ∈ freed, s.DeadFirst m ∧ s.Reachable m) (hfreedOnce : freed.Nodup) :
    Swept s S { st.setMem m x with list := st.list ++ taken, memoryList := freed } := by
  have hnodup : (taken ++ x.memory).Nodup := hperm.nodup (hst.nodup hs m).of_map
  have htaken : ∀ info ∈ taken, info ∈ (st.heap.mem m).memory := fun info hinfo =>
    hperm.mem_iff.mpr (List.mem_append_left _ hinfo)
  constructor
  · exact hst.frame.trans (.setMem x)
  · intro m'
    rw [show ∀ m', Heap.mem (Sweep.heap _) m' = _ from sweep_setMem_mem x]
    split
    · rename_i heq
      exact heq ▸ hx
    · rename_i hne
      exact (hst.cell m').congr Iff.rfl (hother m' hne)
  · intro m' info hinfo
    rw [show ∀ m', Heap.mem (Sweep.heap _) m' = _ from sweep_setMem_mem x]
    rcases hst.kept m' info hinfo with hinfo | hinfo
    · split
      · rename_i heq
        subst heq
        rcases List.mem_append.mp (hperm.mem_iff.mp hinfo) with hinfo | hinfo
        · exact Or.inr (List.mem_append_right _ hinfo)
        · exact Or.inl hinfo
      · exact Or.inl hinfo
    · exact Or.inr (List.mem_append_left _ hinfo)
  · intro info hinfo
    rcases List.mem_append.mp hinfo with hinfo | hinfo
    · obtain ⟨m', hm', horig, hgone, hrel⟩ := hst.queued info hinfo
      refine ⟨m', hm', horig, ?_, hrel.mono hsub⟩
      rw [show ∀ m', Heap.mem (Sweep.heap _) m' = _ from sweep_setMem_mem x]
      split
      · rename_i heq
        subst heq
        exact fun hinfo => hgone (hperm.mem_iff.mpr (List.mem_append_right _ hinfo))
      · exact hgone
    · refine ⟨m, hm, (hst.cell m).sub.subset (htaken info hinfo), ?_, hreleased info hinfo⟩
      rw [show ∀ m', Heap.mem (Sweep.heap _) m' = _ from sweep_setMem_mem x, if_pos rfl]
      exact fun hinfo' => List.disjoint_of_nodup_append hnodup hinfo hinfo'
  · rw [List.map_append, List.nodup_append]
    refine ⟨hst.once, ?_, ?_⟩
    · have hids := (hperm.map Info.id).nodup (hst.nodup hs m)
      rw [List.map_append] at hids
      exact hids.of_append_left
    · intro i hi j hj heq
      obtain ⟨info, hinfo, rfl⟩ := List.mem_map.mp hj
      exact hst.id_notMem hs (htaken info hinfo) (heq ▸ hi)
  · exact hdead
  · exact hfreedOnce

theorem eraseIdx_middle {i : Nat} {infos : List Info} (hget : infos[i]? = some info) :
    ∃ l₁ l₂, infos = l₁ ++ info :: l₂ ∧ infos.eraseIdx i = l₁ ++ l₂ := by
  obtain ⟨hi, hinfo⟩ := List.getElem?_eq_some_iff.mp hget
  refine ⟨_, _, ?_, List.eraseIdx_eq_take_drop_succ _ _⟩
  rw [← hinfo, List.getElem_cons_drop, List.take_append_drop]

theorem perm_remove {i : Nat} (hindexes : x.indexes.Perm (x.memory.map Info.index))
    (hget : x.memory[i]? = some info) :
    (eraseLast (· = info.index) x.indexes).Perm ((x.memory.eraseIdx i).map Info.index) := by
  obtain ⟨l₁, l₂, hmem, herase⟩ := eraseIdx_middle hget
  rw [hmem, List.map_append, List.map_cons] at hindexes
  rw [herase, List.map_append]
  exact perm_eraseLast_middle hindexes

theorem Swept.remove (hst : Swept s S st) (hs : HeapOk s) (hm : s.Reachable m) {i : Nat}
    (hget : (st.heap.mem m).memory[i]? = some info) (hreleased : Released s st.memoryList m info) :
    Swept s S (st.remove m i info) := by
  have hcell := hst.cell m
  obtain ⟨l₁, l₂, hmem, herase⟩ := eraseIdx_middle hget
  refine hst.take hs hm ?_ ?_ (fun _ _ => Iff.rfl) (fun _ => id) ?_ hst.dead hst.freedOnce
  · dsimp only
    rw [herase, hmem]
    exact List.perm_middle
  · constructor
    · exact hcell.seen
    · exact (List.eraseIdx_sublist _ _).trans hcell.sub
    · exact perm_remove hcell.indexes hget
    · exact hcell.white
    · exact hcell.keep
    · intro hfreed
      rw [hcell.emptied hfreed] at hget
      cases hget
    · exact fun hnot => absurd hm hnot
  · intro info' hinfo'
    rw [List.mem_singleton.mp hinfo']
    exact hreleased

theorem Swept.free (hst : Swept s S st) (hs : HeapOk s) (hr : s.Reachable r) (hdead : s.DeadFirst r)
    (hnew : r ∉ st.memoryList) : Swept s S (st.free r) := by
  have hcell := hst.cell r
  have hmem : r ∈ st.memoryList ++ [r] := List.mem_append_right _ List.mem_cons_self
  refine hst.take hs hr ?_ ?_ ?_ (List.subset_append_left _ _) ?_ ?_ ?_
  · rw [List.append_nil]
    exact (List.reverse_perm _).symm
  · constructor
    · exact hcell.seen
    · exact List.nil_sublist _
    · exact .refl _
    · exact hcell.white
    · exact fun _ => iff_of_true rfl hmem
    · exact fun _ => rfl
    · exact fun hnot => absurd hr hnot
  · intro m' hne
    rw [List.mem_append, List.mem_singleton]
    exact or_iff_left hne
  · exact fun _ _ => Or.inl hmem
  · intro m' hm'
    rcases List.mem_append.mp hm' with hm' | hm'
    · exact hst.dead m' hm'
    · rw [List.mem_singleton.mp hm']
      exact ⟨hdead, hr⟩
  · rw [← List.concat_eq_append]
    exact hst.freedOnce.concat hnew

end ManagedObject.Collector
