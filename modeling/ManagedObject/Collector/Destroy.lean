import ManagedObject.Collector.Invariant

/-!
# Emptying a Memory

The loop that puts all that is left in a Memory into the destroy list takes the numbers in `indexes` as
positions. When a Memory has lost an Info before its end, some position lies outside, and the loop
reads beyond the vector. Where it does not, the positions are the indexes, and the loop takes every
Info of the Memory exactly once.
-/

namespace ManagedObject.Collector

open Outcome ManagedObject.Lists

variable {st st' : Sweep} {r m : MemoryId}

theorem sweep_setMem_mem (x : Memory) (m' : MemoryId) :
    (st.setMem m x).heap.mem m' = if m' = m then x else st.heap.mem m' := rfl

theorem setMem_setMem (x y : Memory) : (st.setMem m x).setMem m y = st.setMem m y := by
  rw [Sweep.setMem, Sweep.setMem, Sweep.setMem, Heap.setMem, Heap.setMem, Heap.setMem]
  congr 2
  funext i
  dsimp only
  split <;> rfl

theorem setMem_self : st.setMem m (st.heap.mem m) = st := by
  rw [Sweep.setMem, Heap.setMem]
  congr 2
  funext i
  split
  · rename_i heq
    rw [heq]
  · rfl

def Sweep.emptied (st : Sweep) (r : MemoryId) : Sweep :=
  { st.setMem r { st.heap.mem r with indexes := [], memory := [] } with
    list := st.list ++ (st.heap.mem r).memory.reverse }

theorem perm_dropLast {indexes : List Nat} {v : Nat} {infos : List Info}
    (hperm : (indexes ++ [v]).Perm (infos.map Info.index)) (hany : infos.any (·.index = v) = true) :
    indexes.Perm ((eraseLast (·.index = v) infos).map Info.index) := by
  obtain ⟨info, hinfo, hv⟩ := List.any_eq_true.mp hany
  obtain ⟨b, l₁, l₂, hb, -, rfl, herase⟩ :=
    eraseLast_eq (p := fun i : Info => decide (i.index = v)) hinfo hv
  rw [herase, List.map_append]
  rw [List.map_append, List.map_cons, of_decide_eq_true hb] at hperm
  exact ((List.perm_append_singleton v indexes).symm.trans (hperm.trans List.perm_middle)).cons_inv

/-- The loop takes all that is left when no number exceeds its position, and only then. -/
theorem destroyRemaining_early : ∀ {n st}, (st.heap.mem r).indexes.length = n →
    (st.heap.mem r).indexes.Perm ((st.heap.mem r).memory.map Info.index) →
      Meets (destroyRemaining r n st) (fun f => f = .outOfRange ∧ ¬ Early (st.heap.mem r).indexes)
        fun st' => Early (st.heap.mem r).indexes ∧ ∃ list,
          st' = { st.setMem r { st.heap.mem r with indexes := [], memory := [] } with list } := by
  intro n
  induction n with
  | zero =>
    intro st hn hperm
    have hindexes : (st.heap.mem r).indexes = [] := List.length_eq_zero_iff.mp hn
    rw [hindexes] at hperm
    have hmemory : (st.heap.mem r).memory = [] := List.map_eq_nil_iff.mp hperm.nil_eq.symm
    have hx : { st.heap.mem r with indexes := [], memory := [] } = st.heap.mem r := by
      rw [← hmemory, ← show (st.heap.mem r).indexes = [] from hindexes]
    rw [destroyRemaining, meets_ok, hindexes, hx, setMem_self]
    exact ⟨.nil, st.list, rfl⟩
  | succ n ih =>
    intro st hn hperm
    have hlength := hperm.length_eq
    obtain hnil | ⟨indexes, v, hconcat⟩ := List.eq_nil_or_concat (st.heap.mem r).indexes
    · rw [hnil] at hn
      cases hn
    · rw [List.concat_eq_append] at hconcat
      rw [hconcat] at hn hperm hlength ⊢
      rw [List.length_map] at hlength
      rw [destroyRemaining]
      simp only [hconcat, List.getLast?_concat, List.dropLast_concat]
      have hv : v ∈ (st.heap.mem r).memory.map Info.index := hperm.mem_iff.mp (by simp)
      split
      · rename_i hget
        refine ⟨rfl, fun hearly => ?_⟩
        have hle := hearly.dropLast.2
        rw [List.getElem?_eq_none_iff] at hget
        rw [List.length_append, List.length_singleton] at hlength
        omega
      · rename_i info2 hget
        obtain ⟨hless, -⟩ := List.getElem?_eq_some_iff.mp hget
        have hmap : ((st.heap.mem r).memory.set v { info2 with ptr := .null }).map Info.index =
            (st.heap.mem r).memory.map Info.index := map_set_of_eq hget rfl
        rw [← hmap] at hperm hv
        have hany : ((st.heap.mem r).memory.set v { info2 with ptr := .null }).any (·.index = v) = true := by
          obtain ⟨info, hinfo, hindex⟩ := List.mem_map.mp hv
          exact List.any_eq_true.mpr ⟨info, hinfo, decide_eq_true hindex⟩
        rw [if_pos hany]
        rw [List.length_append, List.length_singleton] at hlength hn
        refine (ih ?_ ?_).mono ?_ ?_
        all_goals rw [show ∀ m, Heap.mem (Sweep.heap _) m = _ from sweep_setMem_mem _, if_pos rfl]
        · exact Nat.succ.inj hn
        · exact perm_dropLast hperm hany
        · exact fun f hf => ⟨hf.1, fun hearly => hf.2 hearly.dropLast.1⟩
        · rintro st' ⟨hearly, list, rfl⟩
          have hle : v ≤ indexes.length := by omega
          refine ⟨hearly.concat hle, list, ?_⟩
          exact congrArg (fun t : Sweep => { t with list }) (setMem_setMem _ _)

theorem destroyRemaining_of_range : ∀ {n st}, (st.heap.mem r).indexes = List.range n →
    (st.heap.mem r).memory.map Info.index = List.range n →
      destroyRemaining r n st = .ok (st.emptied r) := by
  intro n
  induction n with
  | zero =>
    intro st hindexes hmemory
    have hnil : (st.heap.mem r).memory = [] := List.map_eq_nil_iff.mp hmemory
    have hx : { st.heap.mem r with indexes := [], memory := [] } = st.heap.mem r := by
      rw [← hnil, ← show (st.heap.mem r).indexes = [] from hindexes]
    rw [destroyRemaining, Sweep.emptied, hx, setMem_self, hnil, List.reverse_nil, List.append_nil]
  | succ n ih =>
    intro st hindexes hmemory
    rw [List.range_succ] at hindexes hmemory
    obtain ⟨infos, tail, hconcat, hinfos, htail⟩ := List.map_eq_append_iff.mp hmemory
    obtain ⟨info, rfl, hinfo⟩ := List.map_eq_singleton_iff.mp htail
    have hlength : infos.length = n := by rw [← List.length_map Info.index, hinfos, List.length_range]
    have hget : (infos ++ [info])[n]? = some info := by rw [← hlength, List.getElem?_concat_length]
    have hset : (infos ++ [info]).set n { info with ptr := .null } = infos ++ [{ info with ptr := .null }] := by
      rw [← hlength, List.set_append_right _ _ (Nat.le_refl _), Nat.sub_self]
      rfl
    rw [destroyRemaining]
    simp only [hindexes, List.getLast?_concat, List.dropLast_concat, hconcat, hget, hset]
    rw [if_pos (by simp [hinfo]), eraseLast_concat (by simpa using hinfo)]
    rw [ih (by rw [sweep_setMem_mem, if_pos rfl]) (by rw [sweep_setMem_mem, if_pos rfl]; exact hinfos)]
    simp only [Sweep.emptied, sweep_setMem_mem, if_true, hconcat, List.reverse_concat, List.append_assoc,
      List.singleton_append]
    exact congrArg (fun t : Sweep => Except.ok { t with list := st.list ++ info :: infos.reverse })
      (setMem_setMem _ _)

/-- Where it has a defined result, the loop takes all that is left. -/
theorem destroyRemaining_ok (hindexes : (st.heap.mem r).indexes.Perm ((st.heap.mem r).memory.map Info.index))
    (hlate : Late ((st.heap.mem r).memory.map Info.index))
    (h : destroyRemaining r (st.heap.mem r).indexes.length st = .ok st') : st' = st.emptied r := by
  have hlength := hindexes.length_eq
  rw [List.length_map] at hlength
  obtain ⟨hearly, -⟩ := (destroyRemaining_early rfl hindexes).of_ok h
  obtain ⟨hmemory, hrange⟩ := eq_range_of_late_early hindexes hlate hearly
  rw [List.length_map, ← hlength] at hmemory hrange
  rw [destroyRemaining_of_range hrange hmemory] at h
  cases h
  rfl

def Sweep.free (st : Sweep) (r : MemoryId) : Sweep :=
  { st.setMem r { st.heap.mem r with indexes := [], memory := [], keepMemory := true } with
    list := st.list ++ (st.heap.mem r).memory.reverse
    memoryList := st.memoryList ++ [r] }

theorem freeMemory_ok (hindexes : (st.heap.mem r).indexes.Perm ((st.heap.mem r).memory.map Info.index))
    (hlate : Late ((st.heap.mem r).memory.map Info.index)) (h : freeMemory r st = .ok st') :
    st' = st.free r := by
  obtain ⟨st₁, hdestroy, h⟩ := bind_eq_ok h
  generalize hkept : st.setMem r { st.heap.mem r with keepMemory := true } = kept at hdestroy
  have hmem : kept.heap.mem r = { st.heap.mem r with keepMemory := true } := by
    rw [← hkept, sweep_setMem_mem, if_pos rfl]
  have hst₁ := destroyRemaining_ok (by rw [hmem]; exact hindexes) (by rw [hmem]; exact hlate) hdestroy
  rw [Sweep.emptied, hmem] at hst₁
  have hempty : (st₁.heap.mem r).memory = [] := by
    rw [hst₁, show Heap.mem (Sweep.heap _) _ = _ from sweep_setMem_mem _ r, if_pos rfl]
  rw [if_pos hempty] at h
  cases h
  rw [hst₁, ← hkept, setMem_setMem]
  rfl

/-- A Memory is emptied and put into the list of Memories, or the emptying runs out of its Infos. -/
theorem freeMemory_early (hindexes : (st.heap.mem r).indexes.Perm ((st.heap.mem r).memory.map Info.index)) :
    Meets (freeMemory r st) (fun f => f = .outOfRange ∧ ¬ Early (st.heap.mem r).indexes)
      fun st' => Early (st.heap.mem r).indexes ∧ ∃ list, st' =
        { st.setMem r { st.heap.mem r with indexes := [], memory := [], keepMemory := true } with
          list, memoryList := st.memoryList ++ [r] } := by
  generalize hkept : st.setMem r { st.heap.mem r with keepMemory := true } = kept
  have hmem : kept.heap.mem r = { st.heap.mem r with keepMemory := true } := by
    rw [← hkept, sweep_setMem_mem, if_pos rfl]
  have hperm : (kept.heap.mem r).indexes.Perm ((kept.heap.mem r).memory.map Info.index) := by
    rw [hmem]
    exact hindexes
  have hdestroy := destroyRemaining_early rfl hperm
  rw [hmem] at hdestroy
  rw [freeMemory, hkept, hmem]
  refine hdestroy.bind ?_
  rintro st₁ ⟨hearly, list, rfl⟩
  rw [if_pos (by rw [show ∀ m, Heap.mem (Sweep.heap _) m = _ from sweep_setMem_mem _, if_pos rfl])]
  refine ⟨hearly, list, ?_⟩
  rw [← hkept, setMem_setMem]
  rfl

end ManagedObject.Collector
