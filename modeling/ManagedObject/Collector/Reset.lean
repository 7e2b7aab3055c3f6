import ManagedObject.Collector.Liveness
import ManagedObject.Collector.Trail

/-!
# Colours are reset

Marking and sweeping a heap between two collections terminates, and every reachable Memory is entered.
The sweep has a defined result exactly when no Memory that it empties is left with an index beyond its
position; then each Memory that is not in the list of Memories is gray and unseen again.
-/

namespace ManagedObject.Collector

open Outcome ManagedObject.Lists

variable {s : Heap} {st st' : Sweep} {S stack path : List MemoryId} {acc acc' : List (MemoryId × List MemoryId)}
  {m r n : MemoryId} {x : Memory} {info : Info} {h : HandleId} {i depth : Nat} {visited : List MemoryId}

/-! ### The Memories that are entered -/

/-- What a round of the loop of `do_sweep` enters. -/
def enteredInfo (entered : Sweep → HandleId → List MemoryId) (info : Info) (st : Sweep) : List MemoryId :=
  match info.getHeap with
  | none => []
  | some ref =>
    match st.heap.getMemory ref with
    | .error _ => []
    | .ok (r, heap) => if (heap.mem r).seen then [] else entered { st with heap } ref

def enteredInfos (doSweep : Sweep → HandleId → Except Fault Sweep)
    (entered : Sweep → HandleId → List MemoryId) (m : MemoryId) : Nat → Sweep → List MemoryId
  | 0, _ => []
  | i + 1, st =>
    match (st.heap.mem m).memory[i]? with
    | none => []
    | some info => enteredInfo entered info st ++
      match sweepInfo doSweep m i info st with
      | .error _ => []
      | .ok st => enteredInfos doSweep entered m i st

/-- The Memories that a call of `do_sweep` enters, in that order, each as often as it is entered. -/
def entered : Nat → Sweep → HandleId → List MemoryId
  | 0, _, _ => []
  | depth + 1, st, h =>
    match st.heap.getMemory h with
    | .error _ => []
    | .ok (m, heap) =>
      let st := { st with heap }
      if (st.heap.mem m).seen then []
      else m :: enteredInfos (doSweep depth) (entered depth) m (st.heap.mem m).memory.length (st.enter m)

/-- From `acc` on a sweep has found `acc'`, and left the Memories of its stack alone. -/
structure Went (S : List MemoryId) (acc acc' : List (MemoryId × List MemoryId)) (visited : List MemoryId)
    (st st' : Sweep) : Prop where
  stack : ∀ n ∈ S, st'.heap.mem n = st.heap.mem n
  entered : ∀ n ∈ Dfs.nodes acc', n ∈ Dfs.nodes acc ∨ n ∈ visited

theorem Went.refl : Went S acc acc visited st st := ⟨fun _ _ => rfl, fun _ => Or.inl⟩

theorem Went.trans {acc'' : List (MemoryId × List MemoryId)} {visited' : List MemoryId} {st'' : Sweep}
    (h₁ : Went S acc acc' visited st st') (h₂ : Went S acc' acc'' visited' st' st'') :
    Went S acc acc'' (visited ++ visited') st st'' where
  stack n hn := (h₂.stack n hn).trans (h₁.stack n hn)
  entered n hn := by
    rcases h₂.entered n hn with hn | hn
    · exact (h₁.entered n hn).imp id (List.mem_append_left _)
    · exact Or.inr (List.mem_append_right _ hn)

theorem Went.setMem {list : List Info} {freed : List MemoryId} (hwent : Went S acc acc' visited st st')
    (hm : m ∉ S) (x : Memory) :
    Went S acc acc' visited st { st'.setMem m x with list, memoryList := freed } where
  stack n hn := by
    have hne : n ≠ m := fun heq => hm (heq ▸ hn)
    exact (setMem_mem_of_ne hne x).trans (hwent.stack n hn)
  entered := hwent.entered

/-- What a visit leaves: the visited Memory is left, or it is dead and about to be emptied. -/
structure Returned (s : Heap) (S : List MemoryId) (acc acc' : List (MemoryId × List MemoryId))
    (visited : List MemoryId) (st : Sweep) (r : MemoryId) (st' : Sweep) : Prop where
  went : Went S acc acc' visited st st'
  found : r ∈ Dfs.nodes acc'
  state : Tracks s S acc' st' ∨ ∃ st₁, st' = st₁.leave r ∧ Spent s S acc' r st₁

/-- What the visits of Memories do, when `S` is the stack. -/
def Sweeps (s : Heap) (depth : Nat) (S : List MemoryId) : Prop :=
  ∀ acc st h, Tracks s S acc st → s.Reachable (s.target h) → s.check h = .ok () → s.target h ∉ S →
    s.target root ∈ s.target h :: S →
      Meets (doSweep depth st h) (Overruns s (s.trail depth S acc h))
        (Returned s S acc (s.trail depth S acc h) (entered depth st h) st (s.target h))

/-! ### One round -/

def Memory.without (x : Memory) (i : Nat) (info : Info) : Memory :=
  { x with indexes := eraseLast (· = info.index) x.indexes, memory := x.memory.eraseIdx i }

/-- The trail along an Info. -/
def Heap.follow (s : Heap) (depth : Nat) (S : List MemoryId) (acc : List (MemoryId × List MemoryId))
    (info : Info) : List (MemoryId × List MemoryId) :=
  match info.getHeap with
  | none => acc
  | some h => s.trail depth S acc h

theorem foldl_follow {infos : List Info} : infos.foldl (s.follow depth S) acc =
    (infos.filterMap Info.getHeap).foldl (s.trail depth S) acc := by
  rw [List.foldl_filterMap]
  congr
  funext acc info
  rw [Heap.follow]
  cases info.getHeap <;> rfl

theorem follow_suffix (acc : List (MemoryId × List MemoryId)) (info : Info) :
    acc <:+ s.follow depth S acc info := by
  rw [Heap.follow]
  split
  · exact List.suffix_rfl
  · exact Dfs.trail_suffix _ _

structure Rounded (s : Heap) (S : List MemoryId) (m : MemoryId) (i : Nat) (info : Info)
    (acc acc' : List (MemoryId × List MemoryId)) (visited : List MemoryId) (st st' : Sweep) : Prop where
  tracks : Tracks s (m :: S) acc' st'
  went : Went S acc acc' visited st st'
  mem : st'.heap.mem m =
    if s.takes (m :: S) m info then (st.heap.mem m).without i info else st.heap.mem m

theorem Rounded.keep (hst : Tracks s (m :: S) acc' st') (hwent : Went (m :: S) acc acc' visited st st')
    (htakes : s.takes (m :: S) m info = false) : Rounded s S m i info acc acc' visited st st' := by
  refine ⟨hst, ⟨fun n hn => hwent.stack n (List.mem_cons_of_mem _ hn), hwent.entered⟩, ?_⟩
  rw [htakes, hwent.stack m List.mem_cons_self]
  rfl

theorem Rounded.take (hst : Tracks s (m :: S) acc' st') (hwent : Went (m :: S) acc acc' visited st st')
    (hm : s.Reachable m) (hoff : m ∉ S) (hget : (st.heap.mem m).memory[i]? = some info)
    (htakes : s.takes (m :: S) m info = true) :
    Rounded s S m i info acc acc' visited st (st'.remove m i info) := by
  have hsame : st'.heap.mem m = st.heap.mem m := hwent.stack m List.mem_cons_self
  have hwent' : Went S acc acc' visited st st' :=
    ⟨fun n hn => hwent.stack n (List.mem_cons_of_mem _ hn), hwent.entered⟩
  refine ⟨hst.remove hm List.mem_cons_self (by rw [hsame, hget]), hwent'.setMem hoff _, ?_⟩
  rw [htakes, ← hsame]
  exact setMem_mem_self _

theorem takes_none (hnone : info.getHeap = none) :
    s.takes stack m info = (!info.ptrIsRef && decide (s.DeadFirst m)) := by
  rw [Heap.takes, hnone]

theorem takes_some (href : info.getHeap = some h) :
    s.takes stack m info = (decide (s.DeadFirst (s.target h)) && decide (s.target h ∉ stack)) := by
  rw [Heap.takes, href]

theorem sweepInfo_none {visit : Sweep → HandleId → Except Fault Sweep} (hnone : info.getHeap = none) :
    sweepInfo visit m i info st =
      .ok (if info.ptrIsRef = false ∧ (st.heap.mem m).color = .white then st.remove m i info else st) := by
  rw [sweepInfo, hnone]
  cases info.ptrIsRef with
  | false =>
    by_cases hwhite : (st.heap.mem m).color = .white
    · simp [hwhite, pure, Except.pure]
    · simp [hwhite, pure, Except.pure]
  | true => rfl

theorem ptrIsRef_of_getHeap (href : info.getHeap = some h) : info.ptrIsRef = true := by
  cases hvalue : info.ptrIsRef with
  | true => rfl
  | false => exact absurd (href.symm.trans (getHeap_value hvalue)) nofun

/-- The rest of a round, after the visit of the Memory that a reference leads to. -/
def afterVisit (m : MemoryId) (i : Nat) (info : Info) (h : HandleId) (st : Sweep) : Except Fault Sweep := do
  let (r, heap) ← st.heap.getMemory h
  let st := { st with heap }
  if (st.heap.mem r).keepMemory then return st.remove m i info
  if (st.heap.mem r).color = .white then
    let st ← freeMemory r st
    return st.remove m i info
  return st

theorem sweepInfo_some {visit : Sweep → HandleId → Except Fault Sweep} (href : info.getHeap = some h)
    (hcheck : st.heap.check h = .ok ()) : sweepInfo visit m i info st =
      if (st.heap.mem (st.heap.target h)).seen then .ok (st.create h)
      else visit (st.create h) h >>= afterVisit m i info h := by
  rw [sweepInfo, ptrIsRef_of_getHeap href, href]
  dsimp only
  rw [getMemory_eq hcheck]
  rfl

theorem enteredInfo_some {entered : Sweep → HandleId → List MemoryId} (href : info.getHeap = some h)
    (hcheck : st.heap.check h = .ok ()) : enteredInfo entered info st =
      if (st.heap.mem (st.heap.target h)).seen then [] else entered (st.create h) h := by
  rw [enteredInfo, href]
  dsimp only
  rw [getMemory_eq hcheck]
  rfl

theorem sweepInfo_value {visit : Sweep → HandleId → Except Fault Sweep} (hst : Tracks s (m :: S) acc st)
    (hm : s.Reachable m) (hoff : m ∉ S) (hget : (st.heap.mem m).memory[i]? = some info)
    (hnone : info.getHeap = none) :
    ∃ st', sweepInfo visit m i info st = .ok st' ∧ Rounded s S m i info acc acc visited st st' := by
  refine ⟨_, sweepInfo_none hnone, ?_⟩
  have htakes : s.takes (m :: S) m info = _ := takes_none hnone
  rw [← decide_eq_decide.mpr (hst.cell m hm).white] at htakes
  split
  · rename_i hboth
    refine .take hst .refl hm hoff hget ?_
    rw [htakes, hboth.1, decide_eq_true hboth.2]
    rfl
  · rename_i hnot
    refine .keep hst .refl ?_
    rw [htakes]
    simpa using hnot

theorem afterVisit_eq (hcheck : st.heap.check h = .ok ()) : afterVisit m i info h st =
    if (st.heap.mem (st.heap.target h)).keepMemory then .ok ((st.create h).remove m i info)
    else if (st.heap.mem (st.heap.target h)).color = .white then do
      let st ← freeMemory (st.heap.target h) (st.create h)
      return st.remove m i info
    else .ok (st.create h) := by
  rw [afterVisit, getMemory_eq hcheck]
  rfl

/-- A reference to a Memory that has been visited: it is taken if the Memory is dead. -/
theorem Returned.after (hreturned : Returned s (m :: S) acc acc' visited st (s.target h) st')
    (hm : s.Reachable m) (hoff : m ∉ S) (hget : (st.heap.mem m).memory[i]? = some info)
    (href : info.getHeap = some h) (hr : s.Reachable (s.target h)) (hcheck : s.check h = .ok ())
    (hnew : s.target h ∉ m :: S) (hroot : s.target root ∈ m :: S) :
    Meets (afterVisit m i info h st') (Overruns s acc')
      (Rounded s S m i info acc acc' visited st) := by
  have hwent := hreturned.went
  have htakes : s.takes (m :: S) m info = _ := takes_some href
  rw [decide_eq_true hnew, Bool.and_true] at htakes
  obtain hst | ⟨st₁, rfl, hspent⟩ := hreturned.state
  · have hx := hst.cell _ hr
    rw [afterVisit_eq (hst.frame.check.trans hcheck), hst.frame.target]
    by_cases hdead : s.DeadFirst (s.target h)
    · rw [if_pos (hx.keep.mpr ⟨hreturned.found, hdead, hnew⟩)]
      exact .take hst.create ⟨hwent.stack, hwent.entered⟩ hm hoff hget (htakes.trans (decide_eq_true hdead))
    · rw [if_neg fun hkeep => hdead (hx.keep.mp hkeep).2.1, if_neg fun hwhite => hdead (hx.white.mp hwhite)]
      exact .keep hst.create ⟨hwent.stack, hwent.entered⟩ (htakes.trans (decide_eq_false hdead))
  · have hx := hspent.tracks.cell _ hr
    have hframe : Frame s (st₁.leave (s.target h)).heap := hspent.tracks.frame.trans (.setMem _)
    have hmem : (st₁.leave (s.target h)).heap.mem (s.target h) =
        { st₁.heap.mem (s.target h) with seen := false } := setMem_mem_self _
    rw [afterVisit_eq (hframe.check.trans hcheck), hframe.target, hmem,
      if_neg fun hkeep => (hx.keep.mp hkeep).2.2 List.mem_cons_self, if_pos (hx.white.mpr hspent.dead)]
    have hindexes : (((st₁.leave (s.target h)).create h).heap.mem (s.target h)).indexes =
        s.remaining (s.target h) (m :: S) := (congrArg Memory.indexes hmem).trans hspent.indexes
    have hperm : (((st₁.leave (s.target h)).create h).heap.mem (s.target h)).indexes.Perm
        ((((st₁.leave (s.target h)).create h).heap.mem (s.target h)).memory.map Info.index) := by
      rw [show ((st₁.leave (s.target h)).create h).heap.mem (s.target h) = _ from hmem]
      exact hx.indexes
    refine Meets.bind ((freeMemory_early hperm).mono ?_ fun _ => id) ?_
    · rintro f ⟨rfl, hlate⟩
      have hne : s.target h ≠ s.target root := fun heq => hnew (heq ▸ hroot)
      rw [hindexes] at hlate
      exact ⟨rfl, _, hspent.path, hspent.dead, hne, hlate⟩
    · rintro st₂ ⟨hearly, list, rfl⟩
      rw [hindexes] at hearly
      have hwent' : Went (m :: S) acc acc' visited st ((st₁.leave (s.target h)).create h) :=
        ⟨hwent.stack, hwent.entered⟩
      exact .take (hspent.free hr hearly list) (hwent'.setMem hnew _) hm hoff hget
        (htakes.trans (decide_eq_true hspent.dead))

theorem follow_none (hnone : info.getHeap = none) : s.follow depth S acc info = acc := by
  rw [Heap.follow, hnone]

theorem follow_some (href : info.getHeap = some h) :
    s.follow depth S acc info = s.trail depth S acc h := by
  rw [Heap.follow, href]

/-- One round follows the trail along its Info. -/
theorem sweepInfo_tracks (hs : s.Graph) (hsweeps : Sweeps s depth (m :: S)) (hst : Tracks s (m :: S) acc st)
    (hm : s.Reachable m) (hoff : m ∉ S) (hroot : s.target root ∈ m :: S)
    (hget : (st.heap.mem m).memory[i]? = some info) :
    Meets (sweepInfo (doSweep depth) m i info st) (Overruns s (s.follow depth (m :: S) acc info))
      (Rounded s S m i info acc (s.follow depth (m :: S) acc info)
        (enteredInfo (entered depth) info st) st) := by
  cases href : info.getHeap with
  | none =>
    obtain ⟨st', heq, hrounded⟩ := sweepInfo_value hst hm hoff hget href
    rw [heq, follow_none href]
    exact hrounded
  | some h =>
    have hh : h ∈ s.refs m :=
      List.mem_filterMap.mpr ⟨info, (hst.cell m hm).sub.subset (List.mem_of_getElem? hget), href⟩
    have hcheck := hs.check m hm h hh
    have hr : s.Reachable (s.target h) := hm.tail ⟨h, hh, rfl⟩
    have hcheck' : st.heap.check h = .ok () := hst.frame.check.trans hcheck
    have hseen := (hst.cell _ hr).seen
    rw [sweepInfo_some href hcheck', enteredInfo_some href hcheck', hst.frame.target, follow_some href]
    by_cases hopen : s.target h ∈ m :: S
    · rw [if_pos (hseen.mpr hopen), if_pos (hseen.mpr hopen), Heap.trail,
        Dfs.trail_of_mem (hst.stack hopen)]
      refine .keep hst.create ⟨fun _ _ => rfl, fun _ => Or.inl⟩ ?_
      rw [takes_some href, decide_eq_false (not_not.mpr hopen), Bool.and_false]
    · rw [if_neg fun h => hopen (hseen.mp h), if_neg fun h => hopen (hseen.mp h)]
      have hvisit := hsweeps acc (st.create h) h hst.create hr hcheck hopen (List.mem_cons_of_mem _ hroot)
      refine hvisit.bind fun st₁ hreturned => ?_
      have hreturned' : Returned s (m :: S) acc _ _ st (s.target h) st₁ :=
        ⟨⟨hreturned.went.stack, hreturned.went.entered⟩, hreturned.found, hreturned.state⟩
      exact hreturned'.after hm hoff hget href hr hcheck hopen hroot

/-! ### The loop -/

/-- What the loop over `m` leaves, when the Infos `infos` were ahead of it. -/
structure Looped (s : Heap) (S : List MemoryId) (m : MemoryId) (infos : List Info)
    (acc acc' : List (MemoryId × List MemoryId)) (visited : List MemoryId) (st st' : Sweep) : Prop where
  tracks : Tracks s (m :: S) acc' st'
  went : Went S acc acc' visited st st'
  indexes : (st'.heap.mem m).indexes =
    infos.reverse.foldl (s.strike (m :: S) m) (st.heap.mem m).indexes

theorem sweepInfos_tracks (hs : s.Graph) (hsweeps : Sweeps s depth (m :: S)) (hm : s.Reachable m)
    (hoff : m ∉ S) (hroot : s.target root ∈ m :: S) : ∀ {i acc st}, Tracks s (m :: S) acc st →
      i ≤ (st.heap.mem m).memory.length → ∀ {infos}, (st.heap.mem m).memory.take i = infos →
        Meets (sweepInfos (doSweep depth) m i st)
          (Overruns s (infos.reverse.foldl (s.follow depth (m :: S)) acc))
          (Looped s S m infos acc (infos.reverse.foldl (s.follow depth (m :: S)) acc)
            (enteredInfos (doSweep depth) (entered depth) m i st) st) := by
  intro i
  induction i with
  | zero =>
    intro acc st hst _ infos hinfos
    rw [List.take_zero] at hinfos
    subst hinfos
    exact ⟨hst, .refl, rfl⟩
  | succ i ih =>
    intro acc st hst hi infos hinfos
    have hget : (st.heap.mem m).memory[i]? = some (st.heap.mem m).memory[i] := List.getElem?_eq_getElem hi
    generalize (st.heap.mem m).memory[i] = info at hget
    rw [List.take_add_one, hget, Option.toList_some] at hinfos
    subst hinfos
    rw [List.reverse_concat, List.foldl_cons]
    have hround := sweepInfo_tracks hs hsweeps hst hm hoff hroot hget
    rw [sweepInfos, enteredInfos, hget]
    dsimp only
    cases hsweep : sweepInfo (doSweep depth) m i info st with
    | error f =>
      exact (hround.of_error hsweep).mono (Dfs.foldl_suffix follow_suffix _)
    | ok st₁ =>
      have hrounded := hround.of_ok hsweep
      have htake : (st₁.heap.mem m).memory.take i = (st.heap.mem m).memory.take i := by
        rw [hrounded.mem]
        split
        · exact List.take_eraseIdx_eq_take_of_le _ _ _ (Nat.le_refl i)
        · rfl
      have hle : i ≤ (st₁.heap.mem m).memory.length := by
        have hlength := congrArg List.length htake
        rw [List.length_take, List.length_take] at hlength
        omega
      refine (ih hrounded.tracks hle htake).mono (fun _ => id) fun st' hlooped => ?_
      refine ⟨hlooped.tracks, hrounded.went.trans hlooped.went, ?_⟩
      rw [hlooped.indexes, hrounded.mem, List.reverse_concat, List.foldl_cons, Heap.strike]
      split <;> rfl

/-! ### The visit -/

section Unseen

variable (hcheck : st.heap.check h = .ok ()) (htarget : st.heap.target h = m)
  (hunseen : (st.heap.mem m).seen = false)

include hcheck htarget hunseen

theorem doSweep_unseen : doSweep (depth + 1) st h = do
    let st' ← sweepInfos (doSweep depth) m (st.heap.mem m).memory.length ((st.create h).enter m)
    return st'.leave m := by
  subst htarget
  rw [doSweep, getMemory_eq hcheck]
  dsimp only [bind, Except.bind]
  rw [create_mem, hunseen]
  rfl

theorem entered_unseen : entered (depth + 1) st h =
    m :: enteredInfos (doSweep depth) (entered depth) m (st.heap.mem m).memory.length
      ((st.create h).enter m) := by
  subst htarget
  rw [entered, getMemory_eq hcheck]
  dsimp only
  rw [create_mem, hunseen]
  rfl

end Unseen

theorem enter_leave (hwhite : (st.heap.mem m).color = .white) (hunseen : (st.heap.mem m).seen = false) :
    (st.enter m).leave m = st := by
  rw [Sweep.leave, Sweep.enter, sweep_setMem_mem, if_pos rfl, setMem_setMem]
  have hx : st.heap.mem m = { st.heap.mem m with seen := false, color := .white } := by
    rw [← hunseen, ← hwhite]
  rw [hwhite]
  dsimp only
  rw [if_neg (by decide), ← hx, setMem_self]

theorem trail_unfound (hnew : s.target h ∉ Dfs.nodes acc) : s.trail (depth + 1) S acc h =
    (s.mem (s.target h)).memory.reverse.foldl (s.follow depth (s.target h :: S))
      ((s.target h, S) :: acc) := by
  rw [foldl_follow, List.filterMap_reverse]
  exact Dfs.trail_succ hnew

theorem Heap.Graph.exists_of_reachable (hs : s.Graph) (hm : s.Reachable m) : m ∉ s.destroyedMemory := by
  cases hm with
  | refl => exact (check_ok hs.checkRoot).2
  | tail hpath hedge =>
    obtain ⟨h, hh, rfl⟩ := hedge
    exact (check_ok (hs.check _ hpath h hh)).2

/-- The loop of a visit, from the entering of the Memory to its leaving. -/
theorem sweepInfos_visit (hs : s.Graph) (hsweeps : Sweeps s depth (r :: S)) (hr : s.Reachable r)
    (hoff : r ∉ S) (hroot : s.target root ∈ r :: S) (hst : Tracks s (r :: S) acc ((st.create h).enter r)) :
    Meets (sweepInfos (doSweep depth) r (st.heap.mem r).memory.length ((st.create h).enter r))
      (Overruns s ((st.heap.mem r).memory.reverse.foldl (s.follow depth (r :: S)) acc))
      fun st₁ => Tracks s (r :: S) ((st.heap.mem r).memory.reverse.foldl (s.follow depth (r :: S)) acc) st₁ ∧
        Went S acc ((st.heap.mem r).memory.reverse.foldl (s.follow depth (r :: S)) acc)
          (enteredInfos (doSweep depth) (entered depth) r (st.heap.mem r).memory.length
            ((st.create h).enter r)) st (st₁.leave r) ∧
        (st₁.heap.mem r).indexes =
          (st.heap.mem r).memory.reverse.foldl (s.strike (r :: S) r) (st.heap.mem r).indexes := by
  have hmemory : (((st.create h).enter r).heap.mem r).memory = (st.heap.mem r).memory := by
    rw [Sweep.enter, sweep_setMem_mem, if_pos rfl]
    rfl
  have hindexes : (((st.create h).enter r).heap.mem r).indexes = (st.heap.mem r).indexes := by
    rw [Sweep.enter, sweep_setMem_mem, if_pos rfl]
    rfl
  have hle := Nat.le_of_eq (congrArg List.length hmemory.symm)
  have htake : (((st.create h).enter r).heap.mem r).memory.take (st.heap.mem r).memory.length =
      (st.heap.mem r).memory := by
    rw [hmemory, List.take_length]
  refine (sweepInfos_tracks hs hsweeps hr hoff hroot hst hle htake).mono (fun _ => id) fun st₁ hlooped => ?_
  refine ⟨hlooped.tracks, ⟨fun n hn => ?_, hlooped.went.entered⟩, ?_⟩
  · have hne : n ≠ r := fun heq => hoff (heq ▸ hn)
    calc (st₁.leave r).heap.mem n = st₁.heap.mem n := setMem_mem_of_ne hne _
      _ = ((st.create h).enter r).heap.mem n := hlooped.went.stack n hn
      _ = st.heap.mem n := setMem_mem_of_ne hne _
  · rw [hlooped.indexes, hindexes]

/-- Where the depth is not used up, all that `m` refers to is on the trail. -/
theorem mem_foldl_follow (hdepth : 0 < depth) {infos : List Info} (hh : h ∈ infos.filterMap Info.getHeap) :
    s.target h ∈ Dfs.nodes (infos.reverse.foldl (s.follow depth S) acc) := by
  obtain ⟨depth, rfl⟩ := Nat.exists_eq_add_one.mpr hdepth
  rw [foldl_follow, List.filterMap_reverse]
  exact Dfs.mem_foldl_trail (List.mem_reverse.mpr hh)

theorem doSweep_tracks (hs : s.Graph) : ∀ depth S, Dfs.left (List.range s.nextMemory) S < depth →
    Sweeps s depth S := by
  intro depth
  induction depth with
  | zero => exact fun _ hdepth => absurd hdepth (Nat.not_lt_zero _)
  | succ depth ih =>
    intro S hdepth acc st h hst hr hcheck hoff hroot
    have hx := hst.cell _ hr
    have hunseen : (st.heap.mem (s.target h)).seen = false := by
      rw [Bool.eq_false_iff]
      exact fun hseen => hoff (hx.seen.mp hseen)
    have hless : Dfs.left (List.range s.nextMemory) (s.target h :: S) <
        Dfs.left (List.range s.nextMemory) S := Dfs.left_cons (List.mem_range.mpr (hs.target h)) hoff
    have hsweeps := ih (s.target h :: S) (by omega)
    have hcheck' : st.heap.check h = .ok () := hst.frame.check.trans hcheck
    rw [doSweep_unseen hcheck' (hst.frame.target h) hunseen,
      entered_unseen hcheck' (hst.frame.target h) hunseen]
    by_cases hfound : s.target h ∈ Dfs.nodes acc
    · rw [Heap.trail, Dfs.trail_of_mem hfound]
      by_cases hdead : s.DeadFirst (s.target h)
      · have hback : ((st.create h).enter (s.target h)).leave (s.target h) = st.create h :=
          enter_leave (hx.white.mpr hdead) hunseen
        rw [(hx.emptied hfound hdead hoff).1]
        show Returned s S acc acc _ st (s.target h) (((st.create h).enter (s.target h)).leave (s.target h))
        rw [hback]
        exact ⟨⟨fun _ _ => rfl, fun _ => Or.inl⟩, hfound, Or.inl hst.create⟩
      · have hclosed := hst.closed _ hfound hoff
        have hagain : (st.heap.mem (s.target h)).memory.reverse.foldl
            (s.follow depth (s.target h :: S)) acc = acc := by
          rw [foldl_follow]
          refine Dfs.foldl_trail_of_mem fun h' hh' => hclosed h' ?_
          rw [List.filterMap_reverse, List.mem_reverse] at hh'
          exact (hx.sub.filterMap _).subset hh'
        have hloop := sweepInfos_visit hs hsweeps hr hoff hroot ((hst.create (h := h)).reenter hr hfound hdead)
        rw [hagain] at hloop
        refine hloop.bind fun st₁ hst₁ => ?_
        exact ⟨⟨hst₁.2.1.stack, fun _ => Or.inl⟩, hfound, Or.inl (hst₁.1.leave hr hoff hdead hclosed)⟩
    · have hwhole := hx.whole hfound
      have hloop := sweepInfos_visit hs hsweeps hr hoff hroot ((hst.create (h := h)).enter hr hfound)
      rw [hwhole.1, hwhole.2, ← trail_unfound hfound] at hloop
      rw [hwhole.1]
      refine hloop.bind fun st₁ hst₁ => ?_
      have hclosed : ∀ h' ∈ s.refs (s.target h),
          s.target h' ∈ Dfs.nodes (s.trail (depth + 1) S acc h) := by
        intro h' hh'
        rw [trail_unfound hfound]
        exact mem_foldl_follow (by omega) hh'
      refine ⟨⟨hst₁.2.1.stack, fun n hn => ?_⟩, Dfs.mem_trail, ?_⟩
      · rcases hst₁.2.1.entered n hn with hn | hn
        · rcases List.mem_cons.mp hn with rfl | hn
          · exact Or.inr List.mem_cons_self
          · exact Or.inl hn
        · exact Or.inr (List.mem_cons_of_mem _ hn)
      · by_cases hdead : s.DeadFirst (s.target h)
        · exact Or.inr ⟨st₁, rfl, hst₁.1, hoff, hdead, Dfs.path_mem_trail hfound, hclosed, hst₁.2.2⟩
        · exact Or.inl (hst₁.1.leave hr hoff hdead hclosed)

/-! ### Marking and sweeping -/

theorem Heap.Graph.search_ok (hs : s.Graph) : ∃ found, s.search = .ok found := by
  have hmeets : Meets s.search (fun f => f = .depth ∨ ∃ h, (s.Reachable (s.target h) ∧ s.check h = .ok ()) ∧
      s.check h = .error f) fun _ => True := by
    refine Dfs.visit_meets (fun h hh h' hh' => ⟨hh.1.tail ⟨h', hh', rfl⟩, hs.check _ hh.1 h' hh'⟩) ?_
    exact ⟨.refl, hs.checkRoot⟩
  cases hsearch : s.search with
  | ok found => exact ⟨found, rfl⟩
  | error f =>
    rcases hmeets.of_error hsearch with rfl | ⟨h, ⟨-, hcheck⟩, herror⟩
    · exact absurd hsearch (search_ne_depth hs.target)
    · rw [hcheck] at herror
      cases herror

/-- The sweep starts on the marked heap. -/
theorem Heap.Graph.mark_ok (hs : s.Graph) : ∃ s₁, mark (s.nextMemory + 1) s root = .ok s₁ ∧
    Tracks s [] [] ⟨s₁, [], []⟩ := by
  obtain ⟨found, hsearch⟩ := hs.search_ok
  have hsim := mark_simulates hs.gray (s.nextMemory + 1) (h := root) Marked.start
  rw [show Dfs.visit s.target s.refs s.check .depth (s.nextMemory + 1) [] root = .ok found from hsearch,
    Simulates] at hsim
  obtain ⟨s₁, hmark, hmarked⟩ := hsim
  refine ⟨s₁, hmark, ?_⟩
  constructor
  case frame => exact hmarked.frame
  case cell =>
    intro m hm
    have hexists := hs.exists_of_reachable hm
    show Tracked s [] [] [] m (s₁.mem m)
    rw [hmarked.found m ((search_nodes hsearch).mpr hm)]
    constructor
    case seen => exact iff_of_false (Bool.eq_false_iff.mp (hs.unseen m hexists)) List.not_mem_nil
    case sub => exact List.Sublist.refl _
    case indexes => exact hs.indexes m hexists
    case white => exact tint_eq_white hsearch
    case gray => exact fun hm => absurd hm List.not_mem_nil
    case keep => exact iff_of_false Bool.false_ne_true fun h => List.not_mem_nil h.1
    case emptied => exact fun hm => absurd hm List.not_mem_nil
    case whole => exact fun _ => ⟨rfl, rfl⟩
  case nodup => exact List.nodup_nil
  case stack => exact List.nil_subset _
  case closed => exact fun n hn => absurd hn List.not_mem_nil
  case drained => exact fun p hp => absurd hp List.not_mem_nil

structure Settled (s : Heap) (visited : List MemoryId) (st : Sweep) : Prop where
  entered : ∀ m, s.Reachable m → m ∈ visited
  reset : ∀ m, s.Reachable m → m ∉ st.memoryList →
    (m = s.target root → (s.handle root).deallocated = false) →
      (st.heap.mem m).color = .gray ∧ (st.heap.mem m).seen = false

/-- Marking and sweeping from the root has a result, and all Memories that are not in the list of
Memories are as they were before. -/
def Heap.Resets (s : Heap) : Prop :=
  ∃ s₁ st, mark (s.nextMemory + 1) s root = .ok s₁ ∧
    doSweep (s.nextMemory + 1) ⟨s₁, [], []⟩ root = .ok st ∧
      Settled s (entered (s.nextMemory + 1) ⟨s₁, [], []⟩ root) st

theorem root_lives (hs : s.Graph) (hdead : s.DeadFirst (s.target root)) :
    (s.handle root).deallocated = true := by
  obtain ⟨found, hsearch⟩ := hs.search_ok
  obtain ⟨h, hfirst, hdead⟩ := hdead
  rw [firstHandle_root hsearch] at hfirst
  rwa [Option.some_inj.mp hfirst]

/-- A Memory that is not open any more is in the list of Memories, or gray and unseen. -/
theorem Tracks.reset (hst : Tracks s S acc st) (hm : s.Reachable m) (hfound : m ∈ Dfs.nodes acc)
    (hoff : m ∉ S) (hkept : m ∉ st.memoryList) :
    (st.heap.mem m).color = .gray ∧ (st.heap.mem m).seen = false := by
  have hx := hst.cell m hm
  refine ⟨hx.gray hfound fun hdead => hkept (hx.emptied hfound hdead hoff).2, ?_⟩
  rw [Bool.eq_false_iff]
  exact fun hseen => hoff (hx.seen.mp hseen)

theorem Returned.settled (hs : s.Graph) (hreturned : Returned s [] [] acc visited st' (s.target root) st) :
    Settled s visited st ∧ ∀ p ∈ acc, s.DeadFirst p.1 → p.1 ≠ s.target root →
      Early (s.remaining p.1 p.2) := by
  have hentered : (∀ n ∈ Dfs.nodes acc, ∀ h ∈ s.refs n, s.target h ∈ Dfs.nodes acc) →
      ∀ m, s.Reachable m → m ∈ Dfs.nodes acc := fun hclosed m => Heap.Reachable.mem hreturned.found hclosed
  have hvisited : ∀ m ∈ Dfs.nodes acc, m ∈ visited := fun m hm =>
    (hreturned.went.entered m hm).resolve_left List.not_mem_nil
  obtain hst | ⟨st₁, rfl, hspent⟩ := hreturned.state
  · have hall := hentered fun n hn => hst.closed n hn List.not_mem_nil
    refine ⟨⟨fun m hm => hvisited m (hall m hm), fun m hm hkept _ => ?_⟩, fun p hp hdead _ => ?_⟩
    · exact hst.reset hm (hall m hm) List.not_mem_nil hkept
    · exact hst.drained p hp hdead List.not_mem_nil
  · have hst := hspent.tracks
    have hall : ∀ m, s.Reachable m → m ∈ Dfs.nodes acc := by
      refine hentered fun n hn => ?_
      by_cases heq : n = s.target root
      · exact heq ▸ hspent.closed
      · exact hst.closed n hn fun h => heq (List.mem_singleton.mp h)
    refine ⟨⟨fun m hm => hvisited m (hall m hm), fun m hm hkept hlives => ?_⟩, fun p hp hdead hne => ?_⟩
    · have hne : m ≠ s.target root := by
        intro heq
        have hcontra := root_lives hs hspent.dead
        rw [hlives heq] at hcontra
        cases hcontra
      rw [show (st₁.leave (s.target root)).heap.mem m = st₁.heap.mem m from setMem_mem_of_ne hne _]
      exact hst.reset hm (hall m hm) (fun h => hne (List.mem_singleton.mp h)) hkept
    · exact hst.drained p hp hdead fun h => hne (List.mem_singleton.mp h)

/-- A sweep from the root has no result only where a Memory does not drain. -/
theorem Heap.Graph.sweep_root (hs : s.Graph) {s₁ : Heap} (hst : Tracks s [] [] ⟨s₁, [], []⟩) :
    Meets (doSweep (s.nextMemory + 1) ⟨s₁, [], []⟩ root) (fun f => f = .outOfRange ∧ ¬ s.Drains)
      fun st => Settled s (entered (s.nextMemory + 1) ⟨s₁, [], []⟩ root) st ∧ s.Drains := by
  have hleft : Dfs.left (List.range s.nextMemory) [] ≤ _ := List.countP_le_length
  rw [List.length_range] at hleft
  refine (doSweep_tracks hs _ [] (Nat.lt_succ_of_le hleft) [] _ root hst .refl hs.checkRoot
    List.not_mem_nil List.mem_cons_self).mono ?_ ?_
  · rintro f ⟨rfl, p, hp, hdead, hne, hlate⟩
    exact ⟨rfl, fun hdrains => hlate (hdrains p hp hdead hne)⟩
  · exact fun st hreturned => hreturned.settled hs

/-- Marking and sweeping a heap between two collections has a result, with all that is reachable entered
and reset, exactly when the Memories that the sweep empties drain. -/
theorem resets_iff (hs : s.Graph) : s.Resets ↔ s.Drains := by
  obtain ⟨s₁, hmark, hst⟩ := hs.mark_ok
  have hsweep := hs.sweep_root hst
  constructor
  · rintro ⟨s₁', st, hmark', hdoSweep, -⟩
    obtain rfl : s₁ = s₁' := Except.ok.inj (hmark.symm.trans hmark')
    exact (hsweep.of_ok hdoSweep).2
  · intro hdrains
    cases hdoSweep : doSweep (s.nextMemory + 1) ⟨s₁, [], []⟩ root with
    | error f => exact absurd hdrains (hsweep.of_error hdoSweep).2
    | ok st => exact ⟨s₁, st, hmark, hdoSweep, (hsweep.of_ok hdoSweep).1⟩

/-- What a collection calls has a result then. -/
theorem Heap.Resets.gather (hs : s.Graph) (hresets : s.Resets) : ∃ st, gather s = .ok st := by
  obtain ⟨s₁, st, hmark, hdoSweep, -⟩ := hresets
  obtain ⟨s₁', hmark', hst⟩ := hs.mark_ok
  obtain rfl : s₁' = s₁ := Except.ok.inj (hmark'.symm.trans hmark)
  refine ⟨st, ?_⟩
  rw [Collector.gather, hmark]
  show doSweep (s₁'.nextMemory + 1) ⟨s₁', [], []⟩ root = .ok st
  rw [hst.frame.nextMemory]
  exact hdoSweep

/-- And where the Memories drain. -/
theorem Heap.Graph.gather (hs : s.Graph) (hdrains : s.Drains) : ∃ st, gather s = .ok st := by
  obtain ⟨s₁, hmark, hst⟩ := hs.mark_ok
  have hsweep := hs.sweep_root hst
  cases hdoSweep : doSweep (s.nextMemory + 1) ⟨s₁, [], []⟩ root with
  | error f => exact absurd hdrains (hsweep.of_error hdoSweep).2
  | ok st =>
    refine ⟨st, ?_⟩
    rw [Collector.gather, hmark]
    show doSweep (s₁.nextMemory + 1) ⟨s₁, [], []⟩ root = .ok st
    rw [hst.frame.nextMemory]
    exact hdoSweep

theorem check_of_destroyed_nil (hdestroyed : s.destroyed = []) (hmemory : s.destroyedMemory = []) :
    s.check h = .ok () := by
  simp [Heap.check, Heap.isDestroyed, hdestroyed, hmemory]

/-- The heap of a program is such a heap as long as no reference dangles. -/
theorem HeapOk.graph (hs : HeapOk s) (hroot : s.check root = .ok ())
    (hcheck : ∀ m, s.Reachable m → ∀ h ∈ s.refs m, s.check h = .ok ()) : s.Graph where
  target := hs.target
  checkRoot := hroot
  check := hcheck
  gray := hs.gray
  unseen m _ := hs.unseen m
  indexes m _ := hs.indexes m

/-- Two variables that refer to each other, the first with a value after its reference, when the first is
set to null. -/
def cycleThenNull : List Op :=
  [.dealloc 1, .byRef 2 3, .copy 1, .pushValue 1 7, .byRef 1 2, .construct, .construct]

def cycleDropped : Program := (Program.after 10 cycleThenNull).toOption.getD .start

theorem cycleDropped_graph : cycleDropped.heap.Graph := by
  have hcollects : Collects 10 cycleThenNull cycleDropped := .of_after rfl
  exact hcollects.ok.heap.graph rfl fun _ _ _ _ => check_of_destroyed_nil rfl rfl

/-- The reference to the second variable is all that is left in the first. -/
theorem cycleDropped_remaining : ∀ p ∈ cycleDropped.heap.trail 4 [] [] root,
    cycleDropped.heap.DeadFirst p.1 → cycleDropped.heap.remaining p.1 p.2 = [0] := by decide

theorem cycleDropped_resets : cycleDropped.heap.Resets := by
  refine (resets_iff cycleDropped_graph).mpr fun p hp hdead _ => ?_
  rw [cycleDropped_remaining p hp hdead]
  exact Early.concat .nil (Nat.le_refl 0)

/-- A variable with a value before its reference, when it is set to null. -/
def valueThenNull : List Op := [.dealloc 1, .byRef 1 2, .pushValue 1 7, .construct, .construct]

def valueDropped : Program := (Program.after 10 valueThenNull).toOption.getD .start

/-- The index of the reference is a position beyond the end once the value is gone. -/
theorem valueDropped_not_resets :
    Collects 10 valueThenNull valueDropped ∧ valueDropped.heap.Graph ∧ ¬ valueDropped.heap.Resets := by
  have hcollects : Collects 10 valueThenNull valueDropped := .of_after rfl
  have hs := hcollects.ok.heap.graph rfl fun _ _ _ _ => check_of_destroyed_nil rfl rfl
  refine ⟨hcollects, hs, fun hresets => ?_⟩
  obtain ⟨st, hgather⟩ := hresets.gather hs
  have hfails : gather valueDropped.heap = .error .outOfRange := rfl
  exact nomatch hgather.symm.trans hfails

end ManagedObject.Collector
