import Mathlib.Data.List.Pairwise
import ManagedObject.Collector.Discipline

/-!
# Exact collections

Where every object has one owner, a collection destroys the handles that were deallocated, with their
Memories, and nothing else; what is left of the others is what does not refer to those.
-/

namespace ManagedObject.Collector

open Lib Outcome ManagedObject.Lists

variable {s s' : Heap} {st : Sweep} {m : MemoryId} {h : HandleId} {deallocLimit : Nat} {p p' q : Program}
  {op : Op} {due : Bool} {hist : List Op}

/-! ### A collection -/

/-- The handle is waiting for a collection. -/
structure Heap.Floating (s : Heap) (h : HandleId) : Prop where
  known : s.Known h
  present : h ∉ s.destroyedHandles
  dead : (s.handle h).deallocated = true

theorem Heap.Owned.mem_memoryList (hs : s.Owned) (hgathered : Gathered s st) :
    m ∈ st.memoryList ↔ ∃ h, s.Floating h ∧ s.target h = m := by
  rw [hgathered.freed]
  constructor
  · intro hdead
    have hm := deadFirst_reachable hdead
    obtain ⟨h, hh, rfl, hexists⟩ := hs.exists_handle hm
    have hdead := (hs.deadFirst_iff hh hm).mp hdead
    refine ⟨h, ⟨⟨?_, hh⟩, hexists, hdead⟩, rfl⟩
    rintro rfl
    rw [hs.ok.rootLives] at hdead
    cases hdead
  · rintro ⟨h, hfloating, rfl⟩
    exact (hs.deadFirst_iff hfloating.known.2 (hs.held h hfloating.known hfloating.present)).mpr hfloating.dead

/-- An Info of a Memory whose handle was not deallocated goes if its reference is to a handle that was. -/
theorem Heap.Owned.mem_swept (hs : s.Owned) (hgathered : Gathered s st) (hh : h < s.nextHandle)
    (hreach : s.Reachable (s.target h)) (hlive : (s.handle h).deallocated = false) {info : Info}
    (hinfo : info ∈ (s.mem (s.target h)).memory) : info ∈ (st.heap.mem (s.target h)).memory ↔
      ∀ h', info.getHeap = some h' → (s.handle h').deallocated = false := by
  have hdead : ∀ h', info.getHeap = some h' →
      (s.DeadFirst (s.target h') ↔ (s.handle h').deallocated = true) := by
    intro h' href
    have hh' : h' ∈ s.refs (s.target h) := List.mem_filterMap.mpr ⟨info, hinfo, href⟩
    exact hs.deadFirst_iff (hs.ok.known _ h' hh').2 (hreach.tail ⟨h', hh', rfl⟩)
  rw [hgathered.mem_iff hs.ok (hs.firm hh hreach hlive) hinfo, Heap.RefersDead, not_exists]
  refine forall_congr' fun h' => ?_
  rw [not_and]
  refine forall_congr' fun href => ?_
  rw [hdead h' href, Bool.not_eq_true]

theorem Heap.Owned.mem_handles (hs : s.Owned) (hgathered : Gathered s st) : h ∈ st.handles ↔ s.Floating h := by
  constructor
  · intro hh
    obtain ⟨m, hm, href, hdead⟩ := hgathered.handle_ref hh
    have hknown := hs.ok.known m h href
    refine ⟨hknown, hgathered.handle_fresh hh, ?_⟩
    rcases hdead with hdead | hdead
    · obtain ⟨h₀, hh₀, rfl, -⟩ := hs.exists_handle hm
      exact hs.inward h₀ hh₀ ((hs.deadFirst_iff hh₀ hm).mp hdead) h href
    · exact (hs.deadFirst_iff hknown.2 (hm.tail ⟨h, href, rfl⟩)).mp hdead
  · intro hfloating
    obtain ⟨m, hm, hh⟩ := hs.exists_owner hfloating.known hfloating.present
    obtain ⟨info, hinfo, href⟩ := List.mem_filterMap.mp hh
    refine List.mem_filterMap.mpr ⟨info, ?_, href⟩
    refine (hgathered.swept.kept m info hinfo).resolve_left fun hkept => ?_
    obtain ⟨h₀, hh₀, rfl, -⟩ := hs.exists_handle hm
    by_cases hdead : (s.handle h₀).deallocated = true
    · have hfreed := (hgathered.freed _).mpr ((hs.deadFirst_iff hh₀ hm).mpr hdead)
      rw [(hgathered.swept.cell _).emptied hfreed] at hkept
      cases hkept
    · have hlive := (hs.mem_swept hgathered hh₀ hm (Bool.not_eq_true _ ▸ hdead) hinfo).mp hkept h href
      rw [hfloating.dead] at hlive
      cases hlive

theorem Heap.Owned.unshared (hs : s.Owned) : s.Unshared := by
  intro m n hm hn x hx y hy hne h hxh hyh
  exfalso
  have hxm : h ∈ s.refs m := List.mem_filterMap.mpr ⟨x, hx, hxh⟩
  have hyn : h ∈ s.refs n := List.mem_filterMap.mpr ⟨y, hy, hyh⟩
  obtain rfl := hs.owner m n h hxm hyn
  have hpairwise := List.pairwise_filterMap.mp (hs.nodup m)
  have hsymm : Std.Symm fun a b : Info => ∀ c, a.getHeap = some c → ∀ d, b.getHeap = some d → c ≠ d :=
    ⟨fun a b hab c hc d hd heq => hab d hd c hc heq.symm⟩
  exact hpairwise.forall hx hy hne h hxh h hyh rfl

structure Cleaned (s s' : Heap) : Prop where
  owned : s'.Owned
  nextHandle : s'.nextHandle = s.nextHandle
  target : ∀ h, s'.target h = s.target h
  deallocated : ∀ h, (s'.handle h).deallocated = (s.handle h).deallocated
  /-- the handles that were deallocated are destroyed -/
  destroyed : ∀ h, h ∈ s'.destroyedHandles ↔ s.Known h ∧ (s.handle h).deallocated = true
  /-- the others keep what does not refer to those -/
  memory : ∀ h < s.nextHandle, (s.handle h).deallocated = false → (s'.mem (s.target h)).memory =
    (s.mem (s.target h)).memory.filter fun info => ∀ h' ∈ info.getHeap, (s.handle h').deallocated = false
  deallocCount : s'.deallocCount = 0 ∨ s'.deallocCount = s.deallocCount ∧ ∀ h, ¬ s.Floating h
  gone : ∀ {id}, id ∈ s.destroyed.map Info.id → id ∈ s'.destroyed.map Info.id
  stores : ∀ {id}, s.Stores id → id ∈ s'.destroyed.map Info.id ∨ s'.Stores id

/-- Where the root list is empty nothing exists. -/
theorem Heap.Owned.destroyed_of_empty (hs : s.Owned) (hempty : (s.mem (s.target root)).memory = [])
    (hh : s.Known h) : h ∈ s.destroyedHandles := by
  by_contra hpresent
  have hroot : s.refs (s.target root) = [] := by
    rw [Heap.refs, hempty]
    rfl
  obtain ⟨m, hm, href⟩ := hs.exists_owner hh hpresent
  rw [eq_root_of_empty hroot hm, hroot] at href
  cases href

theorem Heap.Owned.cleaned_of_empty (hs : s.Owned) (hempty : (s.mem (s.target root)).memory = []) :
    Cleaned s (s.create root) := by
  obtain ⟨hsame, howned⟩ := hs.create (h := root)
  constructor
  · exact howned
  · rfl
  · exact hsame.target
  · exact hsame.deallocated
  · intro h
    exact ⟨fun hh => ⟨hs.ok.oldHandle h hh, hs.dead h hh⟩, fun hh => hs.destroyed_of_empty hempty hh.1⟩
  · intro h hh hlive
    by_cases hroot : h = root
    · subst hroot
      rw [create_mem, hempty]
      rfl
    · have hdead := hs.dead h (hs.destroyed_of_empty hempty ⟨hroot, hh⟩)
      rw [hlive] at hdead
      cases hdead
  · exact .inr ⟨hsame.deallocCount, fun h hh => hh.present (hs.destroyed_of_empty hempty hh.known)⟩
  · exact id
  · exact .inr

/-- A sublist is what a test leaves, when its members are those that pass. -/
theorem filter_of_sublist {α : Type} {l l' : List α} {p : α → Bool} (hsub : l'.Sublist l) (hnodup : l.Nodup)
    (hmem : ∀ a ∈ l, a ∈ l' ↔ p a = true) : l' = l.filter p := by
  induction hsub with
  | slnil => rfl
  | @cons l' l a hsub ih =>
    rw [List.nodup_cons] at hnodup
    have hnot : ¬ p a = true := fun ha =>
      hnodup.1 (hsub.subset ((hmem a List.mem_cons_self).mpr ha))
    rw [List.filter_cons_of_neg hnot]
    exact ih hnodup.2 fun b hb => hmem b (List.mem_cons_of_mem _ hb)
  | @cons_cons l' l a hsub ih =>
    rw [List.nodup_cons] at hnodup
    rw [List.filter_cons_of_pos ((hmem a List.mem_cons_self).mp List.mem_cons_self)]
    refine congrArg (a :: ·) (ih hnodup.2 fun b hb => ?_)
    rw [← hmem b (List.mem_cons_of_mem _ hb), List.mem_cons]
    refine (or_iff_right ?_).symm
    rintro rfl
    exact hnodup.1 hb

theorem Heap.Owned.cleaned (hs : s.Owned) (hgathered : Gathered s st) :
    Cleaned s ((st.execute.create root).setMem (st.heap.target root)
      { st.heap.mem (st.heap.target root) with deallocCount := 0 }) := by
  have hcollected := hgathered.collected hs.ok
  generalize hs' : Heap.setMem _ _ _ = s' at hcollected ⊢
  have hleft : Left s st s' := hs' ▸ hgathered.left rfl
  have hframe := hgathered.swept.frame
  have hmemory : ∀ m, (s'.mem m).memory = (st.heap.mem m).memory := by
    intro m
    rw [← hs', setMem_mem]
    split
    · rename_i heq
      rw [heq]
    · rfl
  have hlist : s'.destroyed = s.destroyed ++ st.list.reverse := by
    rw [← hframe.destroyed, ← hs']
    rfl
  have hhandles : s'.destroyedHandles = s.destroyedHandles ++ st.handles.reverse := by
    rw [Heap.destroyedHandles, Heap.destroyedHandles, hlist, Sweep.handles, ← List.filterMap_reverse,
      ← List.filterMap_append]
  have hfreed : s'.destroyedMemory = s.destroyedMemory ++ st.memoryList.reverse := by
    rw [← hframe.destroyedMemory, ← hs']
    rfl
  have hcount : s'.deallocCount = 0 := by
    rw [Heap.deallocCount, hleft.target, ← hframe.target, ← hs', setMem_mem_self]
  have hdestroyed : ∀ h, h ∈ s'.destroyedHandles ↔ s.Known h ∧ (s.handle h).deallocated = true := by
    intro h
    rw [hhandles, List.mem_append, List.mem_reverse, hs.mem_handles hgathered]
    constructor
    · rintro (hh | hh)
      · exact ⟨hs.ok.oldHandle h hh, hs.dead h hh⟩
      · exact ⟨hh.known, hh.dead⟩
    · rintro ⟨hknown, hdead⟩
      by_cases hold : h ∈ s.destroyedHandles
      · exact .inl hold
      · exact .inr ⟨hknown, hold, hdead⟩
  -- a Memory that still holds something belongs to a handle that was not deallocated
  have hholder : ∀ m, (s'.mem m).memory ≠ [] → ∃ h₀ < s.nextHandle, s.Reachable (s.target h₀) ∧ s.target h₀ = m ∧
      (s.handle h₀).deallocated = false := by
    intro m hm
    rw [hmemory] at hm
    have hreach : s.Reachable m :=
      hs.placed m fun hempty => hm (List.sublist_nil.mp (hempty ▸ (hgathered.swept.cell m).sub))
    obtain ⟨h₀, hh₀, rfl, -⟩ := hs.exists_handle hreach
    refine ⟨h₀, hh₀, hreach, rfl, ?_⟩
    rw [← Bool.not_eq_true]
    intro hdead
    exact hm ((hgathered.swept.cell _).emptied ((hgathered.freed _).mpr ((hs.deadFirst_iff hh₀ hreach).mpr hdead)))
  have hrefers : ∀ m, ∀ h ∈ s'.refs m, h ∈ s.refs m ∧ (s.handle h).deallocated = false := by
    intro m h hh
    obtain ⟨h₀, hh₀, hm, rfl, hlive₀⟩ := hholder m (ne_nil_of_refs hh)
    rw [hleft.refs] at hh
    obtain ⟨info, hinfo, href⟩ := List.mem_filterMap.mp hh
    have hold := (hgathered.swept.cell (s.target h₀)).sub.subset hinfo
    exact ⟨List.mem_filterMap.mpr ⟨info, hold, href⟩, (hs.mem_swept hgathered hh₀ hm hlive₀ hold).mp hinfo h href⟩
  have hreach : ∀ h < s.nextHandle, s.Reachable (s.target h) → (s.handle h).deallocated = false →
      s'.Reachable (s.target h) := fun h hh hm hlive =>
    (hleft.live_of_firm hs.ok hgathered (hs.firm hh hm hlive)).reachable
  constructor
  case owned =>
    constructor
    · exact hcollected.ok
    · intro h hh h' hh' heq
      rw [hcollected.handles] at hh hh'
      rw [hleft.target, hleft.target] at heq
      exact hs.own h hh h' hh' heq
    · intro m
      rw [hleft.refs]
      exact (hs.nodup m).sublist ((hgathered.swept.cell m).sub.filterMap _)
    · intro m m' h hh hh'
      exact hs.owner m m' h (hrefers m h hh).1 (hrefers m' h hh').1
    · intro m hm
      obtain ⟨h₀, hh₀, hm₀, rfl, hlive₀⟩ := hholder m hm
      exact hreach h₀ hh₀ hm₀ hlive₀
    · intro m h hh hgone
      have hlive := (hrefers m h hh).2
      rw [((hdestroyed h).mp hgone).2] at hlive
      cases hlive
    · intro h hh hpresent
      have hknown : s.Known h := ⟨hh.1, hcollected.handles ▸ hh.2⟩
      have hlive : (s.handle h).deallocated = false := by
        rw [← Bool.not_eq_true]
        exact fun hdead => hpresent ((hdestroyed h).mpr ⟨hknown, hdead⟩)
      rw [hleft.target]
      refine hreach h hknown.2 (hs.held h hknown fun hold => ?_) hlive
      rw [hs.dead h hold] at hlive
      cases hlive
    · intro h hh hdead h' hh'
      rw [hleft.deallocated] at hdead
      obtain ⟨h₀, hh₀, -, htarget, hlive₀⟩ := hholder _ (ne_nil_of_refs hh')
      rw [hleft.target] at htarget
      rw [hcollected.handles] at hh
      rw [← hs.own h₀ hh₀ h hh htarget, hlive₀] at hdead
      cases hdead
    · intro h hh
      rw [hleft.deallocated]
      exact ((hdestroyed h).mp hh).2
    · rw [hhandles, List.nodup_append]
      refine ⟨hs.once, List.nodup_reverse.mpr (hgathered.handles_nodup hs.unshared), fun h hh h' hh' heq => ?_⟩
      exact hgathered.handle_fresh (List.mem_reverse.mp hh') (heq ▸ hh)
    · intro m
      rw [hfreed, hhandles, List.mem_append, List.mem_reverse, hs.freed, hs.mem_memoryList hgathered]
      simp only [List.mem_append, List.mem_reverse, hs.mem_handles hgathered, hleft.target]
      constructor
      · rintro (⟨h, hh, heq⟩ | ⟨h, hh, heq⟩)
        · exact ⟨h, .inl hh, heq⟩
        · exact ⟨h, .inr hh, heq⟩
      · rintro ⟨h, hh | hh, heq⟩
        · exact .inl ⟨h, hh, heq⟩
        · exact .inr ⟨h, hh, heq⟩
    · exact hs.pointed.of_subset (hleft.target root) fun m => hmemory m ▸ (hgathered.swept.cell m).sub.subset
  case nextHandle => exact hcollected.handles
  case target => exact hleft.target
  case deallocated => exact hleft.deallocated
  case destroyed => exact hdestroyed
  case memory =>
    intro h hh hlive
    have hm : s.Reachable (s.target h) := by
      by_cases hroot : h = root
      · rw [hroot]
        exact .refl
      · refine hs.held h ⟨hroot, hh⟩ fun hold => ?_
        rw [hs.dead h hold] at hlive
        cases hlive
    rw [hmemory]
    refine filter_of_sublist (hgathered.swept.cell _).sub (hs.ok.nodup _).of_map fun info hinfo => ?_
    rw [hs.mem_swept hgathered hh hm hlive hinfo, decide_eq_true_iff]
    rfl
  case deallocCount => exact .inl hcount
  case gone =>
    intro id hid
    rw [hlist, List.map_append]
    exact List.mem_append_left _ hid
  case stores =>
    rintro id ⟨m, info, hinfo, rfl, hvalue⟩
    rcases hgathered.swept.kept m info hinfo with hkept | htaken
    · exact .inr ⟨m, info, hmemory m ▸ hkept, rfl, hvalue⟩
    · refine .inl (List.mem_map_of_mem ?_)
      rw [hlist]
      exact List.mem_append_right _ (List.mem_reverse.mpr htaken)

theorem Heap.Owned.collect_ok (hs : s.Owned) : ∃ s', collect s = .ok s' ∧ Cleaned s s' := by
  by_cases hempty : (s.mem (s.target root)).memory = []
  · refine ⟨s.create root, ?_, hs.cleaned_of_empty hempty⟩
    rw [collect, getMemory_eq hs.checkRoot]
    exact if_pos (by rw [create_mem, hempty]; rfl)
  · obtain ⟨st, hgather⟩ := hs.gather
    have hcleaned := hs.cleaned (Collector.gather_ok hs.ok hgather)
    refine ⟨_, ?_, hcleaned⟩
    have hframe : Frame st.execute (st.execute.create root) := .create
    have hcheck : st.execute.check root = .ok () :=
      (hframe.trans (.setMem _)).check.symm.trans hcleaned.owned.checkRoot
    rw [collect, getMemory_eq hs.checkRoot]
    dsimp only [bind, Except.bind]
    rw [create_mem, if_neg (by rwa [List.length_eq_zero_iff]), gather_create, hgather]
    dsimp only
    rw [getMemory_eq hcheck]
    rfl

/-! ### The programs -/

/-- A program whose objects have one owner each: the variables in scope are the handles that were not
deallocated. -/
structure Program.Tidy (p : Program) : Prop where
  owned : p.heap.Owned
  scope : ∀ h, h ∈ p.scope ↔ p.heap.Alive h
  nodup : p.scope.Nodup

/-- What the client may do: no copies, no object owned twice or by itself, and the scope of an owner ends after
the scopes of what it owns. -/
def Op.Disciplined (p : Program) : Op → Prop
  | .construct | .collect => True
  | .copy _ | .dealloc _ => False
  | .assign this other => this ∈ p.scope ∧ other = this
  | .byRef this other => p.heap.CanOwn this other
  | .reroot this index other => p.heap.CanOwn this other ∧ p.heap.ValueAt this index
  | .pushValue this _ => this ∈ p.scope
  | .getValueAt this index => this ∈ p.scope ∧ index < (p.heap.mem (p.heap.target this)).memory.length
  | .setValueAt this index _ => this ∈ p.scope ∧ p.heap.ValueAt this index
  | .destroy this => this ∈ p.scope ∧ ∀ h ∈ p.heap.refs (p.heap.target this), h ∉ p.scope

/-- What an operation does up to its collection. -/
inductive Advances (deallocLimit : Nat) (p : Program) : Op → Bool → Program → Prop
  | makes {q : Program} : Constructed p.heap q.heap → q.scope = p.heap.nextHandle :: p.scope →
    Advances deallocLimit p .construct false q
  | uses {op : Op} {q : Program} : (∀ this, op ≠ .destroy this) → SameHandles p.heap q.heap → q.scope = p.scope →
    Advances deallocLimit p op false q
  | ends {this : HandleId} {q : Program} : this ∈ p.scope → ScopeEnded p.heap this q.heap →
    q.scope = p.scope.erase this →
    Advances deallocLimit p (.destroy this) (deallocLimit ≠ 0 && q.heap.deallocCount ≥ deallocLimit) q
  | collects : Advances deallocLimit p .collect true p

theorem start_tidy : Program.start.Tidy where
  owned := start_owned
  scope _ := iff_of_false List.not_mem_nil fun hh => hh.known.1 (Nat.lt_one_iff.mp hh.known.2)
  nodup := List.nodup_nil

theorem Program.Tidy.same (hp : p.Tidy) (howned : s'.Owned) (hsame : SameHandles p.heap s') :
    (Program.mk s' p.scope).Tidy where
  owned := howned
  scope h := by
    refine (hp.scope h).trans ⟨hsame.alive, fun hh => ⟨hsame.known.mp hh.known, ?_⟩⟩
    rw [← hsame.deallocated]
    exact hh.live
  nodup := hp.nodup

theorem Program.Tidy.constructed (hp : p.Tidy) (howned : s'.Owned) (hmade : Constructed p.heap s') :
    (Program.mk s' (p.heap.nextHandle :: p.scope)).Tidy where
  owned := howned
  scope h := by
    have hnew : p.heap.nextHandle ≠ root := Nat.ne_of_gt hp.owned.ok.rootKnown
    have hnext : s'.nextHandle = p.heap.nextHandle + 1 := hmade.same.nextHandle
    rw [List.mem_cons, hp.scope]
    constructor
    · rintro (rfl | hh)
      · refine ⟨⟨hnew, hnext ▸ Nat.lt_succ_self _⟩, ?_⟩
        rw [hmade.same.deallocated, made_handle, if_pos rfl]
      · refine ⟨⟨hh.known.1, hnext ▸ Nat.lt_succ_of_lt hh.known.2⟩, ?_⟩
        rw [hmade.same.deallocated, made_handle_of_lt hh.known.2]
        exact hh.live
    · rintro ⟨⟨hne, hless⟩, hlive⟩
      rw [hnext] at hless
      rcases Nat.lt_succ_iff_lt_or_eq.mp hless with hold | heq
      · rw [hmade.same.deallocated, made_handle_of_lt hold] at hlive
        exact .inr ⟨⟨hne, hold⟩, hlive⟩
      · exact .inl heq
  nodup := List.nodup_cons.mpr ⟨fun hmem => Nat.lt_irrefl _ ((hp.scope _).mp hmem).known.2, hp.nodup⟩

theorem Program.Tidy.ended (hp : p.Tidy) (howned : s'.Owned) (hended : ScopeEnded p.heap h s') :
    (Program.mk s' (p.scope.erase h)).Tidy where
  owned := howned
  scope h' := by
    rw [hp.nodup.mem_erase_iff, hp.scope]
    constructor
    · rintro ⟨hne, hh⟩
      refine ⟨⟨hh.known.1, hended.nextHandle ▸ hh.known.2⟩, ?_⟩
      rw [hended.deallocated, decide_eq_false hne]
      exact hh.live
    · rintro ⟨⟨hne, hless⟩, hlive⟩
      rw [hended.deallocated, Bool.or_eq_false_iff, decide_eq_false_iff_not] at hlive
      exact ⟨hlive.1, ⟨hne, hended.nextHandle ▸ hless⟩, hlive.2⟩
  nodup := hp.nodup.erase h

theorem variable_eq (hh : h ∈ p.scope) : p.variable h = .ok () := if_pos hh

theorem begin_of_step (hop : p.begin deallocLimit op = p.step deallocLimit op >>= fun q => pure (false, q))
    (hstep : p.step deallocLimit op = .ok q) : p.begin deallocLimit op = .ok (false, q) := by
  rw [hop, hstep]
  rfl

/-- A disciplined operation returns, up to its collection. -/
theorem Program.Tidy.begin (hp : p.Tidy) (deallocLimit : Nat) (hop : op.Disciplined p) :
    ∃ due q, p.begin deallocLimit op = .ok (due, q) ∧ q.Tidy ∧ Advances deallocLimit p op due q := by
  have hs := hp.owned
  cases op with
  | construct =>
    obtain ⟨s', hconstruct, hmade⟩ := hs.construct_ok
    have howned := hs.construct (hs.ok.construct hconstruct).1.ok hmade
    refine ⟨false, ⟨s', p.heap.nextHandle :: p.scope⟩, ?_, hp.constructed howned hmade, .makes hmade rfl⟩
    refine begin_of_step rfl ?_
    rw [Program.step, hconstruct]
    rfl
  | copy => exact hop.elim
  | dealloc => exact hop.elim
  | assign this other =>
    obtain ⟨hthis, rfl⟩ := hop
    refine ⟨false, p, ?_, hp, .uses (fun _ heq => by cases heq) (.of_frame .refl (fun _ => rfl) id) rfl⟩
    rw [Program.begin, variable_eq hthis]
    exact if_pos rfl
  | byRef this other =>
    obtain ⟨s', hbyRef, hsame, howned⟩ := hs.byRef_ok hop
    refine ⟨false, ⟨s', p.scope⟩, ?_, hp.same howned hsame, .uses (fun _ heq => by cases heq) hsame rfl⟩
    refine begin_of_step rfl ?_
    rw [Program.step, variable_eq ((hp.scope this).mpr hop.owner), variable_eq ((hp.scope other).mpr hop.owned), hbyRef]
    rfl
  | reroot this index other =>
    obtain ⟨hown, hvalue⟩ := hop
    obtain ⟨s', hreroot, hsame, howned⟩ := hs.reroot_ok hown hvalue
    refine ⟨false, ⟨s', p.scope⟩, ?_, hp.same howned hsame, .uses (fun _ heq => by cases heq) hsame rfl⟩
    refine begin_of_step rfl ?_
    rw [Program.step, variable_eq ((hp.scope this).mpr hown.owner), variable_eq ((hp.scope other).mpr hown.owned),
      hreroot]
    rfl
  | pushValue this v =>
    obtain ⟨s', hpush, hsame, howned⟩ := hs.pushValue_ok (v := v) ((hp.scope this).mp hop)
    refine ⟨false, ⟨s', p.scope⟩, ?_, hp.same howned hsame, .uses (fun _ heq => by cases heq) hsame rfl⟩
    refine begin_of_step rfl ?_
    rw [Program.step, variable_eq hop, hpush]
    rfl
  | getValueAt this index =>
    obtain ⟨hthis, hindex⟩ := hop
    obtain ⟨ptr, s', hget, hsame, howned⟩ := hs.getValueAt_ok ((hp.scope this).mp hthis) hindex
    refine ⟨false, ⟨s', p.scope⟩, ?_, hp.same howned hsame, .uses (fun _ heq => by cases heq) hsame rfl⟩
    refine begin_of_step rfl ?_
    rw [Program.step, variable_eq hthis, hget]
    rfl
  | setValueAt this index v =>
    obtain ⟨hthis, hvalue⟩ := hop
    obtain ⟨s', hset, hsame, howned⟩ := hs.setValueAt_ok (v := v) ((hp.scope this).mp hthis) hvalue
    refine ⟨false, ⟨s', p.scope⟩, ?_, hp.same howned hsame, .uses (fun _ heq => by cases heq) hsame rfl⟩
    refine begin_of_step rfl ?_
    rw [Program.step, variable_eq hthis, hset]
    rfl
  | destroy this =>
    obtain ⟨hthis, hholds⟩ := hop
    have halive := (hp.scope this).mp hthis
    obtain ⟨s', hrelease, hended⟩ :=
      hs.release_ok deallocLimit halive.known.2 (hs.alive_exists halive)
    have howned := hs.release (hs.ok.release halive.known.1 hrelease).ok hended halive.known.2 fun h hh => by
      by_contra hlive
      exact hholds h hh ((hp.scope h).mpr ⟨hs.ok.known _ h hh, Bool.not_eq_true _ ▸ hlive⟩)
    refine ⟨_, ⟨s', p.scope.erase this⟩, ?_, hp.ended howned hended, .ends hthis hended rfl⟩
    rw [Program.begin, variable_eq hthis, hrelease]
    rfl
  | collect => exact ⟨true, p, rfl, hp, .collects⟩

theorem Program.Tidy.cleaned (hq : q.Tidy) (hcleaned : Cleaned q.heap p'.heap) (hscope : p'.scope = q.scope) :
    p'.Tidy where
  owned := hcleaned.owned
  scope h := by
    rw [hscope, hq.scope]
    constructor
    · exact fun hh => ⟨⟨hh.known.1, hcleaned.nextHandle ▸ hh.known.2⟩, (hcleaned.deallocated h).trans hh.live⟩
    · exact fun hh => ⟨⟨hh.known.1, hcleaned.nextHandle ▸ hh.known.2⟩, (hcleaned.deallocated h).symm.trans hh.live⟩
  nodup := hscope ▸ hq.nodup

/-- What a disciplined step does. -/
inductive Steps (deallocLimit : Nat) (p : Program) (op : Op) : Program → Prop
  | quiet {q : Program} : q.Tidy → Advances deallocLimit p op false q → Steps deallocLimit p op q
  | collects {q p' : Program} : q.Tidy → Advances deallocLimit p op true q → Cleaned q.heap p'.heap →
    p'.scope = q.scope → Steps deallocLimit p op p'

theorem Program.Tidy.step (hp : p.Tidy) (deallocLimit : Nat) (hop : op.Disciplined p) :
    ∃ p', p.step deallocLimit op = .ok p' ∧ p'.Tidy ∧ Steps deallocLimit p op p' := by
  obtain ⟨due, q, hbegin, hq, hadvances⟩ := hp.begin deallocLimit hop
  have hstep : p.step deallocLimit op = if due then q.collect else .ok q := by
    rw [step_eq, hbegin]
    rfl
  cases due with
  | false => exact ⟨q, hstep, hq, .quiet hq hadvances⟩
  | true =>
    obtain ⟨s', hcollect, hcleaned⟩ := hq.owned.collect_ok
    refine ⟨⟨s', q.scope⟩, hstep.trans ?_, hq.cleaned hcleaned rfl, .collects hq hadvances hcleaned rfl⟩
    rw [if_pos rfl, Program.collect, hcollect]
    rfl

def DisciplinedStep (deallocLimit : Nat) (_ : List Op) (p : Program) (op : Op) (p' : Program) : Prop :=
  op.Disciplined p ∧ p.step deallocLimit op = .ok p'

abbrev DisciplinedRun (deallocLimit : Nat) : List Op → Program → Prop := Run (DisciplinedStep deallocLimit) .start

theorem Program.Tidy.steps (hp : p.Tidy) (hstep : DisciplinedStep deallocLimit hist p op p') :
    p'.Tidy ∧ Steps deallocLimit p op p' := by
  obtain ⟨p₁, hstep', hp₁, hsteps⟩ := hp.step deallocLimit hstep.1
  rw [hstep.2] at hstep'
  cases hstep'
  exact ⟨hp₁, hsteps⟩

theorem DisciplinedRun.tidy (hrun : DisciplinedRun deallocLimit hist p) : p.Tidy := by
  apply hrun.invariant fun _ p => p.Tidy
  · exact start_tidy
  · exact fun hist p op p' hp hstep => (hp.steps hstep).1

/-! ### Safety -/

end ManagedObject.Collector
