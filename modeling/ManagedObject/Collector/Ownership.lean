import ManagedObject.Collector.Destruction
import ManagedObject.Collector.Reset
import ManagedObject.Collector.Slots
import ManagedObject.Lib.Forest

/-!
# Heaps in which every object has one owner

Every handle has a Memory of its own, and one Info refers to it: in the root list, or in the Memory of the
object that owns it. What is owned by a deallocated handle is deallocated as well. In such a heap the search
reaches a Memory over one path, so the colour of a Memory is decided by its own handle, and a sweep never
meets a Memory that it has open, nor an index that it cannot use.
-/

namespace ManagedObject.Collector

open Lib ManagedObject.Lists

variable {s : Heap} {st : Sweep} {m : MemoryId} {h : HandleId}

/-- Every reference is one to a handle, and the root list has nothing but references. -/
structure Heap.Pointed (s : Heap) : Prop where
  refs : ∀ m, ∀ info ∈ (s.mem m).memory, info.ptrIsRef = true → ∃ h, info.getHeap = some h
  rootRefs : ∀ info ∈ (s.mem (s.target root)).memory, info.ptrIsRef = true

theorem Heap.Pointed.of_subset {s' : Heap} (hs : s.Pointed) (hroot : s'.target root = s.target root)
    (hsub : ∀ m, (s'.mem m).memory ⊆ (s.mem m).memory) : s'.Pointed where
  refs m info hinfo := hs.refs m info (hsub m hinfo)
  rootRefs info hinfo := hs.rootRefs info (hsub _ (hroot ▸ hinfo))

structure Heap.Owned (s : Heap) : Prop where
  ok : HeapOk s
  /-- no two handles share a Memory -/
  own : ∀ h < s.nextHandle, ∀ h' < s.nextHandle, s.target h = s.target h' → h = h'
  nodup : ∀ m, (s.refs m).Nodup
  owner : ∀ m m', ∀ h ∈ s.refs m, h ∈ s.refs m' → m = m'
  /-- what holds something is reachable -/
  placed : ∀ m, (s.mem m).memory ≠ [] → s.Reachable m
  /-- what is referred to exists -/
  present : ∀ m, ∀ h ∈ s.refs m, h ∉ s.destroyedHandles
  /-- what exists is reachable -/
  held : ∀ h, s.Known h → h ∉ s.destroyedHandles → s.Reachable (s.target h)
  inward : ∀ h < s.nextHandle, (s.handle h).deallocated = true →
    ∀ h' ∈ s.refs (s.target h), (s.handle h').deallocated = true
  dead : ∀ h ∈ s.destroyedHandles, (s.handle h).deallocated = true
  once : s.destroyedHandles.Nodup
  freed : ∀ m, m ∈ s.destroyedMemory ↔ ∃ h ∈ s.destroyedHandles, s.target h = m
  pointed : s.Pointed

theorem start_owned : Heap.start.Owned where
  ok := start_ok
  own h hh h' hh' _ := (Nat.lt_one_iff.mp hh).trans (Nat.lt_one_iff.mp hh').symm
  nodup _ := List.nodup_nil
  owner _ _ _ hh := by cases hh
  placed _ hm := absurd rfl hm
  present _ _ hh := by cases hh
  held h hh _ := absurd (Nat.lt_one_iff.mp hh.2) hh.1
  inward _ _ _ _ hh := by cases hh
  dead _ hh := by cases hh
  once := List.nodup_nil
  freed m := iff_of_false List.not_mem_nil fun ⟨_, hh, _⟩ => List.not_mem_nil hh
  pointed := {
    refs := fun _ _ hinfo => by cases hinfo
    rootRefs := fun _ hinfo => by cases hinfo }

/-! ### What is reachable -/

theorem ne_nil_of_refs (hh : h ∈ s.refs m) : (s.mem m).memory ≠ [] := by
  intro hempty
  rw [Heap.refs, hempty] at hh
  cases hh

/-- A handle that exists leads to every reachable Memory. -/
theorem Heap.Owned.exists_handle (hs : s.Owned) (hm : s.Reachable m) :
    ∃ h < s.nextHandle, s.target h = m ∧ h ∉ s.destroyedHandles := by
  cases hm with
  | refl => exact ⟨root, hs.ok.rootKnown, rfl, fun hdestroyed => (hs.ok.oldHandle root hdestroyed).1 rfl⟩
  | tail _ hedge =>
    obtain ⟨h, hh, rfl⟩ := hedge
    exact ⟨h, (hs.ok.known _ h hh).2, rfl, hs.present _ h hh⟩

theorem Heap.Owned.check (hs : s.Owned) (hh : h < s.nextHandle) (hexists : h ∉ s.destroyedHandles) :
    s.check h = .ok () := by
  have hhandle : s.isDestroyed h = false := by
    rw [← Bool.not_eq_true, isDestroyed_iff]
    exact hexists
  have hmemory : (s.handle h).memory ∉ s.destroyedMemory := by
    intro hfreed
    obtain ⟨h', hh', htarget⟩ := (hs.freed _).mp hfreed
    exact hexists (hs.own h' (hs.ok.oldHandle h' hh').2 h hh htarget ▸ hh')
  rw [Heap.check, hhandle, if_neg hmemory]
  rfl

theorem Heap.Owned.checkRoot (hs : s.Owned) : s.check root = .ok () :=
  hs.check hs.ok.rootKnown fun hdestroyed => (hs.ok.oldHandle root hdestroyed).1 rfl

theorem Heap.Owned.graph (hs : s.Owned) : s.Graph :=
  hs.ok.graph hs.checkRoot fun m _ h hh => hs.check (hs.ok.known m h hh).2 (hs.present m h hh)

theorem Heap.Owned.forest (hs : s.Owned) : Forest (Dfs.Edge s.target s.refs) (s.target root) where
  root m := by
    rintro ⟨h, hh, htarget⟩
    obtain ⟨hne, hless⟩ := hs.ok.known m h hh
    exact hne (hs.own h hless root hs.ok.rootKnown htarget)
  parent m m' n := by
    rintro ⟨h, hh, rfl⟩ ⟨h', hh', htarget⟩
    obtain rfl := hs.own h' (hs.ok.known m' h' hh').2 h (hs.ok.known m h hh).2 htarget
    exact hs.owner m m' h' hh hh'

/-- The Info that refers to a handle is in a Memory that is reachable. -/
theorem Heap.Owned.exists_owner (hs : s.Owned) (hh : s.Known h) (hexists : h ∉ s.destroyedHandles) :
    ∃ m, s.Reachable m ∧ h ∈ s.refs m := by
  have hreach := hs.held h hh hexists
  rcases Relation.ReflTransGen.cases_tail hreach with heq | ⟨m, hm, h', hh', htarget⟩
  · exact absurd (hs.own h hh.2 root hs.ok.rootKnown heq) hh.1
  · obtain rfl := hs.own h' (hs.ok.known m h' hh').2 h hh.2 htarget
    exact ⟨m, hm, hh'⟩

/-! ### Colours -/

theorem deadFirst_reachable (hdead : s.DeadFirst m) : s.Reachable m := by
  obtain ⟨h, hfirst, -⟩ := hdead
  rw [Heap.firstHandle] at hfirst
  split at hfirst
  · rename_i acc hsearch
    exact (search_nodes hsearch).mp (Dfs.discovery_isSome.mp (hfirst ▸ rfl))
  · cases hfirst

/-- The search reaches a Memory through the handle that it belongs to. -/
theorem Heap.Owned.firstHandle_eq (hs : s.Owned) (hh : h < s.nextHandle) (hreach : s.Reachable (s.target h)) :
    s.firstHandle (s.target h) = some h := by
  obtain ⟨acc, hsearch⟩ := hs.graph.search_ok
  have hfound : s.target h ∈ Dfs.nodes acc := (search_nodes hsearch).mpr hreach
  obtain ⟨h', hfirst⟩ := Option.isSome_iff_exists.mp (Dfs.discovery_isSome.mpr hfound)
  have hmem := Dfs.mem_of_discovery hfirst
  have hmade : h' < s.nextHandle := by
    have hnew : ∀ p ∈ acc, p.2 < s.nextHandle :=
      Dfs.visit_follows (fun e _ e' he' => (hs.ok.known _ e' he').2) (fun p hp => absurd hp List.not_mem_nil)
        hs.ok.rootKnown hsearch
    exact hnew _ hmem
  have htarget := (search_sound hsearch).tgt _ hmem
  rw [Heap.firstHandle, hsearch]
  dsimp only
  rw [hfirst, hs.own h' hmade h hh htarget]

theorem Heap.Owned.deadFirst_iff (hs : s.Owned) (hh : h < s.nextHandle) (hreach : s.Reachable (s.target h)) :
    s.DeadFirst (s.target h) ↔ (s.handle h).deallocated = true := by
  rw [Heap.DeadFirst, hs.firstHandle_eq hh hreach]
  simp

/-- Handles that were not deallocated are owned by others that were not. -/
theorem Heap.Owned.firm (hs : s.Owned) (hh : h < s.nextHandle) (hreach : s.Reachable (s.target h))
    (hlive : (s.handle h).deallocated = false) : s.Firm (s.target h) := by
  generalize htarget : s.target h = m at hreach
  induction hreach generalizing h with
  | refl => exact .refl
  | @tail m n hm hedge ih =>
    have hn := hm.tail hedge
    obtain ⟨h', hh', rfl⟩ := hedge
    obtain rfl := hs.own h hh h' (hs.ok.known m h' hh').2 htarget
    obtain ⟨h₀, hh₀, rfl, -⟩ := hs.exists_handle hm
    have hlive₀ : (s.handle h₀).deallocated = false := by
      rw [← Bool.not_eq_true]
      intro hdead
      rw [hs.inward h₀ hh₀ hdead h hh'] at hlive
      cases hlive
    refine (ih hh₀ hlive₀ rfl).tail ⟨⟨h, hh', hlive, rfl⟩, fun hdead => ?_⟩
    rw [hs.deadFirst_iff hh hn, hlive] at hdead
    cases hdead

/-! ### Sweeps -/

theorem foldl_eraseLast {infos : List Info} {indexes : List Nat} (hindexes : indexes.Perm (infos.map Info.index)) :
    infos.foldl (fun indexes info => eraseLast (· = info.index) indexes) indexes = [] := by
  induction infos generalizing indexes with
  | nil => exact hindexes.eq_nil
  | cons info infos ih =>
    apply ih
    rw [List.map_cons, ← List.nil_append (info.index :: _)] at hindexes
    exact perm_eraseLast_middle hindexes

/-- All that a dead Memory holds is taken at its first visit. -/
theorem Heap.Owned.remaining_eq (hs : s.Owned) {path : List MemoryId} (hdead : s.DeadFirst m)
    (hpath : ∀ n ∈ path, Relation.TransGen (Dfs.Edge s.target s.refs) n m) : s.remaining m path = [] := by
  have hm := deadFirst_reachable hdead
  have htakes : ∀ info ∈ (s.mem m).memory.reverse, s.takes (m :: path) m info = true := by
    intro info hinfo
    rw [List.mem_reverse] at hinfo
    cases hptr : info.ptrIsRef with
    | false =>
      rw [takes_none (getHeap_value hptr), hptr]
      exact decide_eq_true hdead
    | true =>
      obtain ⟨h, href⟩ := hs.pointed.refs m info hinfo hptr
      have hh : h ∈ s.refs m := List.mem_filterMap.mpr ⟨info, hinfo, href⟩
      have hedge : Dfs.Edge s.target s.refs m (s.target h) := ⟨h, hh, rfl⟩
      have hdead' : s.DeadFirst (s.target h) := by
        obtain ⟨h₀, hh₀, rfl, -⟩ := hs.exists_handle hm
        rw [hs.deadFirst_iff (hs.ok.known _ h hh).2 (hm.tail hedge)]
        exact hs.inward h₀ hh₀ ((hs.deadFirst_iff hh₀ hm).mp hdead) h hh
      have hopen : s.target h ∉ m :: path := by
        intro hmem
        refine hs.forest.acyclic hm ?_
        rcases List.mem_cons.mp hmem with heq | hmem
        · exact .single (heq ▸ hedge)
        · exact .head hedge (hpath _ hmem)
      rw [takes_some href]
      exact Bool.and_eq_true_iff.mpr ⟨decide_eq_true hdead', decide_eq_true hopen⟩
  have hstrike : ∀ infos : List Info, (∀ info ∈ infos, s.takes (m :: path) m info = true) → ∀ indexes,
      infos.foldl (s.strike (m :: path) m) indexes =
        infos.foldl (fun indexes info => eraseLast (· = info.index) indexes) indexes := by
    intro infos htakes
    refine fun indexes => List.foldl_ext _ _ indexes fun indexes info hinfo => ?_
    rw [Heap.strike, if_pos (htakes info hinfo)]
  rw [Heap.remaining, hstrike _ htakes]
  refine foldl_eraseLast ((hs.ok.indexes m).trans ?_)
  exact ((s.mem m).memory.reverse_perm.map Info.index).symm

theorem Heap.Owned.drains (hs : s.Owned) : s.Drains := by
  intro p hp hdead _
  have hleads := Dfs.trail_leads (fun p hp => absurd hp List.not_mem_nil)
    (fun n hn => absurd hn List.not_mem_nil) p hp
  rw [hs.remaining_eq hdead fun n hn => ?_]
  · exact .nil
  · refine Relation.TransGen.mono (fun a b hedge => ?_) _ _ (hleads n hn)
    obtain ⟨h, hh, rfl⟩ := hedge
    exact ⟨h, List.mem_reverse.mp hh, rfl⟩

theorem Heap.Owned.gather (hs : s.Owned) : ∃ st, gather s = .ok st := hs.graph.gather hs.drains

end ManagedObject.Collector
