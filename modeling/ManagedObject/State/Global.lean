import ManagedObject.Lib.Outcome
import ManagedObject.Lib.Run

/-!
# The global metadata state

Every state shares one more state, `managed_obj_global_metadata`, which owns the two sentinel ids of
the hash tables. A flag drives its lifetime: the first init of any state sets it up by a nested init,
and a deinit tears it down by a nested deinit.
-/

namespace ManagedObject.State

open Outcome Lib

/-- A `ManagedObjState`: the global one, or one of the program. -/
inductive StateRef
  | global
  | user (n : Nat)
  deriving DecidableEq, Repr

/-- `managed_obj_global_metadata_ht_keys_s`; `none` is `NULL`. -/
structure Ids where
  unused : Option Nat
  deleted : Option Nat
  deriving DecidableEq, Repr

/-- `user_memory`, as far as it matters here: whether it is `managed_obj_global_metadata_ids`. -/
inductive UserMemory
  | ids
  | other
  deriving DecidableEq, Repr

structure Process where
  /-- `managed_obj_global_metadata_init` -/
  metadataInit : Nat
  ids : Ids
  /-- the states with an arena -/
  arenas : List StateRef
  /-- the next free address -/
  next : Nat
  /-- how often an arena was made for the global state, and how often it was destroyed -/
  created : Nat
  destroyed : Nat
  deriving DecidableEq, Repr

inductive Fault
  /-- the state has no arena -/
  | noArena
  /-- the recursion went deeper than the fuel -/
  | depth
  deriving DecidableEq, Repr

/-- `managed_obj_make_empty` on the global state, which allocates at an address of its own. -/
def managedObjMakeEmpty (p : Process) : Except Fault (Nat × Process) :=
  if .global ∈ p.arenas then .ok (p.next, { p with next := p.next + 1 }) else .error .noArena

def managedObjInitWithUserMemory : Nat → Process → StateRef → UserMemory → Except Fault Process
  | 0, _, _, _ => .error .depth
  | fuel + 1, p, state, userMemory => do
    if state = .global && p.metadataInit = 2 then return p
    let p := if state = .global && p.metadataInit = 1 then { p with metadataInit := 2 } else p
    let p := { p with
      arenas := state :: p.arenas
      created := if state = .global then p.created + 1 else p.created }
    let p := if userMemory = .ids then { p with ids := ⟨none, none⟩ } else p
    if p.metadataInit = 0 then
      let p := { p with metadataInit := 1 }
      let p ← managedObjInitWithUserMemory fuel p .global .ids
      let (unused, p) ← managedObjMakeEmpty p
      let p := { p with ids := { p.ids with unused := some unused } }
      let (deleted, p) ← managedObjMakeEmpty p
      return { p with ids := { p.ids with deleted := some deleted } }
    return p

/-- `managed_obj_init`, which has no user memory to clear. -/
def managedObjInit (fuel : Nat) (p : Process) (state : StateRef) : Except Fault Process :=
  managedObjInitWithUserMemory fuel p state .other

def managedObjDeinit : Nat → Process → StateRef → Except Fault Process
  | 0, _, _ => .error .depth
  | fuel + 1, p, state => do
    if state ∉ p.arenas then throw .noArena
    let p ← (if p.metadataInit = 2 then
        managedObjDeinit fuel { p with metadataInit := 0, ids := ⟨none, none⟩ } .global
      else pure p)
    return { p with
      arenas := p.arenas.erase state
      destroyed := if state = .global then p.destroyed + 1 else p.destroyed }

/-! ### Runs -/

/-- A process, and the live states of the program in the order in which they finished their init,
each with the ids at that moment. -/
structure Lifetimes where
  process : Process
  live : List (Nat × Ids)
  deriving DecidableEq, Repr

inductive Event
  | init (n : Nat)
  | initWithUserMemory (n : Nat)
  | deinit (n : Nat)
  deriving DecidableEq, Repr

/-- An event, with a bound on the depth of the recursion. -/
def Lifetimes.step (fuel : Nat) (l : Lifetimes) : Event → Except Fault Lifetimes
  | .init n => do
    let p ← managedObjInit fuel l.process (.user n)
    return ⟨p, l.live ++ [(n, p.ids)]⟩
  | .initWithUserMemory n => do
    let p ← managedObjInitWithUserMemory fuel l.process (.user n) .other
    return ⟨p, l.live ++ [(n, p.ids)]⟩
  | .deinit n => do
    let p ← managedObjDeinit fuel l.process (.user n)
    return ⟨p, l.live.filter fun q => q.1 ≠ n⟩

/-- A state is set up when it is not live, and taken down when it is. -/
def Ordered (l : Lifetimes) : Event → Prop
  | .init n | .initWithUserMemory n => ∀ q ∈ l.live, q.1 ≠ n
  | .deinit n => ∃ q ∈ l.live, q.1 = n

/-- The last live state is the only one that is taken down. -/
def LastOnly (l : Lifetimes) : Event → Prop
  | .init _ | .initWithUserMemory _ => True
  | .deinit n => ∀ q ∈ l.live, q.1 = n

/-- While a state is live the global state is set up, and the ids are those that the oldest live
state saw when it finished its init. -/
def MetadataOk (l : Lifetimes) : Prop :=
  ∀ oldest ∈ l.live.head?, l.process.metadataInit = 2 ∧ .global ∈ l.process.arenas ∧
    oldest.2 = l.process.ids ∧
    ∃ unused deleted, l.process.ids = ⟨some unused, some deleted⟩ ∧ unused ≠ deleted

def start : Lifetimes := ⟨⟨0, ⟨none, none⟩, [], 0, 0, 0⟩, []⟩

structure ProcessOk (l : Lifetimes) : Prop where
  flag : (l.process.metadataInit = 0 ∧ .global ∉ l.process.arenas) ∨
    (l.process.metadataInit = 2 ∧ .global ∈ l.process.arenas ∧
      ∃ unused deleted, l.process.ids = ⟨some unused, some deleted⟩ ∧ unused ≠ deleted)
  nodup : l.process.arenas.Nodup
  live : ∀ n, .user n ∈ l.process.arenas ↔ ∃ q ∈ l.live, q.1 = n
  counts : l.process.created = l.process.destroyed + (if l.process.metadataInit = 2 then 1 else 0)

variable {l l' : Lifetimes} {hist : List Event} {n fuel : Nat} {p : Process}

theorem managedObjInit_zero (hflag : p.metadataInit = 0) :
    managedObjInitWithUserMemory (fuel + 2) p (.user n) .other = .ok {
      metadataInit := 2
      ids := ⟨some p.next, some (p.next + 1)⟩
      arenas := .global :: .user n :: p.arenas
      next := p.next + 2
      created := p.created + 1
      destroyed := p.destroyed } := by
  simp [managedObjInitWithUserMemory, managedObjMakeEmpty, hflag, bind, Except.bind, pure, Except.pure]

theorem managedObjInit_two (hflag : p.metadataInit = 2) :
    managedObjInitWithUserMemory (fuel + 1) p (.user n) .other =
      .ok { p with arenas := .user n :: p.arenas } := by
  simp [managedObjInitWithUserMemory, hflag, pure, Except.pure]

theorem managedObjDeinit_zero (hflag : p.metadataInit = 0) (hlive : .user n ∈ p.arenas) :
    managedObjDeinit (fuel + 1) p (.user n) = .ok { p with arenas := p.arenas.erase (.user n) } := by
  simp [managedObjDeinit, hflag, hlive, bind, Except.bind, pure, Except.pure]

theorem managedObjDeinit_two (hflag : p.metadataInit = 2) (hlive : .user n ∈ p.arenas)
    (hglobal : .global ∈ p.arenas) :
    managedObjDeinit (fuel + 2) p (.user n) = .ok { p with
      metadataInit := 0
      ids := ⟨none, none⟩
      arenas := (p.arenas.erase .global).erase (.user n)
      destroyed := p.destroyed + 1 } := by
  simp [managedObjDeinit, hflag, hlive, hglobal, bind, Except.bind, pure, Except.pure]

/-- What an init does: it sets the global state up if it is not, and leaves it alone if it is. -/
structure Inited (l : Lifetimes) (n : Nat) (l' : Lifetimes) : Prop where
  ok : ProcessOk l'
  live : l'.live = l.live ++ [(n, l'.process.ids)]
  flag : l'.process.metadataInit = 2
  ids : l.process.metadataInit = 2 → l'.process.ids = l.process.ids
  created : l'.process.created = l.process.created + (if l.process.metadataInit = 0 then 1 else 0)
  destroyed : l'.process.destroyed = l.process.destroyed

theorem init_spec (h : ProcessOk l) (hnew : ∀ q ∈ l.live, q.1 ≠ n) :
    ∃ p, (∀ fuel, managedObjInitWithUserMemory (fuel + 2) l.process (.user n) .other = .ok p) ∧
      Inited l n ⟨p, l.live ++ [(n, p.ids)]⟩ := by
  have hfresh : .user n ∉ l.process.arenas := by
    intro hmem
    obtain ⟨q, hq, hqn⟩ := (h.live n).mp hmem
    exact hnew q hq hqn
  have hlive : ∀ k (ids : Ids), (k = n ∨ .user k ∈ l.process.arenas) ↔
      ∃ q ∈ l.live ++ [(n, ids)], q.1 = k := by
    intro k ids
    simp only [h.live, List.mem_append, List.mem_singleton, or_and_right, exists_or, exists_eq_left]
    rw [or_comm, eq_comm]
  have hcounts := h.counts
  rcases h.flag with ⟨hflag, hglobal⟩ | ⟨hflag, hglobal, hids⟩
  · refine ⟨_, fun fuel => managedObjInit_zero hflag, ?_, rfl, rfl, ?_, ?_, rfl⟩
    · refine {
        flag := Or.inr ⟨rfl, List.mem_cons_self, _, _, rfl, by simp⟩
        nodup := ?_
        live := ?_
        counts := ?_ }
      · simp [hglobal, hfresh, h.nodup]
      · intro k
        rw [← hlive]
        simp
      · rw [hflag] at hcounts
        simp [hcounts]
    · intro htwo
      rw [hflag] at htwo
      cases htwo
    · rw [hflag, if_pos rfl]
  · refine ⟨_, fun fuel => managedObjInit_two hflag, ?_, rfl, hflag, fun _ => rfl, ?_, rfl⟩
    · refine {
        flag := Or.inr ⟨hflag, List.mem_cons_of_mem _ hglobal, hids⟩
        nodup := ?_
        live := ?_
        counts := hcounts }
      · simp [hfresh, h.nodup]
      · intro k
        rw [← hlive]
        simp
    · rw [hflag, if_neg (by decide)]
      rfl

/-- What a deinit does: it tears the global state down whenever it is set up. -/
structure Deinited (l : Lifetimes) (n : Nat) (l' : Lifetimes) : Prop where
  ok : ProcessOk l'
  live : l'.live = l.live.filter fun q => q.1 ≠ n
  flag : l'.process.metadataInit = 0
  created : l'.process.created = l.process.created
  destroyed : l'.process.destroyed =
    l.process.destroyed + (if l.process.metadataInit = 2 then 1 else 0)

theorem deinit_spec (h : ProcessOk l) (hlive : ∃ q ∈ l.live, q.1 = n) :
    ∃ p, (∀ fuel, managedObjDeinit (fuel + 2) l.process (.user n) = .ok p) ∧
      Deinited l n ⟨p, l.live.filter fun q => q.1 ≠ n⟩ := by
  have hmem := (h.live n).mpr hlive
  have hothers : ∀ k, (k ≠ n ∧ .user k ∈ l.process.arenas) ↔
      ∃ q ∈ l.live.filter fun q => q.1 ≠ n, q.1 = k := by
    intro k
    simp only [h.live, List.mem_filter, decide_eq_true_eq]
    constructor
    · rintro ⟨hne, q, hq, rfl⟩
      exact ⟨q, ⟨hq, hne⟩, rfl⟩
    · rintro ⟨q, ⟨hq, hne⟩, rfl⟩
      exact ⟨hne, q, hq, rfl⟩
  have hcounts := h.counts
  rcases h.flag with ⟨hflag, hglobal⟩ | ⟨hflag, hglobal, -⟩
  · refine ⟨_, fun fuel => managedObjDeinit_zero hflag hmem, ?_, rfl, hflag, rfl, ?_⟩
    · refine {
        flag := Or.inl ⟨hflag, fun hin => hglobal (List.mem_of_mem_erase hin)⟩
        nodup := h.nodup.erase _
        live := ?_
        counts := hcounts }
      intro k
      rw [← hothers, h.nodup.mem_erase_iff]
      simp
    · rw [hflag]
      rfl
  · refine ⟨_, fun fuel => managedObjDeinit_two hflag hmem hglobal, ?_, rfl, rfl, rfl, ?_⟩
    · refine {
        flag := Or.inl ⟨rfl, ?_⟩
        nodup := (h.nodup.erase _).erase _
        live := ?_
        counts := ?_ }
      · intro hin
        exact h.nodup.not_mem_erase (List.mem_of_mem_erase hin)
      · intro k
        rw [← hothers, (h.nodup.erase _).mem_erase_iff, h.nodup.mem_erase_iff]
        simp
      · rw [hflag] at hcounts
        simp only [hcounts, if_true]
        rfl
    · rw [hflag, if_pos rfl]

/-- The init events set a state up, and a deinit takes one down. -/
def Event.Done (l : Lifetimes) (l' : Lifetimes) : Event → Prop
  | .init n | .initWithUserMemory n => Inited l n l'
  | .deinit n => Deinited l n l'

theorem step_spec (h : ProcessOk l) {event : Event} (hordered : Ordered l event) :
    ∃ l', (∀ fuel, l.step (fuel + 2) event = .ok l') ∧ event.Done l l' := by
  cases event with
  | init n | initWithUserMemory n =>
    obtain ⟨p, hp, hspec⟩ := init_spec h hordered
    refine ⟨_, fun fuel => ?_, hspec⟩
    simp [Lifetimes.step, managedObjInit, hp, bind, Except.bind, pure, Except.pure]
  | deinit n =>
    obtain ⟨p, hp, hspec⟩ := deinit_spec h hordered
    refine ⟨_, fun fuel => ?_, hspec⟩
    simp [Lifetimes.step, hp, bind, Except.bind, pure, Except.pure]

theorem Event.Done.ok {event : Event} (h : event.Done l l') : ProcessOk l' := by
  cases event with
  | init n | initWithUserMemory n => exact Inited.ok h
  | deinit n => exact Deinited.ok h

/-- A run of events, each with a recursion of depth two. -/
abbrev StateRun (rule : Lifetimes → Event → Prop) : List Event → Lifetimes → Prop :=
  Run (fun _ l event l' => rule l event ∧ l.step 2 event = .ok l') start

theorem start_ok : ProcessOk start where
  flag := Or.inl ⟨rfl, by simp [start]⟩
  nodup := List.nodup_nil
  live n := by simp [start]
  counts := rfl

/-- The global state is made once when the flag rises and destroyed once when it falls. -/
theorem Event.Done.counts {event : Event} (hdone : event.Done l l') :
    l'.process.created = l.process.created +
      (if l.process.metadataInit = 0 ∧ l'.process.metadataInit = 2 then 1 else 0) ∧
    l'.process.destroyed = l.process.destroyed +
      (if l.process.metadataInit = 2 ∧ l'.process.metadataInit = 0 then 1 else 0) := by
  cases event with
  | init n | initWithUserMemory n =>
    have hflag := Inited.flag hdone
    rw [Inited.created hdone, Inited.destroyed hdone, hflag]
    simp
  | deinit n =>
    have hflag := Deinited.flag hdone
    rw [Deinited.created hdone, Deinited.destroyed hdone, hflag]
    simp

/-- While states are live the global state is set up, with the ids that all of them have seen. -/
structure Shared (l : Lifetimes) : Prop where
  ok : ProcessOk l
  idle : l.live = [] → l.process.metadataInit = 0
  busy : l.live ≠ [] → l.process.metadataInit = 2
  ids : ∀ q ∈ l.live, q.2 = l.process.ids

theorem Shared.metadataOk (h : Shared l) : MetadataOk l := by
  intro oldest holdest
  have hmem : oldest ∈ l.live := List.mem_of_head? holdest
  have hflag := h.busy (List.ne_nil_of_mem hmem)
  rcases h.ok.flag with ⟨hzero, -⟩ | ⟨-, hglobal, hids⟩
  · rw [hzero] at hflag
    cases hflag
  · exact ⟨hflag, hglobal, h.ids oldest hmem, hids⟩

theorem Inited.shared (h : Shared l) (hinit : Inited l n l') : Shared l' where
  ok := hinit.ok
  idle hnil := by
    rw [hinit.live] at hnil
    simp at hnil
  busy _ := hinit.flag
  ids q hq := by
    rw [hinit.live, List.mem_append, List.mem_singleton] at hq
    rcases hq with hq | rfl
    · rw [h.ids q hq, hinit.ids (h.busy (List.ne_nil_of_mem hq))]
    · rfl

theorem Deinited.shared (hdeinit : Deinited l n l') (hlast : ∀ q ∈ l.live, q.1 = n) :
    Shared l' := by
  have hnil : l'.live = [] := by
    rw [hdeinit.live, List.filter_eq_nil_iff]
    intro q hq
    simp [hlast q hq]
  refine {
    ok := hdeinit.ok
    idle := fun _ => hdeinit.flag
    busy := fun h => absurd hnil h
    ids := ?_ }
  rw [hnil]
  intro q hq
  cases hq

/-- Taking a state down while another is live leaves the other without the global state. -/
theorem Deinited.broken (hdeinit : Deinited l n l') {q : Nat × Ids} (hq : q ∈ l.live)
    (hother : q.1 ≠ n) : ¬ MetadataOk l' := by
  intro hok
  have hleft : q ∈ l'.live := by
    rw [hdeinit.live, List.mem_filter]
    exact ⟨hq, decide_eq_true hother⟩
  cases hlive : l'.live with
  | nil =>
    rw [hlive] at hleft
    cases hleft
  | cons oldest rest =>
    have hflag := (hok oldest (by rw [hlive]; rfl)).1
    rw [hdeinit.flag] at hflag
    cases hflag

theorem Event.Done.metadataOk_iff {event : Event} (h : Shared l) (hdone : event.Done l l') :
    MetadataOk l' ↔ LastOnly l event := by
  cases event with
  | init n | initWithUserMemory n =>
    exact ⟨fun _ => trivial, fun _ => (Inited.shared h hdone).metadataOk⟩
  | deinit n =>
    refine ⟨fun hok => ?_, fun hlast => (Deinited.shared hdone hlast).metadataOk⟩
    intro q hq
    by_cases hother : q.1 = n
    · exact hother
    · exact absurd hok (Deinited.broken hdone hq hother)

theorem StateRun.shared (hrun : StateRun (fun l event => Ordered l event ∧ LastOnly l event) hist l) :
    Shared l := by
  refine hrun.invariant (fun _ l => Shared l) ?_ ?_
  · exact {
      ok := start_ok
      idle := fun _ => rfl
      busy := fun h => absurd rfl h
      ids := fun q hq => by cases hq }
  · intro _ l event l' h ⟨⟨hordered, hlast⟩, hstep⟩
    obtain ⟨l₁, hl₁, hdone⟩ := step_spec h.ok hordered
    rw [hl₁ 0, Except.ok.injEq] at hstep
    subst hstep
    cases event with
    | init n | initWithUserMemory n => exact Inited.shared h hdone
    | deinit n => exact Deinited.shared hdone hlast

theorem StateRun.processOk (hrun : StateRun Ordered hist l) : ProcessOk l := by
  refine hrun.invariant (fun _ l => ProcessOk l) start_ok ?_
  intro _ l event l' h ⟨hordered, hstep⟩
  obtain ⟨l₁, hl₁, hdone⟩ := step_spec h hordered
  rw [hl₁ 0, Except.ok.injEq] at hstep
  exact hstep ▸ hdone.ok

theorem global_metadata_lifetime (hist : List Event) (l : Lifetimes) :
    (StateRun Ordered hist l → ∀ event, Ordered l event →
      ∃ l', (∀ fuel, l.step (fuel + 2) event = .ok l') ∧
        l'.process.created = l.process.created +
          (if l.process.metadataInit = 0 ∧ l'.process.metadataInit = 2 then 1 else 0) ∧
        l'.process.destroyed = l.process.destroyed +
          (if l.process.metadataInit = 2 ∧ l'.process.metadataInit = 0 then 1 else 0)) ∧
    (StateRun (fun l event => Ordered l event ∧ LastOnly l event) hist l →
      MetadataOk l ∧ ∀ event, Ordered l event → ∀ l', l.step 2 event = .ok l' →
        (MetadataOk l' ↔ LastOnly l event)) := by
  constructor
  · intro hrun event hordered
    obtain ⟨l', hl', hdone⟩ := step_spec hrun.processOk hordered
    exact ⟨l', hl', hdone.counts⟩
  · intro hrun
    refine ⟨hrun.shared.metadataOk, fun event hordered l' hstep => ?_⟩
    obtain ⟨l₁, hl₁, hdone⟩ := step_spec hrun.shared.ok hordered
    rw [hl₁ 0, Except.ok.injEq] at hstep
    subst hstep
    exact hdone.metadataOk_iff hrun.shared

def bothLive : Lifetimes where
  process := ⟨2, ⟨some 0, some 1⟩, [.user 2, .global, .user 1], 2, 1, 0⟩
  live := [(1, ⟨some 0, some 1⟩), (2, ⟨some 0, some 1⟩)]

theorem global_metadata_lifetime_two : MetadataOk bothLive := by
  have hfirst : start.step 2 (.init 1) =
      .ok ⟨⟨2, ⟨some 0, some 1⟩, [.global, .user 1], 2, 1, 0⟩, [(1, ⟨some 0, some 1⟩)]⟩ := rfl
  have hrun : StateRun (fun l event => Ordered l event ∧ LastOnly l event) [.init 2, .init 1] bothLive :=
    (Run.start.next ⟨⟨by simp [Ordered, start], trivial⟩, hfirst⟩).next
      ⟨⟨by simp [Ordered], trivial⟩, rfl⟩
  exact ((global_metadata_lifetime _ _).2 hrun).1

/-- The first of two live states is taken down, and the global state with it. -/
def orphaned : Lifetimes where
  process := ⟨0, ⟨none, none⟩, [.user 2], 2, 1, 1⟩
  live := [(2, ⟨some 0, some 1⟩)]

theorem deinit_orphans_live_state :
    StateRun Ordered [.deinit 1, .init 2, .init 1] orphaned ∧ orphaned.live ≠ [] ∧
      ¬ MetadataOk orphaned := by
  have hfirst : start.step 2 (.init 1) =
      .ok ⟨⟨2, ⟨some 0, some 1⟩, [.global, .user 1], 2, 1, 0⟩, [(1, ⟨some 0, some 1⟩)]⟩ := rfl
  have hsecond : Lifetimes.step 2
      ⟨⟨2, ⟨some 0, some 1⟩, [.global, .user 1], 2, 1, 0⟩, [(1, ⟨some 0, some 1⟩)]⟩ (.init 2) =
        .ok bothLive := rfl
  have hrun : StateRun Ordered [.init 2, .init 1] bothLive :=
    (Run.start.next ⟨by simp [Ordered, start], hfirst⟩).next ⟨by simp [Ordered], hsecond⟩
  refine ⟨hrun.next ⟨⟨_, List.mem_cons_self, rfl⟩, rfl⟩, by decide, fun hok => ?_⟩
  have hflag := (hok _ rfl).1
  cases hflag

end ManagedObject.State
