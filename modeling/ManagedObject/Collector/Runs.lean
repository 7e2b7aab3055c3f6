import ManagedObject.Collector.Collect
import ManagedObject.Lib.Run

/-!
# Programs with managed objects

A program has variables, each with a handle of its own, and applies the operations of `ManagedObject`
to them in any order. Every operation is what it does before its collection and then the collection, if
one is due: `collect` itself, and the automatic one when the counter of `dealloc` has reached its limit.
-/

namespace ManagedObject.Collector

open Outcome Lib

structure Program where
  heap : Heap
  /-- the handles of the variables that are in scope -/
  scope : List HandleId

def Program.start : Program := ⟨.start, []⟩

inductive Op
  | construct
  | copy (other : HandleId)
  | assign (this other : HandleId)
  | byRef (this other : HandleId)
  | reroot (this : HandleId) (index : Nat) (other : HandleId)
  | pushValue (this : HandleId) (v : Nat)
  | getValueAt (this : HandleId) (index : Nat)
  | setValueAt (this : HandleId) (index v : Nat)
  | dealloc (this : HandleId)
  /-- the end of the scope of a variable: `~ManagedObject` -/
  | destroy (this : HandleId)
  | collect
  deriving DecidableEq, Repr

def Program.variable (p : Program) (h : HandleId) : Except Fault Unit :=
  if h ∈ p.scope then .ok () else .error (.noVariable h)

def Program.step (deallocLimit : Nat) (p : Program) : Op → Except Fault Program
  | .construct => do
    let (h, s) ← construct p.heap
    return ⟨s, h :: p.scope⟩
  | .copy other => do
    p.variable other
    let (h, s) ← copyConstruct p.heap other
    return ⟨s, h :: p.scope⟩
  | .assign this other => do
    p.variable this
    p.variable other
    return { p with heap := ← assign deallocLimit p.heap this other }
  | .byRef this other => do
    p.variable this
    p.variable other
    return { p with heap := ← byRef p.heap this other }
  | .reroot this index other => do
    p.variable this
    p.variable other
    return { p with heap := ← reroot p.heap this index other }
  | .pushValue this v => do
    p.variable this
    return { p with heap := ← pushValue p.heap this v }
  | .getValueAt this index => do
    p.variable this
    let (_, s) ← getValueAt p.heap this index
    return { p with heap := s }
  | .setValueAt this index v => do
    p.variable this
    return { p with heap := ← setValueAt p.heap this index v }
  | .dealloc this => do
    p.variable this
    return { p with heap := ← dealloc deallocLimit p.heap this }
  | .destroy this => do
    p.variable this
    return ⟨← dealloc deallocLimit p.heap this, p.scope.erase this⟩
  | .collect => return { p with heap := ← collect p.heap }

/-- A step up to its collection; the flag says whether one is due. -/
def Program.begin (deallocLimit : Nat) (p : Program) : Op → Except Fault (Bool × Program)
  | .assign this other => do
    p.variable this
    p.variable other
    if this = other then return (false, p)
    let (old, s) ← reassign p.heap this other
    let (due, s) ← release deallocLimit s old
    return (due, { p with heap := s })
  | .dealloc this => do
    p.variable this
    let (due, s) ← release deallocLimit p.heap this
    return (due, { p with heap := s })
  | .destroy this => do
    p.variable this
    let (due, s) ← release deallocLimit p.heap this
    return (due, ⟨s, p.scope.erase this⟩)
  | .collect => return (true, p)
  | op => do
    let p ← p.step deallocLimit op
    return (false, p)

def Program.collect (p : Program) : Except Fault Program := do
  return { p with heap := ← Collector.collect p.heap }

variable {deallocLimit : Nat} {p p' q : Program} {op : Op} {good good' : Program → Prop} {hist : List Op}
  {due : Bool}

/-- Every operation is its beginning, and a collection if one is due. -/
theorem step_eq : p.step deallocLimit op = (do
    let (due, q) ← p.begin deallocLimit op
    if due then q.collect else return q) := by
  cases op with
  | assign this other =>
    simp only [Program.step, Program.begin, assign, bind_assoc]
    apply bind_congr
    intro _
    apply bind_congr
    intro _
    split
    · rfl
    · simp only [dealloc, bind_assoc, pure_bind]
      apply bind_congr
      intro r
      apply bind_congr
      intro r'
      cases r'.1 <;> simp [Program.collect]
  | dealloc this =>
    simp only [Program.step, Program.begin, dealloc, bind_assoc, pure_bind]
    apply bind_congr
    intro _
    apply bind_congr
    intro r
    cases r.1 <;> simp [Program.collect]
  | destroy this =>
    simp only [Program.step, Program.begin, dealloc, bind_assoc, pure_bind]
    apply bind_congr
    intro _
    apply bind_congr
    intro r
    cases r.1 <;> simp [Program.collect]
  | collect => rfl
  | _ => simp [Program.begin]

/-! ### The invariant -/

structure ProgramOk (p : Program) : Prop where
  heap : HeapOk p.heap
  scope : ∀ h ∈ p.scope, p.heap.Known h

/-- What comes before a collection destroys nothing; a variable is an old one, or its handle is new. -/
structure Begun (p q : Program) : Prop where
  ok : ProgramOk q
  next : Next p.heap q.heap
  scope : ∀ h ∈ q.scope, h ∈ p.scope ∨ p.heap.nextHandle ≤ h

theorem variable_ok {h : HandleId} {u : Unit} (h' : p.variable h = .ok u) : h ∈ p.scope := by
  rw [Program.variable] at h'
  split at h'
  · assumption
  · cases h'

theorem ProgramOk.begun (hp : ProgramOk p) {s : Heap} {scope : List HandleId} (hnext : Next p.heap s)
    (hscope : ∀ h ∈ scope, h ∈ p.scope) : Begun p ⟨s, scope⟩ where
  ok := ⟨hnext.ok, fun h hh => hnext.known (hp.scope h (hscope h hh))⟩
  next := hnext
  scope h hh := Or.inl (hscope h hh)

theorem ProgramOk.begun_new (hp : ProgramOk p) {s : Heap} {h : HandleId}
    (h' : Next p.heap s ∧ s.Known h ∧ p.heap.nextHandle ≤ h) : Begun p ⟨s, h :: p.scope⟩ := by
  obtain ⟨hnext, hknown, hfresh⟩ := h'
  refine ⟨⟨hnext.ok, fun h₁ hh => ?_⟩, hnext, fun h₁ hh => ?_⟩
  · rcases List.mem_cons.mp hh with rfl | hh
    · exact hknown
    · exact hnext.known (hp.scope h₁ hh)
  · rcases List.mem_cons.mp hh with rfl | hh
    · exact Or.inr hfresh
    · exact Or.inl hh

/-- The beginnings of the operations, with the function of the heap that each one calls. -/
inductive Begins (deallocLimit : Nat) (p : Program) : Op → Bool → Program → Prop
  | construct {h : HandleId} {s : Heap} (hop : construct p.heap = .ok (h, s)) :
    Begins deallocLimit p .construct false ⟨s, h :: p.scope⟩
  | copy {other h : HandleId} {s : Heap} (hother : other ∈ p.scope)
    (hop : copyConstruct p.heap other = .ok (h, s)) :
    Begins deallocLimit p (.copy other) false ⟨s, h :: p.scope⟩
  | assignSelf {this : HandleId} : Begins deallocLimit p (.assign this this) false p
  | assign {this other old : HandleId} {s s' : Heap} {due : Bool} (hthis : this ∈ p.scope)
    (hop : reassign p.heap this other = .ok (old, s))
    (hrelease : release deallocLimit s old = .ok (due, s')) :
    Begins deallocLimit p (.assign this other) due { p with heap := s' }
  | byRef {this other : HandleId} {s : Heap} (hother : other ∈ p.scope)
    (hop : byRef p.heap this other = .ok s) :
    Begins deallocLimit p (.byRef this other) false { p with heap := s }
  | reroot {this other : HandleId} {index : Nat} {s : Heap} (hother : other ∈ p.scope)
    (hop : reroot p.heap this index other = .ok s) :
    Begins deallocLimit p (.reroot this index other) false { p with heap := s }
  | pushValue {this : HandleId} {v : Nat} {s : Heap} (hop : pushValue p.heap this v = .ok s) :
    Begins deallocLimit p (.pushValue this v) false { p with heap := s }
  | getValueAt {this : HandleId} {index : Nat} {ptr : Ptr} {s : Heap}
    (hop : getValueAt p.heap this index = .ok (ptr, s)) :
    Begins deallocLimit p (.getValueAt this index) false { p with heap := s }
  | setValueAt {this : HandleId} {index v : Nat} {s : Heap} (hop : setValueAt p.heap this index v = .ok s) :
    Begins deallocLimit p (.setValueAt this index v) false { p with heap := s }
  | dealloc {this : HandleId} {s : Heap} {due : Bool} (hthis : this ∈ p.scope)
    (hrelease : release deallocLimit p.heap this = .ok (due, s)) :
    Begins deallocLimit p (.dealloc this) due { p with heap := s }
  | destroy {this : HandleId} {s : Heap} {due : Bool} (hthis : this ∈ p.scope)
    (hrelease : release deallocLimit p.heap this = .ok (due, s)) :
    Begins deallocLimit p (.destroy this) due ⟨s, p.scope.erase this⟩
  | collect : Begins deallocLimit p .collect true p

theorem begins (h' : p.begin deallocLimit op = .ok (due, q)) : Begins deallocLimit p op due q := by
  cases op with
  | construct =>
    obtain ⟨p', hstep, h'⟩ := bind_eq_ok h'
    obtain ⟨⟨h, s⟩, hop, hstep⟩ := bind_eq_ok hstep
    cases hstep
    cases h'
    exact .construct hop
  | copy other =>
    obtain ⟨p', hstep, h'⟩ := bind_eq_ok h'
    obtain ⟨_, hother, hstep⟩ := bind_eq_ok hstep
    obtain ⟨⟨h, s⟩, hop, hstep⟩ := bind_eq_ok hstep
    cases hstep
    cases h'
    exact .copy (variable_ok hother) hop
  | assign this other =>
    obtain ⟨_, hthis, h'⟩ := bind_eq_ok h'
    obtain ⟨_, -, h'⟩ := bind_eq_ok h'
    split at h'
    · rename_i hself
      cases h'
      rw [hself]
      exact .assignSelf
    · obtain ⟨⟨old, s⟩, hop, h'⟩ := bind_eq_ok h'
      obtain ⟨⟨d, s'⟩, hrelease, h'⟩ := bind_eq_ok h'
      cases h'
      exact .assign (variable_ok hthis) hop hrelease
  | byRef this other =>
    obtain ⟨p', hstep, h'⟩ := bind_eq_ok h'
    obtain ⟨_, -, hstep⟩ := bind_eq_ok hstep
    obtain ⟨_, hother, hstep⟩ := bind_eq_ok hstep
    obtain ⟨s, hop, hstep⟩ := bind_eq_ok hstep
    cases hstep
    cases h'
    exact .byRef (variable_ok hother) hop
  | reroot this index other =>
    obtain ⟨p', hstep, h'⟩ := bind_eq_ok h'
    obtain ⟨_, -, hstep⟩ := bind_eq_ok hstep
    obtain ⟨_, hother, hstep⟩ := bind_eq_ok hstep
    obtain ⟨s, hop, hstep⟩ := bind_eq_ok hstep
    cases hstep
    cases h'
    exact .reroot (variable_ok hother) hop
  | pushValue this v =>
    obtain ⟨p', hstep, h'⟩ := bind_eq_ok h'
    obtain ⟨_, -, hstep⟩ := bind_eq_ok hstep
    obtain ⟨s, hop, hstep⟩ := bind_eq_ok hstep
    cases hstep
    cases h'
    exact .pushValue hop
  | getValueAt this index =>
    obtain ⟨p', hstep, h'⟩ := bind_eq_ok h'
    obtain ⟨_, -, hstep⟩ := bind_eq_ok hstep
    obtain ⟨⟨ptr, s⟩, hop, hstep⟩ := bind_eq_ok hstep
    cases hstep
    cases h'
    exact .getValueAt hop
  | setValueAt this index v =>
    obtain ⟨p', hstep, h'⟩ := bind_eq_ok h'
    obtain ⟨_, -, hstep⟩ := bind_eq_ok hstep
    obtain ⟨s, hop, hstep⟩ := bind_eq_ok hstep
    cases hstep
    cases h'
    exact .setValueAt hop
  | dealloc this =>
    obtain ⟨_, hthis, h'⟩ := bind_eq_ok h'
    obtain ⟨⟨d, s⟩, hrelease, h'⟩ := bind_eq_ok h'
    cases h'
    exact .dealloc (variable_ok hthis) hrelease
  | destroy this =>
    obtain ⟨_, hthis, h'⟩ := bind_eq_ok h'
    obtain ⟨⟨d, s⟩, hrelease, h'⟩ := bind_eq_ok h'
    cases h'
    exact .destroy (variable_ok hthis) hrelease
  | collect =>
    cases h'
    exact .collect

theorem begin_ok (hp : ProgramOk p) (h' : p.begin deallocLimit op = .ok (due, q)) : Begun p q := by
  have hsame : ∀ h ∈ p.scope, h ∈ p.scope := fun _ => id
  cases begins h' with
  | construct hop => exact hp.begun_new (hp.heap.construct hop)
  | copy hother hop => exact hp.begun_new (hp.heap.copyConstruct hop)
  | assignSelf => exact hp.begun (.refl hp.heap) hsame
  | assign hthis hop hrelease =>
    obtain ⟨hnext, hold⟩ := hp.heap.reassign (hp.scope _ hthis).1 hop
    exact hp.begun (hnext.trans (hnext.ok.release hold hrelease)) hsame
  | byRef hother hop => exact hp.begun (hp.heap.byRef (hp.scope _ hother) hop) hsame
  | reroot hother hop => exact hp.begun (hp.heap.reroot (hp.scope _ hother) hop) hsame
  | pushValue hop => exact hp.begun (hp.heap.pushValue hop) hsame
  | getValueAt hop => exact hp.begun (hp.heap.getValueAt hop) hsame
  | setValueAt hop => exact hp.begun (hp.heap.setValueAt hop) hsame
  | dealloc hthis hrelease => exact hp.begun (hp.heap.release (hp.scope _ hthis).1 hrelease) hsame
  | destroy hthis hrelease =>
    exact hp.begun (hp.heap.release (hp.scope _ hthis).1 hrelease) fun h hh => List.mem_of_mem_erase hh
  | collect => exact hp.begun (.refl hp.heap) hsame

theorem ProgramOk.collect (hq : ProgramOk q) (h' : q.collect = .ok p') :
    ProgramOk p' ∧ Collected q.heap p'.heap ∧ p'.scope = q.scope := by
  obtain ⟨s, hcollect, h'⟩ := bind_eq_ok h'
  cases h'
  have hcollected := hq.heap.collect hcollect
  refine ⟨⟨hcollected.ok, fun h hh => ⟨(hq.scope h hh).1, ?_⟩⟩, hcollected, rfl⟩
  rw [hcollected.handles]
  exact (hq.scope h hh).2

/-- A step of a run, in which every collection starts in a `good` state. -/
def Step (deallocLimit : Nat) (good : Program → Prop) (p : Program) (op : Op) (p' : Program) : Prop :=
  p.step deallocLimit op = .ok p' ∧ ∀ q, p.begin deallocLimit op = .ok (true, q) → good q

abbrev ProgramRun (deallocLimit : Nat) (good : Program → Prop) : List Op → Program → Prop :=
  Run (fun _ => Step deallocLimit good) .start

/-- A step is its beginning, alone or with a collection that starts in a `good` state. -/
theorem step_ok (h' : Step deallocLimit good p op p') :
    (∃ due, p.begin deallocLimit op = .ok (due, p')) ∨
      ∃ q, p.begin deallocLimit op = .ok (true, q) ∧ good q ∧ q.collect = .ok p' := by
  obtain ⟨hstep, hgood⟩ := h'
  rw [step_eq] at hstep
  obtain ⟨⟨due, q⟩, hbegin, hstep⟩ := bind_eq_ok hstep
  cases due with
  | false =>
    cases hstep
    exact Or.inl ⟨false, hbegin⟩
  | true => exact Or.inr ⟨q, hbegin, hgood q hbegin, hstep⟩

/-- What the beginnings and the collections keep holds in every state of a run. -/
theorem ProgramRun.invariant (inv : Program → Prop) (hrun : ProgramRun deallocLimit good hist p)
    (hstart : inv .start) (hbegin : ∀ p q, ProgramOk p → Begun p q → inv p → inv q)
    (hcollect : ∀ q p', good q → HeapOk q.heap → Collected q.heap p'.heap → p'.scope = q.scope →
      inv q → inv p') : ProgramOk p ∧ inv p := by
  refine Run.invariant (fun _ p => ProgramOk p ∧ inv p) hrun ⟨⟨start_ok, fun _ hh => by cases hh⟩, hstart⟩ ?_
  intro hist p op p' hp hstep
  obtain ⟨hp, hinv⟩ := hp
  rcases step_ok hstep with ⟨due, hbegun⟩ | ⟨q, hbegun, hgood, hend⟩
  · have hq := begin_ok hp hbegun
    exact ⟨hq.ok, hbegin p p' hp hq hinv⟩
  · have hq := begin_ok hp hbegun
    obtain ⟨hp', hcollected, hscope⟩ := hq.ok.collect hend
    exact ⟨hp', hcollect q p' hgood hq.ok.heap hcollected hscope (hbegin p q hp hq hinv)⟩

theorem ProgramRun.ok (hrun : ProgramRun deallocLimit good hist p) : ProgramOk p :=
  (hrun.invariant (fun _ => True) trivial (fun _ _ _ _ _ => trivial) fun _ _ _ _ _ _ _ => trivial).1

/-- A collection of a run starts in the state `q`. -/
def Collects (deallocLimit : Nat) (hist : List Op) (q : Program) : Prop :=
  ∃ p op, ProgramRun deallocLimit (fun _ => True) hist p ∧ p.begin deallocLimit op = .ok (true, q)

theorem Collects.ok (h : Collects deallocLimit hist q) : ProgramOk q := by
  obtain ⟨p, op, hrun, hbegin⟩ := h
  exact (begin_ok hrun.ok hbegin).ok

/-! ### Runs from a list of operations -/

def Program.after (deallocLimit : Nat) : List Op → Except Fault Program
  | [] => .ok .start
  | op :: hist => do
    let p ← Program.after deallocLimit hist
    p.step deallocLimit op

theorem run_of_after : ∀ {hist p}, Program.after deallocLimit hist = .ok p →
    ProgramRun deallocLimit (fun _ => True) hist p := by
  intro hist
  induction hist with
  | nil =>
    intro p h'
    cases h'
    exact .start
  | cons op hist ih =>
    intro p h'
    obtain ⟨p₀, hrun, hstep⟩ := bind_eq_ok h'
    exact (ih hrun).next ⟨hstep, fun _ _ => trivial⟩

/-- Without a limit only `collect` collects. -/
theorem not_due_of_limit_zero (hop : op ≠ .collect) : p.begin 0 op ≠ .ok (true, q) := by
  have hrelease : ∀ s h r, release 0 s h = .ok r → r.1 = false := by
    intro s h r h'
    rw [release] at h'
    split at h'
    · cases h'
    · obtain ⟨_, -, h'⟩ := bind_eq_ok h'
      cases h'
      rfl
  intro h'
  cases begins h' with
  | assign _ _ hr => cases hrelease _ _ _ hr
  | dealloc _ hr => cases hrelease _ _ _ hr
  | destroy _ hr => cases hrelease _ _ _ hr
  | collect => exact hop rfl

theorem run_of_after_zero : ∀ {hist p}, Program.after 0 hist = .ok p → .collect ∉ hist →
    ProgramRun 0 good hist p := by
  intro hist
  induction hist with
  | nil =>
    intro p h' _
    cases h'
    exact .start
  | cons op hist ih =>
    intro p h' hnot
    obtain ⟨p₀, hrun, hstep⟩ := bind_eq_ok h'
    have hop : op ≠ .collect := fun heq => hnot (heq ▸ List.mem_cons_self)
    have hrest := ih hrun fun hmem => hnot (List.mem_cons_of_mem _ hmem)
    exact hrest.next ⟨hstep, fun q hq => absurd hq (not_due_of_limit_zero hop)⟩

end ManagedObject.Collector
