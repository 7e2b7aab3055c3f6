import ManagedObject.Collector.Copies

/-!
# Variables that share a Memory

After a copy or an assignment both variables show the same values, whichever is used, if there was a
Memory to share. In a debug build there always is, since everything in scope has been printed.
-/

namespace ManagedObject.Collector

open Outcome Lib

/-- The variable that an operation assigns. -/
def Op.assigned : Op → Option HandleId
  | .assign this _ => some this
  | _ => none

structure BuildOk (debug : Bool) (p : Program) : Prop where
  ok : ProgramOk p
  apart : p.heap.Apart
  created : debug = true → ∀ h ∈ p.scope, (p.heap.handle h).created = true

variable {s : Heap} {debug collected : Bool} {deallocLimit : Nat} {a b : HandleId} {p p' q : Program}
  {op : Op} {hist : List Op}

/-- After an operation a variable is an old one that was not assigned, or it has been created. -/
theorem BuildOk.flow (hp : BuildOk debug p) {scope : List HandleId}
    (hflow : Flow (op.assigned = some ·) collected p.heap s)
    (hscope : ∀ h ∈ scope, (h ∈ p.scope ∧ op.assigned ≠ some h) ∨
      (s.Known h ∧ (debug = true → (s.handle h).created = true))) :
    BuildOk debug ⟨s, scope⟩ ∧ Flow (op.assigned = some ·) collected p.heap s := by
  refine ⟨⟨⟨hflow.ok, fun h hh => ?_⟩, hflow.apart, fun hdebug h hh => ?_⟩, hflow⟩
  · rcases hscope h hh with ⟨hold, -⟩ | ⟨hknown, -⟩
    · have hknown := hp.ok.scope h hold
      exact ⟨hknown.1, Nat.lt_of_lt_of_le hknown.2 hflow.kept.handles⟩
    · exact hknown
  · rcases hscope h hh with ⟨hold, hsame⟩ | ⟨-, hcreated⟩
    · exact hflow.kept.created h (hp.ok.scope h hold).2 hsame (hp.created hdebug h hold)
    · exact hcreated hdebug

theorem build_ok (hp : BuildOk debug p) (h' : p.build debug deallocLimit op = .ok (collected, p')) :
    BuildOk debug p' ∧ Flow (op.assigned = some ·) collected p.heap p'.heap := by
  have hs := hp.ok.heap
  have hold : ∀ {op : Op}, op.assigned = none → ∀ h ∈ p.scope, h ∈ p.scope ∧ op.assigned ≠ some h := by
    intro op hnone h hh
    rw [hnone]
    exact ⟨hh, fun heq => by cases heq⟩
  cases op with
  | construct =>
    obtain ⟨⟨h, s⟩, hop, h'⟩ := bind_eq_ok h'
    cases h'
    obtain ⟨hflow, hnew⟩ := build_construct_flow hs hp.apart hop
    apply hp.flow hflow
    intro h₁ hh
    rcases List.mem_cons.mp hh with rfl | hh
    · exact Or.inr hnew
    · exact Or.inl (hold rfl h₁ hh)
  | copy other =>
    obtain ⟨_, hother, h'⟩ := bind_eq_ok h'
    obtain ⟨⟨h, s⟩, hop, h'⟩ := bind_eq_ok h'
    cases h'
    obtain ⟨hflow, hnew⟩ :=
      build_copyConstruct_flow hs hp.apart (hp.ok.scope other (variable_ok hother)) hop
    apply hp.flow hflow
    intro h₁ hh
    rcases List.mem_cons.mp hh with rfl | hh
    · exact Or.inr hnew
    · exact Or.inl (hold rfl h₁ hh)
  | assign this other =>
    obtain ⟨_, hthis, h'⟩ := bind_eq_ok h'
    obtain ⟨_, hother, h'⟩ := bind_eq_ok h'
    obtain ⟨⟨ran, s⟩, hop, h'⟩ := bind_eq_ok h'
    cases h'
    have hmem := variable_ok hthis
    have hmem' := variable_ok hother
    by_cases hne : this = other
    · rw [Build.assign, if_pos hne] at hop
      cases hop
      apply hp.flow (.of_steady hp.apart (.refl hs) .refl)
      intro h hh
      exact Or.inr ⟨hp.ok.scope h hh, fun hdebug => hp.created hdebug h hh⟩
    · obtain ⟨hflow, hcreated, -⟩ := build_assign_flow hs hp.apart (hp.ok.scope this hmem)
        (hp.ok.scope other hmem') hne (fun hdebug => hp.created hdebug other hmem') hop
      have hassigned : (fun h => Op.assigned (.assign this other) = some h) = (· = this) := by
        funext h
        simp [Op.assigned, eq_comm]
      rw [← hassigned] at hflow
      apply hp.flow hflow
      intro h hh
      by_cases heq : h = this
      · right
        rw [heq]
        have hknown := hp.ok.scope this hmem
        exact ⟨⟨hknown.1, Nat.lt_of_lt_of_le hknown.2 hflow.kept.handles⟩, hcreated⟩
      · refine Or.inl ⟨hh, fun hsome => heq ?_⟩
        cases hsome
        rfl
  | byRef this other =>
    obtain ⟨_, hthis, h'⟩ := bind_eq_ok h'
    obtain ⟨_, hother, h'⟩ := bind_eq_ok h'
    obtain ⟨s, hop, h'⟩ := bind_eq_ok h'
    cases h'
    exact hp.flow (build_byRef_flow hs hp.apart (hp.ok.scope other (variable_ok hother)) hop)
      fun h hh => Or.inl (hold rfl h hh)
  | reroot this index other =>
    obtain ⟨_, hthis, h'⟩ := bind_eq_ok h'
    obtain ⟨_, hother, h'⟩ := bind_eq_ok h'
    obtain ⟨s, hop, h'⟩ := bind_eq_ok h'
    cases h'
    exact hp.flow (build_reroot_flow hs hp.apart (hp.ok.scope other (variable_ok hother)) hop)
      fun h hh => Or.inl (hold rfl h hh)
  | pushValue this v =>
    obtain ⟨_, hthis, h'⟩ := bind_eq_ok h'
    obtain ⟨s, hop, h'⟩ := bind_eq_ok h'
    cases h'
    exact hp.flow (.of_steady hp.apart (hs.pushValue hop) (pushValue_steady hop))
      fun h hh => Or.inl (hold rfl h hh)
  | getValueAt this index =>
    obtain ⟨_, hthis, h'⟩ := bind_eq_ok h'
    obtain ⟨⟨ptr, s⟩, hop, h'⟩ := bind_eq_ok h'
    cases h'
    exact hp.flow (.of_steady hp.apart (hs.getValueAt hop) (getValueAt_steady hop))
      fun h hh => Or.inl (hold rfl h hh)
  | setValueAt this index v =>
    obtain ⟨_, hthis, h'⟩ := bind_eq_ok h'
    obtain ⟨s, hop, h'⟩ := bind_eq_ok h'
    cases h'
    exact hp.flow (.of_steady hp.apart (hs.setValueAt hop) (setValueAt_steady hop))
      fun h hh => Or.inl (hold rfl h hh)
  | dealloc this =>
    obtain ⟨_, hthis, h'⟩ := bind_eq_ok h'
    obtain ⟨⟨ran, s⟩, hop, h'⟩ := bind_eq_ok h'
    cases h'
    exact hp.flow (build_dealloc_flow hs hp.apart (hp.ok.scope this (variable_ok hthis)).1 hop).1
      fun h hh => Or.inl (hold rfl h hh)
  | destroy this =>
    obtain ⟨_, hthis, h'⟩ := bind_eq_ok h'
    obtain ⟨⟨ran, s⟩, hop, h'⟩ := bind_eq_ok h'
    cases h'
    exact hp.flow (build_dealloc_flow hs hp.apart (hp.ok.scope this (variable_ok hthis)).1 hop).1
      fun h hh => Or.inl (hold rfl h (List.mem_of_mem_erase hh))
  | collect =>
    obtain ⟨s, hop, h'⟩ := bind_eq_ok h'
    cases h'
    obtain ⟨hok, hsteady⟩ := build_collect_ok hs hop
    exact hp.flow ⟨hsteady.kept, hok, hp.apart.steady hsteady, fun hquiet => Bool.noConfusion hquiet⟩
      fun h hh => Or.inl (hold rfl h hh)

/-! ### Shared Memories -/

/-- The runs of a build. -/
abbrev BuildRun (debug : Bool) (deallocLimit : Nat) : List Op → Program → Prop :=
  Run (fun _ p op p' => ∃ collected, p.build debug deallocLimit op = .ok (collected, p')) .start

/-- A step that assigns neither variable, and in which no collection runs. -/
def Quiet (debug : Bool) (deallocLimit : Nat) (a b : HandleId) (p : Program) (op : Op) (p' : Program) : Prop :=
  p.build debug deallocLimit op = .ok (false, p') ∧ op.assigned ≠ some a ∧ op.assigned ≠ some b

/-- What `get_value_at` finds through a variable. -/
def Heap.observe (s : Heap) (h : HandleId) (index : Nat) : Except Fault Ptr :=
  Prod.fst <$> getValueAt s h index

/-- As long as the steps are quiet, both variables have the same Memory, and whatever is done through
either is observed through both. -/
def Program.Shared (debug : Bool) (deallocLimit : Nat) (p : Program) (a b : HandleId) : Prop :=
  ∀ hist q, Run (fun _ => Quiet debug deallocLimit a b) p hist q →
    q.heap.target a = q.heap.target b ∧ ∀ index, q.heap.observe a index = q.heap.observe b index

/-- The operation leads from `p` to `p'` and makes `a` a copy of `b`. -/
def Op.MakesCopy (p p' : Program) (a b : HandleId) : Op → Prop
  | .copy other => other = b ∧ p'.scope = a :: p.scope
  | .assign this other => this = a ∧ other = b
  | _ => False

theorem BuildRun.ok (hrun : BuildRun debug deallocLimit hist p) : BuildOk debug p := by
  apply Run.invariant (fun _ p => BuildOk debug p) hrun
  · refine ⟨⟨start_ok, fun _ hh => by cases hh⟩, ?_, fun _ _ hh => by cases hh⟩
    intro h hh
    exact absurd (Nat.lt_one_iff.mp hh.2) hh.1
  · intro hist p op p' hp hstep
    obtain ⟨collected, hstep⟩ := hstep
    exact (build_ok hp hstep).1

theorem check_congr (htarget : s.target a = s.target b) (ha : s.isDestroyed a = false)
    (hb : s.isDestroyed b = false) : s.check a = s.check b := by
  have hmemory : (s.handle a).memory = (s.handle b).memory := htarget
  simp only [Heap.check, ha, hb, hmemory, Bool.false_eq_true, if_false]

theorem observe_congr (htarget : s.target a = s.target b) (ha : s.isDestroyed a = false)
    (hb : s.isDestroyed b = false) {index : Nat} : s.observe a index = s.observe b index := by
  have hcheck := check_congr htarget ha hb
  rw [Heap.observe, Heap.observe]
  cases h : s.check a with
  | error f =>
    rw [getValueAt, getMemory_error h, getValueAt, getMemory_error (hcheck ▸ h)]
  | ok _ =>
    rw [getValueAt_eq h, getValueAt_eq (hcheck ▸ h), htarget]
    split <;> rfl

/-- Quiet steps leave the two handles as they are. -/
theorem shared_of_target (hp : BuildOk debug p) (ha : p.heap.Known a) (hb : p.heap.Known b)
    (htarget : p.heap.target a = p.heap.target b) (hlive : p.heap.isDestroyed a = false)
    (hlive' : p.heap.isDestroyed b = false) : p.Shared debug deallocLimit a b := by
  intro hist q hrun
  have hinv := Run.invariant (fun _ q => BuildOk debug q ∧ p.heap.nextHandle ≤ q.heap.nextHandle ∧
    q.heap.target a = p.heap.target a ∧ q.heap.target b = p.heap.target b ∧
    q.heap.destroyed = p.heap.destroyed) hrun ⟨hp, Nat.le_refl _, rfl, rfl, rfl⟩ ?_
  · obtain ⟨-, -, htarget₁, htarget₂, hlist⟩ := hinv
    have hsame : q.heap.target a = q.heap.target b := by
      rw [htarget₁, htarget₂, htarget]
    refine ⟨hsame, fun index => observe_congr hsame ?_ ?_⟩
    · rw [isDestroyed_congr hlist, hlive]
    · rw [isDestroyed_congr hlist, hlive']
  · intro hist q op q' hinv hquiet
    obtain ⟨hq, hhandles, htarget₁, htarget₂, hlist⟩ := hinv
    obtain ⟨hstep, hassigned, hassigned'⟩ := hquiet
    obtain ⟨hq', hflow⟩ := build_ok hq hstep
    refine ⟨hq', Nat.le_trans hhandles hflow.kept.handles, ?_, ?_, (hflow.lists rfl).1.trans hlist⟩
    · rw [hflow.kept.target a (Nat.lt_of_lt_of_le ha.2 hhandles) hassigned, htarget₁]
    · rw [hflow.kept.target b (Nat.lt_of_lt_of_le hb.2 hhandles) hassigned', htarget₂]

theorem Copies.shared_iff (hcopies : Copies p.heap a b p'.heap) (hp' : BuildOk debug p')
    (ha : p'.heap.Known a) (hb : p'.heap.Known b) :
    p'.Shared debug deallocLimit a b ↔ (p.heap.handle b).created = true := by
  rw [← hcopies.target]
  constructor
  · exact fun hshared => (hshared [] p' .start).1
  · exact fun htarget => shared_of_target hp' ha hb htarget hcopies.alive.1 hcopies.alive.2

/-- A copy made without a collection shares the Memory of the original exactly when it is a debug build,
or the Memory had been created before; the other variables keep theirs. -/
theorem copies_share_iff (hrun : BuildRun debug deallocLimit hist p) (hop : op.MakesCopy p p' a b)
    (hstep : p.build debug deallocLimit op = .ok (false, p')) :
    (p'.Shared debug deallocLimit a b ↔ debug = true ∨ (p.heap.handle b).created = true ∨ a = b) ∧
    ∀ c ∈ p.scope, c ≠ a → p'.heap.target c = p.heap.target c ∧
      (p'.heap.mem (p.heap.target c)).memory = (p.heap.mem (p.heap.target c)).memory := by
  have hp := hrun.ok
  obtain ⟨hp', hflow⟩ := build_ok hp hstep
  have hknown : ∀ {h}, h ∈ p.scope → p'.heap.Known h := fun hh =>
    ⟨(hp.ok.scope _ hh).1, Nat.lt_of_lt_of_le (hp.ok.scope _ hh).2 hflow.kept.handles⟩
  by_cases hself : op = .assign a a
  · subst hself
    obtain ⟨-, rfl⟩ := hop
    obtain ⟨_, -, hstep⟩ := bind_eq_ok hstep
    obtain ⟨_, -, hstep⟩ := bind_eq_ok hstep
    rw [Build.assign, if_pos rfl] at hstep
    cases hstep
    exact ⟨iff_of_true (fun _ _ _ => ⟨rfl, fun _ => rfl⟩) (Or.inr (Or.inr rfl)), fun _ _ _ => ⟨rfl, rfl⟩⟩
  · -- both operations copy the handle of `b`
    have hcopies : Copies p.heap a b p'.heap ∧ b ∈ p.scope ∧ a ≠ b ∧ p'.heap.Known a := by
      cases op with
      | copy other =>
        obtain ⟨rfl, hscope⟩ := hop
        obtain ⟨_, hother, hstep⟩ := bind_eq_ok hstep
        obtain ⟨⟨h, s⟩, hcopy, hstep⟩ := bind_eq_ok hstep
        cases hstep
        obtain ⟨rfl, -⟩ := List.cons.inj hscope
        have hmem := variable_ok hother
        have hother := hp.ok.scope other hmem
        obtain ⟨hcopies, hfresh, hnew⟩ := build_copyConstruct_copies hp.ok.heap hother hcopy
        exact ⟨hcopies, hmem, Nat.ne_of_gt (Nat.lt_of_lt_of_le hother.2 hfresh), hnew⟩
      | assign this other =>
        obtain ⟨rfl, rfl⟩ := hop
        obtain ⟨_, hthis, hstep⟩ := bind_eq_ok hstep
        obtain ⟨_, hother, hstep⟩ := bind_eq_ok hstep
        obtain ⟨⟨ran, s⟩, hassign, hstep⟩ := bind_eq_ok hstep
        cases hstep
        have hne : this ≠ other := fun heq => hself (heq ▸ rfl)
        have hmem := variable_ok hother
        obtain ⟨-, -, hcopies⟩ := build_assign_flow hp.ok.heap hp.apart (hp.ok.scope this (variable_ok hthis))
          (hp.ok.scope other hmem) hne (fun hdebug => hp.created hdebug other hmem) hassign
        exact ⟨hcopies rfl, hmem, hne, hknown (variable_ok hthis)⟩
      | _ => exact hop.elim
    obtain ⟨hcopies, hb, hne, ha⟩ := hcopies
    rw [hcopies.shared_iff hp' ha (hknown hb)]
    refine ⟨⟨fun hcreated => Or.inr (Or.inl hcreated), ?_⟩, fun c hc hca => ?_⟩
    · rintro (hdebug | hcreated | heq)
      · exact hp.created hdebug b hb
      · exact hcreated
      · exact absurd heq hne
    · have hc' := hp.ok.scope c hc
      exact ⟨hcopies.others c hc'.2 hca, hcopies.infos _ (hp.apart c hc')⟩

example : (do
    let (_, p) ← Program.build true 10 .start .construct
    let (_, p) ← p.build true 10 (.copy 1)
    return decide (p.heap.target 1 = p.heap.target 2)) = Except.ok (ε := Fault) true := rfl

/-- A variable with a value. -/
def onePushed : Program := (Program.after 10 [.pushValue 1 7, .construct]).toOption.getD .start

/-- In a release build a Memory that is created by a value is shared. -/
theorem copies_share_pushed : ∃ p', onePushed.build false 10 (.copy 1) = .ok (false, p') ∧
    p'.Shared false 10 2 1 := by
  have hrun : BuildRun false 10 [.pushValue 1 7, .construct] onePushed :=
    (Run.start.next ⟨_, rfl⟩).next ⟨_, rfl⟩
  obtain ⟨p', hstep, hscope⟩ : ∃ p', onePushed.build false 10 (.copy 1) = .ok (false, p') ∧
      p'.scope = 2 :: onePushed.scope := ⟨_, rfl, rfl⟩
  have hop : (Op.copy 1).MakesCopy onePushed p' 2 1 := ⟨rfl, hscope⟩
  exact ⟨p', hstep, (copies_share_iff hrun hop hstep).1.mpr (Or.inr (Or.inl rfl))⟩

/-- In a release build a copy of a variable that nothing was stored in goes its own way. -/
theorem copies_drift_apart : ∃ p p' q, BuildRun false 10 [.construct] p ∧
    p.build false 10 (.copy 1) = .ok (false, p') ∧ p'.build false 10 (.pushValue 1 7) = .ok (false, q) ∧
    q.heap.observe 1 0 = .ok (.value 7) ∧ q.heap.observe 2 0 = .error .outOfRange ∧
    ¬ p'.Shared false 10 2 1 := by
  refine ⟨_, _, _, Run.start.next ⟨_, rfl⟩, rfl, rfl, rfl, rfl, fun hshared => ?_⟩
  have hobserve := (hshared [.pushValue 1 7] _ (Run.start.next ⟨rfl, by decide, by decide⟩)).2 0
  cases hobserve

end ManagedObject.Collector
