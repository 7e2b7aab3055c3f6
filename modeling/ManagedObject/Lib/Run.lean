/-!
# Runs with a history

A run of a system from a start state, with the labels of its steps, the newest first. A step may
depend on the labels before it, so the rules under which a client uses a system are part of its step
relation.
-/

namespace ManagedObject.Lib

variable {σ ℓ : Type} {step step' : List ℓ → σ → ℓ → σ → Prop} {start s : σ} {hist : List ℓ}

inductive Run (step : List ℓ → σ → ℓ → σ → Prop) (start : σ) : List ℓ → σ → Prop
  | start : Run step start [] start
  | next {hist : List ℓ} {s s' : σ} {l : ℓ} : Run step start hist s → step hist s l s' →
      Run step start (l :: hist) s'

/-- What holds at the start and is kept by every step holds in every state of every run. -/
theorem Run.invariant (inv : List ℓ → σ → Prop) (hrun : Run step start hist s) (hstart : inv [] start)
    (hstep : ∀ hist s l s', inv hist s → step hist s l s' → inv (l :: hist) s') : inv hist s := by
  induction hrun with
  | start => exact hstart
  | next _ hlast ih => exact hstep _ _ _ _ ih hlast

theorem Run.mono (hrun : Run step start hist s)
    (hstep : ∀ hist s l s', step hist s l s' → step' hist s l s') : Run step' start hist s := by
  induction hrun with
  | start => exact .start
  | next _ hlast ih => exact ih.next (hstep _ _ _ _ hlast)

/-- A run goes on from the state that another one has come to. -/
theorem Run.append {hist' : List ℓ} {s' : σ} (hrun : Run step start hist s)
    (hrun' : Run (fun later => step (later ++ hist)) s hist' s') : Run step start (hist' ++ hist) s' := by
  induction hrun' with
  | start => exact hrun
  | next _ hlast ih => exact ih.next hlast

end ManagedObject.Lib
