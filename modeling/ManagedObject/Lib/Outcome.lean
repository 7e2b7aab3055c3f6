/-!
# Specifications of fallible computations

Code that can stop early is modelled in `Except`. `Meets r stops post` says what such a
computation may do: it returns a value with `post`, or it stops with an error in `stops`.
The rules below follow the structure of a `do` block, so a specification of a function is
assembled from those of the functions it calls.
-/

namespace ManagedObject.Outcome

variable {ε α β : Type}

/-- A result that satisfies `post`, or an error among `stops`. -/
def Meets (r : Except ε α) (stops : ε → Prop) (post : α → Prop) : Prop :=
  match r with
  | .ok a => post a
  | .error e => stops e

variable {r : Except ε α} {stops stops' : ε → Prop} {post post' : α → Prop}

@[simp] theorem meets_ok {a : α} : Meets (.ok a : Except ε α) stops post ↔ post a := Iff.rfl

@[simp] theorem meets_pure {a : α} : Meets (pure a : Except ε α) stops post ↔ post a := Iff.rfl

@[simp] theorem meets_error {e : ε} : Meets (.error e : Except ε α) stops post ↔ stops e := Iff.rfl

theorem Meets.mono (h : Meets r stops post) (hstops : ∀ e, stops e → stops' e)
    (hpost : ∀ a, post a → post' a) : Meets r stops' post' := by
  cases r with
  | ok a => exact hpost a h
  | error e => exact hstops e h

theorem Meets.and (h : Meets r stops post) (h' : Meets r stops' post') :
    Meets r stops fun a => post a ∧ post' a := by
  cases r with
  | ok a => exact ⟨h, h'⟩
  | error e => exact h

/-- Sequencing: the continuation is specified from the postcondition of the first step. -/
theorem Meets.bind {f : α → Except ε β} {goal : β → Prop} (h : Meets r stops post)
    (hf : ∀ a, post a → Meets (f a) stops goal) : Meets (r >>= f) stops goal := by
  cases r with
  | ok a => exact hf a h
  | error e => exact h

theorem Meets.of_ok {a : α} (h : Meets r stops post) (hr : r = .ok a) : post a := by
  subst hr
  exact h

/-- A computation that none of its errors stops returns. -/
theorem Meets.returns (h : Meets r stops post) (hstops : ∀ e, ¬ stops e) : ∃ a, r = .ok a ∧ post a := by
  cases r with
  | ok a => exact ⟨a, rfl, h⟩
  | error e => exact absurd h (hstops e)

theorem Meets.of_error {e : ε} (h : Meets r stops post) (hr : r = .error e) : stops e := by
  subst hr
  exact h

/-- A loop over `0, …, n - 1`, with an invariant that counts the rounds. -/
theorem Meets.foldlM_range {f : α → Nat → Except ε α} {inv : Nat → α → Prop} {n : Nat} {a : α}
    (hstart : inv 0 a) (hstep : ∀ i < n, ∀ a, inv i a → Meets (f a i) stops (inv (i + 1))) :
    Meets ((List.range n).foldlM f a) stops (inv n) := by
  induction n with
  | zero => exact hstart
  | succ n ih =>
    rw [List.range_succ, List.foldlM_append]
    refine (ih fun i hi => hstep i (by omega)).bind ?_
    intro a ha
    refine (hstep n (by omega) a ha).bind ?_
    intro a' ha'
    exact ha'

/-- A loop over a list, with an invariant of its rounds. -/
theorem Meets.foldlM {f : α → β → Except ε α} {inv : α → Prop} {bs : List β} {a : α} (hstart : inv a)
    (hstep : ∀ b ∈ bs, ∀ a, inv a → Meets (f a b) stops inv) : Meets (bs.foldlM f a) stops inv := by
  induction bs generalizing a with
  | nil => exact hstart
  | cons b bs ih =>
    rw [List.foldlM_cons]
    refine (hstep b List.mem_cons_self a hstart).bind ?_
    intro a' ha'
    exact ih ha' fun b' hb' => hstep b' (List.mem_cons_of_mem _ hb')

/-- A successful sequence is a successful first step followed by a successful second one. -/
theorem bind_eq_ok {f : α → Except ε β} {b : β} (h : r >>= f = .ok b) :
    ∃ a, r = .ok a ∧ f a = .ok b := by
  cases r with
  | ok a => exact ⟨a, rfl, h⟩
  | error e => cases h

theorem ok_bind (a : α) (f : α → Except ε β) : (.ok a : Except ε α) >>= f = f a := rfl

theorem error_bind (e : ε) (f : α → Except ε β) : (.error e : Except ε α) >>= f = .error e := rfl

/-- What every round of a loop keeps is kept by the loop. -/
theorem foldlM_rule (inv : α → Prop) {f : α → β → Except ε α} {bs : List β}
    (hstep : ∀ a a', ∀ b ∈ bs, inv a → f a b = .ok a' → inv a') {a a' : α} (hstart : inv a)
    (h : bs.foldlM f a = .ok a') : inv a' := by
  have hloop : Meets (bs.foldlM f a) (fun _ => True) inv := by
    refine Meets.foldlM hstart fun b hb a ha => ?_
    cases hround : f a b with
    | ok a' => exact hstep a a' b hb ha hround
    | error _ => exact trivial
  exact hloop.of_ok h

/-! ### Computations that go the same way -/

section

variable {γ α' β' : Type} {rel : α → β → Prop} {rel' : α' → β' → Prop} {r' : Except ε β}

/-- Both stop with the same error, or both return, with related values. -/
def Alike (rel : α → β → Prop) : Except ε α → Except ε β → Prop
  | .ok a, .ok b => rel a b
  | .error e, .error e' => e = e'
  | _, _ => False

theorem Alike.error (e : ε) : Alike rel (.error e) (.error e) := Eq.refl e

theorem Alike.mono {rel' : α → β → Prop} (h : Alike rel r r') (hrel : ∀ a b, rel a b → rel' a b) :
    Alike rel' r r' := by
  cases r <;> cases r'
  · exact h
  · exact h
  · exact h
  · exact hrel _ _ h

theorem Alike.bind {f : α → Except ε α'} {f' : β → Except ε β'} (h : Alike rel r r')
    (hf : ∀ a b, rel a b → Alike rel' (f a) (f' b)) : Alike rel' (r >>= f) (r' >>= f') := by
  cases r <;> cases r'
  · exact h
  · exact h.elim
  · exact h.elim
  · exact hf _ _ h

/-- Two loops over one list keep their states related, if their rounds do. -/
theorem Alike.foldlM {f : α → γ → Except ε α} {f' : β → γ → Except ε β} {cs : List γ} {a : α} {b : β}
    (hstart : rel a b) (hstep : ∀ c ∈ cs, ∀ a b, rel a b → Alike rel (f a c) (f' b c)) :
    Alike rel (cs.foldlM f a) (cs.foldlM f' b) := by
  induction cs generalizing a b with
  | nil => exact hstart
  | cons c cs ih =>
    rw [List.foldlM_cons, List.foldlM_cons]
    refine (hstep c List.mem_cons_self a b hstart).bind fun a' b' hab => ?_
    exact ih hab fun c' hc' => hstep c' (List.mem_cons_of_mem _ hc')

theorem Alike.of_ok {a : α} (h : Alike rel r r') (hr : r = .ok a) : ∃ b, r' = .ok b ∧ rel a b := by
  subst hr
  cases r' with
  | error e => exact h.elim
  | ok b => exact ⟨b, rfl, h⟩

end

end ManagedObject.Outcome
