import ManagedObject.Lib.Lifetime
import ManagedObject.Pages.Resize

/-!
# The values of a page

Each slot of a page contains an object of type `T`, which is constructed and destroyed with the array. `unset`
runs the destructor of the object in a slot that is set, and the object stays in the array: whatever comes next
for the slot, its assignment, a move or the end of the array, comes after its destruction.
-/

namespace ManagedObject.Pages

open Outcome Lib Lifetime

variable {T : Type}

/-- A page with the objects of its slots, the first object that is not in use, and what has been done with
objects. -/
structure Traced (T : Type) where
  page : Page T
  objects : List Nat
  next : Nat
  trace : List (Event Nat)

def Traced.touch (s : Traced T) (i : Nat) (e : Nat → Event Nat) : List (Event Nat) :=
  match s.objects[i]? with
  | none => s.trace
  | some x => e x :: s.trace

section
variable [Inhabited T]

def Traced.new (size : Nat) : Traced T :=
  ⟨.new size, List.range size, size, constructAll (List.range size) []⟩

def Traced.set (s : Traced T) (value : T) : Traced T :=
  let (i, page) := s.page.set value
  { s with page := page, trace := i.elim s.trace fun i => s.touch i .assign }

def Traced.unset (s : Traced T) (i : Nat) : Except Fault (Traced T) := do
  let page ← s.page.unset i
  return { s with page := page, trace := if (s.page.held i).isSome then s.touch i .destroy else s.trace }

/-- `resize`: the new array is constructed, objects are moved to it unless `memcpy` copies their bytes, and the
old array is destroyed. -/
def Traced.resize (c : Layout) (s : Traced T) (n : Nat) : Traced T :=
  let page := s.page.resize c n
  let fresh := List.range' s.next n
  if n = 0 then ⟨page, [], s.next, destroyAll s.objects s.trace⟩
  else if s.page.max = 0 then ⟨page, fresh, s.next + n, constructAll fresh s.trace⟩
  else
    let trace := constructAll fresh s.trace
    let trace := if c.triviallyCopyable then trace else moveAll (fresh.zip s.objects) trace
    ⟨page, fresh, s.next + n, destroyAll s.objects trace⟩

/-- `~ManagedObjectPage`. -/
def Traced.destruct (c : Layout) (s : Traced T) : Traced T := s.resize c 0

def Traced.step (c : Layout) (s : Traced T) : Page.Op T → Except Fault (Traced T)
  | .set value => .ok (s.set value)
  | .unset i => s.unset i
  | .resize n => .ok (s.resize c n)

abbrev TracedRun (c : Layout) (allowed : Traced T → Page.Op T → Prop) (size : Nat) :
    List (Page.Op T) → Traced T → Prop :=
  Run (fun _ s op s' => allowed s op ∧ s.step c op = .ok s') (.new size)

end

def Page.Op.Destroys (s : Traced T) : Page.Op T → Prop
  | .unset i => (s.page.held i).isSome = true
  | _ => False

/-- Nothing is done with an object before its construction or after its destruction, and each object that is
constructed is destroyed once. -/
structure Lifetimes (trace : List (Event Nat)) : Prop where
  orderly : Orderly trace
  once : ∀ x, .construct x ∈ trace → trace.count (.destroy x) = 1

/-- The objects of the slots are different, and every object up to the next one has been constructed once. -/
structure Traced.Formed (s : Traced T) : Prop where
  length : s.objects.length = s.page.max
  nodup : s.objects.Nodup
  bound : ∀ x ∈ s.objects, x < s.next
  constructed : ∀ x, s.trace.count (.construct x) = if x < s.next then 1 else 0

/-- The objects of the slots are those that are alive. -/
structure Traced.Clean (s : Traced T) : Prop where
  orderly : Orderly s.trace
  alive : ∀ x, alive s.trace x = true ↔ x ∈ s.objects

/-- Something has been done with an object that is not alive, or one that is not alive is in a slot. -/
def Traced.Doomed (s : Traced T) : Prop := Orderly s.trace → ∃ x ∈ s.objects, alive s.trace x = false

variable {c : Layout} {s s' : Traced T} {i n size : Nat} {value : T} {op : Page.Op T}

theorem Traced.Formed.touch (h : s.Formed) (hi : i < s.page.max) (e : Nat → Event Nat) :
    ∃ x ∈ s.objects, s.touch i e = e x :: s.trace := by
  have hlt : i < s.objects.length := by rwa [h.length]
  refine ⟨s.objects[i], List.getElem_mem hlt, ?_⟩
  rw [Traced.touch, List.getElem?_eq_getElem hlt]

variable [Inhabited T]

/-- What the steps do to the page is what the page does. -/
theorem Traced.step_page (hstep : s.step c op = .ok s') : s.page.step c op = .ok s'.page := by
  cases op with
  | set value =>
    cases hstep
    rfl
  | unset i =>
    obtain ⟨page, hpage, hstep⟩ := bind_eq_ok hstep
    cases hstep
    exact hpage
  | resize n =>
    cases hstep
    rw [Traced.resize]
    dsimp only
    split
    · rfl
    · split
      · rfl
      · rfl

/-- What a step does with objects. -/
inductive Traced.Does (s : Traced T) (op : Page.Op T) (s' : Traced T) : Prop
  | nothing : ¬ op.Destroys s → s'.objects = s.objects → s'.next = s.next → s'.trace = s.trace → Does s op s'
  | assign (x : Nat) : ¬ op.Destroys s → x ∈ s.objects → s'.objects = s.objects → s'.next = s.next →
      s'.trace = .assign x :: s.trace → Does s op s'
  | destroy (x : Nat) : op.Destroys s → x ∈ s.objects → s'.objects = s.objects → s'.next = s.next →
      s'.trace = .destroy x :: s.trace → Does s op s'
  | replace (n : Nat) (pairs : List (Nat × Nat)) : ¬ op.Destroys s → s'.objects = List.range' s.next n →
      s'.next = s.next + n → (∀ p ∈ pairs, p.1 ∈ List.range' s.next n ∧ p.2 ∈ s.objects) →
      s'.trace = destroyAll s.objects (moveAll pairs (constructAll (List.range' s.next n) s.trace)) → Does s op s'

/-- `resize` replaces the array. -/
theorem Traced.Formed.resize (hc : c.triviallyCopyable = false) (h : s.Formed) (n : Nat) :
    s.Does (.resize n) (s.resize c n) ∧ (s.resize c n).objects.length = (s.resize c n).page.max := by
  have hkeeps : ¬ (Page.Op.resize n).Destroys s := fun hdestroys => hdestroys
  have hpage : (s.resize c n).page = s.page.resize c n := by
    rw [Traced.resize]
    dsimp only
    split
    · rfl
    · split <;> rfl
  by_cases hn : n = 0
  · subst hn
    constructor
    · exact .replace 0 [] hkeeps rfl rfl (by simp) rfl
    · rfl
  · by_cases hmax : s.page.max = 0
    · have hnil : s.objects = [] := List.eq_nil_of_length_eq_zero (h.length.trans hmax)
      have hresize : s.resize c n = ⟨s.page.resize c n, List.range' s.next n, s.next + n,
          constructAll (List.range' s.next n) s.trace⟩ := by
        rw [Traced.resize, if_neg hn, if_pos hmax]
      have hlength := (resized_of_empty (c := c) (p := s.page) (s := n) (.inr hmax)).max
      rw [hresize]
      constructor
      · refine .replace n [] hkeeps rfl rfl (by simp) ?_
        rw [hnil]
        rfl
      · rw [hlength, List.length_range']
    · have hresize : s.resize c n = ⟨s.page.resize c n, List.range' s.next n, s.next + n,
          destroyAll s.objects (moveAll ((List.range' s.next n).zip s.objects)
            (constructAll (List.range' s.next n) s.trace))⟩ := by
        rw [Traced.resize, if_neg hn, if_neg hmax, hc]
        rfl
      have hlength : (s.page.resize c n).max = n := max_resize hn hmax
      rw [hresize]
      constructor
      · exact .replace n _ hkeeps rfl rfl (fun p hp => List.of_mem_zip hp) rfl
      · rw [hlength, List.length_range']

theorem Traced.Formed.does (hc : c.triviallyCopyable = false) (h : s.Formed) (hstep : s.step c op = .ok s') :
    s.Does op s' ∧ s'.objects.length = s'.page.max := by
  cases op with
  | set value =>
    cases hstep
    have hkeeps : ¬ (Page.Op.set value).Destroys s := fun hdestroys => hdestroys
    constructor
    · rcases s.page.set_cases value with hsame | ⟨i, slot, hslot, -, hset⟩
      · refine .nothing hkeeps rfl rfl ?_
        rw [Traced.set, hsame]
        rfl
      · obtain ⟨x, hx, htouch⟩ := h.touch (List.getElem?_eq_some_iff.mp hslot).1 .assign
        refine .assign x hkeeps hx rfl rfl ?_
        rw [Traced.set, hset]
        exact htouch
    · rw [Traced.set]
      dsimp only
      rw [Page.max_set, h.length]
  | unset i =>
    obtain ⟨page, hpage, hstep⟩ := bind_eq_ok hstep
    cases hstep
    obtain ⟨slot, hslot, ⟨hfree, rfl⟩ | ⟨hset, rfl⟩⟩ := Page.unset_cases hpage
    · have hnone : (s.page.held i).isSome = false := by
        rw [Page.held, hslot, Option.bind_some, Slot.held, hfree]
        rfl
      refine ⟨.nothing ?_ rfl rfl ?_, h.length⟩
      · rw [Page.Op.Destroys, hnone]
        exact Bool.false_ne_true
      · rw [hnone]
        rfl
    · have hsome : (s.page.held i).isSome = true := by
        rw [Page.held, hslot, Option.bind_some, Slot.held, hset]
        rfl
      obtain ⟨x, hx, htouch⟩ := h.touch (List.getElem?_eq_some_iff.mp hslot).1 .destroy
      refine ⟨.destroy x hsome hx rfl rfl ?_, h.length.trans List.length_set.symm⟩
      rw [hsome]
      exact htouch
  | resize n =>
    cases hstep
    exact h.resize hc n

/-! ### What a step keeps -/

omit [Inhabited T] in
theorem Traced.Formed.step (h : s.Formed) (hdoes : s.Does op s') (hlength : s'.objects.length = s'.page.max) :
    s'.Formed := by
  cases hdoes with
  | nothing _ hobjects hnext htrace =>
    refine ⟨hlength, hobjects ▸ h.nodup, ?_, ?_⟩
    · rw [hobjects, hnext]
      exact h.bound
    · rw [htrace, hnext]
      exact h.constructed
  | assign x _ _ hobjects hnext htrace =>
    refine ⟨hlength, hobjects ▸ h.nodup, ?_, fun y => ?_⟩
    · rw [hobjects, hnext]
      exact h.bound
    · rw [htrace, hnext, List.count_cons_of_ne (by simp)]
      exact h.constructed y
  | destroy x _ _ hobjects hnext htrace =>
    refine ⟨hlength, hobjects ▸ h.nodup, ?_, fun y => ?_⟩
    · rw [hobjects, hnext]
      exact h.bound
    · rw [htrace, hnext, List.count_cons_of_ne (by simp)]
      exact h.constructed y
  | replace n pairs _ hobjects hnext _ htrace =>
    refine ⟨hlength, ?_, fun x hx => ?_, fun x => ?_⟩
    · rw [hobjects]
      exact List.nodup_range'
    · rw [hobjects, List.mem_range'_1] at hx
      omega
    · rw [htrace, hnext, count_construct_destroyAll, count_construct_moveAll, count_construct_constructAll,
        h.constructed, List.count_range_1']
      split <;> split <;> split <;> omega

section
omit [Inhabited T]

theorem Traced.Formed.fresh (h : s.Formed) {x : Nat} (hx : x ∈ List.range' s.next n) : x ∉ s.objects := by
  intro hmem
  have hlt := h.bound x hmem
  rw [List.mem_range'_1] at hx
  omega

/-- Without an `unset` of a set slot the objects of the slots stay alive. -/
theorem Traced.Clean.step (hformed : s.Formed) (h : s.Clean) (hdoes : s.Does op s') (hkeeps : ¬ op.Destroys s) :
    s'.Clean := by
  cases hdoes with
  | nothing _ hobjects _ htrace => exact ⟨htrace ▸ h.orderly, fun x => by rw [htrace, hobjects, h.alive]⟩
  | assign x _ hx hobjects _ htrace =>
    refine ⟨?_, fun y => by rw [htrace, hobjects, alive_assign, h.alive]⟩
    rw [htrace]
    exact ⟨(h.alive x).mpr hx, h.orderly⟩
  | destroy x hdestroys => exact absurd hdestroys hkeeps
  | replace n pairs _ hobjects _ hpairs htrace =>
    have hdead : ∀ x ∈ List.range' s.next n, Lifetime.alive s.trace x = false := by
      intro x hx
      rw [← Bool.not_eq_true, h.alive]
      exact hformed.fresh hx
    have hmoved : Orderly (moveAll pairs (constructAll (List.range' s.next n) s.trace)) := by
      apply (h.orderly.constructAll List.nodup_range' hdead).moveAll
      intro p hp
      obtain ⟨htarget, hsource⟩ := hpairs p hp
      rw [alive_constructAll, alive_constructAll, (h.alive p.2).mpr hsource]
      simp [htarget]
    constructor
    · rw [htrace, orderly_destroyAll_iff hformed.nodup]
      refine ⟨hmoved, fun x hx => ?_⟩
      rw [alive_moveAll, alive_constructAll, (h.alive x).mpr hx, Bool.or_true]
    · intro x
      rw [htrace, hobjects, alive_destroyAll, alive_moveAll, alive_constructAll, Bool.and_eq_true, Bool.or_eq_true,
        decide_eq_true_iff, decide_eq_true_iff, h.alive]
      constructor
      · rintro ⟨hold, hnew | hmem⟩
        · exact hnew
        · exact absurd hmem hold
      · exact fun hnew => ⟨hformed.fresh hnew, .inl hnew⟩

/-- An object that has been destroyed in its slot stays there until something is done with it. -/
theorem Traced.Doomed.step (hformed : s.Formed) (h : s.Doomed) (hdoes : s.Does op s') : s'.Doomed := by
  cases hdoes with
  | nothing _ hobjects _ htrace =>
    rw [Traced.Doomed, htrace, hobjects]
    exact h
  | assign y _ _ hobjects _ htrace =>
    rw [Traced.Doomed, htrace, hobjects]
    exact fun horderly => h horderly.2
  | destroy y _ hy hobjects _ htrace =>
    rw [Traced.Doomed, htrace, hobjects]
    exact fun _ => ⟨y, hy, by simp⟩
  | replace n pairs _ _ _ _ htrace =>
    intro horderly
    rw [htrace, orderly_destroyAll_iff hformed.nodup] at horderly
    obtain ⟨hmoved, halive⟩ := horderly
    obtain ⟨x, hx, hdead⟩ := h hmoved.of_append.of_append
    have hnew : x ∉ List.range' s.next n := fun hmem => hformed.fresh hmem hx
    have hboth := halive x hx
    rw [alive_moveAll, alive_constructAll, hdead, decide_eq_false hnew] at hboth
    cases hboth

theorem Traced.does_doomed (hdoes : s.Does op s') (hdestroys : op.Destroys s) : s'.Doomed := by
  cases hdoes with
  | nothing hkeeps => exact absurd hdestroys hkeeps
  | assign _ hkeeps => exact absurd hdestroys hkeeps
  | destroy x _ hx hobjects _ htrace =>
    rw [Traced.Doomed, htrace, hobjects]
    exact fun _ => ⟨x, hx, by simp⟩
  | replace _ _ hkeeps => exact absurd hdestroys hkeeps

end

/-! ### Runs -/

variable {hist : List (Page.Op T)} {allowed : Traced T → Page.Op T → Prop}

theorem Traced.new_formed (size : Nat) : (Traced.new size : Traced T).Formed := by
  refine ⟨?_, List.nodup_range, fun x hx => List.mem_range.mp hx, fun x => ?_⟩
  · rw [Traced.new, List.length_range, Page.new]
    split
    · rename_i hsize
      exact hsize
    · exact List.length_replicate.symm
  · rw [Traced.new, count_construct_constructAll, List.count_range, List.count_nil, Nat.add_zero]

theorem Traced.new_clean (size : Nat) : (Traced.new size : Traced T).Clean := by
  refine ⟨?_, fun x => ?_⟩
  · have hnil : Orderly ([] : List (Event Nat)) := trivial
    exact hnil.constructAll List.nodup_range fun _ _ => rfl
  · rw [Traced.new, alive_constructAll]
    simp [Lifetime.alive]

theorem TracedRun.formed (hc : c.triviallyCopyable = false) (hrun : TracedRun c allowed size hist s) : s.Formed := by
  apply hrun.invariant fun _ s => s.Formed
  · exact Traced.new_formed size
  · intro hist s op s' h hstep
    obtain ⟨hdoes, hlength⟩ := h.does hc hstep.2
    exact h.step hdoes hlength

theorem TracedRun.clean (hc : c.triviallyCopyable = false)
    (hrun : TracedRun c (fun s op => ¬ op.Destroys s) size hist s) : s.Clean := by
  have hboth : s.Formed ∧ s.Clean := by
    apply hrun.invariant fun _ s => s.Formed ∧ s.Clean
    · exact ⟨Traced.new_formed size, Traced.new_clean size⟩
    · intro hist s op s' ⟨hformed, h⟩ ⟨hkeeps, hstep⟩
      obtain ⟨hdoes, hlength⟩ := hformed.does hc hstep
      exact ⟨hformed.step hdoes hlength, h.step hformed hdoes hkeeps⟩
  exact hboth.2

/-- Either no `unset` of the run was of a set slot, or one has left an object that is not alive in its slot. -/
theorem TracedRun.kept_or_doomed (hc : c.triviallyCopyable = false)
    (hrun : TracedRun c (fun _ _ => True) size hist s) :
    TracedRun c (fun s op => ¬ op.Destroys s) size hist s ∨ s.Doomed := by
  have hboth : s.Formed ∧ (TracedRun c (fun s op => ¬ op.Destroys s) size hist s ∨ s.Doomed) := by
    apply hrun.invariant fun hist s => s.Formed ∧ (TracedRun c (fun s op => ¬ op.Destroys s) size hist s ∨ s.Doomed)
    · exact ⟨Traced.new_formed size, .inl .start⟩
    · intro hist s op s' ⟨hformed, h⟩ ⟨_, hstep⟩
      obtain ⟨hdoes, hlength⟩ := hformed.does hc hstep
      refine ⟨hformed.step hdoes hlength, ?_⟩
      rcases h with hkept | hdoomed
      · by_cases hdestroys : op.Destroys s
        · exact .inr (Traced.does_doomed hdoes hdestroys)
        · exact .inl (hkept.next ⟨hdestroys, hstep⟩)
      · exact .inr (hdoomed.step hformed hdoes)
  exact hboth.2

/-- Over the life of a page every object is destroyed once and not used after that exactly if no `unset` is of
a slot that is set. -/
theorem lifetimes_iff (hc : c.triviallyCopyable = false) (hrun : TracedRun c (fun _ _ => True) size hist s) :
    Lifetimes (s.destruct c).trace ↔ TracedRun c (fun s op => ¬ op.Destroys s) size hist s := by
  have hformed := hrun.formed hc
  obtain ⟨hdoes, hlength⟩ := hformed.resize hc 0
  have hkeeps : ¬ (Page.Op.resize 0).Destroys s := fun hdestroys => hdestroys
  constructor
  · intro h
    rcases hrun.kept_or_doomed hc with hkept | hdoomed
    · exact hkept
    · obtain ⟨x, hx, -⟩ := hdoomed.step hformed hdoes h.orderly
      cases hx
  · intro hkept
    have hclean := (hkept.clean hc).step hformed hdoes hkeeps
    refine ⟨hclean.orderly, fun x hx => ?_⟩
    have hdead : Lifetime.alive (s.destruct c).trace x = false := by
      rw [← Bool.not_eq_true]
      intro halive
      cases (hclean.alive x).mp halive
    have hcount := hclean.orderly.count_destroy x
    rw [show Lifetime.alive (s.resize c 0).trace x = false from hdead] at hcount
    have hpos : 0 < (s.destruct c).trace.count (.construct x) := List.count_pos_iff.mpr hx
    have honce := (hformed.step hdoes hlength).constructed x
    rw [Traced.destruct] at hpos ⊢
    split at honce
    · rw [honce] at hcount
      exact hcount
    · omega

/-- A class type in slots of sixteen bytes. -/
def classLayout : Layout := ⟨false, 16, 8, by decide⟩

/-- A page for two values, with one of them set. -/
def oneSet : Traced Int := ⟨⟨[⟨5, true⟩, ⟨0, false⟩], 1, false, false⟩, [0, 1], 2, [.assign 0, .construct 1, .construct 0]⟩

/-- An `unset` of the other slot does nothing. -/
theorem lifetimes_iff_oneSet : Lifetimes (oneSet.destruct classLayout).trace := by
  have hset : TracedRun classLayout (fun s op => ¬ op.Destroys s) 2 [.set 5] oneSet := Run.start.next ⟨id, rfl⟩
  have hfree : ¬ (Page.Op.unset 1).Destroys oneSet := Bool.false_ne_true
  have hrun : TracedRun classLayout (fun s op => ¬ op.Destroys s) 2 [.unset 1, .set 5] oneSet :=
    hset.next ⟨hfree, rfl⟩
  exact (lifetimes_iff rfl (hrun.mono fun _ _ _ _ hstep => ⟨trivial, hstep.2⟩)).mpr hrun

def oneUnset : Traced Int :=
  ⟨⟨[⟨5, false⟩, ⟨0, false⟩], 0, true, false⟩, [0, 1], 2, [.destroy 0, .assign 0, .construct 1, .construct 0]⟩

/-- The value of a slot that is unset is destroyed again with the page. -/
theorem cleared_slot_destroyed_again :
    TracedRun classLayout (fun _ _ => True) 2 [.unset 0, .set 5] oneUnset ∧
      (oneUnset.destruct classLayout).trace.count (.destroy 0) = 2 ∧
      ¬ Lifetimes (oneUnset.destruct classLayout).trace := by
  have hcount : (oneUnset.destruct classLayout).trace.count (.destroy 0) = 2 := by decide
  refine ⟨(Run.start.next ⟨trivial, rfl⟩).next ⟨trivial, rfl⟩, hcount, fun h => ?_⟩
  have honce := h.once 0 (by decide)
  rw [hcount] at honce
  cases honce

end ManagedObject.Pages
