import ManagedObject.Lib.Run
import ManagedObject.Pages.Page

/-!
# Resizing a page

`resize` moves the slots into an array of another length and patches the count and the flags. Where `T` is
trivially copyable it passes `memcpy` the number of slots for the number of bytes; it does not count the set
slots again when it shrinks; and it clears `full` whenever it does not shrink.
-/

namespace ManagedObject.Pages

open Outcome Lib

/-- Whether `T` is trivially copyable, `sizeof(Set)`, and the offset of the flag in it. -/
structure Layout where
  triviallyCopyable : Bool
  sizeofSet : Nat
  offsetofSet : Nat
  offset_lt : offsetofSet < sizeofSet

variable {T : Type} {c : Layout} {p p' : Page T} {s i size : Nat}

/-- What follows the copy where `s < max`. -/
def Page.shrunk (p : Page T) (n : List (Slot T)) (s : Nat) : Page T :=
  let (used, full) := if p.used ≥ s then (s, true) else (p.used, p.full)
  ⟨n, used, used = 0, full⟩

/-- What follows the copy where `s >= max`. -/
def Page.grown (p : Page T) (n : List (Slot T)) : Page T := ⟨n, p.used, p.used = 0, false⟩

section
variable [Inhabited T]

def freshSlot : Slot T := { value := default }

/-- `new Set[s]` with the slots that `copied` names taken from the old array. -/
def copySlots (sets : List (Slot T)) (s : Nat) (copied : Nat → Bool) : List (Slot T) :=
  (List.range s).map fun i => if copied i then sets.getD i freshSlot else freshSlot

/-- `memcpy(n, sets, bytes)`. A slot whose flag is not among the bytes is left unset. -/
def memcpySlots (c : Layout) (sets : List (Slot T)) (s bytes : Nat) : List (Slot T) :=
  copySlots sets s fun i => i * c.sizeofSet + c.offsetofSet < bytes

/-- The loop of `n[i] = std::move(sets[i])`. -/
def moveSlots (sets : List (Slot T)) (s count : Nat) : List (Slot T) := copySlots sets s fun i => i < count

/-- `resize`. The array is null where `max` is 0; the test of it that comes second is never true. -/
def Page.resize (c : Layout) (p : Page T) (s : Nat) : Page T :=
  if s = 0 then ⟨[], 0, true, false⟩
  else if p.max = 0 then ⟨List.replicate s freshSlot, 0, true, false⟩
  else if c.triviallyCopyable then
    if s < p.max then p.shrunk (memcpySlots c p.sets s s) s
    else p.grown (memcpySlots c p.sets s p.max)
  else
    if s < p.max then p.shrunk (moveSlots p.sets s s) s
    else p.grown (moveSlots p.sets s p.max)

end

/-- The number of set slots below `s`. -/
def Page.below (p : Page T) (s : Nat) : Nat := (List.range s).countP fun i => (p.held i).isSome

/-- The contents below both lengths are kept and the rest is unset, and the count and the flags are right. -/
structure Resized (p p' : Page T) (s : Nat) : Prop where
  max : p'.max = s
  kept : ∀ i < s, i < p.max → p'.held i = p.held i
  fresh : ∀ i < s, p.max ≤ i → p'.held i = none
  used : p'.used = p'.sets.countP (·.set)
  empty : p'.empty = true ↔ p'.used = 0
  full : p'.full = true ↔ 0 < s ∧ p'.used = s

/-- The slot is copied, where the shorter array has `count` slots. -/
def Layout.copied (c : Layout) (count i : Nat) : Bool :=
  if c.triviallyCopyable then i * c.sizeofSet + c.offsetofSet < count else i < count

/-- The flags of the set slots are among the bytes that are copied. -/
def Page.Copyable (c : Layout) (p : Page T) (s : Nat) : Prop :=
  c.triviallyCopyable = true → ∀ i a, p.held i = some a → i < min s p.max →
    i * c.sizeofSet + c.offsetofSet < min s p.max

/-- The copy loses no slot, the count is that of the slots that are left, and a page that does not shrink is
not left full. -/
structure Page.Resizable (c : Layout) (p : Page T) (s : Nat) : Prop where
  bytes : p.Copyable c s
  used : (if s < p.max then min p.used s else p.used) = p.below s
  grown : p.max ≤ s → p.used ≠ s

/-- In every run a page that says it is full has counted up to its length at least. -/
def Page.Sane (p : Page T) : Prop := p.full = true → p.max ≤ p.used

/-- The page agrees with its count and flags, or it has never had a slot. -/
def Page.Intact (p : Page T) : Prop := p.Ok p.max ∨ p.sets = [] ∧ p.used = 0 ∧ p.full = false

/-- A page that agrees with its count can be resized if the copy loses no slot, a shrink cuts off no set slot
or leaves only such, and a page of the same length is not full. -/
structure Page.Fits (c : Layout) (p : Page T) (s : Nat) : Prop where
  bytes : p.Copyable c s
  shrunk : s < p.max → (∀ i, s ≤ i → p.held i = none) ∨ ∀ i < s, p.held i ≠ none
  same : s = p.max → ∃ i < s, p.held i = none

inductive Page.Op (T : Type)
  | set (value : T)
  | unset (index : Nat)
  | resize (s : Nat)

/-- A resize does what it should. -/
def Page.Op.Regular (c : Layout) (p : Page T) : Page.Op T → Prop
  | .resize s => s = 0 ∨ p.max = 0 ∨ p.Resizable c s
  | _ => True

/-! ### The set slots -/

theorem Page.held_of_le (hi : p.max ≤ i) : p.held i = none := by
  rw [Page.held, List.getElem?_eq_none hi]
  rfl

theorem Page.countP_eq_below (p : Page T) : p.sets.countP (·.set) = p.below p.max := by
  have hmap : p.sets.map (·.set) = (List.range p.max).map fun i => (p.held i).isSome := by
    apply List.ext_getElem
    · simp [Page.max]
    · intro i hi _
      rw [List.length_map] at hi
      rw [List.getElem_map, List.getElem_map, List.getElem_range, Page.held, List.getElem?_eq_getElem hi,
        Option.bind_some, Slot.held]
      cases p.sets[i].set <;> rfl
  calc p.sets.countP (·.set) = (p.sets.map (·.set)).countP id := by rw [List.countP_map]; rfl
    _ = p.below p.max := by rw [hmap, List.countP_map]; rfl

theorem Page.below_congr (h : ∀ i < s, p'.held i = p.held i) : p'.below s = p.below s := by
  rw [Page.below, Page.below]
  apply List.countP_congr
  intro i hi
  rw [h i (List.mem_range.mp hi)]

theorem Page.below_le (p : Page T) (s : Nat) : p.below s ≤ s := by
  have hle := List.countP_le_length (p := fun i => (p.held i).isSome) (l := List.range s)
  rwa [List.length_range] at hle

theorem Page.below_eq_self_iff : p.below s = s ↔ ∀ i < s, p.held i ≠ none := by
  have hlength := List.countP_eq_length (p := fun i => (p.held i).isSome) (l := List.range s)
  rw [List.length_range] at hlength
  rw [Page.below, hlength]
  simp [Option.isSome_iff_ne_none]

/-- The set slots from `s` on are those that are not below `s`. -/
theorem Page.below_eq_iff (hs : s ≤ i) : p.below i = p.below s ↔ ∀ k, s ≤ k → k < i → p.held k = none := by
  obtain ⟨d, rfl⟩ := Nat.exists_eq_add_of_le hs
  have hrest : p.below (s + d) = p.below s + (List.range d).countP fun k => (p.held (s + k)).isSome := by
    rw [Page.below, List.range_add, List.countP_append, List.countP_map]
    rfl
  rw [hrest, Nat.add_eq_left, List.countP_eq_zero]
  constructor
  · intro h k hle hlt
    have hk := h (k - s) (List.mem_range.mpr (by omega))
    rw [Nat.add_sub_cancel' hle] at hk
    simpa using hk
  · intro h k hk
    rw [List.mem_range] at hk
    rw [h (s + k) (by omega) (by omega)]
    exact Bool.false_ne_true

theorem Page.Ok.resizable_iff (hp : p.Ok p.max) : p.Resizable c s ↔ p.Fits c s := by
  have hused : p.used = p.below p.max := hp.used.trans p.countP_eq_below
  have hle := p.below_le p.max
  have hcut : s < p.max → (min p.used s = p.below s ↔
      (∀ i, s ≤ i → p.held i = none) ∨ ∀ i < s, p.held i ≠ none) := by
    intro hless
    have hrest : p.below p.max = p.below s ↔ ∀ i, s ≤ i → p.held i = none := by
      rw [Page.below_eq_iff (Nat.le_of_lt hless)]
      refine ⟨fun h i hi => ?_, fun h i hi _ => h i hi⟩
      rcases Nat.lt_or_ge i p.max with hlt | hge
      · exact h i hi hlt
      · exact Page.held_of_le hge
    rw [← hrest, ← Page.below_eq_self_iff, hused]
    have hbelow := p.below_le s
    have hmono : p.below s ≤ p.below p.max := by
      obtain ⟨d, hd⟩ := Nat.exists_eq_add_of_le (Nat.le_of_lt hless)
      rw [hd, Page.below, Page.below, List.range_add, List.countP_append]
      exact Nat.le_add_right _ _
    omega
  have hkept : p.max ≤ s → p.used = p.below s := by
    intro hge
    rw [hused, eq_comm, Page.below_eq_iff hge]
    exact fun k hk _ => Page.held_of_le hk
  have hfull : s = p.max → (p.used ≠ s ↔ ∃ i < s, p.held i = none) := by
    rintro rfl
    rw [hused, Ne, Page.below_eq_self_iff]
    simp
  constructor
  · intro h
    refine ⟨h.bytes, fun hless => ?_, fun heq => (hfull heq).mp (h.grown (Nat.le_of_eq heq.symm))⟩
    have hcount := h.used
    rw [if_pos hless] at hcount
    exact (hcut hless).mp hcount
  · intro h
    refine ⟨h.bytes, ?_, fun hge heq => ?_⟩
    · split
      · rename_i hless
        exact (hcut hless).mpr (h.shrunk hless)
      · rename_i hless
        exact hkept (Nat.le_of_not_lt hless)
    · have hmax : s = p.max := by omega
      exact (hfull hmax).mpr (h.same hmax) heq

/-! ### The copy -/

variable [Inhabited T]

theorem length_copySlots (sets : List (Slot T)) (s : Nat) (copied : Nat → Bool) :
    (copySlots sets s copied).length = s := by
  rw [copySlots, List.length_map, List.length_range]

theorem held_copySlots {copied : Nat → Bool} (hp' : p'.sets = copySlots p.sets s copied) (hi : i < s) :
    p'.held i = if copied i then p.held i else none := by
  rw [Page.held, hp', copySlots, List.getElem?_map, List.getElem?_range hi, Option.map_some, Option.bind_some]
  cases copied i with
  | false => rfl
  | true =>
    rw [if_pos rfl, if_pos rfl, Page.held, List.getD_eq_getElem?_getD]
    cases p.sets[i]? <;> rfl

/-- The four branches copy and patch alike. -/
theorem resize_eq (hs : s ≠ 0) (hmax : p.max ≠ 0) : p.resize c s =
    ⟨copySlots p.sets s (c.copied (min s p.max)), if s < p.max then min p.used s else p.used,
      (if s < p.max then min p.used s else p.used) = 0, s < p.max && (decide (s ≤ p.used) || p.full)⟩ := by
  have hcopied : ∀ count, (if c.triviallyCopyable = true then memcpySlots c p.sets s count
      else moveSlots p.sets s count) = copySlots p.sets s (c.copied count) := by
    intro count
    unfold Layout.copied
    cases c.triviallyCopyable <;> rfl
  have hshrunk : ∀ n, p.shrunk n s = ⟨n, min p.used s, min p.used s = 0, decide (s ≤ p.used) || p.full⟩ := by
    intro n
    by_cases hused : s ≤ p.used
    · simp [Page.shrunk, hused]
    · simp [Page.shrunk, hused, Nat.min_eq_left (Nat.le_of_not_le hused)]
  rw [Page.resize, if_neg hs, if_neg hmax]
  by_cases hless : s < p.max
  · simp only [hless, if_true, hshrunk, Nat.min_eq_left (Nat.le_of_lt hless), ← hcopied, decide_true,
      Bool.true_and]
    split <;> rfl
  · simp only [hless, if_false, Page.grown, Nat.min_eq_right (Nat.le_of_not_lt hless), ← hcopied, decide_false,
      Bool.false_and]
    split <;> rfl

theorem held_resize (hs : s ≠ 0) (hmax : p.max ≠ 0) (hi : i < s) :
    (p.resize c s).held i = if c.copied (min s p.max) i then p.held i else none := by
  rw [resize_eq hs hmax]
  exact held_copySlots rfl hi

theorem max_resize (hs : s ≠ 0) (hmax : p.max ≠ 0) : (p.resize c s).max = s := by
  rw [resize_eq hs hmax]
  exact length_copySlots _ _ _

/-- The copy loses no slot exactly if the flags of the set slots are copied. -/
theorem held_resize_iff (hs : s ≠ 0) (hmax : p.max ≠ 0) :
    (∀ i < s, (p.resize c s).held i = p.held i) ↔ p.Copyable c s := by
  constructor
  · intro h htrivial i a ha hi
    have hkept := h i (by omega)
    rw [held_resize hs hmax (by omega), ha, Layout.copied, if_pos htrivial] at hkept
    by_contra hlost
    simp [hlost] at hkept
  · intro h i hi
    rw [held_resize hs hmax hi]
    cases hheld : p.held i with
    | none => simp
    | some a =>
      have hlt : i < min s p.max := Nat.lt_min.mpr ⟨hi, Page.held_lt hheld⟩
      have hcopied : c.copied (min s p.max) i = true := by
        rw [Layout.copied]
        split
        · rename_i htrivial
          exact decide_eq_true (h htrivial i a hheld hlt)
        · exact decide_eq_true hlt
      rw [if_pos hcopied]

theorem Page.Sane.resized_iff (hp : p.Sane) (hs : s ≠ 0) (hmax : p.max ≠ 0) :
    Resized p (p.resize c s) s ↔ p.Resizable c s := by
  have hlength := max_resize (c := c) hs hmax
  have hused : (p.resize c s).used = if s < p.max then min p.used s else p.used := by rw [resize_eq hs hmax]
  have hfull : (p.resize c s).full = (s < p.max && (decide (s ≤ p.used) || p.full)) := by rw [resize_eq hs hmax]
  have hcount : (∀ i < s, (p.resize c s).held i = p.held i) →
      (p.resize c s).sets.countP (·.set) = p.below s := by
    intro hheld
    rw [Page.countP_eq_below, hlength, Page.below_congr hheld]
  constructor
  · intro h
    have hheld : ∀ i < s, (p.resize c s).held i = p.held i := by
      intro i hi
      rcases Nat.lt_or_ge i p.max with hlt | hge
      · exact h.kept i hi hlt
      · rw [h.fresh i hi hge, Page.held_of_le hge]
    refine ⟨(held_resize_iff hs hmax).mp hheld, ?_, fun hge heq => ?_⟩
    · rw [← hused, h.used, hcount hheld]
    · rw [if_neg (by omega)] at hused
      have htrue := h.full.mpr ⟨by omega, hused.trans heq⟩
      rw [hfull, decide_eq_false (by omega)] at htrue
      cases htrue
  · intro h
    have hheld := (held_resize_iff hs hmax).mpr h.bytes
    exact {
      max := hlength
      kept := fun i hi _ => hheld i hi
      fresh := fun i hi hge => by rw [hheld i hi, Page.held_of_le hge]
      used := by rw [hused, h.used, hcount hheld]
      empty := by rw [resize_eq hs hmax]; exact decide_eq_true_iff
      full := by
        have hgrown := h.grown
        rw [hfull, hused]
        by_cases hless : s < p.max
        · rw [if_pos hless]
          simp only [hless, decide_true, Bool.true_and, Bool.or_eq_true, decide_eq_true_eq]
          constructor
          · rintro (hle | hfull)
            · omega
            · have hmore := hp hfull
              omega
          · intro hcut
            omega
        · rw [if_neg hless]
          simp only [hless, decide_false, Bool.false_and, Bool.false_eq_true, false_iff]
          omega }

/-- Without slots before or after there is nothing to copy. -/
theorem resized_of_empty (h : s = 0 ∨ p.max = 0) : Resized p (p.resize c s) s := by
  by_cases hs : s = 0
  · subst hs
    constructor <;> simp [Page.resize, Page.max]
  · have hmax := h.resolve_left hs
    have hnew : p.resize c s = ⟨List.replicate s freshSlot, 0, true, false⟩ := by
      rw [Page.resize, if_neg hs, if_pos hmax]
    have hfree : ∀ i, (p.resize c s).held i = none := by
      intro i
      rw [hnew, Page.held, List.getElem?_replicate]
      split <;> rfl
    exact {
      max := by rw [hnew, Page.max, List.length_replicate]
      kept := fun i _ hi => by omega
      fresh := fun i _ _ => hfree i
      used := by rw [hnew, List.countP_replicate]; rfl
      empty := by simp [hnew]
      full := by simp [hnew]; omega }

/-! ### Runs -/

def Page.step (c : Layout) (p : Page T) : Page.Op T → Except Fault (Page T)
  | .set value => .ok (p.set value).2
  | .unset index => p.unset index
  | .resize s => .ok (p.resize c s)

abbrev PageRun (c : Layout) (allowed : Page T → Page.Op T → Prop) (size : Nat) : List (Page.Op T) → Page T → Prop :=
  Run (fun _ p op p' => allowed p op ∧ p.step c op = .ok p') (.new size)

variable {op : Page.Op T} {allowed : Page T → Page.Op T → Prop} {hist : List (Page.Op T)}

theorem Page.Sane.step (hp : p.Sane) (hstep : p.step c op = .ok p') : p'.Sane := by
  cases op with
  | set value =>
    cases hstep
    rcases Page.set_cases (p := p) value with hsame | ⟨i, s, -, -, hset⟩
    · rwa [hsame]
    · rw [Page.Sane, Page.max_set, hset]
      dsimp only
      intro hfull
      split at hfull
      · rename_i hlast
        exact Nat.le_of_eq hlast.symm
      · exact Nat.le_trans (hp hfull) (Nat.le_succ _)
  | unset index =>
    obtain ⟨s, -, ⟨-, rfl⟩ | ⟨-, rfl⟩⟩ := Page.unset_cases hstep
    · exact hp
    · intro hfull
      cases hfull
  | resize s =>
    cases hstep
    by_cases hempty : s = 0 ∨ p.max = 0
    · intro hfull
      have hresized := resized_of_empty (c := c) hempty
      rw [hresized.max]
      exact Nat.le_of_eq (hresized.full.mp hfull).2.symm
    · obtain ⟨hs, hmax⟩ := not_or.mp hempty
      rw [Page.Sane, max_resize hs hmax, resize_eq hs hmax]
      dsimp only
      intro hfull
      rw [Bool.and_eq_true, decide_eq_true_eq, Bool.or_eq_true, decide_eq_true_eq] at hfull
      obtain ⟨hless, hle | hfull⟩ := hfull
      · rw [if_pos hless]
        omega
      · have hmore := hp hfull
        rw [if_pos hless]
        omega

theorem PageRun.sane (hrun : PageRun c allowed size hist p) : p.Sane := by
  apply hrun.invariant fun _ p => p.Sane
  · intro hfull
    have hnew : (Page.new size : Page T).full = false := by
      rw [Page.new]
      split <;> rfl
    rw [hnew] at hfull
    cases hfull
  · intro hist p op p' hp hstep
    exact hp.step hstep.2

/-! ### Runs whose resizes do what they should -/

theorem Page.Intact.step (hp : p.Intact) (hsane : p.Sane) (hregular : op.Regular c p)
    (hstep : p.step c op = .ok p') : p'.Intact := by
  cases op with
  | set value =>
    cases hstep
    rcases Page.set_cases (p := p) value with hsame | ⟨i, s, hslot, hfree, hset⟩
    · rwa [hsame]
    · left
      obtain hok | ⟨hnil, -⟩ := hp
      · have hnotFull : p.full = false := by
          by_contra hfull
          rw [Bool.not_eq_false] at hfull
          have hcount : p.sets.countP (·.set) = p.sets.length := hok.used.symm.trans (hok.full.mp hfull)
          have hall := List.countP_eq_length.mp hcount s (List.mem_of_getElem? hslot)
          rw [hfree] at hall
          cases hall
        obtain ⟨i, p', hset', -, -, hok', -⟩ := hok.set hnotFull value
        rw [hset']
        rwa [hok'.max]
      · rw [hnil] at hslot
        cases hslot
  | unset index =>
    obtain ⟨s, hslot, ⟨-, rfl⟩ | ⟨hset, rfl⟩⟩ := Page.unset_cases hstep
    · exact hp
    · left
      obtain hok | ⟨hnil, -⟩ := hp
      · have hheld : p.held index = some s.value := by
          rw [Page.held, hslot, Option.bind_some, Slot.held, if_pos hset]
        obtain ⟨p', hunset, hok', -⟩ := hok.unset hheld
        rw [show p.unset index = _ from hstep] at hunset
        cases hunset
        rwa [hok'.max]
      · rw [hnil] at hslot
        cases hslot
  | resize s =>
    cases hstep
    have hresized : Resized p (p.resize c s) s := by
      by_cases hempty : s = 0 ∨ p.max = 0
      · exact resized_of_empty hempty
      · obtain ⟨hs, hmax⟩ := not_or.mp hempty
        exact (hsane.resized_iff hs hmax).mpr ((hregular.resolve_left hs).resolve_left hmax)
    by_cases hs : s = 0
    · subst hs
      exact .inr ⟨rfl, rfl, rfl⟩
    · left
      rw [hresized.max]
      refine ⟨hresized.max, hresized.used, hresized.empty, hresized.full.trans ?_⟩
      simp only [and_iff_right_iff_imp]
      omega

theorem PageRun.intact (hrun : PageRun c (Page.Op.Regular c) size hist p) : p.Intact := by
  have hboth : p.Intact ∧ p.Sane := by
    apply hrun.invariant fun _ p => p.Intact ∧ p.Sane
    · have hstart : PageRun c (Page.Op.Regular c) size [] (Page.new size : Page T) := .start
      refine ⟨?_, hstart.sane⟩
      by_cases hsize : size = 0
      · subst hsize
        exact .inr ⟨rfl, rfl, rfl⟩
      · have hok : (Page.new size : Page T).Ok size := Page.new_ok (by omega)
        left
        rwa [hok.max]
    · intro hist p op p' ⟨hintact, hsane⟩ ⟨hregular, hstep⟩
      exact ⟨hintact.step hsane hregular hstep, hsane.step hstep⟩
  exact hboth.1

/-- A resize does what it should exactly if there is nothing to copy or the page is one that can be resized.
In runs in which every resize has done so, that depends on the set slots only. -/
theorem resize_keeps_iff (hrun : PageRun c (fun _ _ => True) size hist p) (s : Nat) :
    (Resized p (p.resize c s) s ↔ s = 0 ∨ p.max = 0 ∨ p.Resizable c s) ∧
      (PageRun c (Page.Op.Regular c) size hist p →
        (Resized p (p.resize c s) s ↔ s = 0 ∨ p.max = 0 ∨ p.Fits c s)) := by
  have hiff : Resized p (p.resize c s) s ↔ s = 0 ∨ p.max = 0 ∨ p.Resizable c s := by
    by_cases hempty : s = 0 ∨ p.max = 0
    · rw [← or_assoc]
      exact iff_of_true (resized_of_empty hempty) (.inl hempty)
    · obtain ⟨hs, hmax⟩ := not_or.mp hempty
      rw [hrun.sane.resized_iff hs hmax]
      simp [hs, hmax]
  refine ⟨hiff, fun hregular => ?_⟩
  rw [hiff]
  obtain hok | ⟨hnil, -⟩ := hregular.intact
  · rw [hok.resizable_iff]
  · have hmax : p.max = 0 := by rw [Page.max, hnil]; rfl
    simp [hmax]

/-- `int` in slots of eight bytes. -/
def intLayout : Layout := ⟨true, 8, 4, by decide⟩

/-- A page for two values, with one of them set. -/
def oneOfTwo : Page Int := ⟨[⟨5, true⟩, ⟨0, false⟩], 1, false, false⟩

theorem oneOfTwo_run (allowed : Page Int → Page.Op Int → Prop) (hset : allowed (Page.new 2) (.set 5)) :
    PageRun intLayout allowed 2 [.set 5] oneOfTwo := Run.start.next ⟨hset, rfl⟩

theorem resize_keeps_iff_oneOfTwo :
    (Resized oneOfTwo (oneOfTwo.resize intLayout 1) 1 ↔
        1 = 0 ∨ oneOfTwo.max = 0 ∨ oneOfTwo.Resizable intLayout 1) ∧
      (PageRun intLayout (Page.Op.Regular intLayout) 2 [.set 5] oneOfTwo →
        (Resized oneOfTwo (oneOfTwo.resize intLayout 1) 1 ↔
          1 = 0 ∨ oneOfTwo.max = 0 ∨ oneOfTwo.Fits intLayout 1)) :=
  resize_keeps_iff (oneOfTwo_run _ trivial) 1

/-- A page of two slots is made one of four, of the first slot two bytes are copied, and the value is lost. -/
theorem growing_loses_value :
    PageRun intLayout (fun _ _ => True) 2 [.set 5] oneOfTwo ∧ oneOfTwo.held 0 = some 5 ∧
      (oneOfTwo.resize intLayout 4).held 0 = none ∧ (oneOfTwo.resize intLayout 4).used = 1 ∧
      ¬ Resized oneOfTwo (oneOfTwo.resize intLayout 4) 4 := by
  refine ⟨oneOfTwo_run _ trivial, rfl, rfl, rfl, fun h => ?_⟩
  have hkept := h.kept 0 (by decide) (by decide)
  exact absurd hkept (by decide)

end ManagedObject.Pages
