import ManagedObject.Metadata.Table
import ManagedObject.Lib.Outcome

/-!
# String keys

String objects, the hash of their bytes and their comparison. `managed_obj_metadata_make_string` takes the
length and copies one byte more, the terminator. The hash walks `length` bytes, in a loop unrolled four
times and entered in the middle; the comparison is that of the lengths and then `strcmp`, which stops at the
first NUL that both strings have.
-/

namespace ManagedObject.Metadata

open Format Outcome

/-- `managed_obj_metadata_string_s`. The content of a string never changes, so a reference carries it; `id`
is the time of the allocation and tells objects apart. -/
structure MetadataString where
  id : Nat
  length : Nat
  string : List (BitVec 8)
  deriving DecidableEq, Repr

/-- The bytes that count: those before the terminator. -/
def MetadataString.content (s : MetadataString) : List (BitVec 8) := s.string.take s.length

/-- The references that a table of strings meets. -/
inductive Object
  | null
  | unused
  | deleted
  | string (s : MetadataString)
  deriving DecidableEq, Repr

/-- `managed_obj_metadata_make_string`. The list is what can be read at the pointer `string`. -/
def makeString (reserve : Nat → Nat → Bool) (now length : Nat) (string : Option (List (BitVec 8))) :
    Except Stop MetadataString :=
  let size := alignObj (wrap (offsetofString + length + 1))
  if reserve now size then
    let copied := wrap (length + 1)
    if offsetofString + copied ≤ size then
      match string with
      | some source =>
        if copied ≤ source.length then .ok { id := now, length, string := source.take copied }
        else .error .overrun
      | none => .ok { id := now, length, string := List.replicate copied 0 }
    else .error .overrun
  else .error .outOfMemory

/-! ### The hash -/

/-- `(unsigned long)c`, where `char` is signed or not. -/
def ofChar (signed : Bool) (c : BitVec 8) : BitVec 64 := if signed then c.signExtend 64 else c.zeroExtend 64

def mixTop (h c : BitVec 64) : BitVec 64 := h + ((c <<< 17) ^^^ (c <<< 11) ^^^ (c <<< 5) ^^^ (c >>> 1))
def mixThree (h c : BitVec 64) : BitVec 64 := h ^^^ ((c <<< 14) + (c <<< 7) + (c <<< 4) + c)
def mixTwo (h c : BitVec 64) : BitVec 64 := h ^^^ ((~~~c <<< 11) ||| ((c <<< 3) ^^^ (c >>> 1)))
def mixOne (h c : BitVec 64) : BitVec 64 := h - ((c <<< 16) ||| (c <<< 9) ||| (c <<< 2) ||| (c &&& 3))

inductive Label
  | top
  | three
  | two
  | one
  | zero
  deriving DecidableEq, Repr

/-- The variables of the loop, and the indices that were read, in order. -/
structure HashState where
  h : BitVec 64
  i : Nat
  reads : List Nat
  deriving DecidableEq, Repr

/-- `c=(unsigned long)s[i++]`, and what is done to `h` with it. -/
def HashState.take (signed : Bool) (s : List (BitVec 8)) (mix : BitVec 64 → BitVec 64 → BitVec 64)
    (st : HashState) : Except Stop HashState :=
  match s[st.i]? with
  | some c => .ok { h := mix st.h (ofChar signed c), i := wrap (st.i + 1), reads := st.reads ++ [st.i] }
  | none => .error .overrun

/-- The loop of `managed_obj_metadata_hash` from a place in it, given up after `fuel` labels. -/
def hashLoop (signed : Bool) (s : List (BitVec 8)) (length : Nat) :
    Nat → Label → HashState → Except Stop HashState
  | 0, _, _ => .error .diverges
  | fuel + 1, .top, st => do hashLoop signed s length fuel .three (← st.take signed s mixTop)
  | fuel + 1, .three, st => do hashLoop signed s length fuel .two (← st.take signed s mixThree)
  | fuel + 1, .two, st => do hashLoop signed s length fuel .one (← st.take signed s mixTwo)
  | fuel + 1, .one, st => do hashLoop signed s length fuel .zero (← st.take signed s mixOne)
  | fuel + 1, .zero, st => if st.i < length then hashLoop signed s length fuel .top st else .ok st

/-- `switch(length % 4)`. -/
def hashEntry (length : Nat) : Label :=
  match length % 4 with
  | 3 => .three
  | 2 => .two
  | 1 => .one
  | _ => .zero

def metadataHash (signed : Bool) (s : List (BitVec 8)) (length : Nat) : Except Stop HashState :=
  hashLoop signed s length (5 * (length / 4) + 4) (hashEntry length) ⟨0, 0, []⟩

/-- The object that `MANAGED_OBJECT_TYPE` says is a string. There is no object at `NULL`. -/
def Object.asString : Object → Except Stop (Option MetadataString)
  | .null => .error .overrun
  | .unused | .deleted => .ok none
  | .string s => .ok (some s)

/-- `managed_obj_metadata_string_hash`; `managed_obj_error` aborts as a failed `AVER` does. -/
def stringHash (signed : Bool) (obj : Object) : Except Stop (BitVec 64) := do
  match ← obj.asString with
  | none => throw .aver
  | some s =>
    let st ← metadataHash signed s.string s.length
    return st.h

/-! ### The comparison -/

/-- `0 == strcmp(s, t)`, on the bytes that belong to the two strings. -/
def strcmpZero : List (BitVec 8) → List (BitVec 8) → Except Stop Bool
  | a :: s, b :: t => if a ≠ b then .ok false else if a = 0 then .ok true else strcmpZero s t
  | _, _ => .error .overrun

def stringEqualp (obj1 obj2 : Object) : Except Stop Bool := do
  if obj1 = obj2 then return true
  match ← obj1.asString with
  | none => return false
  | some s =>
    match ← obj2.asString with
    | none => return false
    | some t => if s.length = t.length then strcmpZero s.string t.string else return false

/-! ### What the hash computes -/

/-- A hash with four rules, one for each place in a group of four bytes, and the value it starts from. -/
structure Rules (β : Type) where
  start : β
  top : β → β → β
  three : β → β → β
  two : β → β → β
  one : β → β → β

section
variable {β γ : Type}

def Rules.tail (R : Rules β) : List β → β
  | [c, c', c''] => R.one (R.two (R.three R.start c) c') c''
  | [c, c'] => R.one (R.two R.start c) c'
  | [c] => R.one R.start c
  | _ => R.start

def Rules.groups (R : Rules β) : List β → β → β
  | a :: b :: c :: d :: rest, h => R.groups rest (R.one (R.two (R.three (R.top h a) b) c) d)
  | _, h => h

/-- First the tail, then the groups. -/
def Rules.fold (R : Rules β) (cs : List β) : β :=
  R.groups (cs.drop (cs.length % 4)) (R.tail (cs.take (cs.length % 4)))

/-- `f` takes the rules to other ones. -/
structure Rules.Maps (f : β → γ) (R : Rules β) (R' : Rules γ) : Prop where
  start : f R.start = R'.start
  top : ∀ h c, f (R.top h c) = R'.top (f h) (f c)
  three : ∀ h c, f (R.three h c) = R'.three (f h) (f c)
  two : ∀ h c, f (R.two h c) = R'.two (f h) (f c)
  one : ∀ h c, f (R.one h c) = R'.one (f h) (f c)

variable {f : β → γ} {R : Rules β} {R' : Rules γ}

theorem Rules.Maps.tail (h : R.Maps f R') (cs : List β) : f (R.tail cs) = R'.tail (cs.map f) := by
  rcases cs with _ | ⟨a, _ | ⟨b, _ | ⟨c, _ | ⟨d, cs⟩⟩⟩⟩
  case nil => exact h.start
  case cons.nil => simp only [Rules.tail, List.map_cons, List.map_nil, h.one, h.start]
  case cons.cons.nil => simp only [Rules.tail, List.map_cons, List.map_nil, h.one, h.two, h.start]
  case cons.cons.cons.nil => simp only [Rules.tail, List.map_cons, List.map_nil, h.one, h.two, h.three, h.start]
  case cons.cons.cons.cons => exact h.start

theorem Rules.Maps.groups (h : R.Maps f R') (cs : List β) (x : β) :
    f (R.groups cs x) = R'.groups (cs.map f) (f x) := by
  induction cs, x using Rules.groups.induct R with
  | case1 a b c d rest x ih => rw [Rules.groups, ih, h.one, h.two, h.three, h.top]; rfl
  | case2 cs x hshort =>
    rcases cs with _ | ⟨a, _ | ⟨b, _ | ⟨c, _ | ⟨d, cs⟩⟩⟩⟩
    case cons.cons.cons.cons => exact absurd rfl (hshort a b c d cs)
    all_goals rfl

theorem Rules.Maps.fold (h : R.Maps f R') (cs : List β) : f (R.fold cs) = R'.fold (cs.map f) := by
  rw [Rules.fold, Rules.fold, h.groups, h.tail, List.map_drop, List.map_take, List.length_map]

end

def mixRules : Rules (BitVec 64) where
  start := 0
  top := mixTop
  three := mixThree
  two := mixTwo
  one := mixOne

/-- The rules as operations on numbers modulo `2 ^ 64`: `h` plus the xor of the multiples `2 ^ 17 c`, `2 ^ 11 c` and
`2 ^ 5 c` and the half of `c`, and so on. -/
def hashRules : Rules Nat where
  start := 0
  top h c := (h + (c * 2 ^ 17 % 2 ^ 64 ^^^ c * 2 ^ 11 % 2 ^ 64 ^^^ c * 2 ^ 5 % 2 ^ 64 ^^^ c / 2)) % 2 ^ 64
  three h c := h ^^^ c * (2 ^ 14 + 2 ^ 7 + 2 ^ 4 + 1) % 2 ^ 64
  two h c := h ^^^ ((2 ^ 64 - 1 - c) * 2 ^ 11 % 2 ^ 64 ||| (c * 2 ^ 3 % 2 ^ 64 ^^^ c / 2))
  one h c := (2 ^ 64 + h - (c * 2 ^ 16 % 2 ^ 64 ||| c * 2 ^ 9 % 2 ^ 64 ||| c * 2 ^ 2 % 2 ^ 64 ||| c % 4)) % 2 ^ 64

/-- A char as an unsigned long: from 128 on a signed one is negative. -/
def charValue (signed : Bool) (c : BitVec 8) : Nat :=
  if signed && 128 ≤ c.toNat then c.toNat + (2 ^ 64 - 2 ^ 8) else c.toNat

def hashReference (signed : Bool) (s : List (BitVec 8)) : Nat := hashRules.fold (s.map (charValue signed))

theorem mixRules_maps : mixRules.Maps BitVec.toNat hashRules where
  start := rfl
  top h c := by
    simp only [mixRules, hashRules, mixTop, BitVec.toNat_add, BitVec.toNat_xor, BitVec.toNat_shiftLeft,
      BitVec.toNat_ushiftRight, Nat.shiftLeft_eq, Nat.shiftRight_eq_div_pow, pow_one]
  three h c := by
    have hsum : (c.toNat * 2 ^ 14 % 2 ^ 64 + c.toNat * 2 ^ 7 % 2 ^ 64) % 2 ^ 64 =
        c.toNat * (2 ^ 14 + 2 ^ 7) % 2 ^ 64 := by
      omega
    simp only [mixRules, hashRules, mixThree, BitVec.toNat_add, BitVec.toNat_xor, BitVec.toNat_shiftLeft,
      Nat.shiftLeft_eq, hsum]
    congr 1
    omega
  two h c := by
    simp only [mixRules, hashRules, mixTwo, BitVec.toNat_or, BitVec.toNat_not, BitVec.toNat_xor,
      BitVec.toNat_shiftLeft, BitVec.toNat_ushiftRight, Nat.shiftLeft_eq, Nat.shiftRight_eq_div_pow, pow_one]
  one h c := by
    have hlow : (c &&& 3).toNat = c.toNat % 4 := by
      rw [BitVec.toNat_and]
      exact Nat.and_two_pow_sub_one_eq_mod c.toNat 2
    have hlt := ((c <<< 16) ||| (c <<< 9) ||| (c <<< 2) ||| (c &&& 3)).isLt
    change (h - ((c <<< 16) ||| (c <<< 9) ||| (c <<< 2) ||| (c &&& 3))).toNat = _
    rw [BitVec.toNat_sub]
    simp only [BitVec.toNat_or, BitVec.toNat_shiftLeft, Nat.shiftLeft_eq, hlow] at hlt ⊢
    rw [← Nat.sub_add_comm (Nat.le_of_lt hlt)]
    rfl

theorem toNat_ofChar (signed : Bool) (c : BitVec 8) : (ofChar signed c).toNat = charValue signed c := by
  have hc := c.isLt
  have hwide : (c.setWidth 64).toNat = c.toNat := by
    rw [BitVec.toNat_setWidth]
    omega
  cases signed with
  | false => exact hwide
  | true =>
    rw [ofChar, charValue, if_pos rfl, BitVec.toNat_signExtend, hwide, BitVec.msb_eq_decide]
    simp only [Bool.true_and]
    split <;> rfl

/-- The bytes of a string as the hash sees them. -/
def chars (signed : Bool) (s : List (BitVec 8)) (length : Nat) : List (BitVec 64) :=
  (s.take length).map (ofChar signed)

theorem toNat_fold_chars (signed : Bool) (s : List (BitVec 8)) (length : Nat) :
    (mixRules.fold (chars signed s length)).toNat = hashReference signed (s.take length) := by
  rw [mixRules_maps.fold, hashReference, chars, List.map_map]
  congr 1
  exact List.map_congr_left fun c _ => toNat_ofChar signed c

variable {signed : Bool} {s t : List (BitVec 8)} {length i : Nat} {st : HashState}
  {mix : BitVec 64 → BitVec 64 → BitVec 64}

theorem chars_length (hs : length ≤ s.length) : (chars signed s length).length = length := by
  rw [chars, List.length_map, List.length_take, Nat.min_eq_left hs]

/-- Inside the length there is a byte to take. -/
theorem exists_char (signed : Bool) (hs : length ≤ s.length) (hi : i < length) :
    ∃ c, s[i]? = some c ∧
      (chars signed s length).drop i = ofChar signed c :: (chars signed s length).drop (i + 1) := by
  have hlt : i < s.length := by omega
  refine ⟨s[i], List.getElem?_eq_getElem hlt, ?_⟩
  rw [List.drop_eq_getElem_cons (by rw [chars_length hs]; exact hi)]
  simp only [chars, List.getElem_map, List.getElem_take]

theorem take_eq {c : BitVec 8} (hc : s[i]? = some c) (hi : i + 1 < 2 ^ 64) (h : BitVec 64)
    (reads : List Nat) : HashState.take signed s mix ⟨h, i, reads⟩ =
      .ok ⟨mix h (ofChar signed c), i + 1, reads ++ [i]⟩ := by
  rw [HashState.take, hc, wrap_of_lt hi]

/-- How many bytes are taken from a place in the loop to its bottom. -/
def Label.left : Label → Nat
  | .top => 4
  | .three => 3
  | .two => 2
  | .one => 1
  | .zero => 0

/-- What these bytes do to `h`. -/
def Label.fall : Label → List (BitVec 64) → BitVec 64 → BitVec 64
  | .top, c :: cs, h => fall .three cs (mixTop h c)
  | .three, c :: cs, h => fall .two cs (mixThree h c)
  | .two, c :: cs, h => fall .one cs (mixTwo h c)
  | .one, c :: cs, h => fall .zero cs (mixOne h c)
  | _, _, h => h

/-- Entered at a label, the loop falls through to its bottom and takes the bytes on the way. -/
def Falls (signed : Bool) (s : List (BitVec 8)) (length : Nat) (lab : Label) : Prop :=
  ∀ (fuel i : Nat) (h : BitVec 64) (reads : List Nat), i + lab.left ≤ length →
    hashLoop signed s length (fuel + lab.left) lab ⟨h, i, reads⟩ =
      hashLoop signed s length fuel .zero ⟨lab.fall ((chars signed s length).drop i) h, i + lab.left,
        reads ++ List.range' i lab.left⟩

variable {lab next : Label}

theorem falls_zero : Falls signed s length .zero := by
  intro fuel i h reads _
  have hfall : ∀ cs, Label.zero.fall cs h = h := fun cs => by cases cs <;> rfl
  simp [Label.left, hfall]

/-- A label whose code takes one byte and falls through to the next label. -/
theorem Falls.step (hs : length ≤ s.length) (hlength : length < 2 ^ 64) (hnext : Falls signed s length next)
    (hloop : ∀ fuel st, hashLoop signed s length (fuel + 1) lab st =
      st.take signed s mix >>= hashLoop signed s length fuel next)
    (hfall : ∀ c cs h, lab.fall (c :: cs) h = next.fall cs (mix h c)) (hleft : lab.left = next.left + 1) :
    Falls signed s length lab := by
  intro fuel i h reads hi
  rw [hleft] at hi ⊢
  obtain ⟨c, hc, hdrop⟩ := exists_char signed hs (show i < length by omega)
  rw [← Nat.add_assoc, hloop, take_eq hc (by omega), ok_bind, hnext _ _ _ _ (by omega), hdrop, hfall,
    List.range'_succ, List.append_assoc, Nat.add_assoc, Nat.add_comm 1]
  rfl

theorem falls (hs : length ≤ s.length) (hlength : length < 2 ^ 64) (lab : Label) :
    Falls signed s length lab := by
  have hone : Falls signed s length .one :=
    falls_zero.step hs hlength (fun _ _ => rfl) (fun _ _ _ => rfl) rfl
  have htwo : Falls signed s length .two := hone.step hs hlength (fun _ _ => rfl) (fun _ _ _ => rfl) rfl
  have hthree : Falls signed s length .three := htwo.step hs hlength (fun _ _ => rfl) (fun _ _ _ => rfl) rfl
  cases lab with
  | top => exact hthree.step hs hlength (fun _ _ => rfl) (fun _ _ _ => rfl) rfl
  | three => exact hthree
  | two => exact htwo
  | one => exact hone
  | zero => exact falls_zero

theorem hashGroups_eq {cs : List (BitVec 64)} (hcs : 4 ≤ cs.length) (h : BitVec 64) :
    mixRules.groups cs h = mixRules.groups (cs.drop 4) (Label.top.fall cs h) := by
  rcases cs with _ | ⟨a, _ | ⟨b, _ | ⟨c, _ | ⟨d, cs⟩⟩⟩⟩
  case cons.cons.cons.cons =>
    rw [Rules.groups]
    cases cs <;> rfl
  all_goals simp at hcs

/-- From the bottom test on, the loop walks the groups of four that are left. -/
theorem hashLoop_groups (hs : length ≤ s.length) (hlength : length < 2 ^ 64) {n : Nat} :
    ∀ {fuel i : Nat} {h : BitVec 64} {reads : List Nat}, i + 4 * n = length → 5 * n < fuel →
      hashLoop signed s length fuel .zero ⟨h, i, reads⟩ =
        .ok ⟨mixRules.groups ((chars signed s length).drop i) h, length, reads ++ List.range' i (4 * n)⟩ := by
  induction n with
  | zero =>
    intro fuel i h reads hi hfuel
    obtain ⟨f, rfl⟩ : ∃ f, fuel = f + 1 := ⟨fuel - 1, by omega⟩
    have hend : (chars signed s length).drop i = [] :=
      List.drop_eq_nil_of_le (by rw [chars_length hs]; omega)
    rw [hashLoop, if_neg (by dsimp only; omega), hend]
    simp [Rules.groups, show i = length by omega]
  | succ n ih =>
    intro fuel i h reads hi hfuel
    obtain ⟨f, rfl⟩ : ∃ f, fuel = f + 4 + 1 := ⟨fuel - 5, by omega⟩
    have hround : hashLoop signed s length (f + 4) .top ⟨h, i, reads⟩ = _ :=
      falls hs hlength .top f i h reads (show i + 4 ≤ length by omega)
    have hgroup : 4 ≤ ((chars signed s length).drop i).length := by
      rw [List.length_drop, chars_length hs]
      omega
    rw [hashLoop, if_pos (by dsimp only; omega), hround, ih (show i + Label.top.left + 4 * n = length by simp only [Label.left]; omega) (by omega),
      hashGroups_eq hgroup, List.drop_drop]
    simp only [Label.left, List.append_assoc, List.range'_append_1, Nat.mul_succ, Nat.add_comm 4]

/-- The rules of the tail are those from the label at which the loop is entered. -/
theorem hashTail_eq {cs : List (BitVec 64)} (hlab : lab ≠ .top) (hcs : lab.left ≤ cs.length) :
    mixRules.tail (cs.take lab.left) = lab.fall cs 0 := by
  cases lab with
  | top => exact absurd rfl hlab
  | three =>
    rcases cs with _ | ⟨a, _ | ⟨b, _ | ⟨c, cs⟩⟩⟩
    case cons.cons.cons => cases cs <;> rfl
    all_goals simp [Label.left] at hcs
  | two =>
    rcases cs with _ | ⟨a, _ | ⟨b, cs⟩⟩
    case cons.cons => cases cs <;> rfl
    all_goals simp [Label.left] at hcs
  | one =>
    rcases cs with _ | ⟨a, cs⟩
    case cons => cases cs <;> rfl
    simp [Label.left] at hcs
  | zero => cases cs <;> rfl

theorem hashEntry_left (length : Nat) : (hashEntry length).left = length % 4 ∧ hashEntry length ≠ .top := by
  have hcases : length % 4 = 0 ∨ length % 4 = 1 ∨ length % 4 = 2 ∨ length % 4 = 3 := by omega
  rcases hcases with hr | hr | hr | hr <;> simp [hashEntry, hr, Label.left]

/-- The hash reads every byte once, in order, and folds them by the rules of the tail and the groups. -/
theorem metadataHash_eq (hs : length ≤ s.length) (hlength : length < 2 ^ 64) :
    metadataHash signed s length =
      .ok ⟨mixRules.fold (chars signed s length), length, List.range length⟩ := by
  obtain ⟨hleft, hentry⟩ := hashEntry_left length
  have hsplit : length % 4 + 4 * (length / 4) = length := Nat.mod_add_div length 4
  have hchars : (chars signed s length).length = length := chars_length hs
  have htail := hashTail_eq hentry (show (hashEntry length).left ≤ (chars signed s length).length by omega)
  have hfuel : 5 * (length / 4) + 4 = 5 * (length / 4) + 4 - length % 4 + (hashEntry length).left := by omega
  have hrange : List.range length =
      List.range' 0 (length % 4) ++ List.range' (0 + length % 4) (4 * (length / 4)) := by
    rw [List.range'_append_1, hsplit, List.range_eq_range']
  rw [metadataHash, hfuel, falls hs hlength (hashEntry length) _ _ _ _ (by omega), hleft, Nat.zero_add,
    hashLoop_groups hs hlength hsplit (by omega), Rules.fold, hchars, ← hleft, htail, hleft, hrange,
    Nat.zero_add]
  rfl

/-- The hash of a string returns with `i` at the length, after one read of every byte in increasing order and of
nothing else, and its value is that of the reference. -/
theorem hash_reads_once (signed : Bool) (hs : length ≤ s.length) (hlength : length < 2 ^ 64) :
    ∃ st, metadataHash signed s length = .ok st ∧ st.i = length ∧ st.reads = List.range length ∧
      st.h.toNat = hashReference signed (s.take length) := by
  have hhash : metadataHash signed s length = _ := metadataHash_eq hs hlength
  exact ⟨_, hhash, rfl, rfl, toNat_fold_chars signed s length⟩

/-- `"hello"` without its terminator. -/
theorem hash_reads_once_hello : ∃ st, metadataHash true [104, 101, 108, 108, 111] 5 = .ok st ∧ st.i = 5 ∧
    st.reads = List.range 5 ∧ st.h.toNat = 18446744073694352585 := by
  obtain ⟨st, hhash, hi, hreads, hh⟩ :=
    hash_reads_once (s := [104, 101, 108, 108, 111]) true (Nat.le_refl 5) (by decide)
  exact ⟨st, hhash, hi, hreads, hh.trans rfl⟩

/-! ### Where `strcmp` stops -/

theorem strcmpZero_true (s t : List (BitVec 8)) : strcmpZero s t = .ok true ↔
    ∃ i : Nat, s[i]? = some 0 ∧ t[i]? = some 0 ∧ ∀ j < i, s[j]? = t[j]? := by
  induction s, t using strcmpZero.induct with
  | case1 a s b t hne =>
    rw [strcmpZero, if_pos hne]
    simp only [Except.ok.injEq, Bool.false_eq_true, false_iff, not_exists]
    intro i hstop
    cases i with
    | zero => simp_all
    | succ i => exact hne (by simpa using hstop.2.2 0 (Nat.succ_pos i))
  | case2 s b t hsame =>
    rw [strcmpZero, if_neg hsame, if_pos rfl]
    have hb : 0 = b := Decidable.not_not.mp hsame
    subst hb
    simp only [true_iff]
    exact ⟨0, rfl, rfl, fun j hj => absurd hj (Nat.not_lt_zero j)⟩
  | case3 a s b t hsame hzero ih =>
    rw [strcmpZero, if_neg hsame, if_neg hzero, ih]
    have hab : a = b := Decidable.not_not.mp hsame
    subst hab
    constructor
    · intro ⟨i, hs, ht, hbelow⟩
      refine ⟨i + 1, by simpa using hs, by simpa using ht, fun j hj => ?_⟩
      cases j with
      | zero => rfl
      | succ j => simpa using hbelow j (by omega)
    · intro ⟨i, hs, ht, hbelow⟩
      cases i with
      | zero => exact absurd (by simpa using hs) hzero
      | succ i =>
        refine ⟨i, by simpa using hs, by simpa using ht, fun j hj => ?_⟩
        simpa using hbelow (j + 1) (by omega)
  | case4 s t hend =>
    rw [strcmpZero]
    · simp only [reduceCtorEq, false_iff, not_exists]
      intro i hstop
      cases s with
      | nil => simp at hstop
      | cons a s =>
        cases t with
        | nil => simp at hstop
        | cons b t => exact hend a s b t rfl rfl
    · exact hend

/-- `strcmp` sees a difference that no common NUL precedes. -/
theorem strcmpZero_false (s t : List (BitVec 8)) : strcmpZero s t = .ok false ↔
    ∃ i < min s.length t.length, s[i]? ≠ t[i]? ∧ ∀ j < i, ¬ (s[j]? = some 0 ∧ t[j]? = some 0) := by
  induction s, t using strcmpZero.induct with
  | case1 a s b t hne =>
    rw [strcmpZero, if_pos hne]
    simp only [true_iff]
    exact ⟨0, by simp, by simpa using hne, fun j hj => absurd hj (Nat.not_lt_zero j)⟩
  | case2 s b t hsame =>
    rw [strcmpZero, if_neg hsame, if_pos rfl]
    have hb : 0 = b := Decidable.not_not.mp hsame
    subst hb
    simp only [Except.ok.injEq, Bool.true_eq_false, false_iff, not_exists]
    intro i ⟨_, hne, hbelow⟩
    cases i with
    | zero => exact hne rfl
    | succ i => exact hbelow 0 (Nat.succ_pos i) ⟨rfl, rfl⟩
  | case3 a s b t hsame hzero ih =>
    rw [strcmpZero, if_neg hsame, if_neg hzero, ih]
    have hab : a = b := Decidable.not_not.mp hsame
    subst hab
    constructor
    · intro ⟨i, hi, hne, hbelow⟩
      refine ⟨i + 1, by simp only [List.length_cons]; omega, by simpa using hne, fun j hj => ?_⟩
      cases j with
      | zero => simpa using hzero
      | succ j => simpa using hbelow j (by omega)
    · intro ⟨i, hi, hne, hbelow⟩
      cases i with
      | zero => exact absurd rfl hne
      | succ i =>
        simp only [List.length_cons] at hi
        refine ⟨i, by omega, by simpa using hne, fun j hj => ?_⟩
        simpa using hbelow (j + 1) (by omega)
  | case4 s t hend =>
    rw [strcmpZero]
    · simp only [reduceCtorEq, false_iff, not_exists]
      intro i ⟨hi, _⟩
      cases s with
      | nil => simp at hi
      | cons a s =>
        cases t with
        | nil => simp at hi
        | cons b t => exact hend a s b t rfl rfl
    · exact hend

/-! ### Equal keys -/

structure MetadataString.Made (a : MetadataString) : Prop where
  length_lt : a.length < 2 ^ 64
  string : a.string.length = wrap (a.length + 1)

/-- The comparison of two string objects decides whether their contents are the same, and strings that
compare equal have one hash. -/
structure ConsistentKeys (signed : Bool) (a b : MetadataString) : Prop where
  equalp : ∃ r, stringEqualp (.string a) (.string b) = .ok r ∧
    (r = true ↔ a.length = b.length ∧ a.content = b.content)
  hash : stringEqualp (.string a) (.string b) = .ok true →
    stringHash signed (.string a) = stringHash signed (.string b)

/-- What `strcmp` needs to tell two strings apart, or to end on them: they are one object or of different
lengths, or they differ inside the length before any NUL that both have, or their contents are the same and
both have a NUL at one place, the terminators included. -/
def Comparable (a b : MetadataString) : Prop :=
  a = b ∨ a.length ≠ b.length ∨
  (∃ i < a.length, a.string[i]? ≠ b.string[i]? ∧
    ∀ j < i, ¬ (a.string[j]? = some 0 ∧ b.string[j]? = some 0)) ∨
  (a.content = b.content ∧ ∃ i < a.length + 1, a.string[i]? = some 0 ∧ b.string[i]? = some 0)

instance (a b : MetadataString) : Decidable (Comparable a b) := by
  unfold Comparable
  infer_instance

variable {a b : MetadataString} {reserve : Nat → Nat → Bool} {now now' length' : Nat}
  {string string' : Option (List (BitVec 8))}

theorem makeString_made (hlength : length < 2 ^ 64) (h : makeString reserve now length string = .ok a) :
    a.Made ∧ a.id = now ∧ a.length = length ∧
      ∀ source, string = some source → a.string = source.take (wrap (length + 1)) := by
  dsimp only [makeString] at h
  split at h
  · split at h
    · cases string with
      | some source =>
        dsimp only at h
        split at h
        · rename_i hsource
          cases h
          refine ⟨⟨hlength, ?_⟩, rfl, rfl, fun _ heq => by cases heq; rfl⟩
          rw [List.length_take, Nat.min_eq_left hsource]
        · cases h
      | none =>
        cases h
        exact ⟨⟨hlength, List.length_replicate⟩, rfl, rfl, fun _ heq => by cases heq⟩
    · cases h
  · cases h

theorem content_eq_iff (hlength : a.length = b.length) :
    a.content = b.content ↔ ∀ i < a.length, a.string[i]? = b.string[i]? := by
  rw [MetadataString.content, MetadataString.content, ← hlength]
  constructor
  · intro h i hi
    have hget := congrArg (·[i]?) h
    simpa only [List.getElem?_take, if_pos hi] using hget
  · intro h
    apply List.ext_getElem?
    intro i
    by_cases hi : i < a.length
    · simp only [List.getElem?_take, if_pos hi, h i hi]
    · simp only [List.getElem?_take, if_neg hi]

theorem stringEqualp_eq (hne : a ≠ b) (hlength : a.length = b.length) :
    stringEqualp (.string a) (.string b) = strcmpZero a.string b.string := by
  have hobjects : Object.string a ≠ .string b := fun h => hne (Object.string.inj h)
  dsimp only [stringEqualp]
  rw [if_neg hobjects]
  exact if_pos hlength

theorem stringEqualp_self (o : Object) : stringEqualp o o = .ok true := by
  dsimp only [stringEqualp]
  rw [if_pos rfl]
  rfl

theorem stringEqualp_of_length_ne (hlength : a.length ≠ b.length) :
    stringEqualp (.string a) (.string b) = .ok false := by
  have hobjects : Object.string a ≠ .string b := fun h => hlength (by rw [Object.string.inj h])
  dsimp only [stringEqualp]
  rw [if_neg hobjects]
  exact if_neg hlength

theorem stringHash_eq (ha : a.length ≤ a.string.length) (hlength : a.length < 2 ^ 64) :
    stringHash signed (.string a) = .ok (mixRules.fold (a.content.map (ofChar signed))) := by
  have hhash : metadataHash signed a.string a.length = _ := metadataHash_eq ha hlength
  dsimp only [stringHash, Object.asString, bind, Except.bind]
  rw [hhash]
  rfl

/-- A byte of a made string is one of its content or its terminator. -/
theorem MetadataString.Made.lt_of_getElem? (ha : a.Made) {c : BitVec 8} (hc : a.string[i]? = some c) :
    a.string.length = a.length + 1 ∧ i < a.length + 1 := by
  have hi : i < a.string.length := (List.getElem?_eq_some_iff.mp hc).1
  have hlength := ha.string
  have hlt := ha.length_lt
  by_cases hmax : a.length + 1 < 2 ^ 64
  · rw [wrap_of_lt hmax] at hlength
    omega
  · have hall : a.length + 1 = 2 ^ 64 := by omega
    rw [hall, show wrap (2 ^ 64) = 0 by decide] at hlength
    omega

theorem ConsistentKeys.comparable (ha : a.Made) (h : ConsistentKeys signed a b) :
    Comparable a b := by
  by_cases hne : a = b
  · exact .inl hne
  by_cases hlength : a.length = b.length
  · right
    right
    obtain ⟨r, hr, hsame⟩ := h.equalp
    rw [stringEqualp_eq hne hlength] at hr
    cases r with
    | true =>
      obtain ⟨i, hai, hbi, -⟩ := (strcmpZero_true a.string b.string).mp hr
      exact .inr ⟨(hsame.mp rfl).2, i, (ha.lt_of_getElem? hai).2, hai, hbi⟩
    | false =>
      left
      obtain ⟨i, hi, hdiffer, hbefore⟩ := (strcmpZero_false a.string b.string).mp hr
      have hcontent : a.content ≠ b.content := fun heq => by
        cases hsame.mpr ⟨hlength, heq⟩
      rw [Ne, content_eq_iff hlength] at hcontent
      simp only [Classical.not_forall] at hcontent
      obtain ⟨k, hk, hdifferk⟩ := hcontent
      by_cases hinside : i < a.length
      · exact ⟨i, hinside, hdiffer, hbefore⟩
      · exact ⟨k, hk, hdifferk, fun j hj => hbefore j (by omega)⟩
  · exact .inr (.inl hlength)

theorem Comparable.consistentKeys (ha : a.Made) (hb : b.Made) (h : Comparable a b) :
    ConsistentKeys signed a b := by
  by_cases hne : a = b
  · subst hne
    exact ⟨⟨true, stringEqualp_self _, by simp⟩, fun _ => rfl⟩
  by_cases hlength : a.length = b.length
  · have hstrings : a.string.length = b.string.length := by rw [ha.string, hb.string, hlength]
    rcases h with h | h | ⟨i, hi, hdiffer, hbefore⟩ | ⟨hcontent, i, hi, hai, hbi⟩
    · exact absurd h hne
    · exact absurd hlength h
    · have hinside : i < a.string.length := by
        refine Nat.lt_of_not_le fun hout => hdiffer ?_
        rw [List.getElem?_eq_none hout, List.getElem?_eq_none (hstrings ▸ hout)]
      have hstrcmp : strcmpZero a.string b.string = .ok false :=
        (strcmpZero_false _ _).mpr ⟨i, by omega, hdiffer, hbefore⟩
      have hcontent : a.content ≠ b.content := fun heq =>
        hdiffer ((content_eq_iff hlength).mp heq i hi)
      rw [← stringEqualp_eq hne hlength] at hstrcmp
      refine ⟨⟨false, hstrcmp, by simp [hcontent]⟩, fun htrue => ?_⟩
      rw [hstrcmp] at htrue
      cases htrue
    · have hstrcmp : strcmpZero a.string b.string = .ok true := by
        refine (strcmpZero_true _ _).mpr ⟨i, hai, hbi, fun j hj => ?_⟩
        exact (content_eq_iff hlength).mp hcontent j (by omega)
      rw [← stringEqualp_eq hne hlength] at hstrcmp
      refine ⟨⟨true, hstrcmp, by simp [hlength, hcontent]⟩, fun _ => ?_⟩
      have hafits := (ha.lt_of_getElem? hai).1
      have hbfits := (hb.lt_of_getElem? hbi).1
      rw [stringHash_eq (by omega) ha.length_lt, stringHash_eq (by omega) hb.length_lt, hcontent]
  · have hfalse := stringEqualp_of_length_ne hlength
    refine ⟨⟨false, hfalse, by simp [hlength]⟩, fun htrue => ?_⟩
    rw [hfalse] at htrue
    cases htrue

/-- The keys of two string objects are consistent exactly where `strcmp` can tell the two apart, or ends on
them. -/
theorem string_keys_consistent_iff (hlength : length < 2 ^ 64) (hlength' : length' < 2 ^ 64)
    (ha : makeString reserve now length string = .ok a)
    (hb : makeString reserve now' length' string' = .ok b) :
    ConsistentKeys signed a b ↔ Comparable a b := by
  have hmadea := (makeString_made hlength ha).1
  have hmadeb := (makeString_made hlength' hb).1
  exact ⟨fun h => h.comparable hmadea, fun h => h.consistentKeys hmadea hmadeb⟩

/-- `"hi"`, made twice. -/
theorem string_keys_consistent_hi :
    ConsistentKeys true ⟨0, 2, [104, 105, 0]⟩ ⟨1, 2, [104, 105, 0]⟩ ↔
      Comparable ⟨0, 2, [104, 105, 0]⟩ ⟨1, 2, [104, 105, 0]⟩ := by
  have ha : makeString (fun _ _ => true) 0 2 (some [104, 105, 0]) = .ok ⟨0, 2, [104, 105, 0]⟩ := rfl
  have hb : makeString (fun _ _ => true) 1 2 (some [104, 105, 0]) = .ok ⟨1, 2, [104, 105, 0]⟩ := rfl
  exact string_keys_consistent_iff (by decide) (by decide) ha hb

/-- `"a\0b"` and `"a\0c"`, of length three, compare equal and have different hashes. -/
theorem embedded_nul_not_consistent :
    makeString (fun _ _ => true) 0 3 (some [97, 0, 98, 0]) = .ok ⟨0, 3, [97, 0, 98, 0]⟩ ∧
    makeString (fun _ _ => true) 1 3 (some [97, 0, 99, 0]) = .ok ⟨1, 3, [97, 0, 99, 0]⟩ ∧
    stringEqualp (.string ⟨0, 3, [97, 0, 98, 0]⟩) (.string ⟨1, 3, [97, 0, 99, 0]⟩) = .ok true ∧
    stringHash true (.string ⟨0, 3, [97, 0, 98, 0]⟩) ≠ stringHash true (.string ⟨1, 3, [97, 0, 99, 0]⟩) ∧
    ¬ ConsistentKeys true ⟨0, 3, [97, 0, 98, 0]⟩ ⟨1, 3, [97, 0, 99, 0]⟩ := by
  have hequal : stringEqualp (.string ⟨0, 3, [97, 0, 98, 0]⟩) (.string ⟨1, 3, [97, 0, 99, 0]⟩) =
      .ok true := rfl
  have hhash : stringHash true (.string ⟨0, 3, [97, 0, 98, 0]⟩) ≠
      stringHash true (.string ⟨1, 3, [97, 0, 99, 0]⟩) := by
    rw [stringHash_eq (by decide) (by decide), stringHash_eq (by decide) (by decide)]
    exact fun h => absurd (Except.ok.inj h) (by decide)
  exact ⟨rfl, rfl, hequal, hhash, fun h => hhash (h.hash hequal)⟩

end ManagedObject.Metadata
