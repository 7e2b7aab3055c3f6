import Mathlib.Data.List.Dedup
import ManagedObject.Metadata.Extent

/-!
# Interned strings

`managed_obj_metadata_intern` makes a string object, looks its content up in a table from string objects to
string objects, and stores the new object under itself where nothing was found. The objects are made from C
strings, so their only NUL is the terminator and the comparison of keys is that of the contents.
-/

namespace ManagedObject.Metadata

open Format Outcome Lib

/-- A C string: no NUL before the terminator, and short enough to be an object in memory. -/
@[ext] structure CString where
  chars : List (BitVec 8)
  nonzero : 0 ∉ chars
  small : chars.length < 2 ^ 63
  deriving DecidableEq

def CString.memory (s : CString) : List (BitVec 8) := s.chars ++ [0]

def strlen : List (BitVec 8) → Except Stop Nat
  | [] => .error .overrun
  | c :: s => if c = 0 then .ok 0 else return (← strlen s) + 1

/-- A string object that was made from a C string. -/
def MetadataString.FromC (a : MetadataString) (s : CString) : Prop :=
  a.length = s.chars.length ∧ a.string = s.memory

/-- The references of a table whose strings are made from C strings. -/
def Name := { o : Object // ∀ a, o = .string a → ∃ s, a.FromC s }

instance : DecidableEq Name := inferInstanceAs (DecidableEq (Subtype _))

def Name.null : Name := ⟨.null, fun _ h => by cases h⟩
def Name.unused : Name := ⟨.unused, fun _ h => by cases h⟩
def Name.deleted : Name := ⟨.deleted, fun _ h => by cases h⟩

def Name.chars? (name : Name) : Option (List (BitVec 8)) :=
  match name.val with
  | .string a => some a.content
  | _ => none

theorem strlen_memory (s : CString) : strlen s.memory = .ok s.chars.length := by
  have hscan : ∀ cs : List (BitVec 8), 0 ∉ cs → strlen (cs ++ [0]) = .ok cs.length := by
    intro cs
    induction cs with
    | nil => intro _; rfl
    | cons c cs ih =>
      intro hcs
      have hc : c ≠ 0 := fun h => hcs (by simp [h])
      rw [List.cons_append, strlen, if_neg hc, ih fun h => hcs (List.mem_cons_of_mem c h)]
      rfl
  exact hscan s.chars s.nonzero

def makeCString (reserve : Nat → Nat → Bool) (now : Nat) (string : CString) :
    Except Stop MetadataString := do
  let length ← strlen string.memory
  makeString reserve now length (some string.memory)

variable {signed : Bool} {reserve : Nat → Nat → Bool} {now : Nat} {s s' : CString}
  {a b : MetadataString} {name name' : Name}

theorem makeCString_meets (reserve : Nat → Nat → Bool) (now : Nat) (s : CString) :
    Meets (makeCString reserve now s)
      (fun stop => stop = .outOfMemory ∧ reserve now (stringSize s.chars.length) = false) fun a =>
        a.FromC s ∧ a.id = now := by
  have hmemory : s.memory.length = s.chars.length + 1 := List.length_append
  rw [makeCString, strlen_memory, ok_bind]
  refine (makeString_meets s.small (by omega)).mono (fun _ h => h) ?_
  rintro a rfl
  exact ⟨⟨rfl, List.take_of_length_le hmemory.le⟩, rfl⟩

/-- A made name, with the C string it was made from. -/
def makeName (reserve : Nat → Nat → Bool) (now : Nat) (string : CString) : Except Stop Name :=
  match h : makeCString reserve now string with
  | .ok a => .ok ⟨.string a, fun _ heq =>
      Object.string.inj heq ▸ ⟨string, ((makeCString_meets reserve now string).of_ok h).1⟩⟩
  | .error e => .error e

/-! ### The functions of the table -/

def nameHash (signed : Bool) (name : Name) : BitVec 64 :=
  match stringHash signed name.val with
  | .ok h => h
  | .error _ => 0

def nameCmp (name name' : Name) : Bool :=
  match stringEqualp name.val name'.val with
  | .ok r => r
  | .error _ => false

/-- A table with `managed_obj_metadata_string_hash` and `managed_obj_metadata_string_equalp`. Both fail on
`NULL` and the hash fails on every object that is not a string; such calls do not occur. -/
def stringWorld (signed : Bool) (reserve : Nat → Nat → Bool) (isStale : Nat → Ld Name → Nat → Name → Bool) :
    World Name where
  null := .null
  unused := .unused
  deleted := .deleted
  managed name := name.chars?.isSome
  hash _ name := nameHash signed name
  addsToLd := false
  cmp := nameCmp
  isStale := isStale
  reserve := reserve

def internString (W : World Name) (m : Machine Name) (name : Name) : Except Stop (Name × Machine Name) := do
  aver name.chars?.isSome
  let (symbol, m) ← tableRef W m name
  if symbol = W.null then
    let m ← tableSet W m name name
    return (name, m)
  return (symbol, m)

def intern (W : World Name) (m : Machine Name) (string : CString) : Except Stop (Name × Machine Name) := do
  let name ← makeName W.reserve m.now string
  internString W { m with now := m.now + 1 } name

/-! ### Comparing names -/

theorem MetadataString.FromC.content (h : a.FromC s) : a.content = s.chars := by
  rw [MetadataString.content, h.1, h.2, CString.memory, List.take_left]

theorem MetadataString.FromC.made (h : a.FromC s) : a.Made where
  length_lt := by
    have := s.small
    rw [h.1]
    omega
  string := by
    have := s.small
    rw [h.1, h.2, CString.memory, List.length_append, wrap_of_lt (by omega)]
    rfl

/-- Among strings made from C strings the first NUL is the terminator. -/
theorem MetadataString.FromC.comparable (h : a.FromC s) (h' : b.FromC s') : Comparable a b := by
  by_cases hlength : a.length = b.length
  · right
    right
    by_cases hcontent : a.content = b.content
    · refine .inr ⟨hcontent, a.length, Nat.lt_succ_self _, ?_, ?_⟩
      · rw [h.2, h.1, CString.memory, List.getElem?_append_right le_rfl, Nat.sub_self]
        rfl
      · rw [hlength, h'.2, h'.1, CString.memory, List.getElem?_append_right le_rfl, Nat.sub_self]
        rfl
    · rw [content_eq_iff hlength] at hcontent
      simp only [not_forall] at hcontent
      obtain ⟨i, hi, hdiffer⟩ := hcontent
      refine .inl ⟨i, hi, hdiffer, fun j hj hnul => s.nonzero ?_⟩
      have hj : j < s.chars.length := by rw [← h.1]; omega
      rw [h.2, CString.memory, List.getElem?_append_left hj] at hnul
      exact List.mem_of_getElem? hnul.1
  · exact .inr (.inl hlength)

/-- Two strings made from C strings compare equal exactly if their contents are the same. -/
theorem FromC.stringEqualp (h : a.FromC s) (h' : b.FromC s') :
    stringEqualp (.string a) (.string b) = .ok (decide (a.content = b.content)) := by
  have hkeys : ConsistentKeys true a b := (h.comparable h').consistentKeys h.made h'.made
  obtain ⟨r, hr, hsame⟩ := hkeys.equalp
  have hlengths : a.content = b.content → a.length = b.length := fun heq => by
    rw [h.1, h'.1, ← h.content, ← h'.content, heq]
  rw [hr]
  congr 1
  rw [Bool.eq_iff_iff, hsame, decide_eq_true_eq]
  exact ⟨fun h => h.2, fun h => ⟨hlengths h, h⟩⟩

theorem Name.exists_fromC {chars : List (BitVec 8)} (h : name.chars? = some chars) :
    ∃ a s, name.val = .string a ∧ a.FromC s ∧ a.content = chars := by
  rw [Name.chars?] at h
  split at h
  · rename_i a ha
    obtain ⟨s, hs⟩ := name.property a ha
    exact ⟨a, s, ha, hs, Option.some.inj h⟩
  · cases h

/-- An object that is not a string is equal to itself only. -/
theorem nameCmp_of_chars?_eq_none (hne : name ≠ name') (h : name.chars? = none ∨ name'.chars? = none) :
    nameCmp name name' = false := by
  have hobjects : name.val ≠ name'.val := fun heq => hne (Subtype.ext heq)
  dsimp only [nameCmp, stringEqualp]
  rw [if_neg hobjects]
  rw [Name.chars?, Name.chars?] at h
  cases hname : name.val with
  | null | unused | deleted => rfl
  | string a =>
    cases hname' : name'.val with
    | null | unused | deleted => rfl
    | string b => simp [hname, hname'] at h

theorem nameCmp_iff : nameCmp name name' = true ↔
    name = name' ∨ name.chars?.isSome ∧ name.chars? = name'.chars? := by
  by_cases heq : name = name'
  · subst heq
    simp [nameCmp, stringEqualp_self]
  · cases hchars : name.chars? with
    | none => simp [nameCmp_of_chars?_eq_none heq (.inl hchars), heq]
    | some chars =>
      cases hchars' : name'.chars? with
      | none => simp [nameCmp_of_chars?_eq_none heq (.inr hchars'), heq]
      | some chars' =>
        obtain ⟨a, s, ha, hs, rfl⟩ := Name.exists_fromC hchars
        obtain ⟨b, s', hb, hs', rfl⟩ := Name.exists_fromC hchars'
        rw [nameCmp, ha, hb, FromC.stringEqualp hs hs']
        simp [heq]

theorem nameHash_eq {chars : List (BitVec 8)} (h : name.chars? = some chars) :
    nameHash signed name = mixRules.fold (chars.map (ofChar signed)) := by
  obtain ⟨a, s, ha, hs, rfl⟩ := Name.exists_fromC h
  have hfits : a.length ≤ a.string.length := by
    rw [hs.1, hs.2, CString.memory, List.length_append]
    exact Nat.le_add_right _ _
  rw [nameHash, ha, stringHash_eq hfits hs.made.length_lt]

variable {isStale : Nat → Ld Name → Nat → Name → Bool}

theorem stringWorld_lawful : (stringWorld signed reserve isStale).Lawful where
  comparison := {
    refl := fun a => nameCmp_iff.mpr (.inl rfl)
    symm := fun a b hab => by
      rcases nameCmp_iff.mp hab with h | ⟨hsome, h⟩
      · exact nameCmp_iff.mpr (.inl h.symm)
      · exact nameCmp_iff.mpr (.inr ⟨h ▸ hsome, h.symm⟩)
    trans := fun a b c hab hbc => by
      rcases nameCmp_iff.mp hab with rfl | ⟨hsome, h⟩
      · exact hbc
      · rcases nameCmp_iff.mp hbc with rfl | ⟨-, h'⟩
        · exact hab
        · exact nameCmp_iff.mpr (.inr ⟨hsome, h.trans h'⟩) }
  hash_eq t a b hab := by
    rcases nameCmp_iff.mp hab with rfl | ⟨hsome, h⟩
    · rfl
    · obtain ⟨chars, hchars⟩ := Option.isSome_iff_exists.mp hsome
      have hashes : nameHash signed a = nameHash signed b := by
        rw [nameHash_eq hchars, nameHash_eq (h ▸ hchars)]
      exact hashes
  unused_ne_deleted := show Name.unused ≠ Name.deleted by decide

theorem stringWorld_tracked : (stringWorld signed reserve isStale).Tracked :=
  World.Tracked.of_fixed stringWorld_lawful fun _ _ _ => rfl

theorem stringWorld_isKey {chars : List (BitVec 8)} (h : name.chars? = some chars) :
    (stringWorld signed reserve isStale).IsKey name := by
  have hunused : name ≠ Name.unused := fun heq => by rw [heq] at h; cases h
  have hdeleted : name ≠ Name.deleted := fun heq => by rw [heq] at h; cases h
  exact ⟨nameCmp_of_chars?_eq_none hunused (.inr rfl), nameCmp_of_chars?_eq_none hdeleted (.inr rfl)⟩

theorem makeName_meets (reserve : Nat → Nat → Bool) (now : Nat) (s : CString) :
    Meets (makeName reserve now s)
      (fun stop => stop = .outOfMemory ∧ reserve now (stringSize s.chars.length) = false) fun name =>
        name.chars? = some s.chars := by
  have hmake := makeCString_meets reserve now s
  rw [makeName]
  split
  · rename_i a ha
    exact congrArg some ((hmake.of_ok ha).1.content)
  · rename_i e he
    exact hmake.of_error he

/-! ### Runs -/

/-- The calls of `managed_obj_metadata_intern` in a run, each with its answer. Between two calls the objects
may move. -/
inductive InternEvent
  | intern (string : CString) (symbol : Name)
  | relocate

/-- One step of a program that uses a table through `managed_obj_metadata_intern` only. -/
def InternStep (W : World Name) (m : Machine Name) : InternEvent → Machine Name → Prop
  | .intern string symbol, m' => Metadata.intern W m string = .ok (symbol, m')
  | .relocate, m' => m' = { m with now := m.now + 1 }

abbrev InternRun (W : World Name) : Machine Name → List InternEvent → Machine Name → Prop :=
  Run fun _ m event m' => InternStep W m event m'

def InternEvent.string? : InternEvent → Option (List (BitVec 8))
  | .intern string _ => some string.chars
  | .relocate => none

/-- The distinct strings of a history. -/
def internedStrings (hist : List InternEvent) : List (List (BitVec 8)) :=
  (hist.filterMap InternEvent.string?).dedup

theorem mem_internedStrings {hist : List InternEvent} {chars : List (BitVec 8)} :
    chars ∈ internedStrings hist ↔ ∃ string symbol, .intern string symbol ∈ hist ∧ string.chars = chars := by
  rw [internedStrings, List.mem_dedup, List.mem_filterMap]
  constructor
  · intro ⟨event, hmem, hchars⟩
    cases event with
    | intern string symbol => exact ⟨string, symbol, hmem, Option.some.inj hchars⟩
    | relocate => cases hchars
  · intro ⟨string, symbol, hmem, hchars⟩
    exact ⟨.intern string symbol, hmem, congrArg some hchars⟩

/-- A map takes each string object to the answer that its content was given, and nothing else. -/
structure Recorded (f : Name → Option Name) (hist : List InternEvent) : Prop where
  get : ∀ name chars, name.chars? = some chars → ∀ symbol, f name = some symbol ↔
    ∃ string, .intern string symbol ∈ hist ∧ string.chars = chars
  string : ∀ name, (f name).isSome → name.chars?.isSome

structure Interned (W : World Name) (hist : List InternEvent) (m : Machine Name) : Prop where
  symbols : ∃ calls, Holds W calls m ∧ Recorded (contents W.cmp calls) hist
  answers : ∀ string symbol, .intern string symbol ∈ hist → symbol.chars? = some string.chars

variable {W : World Name} {hist : List InternEvent} {m m' : Machine Name} {symbol symbol' : Name}
  {f : Name → Option Name}

/-- Equal strings were given one object, and different strings different ones. -/
theorem Interned.symbol_eq_iff (h : Interned W hist m) (hmem : .intern s symbol ∈ hist)
    (hmem' : .intern s' symbol' ∈ hist) : symbol = symbol' ↔ s = s' := by
  obtain ⟨calls, -, hrecorded⟩ := h.symbols
  constructor
  · rintro rfl
    have hchars := (h.answers s symbol hmem).symm.trans (h.answers s' symbol hmem')
    exact CString.ext (Option.some.inj hchars)
  · rintro rfl
    have hchars := h.answers s symbol hmem
    have hfirst := (hrecorded.get symbol s.chars hchars symbol).mpr ⟨s, hmem, rfl⟩
    have hsecond := (hrecorded.get symbol s.chars hchars symbol').mpr ⟨s, hmem', rfl⟩
    exact Option.some.inj (hfirst.symm.trans hsecond)

theorem Recorded.relocate (h : Recorded f hist) : Recorded f (.relocate :: hist) where
  get name chars hchars symbol := by
    rw [h.get name chars hchars symbol]
    simp
  string := h.string

/-- A lookup that finds an object answers with the one its content was given. -/
theorem Recorded.found (h : Recorded f hist) (hchars : name.chars? = some s.chars)
    (hget : f name = some symbol) : Recorded f (.intern s symbol :: hist) where
  get key chars hkey symbol' := by
    rw [h.get key chars hkey symbol']
    constructor
    · intro ⟨old, hold, holdchars⟩
      exact ⟨old, List.mem_cons_of_mem _ hold, holdchars⟩
    · intro ⟨old, hold, holdchars⟩
      rcases List.mem_cons.mp hold with heq | hold
      · cases heq
        obtain ⟨string, hmem, hsame⟩ := (h.get name s.chars hchars symbol).mp hget
        exact ⟨string, hmem, hsame.trans holdchars⟩
      · exact ⟨old, hold, holdchars⟩
  string := h.string

/-- A name whose content is new is stored under itself. -/
theorem Recorded.stored (h : Recorded f hist) (hchars : name.chars? = some s.chars)
    (hget : f name = none) :
    Recorded (Assoc.update nameCmp f name (some name)) (.intern s name :: hist) where
  get key chars hkey symbol' := by
    have hcmp : nameCmp name key = true ↔ s.chars = chars := by
      rw [nameCmp_iff, hchars, hkey]
      constructor
      · rintro (rfl | ⟨-, heq⟩)
        · exact Option.some.inj (hchars.symm.trans hkey)
        · exact Option.some.inj heq
      · rintro rfl
        exact .inr ⟨rfl, rfl⟩
    rw [Assoc.update]
    by_cases hsame : s.chars = chars
    · rw [if_pos (hcmp.mpr hsame)]
      constructor
      · intro heq
        cases heq
        exact ⟨s, List.mem_cons_self, hsame⟩
      · intro hfound
        obtain ⟨old, hold, holdchars⟩ := hfound
        rcases List.mem_cons.mp hold with heq | hold
        · cases heq
          rfl
        · have hfound := (h.get name s.chars hchars symbol').mpr ⟨old, hold, holdchars.trans hsame.symm⟩
          rw [hget] at hfound
          cases hfound
    · rw [if_neg fun htrue => hsame (hcmp.mp htrue), h.get key chars hkey symbol']
      constructor
      · intro hfound
        obtain ⟨old, hold, holdchars⟩ := hfound
        exact ⟨old, List.mem_cons_of_mem _ hold, holdchars⟩
      · intro hfound
        obtain ⟨old, hold, holdchars⟩ := hfound
        rcases List.mem_cons.mp hold with heq | hold
        · cases heq
          exact absurd holdchars hsame
        · exact ⟨old, hold, holdchars⟩
  string key hsome := by
    rw [Assoc.update] at hsome
    split at hsome
    · rename_i htrue
      rcases nameCmp_iff.mp htrue with rfl | ⟨hstring, heq⟩
      · rw [hchars]
        rfl
      · exact heq ▸ hstring
    · exact h.string key hsome

theorem Interned.tick (h : Interned W hist m) (hW : W.Lawful) (htracked : W.Tracked) :
    Interned W hist { m with now := m.now + 1 } := by
  obtain ⟨calls, hholds, hrecorded⟩ := h.symbols
  have hmoved : Holds W ((.relocate, .done) :: calls) { m with now := m.now + 1 } :=
    (hholds.call hW htracked (c := .relocate) trivial).of_ok rfl
  exact ⟨⟨_, hmoved, hrecorded⟩, h.answers⟩

theorem Interned.relocate (h : Interned W hist m) : Interned W (.relocate :: hist) m := by
  obtain ⟨calls, hholds, hrecorded⟩ := h.symbols
  exact ⟨⟨calls, hholds, hrecorded.relocate⟩, by simpa using h.answers⟩

theorem Interned.cons (h : Interned W hist m) (hholds : ∃ calls, Holds W calls m' ∧
      Recorded (contents W.cmp calls) (.intern s symbol :: hist))
    (hsymbol : symbol.chars? = some s.chars) : Interned W (.intern s symbol :: hist) m' where
  symbols := hholds
  answers old symbol' hold := by
    rcases List.mem_cons.mp hold with heq | hold
    · cases heq
      exact hsymbol
    · exact h.answers old symbol' hold

/-- How `table_ref`, and `table_set` behind it, can stop. -/
def LookupStop (W : World Name) (m : Machine Name) (s : Stop) : Prop :=
  (s = .outOfMemory ∧ W.Refuses m.now (m.now + 4) (untagCount m.tbl.keys.length)) ∨
    MemoryStop W m.now (m.now + 8) (untagCount m.tbl.keys.length * 2) s ∨ (s = .aver ∧ ¬ W.Settled)

/-- How interning can stop: for want of memory, for the string or in the table, or in the `AVER` on the retry
of `table_set`. -/
def InternStop (W : World Name) (m : Machine Name) (string : CString) (s : Stop) : Prop :=
  (s = .outOfMemory ∧ W.reserve m.now (stringSize string.chars.length) = false) ∨
    LookupStop W { m with now := m.now + 1 } s

theorem FindStop.lookup {s : Stop} (h : FindStop W m s) : LookupStop W m s :=
  .inl ⟨h.1, h.2.mono le_rfl (Nat.add_le_add_left (by decide) _)⟩

theorem SetStop.lookup {s : Stop} (h : SetStop W m' s) (hlow : m.now ≤ m'.now) (hhigh : m'.now ≤ m.now + 2)
    (hlength : untagCount m'.tbl.keys.length = untagCount m.tbl.keys.length) : LookupStop W m s := by
  rw [SetStop, FindStop, hlength] at h
  rcases h with ⟨hs, hrefuses⟩ | hmemory | haver
  · exact .inl ⟨hs, hrefuses.mono hlow (by omega)⟩
  · exact .inr (.inl (hmemory.mono hlow (by omega)))
  · exact .inr (.inr haver)

/-- Interning keeps the record. -/
theorem internString_meets (h : Interned (stringWorld signed reserve isStale) hist m)
    (hchars : name.chars? = some s.chars) :
    Meets (internString (stringWorld signed reserve isStale) m name)
      (LookupStop (stringWorld signed reserve isStale) m) fun (symbol, m') =>
        Interned (stringWorld signed reserve isStale) (.intern s symbol :: hist) m' := by
  obtain ⟨calls, hholds, hrecorded⟩ := h.symbols
  have hkey : (stringWorld signed reserve isStale).IsKey name := stringWorld_isKey hchars
  obtain ⟨e, hok⟩ := hholds.table
  have hfind := tableRef_meets stringWorld_lawful stringWorld_tracked hok hkey
  have hlookup := hholds.ref stringWorld_lawful stringWorld_tracked hkey
  have hafter := hholds.call stringWorld_lawful stringWorld_tracked (c := .ref name) hkey
  have hstring : aver name.chars?.isSome = .ok () := by
    rw [hchars]
    rfl
  rw [internString, hstring, ok_bind]
  cases href : tableRef (stringWorld signed reserve isStale) m name with
  | error e => exact (hfind.of_error href).lookup
  | ok result =>
    obtain ⟨v, m₂⟩ := result
    obtain ⟨hok₂, hclock, -, -⟩ := hfind.of_ok href
    have hv : v = (contents nameCmp calls name).getD (stringWorld signed reserve isStale).null :=
      hlookup.of_ok href
    have hholds₂ := hafter.of_ok (show Machine.call _ m (.ref name) = .ok (.value v, m₂) by
      rw [Machine.call, href]
      rfl)
    rw [ok_bind]
    dsimp only
    cases hget : contents nameCmp calls name with
    | some symbol =>
      obtain ⟨string, hmem, hsame⟩ := (hrecorded.get name s.chars hchars symbol).mp hget
      have hsymbol : symbol.chars? = some s.chars := hsame ▸ h.answers string symbol hmem
      have hnull : symbol ≠ (stringWorld signed reserve isStale).null := fun heq => by
        rw [heq] at hsymbol
        cases hsymbol
      rw [hget, Option.getD_some] at hv
      rw [hv, if_neg hnull]
      exact h.cons ⟨_, hholds₂, hrecorded.found hchars hget⟩ hsymbol
    | none =>
      rw [hget, Option.getD_none] at hv
      have hset := hholds₂.call stringWorld_lawful stringWorld_tracked (c := .set name name) hkey
      rw [hv, if_pos rfl]
      cases hstore : tableSet (stringWorld signed reserve isStale) m₂ name name with
      | error e =>
        have hstop : SetStop (stringWorld signed reserve isStale) m₂ e :=
          hset.of_error (show Machine.call _ m₂ (.set name name) = .error e by
            rw [Machine.call, hstore]
            rfl)
        exact hstop.lookup hclock.1 hclock.2 (hok₂.length_eq.trans hok.length_eq.symm)
      | ok m₃ =>
        have hholds₃ := hset.of_ok (show Machine.call _ m₂ (.set name name) = .ok (.done, m₃) by
          rw [Machine.call, hstore]
          rfl)
        exact h.cons ⟨_, hholds₃, hrecorded.stored hchars hget⟩ hchars

theorem intern_meets (h : Interned (stringWorld signed reserve isStale) hist m) (s : CString) :
    Meets (intern (stringWorld signed reserve isStale) m s)
      (InternStop (stringWorld signed reserve isStale) m s) fun (symbol, m') =>
        Interned (stringWorld signed reserve isStale) (.intern s symbol :: hist) m' := by
  refine ((makeName_meets reserve m.now s).mono (fun _ h => Or.inl h) fun _ h => h).bind ?_
  intro name hchars
  exact (internString_meets (h.tick stringWorld_lawful stringWorld_tracked) hchars).mono
    (fun _ => Or.inr) fun _ h => h

/-- The keys of the table are one object for each distinct string. -/
theorem Interned.size (h : Interned (stringWorld signed reserve isStale) hist m) :
    tableSize m.tbl = .ok (internedStrings hist).length := by
  obtain ⟨calls, hholds, hrecorded⟩ := h.symbols
  obtain ⟨keys, ⟨hdistinct, hkeys⟩, hsize⟩ := hholds.size stringWorld_lawful
  have hstring : ∀ key ∈ keys, key.chars?.isSome := fun key hkey =>
    hrecorded.string key ((hkeys key).mpr ⟨key, hkey, stringWorld_lawful.comparison.refl key⟩)
  have hnodup : (keys.map Name.chars?).Nodup := by
    rw [List.Nodup, List.pairwise_map]
    refine hdistinct.imp_of_mem ?_
    intro key key' hkey _ hcmp hsame
    have hequal : nameCmp key key' = true := nameCmp_iff.mpr (.inr ⟨hstring key hkey, hsame⟩)
    exact Bool.false_ne_true (hcmp.symm.trans hequal)
  have hsame : ∀ chars, chars ∈ keys.map Name.chars? ↔ chars ∈ (internedStrings hist).map some := by
    intro chars
    constructor
    · intro hmem
      obtain ⟨key, hkey, rfl⟩ := List.mem_map.mp hmem
      obtain ⟨cs, hcs⟩ := Option.isSome_iff_exists.mp (hstring key hkey)
      obtain ⟨symbol, hsymbol⟩ := Option.isSome_iff_exists.mp
        ((hkeys key).mpr ⟨key, hkey, stringWorld_lawful.comparison.refl key⟩)
      obtain ⟨string, hevent, hchars⟩ := (hrecorded.get key cs hcs symbol).mp hsymbol
      rw [hcs, ← hchars]
      exact List.mem_map_of_mem (mem_internedStrings.mpr ⟨string, symbol, hevent, rfl⟩)
    · intro hmem
      obtain ⟨cs, hcs, rfl⟩ := List.mem_map.mp hmem
      obtain ⟨string, symbol, hevent, rfl⟩ := mem_internedStrings.mp hcs
      have hchars := h.answers string symbol hevent
      have hsymbol := (hrecorded.get symbol string.chars hchars symbol).mpr ⟨string, hevent, rfl⟩
      obtain ⟨key, hkey, hcmp⟩ := (hkeys symbol).mp (Option.isSome_iff_exists.mpr ⟨_, hsymbol⟩)
      have hequal : key.chars? = symbol.chars? := by
        rcases nameCmp_iff.mp hcmp with rfl | ⟨-, heq⟩
        · rfl
        · exact heq
      rw [← hchars, ← hequal]
      exact List.mem_map_of_mem hkey
  have hperm : (keys.map Name.chars?).Perm ((internedStrings hist).map some) :=
    (List.perm_ext_iff_of_nodup hnodup
      ((List.nodup_dedup _).map (Option.some_injective _))).mpr hsame
  rw [hsize]
  have hlength := hperm.length_eq
  rw [List.length_map, List.length_map] at hlength
  rw [hlength]

theorem InternRun.interned {start : Machine Name} {sizeofLd now length : Nat}
    (hmake : makeTable (stringWorld signed reserve isStale) sizeofLd now length false false = .ok start)
    (hrun : InternRun (stringWorld signed reserve isStale) start hist m) :
    Interned (stringWorld signed reserve isStale) hist m := by
  have hnew := ((makeTable_meets stringWorld_lawful sizeofLd now length false false).of_ok hmake).1
  refine hrun.invariant (Interned _) ⟨⟨[], hnew, ?_, ?_⟩, ?_⟩ ?_
  · intro name chars hchars symbol
    simp [contents]
  · intro name hsome
    cases hsome
  · intro string symbol hmem
    cases hmem
  · intro hist m event m' h hstep
    cases event with
    | intern string symbol => exact (intern_meets h string).of_ok hstep
    | relocate =>
      cases hstep
      exact (h.tick stringWorld_lawful stringWorld_tracked).relocate

/-- Interning is canonical: equal strings get one object and different strings different ones, an object's
content is the string it was asked for, and the table has one entry for each distinct string. A call stops
only where `InternStop` says. -/
theorem intern_canonical {start : Machine Name} {sizeofLd now length : Nat}
    (hmake : makeTable (stringWorld signed reserve isStale) sizeofLd now length false false = .ok start)
    (hrun : InternRun (stringWorld signed reserve isStale) start hist m) :
    (∀ s symbol s' symbol', .intern s symbol ∈ hist → .intern s' symbol' ∈ hist →
      (symbol = symbol' ↔ s.chars = s'.chars)) ∧
    (∀ s symbol, .intern s symbol ∈ hist → symbol.chars? = some s.chars) ∧
    tableSize m.tbl = .ok (internedStrings hist).length ∧
    ∀ s, Meets (intern (stringWorld signed reserve isStale) m s)
      (InternStop (stringWorld signed reserve isStale) m s) fun _ => True := by
  have h := hrun.interned hmake
  refine ⟨?_, h.answers, h.size, fun s => (intern_meets h s).mono (fun _ h => h) fun _ _ => trivial⟩
  intro s symbol s' symbol' hmem hmem'
  rw [h.symbol_eq_iff hmem hmem', CString.ext_iff]

/-- The string `"bye"`. -/
def bye : CString := ⟨[98, 121, 101], by decide, by decide⟩

/-- Signed chars, enough memory, and no staleness. -/
def quietWorld : World Name := stringWorld true (fun _ _ => true) fun _ _ _ _ => false

/-- A new table of one slot. -/
def oneSlot : Machine Name where
  tbl := {
    keys := ⟨3, 1, 1, [.unused]⟩
    values := ⟨3, 1, 1, [.unused]⟩
    ld := ⟨[], 3⟩
    weakKey := false
    weakValue := false }
  now := 3
  calls := 0

/-- `"bye"`, interned twice. -/
theorem intern_canonical_bye : ∃ symbol symbol' m,
    InternRun quietWorld oneSlot [.intern bye symbol', .intern bye symbol] m ∧ symbol = symbol' ∧
      tableSize m.tbl = .ok 1 := by
  have hmake : makeTable quietWorld 24 0 1 false false = .ok oneSlot := rfl
  have hcalls : ((intern quietWorld oneSlot bye) >>= fun r => intern quietWorld r.2 bye).isOk = true := rfl
  cases htwice : (intern quietWorld oneSlot bye) >>= fun r => intern quietWorld r.2 bye with
  | error e =>
    rw [htwice] at hcalls
    cases hcalls
  | ok r' =>
    obtain ⟨r, hfirst, hsecond⟩ := bind_eq_ok htwice
    have hrun : InternRun quietWorld oneSlot [.intern bye r'.1, .intern bye r.1] r'.2 :=
      (Run.start.next hfirst).next hsecond
    obtain ⟨hsame, -, hsize, -⟩ := intern_canonical hmake hrun
    refine ⟨r.1, r'.1, r'.2, hrun, (hsame bye r.1 bye r'.1 ?_ ?_).mpr rfl, hsize⟩
    · exact List.mem_cons_of_mem _ List.mem_cons_self
    · exact List.mem_cons_self

end ManagedObject.Metadata
