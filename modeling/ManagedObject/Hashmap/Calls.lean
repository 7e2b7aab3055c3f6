import ManagedObject.Hashmap.Handover
import ManagedObject.Lib.Displacement

/-!
# Calls of the map

What a call gives back to the caller, in terms of the entries: a search ends at the entry with the key, or
where there is none. A `put` finds room, because it grows the table before it fills up, so that none of the
assertions fails and `EADDRNOTAVAIL` is never returned.
-/

namespace ManagedObject.Hashmap

open Format Linear Lib Outcome

variable {K D : Type} {f : Functions K} {p p' p₁ : Process K D} {entries old : List (Option (Entry K D))}
  {e : Entry K D} {key : K} {i n tableSize : Nat}

/-- A call of the map, with what the allocators give to it. -/
inductive Call (K D : Type)
  | op (op : Op K D)
  | get (key : Option K)

inductive Answer (D : Type)
  | errno (r : Option Errno)
  | data (data : Option D)
  /-- a function without a result -/
  | done
  deriving DecidableEq, Repr

def Process.call (f : Functions K) (p : Process K D) : Call K D → Except Fault (Answer D × Process K D)
  | .op (.put key data calloc dup) => do
    let (r, p) ← p.put f key data calloc dup
    return (.errno r, p)
  | .op (.remove key) => do
    let (data, p) ← p.remove f key
    return (.data data, p)
  | .op (.reserve capacity calloc) => do
    let (r, p) ← p.reserve f capacity calloc
    return (.errno r, p)
  | .op .clear => return (.done, p.clear)
  | .op (.reset calloc) => return (.errno (p.reset calloc).1, (p.reset calloc).2)
  | .op .cleanup => return (.done, p.cleanup)
  | .get key => do
    let data ← p.get f key
    return (.data data, p)

/-- What a call needs: it is made before a `cleanup`, the allocators keep to what they promise, and a `reset`
of a map with entries gets its table. -/
structure Call.Served (f : Functions K) (p : Process K D) (c : Call K D) : Prop where
  functions : p.base.functions = true
  granted : ∀ op, c = .op op → op.Granted f p

/-- The call gets the memory that it asks for. -/
def Call.Allocated : Call K D → Prop
  | .op (.put _ _ calloc _) | .op (.reserve _ calloc) | .op (.reset calloc) => calloc.isSome
  | _ => True

/-- The size that the call computes for the table fits the shift. -/
def Call.Defined (p : Process K D) : Call K D → Prop
  | .op (.put (some _) (some _) _ _) => ∃ n, calcTableSize p.base.tableSizeInit p.base.size = .ok n
  | .op (.reserve capacity _) => ∃ n, calcTableSize sizeMin capacity = .ok n
  | _ => True

/-- The answers of a finite map `m`, whose keys are compared by `same`, and the map after the call. -/
inductive Answers (same : K → K → Bool) (keyDup : Bool) (m : K → Option D) :
    Call K D → Answer D → (K → Option D) → Prop
  | get {key : Option K} : Answers same keyDup m (.get key) (.data (key.bind m)) m
  | inval {key : Option K} {data : Option D} {calloc : Option Nat} {dup : Option K} :
    key = none ∨ data = none → Answers same keyDup m (.op (.put key data calloc dup)) (.errno (some .inval)) m
  | exist {k : K} {d d' : D} {calloc : Option Nat} {dup : Option K} :
    m k = some d' → Answers same keyDup m (.op (.put (some k) (some d) calloc dup)) (.errno (some .exist)) m
  /-- An allocation failed. -/
  | nomem {k : K} {d : D} {calloc : Option Nat} {dup : Option K} :
    m k = none → calloc = none ∨ keyDup = true ∧ dup = none →
    Answers same keyDup m (.op (.put (some k) (some d) calloc dup)) (.errno (some .nomem)) m
  | put {k : K} {d : D} {calloc : Option Nat} {dup : Option K} :
    m k = none → Answers same keyDup m (.op (.put (some k) (some d) calloc dup)) (.errno none)
      (Assoc.update same m k (some d))
  | removeNull : Answers same keyDup m (.op (.remove none)) (.data none) m
  | remove {k : K} : Answers same keyDup m (.op (.remove (some k))) (.data (m k)) (Assoc.update same m k none)
  | reserve {capacity : Nat} {calloc : Option Nat} {r : Option Errno} :
    r = none ∨ r = some .nomem ∧ calloc = none → Answers same keyDup m (.op (.reserve capacity calloc)) (.errno r) m
  | clear : Answers same keyDup m (.op .clear) .done fun _ => none
  | reset {calloc : Option Nat} {r : Option Errno} :
    r = none ∨ r = some .nomem ∧ calloc = none ∧ (∀ k, m k = none) →
    Answers same keyDup m (.op (.reset calloc)) (.errno r) fun _ => none
  | cleanup : Answers same keyDup m (.op .cleanup) .done fun _ => none

/-! ### The entries as a finite map -/

def pairs (entries : List (Option (Entry K D))) : List (K × D) := (populated entries).map fun e => (e.key, e.data)

/-- What the map holds under each key. -/
def Process.view (f : Functions K) (p : Process K D) : K → Option D := Assoc.get f.compare (pairs p.base.entries)

theorem pairs_perm {entries' : List (Option (Entry K D))} (h : (populated entries).Perm (populated entries')) :
    (pairs entries).Perm (pairs entries') := h.map _

theorem MergeFree.distinct (hf : f.Lawful) (hfree : MergeFree f entries) :
    Assoc.Distinct f.compare (pairs entries) := by
  rw [Assoc.Distinct, pairs, List.pairwise_map]
  exact hfree.imp fun {e e'} hmiss => by rwa [hf.comparison.comm]

theorem Tidy.view_of_slot (hf : f.Lawful) (h : Tidy f p) (hi : slot p.base.entries i = some e)
    (hmatch : f.compare key e.key = true) : p.view f key = some e.data := by
  have hmem : (e.key, e.data) ∈ pairs p.base.entries :=
    List.mem_map.mpr ⟨e, mem_populated.mpr ⟨i, hi⟩, rfl⟩
  exact Assoc.get_of_mem hf.comparison (h.mergeFree.distinct hf) hmem (hf.comparison.symm _ _ hmatch)

theorem exists_of_view {d : D} (h : p.view f key = some d) :
    ∃ e ∈ populated p.base.entries, f.compare e.key key = true ∧ e.data = d := by
  obtain ⟨q, hq, hmatch, rfl⟩ := Assoc.exists_mem_of_get h
  obtain ⟨e, he, rfl⟩ := List.mem_map.mp hq
  exact ⟨e, he, hmatch, rfl⟩

theorem view_eq_none (hf : f.Lawful) (habsent : ∀ e ∈ populated p.base.entries, f.compare key e.key = false) :
    p.view f key = none := by
  refine Assoc.get_eq_none fun q hq => ?_
  obtain ⟨e, he, rfl⟩ := List.mem_map.mp hq
  rw [hf.comparison.comm]
  exact habsent e he

theorem Tidy.view_perm (hf : f.Lawful) (h : Tidy f p)
    (hperm : (populated p'.base.entries).Perm (populated p.base.entries)) : p'.view f = p.view f := by
  funext key
  exact (Assoc.get_perm hf.comparison (h.mergeFree.distinct hf) (pairs_perm hperm).symm).symm

/-- Keys that match hold the same. -/
theorem view_congr (hf : f.Lawful) {key' : K} (hmatch : f.compare key key' = true) :
    p.view f key = p.view f key' := by
  have hsame : (fun q : K × D => f.compare q.1 key) = fun q => f.compare q.1 key' := by
    funext q
    rw [hf.comparison.comm, hf.comparison.congr hmatch, hf.comparison.comm]
  rw [Process.view, Assoc.get, Assoc.get, hsame]

theorem view_of_empty (hempty : populated p.base.entries = []) : p.view f = fun _ => none := by
  funext key
  rw [Process.view, pairs, hempty]
  rfl

/-! ### Searches -/

theorem Tidy.length (h : Tidy f p) : p.base.entries.length = p.base.tableSize := by
  cases htable : p.base.table with
  | none =>
    rw [h.ok.sized.none htable, Base.entries, htable]
    rfl
  | some t =>
    rw [← (h.ok.sized.some t htable).2, Base.entries, htable]
    rfl

/-- What a search for a key ends at. -/
inductive Found (f : Functions K) (p : Process K D) (key : K) (findEmpty : Bool) : Option Nat → Prop
  | entry {i : Nat} {e : Entry K D} : slot p.base.entries i = some e → f.compare key e.key = true →
    p.view f key = some e.data → Found f p key findEmpty (some i)
  | gap {i : Nat} : p.base.entries[i]? = some none → findEmpty = true → p.view f key = none →
    Found f p key findEmpty (some i)
  /-- An empty slot is always found where there is one. -/
  | nothing : p.view f key = none → (findEmpty = true → (populated p.base.entries).length = p.base.tableSize) →
    Found f p key findEmpty none

/-- A search that ends at no entry has missed none. -/
theorem Tidy.view_of_walk (hf : f.Lawful) (h : Tidy f p) (hlength : p.base.entries.length = tableSize)
    (hsize : IsSize tableSize)
    (hwalk : ∀ j e, walk (fun e => f.compare key e.key) p.base.entries tableSize (calcIndex f tableSize key) =
      some j → slot p.base.entries j ≠ some e) : p.view f key = none := by
  refine view_eq_none hf fun e he => ?_
  obtain ⟨i, hi⟩ := mem_populated.mp he
  by_contra hmatch
  rw [Bool.not_eq_false] at hmatch
  have hprobed := h.searchable.probed
  have htable : p.base.tableSize = tableSize := by
    obtain ⟨t, -, -, hsame⟩ := h.ok.of_slot (lt_of_slot hi)
    rw [← hsame, hlength]
  rw [htable] at hprobed
  subst hlength
  obtain ⟨j, e', hfind, hj, -⟩ := hprobed.find hsize hi (hf.hash key e.key hmatch) hmatch true
  rw [entryFind_eq hsize, Except.ok.injEq, Option.filter_eq_some_iff] at hfind
  exact hwalk j e' hfind.1 hj

theorem Tidy.find (hf : f.Lawful) (h : Tidy f p) (hfunctions : p.base.functions = true) (key : K)
    (findEmpty : Bool) : ∃ found, p.base.find f key findEmpty = .ok found ∧ Found f p key findEmpty found := by
  rw [Base.find, if_pos hfunctions]
  cases htable : p.base.table with
  | none =>
    have hentries : p.base.entries = [] := by rw [Base.entries, htable]; rfl
    have hempty : populated p.base.entries = [] := by rw [hentries]; rfl
    have hzero := h.ok.sized.none htable
    refine ⟨none, by rw [hzero]; rfl, .nothing (by rw [view_of_empty hempty]) fun _ => ?_⟩
    rw [hempty, hzero]
    rfl
  | some t =>
    have hsize := (h.ok.sized.some t htable).1
    have hlength := h.length
    have hview : (∀ j e, walk (fun e => f.compare key e.key) p.base.entries p.base.tableSize
        (calcIndex f p.base.tableSize key) = some j → slot p.base.entries j ≠ some e) → p.view f key = none :=
      h.view_of_walk hf hlength hsize
    have hcount : p.base.entries.countP (Option.any fun _ => true) = (populated p.base.entries).length :=
      countP_eq_length_populated
    rw [← hlength] at hsize hview ⊢
    refine ⟨_, entryFind_eq hsize findEmpty, ?_⟩
    cases hwalk : walk (fun e => f.compare key e.key) p.base.entries p.base.entries.length
        (calcIndex f p.base.entries.length key) with
    | none =>
      refine .nothing (hview fun j e hj => by rw [hwalk] at hj; cases hj) fun _ => ?_
      rw [← hcount, ← hlength]
      by_contra hless
      have hle := List.countP_le_length (p := Option.any fun _ => true) (l := p.base.entries)
      obtain ⟨z, hz, hempty⟩ := exists_empty (t := p.base.entries) (by omega)
      obtain ⟨i, hi⟩ := exists_walk (fun e => f.compare key e.key) (calcIndex_lt hsize key) hz hempty
      rw [hwalk] at hi
      cases hi
    | some j =>
      have hj : j < p.base.entries.length := by
        obtain ⟨d, -, hend, -⟩ := reach_of_walk (calcIndex_lt hsize key) hwalk
        rw [← hend]
        exact Nat.mod_lt _ hsize.pos
      obtain ⟨d, -, -, hstop, -⟩ := walk_eq_some (calcIndex_lt hsize key) hwalk
      cases hslot : slot p.base.entries j with
      | some e =>
        have hmatch := hstop e hslot
        simp only [Option.filter_some, hslot, Option.isSome_some, Bool.or_true, if_true]
        exact .entry hslot hmatch (h.view_of_slot hf hslot hmatch)
      | none =>
        have hgap : p.base.entries[j]? = some none := by rw [getElem?_eq_slot hj, hslot]
        have habsent := hview fun j' e hj' hslot' => by
          rw [hwalk] at hj'
          cases hj'
          rw [hslot] at hslot'
          cases hslot'
        cases findEmpty with
        | true =>
          simp only [Option.filter_some, Bool.true_or, if_true]
          exact .gap hgap rfl habsent
        | false =>
          simp only [Option.filter_some, hslot, Option.isSome_none, Bool.or_false, Bool.false_eq_true, if_false]
          exact .nothing habsent fun hempty => by cases hempty

/-! ### Room for a new entry -/

/-- The size of a table is at least four thirds of the number of entries, and one more fits. -/
theorem room_of_calcTableSize {tableSizeInit size : Nat} (hinit : sizeMin ≤ tableSizeInit) (hsize : size ≤ 2 ^ 30)
    (h : calcTableSize tableSizeInit size = .ok tableSize) :
    tableSizeInit ≤ tableSize ∧ size + size / 3 ≤ tableSize ∧ size < tableSize := by
  have hmin : sizeMin = 32 := rfl
  have hwrap : wrap (size + size / 3) = size + size / 3 := wrap_of_lt (by omega)
  rw [calcTableSize, hwrap] at h
  split at h
  · cases h
    omega
  · split at h
    · cases h
    · rw [shiftOne] at h
      split at h
      · have hmask : wrap (size + size / 3 + (2 ^ 64 - 1)) = size + size / 3 - 1 := by
          rw [wrap]
          omega
        have hlog := Nat.lt_log2_self (n := size + size / 3 - 1)
        rw [hmask] at h
        cases h
        omega
      · cases h

theorem countP_set_le (hi : i < entries.length) :
    (entries.set i (some e)).countP (Option.any fun _ => true) ≤ entries.countP (Option.any fun _ => true) + 1 := by
  cases hslot : slot entries i with
  | none => rw [countP_set_empty hi hslot]
  | some e' =>
    have hsame := countP_set_occupied (x := some e) hslot
    rw [Option.isSome_some, if_pos rfl] at hsame
    omega

/-- A rehash into a table with room for all entries fails no assertion. -/
theorem rehashLoop_returns (hsize : IsSize entries.length)
    (hroom : entries.countP (Option.any fun _ => true) + old.countP (Option.any fun _ => true) ≤ entries.length) :
    ∃ entries', rehashLoop f entries.length old entries = .ok entries' := by
  induction old generalizing entries with
  | nil => exact ⟨entries, rfl⟩
  | cons x old ih =>
    cases x with
    | none => exact ih hsize hroom
    | some e =>
      have hlength : ∀ i, (entries.set i (some e)).length = entries.length := fun _ => List.length_set
      rw [List.countP_cons_of_pos (by rfl)] at hroom
      obtain ⟨z, hz, hempty⟩ := exists_empty (t := entries) (by omega)
      obtain ⟨i, hwalk⟩ := exists_walk (fun e' => f.compare e.key e'.key) (home_lt (f := f) hsize e) hz hempty
      have hi : i < entries.length := by
        obtain ⟨d, -, hend, -⟩ := reach_of_walk (home_lt hsize e) hwalk
        rw [← hend]
        exact Nat.mod_lt _ hsize.pos
      have hfind : entryFind f entries.length entries e.key true = .ok (some i) := by
        rw [entryFind_eq hsize]
        exact congrArg Except.ok (by rw [home] at hwalk; rw [hwalk]; rfl)
      have hcount := countP_set_le (e := e) hi
      rw [rehashLoop, hfind]
      have hrec : ∃ entries', rehashLoop f (entries.set i (some e)).length old (entries.set i (some e)) =
          .ok entries' := ih (by rwa [hlength]) (by rw [hlength]; omega)
      rwa [hlength] at hrec

/-- The assertions of a rehash hold, and it fails where the new table cannot be allocated. -/
theorem Tidy.rehash (h : Tidy f p) (hfunctions : p.base.functions = true) (hsize : IsSize tableSize)
    (hroom : p.base.size ≤ tableSize) (calloc : Option Nat) :
    ∃ r p₁, p.rehash f tableSize calloc = .ok (r, p₁) ∧
      (calloc = none ∧ r = some .nomem ∧ p₁ = p ∨ calloc.isSome ∧ r = none ∧ p₁.base.tableSize = tableSize) := by
  have hmask : tableSize &&& wrap (tableSize + (2 ^ 64 - 1)) = 0 := by
    have hmod := sizeMod_eq hsize tableSize
    rwa [sizeMod, Nat.mod_self] at hmod
  unfold Process.rehash
  dsimp only
  rw [if_neg (by rw [hmask]; exact fun hne => hne rfl), if_neg (Nat.not_lt.mpr hroom)]
  cases calloc with
  | none => exact ⟨some .nomem, p, rfl, .inl ⟨rfl, rfl, rfl⟩⟩
  | some addr =>
    cases htable : p.base.table with
    | none => exact ⟨none, _, rfl, .inr ⟨rfl, rfl, by rw [report_base]⟩⟩
    | some t =>
      have hempty : (List.replicate tableSize (none : Option (Entry K D))).length = tableSize :=
        List.length_replicate
      have hentries : p.base.entries = t.entries := by rw [Base.entries, htable]; rfl
      have hcount : t.entries.countP (Option.any fun _ => true) = p.base.size := by
        rw [← hentries, countP_eq_length_populated, h.size]
      have hloop : ∃ entries', rehashLoop f (List.replicate tableSize (none : Option (Entry K D))).length t.entries
          (List.replicate tableSize none) = .ok entries' := rehashLoop_returns (by rwa [hempty])
        (by rw [List.countP_replicate, Option.any_none, if_neg Bool.false_ne_true, hempty, hcount]; omega)
      rw [hempty] at hloop
      obtain ⟨entries, hloop⟩ := hloop
      dsimp only
      rw [if_neg (by rw [hfunctions]; simp), hloop]
      exact ⟨none, _, rfl, .inr ⟨rfl, rfl, by rw [free_base, report_base]; rfl⟩⟩

/-! ### Removals -/

/-- What the removal of the entry `e` at position `i` does. -/
structure Removed (f : Functions K) (p p' : Process K D) (i : Nat) (e : Entry K D) : Prop where
  loop : removeLoop f p.base.tableSize (wrap (p.base.size + (2 ^ 64 - 1))) (probeNext p.base.tableSize i) i
    p.base.entries = .ok p'.base.entries
  base : p'.base = { p.base.setEntries p'.base.entries with size := p'.base.size }
  size : p'.base.size + 1 = p.base.size
  perm : (e :: populated p'.base.entries).Perm (populated p.base.entries)
  freed : p'.freedKeys = if p.base.keyFree then e.key :: p.freedKeys else p.freedKeys
  tidy : Tidy f p'

theorem entries_resized {b : Base K D} {t : Table K D} (htable : b.table = some t) (size : Nat) :
    Base.entries { b.setEntries entries with size := size } = entries := by
  rw [Base.entries, Base.setEntries, htable]
  rfl

/-- The entry that a search for its own key finds can be removed. -/
theorem Tidy.entryRemove (hf : f.Lawful) (h : Tidy f p) (hfunctions : p.base.functions = true)
    (hi : slot p.base.entries i = some e) :
    ∃ p', p.entryRemove f i e.key = .ok p' ∧ p.remove f (some e.key) = .ok (some e.data, p') ∧
      Removed f p p' i e := by
  obtain ⟨t, htable, hsize, hlength⟩ := h.ok.of_slot (lt_of_slot hi)
  have hlt := lt_of_slot hi
  have hprobed := h.searchable.probed
  rw [← hlength] at hprobed hsize
  have hfind : p.base.find f e.key false = .ok (some i) := by
    rw [Base.find, if_pos hfunctions, ← hlength]
    exact hprobed.find_self hf hsize h.mergeFree hi
  have hloop := removeLoop_eq (f := f) (n := wrap (p.base.size + (2 ^ 64 - 1))) hsize
    (Nat.mod_lt (i + 1) hsize.pos) hlt
  rw [← probeNext_eq hsize hlt, hlength] at hloop
  generalize closeGap (home f p.base.tableSize) (wrap (p.base.size + (2 ^ 64 - 1)))
    (probeNext p.base.tableSize i) i p.base.entries = entries at hloop
  have hremoves : ∃ p', p.entryRemove f i e.key = .ok p' ∧
      p'.base = { p.base.setEntries entries with size := wrap (p.base.size + (2 ^ 64 - 1)) } ∧
      p'.freedKeys = if p.base.keyFree then e.key :: p.freedKeys else p.freedKeys := by
    unfold Process.entryRemove
    cases hfree : p.base.keyFree with
    | false =>
      simp only [Bool.false_eq_true, if_false]
      rw [hloop]
      exact ⟨_, rfl, rfl, rfl⟩
    | true =>
      simp only [if_true]
      rw [hloop]
      exact ⟨_, rfl, rfl, rfl⟩
  obtain ⟨p', hremove, hbase, hfreed⟩ := hremoves
  have hcall : p.remove f (some e.key) = .ok (some e.data, p') := by
    have hentry : p.base.entries[i]?.join = some e := hi
    unfold Process.remove
    simp only [hfind, ok_bind, hentry, hremove]
    rfl
  obtain ⟨hperm, hless⟩ := h.ok.remove_perm h.size hi hloop hbase
  have hentries : p'.base.entries = entries := by rw [hbase, entries_resized htable]
  refine ⟨p', hremove, hcall, ?_⟩
  exact {
    loop := by rw [hentries]; exact hloop
    base := by rw [hentries, hbase]
    size := hless
    perm := hperm
    freed := hfreed
    tidy := (h.remove hf hcall).tidy (not_strands fun _ heq => (by cases heq)) }

end ManagedObject.Hashmap
