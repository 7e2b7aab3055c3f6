import ManagedObject.Hashmap.Entries

/-!
# Error paths

An operation of the hashmap that returns an errno is to leave a map whose size is the number of its entries
and whose keys have not been freed. `put` and `reserve` do. `reset` frees the keys and sets the size before it
allocates, so one that fails leaves the old entries behind, with freed keys and under a size of 0.
-/

namespace ManagedObject.Hashmap

open Format Linear Lib Outcome

variable {K D : Type} [DecidableEq K] {f : Functions K} {p p' p₁ : Process K D} {op : Op K D}

/-- The keys of the entries. -/
def Process.keys (p : Process K D) : List K := (populated p.base.entries).map Entry.key

/-- The size is the number of the entries, and no entry holds a key that was passed to `key_free`. -/
structure Consistent (p : Process K D) : Prop where
  size : p.base.size = (populated p.base.entries).length
  live : ∀ key ∈ p.keys, key ∉ p.freedKeys

/-- An operation and what it returns, where that is an errno. -/
def Process.attempt (f : Functions K) (p : Process K D) : Op K D → Except Fault (Option Errno × Process K D)
  | .put key data calloc dup => p.put f key data calloc dup
  | .reserve capacity calloc => p.reserve f capacity calloc
  | .reset calloc => return p.reset calloc
  | op => do
    let p ← p.step f op
    return (none, p)

/-- The operation moves the entries into a new table. -/
def Process.Rehashes (p : Process K D) : Op K D → Prop
  | .put (some _) (some _) (some _) _ => ∃ n, calcTableSize p.base.tableSizeInit p.base.size = .ok n ∧
      p.base.tableSize < n
  | .reserve capacity (some _) => ∃ n, calcTableSize sizeMin capacity = .ok n ∧ p.base.tableSize < n
  | _ => False

/-- The key that a `put` hands to the map: memory that is not freed, and, where `key_dup` allocated it, not
a key of the map. -/
def Process.Owns (p : Process K D) : Op K D → Prop
  | .put key _ _ dup => ∀ k, (if p.base.keyDup then dup else key) = some k →
      k ∉ p.freedKeys ∧ (p.base.keyDup = true → k ∉ p.keys)
  | .cleanup => False
  | _ => True

/-- A `reset` of a map with entries, whose new table cannot be allocated. -/
def Process.Strands (p : Process K D) (op : Op K D) : Prop :=
  op = .reset none ∧ p.base.tableSize ≠ p.base.tableSizeInit ∧ populated p.base.entries ≠ []

omit [DecidableEq K] in
theorem not_strands (hop : ∀ calloc, op ≠ .reset calloc) : ¬ p.Strands op := fun hstrands =>
  hop none hstrands.1

/-- What callers and allocators keep to, and no two keys of a table that is rehashed match. -/
structure Careful (f : Functions K) (p : Process K D) (op : Op K D) : Prop where
  owns : p.Owns op
  mergeFree : p.Rehashes op → MergeFree f p.base.entries

inductive Event (K D : Type)
  | op (op : Op K D)
  /-- the memory at a freed key is handed out again -/
  | alloc (key : K)

def EventStep (f : Functions K) (p : Process K D) : Event K D → Process K D → Prop
  | .op op, p' => Careful f p op ∧ ¬ p.Strands op ∧ ∃ r, p.attempt f op = .ok (r, p')
  | .alloc key, p' => key ∉ p.keys ∧ p' = { p with freedKeys := p.freedKeys.filter (· ≠ key) }

abbrev EventRun (f : Functions K) (keyDup keyFree : Bool) : List (Event K D) → Process K D → Prop :=
  Run (fun _ => EventStep f) (.init keyDup keyFree)

/-- A failed operation has done no harm: the map is consistent, and unless it was a `reset` the entries are
those from before. -/
structure Unharmed (p p' : Process K D) (op : Op K D) : Prop where
  consistent : Consistent p'
  entries : (∀ calloc, op ≠ .reset calloc) → (populated p'.base.entries).Perm (populated p.base.entries)

/-- The invariant of such runs. The keys of a map that frees them are different; without `key_dup` each is
found where it is stored. -/
structure Sound (f : Functions K) (keyDup keyFree : Bool) (p : Process K D) : Prop where
  ok : p.Ok
  dup : p.base.keyDup = keyDup
  free : p.base.keyFree = keyFree
  consistent : Consistent p
  nodup : keyFree = true → p.keys.Nodup
  searchable : keyDup = false → p.Searchable f

variable {keyDup keyFree : Bool}

omit [DecidableEq K] in
/-- The entries and the keys stay as they are. -/
theorem Sound.of_perm (h : Sound f keyDup keyFree p) (hok : p'.Ok)
    (hperm : (populated p'.base.entries).Perm (populated p.base.entries)) (hsize : p'.base.size = p.base.size)
    (hfreed : p'.freedKeys = p.freedKeys) (hdup : p'.base.keyDup = p.base.keyDup)
    (hfree : p'.base.keyFree = p.base.keyFree) (hsearch : keyDup = false → p'.Searchable f) :
    Sound f keyDup keyFree p' := by
  have hkeys : p'.keys.Perm p.keys := hperm.map Entry.key
  exact {
    ok := hok
    dup := hdup.trans h.dup
    free := hfree.trans h.free
    consistent := {
      size := by rw [hsize, h.consistent.size, hperm.length_eq]
      live := fun key hkey => by
        rw [hfreed]
        exact h.consistent.live key (hkeys.mem_iff.mp hkey) }
    nodup := fun hf => hkeys.nodup_iff.mpr (h.nodup hf)
    searchable := hsearch }

/-! ### The operations -/

section
variable {calloc : Option Nat} {key dup : Option K} {data : Option D} {r : Option Errno}
omit [DecidableEq K]

theorem Grown.perm {k : K} {d : D} (hp : p.Ok) (h : Grown f p calloc p₁)
    (hfree : p.Rehashes (.put (some k) (some d) calloc dup) → MergeFree f p.base.entries) :
    (populated p₁.base.entries).Perm (populated p.base.entries) := by
  cases h with
  | same => exact .refl _
  | replaced hcalc hlarger hcalloc hroom hloop =>
    subst hcalloc
    exact replaced_perm (isSize_init_of_calc hp hcalc).2 (hfree ⟨_, hcalc, hlarger⟩) hloop

/-- Without `key_dup` its outcome does not matter. -/
theorem put_of_not_keyDup (hdup : p.base.keyDup = false) (dup : Option K) :
    p.put f key data calloc dup = p.put f key data calloc none := by
  cases key with
  | none => rfl
  | some k =>
    cases data with
    | none => rfl
    | some d =>
      unfold Process.put
      cases hcalc : calcTableSize p.base.tableSizeInit p.base.size with
      | error e => rfl
      | ok n =>
        cases hgrow : if n > p.base.tableSize then p.rehash f n calloc else .ok (none, p) with
        | error e =>
          simp only [ok_bind, hgrow]
          rfl
        | ok result =>
          obtain ⟨r₁, p₁⟩ := result
          have hsame : p₁.base.keyDup = false := by
            split at hgrow
            · rcases rehash_cases hgrow with ⟨-, -, rfl⟩ | ⟨addr, entries, -, -, -, -, rfl⟩
              · exact hdup
              · exact hdup
            · cases hgrow
              exact hdup
          simp only [ok_bind, hgrow, hsame]
          rfl

/-- A new entry, in an empty slot that a search found, with a key that the map does not hold. -/
theorem Sound.insert (h : Sound f keyDup keyFree p) (hok : p'.Ok) (hsearch : keyDup = false → p'.Searchable f)
    {i : Nat} {k : K} {d : D} (hempty : p.base.entries[i]? = some none) (hfresh : k ∉ p.freedKeys)
    (hnew : keyFree = true → k ∉ p.keys)
    (hput : p' = { p with base := {
      p.base.setEntries (p.base.entries.set i (some ⟨k, d⟩)) with size := wrap (p.base.size + 1) } }) :
    Sound f keyDup keyFree p' := by
  obtain ⟨hperm, hsize⟩ := h.ok.insert_perm h.consistent.size hempty (congrArg Process.base hput)
  have hkeys : p'.keys.Perm (k :: p.keys) := hperm.map Entry.key
  have hfreed : p'.freedKeys = p.freedKeys := by rw [hput]
  exact {
    ok := hok
    dup := by rw [hput]; exact h.dup
    free := by rw [hput]; exact h.free
    consistent := {
      size := by rw [hsize, h.consistent.size, hperm.length_eq, List.length_cons]
      live := fun key hkey => by
        rw [hfreed]
        rcases List.mem_cons.mp (hkeys.mem_iff.mp hkey) with rfl | hkey
        · exact hfresh
        · exact h.consistent.live key hkey }
    nodup := fun hfree => hkeys.nodup_iff.mpr (List.nodup_cons.mpr ⟨hnew hfree, h.nodup hfree⟩)
    searchable := hsearch }

theorem Sound.put (hmatch : ∀ k, f.compare k k = true) (h : Sound f keyDup keyFree p)
    (hcareful : Careful f p (.put key data calloc dup)) (hput : p.put f key data calloc dup = .ok (r, p')) :
    Sound f keyDup keyFree p' ∧ (r.isSome → (populated p'.base.entries).Perm (populated p.base.entries)) := by
  have hkeeps := h.ok.put hput
  have hsearch : keyDup = false → p'.Searchable f := by
    intro hdup
    rw [put_of_not_keyDup (h.dup.trans hdup)] at hput
    exact (h.ok.put hput).searchable (fun k k' _ heq => by cases heq) (h.searchable hdup)
  rcases put_cases hput with ⟨hr, rfl⟩ | ⟨k, d, p₁, rfl, rfl, hgrown, hrest⟩
  · exact ⟨h, fun _ => .refl _⟩
  have hperm := hgrown.perm h.ok hcareful.mergeFree
  obtain ⟨hsize, hfreed, hdup, hfree⟩ := hgrown.frame
  have hkeeps₁ : Keeps f True p p₁ := hgrown.keeps h.ok
  have h₁ : Sound f keyDup keyFree p₁ :=
    h.of_perm hkeeps₁.ok hperm hsize hfreed hdup hfree fun hd => hkeeps₁.searchable trivial (h.searchable hd)
  have hkeys : p₁.keys.Perm p.keys := hperm.map Entry.key
  rcases hrest with ⟨hr, rfl⟩ | ⟨rfl, i, k', hfind, hempty, hhanded, hp'⟩
  · exact ⟨h₁, fun _ => hperm⟩
  obtain ⟨hfresh, hnew⟩ := hcareful.owns k' hhanded
  refine ⟨h₁.insert hkeeps.ok hsearch hempty (by rwa [hfreed]) ?_ hp', fun hr => by cases hr⟩
  intro hkeyFree hmem
  cases hd : keyDup with
  | true => exact hnew (h.dup.trans hd) (hkeys.mem_iff.mp hmem)
  | false =>
    -- a key that the map holds is found, and the slot would not be empty
    rw [h.dup, hd, if_neg Bool.false_ne_true] at hhanded
    cases hhanded
    obtain ⟨e, he, hkey⟩ := List.mem_map.mp hmem
    have hmiss := h₁.ok.absent_of_find (h₁.searchable hd) hfind hempty he (by rw [hkey])
    rw [hkey, hmatch k] at hmiss
    cases hmiss

theorem Sound.reserve {capacity : Nat} (h : Sound f keyDup keyFree p)
    (hcareful : Careful f p (.reserve capacity calloc)) (hreserve : p.reserve f capacity calloc = .ok (r, p')) :
    Sound f keyDup keyFree p' ∧ (r.isSome → p' = p) := by
  have hkeeps (regular : Prop) : Keeps f regular p p' := h.ok.reserve hreserve
  have hsearch : keyDup = false → p'.Searchable f := fun hd =>
    (hkeeps True).searchable trivial (h.searchable hd)
  rcases reserve_cases hreserve with ⟨hr, rfl⟩ |
    ⟨sizeInit, hcalc, rfl, ⟨-, rfl⟩ | ⟨hlarger, addr, entries, rfl, -, hloop, rfl⟩⟩
  · exact ⟨h, fun _ => rfl⟩
  · exact ⟨h.of_perm (hkeeps True).ok (.refl _) rfl rfl rfl rfl hsearch, fun hr => by cases hr⟩
  · have hsize := isSize_of_sizeMin hcalc
    have hperm := replaced_perm hsize (hcareful.mergeFree ⟨sizeInit, hcalc, hlarger⟩) hloop
    exact ⟨h.of_perm (hkeeps True).ok hperm rfl rfl rfl rfl hsearch, fun hr => by cases hr⟩

theorem Sound.remove (h : Sound f keyDup keyFree p) (hremove : p.remove f key = .ok (data, p')) :
    Sound f keyDup keyFree p' := by
  have hkeeps (regular : Prop) : Keeps f regular p p' := h.ok.remove hremove
  have hsearch : keyDup = false → p'.Searchable f := fun hd =>
    (hkeeps True).searchable trivial (h.searchable hd)
  rcases remove_cases hremove with rfl | ⟨i, e, entries, he, hloop, hbase, hfreed, -⟩
  · exact h
  obtain ⟨hperm, hsize⟩ := h.ok.remove_perm h.consistent.size he hloop hbase
  have hkeys : (e.key :: p'.keys).Perm p.keys := hperm.map Entry.key
  exact {
    ok := (hkeeps True).ok
    dup := by rw [hbase]; exact h.dup
    free := by rw [hbase]; exact h.free
    consistent := {
      size := by
        have hlength := hperm.length_eq
        rw [List.length_cons, ← h.consistent.size] at hlength
        omega
      live := fun key hkey => by
        have hlive := h.consistent.live key (hkeys.mem_iff.mp (List.mem_cons_of_mem _ hkey))
        rw [hfreed]
        cases hfree : p.base.keyFree with
        | false => exact hlive
        | true =>
          have hnodup := hkeys.nodup_iff.mpr (h.nodup (h.free.symm.trans hfree))
          have hne : key ≠ e.key := fun heq => (List.nodup_cons.mp hnodup).1 (heq ▸ hkey)
          rw [if_pos rfl, List.mem_cons]
          exact not_or.mpr ⟨hne, hlive⟩ }
    nodup := fun hfree => (List.nodup_cons.mp (hkeys.nodup_iff.mpr (h.nodup hfree))).2
    searchable := hsearch }

theorem Sound.of_empty (h : Sound f keyDup keyFree p) (hok : p'.Ok) (hempty : populated p'.base.entries = [])
    (hsize : p'.base.size = 0) (hdup : p'.base.keyDup = p.base.keyDup)
    (hfree : p'.base.keyFree = p.base.keyFree) (hsearch : keyDup = false → p'.Searchable f) :
    Sound f keyDup keyFree p' := by
  have hkeys : p'.keys = [] := by rw [Process.keys, hempty]; rfl
  exact {
    ok := hok
    dup := hdup.trans h.dup
    free := hfree.trans h.free
    consistent := ⟨by rw [hsize, hempty]; rfl, by simp [hkeys]⟩
    nodup := by simp [hkeys]
    searchable := hsearch }

theorem Sound.clear (h : Sound f keyDup keyFree p) : Sound f keyDup keyFree p.clear := by
  have hkeeps : Keeps f True p p.clear := h.ok.clear
  refine h.of_empty hkeeps.ok ?_ ?_ ?_ ?_ fun hd => hkeeps.searchable trivial (h.searchable hd)
  · exact entries_cleared _ _
  · rfl
  · show p.freeKeys.base.keyDup = p.base.keyDup
    rw [freeKeys_base]
  · show p.freeKeys.base.keyFree = p.base.keyFree
    rw [freeKeys_base]

/-- A map without entries, when its size has been set to 0. -/
theorem Process.Searchable.emptied (h : p.Searchable f) (hempty : populated p.base.entries = []) :
    p.emptied.Searchable f := by
  refine .of_base rfl ⟨h.probed.chained, ?_⟩ (Nat.zero_le _)
  rw [countP_eq_length_populated]
  exact (congrArg List.length hempty).le

/-- A `reset` empties the map, unless it leaves the entries of one whose new table cannot be allocated. -/
theorem Sound.reset (h : Sound f keyDup keyFree p) (hstrands : ¬ p.Strands (.reset calloc)) :
    Sound f keyDup keyFree (p.reset calloc).2 := by
  have hkeeps : Keeps f (p.base.tableSize = p.base.tableSizeInit ∨ calloc.isSome) p (p.reset calloc).2 :=
    h.ok.reset
  by_cases hne : p.base.tableSize ≠ p.base.tableSizeInit
  · cases calloc with
    | none =>
      have hempty : populated p.base.entries = [] := by
        by_contra hentries
        exact hstrands ⟨rfl, hne, hentries⟩
      rw [reset_eq, if_pos hne] at hkeeps ⊢
      exact h.of_empty hkeeps.ok hempty rfl rfl rfl fun hd => (h.searchable hd).emptied hempty
    | some addr =>
      have hsearch := fun hd => hkeeps.searchable (.inr rfl) (h.searchable hd)
      rw [reset_eq, if_pos hne] at hkeeps hsearch ⊢
      exact h.of_empty hkeeps.ok (populated_replicate _) rfl rfl rfl hsearch
  · have hsearch := fun hd => hkeeps.searchable (.inl (not_not.mp hne)) (h.searchable hd)
    rw [reset_eq, if_neg hne] at hkeeps hsearch ⊢
    exact h.of_empty hkeeps.ok (entries_cleared _ _) rfl rfl rfl hsearch

/-- A `reset` that fails where there are entries leaves more of them than its size says. -/
theorem reset_not_consistent (hstrands : p.Strands (.reset none)) : ¬ Consistent (p.reset none).2 := by
  intro hconsistent
  obtain ⟨-, hne, hentries⟩ := hstrands
  rw [reset_eq, if_pos hne] at hconsistent
  have hsize : 0 = (populated p.base.entries).length := hconsistent.size
  exact hentries (List.eq_nil_of_length_eq_zero hsize.symm)

end

omit [DecidableEq K] in
theorem Sound.attempt (hmatch : ∀ k, f.compare k k = true) (h : Sound f keyDup keyFree p)
    (hcareful : Careful f p op) (hstrands : ¬ p.Strands op) {r : Option Errno}
    (hattempt : p.attempt f op = .ok (r, p')) : Sound f keyDup keyFree p' ∧
      (r.isSome → (∀ calloc, op ≠ .reset calloc) → (populated p'.base.entries).Perm (populated p.base.entries)) := by
  cases op with
  | put key data calloc dup =>
    obtain ⟨hsound, hperm⟩ := h.put hmatch hcareful hattempt
    exact ⟨hsound, fun hr _ => hperm hr⟩
  | reserve capacity calloc =>
    obtain ⟨hsound, hsame⟩ := h.reserve hcareful hattempt
    refine ⟨hsound, fun hr _ => ?_⟩
    rw [hsame hr]
  | reset calloc =>
    obtain rfl : (p.reset calloc).2 = p' := congrArg Prod.snd (Except.ok.inj hattempt)
    exact ⟨h.reset hstrands, fun _ hne => absurd rfl (hne calloc)⟩
  | remove key =>
    obtain ⟨p₁, hstep, hattempt⟩ := bind_eq_ok hattempt
    obtain ⟨⟨data, p₂⟩, hremove, hstep⟩ := bind_eq_ok hstep
    cases hstep
    cases hattempt
    exact ⟨h.remove hremove, fun hr => by cases hr⟩
  | clear =>
    cases hattempt
    exact ⟨h.clear, fun hr => by cases hr⟩
  | cleanup => exact hcareful.owns.elim

theorem EventRun.sound (hmatch : ∀ k, f.compare k k = true) {hist : List (Event K D)}
    (hrun : EventRun f keyDup keyFree hist p) : Sound f keyDup keyFree p := by
  apply hrun.invariant fun _ p => Sound f keyDup keyFree p
  · exact {
      ok := init_ok
      dup := rfl
      free := rfl
      consistent := ⟨rfl, fun _ hkey => by cases hkey⟩
      nodup := fun _ => List.nodup_nil
      searchable := fun _ => ⟨probed_nil, Nat.zero_le _⟩ }
  · intro hist p event p' h hstep
    cases event with
    | op op =>
      obtain ⟨hcareful, hstrands, r, hattempt⟩ := hstep
      exact (h.attempt hmatch hcareful hstrands hattempt).1
    | alloc key =>
      obtain ⟨hkey, rfl⟩ := hstep
      exact {
        ok := ⟨h.ok.sized, h.ok.region⟩
        dup := h.dup
        free := h.free
        consistent := ⟨h.consistent.size, fun k hk hfreed =>
          h.consistent.live k hk (List.mem_of_mem_filter hfreed)⟩
        nodup := h.nodup
        searchable := fun hd => ⟨(h.searchable hd).probed, (h.searchable hd).size⟩ }

/-- An operation that returns an errno has done no harm, in any state of such a run, exactly if it is not a
`reset` of a map with entries. -/
theorem error_paths_iff (hmatch : ∀ k, f.compare k k = true) {hist : List (Event K D)}
    (hrun : EventRun f keyDup keyFree hist p) (hcareful : Careful f p op) {errno : Errno}
    (hattempt : p.attempt f op = .ok (some errno, p')) : Unharmed p p' op ↔ ¬ p.Strands op := by
  have h := hrun.sound hmatch
  constructor
  · intro hunharmed hstrands
    obtain ⟨rfl, -⟩ := id hstrands
    obtain rfl : (p.reset none).2 = p' := congrArg Prod.snd (Except.ok.inj hattempt)
    exact reset_not_consistent hstrands hunharmed.consistent
  · intro hstrands
    obtain ⟨hsound, hperm⟩ := h.attempt hmatch hcareful hstrands hattempt
    exact ⟨hsound.consistent, hperm rfl⟩

/-- The map after the first `put`, which frees its keys. -/
def freeing : Process Nat Nat :=
  { oneEntry 33 1 with base := { (oneEntry 33 1).base with keyFree := true } }

/-- Two more keys are put, and the first one is removed. -/
def removedFirst : Process Nat Nat where
  base := {
    freeing.base with
    size := 2
    table := some ⟨4096, ((List.replicate 128 none).set 41 (some ⟨3, 5⟩)).set 73 (some ⟨2, 9⟩)⟩ }
  blocks := [4096]
  freedKeys := [1]
  reports := freeing.reports

theorem freeing_step : EventStep numbers (.init false true : Process Nat Nat)
    (.op (.put (some 1) (some 7) (some 4096) none)) freeing :=
  ⟨⟨fun _ _ => ⟨List.not_mem_nil, fun _ => List.not_mem_nil⟩, fun _ => List.Pairwise.nil⟩,
    not_strands fun _ heq => (by cases heq), none, rfl⟩

/-- A key is put into a table with room, in a map that does not copy keys and has freed none. -/
theorem EventRun.put {p p' : Process Nat Nat} {hist : List (Event Nat Nat)}
    (hrun : EventRun numbers false true hist p) (hfreed : p.freedKeys = []) (hdup : p.base.keyDup = false)
    (k d : Nat) (hattempt : p.attempt numbers (.put (some k) (some d) none none) = .ok (none, p')) :
    EventRun numbers false true (.op (.put (some k) (some d) none none) :: hist) p' := by
  refine hrun.next
    ⟨⟨fun k' _ => ⟨?_, fun hdup' => ?_⟩, fun h => h.elim⟩, not_strands fun _ heq => (by cases heq), none, hattempt⟩
  · rw [hfreed]
    exact List.not_mem_nil
  · rw [hdup] at hdup'
    cases hdup'

theorem removedFirst_run : EventRun numbers false true
    [.op (.remove (some 1)), .op (.put (some 3) (some 5) none none), .op (.put (some 2) (some 9) none none),
      .op (.put (some 1) (some 7) (some 4096) none)] removedFirst := by
  have hone : EventRun numbers false true [.op (.put (some 1) (some 7) (some 4096) none)] freeing :=
    Run.start.next freeing_step
  have hthree := (hone.put rfl rfl 2 9 rfl).put rfl rfl 3 5 rfl
  exact hthree.next ⟨⟨trivial, fun h => h.elim⟩, not_strands fun _ heq => (by cases heq), none, rfl⟩

/-- There is no memory for the larger table that `reserve` asks for, and the entries stay. -/
theorem error_paths_iff_removedFirst :
    ∃ p', removedFirst.attempt numbers (.reserve 200 none) = .ok (some .nomem, p') ∧
      populated p'.base.entries = [⟨3, 5⟩, ⟨2, 9⟩] ∧ p'.base.size = 2 ∧ p'.freedKeys = [1] ∧
      (Unharmed removedFirst p' (.reserve 200 none) ↔ ¬ removedFirst.Strands (.reserve 200 none)) := by
  have hcareful : Careful numbers removedFirst (.reserve 200 none) := ⟨trivial, fun h => h.elim⟩
  exact ⟨removedFirst, rfl, rfl, rfl, rfl, error_paths_iff (fun k => decide_eq_true rfl) removedFirst_run hcareful rfl⟩

/-- The same map, with its initial size lowered. -/
def lowered : Process Nat Nat := { freeing with base := { freeing.base with tableSizeInit := 32 } }

/-- A key is put, the initial size is lowered by `reserve`, and the new table of a `reset` cannot be
allocated: the size is 0, and the entry is still there, with a key that has been freed. -/
theorem failed_reset_strands :
    EventRun numbers false true [.op (.reserve 10 none), .op (.put (some 1) (some 7) (some 4096) none)] lowered ∧
    ∃ p', lowered.attempt numbers (.reset none) = .ok (some .nomem, p') ∧ p'.base.size = 0 ∧
      p'.base.entries[33]? = some (some ⟨1, 7⟩) ∧ 1 ∈ p'.freedKeys ∧ ¬ Unharmed lowered p' (.reset none) := by
  have hreserve : EventStep numbers freeing (.op (.reserve 10 none)) lowered :=
    ⟨⟨trivial, fun h => h.elim⟩, not_strands fun _ heq => (by cases heq), none, rfl⟩
  refine ⟨(Run.start.next freeing_step).next hreserve, (lowered.reset none).2, rfl, rfl, rfl, by decide, ?_⟩
  intro hunharmed
  exact absurd hunharmed.consistent.size (by decide)

end ManagedObject.Hashmap
