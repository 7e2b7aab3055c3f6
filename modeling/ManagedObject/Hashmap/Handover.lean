import ManagedObject.Hashmap.Errors
import ManagedObject.Lib.Assoc

/-!
# The order of a hand-over

The hook is called with the new table when the entries have been moved and before the old table is freed: it
is called once for each table, and the entries that it is shown are found where they are. `cleanup` calls it
with `NULL` before it frees the table, and gives the hook up.
-/

namespace ManagedObject.Hashmap

open Format Linear Lib Outcome

variable {K D : Type} {f : Functions K} {p p' p₁ : Process K D} {op : Op K D}
  {entries entries' : List (Option (Entry K D))} {e e' : Entry K D} {i j : Nat}

/-- The comparison is that of an equality, and the hash respects it. -/
structure Functions.Lawful (f : Functions K) : Prop where
  comparison : Assoc.Comparison f.compare
  hash : ∀ k k', f.compare k k' = true → f.hash k = f.hash k'

/-! ### Entries that do not match -/

theorem MergeFree.perm (hf : f.Lawful) (hfree : MergeFree f entries)
    (hperm : (populated entries').Perm (populated entries)) : MergeFree f entries' :=
  hperm.symm.pairwise hfree fun {e e'} hmiss => by rwa [hf.comparison.comm]

/-- Entries that match are the same. -/
theorem MergeFree.eq_of_match (hf : f.Lawful) (hfree : MergeFree f entries) (hi : slot entries i = some e)
    (hj : slot entries j = some e') (hmatch : f.compare e.key e'.key = true) : i = j := by
  rw [MergeFree, populated, List.pairwise_filterMap, List.pairwise_iff_getElem] at hfree
  obtain ⟨hlt, hi⟩ := List.getElem?_eq_some_iff.mp (slot_eq_some.mp hi)
  obtain ⟨hlt', hj⟩ := List.getElem?_eq_some_iff.mp (slot_eq_some.mp hj)
  rcases Nat.lt_trichotomy i j with hless | heq | hless
  · have hmiss := hfree i j hlt hlt' hless e hi e' hj
    rw [hf.comparison.comm, hmatch] at hmiss
    cases hmiss
  · exact heq
  · have hmiss := hfree j i hlt' hlt hless e' hj e hi
    rw [hmatch] at hmiss
    cases hmiss

/-- Each entry is where a search for its key ends. -/
theorem Probed.find_self {n : Nat} (hf : f.Lawful) (hp : Probed f entries.length n entries)
    (hsize : IsSize entries.length) (hfree : MergeFree f entries) (hi : slot entries i = some e) :
    entryFind f entries.length entries e.key false = .ok (some i) := by
  obtain ⟨j, e', hfind, hj, hmatch⟩ := hp.find hsize hi rfl (hf.comparison.refl e.key) false
  obtain rfl := hfree.eq_of_match hf hi hj hmatch
  exact hfind

/-! ### Runs -/

/-- What the allocators give: memory that is not in use, and a copy that matches the key. -/
def Op.Provided (f : Functions K) (p : Process K D) : Op K D → Prop
  | .put key _ calloc dup => (∀ addr, calloc = some addr → addr ∉ p.blocks) ∧
      ∀ k k', key = some k → dup = some k' → f.compare k k' = true
  | .reserve _ calloc => ∀ addr, calloc = some addr → addr ∉ p.blocks
  | .reset calloc => ∀ addr, calloc = some addr → addr ∉ p.blocks
  | _ => True

/-- The operation gets what it needs, and it is no `reset` that fails on a map with entries. -/
def Op.Granted (f : Functions K) (p : Process K D) (op : Op K D) : Prop := op.Provided f p ∧ ¬ p.Strands op

/-- What an operation gets from `calloc`, if it calls it. -/
def Op.allocation : Op K D → Option Nat
  | .put _ _ calloc _ => calloc
  | .reserve _ calloc => calloc
  | .reset calloc => calloc
  | _ => none

def Process.address (p : Process K D) : Option Nat := p.base.table.map Table.addr

/-- The table holds the entries once each, and each where a search finds it. -/
structure Holds (f : Functions K) (t : Table K D) (old : List (Option (Entry K D))) : Prop where
  entries : (populated t.entries).Perm (populated old)
  found : ∀ i e, slot t.entries i = some e → entryFind f t.entries.length t.entries e.key false = .ok (some i)

/-- How the hook is told of an operation. -/
structure Handover (f : Functions K) (p p' : Process K D) (op : Op K D) : Prop where
  /-- without a new table there is no call -/
  kept : op ≠ .cleanup → p'.address = p.address → p'.reports = p.reports
  failed : op ≠ .cleanup → op.allocation = none → p'.address = p.address
  /-- a new table is told of once, in the place of the old one, which has not been freed -/
  moved : op ≠ .cleanup → p'.address ≠ p.address → ∃ report t, p'.reports = report :: p.reports ∧
    p'.address = some t.addr ∧ report.newMem = some t.addr ∧ report.table = some t ∧
    (∀ old, p.address = some old → old ∈ report.blocks) ∧
    ((∀ calloc, op ≠ .reset calloc) → Holds f t p.base.entries)
  /-- `NULL` is told of before the table is freed -/
  cleanup : op = .cleanup → ∃ report, p'.reports = report :: p.reports ∧ report.newMem = none ∧
    report.table = p.base.table ∧ ∀ old, p.address = some old → old ∈ report.blocks ∧ old ∉ p'.blocks

/-- The invariant of such runs. -/
structure Tidy (f : Functions K) (p : Process K D) : Prop where
  ok : p.Ok
  searchable : p.Searchable f
  size : p.base.size = (populated p.base.entries).length
  mergeFree : MergeFree f p.base.entries
  owned : ∀ old, p.address = some old → old ∈ p.blocks

theorem Tidy.of_perm (hf : f.Lawful) (h : Tidy f p) (hok : p'.Ok) (hsearch : p'.Searchable f)
    (hperm : (populated p'.base.entries).Perm (populated p.base.entries)) (hsize : p'.base.size = p.base.size)
    (howned : ∀ old, p'.address = some old → old ∈ p'.blocks) : Tidy f p' where
  ok := hok
  searchable := hsearch
  size := by rw [hsize, h.size, hperm.length_eq]
  mergeFree := h.mergeFree.perm hf hperm
  owned := howned

theorem Tidy.of_empty (hok : p'.Ok) (hsearch : p'.Searchable f) (hempty : populated p'.base.entries = [])
    (hsize : p'.base.size = 0) (howned : ∀ old, p'.address = some old → old ∈ p'.blocks) : Tidy f p' where
  ok := hok
  searchable := hsearch
  size := by rw [hsize, hempty]; rfl
  mergeFree := by rw [MergeFree, hempty]; exact .nil
  owned := howned

/-! ### New tables -/

section
variable {addr tableSize : Nat}

/-- The new table is in use, and the old one is not. -/
theorem mem_blocks_replaced (h : Tidy f p) (hfresh : addr ∉ p.blocks) :
    addr ∈ (p.replaced addr tableSize entries).blocks := by
  rw [Process.replaced, List.mem_filter]
  refine ⟨List.mem_cons_self, decide_eq_true fun hold => ?_⟩
  exact hfresh (h.owned addr hold)

theorem owned_replaced (h : Tidy f p) (hfresh : addr ∉ p.blocks) (old : Nat)
    (hold : (p.replaced addr tableSize entries).address = some old) :
    old ∈ (p.replaced addr tableSize entries).blocks := by
  cases hold
  exact mem_blocks_replaced h hfresh

theorem handover_replaced (h : Tidy f p) (hhook : p.base.onRealloc = true) (hfresh : addr ∉ p.blocks)
    (hop : op ≠ .cleanup) (halloc : op.allocation = some addr) (haddress : p'.address = some addr)
    (hreports : p'.reports = (p.replaced addr tableSize entries).reports)
    (hholds : (∀ calloc, op ≠ .reset calloc) → Holds f ⟨addr, entries⟩ p.base.entries) : Handover f p p' op where
  kept _ hsame := by
    rw [haddress] at hsame
    exact absurd (h.owned addr hsame.symm) hfresh
  failed _ hnone := by
    rw [halloc] at hnone
    cases hnone
  moved _ _ := by
    rw [Process.replaced, if_pos hhook] at hreports
    refine ⟨_, ⟨addr, entries⟩, hreports, haddress, rfl, rfl, fun old hold => ?_, hholds⟩
    exact List.mem_cons_of_mem _ (h.owned old hold)
  cleanup heq := absurd heq hop

theorem handover_same (hop : op ≠ .cleanup) (haddress : p'.address = p.address)
    (hreports : p'.reports = p.reports) : Handover f p p' op where
  kept _ _ := hreports
  failed _ _ := haddress
  moved _ hne := absurd haddress hne
  cleanup heq := absurd heq hop

theorem Tidy.holds (hf : f.Lawful) (h : Tidy f p) (hsize : IsSize tableSize)
    (hperm : (populated entries).Perm (populated p.base.entries))
    (hkeeps : Keeps f True p (p.replaced addr tableSize entries)) : Holds f ⟨addr, entries⟩ p.base.entries where
  entries := hperm
  found i e hi := by
    have hlength : entries.length = tableSize := (hkeeps.ok.sized.some _ rfl).2
    have hprobed : Probed f tableSize p.base.size entries := (hkeeps.searchable trivial h.searchable).probed
    rw [← hlength] at hprobed hsize
    exact hprobed.find_self hf hsize (h.mergeFree.perm hf hperm) hi

end

/-! ### The operations -/

/-- What an operation does for the invariant and for the hook. -/
structure Told (f : Functions K) (p p' : Process K D) (op : Op K D) : Prop where
  tidy : ¬ p.Strands op → Tidy f p'
  handover : p.base.onRealloc = true → Handover f p p' op
  silent : p.base.onRealloc = false → p'.reports = p.reports
  hook : op ≠ .cleanup → p'.base.onRealloc = p.base.onRealloc

section
variable {calloc : Option Nat} {key dup : Option K} {data : Option D} {r : Option Errno}

theorem Told.of_same (hop : op ≠ .cleanup) (htidy : ¬ p.Strands op → Tidy f p') (haddress : p'.address = p.address)
    (hreports : p'.reports = p.reports) (hhook : p'.base.onRealloc = p.base.onRealloc) : Told f p p' op where
  tidy := htidy
  handover _ := handover_same hop haddress hreports
  silent _ := hreports
  hook _ := hhook

theorem silent_replaced {addr tableSize : Nat} (hhook : p.base.onRealloc = false) :
    (p.replaced addr tableSize entries).reports = p.reports := by
  rw [Process.replaced, hhook, if_neg Bool.false_ne_true]

/-- The map after the rehash of a `put` is as the one before it, with the same entries. -/
theorem Grown.tidy (hf : f.Lawful) (h : Tidy f p) (hfresh : ∀ addr, calloc = some addr → addr ∉ p.blocks)
    (hgrown : Grown f p calloc p₁) : Tidy f p₁ ∧ (populated p₁.base.entries).Perm (populated p.base.entries) := by
  have hkeeps : Keeps f True p p₁ := hgrown.keeps h.ok
  have hsearch := hkeeps.searchable trivial h.searchable
  cases hgrown with
  | same => exact ⟨h, .refl _⟩
  | replaced hcalc hlarger hcalloc hroom hloop =>
    have hperm := replaced_perm (isSize_init_of_calc h.ok hcalc).2 h.mergeFree hloop
    exact ⟨h.of_perm hf hkeeps.ok hsearch hperm rfl (owned_replaced h (hfresh _ hcalloc)), hperm⟩

/-- The hook is told of the rehash of a `put`, and what the `put` does then keeps the table. -/
theorem Grown.told (hf : f.Lawful) (h : Tidy f p) (hfresh : ∀ addr, calloc = some addr → addr ∉ p.blocks)
    (hgrown : Grown f p calloc p₁) (htidy : Tidy f p') (haddress : p'.address = p₁.address)
    (hreports : p'.reports = p₁.reports) (hhook : p'.base.onRealloc = p₁.base.onRealloc) :
    Told f p p' (.put key data calloc dup) := by
  have hop : Op.put key data calloc dup ≠ .cleanup := fun heq => by cases heq
  have hkeeps : Keeps f True p p₁ := hgrown.keeps h.ok
  cases hgrown with
  | same => exact .of_same hop (fun _ => htidy) haddress hreports hhook
  | replaced hcalc hlarger hcalloc hroom hloop =>
    have hsize := (isSize_init_of_calc h.ok hcalc).2
    have hperm := replaced_perm hsize h.mergeFree hloop
    exact {
      tidy := fun _ => htidy
      handover := fun honRealloc =>
        handover_replaced h honRealloc (hfresh _ hcalloc) hop hcalloc haddress hreports fun _ =>
          h.holds hf hsize hperm hkeeps
      silent := fun hsilent => hreports.trans (silent_replaced hsilent)
      hook := fun _ => hhook }

/-- A new entry matches none of the others. -/
theorem Tidy.insert (hf : f.Lawful) (h : Tidy f p) (hok : p'.Ok) (hsearch : p'.Searchable f) {k k' : K} {d : D}
    (hfind : p.base.find f k true = .ok (some i)) (hempty : p.base.entries[i]? = some none)
    (hcopy : f.compare k k' = true)
    (hput : p' = { p with base := {
      p.base.setEntries (p.base.entries.set i (some ⟨k', d⟩)) with size := wrap (p.base.size + 1) } }) :
    Tidy f p' := by
  obtain ⟨hperm, hsize⟩ := h.ok.insert_perm h.size hempty (congrArg Process.base hput)
  have hfree : ((⟨k', d⟩ : Entry K D) :: populated p.base.entries).Pairwise
      fun e e' => f.compare e'.key e.key = false := by
    refine List.pairwise_cons.mpr ⟨fun e he => ?_, h.mergeFree⟩
    by_contra hmatch
    rw [Bool.not_eq_false] at hmatch
    have hsame := hf.comparison.trans k k' e.key hcopy (hf.comparison.symm _ _ hmatch)
    have hmiss := h.ok.absent_of_find h.searchable hfind hempty he (hf.hash k e.key hsame)
    rw [hsame] at hmiss
    cases hmiss
  refine ⟨hok, hsearch, ?_, ?_, ?_⟩
  · rw [hsize, h.size, hperm.length_eq, List.length_cons]
  · exact hperm.symm.pairwise hfree fun {e e'} hmiss => by rwa [hf.comparison.comm]
  · subst hput
    intro old hold
    rw [Process.address, Base.setEntries, Option.map_map] at hold
    exact h.owned old hold

theorem Tidy.put (hf : f.Lawful) (h : Tidy f p) (hop : (Op.put key data calloc dup).Provided f p)
    (hput : p.put f key data calloc dup = .ok (r, p')) : Told f p p' (.put key data calloc dup) := by
  obtain ⟨hfresh, hcopy⟩ := hop
  have hkeeps := h.ok.put hput
  have hsearch : p'.Searchable f :=
    hkeeps.searchable (fun k k' hk hk' => (hf.hash k k' (hcopy k k' hk hk')).symm) h.searchable
  rcases put_cases hput with ⟨-, rfl⟩ | ⟨k, d, p₁, rfl, rfl, hgrown, hrest⟩
  · exact .of_same (fun heq => by cases heq) (fun _ => h) rfl rfl rfl
  obtain ⟨htidy, hperm⟩ := hgrown.tidy hf h hfresh
  rcases hrest with ⟨-, rfl⟩ | ⟨-, i, k', hfind, hempty, hhanded, hp'⟩
  · exact hgrown.told hf h hfresh htidy rfl rfl rfl
  have hmatch : f.compare k k' = true := by
    split at hhanded
    · exact hcopy k k' rfl hhanded
    · cases hhanded
      exact hf.comparison.refl k
  have htidy' := htidy.insert hf hkeeps.ok hsearch hfind hempty hmatch hp'
  subst hp'
  refine hgrown.told hf h hfresh htidy' ?_ rfl rfl
  rw [Process.address, Base.setEntries, Option.map_map]
  rfl

theorem Tidy.reserve (hf : f.Lawful) (h : Tidy f p) {capacity : Nat}
    (hop : (Op.reserve (K := K) (D := D) capacity calloc).Provided f p)
    (hreserve : p.reserve f capacity calloc = .ok (r, p')) : Told f p p' (.reserve capacity calloc) := by
  have hkeeps : Keeps f True p p' := h.ok.reserve hreserve
  have hsearch := hkeeps.searchable trivial h.searchable
  have hne : Op.reserve capacity calloc ≠ (.cleanup : Op K D) := fun heq => by cases heq
  rcases reserve_cases hreserve with ⟨-, rfl⟩ |
    ⟨sizeInit, hcalc, -, ⟨-, rfl⟩ | ⟨hlarger, addr, entries, rfl, hroom, hloop, rfl⟩⟩
  · exact .of_same hne (fun _ => h) rfl rfl rfl
  · exact .of_same hne (fun _ => h.of_perm hf hkeeps.ok hsearch (.refl _) rfl h.owned) rfl rfl rfl
  · have hsize := isSize_of_sizeMin hcalc
    have hperm := replaced_perm hsize h.mergeFree hloop
    have hinit : Tidy f { p with base := { p.base with tableSizeInit := sizeInit } } :=
      h.of_perm hf (h.ok.setInit hsize) ⟨h.searchable.probed, h.searchable.size⟩ (.refl _) rfl h.owned
    have hholds : Holds f ⟨addr, entries⟩ p.base.entries :=
      Tidy.holds (p := { p with base := { p.base with tableSizeInit := sizeInit } }) hf hinit hsize hperm
        ((Replaced.of_replaced _ _ _ _).keeps hinit.ok hsize hsize hroom hloop)
    exact {
      tidy := fun _ => h.of_perm hf hkeeps.ok hsearch hperm rfl (owned_replaced hinit (hop addr rfl))
      handover := fun honRealloc => handover_replaced h honRealloc (hop addr rfl) hne rfl rfl rfl fun _ => hholds
      silent := silent_replaced
      hook := fun _ => rfl }

theorem Tidy.remove (hf : f.Lawful) (h : Tidy f p) (hremove : p.remove f key = .ok (data, p')) :
    Told f p p' (.remove key) := by
  have hkeeps : Keeps f True p p' := h.ok.remove hremove
  have hne : Op.remove key ≠ (.cleanup : Op K D) := fun heq => by cases heq
  rcases remove_cases hremove with rfl | ⟨i, e, entries, he, hloop, hbase, -, hblocks, hreports⟩
  · exact .of_same hne (fun _ => h) rfl rfl rfl
  obtain ⟨hperm, hsize⟩ := h.ok.remove_perm h.size he hloop hbase
  have haddress : p'.address = p.address := by
    rw [Process.address, hbase, Base.setEntries, Option.map_map]
    rfl
  have htidy : Tidy f p' := by
    refine ⟨hkeeps.ok, hkeeps.searchable trivial h.searchable, ?_, ?_, ?_⟩
    · have hlength := hperm.length_eq
      rw [List.length_cons, ← h.size] at hlength
      omega
    · have hfree : (e :: populated p'.base.entries).Pairwise fun e e' => f.compare e'.key e.key = false :=
        hperm.symm.pairwise h.mergeFree fun {e e'} hmiss => by rwa [hf.comparison.comm]
      exact hfree.of_cons
    · rw [haddress, hblocks]
      exact h.owned
  exact .of_same hne (fun _ => htidy) haddress hreports (by rw [hbase]; rfl)

theorem freeKeys_blocks : p.freeKeys.blocks = p.blocks := by
  rw [Process.freeKeys]
  split <;> rfl

theorem Tidy.clear (h : Tidy f p) : Told f p p.clear .clear := by
  have hkeeps : Keeps f True p p.clear := h.ok.clear
  have haddress : p.clear.address = p.address := by
    rw [Process.address, Process.clear, Base.setEntries, Option.map_map, freeKeys_base]
    rfl
  have hblocks : p.clear.blocks = p.blocks := freeKeys_blocks
  have htidy : Tidy f p.clear :=
    .of_empty hkeeps.ok (hkeeps.searchable trivial h.searchable) (entries_cleared _ _) rfl
      (by rw [haddress, hblocks]; exact h.owned)
  refine .of_same (fun heq => by cases heq) (fun _ => htidy) haddress ?_ ?_
  · exact freeKeys_reports
  · show p.freeKeys.base.onRealloc = p.base.onRealloc
    rw [freeKeys_base]

theorem Tidy.emptied (h : Tidy f p) (old : Nat) (hold : p.address = some old) : old ∈ p.emptied.blocks := by
  show old ∈ p.freeKeys.blocks
  rw [freeKeys_blocks]
  exact h.owned old hold

theorem Tidy.reset (h : Tidy f p) (hop : (Op.reset (K := K) (D := D) calloc).Provided f p) :
    Told f p (p.reset calloc).2 (.reset calloc) := by
  have hne : Op.reset calloc ≠ (.cleanup : Op K D) := fun heq => by cases heq
  have hkeeps : Keeps f (p.base.tableSize = p.base.tableSizeInit ∨ calloc.isSome) p (p.reset calloc).2 :=
    h.ok.reset
  by_cases hsize : p.base.tableSize ≠ p.base.tableSizeInit
  · cases calloc with
    | none =>
      rw [reset_eq, if_pos hsize]
      refine .of_same hne (fun hstrands => ?_) rfl freeKeys_reports rfl
      have hempty : populated p.base.entries = [] := by
        by_contra hentries
        exact hstrands ⟨rfl, hsize, hentries⟩
      exact .of_empty h.ok.emptied (h.searchable.emptied hempty) hempty rfl h.emptied
    | some addr =>
      have hsearch := hkeeps.searchable (.inr rfl) h.searchable
      have hfresh : addr ∉ p.emptied.blocks := by
        show addr ∉ p.freeKeys.blocks
        rw [freeKeys_blocks]
        exact hop addr rfl
      rw [reset_eq, if_pos hsize] at hkeeps hsearch ⊢
      have howned : ∀ old,
          (p.emptied.replaced addr p.base.tableSizeInit (List.replicate p.base.tableSizeInit none)).address =
            some old →
          old ∈ (p.emptied.replaced addr p.base.tableSizeInit (List.replicate p.base.tableSizeInit none)).blocks := by
        intro old hold
        cases hold
        rw [Process.replaced, List.mem_filter]
        refine ⟨List.mem_cons_self, decide_eq_true fun hold => ?_⟩
        exact hfresh (h.emptied addr hold)
      exact {
        tidy := fun _ => .of_empty hkeeps.ok hsearch (populated_replicate _) rfl howned
        handover := fun honRealloc => {
          kept := fun _ hsame => absurd (h.emptied addr hsame.symm) hfresh
          failed := fun _ hnone => by cases hnone
          moved := fun _ _ => by
            have hreports : (p.emptied.replaced addr p.base.tableSizeInit
                (List.replicate p.base.tableSizeInit none)).reports = _ := if_pos honRealloc
            rw [show p.emptied.reports = p.reports from freeKeys_reports] at hreports
            refine ⟨_, ⟨addr, _⟩, hreports, rfl, rfl, rfl, fun old hold => ?_, fun hnot => absurd rfl (hnot _)⟩
            exact List.mem_cons_of_mem _ (h.emptied old hold)
          cleanup := fun heq => absurd heq hne }
        silent := fun hsilent => (silent_replaced (p := p.emptied) hsilent).trans freeKeys_reports
        hook := fun _ => rfl }
  · have hsearch := hkeeps.searchable (.inl (not_not.mp hsize)) h.searchable
    rw [reset_eq, if_neg hsize] at hkeeps hsearch ⊢
    have haddress : Process.address { p.emptied with
        base := p.emptied.base.setEntries (List.replicate p.base.tableSize none) } = p.address := by
      rw [Process.address, Base.setEntries, Option.map_map]
      rfl
    have htidy : Tidy f { p.emptied with
        base := p.emptied.base.setEntries (List.replicate p.base.tableSize none) } :=
      .of_empty hkeeps.ok hsearch (entries_cleared _ _) rfl (by rw [haddress]; exact h.emptied)
    exact .of_same hne (fun _ => htidy) haddress freeKeys_reports rfl

theorem Tidy.cleanup (h : Tidy f p) : Told f p p.cleanup .cleanup := by
  have hkeeps : Keeps f True p p.cleanup := h.ok.cleanup
  have hblocks : p.cleanup.blocks = p.blocks.filter fun addr => p.address ≠ some addr := by
    rw [Process.cleanup]
    dsimp only
    rw [report_base, freeKeys_base, Process.free, Process.report]
    split <;> rw [freeKeys_blocks] <;> rfl
  have hreports : p.cleanup.reports = (p.freeKeys.report none 0).reports := rfl
  rw [report_reports, freeKeys_base, freeKeys_reports, freeKeys_blocks] at hreports
  exact {
    tidy := fun _ => .of_empty hkeeps.ok (hkeeps.searchable trivial h.searchable) rfl rfl fun _ hold => by cases hold
    handover := fun honRealloc => {
      kept := fun hne => absurd rfl hne
      failed := fun hne => absurd rfl hne
      moved := fun hne => absurd rfl hne
      cleanup := fun _ => by
        rw [if_pos honRealloc] at hreports
        refine ⟨_, hreports, rfl, rfl, fun old hold => ⟨h.owned old hold, ?_⟩⟩
        rw [hblocks, List.mem_filter]
        rintro ⟨-, hkept⟩
        exact of_decide_eq_true hkept hold }
    silent := fun hsilent => by rw [hreports, hsilent, if_neg Bool.false_ne_true]
    hook := fun hne => absurd rfl hne }

end

theorem Tidy.step (hf : f.Lawful) (h : Tidy f p) (hop : op.Provided f p) (hstep : p.step f op = .ok p') :
    Told f p p' op := by
  cases op with
  | put key data calloc dup =>
    obtain ⟨⟨r, p₁⟩, hput, hstep⟩ := bind_eq_ok hstep
    cases hstep
    exact h.put hf hop hput
  | remove key =>
    obtain ⟨⟨data, p₁⟩, hremove, hstep⟩ := bind_eq_ok hstep
    cases hstep
    exact h.remove hf hremove
  | reserve capacity calloc =>
    obtain ⟨⟨r, p₁⟩, hreserve, hstep⟩ := bind_eq_ok hstep
    cases hstep
    exact h.reserve hf hop hreserve
  | clear =>
    cases hstep
    exact h.clear
  | reset calloc =>
    cases hstep
    exact h.reset hop
  | cleanup =>
    cases hstep
    exact h.cleanup

/-! ### Runs -/

variable {keyDup keyFree : Bool} {hist : List (Op K D)}

theorem tidy_init : Tidy f (.init keyDup keyFree : Process K D) :=
  .of_empty init_ok ⟨probed_nil, Nat.zero_le _⟩ rfl rfl fun _ hold => by cases hold

/-- The hook is installed until a `cleanup`. -/
theorem ProcessRun.tidy (hf : f.Lawful)
    (hrun : ProcessRun f (fun p op => op.Granted f p) keyDup keyFree hist p) :
    Tidy f p ∧ (.cleanup ∉ hist → p.base.onRealloc = true) ∧ (.cleanup ∈ hist → p.base.onRealloc = false) := by
  apply hrun.invariant fun hist p => Tidy f p ∧ (.cleanup ∉ hist → p.base.onRealloc = true) ∧
    (.cleanup ∈ hist → p.base.onRealloc = false)
  · exact ⟨tidy_init, fun _ => rfl, fun hmem => by cases hmem⟩
  · intro hist p op p' ⟨h, hhooked, hgone⟩ ⟨⟨hop, hstrands⟩, hstep⟩
    have htold := h.step hf hop hstep
    refine ⟨htold.tidy hstrands, ?_⟩
    by_cases hcleanup : op = .cleanup
    · subst hcleanup
      cases hstep
      exact ⟨fun hnot => absurd List.mem_cons_self hnot, fun _ => rfl⟩
    · rw [htold.hook hcleanup]
      refine ⟨fun hnot => hhooked fun hmem => hnot (List.mem_cons_of_mem _ hmem), fun hmem => ?_⟩
      rcases List.mem_cons.mp hmem with heq | hmem
      · exact absurd heq.symm hcleanup
      · exact hgone hmem

/-! ### Runs with errors -/

theorem step_of_attempt {r : Option Errno} (h : p.attempt f op = .ok (r, p')) : p.step f op = .ok p' := by
  cases op with
  | put key data calloc dup =>
    have hput : p.put f key data calloc dup = .ok (r, p') := h
    rw [Process.step, hput]
    rfl
  | reserve capacity calloc =>
    have hreserve : p.reserve f capacity calloc = .ok (r, p') := h
    rw [Process.step, hreserve]
    rfl
  | reset calloc => exact congrArg (Except.map Prod.snd) h
  | remove key | clear | cleanup =>
    obtain ⟨p₁, hstep, hattempt⟩ := bind_eq_ok h
    cases hattempt
    exact hstep

section
variable [DecidableEq K] {events : List (Event K D)}

/-- A client that owns its keys, and allocators that give what they are asked for or fail. -/
def LawfulStep (f : Functions K) (p : Process K D) : Event K D → Process K D → Prop
  | .op op, p' => p.Owns op ∧ op.Granted f p ∧ ∃ r, p.attempt f op = .ok (r, p')
  | .alloc key, p' => EventStep f p (.alloc key) p'

/-- With a hash that respects the comparison, no two keys of a table that is rehashed match. -/
theorem eventRun_of_lawful (hf : f.Lawful)
    (hrun : Run (fun _ => LawfulStep f) (.init keyDup keyFree) events p) :
    EventRun f keyDup keyFree events p ∧ Tidy f p := by
  apply hrun.invariant fun events p => EventRun f keyDup keyFree events p ∧ Tidy f p
  · exact ⟨.start, tidy_init⟩
  · intro events p event p' ⟨hevents, h⟩ hstep
    cases event with
    | op op =>
      obtain ⟨howns, ⟨hop, hstrands⟩, r, hattempt⟩ := hstep
      have hcareful : Careful f p op := ⟨howns, fun _ => h.mergeFree⟩
      exact ⟨hevents.next ⟨hcareful, hstrands, r, hattempt⟩,
        (h.step hf hop (step_of_attempt hattempt)).tidy hstrands⟩
    | alloc key =>
      refine ⟨hevents.next hstep, ?_⟩
      obtain ⟨-, rfl⟩ := hstep
      exact {
        ok := ⟨h.ok.sized, h.ok.region⟩
        searchable := ⟨h.searchable.probed, h.searchable.size⟩
        size := h.size
        mergeFree := h.mergeFree
        owned := h.owned }

end

/-! ### The hook -/

/-- Until a `cleanup` every new table is handed over, and then the hook is gone. -/
theorem tables_handed_over (hf : f.Lawful)
    (hrun : ProcessRun f (fun p op => op.Granted f p) keyDup keyFree hist p) (hop : op.Provided f p)
    (hstep : p.step f op = .ok p') :
    (.cleanup ∉ hist → Handover f p p' op) ∧ (.cleanup ∈ hist → p'.reports = p.reports) := by
  obtain ⟨h, hhooked, hgone⟩ := hrun.tidy hf
  have htold := h.step hf hop hstep
  exact ⟨fun hnot => htold.handover (hhooked hnot), fun hmem => htold.silent (hgone hmem)⟩

theorem numbers_lawful : numbers.Lawful where
  comparison := by
    constructor
    · exact fun a => decide_eq_true rfl
    · exact fun a b h => decide_eq_true (of_decide_eq_true h).symm
    · exact fun a b c h h' => decide_eq_true ((of_decide_eq_true h).trans (of_decide_eq_true h'))
  hash a b h := congrArg (BitVec.ofNat 64) (of_decide_eq_true h)

/-- The map with one entry, after its table has been replaced by one of 256 entries at 8192. -/
def regrown : Process Nat Nat where
  base := { (oneEntry 33 1).base with
    tableSizeInit := 256, tableSize := 256
    table := some ⟨8192, (List.replicate 256 none).set 33 (some ⟨1, 7⟩)⟩ }
  blocks := [8192]
  freedKeys := []
  reports := ⟨some 8192, 512, some ⟨8192, (List.replicate 256 none).set 33 (some ⟨1, 7⟩)⟩, [8192, 4096]⟩ ::
    (oneEntry 33 1).reports

/-- An entry is put, and `reserve` replaces the table. -/
theorem tables_handed_over_regrown :
    (.cleanup ∉ ([.put (some 1) (some 7) (some 4096) none] : List (Op Nat Nat)) →
      Handover numbers (oneEntry 33 1) regrown (.reserve 150 (some 8192))) ∧
    (.cleanup ∈ ([.put (some 1) (some 7) (some 4096) none] : List (Op Nat Nat)) →
      regrown.reports = (oneEntry 33 1).reports) := by
  have hput : Op.Granted numbers (.init false false) (.put (some 1) (some 7) (some 4096) none : Op Nat Nat) := by
    refine ⟨⟨fun addr _ => List.not_mem_nil, fun k k' _ hdup => ?_⟩, not_strands fun _ heq => (by cases heq)⟩
    cases hdup
  have hrun : ProcessRun numbers (fun p op => op.Granted numbers p) false false
      [.put (some 1) (some 7) (some 4096) none] (oneEntry 33 1) := Run.start.next ⟨hput, rfl⟩
  have hreserve : (Op.reserve 150 (some 8192) : Op Nat Nat).Provided numbers (oneEntry 33 1) := by
    intro addr haddr
    cases haddr
    decide
  exact tables_handed_over numbers_lawful hrun hreserve rfl

/-- After a `cleanup` the hook is gone: the table of a `reserve` is not handed over. -/
theorem table_not_handed_over :
    ∃ p p' : Process Nat Nat,
      ProcessRun numbers (fun p op => op.Granted numbers p) false false [.cleanup] p ∧
      (Op.reserve 10 (some 8192)).Provided numbers p ∧
      p.step numbers (.reserve 10 (some 8192)) = .ok p' ∧
      p.address = none ∧ p'.address = some 8192 ∧ p'.reports = p.reports ∧
      ¬ Handover numbers p p' (.reserve 10 (some 8192)) := by
  have hcleanup : Op.Granted numbers (.init false false) (.cleanup : Op Nat Nat) :=
    ⟨trivial, not_strands fun _ heq => (by cases heq)⟩
  refine ⟨Process.cleanup (.init false false), _, Run.start.next ⟨hcleanup, rfl⟩,
    fun _ _ => List.not_mem_nil, rfl, rfl, rfl, rfl, ?_⟩
  intro hhandover
  obtain ⟨report, t, hreports, -⟩ := hhandover.moved (fun heq => by cases heq) (by decide)
  exact List.cons_ne_self report _ hreports.symm

end ManagedObject.Hashmap
