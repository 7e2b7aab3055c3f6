import ManagedObject.Metadata.Runs

/-!
# The table is a finite map

Two ways of using a table over strong buckets. With a hash function that does not depend on the
location of a key the answers of the MPS do not matter. With an address-based hash they do: a key
that moved sits on the path of its old address, and what the MPS promises about location
dependencies is what makes `table_find` rehash before it answers.
-/

namespace ManagedObject.Metadata

open Format Outcome Lib

variable {α : Type} [DecidableEq α] {W : World α} {hist : List (Call α × Answer α)}
  {start m : Machine α} {sizeofLd now length : Nat}

/-! ### A hash of the contents -/

theorem table_refines_map (hW : W.Lawful) (hfixed : W.Fixed)
    (hmake : makeTable W sizeofLd now length false false = .ok start)
    (hrun : CallRun W (fun hist _ c => Allowed W hist c) start hist m) :
    (∀ key, W.IsKey key → Meets (tableRef W m key) (FindStop W m) fun (v, _) =>
      v = (contents W.cmp hist key).getD W.null) ∧
    (∃ keys, Assoc.Keys W.cmp (contents W.cmp hist) keys ∧ tableSize m.tbl = .ok keys.length) ∧
    (∀ key value, W.IsKey key → Meets (tableTrySet W m key value) (FindStop W m) fun (res, m') =>
      res = false → (entries W m').Perm (entries W m)) ∧
    ∀ c, Allowed W hist c → Meets (m.call W c) (CallStop W m c) fun (answer, m') =>
      ∀ key, stored W m' key = contents W.cmp ((c, answer) :: hist) key := by
  have htracked := World.Tracked.of_fixed hW hfixed
  have hstart := ((makeTable_meets hW sizeofLd now length false false).of_ok hmake).1
  have hholds := hrun.holds hW htracked (fun _ _ _ h => h) hstart
  refine ⟨fun key hkey => ?_, hholds.size hW, fun key value hkey => ?_, fun c hc => ?_⟩
  · exact hholds.ref hW htracked hkey
  · obtain ⟨e, hok⟩ := hholds.table
    exact (tableTrySet_meets hW htracked hok hkey value).mono (fun _ h => h) fun _ h => h.2.2.2.1
  · exact (hholds.call hW htracked hc).mono (fun _ h => h) fun _ h => h.get

def digitCalls : List (Call Nat) := [.set 3 7, .set 4 8, .delete 4, .set 13 9]

def digitTable : Machine Nat where
  tbl := {
    keys := ⟨17, 3, 1, [1, 1, 1, 3, 1, 1, 1, 1]⟩
    values := ⟨17, 1, 1, [1, 1, 1, 9, 1, 1, 1, 1]⟩
    ld := ⟨[], 7⟩
    weakKey := false
    weakValue := false }
  now := 7
  calls := 2

theorem table_refines_map_digits :
    tableSize digitTable.tbl = .ok 1 ∧ ∃ m', tableRef digitWorld digitTable 23 = .ok (9, m') := by
  have hkeys : ∀ c ∈ digitCalls, ∀ hist, Allowed digitWorld hist c := by
    simp [digitCalls, Allowed, World.IsKey, digitWorld]
  have hrun : CallRun digitWorld (fun hist _ c => Allowed digitWorld hist c) emptyTable
      [(.set 13 9, .done), (.delete 4, .done), (.set 4 8, .done), (.set 3 7, .done)] digitTable :=
    CallRun.callAll .start (fun hist _ c hc => hkeys c hc hist)
      (rfl : emptyTable.callAll digitWorld [] digitCalls = _)
  have hmake : makeTable digitWorld 24 0 2 false false = .ok emptyTable := rfl
  obtain ⟨href, -⟩ := table_refines_map digitWorld_lawful (fun _ _ _ => rfl) hmake hrun
  obtain ⟨⟨v, m'⟩, hcall, rfl⟩ := returns_of_reserved (href 23 ⟨rfl, rfl⟩) (World.not_refuses fun _ _ => rfl)
  exact ⟨rfl, m', hcall⟩

/-! ### A hash of the address -/

/-- The objects are hashed by their addresses `loc` at a time and compared by identity, and the
MPS answers as it documents for `mps_ld_isstale`. `NULL` has the same address at all times. -/
structure World.Located (W : World α) (loc : Nat → α → BitVec 64)
    (hashAddr : BitVec 64 → BitVec 64) : Prop where
  eqp : ∀ a b, W.cmp a b = decide (a = b)
  hash : ∀ t k, W.hash t k = hashAddr (loc t k)
  addsToLd : W.addsToLd = true
  unused_ne_deleted : W.unused ≠ W.deleted
  null_fixed : ∀ t t', loc t W.null = loc t' W.null
  stale : ∀ calls ld t t₀ k, (k, t₀) ∈ ld.added → ld.reset ≤ t₀ → t₀ ≤ t → loc t k ≠ loc t₀ k →
    W.isStale calls ld t k = true
  quiet : ∀ calls ld t k, (∀ k' t', ld.reset ≤ t' → t' ≤ t → loc t' k' = loc ld.reset k') →
    W.isStale calls ld t k = false

variable {loc : Nat → α → BitVec 64} {hashAddr : BitVec 64 → BitVec 64}

theorem World.Located.lawful (h : W.Located loc hashAddr) : W.Lawful where
  comparison := {
    refl := fun a => by rw [h.eqp, decide_eq_true_eq]
    symm := fun a b hab => by
      rw [h.eqp, decide_eq_true_eq] at hab ⊢
      exact hab.symm
    trans := fun a b c hab hbc => by
      rw [h.eqp, decide_eq_true_eq] at hab hbc ⊢
      exact hab.trans hbc }
  hash_eq t a b hab := by
    rw [h.eqp, decide_eq_true_eq] at hab
    rw [hab]
  unused_ne_deleted := h.unused_ne_deleted

theorem World.Located.tracked (h : W.Located loc hashAddr) : W.Tracked := by
  intro calls ld t t₀ k k' hcmp hsince ht hadded
  rw [h.eqp, decide_eq_true_eq] at hcmp
  subst hcmp
  by_cases hmoved : loc t k = loc t₀ k
  · left
    rw [h.hash, h.hash, hmoved]
  · right
    refine ⟨?_, h.stale calls ld t t₀ k (hadded h.addsToLd) hsince ht hmoved⟩
    rintro rfl
    exact hmoved (h.null_fixed t t₀)

theorem World.Located.settled (h : W.Located loc hashAddr) : W.Settled := by
  intro calls ld key
  refine h.quiet calls ld ld.reset key fun k' t' hge hle => ?_
  rw [Nat.le_antisymm hle hge]

/-- Sets, deletes and lookups, with objects moving in between. -/
def Moving (W : World α) : Call α → Prop
  | .set key _ | .delete key | .ref key => W.IsKey key
  | .relocate => True
  | .trySet .. | .rehash .. | .scan _ => False

omit [DecidableEq α] in
theorem Moving.allowed {c : Call α} (h : Moving W c) : Allowed W hist c := by
  cases c with
  | set | delete | ref => exact h
  | relocate => trivial
  | trySet | rehash | scan => exact h.elim

theorem Holds.mem_entries_iff (hloc : W.Located loc hashAddr) (h : Holds W hist m) (k v : α) :
    (k, v) ∈ entries W m ↔ contents W.cmp hist k = some v := by
  have hW := hloc.lawful
  obtain ⟨e, hok⟩ := h.table
  rw [← h.get k]
  constructor
  · intro hmem
    exact Assoc.get_of_mem (p := (k, v)) hW.comparison (ArraysOk.distinct hok) hmem
      (hW.comparison.refl k)
  · intro hget
    obtain ⟨⟨k', v'⟩, hmem, hsame, hv⟩ := Assoc.exists_mem_of_get hget
    rw [hloc.eqp, decide_eq_true_eq] at hsame
    subst hsame hv
    exact hmem

theorem moved_keys_are_found (hloc : W.Located loc hashAddr)
    (hmake : makeTable W sizeofLd now length false false = .ok start)
    (hrun : CallRun W (fun _ _ c => Moving W c) start hist m) :
    (∀ key, W.IsKey key → Meets (tableRef W m key) (FindStop W m) fun (v, _) =>
      v = (contents W.cmp hist key).getD W.null) ∧
    ((entries W m).map Prod.fst).Nodup ∧
    (∀ k v, (k, v) ∈ entries W m ↔ contents W.cmp hist k = some v) ∧
    ∀ c, Moving W c → Meets (m.call W c) (fun s => CallStop W m c s ∧ s ≠ .aver) fun (answer, m') =>
      ∀ k v, (k, v) ∈ entries W m' ↔ contents W.cmp ((c, answer) :: hist) k = some v := by
  have hW := hloc.lawful
  have htracked := hloc.tracked
  have hstart := ((makeTable_meets hW sizeofLd now length false false).of_ok hmake).1
  have hholds := hrun.holds hW htracked (fun _ _ _ h => h.allowed) hstart
  refine ⟨fun key hkey => ?_, ?_, hholds.mem_entries_iff hloc, fun c hc => ?_⟩
  · exact hholds.ref hW htracked hkey
  · obtain ⟨e, hok⟩ := hholds.table
    rw [List.Nodup, List.pairwise_map]
    refine (ArraysOk.distinct hok).imp fun {p q} hne => ?_
    rw [hloc.eqp, decide_eq_false_iff_not] at hne
    exact hne
  · refine (hholds.call hW htracked hc.allowed).mono (fun s hs => ⟨hs, ?_⟩) fun _ h => h.mem_entries_iff hloc
    exact hs.ne_aver hloc.settled

def movingAddress (t k : Nat) : BitVec 64 := BitVec.ofNat 64 (if k = 0 then 0 else k + 8 * t)

/-- Numbers as references, hashed by addresses that change at every tick. -/
def movingWorld : World Nat where
  null := 0
  unused := 1
  deleted := 2
  managed k := 3 ≤ k
  hash t k := movingAddress t k
  addsToLd := true
  cmp a b := decide (a = b)
  isStale _ ld t k := ld.added.any fun p => p.1 = k && ld.reset ≤ p.2 && p.2 ≤ t &&
    movingAddress t k ≠ movingAddress p.2 k
  reserve _ _ := true

theorem movingWorld_located : movingWorld.Located movingAddress id where
  eqp _ _ := rfl
  hash _ _ := rfl
  addsToLd := rfl
  unused_ne_deleted := by decide
  null_fixed _ _ := rfl
  stale calls ld t t₀ k hadded hsince ht hmoved := by
    refine List.any_eq_true.mpr ⟨(k, t₀), hadded, ?_⟩
    simp [hsince, ht, hmoved]
  quiet calls ld t k hquiet := by
    refine List.any_eq_false.mpr fun p hp hstale => ?_
    simp only [Bool.and_eq_true, decide_eq_true_eq] at hstale
    obtain ⟨⟨⟨-, hsince⟩, ht⟩, hmoved⟩ := hstale
    exact hmoved ((hquiet k t (hsince.trans ht) le_rfl).trans (hquiet k p.2 hsince ht).symm)

def movingCalls : List (Call Nat) := [.set 3 7, .relocate, .set 4 8, .delete 4, .set 3 9, .relocate]

def movingTable : Machine Nat where
  tbl := {
    keys := ⟨17, 3, 1, [1, 1, 1, 3, 1, 1, 1, 1]⟩
    values := ⟨17, 1, 1, [1, 1, 1, 9, 1, 1, 1, 1]⟩
    ld := ⟨[(3, 8), (3, 8)], 8⟩
    weakKey := false
    weakValue := false }
  now := 9
  calls := 2

theorem moved_keys_are_found_moving : ∃ m', tableRef movingWorld movingTable 3 = .ok (9, m') := by
  have hkeys : ∀ c ∈ movingCalls, Moving movingWorld c := by
    simp [movingCalls, Moving, World.IsKey, movingWorld]
  have hrun : CallRun movingWorld (fun _ _ c => Moving movingWorld c) emptyTable
      [(.relocate, .done), (.set 3 9, .done), (.delete 4, .done), (.set 4 8, .done),
        (.relocate, .done), (.set 3 7, .done)] movingTable :=
    CallRun.callAll .start (fun _ _ c hc => hkeys c hc)
      (rfl : emptyTable.callAll movingWorld [] movingCalls = _)
  have hmake : makeTable movingWorld 24 0 2 false false = .ok emptyTable := rfl
  obtain ⟨href, -⟩ := moved_keys_are_found movingWorld_located hmake hrun
  obtain ⟨⟨v, m'⟩, hcall, rfl⟩ := returns_of_reserved (href 3 ⟨rfl, rfl⟩) (World.not_refuses fun _ _ => rfl)
  exact ⟨m', hcall⟩

end ManagedObject.Metadata
