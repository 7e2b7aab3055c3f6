import ManagedObject.Hashmap.Region

/-!
# The entries of a table

The populated entries, in the order of the table. A rehash permutes them where no two keys compare equal, a
put adds one, and a remove takes one out; where an operation fails, what it leaves.
-/

namespace ManagedObject.Hashmap

open Format Linear Lib Outcome

variable {K D : Type} {f : Functions K} {entries entries' old : List (Option (Entry K D))}
  {p p' p₁ : Process K D} {calloc : Option Nat} {e : Entry K D} {i n tableSize : Nat}

def populated (entries : List (Option (Entry K D))) : List (Entry K D) := entries.filterMap id

theorem mem_populated : e ∈ populated entries ↔ ∃ i, slot entries i = some e := by
  rw [populated, List.mem_filterMap]
  constructor
  · rintro ⟨x, hx, rfl⟩
    obtain ⟨i, hi⟩ := List.mem_iff_getElem?.mp hx
    exact ⟨i, slot_eq_some.mpr hi⟩
  · intro ⟨i, hi⟩
    exact ⟨some e, List.mem_of_getElem? (slot_eq_some.mp hi), rfl⟩

theorem countP_eq_length_populated :
    entries.countP (Option.any fun _ => true) = (populated entries).length := by
  induction entries with
  | nil => rfl
  | cons x entries ih =>
    cases x with
    | none => exact ih
    | some e =>
      rw [List.countP_cons_of_pos rfl, ih]
      rfl

theorem populated_perm (h : entries.Perm entries') : (populated entries).Perm (populated entries') :=
  h.filterMap id

theorem populated_replicate (n : Nat) : populated (List.replicate n (none : Option (Entry K D))) = [] := by
  induction n with
  | zero => rfl
  | succ n ih => exact ih

theorem populated_set (hi : i < entries.length) (hslot : slot entries i = none) (e : Entry K D) :
    (populated (entries.set i (some e))).Perm (e :: populated entries) := by
  have hgap : entries[i] = none := by
    rwa [slot, List.getElem?_eq_getElem hi, Option.join_some] at hslot
  have hwithout : (populated entries).Perm (populated (entries.eraseIdx i)) := by
    have hperm := populated_perm (List.getElem_cons_eraseIdx_perm hi)
    rw [hgap] at hperm
    exact hperm.symm
  exact (populated_perm (List.set_perm_cons_eraseIdx hi (some e))).trans (hwithout.symm.cons e)

theorem populated_clear (hslot : slot entries i = some e) :
    (e :: populated (entries.set i none)).Perm (populated entries) := by
  have hi := lt_of_slot hslot
  have hgap : slot (entries.set i none) i = none := by rw [slot_set hi, if_pos rfl]
  have hset := populated_set (by rwa [List.length_set]) hgap e
  have hsame : entries.set i (some e) = entries := by
    have hget := (List.getElem?_eq_some_iff.mp (slot_eq_some.mp hslot)).2
    rw [← hget]
    exact List.set_getElem_self hi
  rw [List.set_set, hsame] at hset
  exact hset.symm

/-! ### The loops -/

/-- What a search for a key ends at: an empty slot, or an entry whose key matches. -/
theorem slot_of_entryFind {key : K} {findEmpty : Bool} (hsize : IsSize entries.length)
    (hfind : entryFind f entries.length entries key findEmpty = .ok (some i)) :
    i < entries.length ∧ ∀ e, slot entries i = some e → f.compare key e.key = true := by
  have hlt := (reach_of_entryFind hsize hfind).1
  rw [entryFind_eq hsize, Except.ok.injEq, Option.filter_eq_some_iff] at hfind
  obtain ⟨d, -, -, hstop, -⟩ := walk_eq_some (calcIndex_lt hsize key) hfind.1
  exact ⟨hlt, hstop⟩

/-- A search for a key ends at a match, where the table has one that hashes as the key does. -/
theorem Probed.find {key : K} (hp : Probed f entries.length n entries) (hsize : IsSize entries.length)
    (hslot : slot entries i = some e) (hhash : f.hash key = f.hash e.key)
    (hmatch : f.compare key e.key = true) (findEmpty : Bool) :
    ∃ j e', entryFind f entries.length entries key findEmpty = .ok (some j) ∧ slot entries j = some e' ∧
      f.compare key e'.key = true := by
  obtain ⟨c, hchained⟩ := hp.chained
  have hreach := hchained.reach (home_lt hsize) hslot
  have hhome : calcIndex f entries.length key = home f entries.length e := by
    rw [home, calcIndex, calcIndex, hhash]
  obtain ⟨j, e', hwalk, hj, hfound⟩ :=
    hreach.walk (fun e => f.compare key e.key) (home_lt hsize e) hslot hmatch
  rw [← hhome] at hwalk
  refine ⟨j, e', ?_, hj, hfound⟩
  rw [entryFind_eq hsize, hwalk]
  simp [Option.filter_some, hj]

/-- No key of the table matches one before it. -/
def MergeFree (f : Functions K) (entries : List (Option (Entry K D))) : Prop :=
  (populated entries).Pairwise fun e e' => f.compare e'.key e.key = false

/-- A rehash overwrites no entry as long as the keys do not match. -/
theorem rehashLoop_perm (hsize : IsSize entries.length) (hfree : MergeFree f old)
    (hnew : ∀ e ∈ populated entries, ∀ e' ∈ populated old, f.compare e'.key e.key = false)
    (h : rehashLoop f entries.length old entries = .ok entries') :
    (populated entries').Perm (populated old ++ populated entries) := by
  induction old generalizing entries with
  | nil =>
    cases h
    exact .refl _
  | cons x old ih =>
    cases x with
    | none => exact ih hsize hfree hnew h
    | some e =>
      have hlength : ∀ i, (entries.set i (some e)).length = entries.length := fun _ => List.length_set
      have hcons : populated (some e :: old) = e :: populated old := rfl
      rw [MergeFree, hcons, List.pairwise_cons] at hfree
      rw [hcons] at hnew ⊢
      rw [rehashLoop] at h
      obtain ⟨found, hfind, h⟩ := bind_eq_ok h
      cases found with
      | none => cases h
      | some i =>
        obtain ⟨hi, hstop⟩ := slot_of_entryFind hsize hfind
        have hempty : slot entries i = none := by
          cases hslot : slot entries i with
          | none => rfl
          | some e' =>
            have hmiss := hnew e' (mem_populated.mpr ⟨i, hslot⟩) e List.mem_cons_self
            rw [hstop e' hslot] at hmiss
            cases hmiss
        have hset := populated_set hi hempty e
        rw [← hlength i] at h hsize
        have hrec := ih hsize hfree.2 ?_ h
        · calc (populated entries').Perm (populated old ++ populated (entries.set i (some e))) := hrec
            List.Perm _ (populated old ++ e :: populated entries) := hset.append_left _
            List.Perm _ (e :: populated old ++ populated entries) := List.perm_middle
        · intro e₁ he₁ e₂ he₂
          rcases List.mem_cons.mp (hset.mem_iff.mp he₁) with rfl | he₁
          · exact hfree.1 e₂ he₂
          · exact hnew e₁ he₁ e₂ (List.mem_cons_of_mem _ he₂)

/-- Removing an entry keeps the others. -/
theorem removeLoop_perm (hsize : IsSize entries.length) (hslot : slot entries i = some e)
    (hn : n < entries.length)
    (h : removeLoop f entries.length n (probeNext entries.length i) i entries = .ok entries') :
    (e :: populated entries').Perm (populated entries) := by
  have hi := lt_of_slot hslot
  rw [probeNext_eq hsize hi, removeLoop_eq hsize (Nat.mod_lt _ hsize.pos) hi] at h
  cases h
  have hperm := closeGap_perm (home f entries.length) (n := n) hi (d := 1) rfl Nat.one_pos (by omega)
  exact ((populated_perm hperm).cons e).trans (populated_clear hslot)

/-! ### New tables and new entries -/

/-- A new table holds the entries of the old one. -/
theorem replaced_perm {tableSize : Nat} {entries : List (Option (Entry K D))} (hsize : IsSize tableSize)
    (hfree : MergeFree f p.base.entries)
    (hloop : rehashLoop f tableSize p.base.entries (List.replicate tableSize none) = .ok entries) :
    (populated entries).Perm (populated p.base.entries) := by
  have hlength : (List.replicate tableSize (none : Option (Entry K D))).length = tableSize :=
    List.length_replicate
  have hnew := populated_replicate (K := K) (D := D) tableSize
  have hperm := rehashLoop_perm (by rwa [hlength]) hfree (by simp [hnew]) (by rwa [hlength])
  rwa [hnew, List.append_nil] at hperm

/-- The entries are as many as their slots at most. -/
theorem Process.Ok.size_le (hp : p.Ok) (hsize : p.base.size = (populated p.base.entries).length) :
    p.base.size ≤ p.base.tableSize ∧ p.base.tableSize ≤ 2 ^ 30 := by
  have hcount := List.countP_le_length (p := Option.any fun _ => true) (l := p.base.entries)
  rw [countP_eq_length_populated, ← hsize] at hcount
  cases htable : p.base.table with
  | none =>
    rw [Base.entries, htable] at hcount
    have hzero := hp.sized.none htable
    simp only [Option.elim_none, List.length_nil] at hcount
    omega
  | some t =>
    obtain ⟨hsized, hlength⟩ := hp.sized.some t htable
    rw [Base.entries, htable] at hcount
    exact ⟨hlength ▸ hcount, hsized.le⟩

theorem entries_cleared (b : Base K D) (n : Nat) : populated (b.setEntries (List.replicate n none)).entries = [] := by
  cases htable : b.table with
  | none =>
    rw [Base.setEntries, Base.entries, htable]
    rfl
  | some t =>
    rw [entries_setEntries _ htable]
    exact populated_replicate n

/-- What a `put` that succeeds does to the entries. -/
theorem Process.Ok.insert_perm (hp : p.Ok) (hsize : p.base.size = (populated p.base.entries).length)
    (hempty : p.base.entries[i]? = some none)
    (hput : p'.base = { p.base.setEntries (p.base.entries.set i (some e)) with size := wrap (p.base.size + 1) }) :
    (populated p'.base.entries).Perm (e :: populated p.base.entries) ∧ p'.base.size = p.base.size + 1 := by
  have hi : i < p.base.entries.length := (List.getElem?_eq_some_iff.mp hempty).1
  have hslot : slot p.base.entries i = none := by rw [slot, hempty]; rfl
  obtain ⟨t, htable, -, -⟩ := hp.of_slot hi
  obtain ⟨hle, hmax⟩ := hp.size_le hsize
  have hentries : p'.base.entries = p.base.entries.set i (some e) := by
    rw [hput]
    exact entries_setEntries _ htable
  constructor
  · rw [hentries]
    exact populated_set hi hslot e
  · rw [hput]
    exact wrap_of_lt (by omega)

/-- What a `remove` that finds its key does to the entries. -/
theorem Process.Ok.remove_perm (hp : p.Ok) (hsize : p.base.size = (populated p.base.entries).length)
    (he : slot p.base.entries i = some e)
    (hloop : removeLoop f p.base.tableSize (wrap (p.base.size + (2 ^ 64 - 1))) (probeNext p.base.tableSize i) i
      p.base.entries = .ok entries)
    (hremove : p'.base = { p.base.setEntries entries with size := wrap (p.base.size + (2 ^ 64 - 1)) }) :
    (e :: populated p'.base.entries).Perm (populated p.base.entries) ∧ p'.base.size + 1 = p.base.size := by
  obtain ⟨t, htable, hsized, hlength⟩ := hp.of_slot (lt_of_slot he)
  obtain ⟨hle, hmax⟩ := hp.size_le hsize
  have hpos : 0 < p.base.size := by
    rw [hsize]
    exact List.length_pos_of_mem (mem_populated.mpr ⟨i, he⟩)
  have hwrap : wrap (p.base.size + (2 ^ 64 - 1)) = p.base.size - 1 := by
    rw [wrap]
    omega
  rw [hwrap] at hloop hremove
  have hentries : p'.base.entries = entries := by
    rw [hremove]
    exact entries_setEntries _ htable
  rw [← hlength] at hloop hsized
  constructor
  · rw [hentries]
    exact removeLoop_perm hsized he (by omega) hloop
  · rw [hremove]
    dsimp only
    omega

/-- A search that ends at an empty slot has missed no key of the same hash. -/
theorem Process.Ok.absent_of_find {k : K} (hp : p.Ok) (hsearch : p.Searchable f)
    (hfind : p.base.find f k true = .ok (some i)) (hempty : p.base.entries[i]? = some none)
    (he : e ∈ populated p.base.entries) (hhash : f.hash k = f.hash e.key) : f.compare k e.key = false := by
  obtain ⟨j, hj⟩ := mem_populated.mp he
  obtain ⟨t, -, hsized, hlength⟩ := hp.of_slot (lt_of_slot hj)
  have hprobed := hsearch.probed
  have hfind := Base.find_ok hfind
  rw [← hlength] at hprobed hsized hfind
  by_contra hmatch
  rw [Bool.not_eq_false] at hmatch
  obtain ⟨i', e', hfound, hi', -⟩ := hprobed.find hsized hj hhash hmatch true
  rw [hfind] at hfound
  cases hfound
  rw [slot, hempty] at hi'
  cases hi'

end ManagedObject.Hashmap
