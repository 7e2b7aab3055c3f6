import ManagedObject.Hashmap.Refinement
import ManagedObject.Lib.Flow

/-!
# Collisions

The number of collisions of a key is how far its entry is from home. The total over all entries depends only on
the keys and on the size of the table: not on the calls that put them there, nor on their order, although the
slots that the entries are in do.
-/

namespace ManagedObject.Hashmap

open Format Linear Lib Outcome

variable {K D : Type} {f : Functions K} {p p' : Process K D} {entries : List (Option (Entry K D))}
  {e : Entry K D} {keyDup keyFree : Bool} {key : K} {d i n s total tableSize : Nat}

/-! ### The functions -/

/-- The loop of `managed_object_hashmap_base_collisions`. -/
def collisionsLoop (f : Functions K) (tableSize : Nat) (entries : List (Option (Entry K D))) (key : K) :
    Nat → Nat → Nat → Except Fault Nat
  | 0, i, _ => .ok i
  | rounds + 1, i, index =>
    match entries[index]? with
    | none => .error .outOfRange
    -- the key does not exist
    | some none => .ok 0
    | some (some e) =>
      if f.compare key e.key then .ok i
      else collisionsLoop f tableSize entries key rounds (i + 1) (probeNext tableSize index)

namespace Base

def collisions (f : Functions K) (b : Base K D) : Option K → Except Fault Nat
  | none => .ok 0
  | some key =>
    if b.functions then collisionsLoop f b.tableSize b.entries key b.tableSize 0 (calcIndex f b.tableSize key)
    else .error .nullFunction

/-- The loop of `managed_object_hashmap_base_collisions_mean` over the table. -/
def totalLoop (f : Functions K) (b : Base K D) : List (Option (Entry K D)) → Nat → Except Fault Nat
  | [], total => .ok total
  | none :: rest, total => totalLoop f b rest total
  | some e :: rest, total => do
    let n ← b.collisions f (some e.key)
    totalLoop f b rest (wrap (total + n))

/-- `managed_object_hashmap_base_collisions_mean`, before the total is divided by the size; `none` where the
function gives 0 for a map without entries. -/
def collisionsTotal (f : Functions K) (b : Base K D) : Except Fault (Option Nat) := do
  if b.size = 0 then return none
  let total ← totalLoop f b b.entries 0
  return some total

end Base

/-! ### Collisions of one key -/

/-- The loop passes entries with other keys. -/
theorem collisionsLoop_pass (hsize : IsSize entries.length) (hs : s < entries.length)
    (hmiss : ∀ j < d, ∃ e, slot entries ((s + j) % entries.length) = some e ∧ f.compare key e.key = false) :
    collisionsLoop f entries.length entries key (n + d) i s =
      collisionsLoop f entries.length entries key n (i + d) ((s + d) % entries.length) := by
  induction d generalizing i s with
  | zero => rw [Nat.add_zero, Nat.add_zero, Nat.add_zero, Nat.mod_eq_of_lt hs]
  | succ d ih =>
    obtain ⟨e, he, hother⟩ := hmiss 0 (Nat.succ_pos d)
    rw [Nat.add_zero, Nat.mod_eq_of_lt hs] at he
    have hnext : ∀ j, ((s + 1) % entries.length + j) % entries.length = (s + (j + 1)) % entries.length := by
      intro j
      rw [Nat.mod_add_mod, Nat.add_assoc, Nat.add_comm 1 j]
    have hrec := ih (i := i + 1) (s := (s + 1) % entries.length) (Nat.mod_lt _ hsize.pos) fun j hj => by
      rw [hnext]
      exact hmiss (j + 1) (by omega)
    rw [← Nat.add_assoc, collisionsLoop, getElem?_eq_slot hs, he]
    dsimp only
    rw [hother, if_neg Bool.false_ne_true, probeNext_eq hsize hs, hrec, hnext]
    have hsum : i + 1 + d = i + (d + 1) := by omega
    rw [hsum]

theorem collisionsLoop_eq (hsize : IsSize entries.length) (hs : s < entries.length) :
    collisionsLoop f entries.length entries key entries.length 0 s =
      .ok (match walk (fun e => f.compare key e.key) entries entries.length s with
        | none => entries.length
        | some i => if (slot entries i).isSome then distance entries.length s i else 0) := by
  cases hwalk : walk (fun e => f.compare key e.key) entries entries.length s with
  | none =>
    have hpass := collisionsLoop_pass (n := 0) (i := 0) hsize hs (walk_eq_none hs hwalk)
    rwa [Nat.zero_add] at hpass
  | some i =>
    obtain ⟨d, hd, hend, hstop, hmiss⟩ := walk_eq_some hs hwalk
    have hpass := collisionsLoop_pass (n := entries.length - d - 1 + 1) (i := 0) hsize hs hmiss
    have hi : i < entries.length := by
      rw [← hend]
      exact Nat.mod_lt _ hsize.pos
    have hrounds : entries.length - d - 1 + 1 + d = entries.length := by omega
    rw [hrounds, hend, collisionsLoop, getElem?_eq_slot hi] at hpass
    rw [hpass]
    cases hslot : slot entries i with
    | none =>
      dsimp only
      rw [hslot]
      rfl
    | some e =>
      dsimp only
      rw [hslot, hstop e hslot, if_pos rfl, Option.isSome_some, if_pos rfl, Nat.zero_add, ← hend, distance_add hs hd]

/-- The entry of a key is as many collisions away from home as it is slots. -/
theorem Tidy.collisions_slot (hf : f.Lawful) (h : Tidy f p) (hfunctions : p.base.functions = true)
    (hi : slot p.base.entries i = some e) (hmatch : f.compare key e.key = true) :
    p.base.collisions f (some key) = .ok (distance p.base.tableSize (home f p.base.tableSize e) i) := by
  obtain ⟨t, -, hsize, hlength⟩ := h.ok.of_slot (lt_of_slot hi)
  have hprobed := h.searchable.probed
  rw [Base.collisions, if_pos hfunctions]
  rw [← hlength] at hsize hprobed ⊢
  have hhash := hf.hash key e.key hmatch
  have hhome : calcIndex f p.base.entries.length key = home f p.base.entries.length e := by
    rw [home, calcIndex, calcIndex, hhash]
  obtain ⟨j, e', hfind, hj, hmatch'⟩ := hprobed.find hsize hi hhash hmatch true
  rw [entryFind_eq hsize, Except.ok.injEq, Option.filter_eq_some_iff] at hfind
  obtain rfl := h.mergeFree.eq_of_match hf hi hj (hf.comparison.trans _ _ _ (hf.comparison.symm _ _ hmatch) hmatch')
  rw [collisionsLoop_eq hsize (calcIndex_lt hsize key), hfind.1]
  dsimp only
  rw [hi, Option.isSome_some, if_pos rfl, hhome]

theorem Tidy.collisions_absent (hf : f.Lawful) (h : Tidy f p) (hfunctions : p.base.functions = true)
    (habsent : p.view f key = none) : p.base.collisions f (some key) =
      .ok (if p.base.size = p.base.tableSize then p.base.tableSize else 0) := by
  rw [Base.collisions, if_pos hfunctions]
  cases htable : p.base.table with
  | none =>
    rw [h.ok.sized.none htable, ite_self]
    rfl
  | some t =>
    have hsize := (h.ok.sized.some t htable).1
    have hlength := h.length
    have hcount : p.base.entries.countP (Option.any fun _ => true) = (populated p.base.entries).length :=
      countP_eq_length_populated
    rw [← h.size] at hcount
    rw [← hlength] at hsize ⊢
    rw [collisionsLoop_eq hsize (calcIndex_lt hsize key)]
    cases hwalk : walk (fun e => f.compare key e.key) p.base.entries p.base.entries.length
        (calcIndex f p.base.entries.length key) with
    | none =>
      have hfull : p.base.size = p.base.entries.length := by
        rw [← hcount]
        by_contra hless
        have hle := List.countP_le_length (p := Option.any fun _ => true) (l := p.base.entries)
        obtain ⟨z, hz, hempty⟩ := exists_empty (t := p.base.entries) (by omega)
        obtain ⟨i, hi⟩ := exists_walk (fun e => f.compare key e.key) (calcIndex_lt hsize key) hz hempty
        rw [hwalk] at hi
        cases hi
      rw [if_pos hfull]
    | some i =>
      obtain ⟨d, hd, hend, hstop, -⟩ := walk_eq_some (calcIndex_lt hsize key) hwalk
      have hi : i < p.base.entries.length := by
        rw [← hend]
        exact Nat.mod_lt _ hsize.pos
      cases hslot : slot p.base.entries i with
      | some e =>
        rw [h.view_of_slot hf hslot (hstop e hslot)] at habsent
        cases habsent
      | none =>
        have hfree : p.base.size ≠ p.base.entries.length := by
          rw [← hcount]
          intro hfull
          have hoccupied := List.countP_eq_length.mp hfull none (List.mem_of_getElem? (i := i) ?_)
          · cases hoccupied
          · rw [getElem?_eq_slot hi, hslot]
        dsimp only
        rw [if_neg hfree, hslot]
        rfl

/-! ### The total -/

theorem totalLoop_eq {b : Base K D} {g : Entry K D → Nat} {rest : List (Option (Entry K D))}
    (hg : ∀ e ∈ populated rest, b.collisions f (some e.key) = .ok (g e))
    (hsum : total + ((populated rest).map g).sum < 2 ^ 64) :
    b.totalLoop f rest total = .ok (total + ((populated rest).map g).sum) := by
  induction rest generalizing total with
  | nil => rfl
  | cons entry rest ih =>
    cases entry with
    | none => exact ih hg hsum
    | some e =>
      have hpopulated : populated (some e :: rest) = e :: populated rest := rfl
      rw [hpopulated] at hg hsum ⊢
      rw [List.map_cons, List.sum_cons] at hsum ⊢
      rw [Base.totalLoop, hg e List.mem_cons_self]
      simp only [ok_bind]
      rw [wrap_of_lt (by omega), ih (fun e he => hg e (List.mem_cons_of_mem _ he)) (by omega), Nat.add_assoc]

theorem Tidy.collisionsTotal (hf : f.Lawful) (h : Tidy f p) (hfunctions : p.base.functions = true) :
    p.base.collisionsTotal f =
      .ok (if p.base.size = 0 then none else some (displacement (home f p.base.tableSize) p.base.entries)) := by
  unfold Base.collisionsTotal
  split
  · rfl
  · rename_i hsize
    have hlength := h.length
    have hdistance : ∀ i e, slot p.base.entries i = some e → p.base.collisions f (some e.key) =
        .ok (distance p.base.tableSize (home f p.base.tableSize e) i) :=
      fun i e hi => h.collisions_slot hf hfunctions hi (hf.comparison.refl e.key)
    obtain ⟨g, hg⟩ : ∃ g : Entry K D → Nat, ∀ i e, slot p.base.entries i = some e →
        p.base.collisions f (some e.key) = .ok (g e) := by
      refine ⟨fun e => ((p.base.collisions f (some e.key)).toOption).getD 0, fun i e hi => ?_⟩
      dsimp only
      rw [hdistance i e hi]
      rfl
    have hsum : ((populated p.base.entries).map g).sum = displacement (home f p.base.tableSize) p.base.entries := by
      rw [displacement, hlength, populated, ← slotSum_eq_sum]
      exact slotSum_congr fun i e hi => Except.ok.inj ((hg i e hi).symm.trans (hdistance i e hi))
    have hle : displacement (home f p.base.tableSize) p.base.entries ≤
        p.base.entries.length * p.base.entries.length := displacement_le
    have hbound : p.base.entries.length * p.base.entries.length ≤ 2 ^ 30 * 2 ^ 30 := by
      obtain ⟨e, he⟩ := List.exists_mem_of_length_pos (l := populated p.base.entries) (by rw [← h.size]; omega)
      obtain ⟨i, hi⟩ := mem_populated.mp he
      obtain ⟨t, -, hsize, hlength⟩ := h.ok.of_slot (lt_of_slot hi)
      rw [hlength]
      exact Nat.mul_le_mul hsize.le hsize.le
    have htotal : p.base.totalLoop f p.base.entries 0 = .ok (0 + ((populated p.base.entries).map g).sum) := by
      refine totalLoop_eq (fun e he => ?_) (by rw [hsum]; omega)
      obtain ⟨i, hi⟩ := mem_populated.mp he
      exact hg i e hi
    rw [htotal, hsum, Nat.zero_add]
    rfl

/-! ### Maps with the same keys -/

theorem view_isSome (hf : f.Lawful) (h : Tidy f p) :
    (p.view f key).isSome ↔ ∃ k ∈ (populated p.base.entries).map Entry.key, f.compare k key = true := by
  rw [Option.isSome_iff_exists]
  constructor
  · rintro ⟨d, hd⟩
    obtain ⟨e, he, hmatch, -⟩ := exists_of_view hd
    exact ⟨e.key, List.mem_map_of_mem he, hmatch⟩
  · rintro ⟨k, hk, hmatch⟩
    obtain ⟨e, he, rfl⟩ := List.mem_map.mp hk
    obtain ⟨i, hi⟩ := mem_populated.mp he
    exact ⟨e.data, h.view_of_slot hf hi (hf.comparison.symm _ _ hmatch)⟩

/-- Maps with the same keys have the same hash values in them. -/
theorem Tidy.hashes_perm (hf : f.Lawful) (h : Tidy f p) (h' : Tidy f p')
    (hkeys : ∀ key, (p'.view f key).isSome ↔ (p.view f key).isSome) :
    ((populated p'.base.entries).map fun e => f.hash e.key).Perm
      ((populated p.base.entries).map fun e => f.hash e.key) := by
  have hdistinct : ∀ {q : Process K D}, Tidy f q →
      ((populated q.base.entries).map Entry.key).Pairwise fun k k' => f.compare k k' = false := by
    intro q hq
    rw [List.pairwise_map]
    exact hq.mergeFree.imp fun {e e'} hmiss => by rwa [hf.comparison.comm]
  have hperm := hf.comparison.map_perm hf.hash (hdistinct h') (hdistinct h) (fun k hk => ?_) fun k hk => ?_
  · rwa [List.map_map, List.map_map] at hperm
  · obtain ⟨k', hk', hmatch⟩ := (view_isSome hf h).mp
      ((hkeys k).mp ((view_isSome hf h').mpr ⟨k, hk, hf.comparison.refl k⟩))
    exact ⟨k', hk', hf.comparison.symm _ _ hmatch⟩
  · exact (view_isSome hf h').mp ((hkeys k).mpr ((view_isSome hf h).mpr ⟨k, hk, hf.comparison.refl k⟩))

theorem settlers_of_hashes {entries' : List (Option (Entry K D))}
    (hperm : ((populated entries').map fun e => f.hash e.key).Perm ((populated entries).map fun e => f.hash e.key))
    (y : Nat) : settlers (home f tableSize) entries' y = settlers (home f tableSize) entries y := by
  have hlist : ∀ entries : List (Option (Entry K D)), settlers (home f tableSize) entries y =
      (((populated entries).map fun e => f.hash e.key).map fun hash =>
        if sizeMod tableSize (hashDefault (bytesOf hash)).toNat = y then 1 else 0).sum := by
    intro entries
    rw [settlers, slotSum_eq_sum, List.map_map]
    rfl
  rw [hlist, hlist]
  exact (hperm.map _).sum_eq

/-! ### Runs -/

variable {keyDup' keyFree' : Bool} {hist hist' : List (Call K D × Answer D)}

/-- The collisions of a key that the map holds are the slots from its home to its entry, those of another key
are none, or the whole table if that is full, and the total is the sum over the entries. -/
theorem collisions_eq (hf : f.Lawful) (hrun : CallRun f keyDup keyFree hist p)
    (hfunctions : p.base.functions = true) :
    (∀ key i e, slot p.base.entries i = some e → f.compare key e.key = true → p.base.collisions f (some key) =
      .ok (distance p.base.tableSize (home f p.base.tableSize e) i)) ∧
    (∀ key, p.get f (some key) = .ok none → p.base.collisions f (some key) =
      .ok (if p.base.size = p.base.tableSize then p.base.tableSize else 0)) ∧
    p.base.collisionsTotal f =
      .ok (if p.base.size = 0 then none else some (displacement (home f p.base.tableSize) p.base.entries)) := by
  obtain ⟨hserving, -⟩ := hrun.simulates hf
  refine ⟨fun key i e hi hmatch => hserving.tidy.collisions_slot hf hfunctions hi hmatch, fun key hget => ?_,
    hserving.tidy.collisionsTotal hf hfunctions⟩
  rw [hserving.get_eq hf hfunctions, Except.ok.injEq, Option.bind_some] at hget
  exact hserving.tidy.collisions_absent hf hfunctions hget

/-- Key 136 is two slots from its home, the others are in theirs. -/
theorem collisions_eq_crowded :
    (∀ key i e, slot crowded.base.entries i = some e → numbers.compare key e.key = true →
      crowded.base.collisions numbers (some key) =
        .ok (distance crowded.base.tableSize (home numbers crowded.base.tableSize e) i)) ∧
    (∀ key, crowded.get numbers (some key) = .ok none → crowded.base.collisions numbers (some key) =
      .ok (if crowded.base.size = crowded.base.tableSize then crowded.base.tableSize else 0)) ∧
    crowded.base.collisionsTotal numbers = .ok (if crowded.base.size = 0 then none else
      some (displacement (home numbers crowded.base.tableSize) crowded.base.entries)) ∧
    crowded.base.collisionsTotal numbers = .ok (some 2) := by
  obtain ⟨hstored, habsent, htotal⟩ := collisions_eq numbers_lawful crowded_calls rfl
  exact ⟨hstored, habsent, htotal, rfl⟩

/-- Two maps with tables of the same size that hold the same keys have the same slots occupied and the same
total of collisions, whatever the calls were and in whatever order. -/
theorem collisions_of_keys (hf : f.Lawful) (hrun : CallRun f keyDup keyFree hist p)
    (hfunctions : p.base.functions = true) (hrun' : CallRun f keyDup' keyFree' hist' p')
    (hfunctions' : p'.base.functions = true) (htableSize : p'.base.tableSize = p.base.tableSize)
    (hkeys : ∀ key, p'.get f (some key) = .ok none ↔ p.get f (some key) = .ok none) :
    p'.base.collisionsTotal f = p.base.collisionsTotal f ∧
      ∀ i < p.base.tableSize, (slot p'.base.entries i).isSome = (slot p.base.entries i).isSome := by
  obtain ⟨hserving, -⟩ := hrun.simulates hf
  obtain ⟨hserving', -⟩ := hrun'.simulates hf
  have h := hserving.tidy
  have h' := hserving'.tidy
  have hperm := h.hashes_perm hf h' fun key => by
    have hkey := hkeys key
    rw [hserving.get_eq hf hfunctions, hserving'.get_eq hf hfunctions', Except.ok.injEq, Except.ok.injEq,
      Option.bind_some, Option.bind_some] at hkey
    rw [← not_iff_not, Option.not_isSome_iff_eq_none, Option.not_isSome_iff_eq_none, hkey]
  have hsize : p'.base.size = p.base.size := by
    have hlength := hperm.length_eq
    rwa [List.length_map, List.length_map, ← h.size, ← h'.size] at hlength
  have hflow : displacement (home f p.base.tableSize) p'.base.entries =
      displacement (home f p.base.tableSize) p.base.entries ∧
      ∀ i < p.base.tableSize, (slot p'.base.entries i).isSome = (slot p.base.entries i).isSome := by
    have hlength := h.length
    have hlength' := h'.length
    rw [htableSize] at hlength'
    cases htable : p.base.table with
    | none =>
      rw [h.ok.sized.none htable] at hlength hlength' ⊢
      rw [List.eq_nil_of_length_eq_zero hlength, List.eq_nil_of_length_eq_zero hlength']
      exact ⟨rfl, fun i hi => absurd hi (Nat.not_lt_zero i)⟩
    | some t =>
      have hpower := (h.ok.sized.some t htable).1
      obtain ⟨c, hchained⟩ := h.searchable.probed.chained
      obtain ⟨c', hchained'⟩ := h'.searchable.probed.chained
      rw [htableSize] at hchained'
      have hhome : ∀ e : Entry K D, home f p.base.tableSize e < p.base.tableSize := fun e => home_lt hpower e
      have hsame := hchained.flow_eq (by rwa [hlength]) hchained' (by rwa [hlength']) (by rw [hlength, hlength'])
        fun y _ => settlers_of_hashes hperm y
      rwa [hlength] at hsame
  rw [h.collisionsTotal hf hfunctions, h'.collisionsTotal hf hfunctions', hsize, htableSize, hflow.1]
  exact ⟨rfl, hflow.2⟩

/-- The keys of `crowded` with other data, in the order in which the first table of 64 slots got them: here it
is 396 that was pushed over the end. -/
def reordered (entries : List (Option (Entry Nat Nat))) (size : Nat) : Process Nat Nat where
  base := {
    tableSizeInit := 64, tableSize := 64, size := size, table := some ⟨4096, entries⟩, functions := true
    keyDup := false, keyFree := false, onRealloc := true }
  blocks := [4096]
  freedKeys := []
  reports := [⟨some 4096, 128, some ⟨4096, List.replicate 64 none⟩, [4096]⟩]


def reorderedAll : Process Nat Nat :=
  reordered ((((List.replicate 64 none).set 63 (some ⟨136, 1⟩)).set 0 (some ⟨40, 2⟩)).set 1 (some ⟨396, 3⟩)) 3

theorem reordered_calls : CallRun numbers false false [
    (.op (.put (some 396) (some 3) (some 8192) none), .errno none),
    (.op (.put (some 40) (some 2) (some 8192) none), .errno none),
    (.op (.put (some 136) (some 1) (some 8192) none), .errno none),
    (.op (.reserve 40 (some 4096)), .errno none)] reorderedAll := by
  have hreserve : CallStep numbers (.init false false) (.op (.reserve 40 (some 4096)), .errno none)
      (reordered (List.replicate 64 none) 0) := callStep_reserve rfl List.not_mem_nil rfl
  have hlast : CallStep numbers (reordered (List.replicate 64 none) 0)
      (.op (.put (some 136) (some 1) (some 8192) none), .errno none)
      (reordered ((List.replicate 64 none).set 63 (some ⟨136, 1⟩)) 1) := callStep_put rfl (by decide) rfl
  have hfirst : CallStep numbers (reordered ((List.replicate 64 none).set 63 (some ⟨136, 1⟩)) 1)
      (.op (.put (some 40) (some 2) (some 8192) none), .errno none)
      (reordered (((List.replicate 64 none).set 63 (some ⟨136, 1⟩)).set 0 (some ⟨40, 2⟩)) 2) :=
    callStep_put rfl (by decide) rfl
  have hpushed : CallStep numbers
      (reordered (((List.replicate 64 none).set 63 (some ⟨136, 1⟩)).set 0 (some ⟨40, 2⟩)) 2)
      (.op (.put (some 396) (some 3) (some 8192) none), .errno none) reorderedAll :=
    callStep_put rfl (by decide) rfl
  exact (((Run.start.next hreserve).next hlast).next hfirst).next hpushed

theorem collisions_of_keys_reordered :
    reorderedAll.base.collisionsTotal numbers = crowded.base.collisionsTotal numbers ∧
      ∀ i < crowded.base.tableSize,
        (slot reorderedAll.base.entries i).isSome = (slot crowded.base.entries i).isSome := by
  obtain ⟨hserving, -⟩ := crowded_calls.simulates numbers_lawful
  obtain ⟨hserving', -⟩ := reordered_calls.simulates numbers_lawful
  refine collisions_of_keys numbers_lawful crowded_calls rfl reordered_calls rfl rfl fun key => ?_
  rw [hserving.get_eq numbers_lawful rfl, hserving'.get_eq numbers_lawful rfl, Except.ok.injEq, Except.ok.injEq,
    Option.bind_some, Option.bind_some, ← Option.not_isSome_iff_eq_none, ← Option.not_isSome_iff_eq_none,
    view_isSome numbers_lawful hserving.tidy, view_isSome numbers_lawful hserving'.tidy, not_iff_not]
  -- the same keys, in the order of the slots
  show (∃ k ∈ [40, 396, 136], _) ↔ ∃ k ∈ [40, 136, 396], _
  simp only [List.exists_mem_cons_iff, List.not_mem_nil, false_and, exists_false, or_false]
  exact or_congr_right Or.comm

end ManagedObject.Hashmap
