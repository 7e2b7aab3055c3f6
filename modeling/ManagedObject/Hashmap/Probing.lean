import ManagedObject.Hashmap.Model
import ManagedObject.Lib.Linear
import ManagedObject.Lib.Outcome

/-!
# The loops of the hashmap as linear probing

For a table whose size is a power of two the loops over its entries are those of linear probing: an entry
has its home at the index of its key, `entry_find` walks from there to the first empty entry or match, and
`entry_remove` closes the gap.
-/

namespace ManagedObject.Hashmap

open Format Linear

variable {K D : Type} {f : Functions K} {entries entries' : List (Option (Entry K D))}
  {old : List (Option (Entry K D))} {key : K} {e : Entry K D} {tableSize i n : Nat}

/-- What the code can compute as the size of a table. -/
def IsSize (n : Nat) : Prop := ∃ b ≤ 30, n = 2 ^ b

theorem IsSize.pos (hn : IsSize n) : 0 < n := by
  obtain ⟨b, -, rfl⟩ := hn
  exact Nat.two_pow_pos b

theorem IsSize.le (hn : IsSize n) : n ≤ 2 ^ 30 := by
  obtain ⟨b, hb, rfl⟩ := hn
  exact Nat.pow_le_pow_right (by decide) hb

theorem IsSize.dvd (hn : IsSize n) : n ∣ 2 ^ 64 := by
  obtain ⟨b, hb, rfl⟩ := hn
  exact Nat.pow_dvd_pow 2 (by omega)

theorem sizeMod_eq (hsize : IsSize tableSize) (n : Nat) : sizeMod tableSize n = n % tableSize := by
  have hpos := hsize.pos
  have hle := hsize.le
  have hmask : wrap (tableSize + (2 ^ 64 - 1)) = tableSize - 1 := by
    rw [wrap]
    omega
  rw [sizeMod, hmask]
  obtain ⟨b, -, rfl⟩ := hsize
  exact Nat.and_two_pow_sub_one_eq_mod n b

theorem probeNext_eq (hsize : IsSize tableSize) (hi : i < tableSize) :
    probeNext tableSize i = (i + 1) % tableSize := by
  have hle := hsize.le
  rw [probeNext, sizeMod_eq hsize, wrap_of_lt (by omega)]

/-- The code computes the distance of two entries in `size_t`. -/
theorem sizeMod_sub (hsize : IsSize tableSize) {home : Nat} (hhome : home < tableSize) :
    sizeMod tableSize (wrap (i + (2 ^ 64 - home))) = (i + tableSize - home) % tableSize := by
  have hle := hsize.le
  obtain ⟨q, hq⟩ := hsize.dvd
  have hq' : q ≠ 0 := by
    rintro rfl
    simp at hq
  obtain ⟨q, rfl⟩ := Nat.exists_eq_succ_of_ne_zero hq'
  rw [sizeMod_eq hsize, wrap, Nat.mod_mod_of_dvd _ hsize.dvd]
  have hsum : i + (2 ^ 64 - home) = i + tableSize - home + tableSize * q := by
    rw [hq, Nat.mul_succ]
    omega
  rw [hsum, Nat.add_mul_mod_self_left]

def home (f : Functions K) (tableSize : Nat) (e : Entry K D) : Nat := calcIndex f tableSize e.key

theorem calcIndex_lt (hsize : IsSize tableSize) (key : K) : calcIndex f tableSize key < tableSize := by
  rw [calcIndex, sizeMod_eq hsize]
  exact Nat.mod_lt _ hsize.pos

theorem home_lt (hsize : IsSize tableSize) (e : Entry K D) : home f tableSize e < tableSize :=
  calcIndex_lt hsize e.key

theorem getElem?_eq_slot (hi : i < entries.length) : entries[i]? = some (slot entries i) := by
  rw [slot, List.getElem?_eq_getElem hi, Option.join_some]

theorem removeLoop_eq {removed : Nat} (hsize : IsSize entries.length) (hi : i < entries.length)
    (hremoved : removed < entries.length) :
    removeLoop f entries.length n i removed entries =
      .ok (closeGap (home f entries.length) n i removed entries) := by
  induction n generalizing i removed entries with
  | zero => rfl
  | succ n ih =>
    rw [removeLoop, closeGap, getElem?_eq_slot hi]
    cases hslot : slot entries i with
    | none => rfl
    | some e =>
      have hlength : (entries.set removed (some e)).length = entries.length := List.length_set
      have hnext : (i + 1) % entries.length < entries.length := Nat.mod_lt _ hsize.pos
      dsimp only
      rw [sizeMod_sub hsize (calcIndex_lt hsize e.key), sizeMod_sub hsize (calcIndex_lt hsize e.key),
        probeNext_eq hsize hi]
      by_cases hmove : (i + entries.length - calcIndex f entries.length e.key) % entries.length >
          (removed + entries.length - calcIndex f entries.length e.key) % entries.length
      · have hsize' : IsSize (entries.set removed (some e)).length := by rwa [hlength]
        have hi' : i < (entries.set removed (some e)).length := by rwa [hlength]
        have hrec := ih hsize' (by rwa [hlength]) hi'
        rw [hlength] at hrec
        rw [if_pos hmove, hrec]
        exact congrArg Except.ok (if_pos hmove).symm
      · rw [if_neg hmove, ih hsize hnext hremoved]
        exact congrArg Except.ok (if_neg hmove).symm

theorem findLoop_eq (hsize : IsSize entries.length) (findEmpty : Bool) (hi : i < entries.length) :
    findLoop f entries.length entries key findEmpty n i =
      .ok ((walk (fun e => f.compare key e.key) entries n i).filter fun j =>
        findEmpty || (slot entries j).isSome) := by
  induction n generalizing i with
  | zero => rfl
  | succ n ih =>
    rw [findLoop, walk, getElem?_eq_slot hi]
    cases hslot : slot entries i with
    | none => cases findEmpty <;> simp [Option.filter_some, hslot]
    | some e =>
      dsimp only
      split
      · simp [Option.filter_some, hslot]
      · rw [probeNext_eq hsize hi]
        exact ih (Nat.mod_lt _ hsize.pos)

theorem entryFind_eq (hsize : IsSize entries.length) (findEmpty : Bool) :
    entryFind f entries.length entries key findEmpty =
      .ok ((walk (fun e => f.compare key e.key) entries entries.length (calcIndex f entries.length key)).filter
        fun j => findEmpty || (slot entries j).isSome) :=
  findLoop_eq hsize findEmpty (calcIndex_lt hsize key)

/-- The entry found for a key is reached from the home of the key. -/
theorem reach_of_entryFind (hsize : IsSize entries.length) {findEmpty : Bool}
    (hfind : entryFind f entries.length entries key findEmpty = .ok (some i)) :
    i < entries.length ∧ Reach entries (calcIndex f entries.length key) i := by
  rw [entryFind_eq hsize, Except.ok.injEq, Option.filter_eq_some_iff] at hfind
  have hreach := reach_of_walk (calcIndex_lt hsize key) hfind.1
  have hlt : i < entries.length := by
    obtain ⟨d, -, hend, -⟩ := hreach
    rw [← hend]
    exact Nat.mod_lt _ hsize.pos
  exact ⟨hlt, hreach⟩

/-! ### Chained tables -/

/-- Every entry is reached from its home, and there are at most `n` entries. -/
structure Probed (f : Functions K) (tableSize n : Nat) (entries : List (Option (Entry K D))) : Prop where
  chained : ∃ c, Chained (home f tableSize) entries c
  count : entries.countP (Option.any fun _ => true) ≤ n

theorem probed_nil : Probed f tableSize n ([] : List (Option (Entry K D))) :=
  ⟨⟨0, chained_replicate 0⟩, Nat.zero_le n⟩

theorem probed_replicate (length : Nat) :
    Probed f tableSize n (List.replicate length (none : Option (Entry K D))) := by
  constructor
  · exact ⟨0, chained_replicate length⟩
  · rw [List.countP_replicate, Option.any_none, if_neg Bool.false_ne_true]
    exact Nat.zero_le n

theorem countP_set_empty (hi : i < entries.length) (hempty : slot entries i = none) :
    (entries.set i (some e)).countP (Option.any fun _ => true) =
      entries.countP (Option.any fun _ => true) + 1 := by
  have hgap : entries[i] = none := by
    rw [slot, List.getElem?_eq_getElem hi, Option.join_some] at hempty
    exact hempty
  rw [List.countP_set hi, hgap, Option.any_none, if_neg Bool.false_ne_true, Option.any_some, if_pos rfl]
  omega

theorem countP_set_occupied {e' : Entry K D} {x : Option (Entry K D)} (he : slot entries i = some e') :
    (entries.set i x).countP (Option.any fun _ => true) + 1 =
      entries.countP (Option.any fun _ => true) + if x.isSome then 1 else 0 := by
  have hpos : 0 < entries.countP (Option.any fun _ => true) := by
    rw [List.countP_pos_iff]
    exact ⟨some e', List.mem_of_getElem? (slot_eq_some.mp he), rfl⟩
  rw [List.countP_set (lt_of_slot he), (List.getElem?_eq_some_iff.mp (slot_eq_some.mp he)).2,
    Option.any_some, if_pos rfl]
  cases x with
  | none =>
    simp
    omega
  | some e =>
    simp
    omega

theorem Probed.insert (hp : Probed f entries.length n entries) (hsize : IsSize entries.length)
    (hi : i < entries.length) (hempty : slot entries i = none)
    (hreach : Reach entries (calcIndex f entries.length e.key) i) :
    Probed f entries.length (n + 1) (entries.set i (some e)) := by
  obtain ⟨c, hchained⟩ := hp.chained
  constructor
  · exact hchained.insert (home_lt hsize) hi hempty hreach
  · rw [countP_set_empty hi hempty]
    exact Nat.succ_le_succ hp.count

theorem Probed.remove (hp : Probed f entries.length (n + 1) entries) (hsize : IsSize entries.length)
    (he : slot entries i = some e) :
    ∃ entries', removeLoop f entries.length n (probeNext entries.length i) i entries = .ok entries' ∧
      entries'.length = entries.length ∧ Probed f entries.length n entries' := by
  have hi := lt_of_slot he
  obtain ⟨c, hchained⟩ := hp.chained
  obtain ⟨hchained', hperm⟩ := hchained.remove (home_lt hsize) he hp.count
  rw [probeNext_eq hsize hi, removeLoop_eq hsize (Nat.mod_lt _ hsize.pos) hi]
  refine ⟨_, rfl, hperm.length_eq.trans List.length_set, hchained', ?_⟩
  have hcount := hp.count
  have hless := countP_set_occupied (x := none) he
  rw [hperm.countP_eq]
  simp only [Option.isSome_none, Bool.false_eq_true, if_false] at hless
  omega

theorem length_removeLoop {removed : Nat} (h' : removeLoop f tableSize n i removed entries = .ok entries') :
    entries'.length = entries.length := by
  induction n generalizing i removed entries with
  | zero =>
    cases h'
    exact List.length_set
  | succ n ih =>
    rw [removeLoop] at h'
    split at h'
    · cases h'
    · cases h'
      exact List.length_set
    · dsimp only at h'
      split at h'
      · rw [ih h', List.length_set]
      · exact ih h'

theorem length_rehashLoop (h' : rehashLoop f tableSize old entries = .ok entries') :
    entries'.length = entries.length := by
  induction old generalizing entries with
  | nil =>
    cases h'
    rfl
  | cons x old ih =>
    cases x with
    | none => exact ih h'
    | some e =>
      rw [rehashLoop] at h'
      obtain ⟨found, -, h'⟩ := Outcome.bind_eq_ok h'
      cases found with
      | none => cases h'
      | some i => rw [ih h', List.length_set]

/-- The new table of a rehash is chained, and has at most as many entries as the old one. -/
theorem Probed.rehash (hp : Probed f entries.length n entries) (hsize : IsSize entries.length)
    (hn : n + old.countP (Option.any fun _ => true) ≤ entries.length)
    (h' : rehashLoop f entries.length old entries = .ok entries') :
    Probed f entries.length (n + old.countP (Option.any fun _ => true)) entries' := by
  induction old generalizing n entries with
  | nil =>
    cases h'
    exact hp
  | cons x old ih =>
    cases x with
    | none => exact ih hp hsize hn h'
    | some e =>
      have hlength : ∀ i, (entries.set i (some e)).length = entries.length := fun _ => List.length_set
      have hcons : (some e :: old).countP (Option.any fun _ => true) =
          old.countP (Option.any fun _ => true) + 1 := List.countP_cons_of_pos rfl
      rw [hcons] at hn ⊢
      rw [rehashLoop] at h'
      obtain ⟨found, hfind, h'⟩ := Outcome.bind_eq_ok h'
      cases found with
      | none => cases h'
      | some i =>
        obtain ⟨hi, hreach⟩ := reach_of_entryFind hsize hfind
        have hset : Probed f entries.length (n + 1) (entries.set i (some e)) := by
          cases hslot : slot entries i with
          | none => exact hp.insert hsize hi hslot hreach
          | some e' =>
            -- an equal key is overwritten
            obtain ⟨c, hchained⟩ := hp.chained
            have hcount := hp.count
            obtain ⟨z, hz, hempty⟩ := exists_empty (t := entries) (by omega)
            have hzi : z ≠ i := by
              rintro rfl
              rw [hslot] at hempty
              cases hempty
            constructor
            · exact hchained.set (home_lt hsize) hi hreach hz (by rwa [slot_set hi, if_neg hzi])
            · have hsame := countP_set_occupied (x := some e) hslot
              rw [Option.isSome_some, if_pos rfl] at hsame
              omega
        rw [← hlength i] at hset h'
        have hrec := ih hset (by rwa [hlength]) (by rw [hlength]; omega) h'
        rw [hlength] at hrec
        have hsum : n + 1 + old.countP (Option.any fun _ => true) =
            n + (old.countP (Option.any fun _ => true) + 1) := by omega
        rwa [hsum] at hrec

end ManagedObject.Hashmap
