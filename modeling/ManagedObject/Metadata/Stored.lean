import ManagedObject.Format.Fixing
import ManagedObject.Metadata.Scanning

/-!
# Bucket arrays in memory

The scanner of the format methods works on the bytes of memory, the scan of a table on its two arrays. Here a
bucket array of a table is at an address, each of its slots with the address of what it refers to, and the
scanner's loop does to memory what the scan does to the table: round by round, with the references that it
relocates and with those that die.
-/

namespace ManagedObject.Metadata

open Format Outcome Lib

variable {α : Type} {W : World α} {sizeofLd deleted obj other i n : Nat} {mem mem' mem₀ : Memory}
  {addr addr' : Nat → α → Nat} {old new : α → Nat} {dead : α → Bool} {F : Fix} {x : α} {b d : Buckets α} {w : Write}
  {s : Format.Scan}

def offsetofUsed : Nat := 24

/-- A bucket array at an address; `addr i` is where the references in slot `i` point to. -/
structure StoredAt (sizeofLd : Nat) (mem : Memory) (obj : Nat) (addr : Nat → α → Nat) (b : Buckets α) : Prop where
  laid : (Block.buckets b.bucket.length).Laid sizeofLd mem obj
  length : b.length = tagCount b.bucket.length
  used : word mem obj offsetofUsed = b.used
  deleted : word mem obj offsetofDeleted = b.deleted
  slot : ∀ i x, b.bucket[i]? = some x → word mem obj (offsetofSlot i) = addr i x

/-- Addresses of references: only `NULL` is at 0, and the id `deleted` is where the global ids say. -/
structure Addresses (W : World α) (deleted : Nat) (addr : α → Nat) : Prop where
  below : ∀ x, addr x < 2 ^ 64
  null : ∀ x, addr x = null ↔ x = W.null
  deleted : addr W.deleted = deleted

/-- The fix operation of a collection that moves references from `old` to `new`, but those in `dead` die. The
filter accepts every reference that dies, only references to managed objects do, and the id `deleted` does not. -/
structure Clears (W : World α) (deleted : Nat) (F : Fix) (old new : α → Nat) (dead : α → Bool) : Prop where
  target : Addresses W deleted new
  fixed : ∀ log x, F.fix1 (old x) = true → F.fix2 log (old x) = .ok (if dead x then null else new x)
  rejected : ∀ x, F.fix1 (old x) = false → new x = old x
  filter : ∀ x, dead x = true → F.fix1 (old x) = true
  managed : ∀ x, dead x = true → W.managed x = true
  named : deleted ≠ null
  kept : dead W.deleted = false

/-- The fix operation gives one address for another. -/
structure Leads (F : Fix) (a a' : Nat) : Prop where
  fixed : F.fix1 a = true → ∀ log, F.fix2 log a = .ok a'
  rejected : F.fix1 a = false → a = a'

/-! ### Stores -/

theorem tagCount_lt (i : Nat) : tagCount i < 2 ^ 64 := wrap_lt _

theorem word_store_self (offset : Nat) {v : Nat} (hv : v < 2 ^ 64) :
    word (mem.store (setWord obj offset v)) obj offset = v :=
  word_of_holds (Memory.holds_store hv)

theorem word_store_of_apart {offset : Nat} (h : w.Apart (setWord obj offset 0)) :
    word (mem.store w) obj offset = word mem obj offset := by
  apply Memory.load_congr
  intro a hlow hhigh
  apply Memory.store_outside
  have hfield : w.addr + w.width ≤ obj + offset ∨ obj + offset + sizeofPointer ≤ w.addr := h
  omega

theorem word_storeAll_of_apart {ws : List Write} {offset : Nat} (h : ∀ w ∈ ws, w.Apart (setWord obj offset 0)) :
    word (mem.storeAll ws) obj offset = word mem obj offset := by
  induction ws generalizing mem with
  | nil => rfl
  | cons w ws ih =>
    rw [Memory.storeAll_cons, ih fun w' hw' => h w' (List.mem_cons_of_mem _ hw')]
    exact word_store_of_apart (h w List.mem_cons_self)

theorem loadWord_run (obj offset : Nat) (s : Format.Scan) :
    loadWord obj offset s = .ok (word s.mem obj offset) s := rfl

theorem storeWord_run (obj offset v : Nat) (s : Format.Scan) :
    storeWord obj offset v s = .ok () ⟨s.mem.store (setWord obj offset v), s.log⟩ := rfl

theorem countDeleted_run (obj : Nat) (s : Format.Scan) : countDeleted obj s =
    .ok () ⟨s.mem.store (setWord obj offsetofDeleted (tagCount (untagCount (word s.mem obj offsetofDeleted) + 1))),
      s.log⟩ := rfl

/-- A store inside of a block does nothing outside of it. -/
theorem store_within {low high a : Nat} (h : w.Within low high) (ha : a < low ∨ high ≤ a) : mem.store w a = mem a := by
  obtain ⟨hlow, hhigh⟩ := h
  exact Memory.store_outside (by omega)

namespace StoredAt

/-- What is stored apart from the header, the counts and the slots leaves the array as it is. -/
theorem of_same (h : StoredAt sizeofLd mem obj addr b) (hhead : ∀ a, obj ≤ a → a < obj + 8 → mem' a = mem a)
    (hrest : ∀ a, obj + 16 ≤ a → a < obj + sizeofBuckets b.bucket.length → mem' a = mem a) :
    StoredAt sizeofLd mem' obj addr b := by
  have hword : ∀ offset, 16 ≤ offset → offset + 8 ≤ sizeofBuckets b.bucket.length →
      word mem' obj offset = word mem obj offset := by
    intro offset hlow hhigh
    apply Memory.load_congr
    intro a ha ha'
    simp only [sizeofPointer] at ha'
    exact hrest a (by omega) (by omega)
  have hsize : 40 ≤ sizeofBuckets b.bucket.length := Nat.le_add_right _ _
  refine ⟨⟨h.laid.fits, h.laid.below, ?_⟩, h.length, ?_, ?_, ?_⟩
  · intro w hw
    simp only [Block.header, List.mem_cons, List.not_mem_nil, or_false] at hw
    rcases hw with rfl | rfl
    · have htype := h.laid.holds (setType obj .metadataHashTableBucket) (by simp [Block.header])
      refine Eq.trans ?_ htype
      apply Memory.load_congr
      intro a ha ha'
      simp only [setType, offsetofType, sizeofType] at ha ha'
      exact hhead a (by omega) (by omega)
    · have hlength := h.laid.holds (setWord obj offsetofBucketsLength (tagCount b.bucket.length))
        (by simp [Block.header])
      exact (hword 16 (by omega) (by omega)).trans hlength
  · rw [hword offsetofUsed (by decide) (by simp only [offsetofUsed]; omega), h.used]
  · rw [hword offsetofDeleted (by decide) (by simp only [offsetofDeleted]; omega), h.deleted]
  · intro i x hx
    have hi := (List.getElem?_eq_some_iff.mp hx).1
    rw [hword _ (by simp only [offsetofSlot, offsetofBucket]; omega) ?_, h.slot i x hx]
    simp only [offsetofSlot, sizeofBuckets, offsetofBucket, sizeofPointer]
    omega

theorem store_apart (h : StoredAt sizeofLd mem obj addr b) {low high : Nat} (hw : w.Within low high)
    (hapart : high ≤ obj ∨ obj + sizeofBuckets b.bucket.length ≤ low) : StoredAt sizeofLd (mem.store w) obj addr b := by
  have hsize : 40 ≤ sizeofBuckets b.bucket.length := Nat.le_add_right _ _
  apply h.of_same
  · intro a ha ha'
    exact store_within hw (by omega)
  · intro a ha ha'
    exact store_within hw (by omega)

theorem store_dependent (h : StoredAt sizeofLd mem obj addr b) (v : Nat) :
    StoredAt sizeofLd (mem.store (setWord obj offsetofDependent v)) obj addr b := by
  have hw : (setWord obj offsetofDependent v).Within (obj + 8) (obj + 16) := by
    simp [offsetofDependent]
  apply h.of_same
  · intro a ha ha'
    exact store_within hw (by omega)
  · intro a ha ha'
    exact store_within hw (by omega)

/-- The parts of an array that a store leaves alone. -/
theorem of_words (h : StoredAt sizeofLd mem obj addr b) {c : Buckets α} {offset v : Nat}
    (hoffset : offsetofUsed ≤ offset) (hlength : c.length = b.length) (hbucket : c.bucket.length = b.bucket.length)
    (hused : word (mem.store (setWord obj offset v)) obj offsetofUsed = c.used)
    (hdeleted : word (mem.store (setWord obj offset v)) obj offsetofDeleted = c.deleted)
    (hslot : ∀ i x, c.bucket[i]? = some x → word (mem.store (setWord obj offset v)) obj (offsetofSlot i) = addr' i x) :
    StoredAt sizeofLd (mem.store (setWord obj offset v)) obj addr' c := by
  refine ⟨?_, by rw [hlength, hbucket]; exact h.length, hused, hdeleted, hslot⟩
  rw [hbucket]
  refine ⟨h.laid.fits, h.laid.below, ?_⟩
  intro w hw
  have hheader := h.laid.holds w hw
  have hapart : (setWord obj offset v).Apart w := by
    simp only [Block.header, List.mem_cons, List.not_mem_nil, or_false] at hw
    simp only [offsetofUsed] at hoffset
    rcases hw with rfl | rfl
    · rw [setWord_apart_setType]
      omega
    · simp only [Write.Apart, setWord, offsetofBucketsLength, sizeofPointer]
      omega
  have hkept : (mem.storeAll [setWord obj offset v]).Holds w := hheader.storeAll (by simpa using hapart)
  exact hkept

/-- One more deleted bucket, or any other count of them. -/
theorem store_deleted (h : StoredAt sizeofLd mem obj addr b) {v : Nat} (hv : v < 2 ^ 64) :
    StoredAt sizeofLd (mem.store (setWord obj offsetofDeleted v)) obj addr { b with deleted := v } := by
  refine h.of_words (by decide) rfl rfl ?_ (word_store_self _ hv) ?_
  · rw [word_store_of_apart (by simp [Write.Apart, setWord, offsetofUsed, offsetofDeleted, sizeofPointer]), h.used]
  · intro i x hx
    rw [word_store_of_apart ?_, h.slot i x hx]
    simp only [Write.Apart, setWord, offsetofDeleted, offsetofSlot, offsetofBucket, sizeofPointer]
    omega

theorem store_slot (h : StoredAt sizeofLd mem obj addr b) (hv : addr' i x < 2 ^ 64)
    (haddr : ∀ j, j ≠ i → addr' j = addr j) :
    StoredAt sizeofLd (mem.store (setWord obj (offsetofSlot i) (addr' i x))) obj addr' (b.write i x) := by
  refine h.of_words (Nat.le_trans (by decide) (Nat.le_add_right _ _)) rfl List.length_set ?_ ?_ ?_
  · rw [word_store_of_apart ?_, h.used]
    · rfl
    · simp only [Write.Apart, setWord, offsetofUsed, offsetofSlot, offsetofBucket, sizeofPointer]
      omega
  · rw [word_store_of_apart ?_, h.deleted]
    · rfl
    · simp only [Write.Apart, setWord, offsetofDeleted, offsetofSlot, offsetofBucket, sizeofPointer]
      omega
  · intro j y hy
    rw [Buckets.write, List.getElem?_set] at hy
    by_cases hj : i = j
    · subst hj
      rw [if_pos rfl] at hy
      split at hy
      · cases hy
        exact word_store_self _ hv
      · cases hy
    · rw [if_neg hj] at hy
      rw [word_store_of_apart ?_, h.slot j y hy, haddr j (Ne.symm hj)]
      simp only [Write.Apart, setWord, offsetofSlot, offsetofBucket, sizeofPointer]
      omega

/-- A reference that is in its slot already. -/
theorem write_of_word (h : StoredAt sizeofLd mem obj addr b) (hx : word mem obj (offsetofSlot i) = addr' i x)
    (haddr : ∀ j, j ≠ i → addr' j = addr j) : StoredAt sizeofLd mem obj addr' (b.write i x) := by
  have hlength : (b.write i x).bucket.length = b.bucket.length := List.length_set
  refine ⟨by rw [hlength]; exact h.laid, by rw [hlength]; exact h.length, h.used, h.deleted, fun j y hy => ?_⟩
  rw [Buckets.write, List.getElem?_set] at hy
  by_cases hj : i = j
  · subst hj
    rw [if_pos rfl] at hy
    split at hy
    · cases hy
      exact hx
    · cases hy
  · rw [if_neg hj] at hy
    rw [h.slot j y hy, haddr j (Ne.symm hj)]

/-- The slots may be seen at other addresses, if these are the ones that are there. -/
theorem congr_addr (h : StoredAt sizeofLd mem obj addr b)
    (haddr : ∀ i x, b.bucket[i]? = some x → addr' i x = addr i x) : StoredAt sizeofLd mem obj addr' b :=
  { h with slot := fun i x hx => (h.slot i x hx).trans (haddr i x hx).symm }

theorem storeAll_apart {ws : List Write} (h : StoredAt sizeofLd mem obj addr b)
    (hws : ∀ w ∈ ws, w.addr + w.width ≤ obj ∨ obj + sizeofBuckets b.bucket.length ≤ w.addr) :
    StoredAt sizeofLd (mem.storeAll ws) obj addr b := by
  induction ws generalizing mem with
  | nil => exact h
  | cons w ws ih =>
    have hfirst := h.store_apart (w := w) ⟨le_rfl, le_rfl⟩ (hws w List.mem_cons_self)
    exact ih hfirst fun w' hw' => hws w' (List.mem_cons_of_mem _ hw')

end StoredAt

/-! ### New arrays -/

theorem makeBuckets_apart (obj l unused : Nat) : (Format.makeBuckets obj l unused).Pairwise Write.Apart := by
  have hslots : ((List.range l).map fun i => setWord obj (offsetofBucket + i * sizeofPointer) unused).Pairwise
      Write.Apart := by
    rw [List.pairwise_map]
    refine List.pairwise_lt_range.imp fun {i j} hlt => ?_
    rw [setWord_apart_setWord]
    simp only [sizeofPointer]
    omega
  rw [Format.makeBuckets, List.pairwise_append]
  refine ⟨by simp [offsetofDependent, offsetofBucketsLength], hslots, ?_⟩
  intro w hw w' hw'
  obtain ⟨i, -, rfl⟩ := List.mem_map.mp hw'
  simp only [List.mem_cons, List.not_mem_nil, or_false] at hw
  rcases hw with rfl | rfl | rfl | rfl | rfl | rfl <;>
    simp only [setType_apart_setWord, setPinned_apart_setWord, setWord_apart_setWord, offsetofDependent,
      offsetofBucketsLength, offsetofBucket] <;> omega

/-- What `managed_obj_metadata_make_buckets` stores is an array with unused slots. -/
theorem makeBuckets_stored {l unused : Nat} (hfits : (Block.buckets l).Fits sizeofLd)
    (hbelow : obj + (Block.buckets l).size sizeofLd < 2 ^ 64) (hunused : unused < 2 ^ 64)
    (haddr : ∀ i, addr i W.unused = unused) :
    StoredAt sizeofLd (mem.storeAll (Format.makeBuckets obj l unused)) obj addr
      { length := tagCount l, used := tagCount 0, deleted := tagCount 0, bucket := List.replicate l W.unused } := by
  have hholds : ∀ w ∈ Format.makeBuckets obj l unused, w.value < 256 ^ w.width →
      (mem.storeAll (Format.makeBuckets obj l unused)).Holds w :=
    fun w hw hvalue => Memory.holds_storeAll (makeBuckets_apart obj l unused) hw hvalue
  have hcount : ∀ offset, setWord obj offset (tagCount 0) ∈ Format.makeBuckets obj l unused →
      word (mem.storeAll (Format.makeBuckets obj l unused)) obj offset = tagCount 0 :=
    fun offset hw => word_of_holds (hholds _ hw (setWord_value (tagCount_lt 0)))
  refine ⟨?_, by simp, hcount offsetofUsed (by simp [Format.makeBuckets, offsetofUsed]),
    hcount offsetofDeleted (by simp [Format.makeBuckets, offsetofDeleted]), fun i x hx => ?_⟩
  · rw [List.length_replicate]
    refine ⟨hfits, hbelow, fun w hw => ?_⟩
    simp only [Block.header, List.mem_cons, List.not_mem_nil, or_false] at hw
    rcases hw with rfl | rfl
    · exact hholds _ (by simp [Format.makeBuckets]) (setType_value obj .metadataHashTableBucket)
    · exact hholds _ (by simp [Format.makeBuckets]) (setWord_value (tagCount_lt l))
  · have hi : i < l := by
      have hlt := (List.getElem?_eq_some_iff.mp hx).1
      rwa [List.length_replicate] at hlt
    have hslot : setWord obj (offsetofSlot i) unused ∈ Format.makeBuckets obj l unused :=
      List.mem_append_right _ (List.mem_map_of_mem (List.mem_range.mpr hi))
    rw [List.eq_of_mem_replicate (List.mem_of_getElem? hx), haddr]
    exact word_of_holds (hholds _ hslot (setWord_value hunused))

/-- A table that has been made: two new arrays of the rounded length. -/
theorem makeTable_arrays {now length : Nat} {weakKey weakValue : Bool} {m : Machine α} {l : Nat}
    (hround : roundUp length 65 1 = .ok l) (hmake : makeTable W sizeofLd now length weakKey weakValue = .ok m) :
    (Block.buckets l).Fits sizeofLd ∧ ∀ c, c = m.tbl.keys ∨ c = m.tbl.values →
      c = { length := tagCount l, used := tagCount 0, deleted := tagCount 0, bucket := List.replicate l W.unused } := by
  obtain ⟨e, -, rfl, -⟩ := (roundUp_meets length 65 0 (by decide)).of_ok hround
  rw [makeTable] at hmake
  split at hmake
  · cases hmake
  · rw [hround] at hmake
    obtain ⟨_, hl, hmake⟩ := bind_eq_ok hmake
    cases hl
    obtain ⟨keys, hkeys, hmake⟩ := bind_eq_ok hmake
    obtain ⟨values, hvalues, hmake⟩ := bind_eq_ok hmake
    cases hmake
    obtain ⟨he, hkeys⟩ := (makeBuckets_meets W (now + 1) e).of_ok hkeys
    obtain ⟨-, hvalues⟩ := (makeBuckets_meets W (now + 2) e).of_ok hvalues
    have hpow : 2 ^ e ≤ 2 ^ 60 := Nat.pow_le_pow_right (by decide) he
    refine ⟨⟨?_, trivial⟩, ?_⟩
    · simp only [Block.needs, offsetofBucket, sizeofPointer, alignment]
      omega
    · rintro c (rfl | rfl)
      · exact hkeys
      · exact hvalues

/-- What `managed_obj_metadata_make_table` stores, in whatever memory there was, is the new table: it has two arrays of
the rounded length with unused slots, and each is the other's dependent. -/
theorem makeTable_stored {keys values now length : Nat} {weakKey weakValue : Bool} {m : Machine α} (parts : TableParts)
    (hround : roundUp length 65 1 = .ok parts.l)
    (hmake : makeTable W sizeofLd now length weakKey weakValue = .ok m)
    (hunused : parts.unused < 2 ^ 64) (haddr : ∀ i, addr i W.unused = parts.unused)
    (harrays : Separate keys (sizeofBuckets parts.l) values (sizeofBuckets parts.l))
    (hkeys : Separate obj (sizeofHashtable sizeofLd) keys (sizeofBuckets parts.l))
    (hvalues : Separate obj (sizeofHashtable sizeofLd) values (sizeofBuckets parts.l))
    (hkeysBelow : keys + (Block.buckets parts.l).size sizeofLd < 2 ^ 64)
    (hvaluesBelow : values + (Block.buckets parts.l).size sizeofLd < 2 ^ 64) :
    let made := mem.storeAll (Format.makeTable sizeofLd obj keys values parts)
    (word made obj (offsetofKeys sizeofLd) = keys ∧ word made obj (offsetofValues sizeofLd) = values) ∧
      StoredAt sizeofLd made keys addr m.tbl.keys ∧ StoredAt sizeofLd made values addr m.tbl.values ∧
      word made keys offsetofDependent = values ∧ word made values offsetofDependent = keys := by
  obtain ⟨hfits, hnew⟩ := makeTable_arrays hround hmake
  rw [hnew _ (.inl rfl), hnew _ (.inr rfl)]
  generalize hc : (⟨tagCount parts.l, tagCount 0, tagCount 0, List.replicate parts.l W.unused⟩ : Buckets α) = c
  have hlength : c.bucket.length = parts.l := by
    rw [← hc]
    exact List.length_replicate
  have hsize : 40 ≤ sizeofBuckets parts.l := Nat.le_add_right _ _
  have hmade : ∀ {mem : Memory} {array}, array + (Block.buckets parts.l).size sizeofLd < 2 ^ 64 →
      StoredAt sizeofLd (mem.storeAll (Format.makeBuckets array parts.l parts.unused)) array addr c :=
    fun hbelow => hc ▸ makeBuckets_stored hfits hbelow hunused haddr
  have hbelow : keys < 2 ^ 64 ∧ values < 2 ^ 64 := by omega
  rw [Separate] at harrays hkeys hvalues
  simp only [sizeofHashtable] at hkeys hvalues
  simp only [Format.makeTable, Memory.storeAll_append, Memory.storeAll_cons, Memory.storeAll_nil]
  -- what an array is apart from: the fields of the table, and the other array
  have hfield : ∀ {mem : Memory} {array offset width v : Nat}, offset + width ≤ 56 + sizeofLd →
      obj + (56 + sizeofLd) ≤ array ∨ array + sizeofBuckets parts.l ≤ obj → StoredAt sizeofLd mem array addr c →
      StoredAt sizeofLd (mem.store ⟨obj + offset, width, v⟩) array addr c := by
    intro mem array offset width v hoffset hapart h
    refine h.store_apart ⟨le_rfl, le_rfl⟩ ?_
    rw [hlength]
    dsimp only
    omega
  have hlink : ∀ {mem : Memory} {array other v : Nat},
      array + sizeofBuckets parts.l ≤ other ∨ other + sizeofBuckets parts.l ≤ array →
      StoredAt sizeofLd mem array addr c →
      StoredAt sizeofLd (mem.store (setWord other offsetofDependent v)) array addr c := by
    intro mem array other v hapart h
    refine h.store_apart ⟨le_rfl, le_rfl⟩ ?_
    rw [hlength]
    simp only [setWord, offsetofDependent, sizeofPointer]
    omega
  have hword : ∀ {mem : Memory} {array v : Nat}, obj + (56 + sizeofLd) ≤ array ∨ array + sizeofBuckets parts.l ≤ obj →
      word (mem.store ⟨obj + offsetofLd, sizeofLd, v⟩) array offsetofDependent = word mem array offsetofDependent := by
    intro mem array v hapart
    apply word_store_of_apart
    simp only [Write.Apart, setWord, offsetofLd, offsetofDependent, sizeofPointer]
    omega
  have hkeysOffset : offsetofKeys sizeofLd + sizeofPointer ≤ 56 + sizeofLd := by
    simp only [offsetofKeys, sizeofPointer]
    omega
  have hvaluesOffset : offsetofValues sizeofLd + sizeofPointer ≤ 56 + sizeofLd := by
    simp only [offsetofValues, sizeofPointer]
    omega
  have hldOffset : offsetofLd + sizeofLd ≤ 56 + sizeofLd := by
    simp only [offsetofLd]
    omega
  have hbehind : ∀ w ∈ Format.makeBuckets values parts.l parts.unused,
      w.addr + w.width ≤ keys ∨ keys + sizeofBuckets c.bucket.length ≤ w.addr := by
    intro w hw
    obtain ⟨hlow, hhigh⟩ := makeBuckets_within hw
    rw [hlength]
    simp only [sizeofBuckets] at harrays ⊢
    omega
  have howner : ∀ {mem : Memory} {offset array v : Nat}, offset + sizeofPointer ≤ 56 + sizeofLd →
      obj + (56 + sizeofLd) ≤ array ∨ array + sizeofBuckets parts.l ≤ obj →
      word (mem.store (setWord array offsetofDependent v)) obj offset = word mem obj offset := by
    intro mem offset array v hoffset hapart
    apply word_store_of_apart
    simp only [Write.Apart, setWord, offsetofDependent, sizeofPointer] at hoffset ⊢
    omega
  have hlast : ∀ {mem : Memory} {offset v : Nat}, offsetofKeys sizeofLd ≤ offset →
      word (mem.store ⟨obj + offsetofLd, sizeofLd, v⟩) obj offset = word mem obj offset := by
    intro mem offset v hoffset
    apply word_store_of_apart
    simp only [Write.Apart, setWord, offsetofLd, offsetofKeys, sizeofPointer] at hoffset ⊢
    omega
  have hordered : offsetofKeys sizeofLd + sizeofPointer = offsetofValues sizeofLd := by
    simp only [offsetofKeys, offsetofValues, sizeofPointer]
    omega
  refine ⟨⟨?_, ?_⟩, ?_, ?_, ?_, ?_⟩
  · rw [hlast le_rfl, howner hkeysOffset hvalues, howner hkeysOffset hkeys, word_store_of_apart ?_,
      word_storeAll_of_apart ?_, word_store_self _ hbelow.1]
    · intro w hw
      obtain ⟨hlow, hhigh⟩ := makeBuckets_within hw
      simp only [Write.Apart, setWord, sizeofBuckets] at *
      omega
    · rw [setWord_apart_setWord, ← hordered]
      exact .inr le_rfl
  · rw [hlast (by omega), howner hvaluesOffset hvalues, howner hvaluesOffset hkeys, word_store_self _ hbelow.2]
  · apply hfield hldOffset hkeys
    apply hlink harrays
    apply StoredAt.store_dependent
    apply hfield hvaluesOffset hkeys
    apply StoredAt.storeAll_apart _ hbehind
    exact hfield hkeysOffset hkeys (hmade hkeysBelow)
  · apply hfield hldOffset hvalues
    apply StoredAt.store_dependent
    apply hlink harrays.symm
    exact hfield hvaluesOffset hvalues (hmade hvaluesBelow)
  · rw [hword hkeys, word_store_of_apart ?_, word_store_self _ hbelow.2]
    simp only [Write.Apart, setWord, offsetofDependent, sizeofPointer]
    omega
  · rw [hword hvalues, word_store_self _ hbelow.1]

/-- A table for three keys gets four slots. -/
theorem makeTable_stored_three :
    let made := Memory.storeAll (fun _ => 0) (Format.makeTable 24 4000 4096 4168 ⟨1, 2, 3, 4, 4, 1, 0⟩)
    (word made 4000 64 = 4096 ∧ word made 4000 72 = 4168) ∧
      StoredAt 24 made 4096 (fun _ x => x) (⟨9, 1, 1, [1, 1, 1, 1]⟩ : Buckets Nat) ∧
      StoredAt 24 made 4168 (fun _ x => x) (⟨9, 1, 1, [1, 1, 1, 1]⟩ : Buckets Nat) ∧
      word made 4096 offsetofDependent = 4168 ∧ word made 4168 offsetofDependent = 4096 := by
  have hmake : makeTable digitWorld 24 0 3 false true =
      .ok (weakTable ⟨9, 1, 1, [1, 1, 1, 1]⟩ ⟨9, 1, 1, [1, 1, 1, 1]⟩ 0) := rfl
  exact makeTable_stored ⟨1, 2, 3, 4, 4, 1, 0⟩ rfl hmake (by decide) (fun _ => rfl) (.inl (by decide))
    (.inl (by decide)) (.inl (by decide)) (by decide) (by decide)

/-! ### The loop over the buckets -/

/-- While the array at `obj` is scanned, which began in `mem₀`; the array at `other` is its dependent, and both have
`n` slots. -/
structure Scanning (sizeofLd n : Nat) (mem₀ mem : Memory) (obj other : Nat) (addr addr' : Nat → α → Nat)
    (b d : Buckets α) : Prop where
  scanned : StoredAt sizeofLd mem obj addr b
  dependent : StoredAt sizeofLd mem other addr' d
  length : b.bucket.length = n
  dependentLength : d.bucket.length = n
  apart : Separate obj (sizeofBuckets n) other (sizeofBuckets n)
  nonnull : other ≠ null
  linked : word mem obj offsetofDependent = other
  back : word mem other offsetofDependent = word mem₀ other offsetofDependent
  rest : ∀ a, (a < obj ∨ obj + sizeofBuckets n ≤ a) → (a < other ∨ other + sizeofBuckets n ≤ a) → mem a = mem₀ a

namespace Scanning

/-- A store to one of the arrays, behind its dependent, changes neither dependent and nothing elsewhere. -/
theorem store_inside (h : Scanning sizeofLd n mem₀ mem obj other addr addr' b d) {array offset : Nat} (v : Nat)
    (harray : array = obj ∨ array = other) (hlow : 16 ≤ offset) (hhigh : offset + 8 ≤ sizeofBuckets n) :
    word (mem.store (setWord array offset v)) obj offsetofDependent = other ∧
      word (mem.store (setWord array offset v)) other offsetofDependent = word mem₀ other offsetofDependent ∧
      ∀ a, (a < obj ∨ obj + sizeofBuckets n ≤ a) → (a < other ∨ other + sizeofBuckets n ≤ a) →
        mem.store (setWord array offset v) a = mem₀ a := by
  have hw : (setWord array offset v).Within (array + 16) (array + sizeofBuckets n) := by
    rw [setWord_within]
    omega
  have hsize : 40 ≤ sizeofBuckets n := Nat.le_add_right _ _
  have hapart := h.apart
  rw [Separate] at hapart
  have hword : ∀ a, a = obj ∨ a = other →
      word (mem.store (setWord array offset v)) a offsetofDependent = word mem a offsetofDependent := by
    intro a ha
    apply word_store_of_apart
    simp only [Write.Apart, setWord, offsetofDependent, sizeofPointer]
    omega
  refine ⟨(hword obj (.inl rfl)).trans h.linked, (hword other (.inr rfl)).trans h.back, fun a ha ha' => ?_⟩
  exact (store_within hw (by omega)).trans (h.rest a ha ha')

theorem store_scanned (h : Scanning sizeofLd n mem₀ mem obj other addr addr' b d) {addr₁ : Nat → α → Nat}
    {b₁ : Buckets α} {offset v : Nat} (hlow : 16 ≤ offset) (hhigh : offset + 8 ≤ sizeofBuckets n)
    (hb : StoredAt sizeofLd (mem.store (setWord obj offset v)) obj addr₁ b₁) (hlength : b₁.bucket.length = n) :
    Scanning sizeofLd n mem₀ (mem.store (setWord obj offset v)) obj other addr₁ addr' b₁ d := by
  obtain ⟨hlinked, hback, hrest⟩ := h.store_inside v (.inl rfl) hlow hhigh
  have hw : (setWord obj offset v).Within obj (obj + sizeofBuckets n) := by
    rw [setWord_within]
    omega
  refine ⟨hb, h.dependent.store_apart hw ?_, hlength, h.dependentLength, h.apart, h.nonnull, hlinked, hback, hrest⟩
  rw [h.dependentLength]
  exact h.apart

theorem store_dependent (h : Scanning sizeofLd n mem₀ mem obj other addr addr' b d) {d₁ : Buckets α} {offset v : Nat}
    (hlow : 16 ≤ offset) (hhigh : offset + 8 ≤ sizeofBuckets n)
    (hd : StoredAt sizeofLd (mem.store (setWord other offset v)) other addr' d₁) (hlength : d₁.bucket.length = n) :
    Scanning sizeofLd n mem₀ (mem.store (setWord other offset v)) obj other addr addr' b d₁ := by
  obtain ⟨hlinked, hback, hrest⟩ := h.store_inside v (.inr rfl) hlow hhigh
  have hw : (setWord other offset v).Within other (other + sizeofBuckets n) := by
    rw [setWord_within]
    omega
  refine ⟨h.scanned.store_apart hw ?_, hd, h.length, hlength, h.apart, h.nonnull, hlinked, hback, hrest⟩
  rw [h.length]
  exact h.apart.symm

theorem slot_within (hi : i < n) : 16 ≤ offsetofSlot i ∧ offsetofSlot i + 8 ≤ sizeofBuckets n := by
  simp only [offsetofSlot, sizeofBuckets, offsetofBucket, sizeofPointer]
  omega

/-- The branch for a splatted key or value, up to the scanned slot itself. -/
theorem splat (h : Scanning sizeofLd n mem₀ s.mem obj other addr addr' b d) (hi : i < n)
    (haddr : Addresses W deleted (addr' i)) :
    ∃ s', Format.splat deleted obj i s = .ok deleted s' ∧ Scanning sizeofLd n mem₀ s'.mem obj other addr addr'
      { b with deleted := tagCount (untagCount b.deleted + 1) } (d.splat W i) := by
  have hsize : offsetofDeleted + 8 ≤ sizeofBuckets n := Nat.le_add_right _ _
  have hcounted := h.store_scanned (by decide) hsize
    (h.scanned.store_deleted (tagCount_lt (untagCount b.deleted + 1))) h.length
  obtain ⟨hlow, hhigh⟩ := slot_within hi
  have hwritten := hcounted.store_dependent hlow hhigh (hcounted.dependent.store_slot (haddr.below W.deleted)
    fun _ _ => rfl) (List.length_set.trans h.dependentLength)
  have hdone := hwritten.store_dependent (by decide) hsize
    (hwritten.dependent.store_deleted (tagCount_lt (untagCount d.deleted + 1)))
    (List.length_set.trans h.dependentLength)
  have hlinked := hcounted.linked
  have hcount := hwritten.dependent.deleted
  rw [haddr.deleted] at hwritten hdone hcount
  have hfirst := countDeleted_run obj s
  rw [h.scanned.deleted] at hfirst
  have hload := loadWord_run obj offsetofDependent
    ⟨s.mem.store (setWord obj offsetofDeleted (tagCount (untagCount b.deleted + 1))), s.log⟩
  rw [hlinked] at hload
  have hstore := storeWord_run other (offsetofSlot i) deleted
    ⟨s.mem.store (setWord obj offsetofDeleted (tagCount (untagCount b.deleted + 1))), s.log⟩
  have hlast := countDeleted_run other ⟨(s.mem.store (setWord obj offsetofDeleted
    (tagCount (untagCount b.deleted + 1)))).store (setWord other (offsetofSlot i) deleted), s.log⟩
  rw [hcount] at hlast
  refine ⟨⟨_, s.log⟩, ?_, hdone⟩
  rw [Format.splat, bind_run hfirst, bind_run hload]
  beta_reduce
  rw [if_pos h.nonnull, bind_run hstore, bind_run hlast]
  rfl

theorem put (h : Scanning sizeofLd n mem₀ s.mem obj other addr addr' b d) (hi : i < n) {y : α}
    (hy : new y < 2 ^ 64) :
    ∃ s', (do
      let stored ← loadWord obj (offsetofSlot i)
      if stored ≠ new y then storeWord obj (offsetofSlot i) (new y)) s = .ok () s' ∧
      Scanning sizeofLd n mem₀ s'.mem obj other (Function.update addr i new) addr' (b.write i y) d := by
  have hload : loadWord obj (offsetofSlot i) s = .ok (word s.mem obj (offsetofSlot i)) s := rfl
  have hothers : ∀ j, j ≠ i → Function.update addr i new j = addr j := fun j hj => Function.update_of_ne hj _ _
  have hself : Function.update addr i new i y = new y := by rw [Function.update_self]
  have hlength : (b.write i y).bucket.length = n := List.length_set.trans h.length
  rw [bind_run hload]
  by_cases hsame : word s.mem obj (offsetofSlot i) = new y
  · rw [if_neg (not_not_intro hsame)]
    refine ⟨s, rfl, { h with scanned := ?_, length := hlength }⟩
    exact h.scanned.write_of_word (hsame.trans hself.symm) hothers
  · rw [if_pos hsame]
    obtain ⟨hlow, hhigh⟩ := slot_within hi
    have hstored : StoredAt sizeofLd
        (s.mem.store (setWord obj (offsetofSlot i) (Function.update addr i new i y))) obj
        (Function.update addr i new) (b.write i y) := h.scanned.store_slot (hself.symm ▸ hy) hothers
    rw [hself] at hstored
    exact ⟨_, rfl, h.store_scanned hlow hhigh hstored hlength⟩

/-- One round goes as in the scan of the table. -/
theorem round [DecidableEq α] {weak : Bool} {sc : Scan α} (hF : Clears W deleted F old new dead)
    (h : Scanning sizeofLd n mem₀ s.mem obj other addr addr' b d) (hx : b.bucket[i]? = some x) (hold : addr i = old)
    (haddr : Addresses W deleted (addr' i)) (hfix1 : sc.fix1 x = F.fix1 (old x))
    (hfix2 : fix2 W weak sc.dies i x = if dead x then W.null else x) :
    ∃ s' b' d', Format.scanBucket F deleted obj i s = .ok () s' ∧ scanSlot W weak sc (b, d) i = .ok (b', d') ∧
      Scanning sizeofLd n mem₀ s'.mem obj other (Function.update addr i new) addr' b' d' ∧
      ∀ j, j ≠ i → b'.bucket[j]? = b.bucket[j]? := by
  have hi : i < n := h.length ▸ (List.getElem?_eq_some_iff.mp hx).1
  have hload := loadWord_run obj (offsetofSlot i) s
  rw [h.scanned.slot i x hx, hold] at hload
  rw [scanSlot_eq hx, hfix1, hfix2, Format.scanBucket, bind_run hload]
  cases haccepted : F.fix1 (old x) with
  | false =>
    refine ⟨s, b, d, rfl, rfl, { h with scanned := h.scanned.congr_addr fun j y hy => ?_ }, fun _ _ => rfl⟩
    by_cases hj : j = i
    · subst hj
      rw [hx] at hy
      cases hy
      rw [Function.update_self, hold, hF.rejected x haccepted]
    · rw [Function.update_of_ne hj]
  | true =>
    obtain ⟨log, hfixed⟩ : ∃ log, Format.mpsFix2 F (obj + offsetofSlot i) (old x) s =
        .ok (if dead x then null else new x) ⟨s.mem, log⟩ := by
      simp only [Format.mpsFix2, hF.fixed _ _ haccepted]
      exact ⟨_, rfl⟩
    rw [if_pos rfl, bind_run hfixed]
    beta_reduce
    by_cases hnull : (if dead x then W.null else x) = W.null
    · have hv : (if dead x then null else new x) = null := by
        cases hdead : dead x with
        | true => rfl
        | false =>
          rw [hdead] at hnull
          exact (hF.target.null x).mpr hnull
      obtain ⟨s₁, hsplat, hscanning⟩ := splat (s := ⟨s.mem, log⟩) h hi haddr
      obtain ⟨s₂, hput, hdone⟩ := hscanning.put hi (hF.target.below W.deleted)
      rw [hF.target.deleted] at hput
      rw [if_pos hv, bind_run hsplat, hnull]
      refine ⟨s₂, b.splat W i, d.splat W i, hput, ?_, hdone, fun j hj => ?_⟩
      · simp
      · rw [Buckets.splat, List.getElem?_set_ne (Ne.symm hj)]
    · have hdead : dead x = false := by
        rw [← Bool.not_eq_true]
        intro hdead
        rw [if_pos hdead] at hnull
        exact hnull rfl
      rw [hdead, if_neg Bool.false_ne_true] at hnull
      have hv : new x ≠ null := fun hv => hnull ((hF.target.null x).mp hv)
      obtain ⟨s₁, hput, hdone⟩ := put (s := ⟨s.mem, log⟩) h hi (hF.target.below x)
      have hsame : b.write i x = b := by
        obtain ⟨hlt, rfl⟩ := List.getElem?_eq_some_iff.mp hx
        rw [Buckets.write, List.set_getElem_self hlt]
      rw [hsame] at hdone
      rw [hdead, if_neg Bool.false_ne_true, if_neg Bool.false_ne_true, if_neg hv, pure_bind]
      refine ⟨s₁, b, d, hput, ?_, hdone, fun _ _ => rfl⟩
      simp [hnull]

theorem loop [DecidableEq α] {weak : Bool} {sc : Scan α} (hF : Clears W deleted F old new dead)
    (h : Scanning sizeofLd n mem₀ s.mem obj other (fun _ => old) addr' b d)
    (haddr : ∀ i, Addresses W deleted (addr' i)) (hfix1 : ∀ x, sc.fix1 x = F.fix1 (old x))
    (hfix2 : ∀ i x, b.bucket[i]? = some x → fix2 W weak sc.dies i x = if dead x then W.null else x) {k : Nat}
    (hk : k ≤ n) :
    ∃ s' b' d', (List.range k).forM (Format.scanBucket F deleted obj) s = .ok () s' ∧
      (List.range k).foldlM (scanSlot W weak sc) (b, d) = .ok (b', d') ∧
      Scanning sizeofLd n mem₀ s'.mem obj other (fun i => if i < k then new else old) addr' b' d' ∧
      ∀ i, k ≤ i → b'.bucket[i]? = b.bucket[i]? := by
  induction k with
  | zero => exact ⟨s, b, d, rfl, rfl, h, fun _ _ => rfl⟩
  | succ k ih =>
    obtain ⟨s₁, b₁, d₁, hrun, hscan, hscanning, hrest⟩ := ih (Nat.le_of_succ_le hk)
    obtain ⟨x, hx⟩ : ∃ x, b.bucket[k]? = some x := ⟨_, List.getElem?_eq_getElem (by rw [h.length]; exact hk)⟩
    obtain ⟨s₂, b₂, d₂, hbucket, hslot, hdone, hothers⟩ := hscanning.round hF ((hrest k le_rfl).trans hx)
      (if_neg (Nat.lt_irrefl k)) (haddr k) (hfix1 x) (hfix2 k x hx)
    have hupdate : Function.update (fun i => if i < k then new else old) k new =
        fun i => if i < k + 1 then new else old := by
      funext i
      by_cases hi : i = k
      · rw [hi, Function.update_self, if_pos (Nat.lt_succ_self k)]
      · have hlt : i < k ↔ i < k + 1 := by omega
        rw [Function.update_of_ne hi]
        simp only [hlt]
    rw [hupdate] at hdone
    refine ⟨s₂, b₂, d₂, ?_, ?_, hdone, fun i hi => ?_⟩
    · have happend : (List.range (k + 1)).forM (Format.scanBucket F deleted obj) =
          (List.range k).forM (Format.scanBucket F deleted obj) >>= fun _ =>
            [k].forM (Format.scanBucket F deleted obj) := by
        rw [List.range_succ]
        exact List.forM_append
      rw [happend, bind_run hrun]
      exact (bind_run hbucket).trans rfl
    · rw [List.range_succ, List.foldlM_append, hscan]
      exact congrArg (· >>= pure) hslot
    · rw [hothers i (by omega), hrest i (by omega)]

end Scanning

/-! ### Scanning an array -/

/-- The scan of an array in memory is that of the array: its references are moved, and what dies in it is deleted in
it and in its dependent. -/
theorem scanObject_stored [DecidableEq α] {weak : Bool} (sc : Scan α) (hF : Clears W deleted F old new dead)
    (hb : StoredAt sizeofLd s.mem obj (fun _ => old) b) (hd : StoredAt sizeofLd s.mem other addr' d)
    (hb' : b.bucket.length = n) (hd' : d.bucket.length = n)
    (hapart : Separate obj (sizeofBuckets n) other (sizeofBuckets n)) (hnonnull : other ≠ null)
    (hlinked : word s.mem obj offsetofDependent ≠ null) (hleads : Leads F (word s.mem obj offsetofDependent) other)
    (haddr : ∀ i, Addresses W deleted (addr' i)) (hfix1 : ∀ x, sc.fix1 x = F.fix1 (old x))
    (hfix2 : ∀ i x, b.bucket[i]? = some x → fix2 W weak sc.dies i x = if dead x then W.null else x) :
    ∃ s' b' d', scanObject sizeofLd F deleted obj s = .ok (obj + (Block.buckets n).size sizeofLd) s' ∧
      scanBuckets W weak sc b d = .ok (b', d') ∧
      Scanning sizeofLd n s.mem s'.mem obj other (fun _ => new) addr' b' d' := by
  subst hb'
  have hbelow : other < 2 ^ 64 := by
    have hbelow := hd.laid.below
    omega
  have hfix : ∀ v, v = word s.mem obj offsetofDependent → ∃ log,
      mpsFix12 F (obj + offsetofDependent) v s = .ok other ⟨s.mem, log⟩ := by
    rintro v rfl
    rw [mpsFix12]
    cases haccepted : F.fix1 (word s.mem obj offsetofDependent) with
    | true =>
      rw [if_pos rfl]
      simp only [Format.mpsFix2, hleads.fixed haccepted]
      exact ⟨_, rfl⟩
    | false =>
      rw [if_neg Bool.false_ne_true, ← hleads.rejected haccepted]
      exact ⟨_, rfl⟩
  obtain ⟨log, hfix⟩ := hfix _ rfl
  have hfixRef : fixRef F obj offsetofDependent s =
      .ok () ⟨s.mem.store (setWord obj offsetofDependent other), log⟩ := by
    rw [fixRef, bind_run (loadWord_run _ _ _), bind_run hfix]
    rfl
  have hw : (setWord obj offsetofDependent other).Within (obj + 8) (obj + 16) := by
    simp [offsetofDependent]
  have hsize : 40 ≤ sizeofBuckets b.bucket.length := Nat.le_add_right _ _
  have hsides := hapart
  rw [Separate] at hsides
  have hscanning : Scanning sizeofLd b.bucket.length s.mem (s.mem.store (setWord obj offsetofDependent other)) obj other
      (fun _ => old) addr' b d := by
    refine ⟨hb.store_dependent other, hd.store_apart hw (by rw [hd']; omega), rfl, hd', hapart, hnonnull,
      word_store_self _ hbelow, ?_, ?_⟩
    · apply word_store_of_apart
      simp only [Write.Apart, setWord, offsetofDependent, sizeofPointer]
      omega
    · intro a ha _
      exact store_within hw (by omega)
  obtain ⟨s', b', d', hrun, hscan, hdone, -⟩ :=
    hscanning.loop (s := ⟨_, log⟩) hF haddr hfix1 hfix2 le_rfl
  obtain ⟨hneeds, hsmall⟩ := wrap_bucketsNeeds hb.laid.fits.1
  refine ⟨s', b', d', ?_, ?_, { hdone with scanned := hdone.scanned.congr_addr fun i x hx => ?_ }⟩
  · have htype : loadType obj s = .ok (some .metadataHashTableBucket) s := by
      rw [loadType, typeOf_of_holds (hb.laid.holds (setType obj .metadataHashTableBucket) (by simp [Block.header]))]
    have hlength := hb.laid.holds (setWord obj offsetofBucketsLength (tagCount b.bucket.length))
      (by simp [Block.header])
    have hloop : Format.scanBuckets F deleted obj b.bucket.length s = .ok () s' := by
      have hwords := hscanning.dependent.laid.holds (setWord other offsetofBucketsLength (tagCount d.bucket.length))
        (by simp [Block.header])
      have hown := hscanning.scanned.laid.holds (setWord obj offsetofBucketsLength (tagCount b.bucket.length))
        (by simp [Block.header])
      rw [hd'] at hwords
      rw [Format.scanBuckets, bind_run (loadWord_run _ _ _)]
      beta_reduce
      rw [if_pos hlinked, bind_run hfixRef, bind_run (loadWord_run _ _ _)]
      rw [bind_run (loadWord_run _ _ _), bind_run (loadWord_run _ _ _), hscanning.linked]
      rw [word_of_holds hwords, word_of_holds hown]
      have haver : Format.aver (decide (tagCount b.bucket.length = tagCount b.bucket.length))
          ⟨s.mem.store (setWord obj offsetofDependent other), log⟩ =
            .ok () ⟨s.mem.store (setWord obj offsetofDependent other), log⟩ := by
        rw [decide_eq_true rfl]
        rfl
      rw [bind_run haver]
      exact hrun
    have hwrap : wrap (obj + (Block.buckets b.bucket.length).size sizeofLd) =
        obj + (Block.buckets b.bucket.length).size sizeofLd := wrap_of_lt hb.laid.below
    rw [scanObject, bind_run htype]
    dsimp only
    rw [bind_run (loadWord_run _ _ _), word_of_holds hlength]
    rw [untagCount_tagCount hsmall, bind_run hloop, hneeds, ← hwrap]
    rfl
  · rw [scanBuckets, hb.length, hd.length, hd', aver, if_pos (decide_eq_true rfl), untagCount_tagCount hsmall]
    exact hscan
  · have hi := (List.getElem?_eq_some_iff.mp hx).1
    rw [hdone.length] at hi
    rw [if_pos hi]

end ManagedObject.Metadata
