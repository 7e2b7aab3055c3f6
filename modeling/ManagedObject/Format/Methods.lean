import ManagedObject.Format.Region

/-!
# The format methods on a block

What `managed_obj_skip`, `managed_obj_isfwd`, `managed_obj_fwd` and `managed_obj_pad` do on a block
whose header is in memory. The stores of `managed_obj_fwd` and `managed_obj_pad` are the header of the
block that they make, and those of a constructor contain it, so one argument about headers serves all
of them.
-/

namespace ManagedObject.Format

open Lib

variable {sizeofLd addr new obj offset offset' value value' low high : Nat} {m : Memory}
variable {t : Tile sizeofLd} {type : ObjType} {pinned : Bool} {w : Write} {ws : List Write}

/-! ## Fields -/

@[simp] theorem setType_within : (setType obj type).Within low high ↔ low ≤ obj ∧ obj + 4 ≤ high := by
  simp [Write.Within, setType, offsetofType, sizeofType]

@[simp] theorem setPinned_within :
    (setPinned obj pinned).Within low high ↔ low ≤ obj + 4 ∧ obj + 8 ≤ high := by
  simp [Write.Within, setPinned, offsetofPinned, sizeofBool, Nat.add_assoc]

@[simp] theorem setWord_within :
    (setWord obj offset value).Within low high ↔ low ≤ obj + offset ∧ obj + offset + 8 ≤ high := by
  simp [Write.Within, setWord, sizeofPointer]

@[simp] theorem setWord_apart_setType : (setWord obj offset value).Apart (setType obj type) ↔ 4 ≤ offset := by
  simp only [Write.Apart, setWord, setType, offsetofType, sizeofPointer, sizeofType]
  omega

@[simp] theorem setType_apart_setWord : (setType obj type).Apart (setWord obj offset value) ↔ 4 ≤ offset := by
  simp only [Write.Apart, setWord, setType, offsetofType, sizeofPointer, sizeofType]
  omega

@[simp] theorem setWord_apart_setWord :
    (setWord obj offset value).Apart (setWord obj offset' value') ↔
      offset + 8 ≤ offset' ∨ offset' + 8 ≤ offset := by
  simp only [Write.Apart, setWord, sizeofPointer]
  omega

@[simp] theorem setType_apart_setPinned : (setType obj type).Apart (setPinned obj pinned) := by
  simp only [Write.Apart, setType, setPinned, offsetofType, offsetofPinned, sizeofType, sizeofBool]
  omega

@[simp] theorem setPinned_apart_setType : (setPinned obj pinned).Apart (setType obj type) :=
  setType_apart_setPinned.symm

@[simp] theorem setPinned_apart_setWord :
    (setPinned obj pinned).Apart (setWord obj offset value) ↔ 8 ≤ offset := by
  simp only [Write.Apart, setPinned, setWord, offsetofPinned, sizeofBool, sizeofPointer]
  omega

theorem setType_value (obj : Nat) (type : ObjType) :
    (setType obj type).value < 256 ^ (setType obj type).width := by
  have hcode := type.code_lt
  show type.code < 256 ^ 4
  omega

theorem setWord_value (hvalue : value < 2 ^ 64) :
    (setWord obj offset value).value < 256 ^ (setWord obj offset value).width := by
  show value < 256 ^ 8
  omega

theorem typeOf_of_holds (h : m.Holds (setType obj type)) : typeOf m obj = some type := by
  have hload : m.load (obj + offsetofType) sizeofType = type.code := h
  rw [typeOf, hload, ObjType.ofCode_code]

theorem word_of_holds (h : m.Holds (setWord obj offset value)) : word m obj offset = value := h

/-! ## Headers -/

theorem Span.eight_le (s : Span) : 8 ≤ s.size := Nat.le_of_dvd s.pos s.aligned

theorem Span.sixteen_le (s : Span) (hsize : s.size ≠ 8) : 16 ≤ s.size := by
  obtain ⟨k, hk⟩ := s.aligned
  have hle := s.eight_le
  simp only [alignment] at hk
  omega

theorem Call.forwardable (c : Call sizeofLd) : 24 ≤ c.span.size := c.size_spec.2.1

theorem header_within (hw : w ∈ t.header addr) : w.Within addr (addr + t.size) := by
  cases t with
  | gap s => cases hw
  | object c forwarded =>
    have hroom : 24 ≤ (Tile.object c forwarded).size := c.forwardable
    cases forwarded with
    | none =>
      obtain ⟨constructor, hfits⟩ := c
      cases constructor <;>
        simp only [Tile.header, Constructor.header, List.mem_cons, List.not_mem_nil, or_false] at hw
      case string | buckets =>
        rcases hw with rfl | rfl <;>
          simp only [setType_within, setWord_within, offsetofStringLength, offsetofBucketsLength] <;> omega
      all_goals
        subst hw
        rw [setType_within]
        omega
    | some new =>
      simp only [Tile.header, List.mem_cons, List.not_mem_nil, or_false] at hw
      rcases hw with rfl | rfl | rfl <;>
        simp only [setType_within, setWord_within, offsetofFwd, offsetofFwdSize] <;> omega
  | pad s =>
    have hsize : (Tile.pad s : Tile sizeofLd).size = s.size := rfl
    have hle := s.eight_le
    rw [Tile.header] at hw
    split at hw
    · rw [List.mem_singleton.mp hw, setType_within]
      omega
    · have hlarge := s.sixteen_le ‹_›
      simp only [List.mem_cons, List.not_mem_nil, or_false] at hw
      rcases hw with rfl | rfl <;> simp only [setType_within, setWord_within, offsetofPadSize] <;> omega

theorem forwarding_within {c : Call sizeofLd} (hw : w ∈ (Tile.object c (some new)).header addr) :
    w.Within addr (addr + c.span.size) := header_within hw

theorem padding_within {s : Span} (hw : w ∈ (Tile.pad s : Tile sizeofLd).header addr) :
    w.Within addr (addr + s.size) := header_within hw

theorem forwarding_laid {c : Call sizeofLd} (hbelow : addr + c.span.size < 2 ^ 64) (hnew : new < 2 ^ 64) :
    Laid (m.storeAll ((Tile.object c (some new)).header addr)) addr (.object c (some new)) := by
  refine ⟨hbelow, ?_⟩
  intro w hw
  have hapart : ((Tile.object c (some new)).header addr).Pairwise Write.Apart := by
    simp [Tile.header, offsetofFwd, offsetofFwdSize]
  apply Memory.holds_storeAll hapart hw
  simp only [Tile.header, List.mem_cons, List.not_mem_nil, or_false] at hw
  rcases hw with rfl | rfl | rfl
  · exact setType_value addr .fwd
  · exact setWord_value hnew
  · exact setWord_value (by omega)

theorem padding_laid {s : Span} (hbelow : addr + s.size < 2 ^ 64) :
    Laid (m.storeAll ((Tile.pad s : Tile sizeofLd).header addr)) addr (.pad s : Tile sizeofLd) := by
  refine ⟨hbelow, ?_⟩
  intro w hw
  have hapart : ((Tile.pad s : Tile sizeofLd).header addr).Pairwise Write.Apart := by
    rw [Tile.header]
    split <;> simp [offsetofPadSize]
  apply Memory.holds_storeAll hapart hw
  rw [Tile.header] at hw
  split at hw
  · rw [List.mem_singleton.mp hw]
    exact setType_value addr .pad1
  · simp only [List.mem_cons, List.not_mem_nil, or_false] at hw
    rcases hw with rfl | rfl
    · exact setType_value addr .pad
    · exact setWord_value (by omega)

/-- A block outside of what is written stays what it is. -/
theorem Laid.frame (h : Laid m addr t) (hws : ∀ w ∈ ws, w.Within low high)
    (houtside : addr + t.size ≤ low ∨ high ≤ addr) : Laid (m.storeAll ws) addr t := by
  refine ⟨h.below, ?_⟩
  intro f hf
  apply (h.holds f hf).storeAll
  intro w hw
  exact (hws w hw).apart (header_within hf) houtside.symm

/-! ## Constructors -/

theorem makeBuckets_within {length unused : Nat} (hw : w ∈ makeBuckets obj length unused) :
    w.Within obj (obj + (offsetofBucket + length * sizeofPointer)) := by
  simp only [makeBuckets, List.mem_append, List.mem_cons, List.not_mem_nil, or_false, List.mem_map,
    List.mem_range] at hw
  rcases hw with (rfl | rfl | rfl | rfl | rfl | rfl) | ⟨i, hi, rfl⟩ <;>
    simp only [setType_within, setPinned_within, setWord_within, offsetofDependent,
      offsetofBucketsLength, offsetofBucket, sizeofPointer] <;> omega

theorem writes_within (c : Call sizeofLd) (hw : w ∈ c.constructor.writes sizeofLd addr) :
    w.Within addr (addr + c.span.size) := by
  have hneeds : c.constructor.needs sizeofLd ≤ c.span.size := c.size_spec.1
  obtain ⟨constructor, hfits⟩ := c
  generalize (Call.mk constructor hfits).span.size = reserved at hneeds ⊢
  cases constructor with
  | empty =>
    simp only [Constructor.needs, sizeofEmpty] at hneeds
    simp only [Constructor.writes, makeEmpty, List.mem_cons, List.not_mem_nil, or_false] at hw
    rcases hw with rfl | rfl
    · rw [setType_within]
      omega
    · rw [setPinned_within]
      omega
  | scannedPointer =>
    simp only [Constructor.needs, sizeofScannedPointer] at hneeds
    simp only [Constructor.writes, makeScannedWithFinalizer, List.mem_cons, List.not_mem_nil,
      or_false] at hw
    rcases hw with rfl | rfl | rfl | rfl | rfl <;>
      simp only [setType_within, setPinned_within, setWord_within] <;> omega
  | string length s =>
    simp only [Constructor.needs, offsetofString, alignment] at hneeds hfits
    have hwrap : wrap (length + 1) = length + 1 := wrap_of_lt (by omega)
    simp only [Constructor.writes, makeString, List.mem_append, List.mem_cons, List.not_mem_nil,
      or_false, List.mem_map, List.mem_range, hwrap] at hw
    rcases hw with (rfl | rfl | rfl) | ⟨i, hi, rfl⟩
    · rw [setType_within]
      omega
    · rw [setPinned_within]
      omega
    · simp only [setWord_within, offsetofStringLength]
      omega
    · simp only [Write.Within, offsetofString]
      omega
  | buckets length unused =>
    have hwithin := makeBuckets_within hw
    exact hwithin.mono (Nat.le_refl _) (Nat.add_le_add_left hneeds addr)
  | hashtable =>
    simp only [Constructor.needs, sizeofHashtable] at hneeds
    simp only [Constructor.writes, makeTableReserved, List.mem_cons, List.not_mem_nil, or_false] at hw
    rcases hw with rfl | rfl | rfl | rfl <;>
      simp only [setType_within, setPinned_within, setWord_within, offsetofValues, offsetofKeys] <;> omega

/-- Fields stored to before any others that leave them alone. -/
theorem holds_front {front back : List Write} (hapart : front.Pairwise Write.Apart) (hw : w ∈ front)
    (hvalue : w.value < 256 ^ w.width) (hback : ∀ w' ∈ back, w'.Apart w) :
    (m.storeAll (front ++ back)).Holds w := by
  rw [Memory.storeAll_append]
  exact (Memory.holds_storeAll hapart hw hvalue).storeAll hback

theorem makeString_header {length : Nat} {string : Option (Nat → UInt8)} (hlength : length < 2 ^ 64)
    (hw : w ∈ (Constructor.string length string).header obj) :
    (m.storeAll (makeString obj length string)).Holds w := by
  have hbytes : ∀ b ∈ (List.range (wrap (length + 1))).map fun i =>
      (⟨obj + offsetofString + i, 1, (stringByte string i).toNat⟩ : Write),
      b.Within (obj + 16) b.addr.succ := by
    intro b hb
    obtain ⟨i, hi, rfl⟩ := List.mem_map.mp hb
    simp only [Write.Within, offsetofString]
    omega
  have hheader : w.Within obj (obj + 16) ∧ w.value < 256 ^ w.width := by
    simp only [Constructor.header, List.mem_cons, List.not_mem_nil, or_false] at hw
    rcases hw with rfl | rfl
    · refine ⟨?_, setType_value obj .metadataString⟩
      rw [setType_within]
      omega
    · refine ⟨?_, setWord_value hlength⟩
      rw [setWord_within, offsetofStringLength]
      omega
  apply holds_front (by simp [offsetofStringLength]) _ hheader.2
  · intro b hb
    exact (hbytes b hb).apart hheader.1 (.inr (Nat.le_refl _))
  · simp only [Constructor.header, List.mem_cons, List.not_mem_nil, or_false] at hw
    rcases hw with rfl | rfl <;> simp

theorem makeBuckets_header {length unused : Nat} (hw : w ∈ (Constructor.buckets length unused).header obj) :
    (m.storeAll (makeBuckets obj length unused)).Holds w := by
  have hslots : ∀ b ∈ (List.range length).map fun i =>
      setWord obj (offsetofBucket + i * sizeofPointer) unused, b.Within (obj + 24) (b.addr + 8) := by
    intro b hb
    obtain ⟨i, hi, rfl⟩ := List.mem_map.mp hb
    simp only [Write.Within, setWord, offsetofBucket, sizeofPointer]
    omega
  have hheader : w.Within obj (obj + 24) ∧ w.value < 256 ^ w.width := by
    simp only [Constructor.header, List.mem_cons, List.not_mem_nil, or_false] at hw
    rcases hw with rfl | rfl
    · refine ⟨?_, setType_value obj .metadataHashTableBucket⟩
      rw [setType_within]
      omega
    · refine ⟨?_, setWord_value (wrap_lt _)⟩
      rw [setWord_within, offsetofBucketsLength]
      omega
  apply holds_front (by simp [offsetofDependent, offsetofBucketsLength]) _ hheader.2
  · intro b hb
    exact (hslots b hb).apart hheader.1 (.inr (Nat.le_refl _))
  · simp only [Constructor.header, List.mem_cons, List.not_mem_nil, or_false] at hw
    rcases hw with rfl | rfl <;> simp

theorem object_laid {c : Call sizeofLd} (hbelow : addr + c.span.size < 2 ^ 64) :
    Laid (m.storeAll (c.constructor.writes sizeofLd addr)) addr (.object c none) := by
  refine ⟨hbelow, ?_⟩
  intro w hw
  obtain ⟨constructor, hfits⟩ := c
  have hw : w ∈ constructor.header addr := hw
  cases constructor with
  | empty =>
    have hw : w = setType addr .empty := List.mem_singleton.mp hw
    subst hw
    exact Memory.holds_storeAll (by simp [Constructor.writes, makeEmpty])
      (by simp [Constructor.writes, makeEmpty]) (setType_value addr .empty)
  | scannedPointer =>
    have hw : w = setType addr .scannedPointer := List.mem_singleton.mp hw
    subst hw
    exact Memory.holds_storeAll (by simp [Constructor.writes, makeScannedWithFinalizer])
      (by simp [Constructor.writes, makeScannedWithFinalizer]) (setType_value addr .scannedPointer)
  | string length s =>
    simp only [Constructor.needs, offsetofString, alignment] at hfits
    exact makeString_header (by omega) hw
  | buckets length unused =>
    exact makeBuckets_header hw
  | hashtable =>
    have hw : w = setType addr .metadataHashTable := List.mem_singleton.mp hw
    subst hw
    have hapart : (makeTableReserved sizeofLd addr).Pairwise Write.Apart := by
      simp [makeTableReserved, offsetofValues, offsetofKeys]
      omega
    exact Memory.holds_storeAll hapart (by simp [Constructor.writes, makeTableReserved])
      (setType_value addr .metadataHashTable)

/-! ## Methods -/

theorem wrap_advance (addr size : Nat) (hlimit : addr + size < 2 ^ 64) :
    (.ok (wrap (addr + size)) : Except Abort Nat) = .ok (addr + size) := by
  rw [wrap_of_lt hlimit]

/-- `managed_obj_skip` goes from an object to its end. -/
theorem skip_object {c : Call sizeofLd} (h : Laid m addr (.object c none)) :
    skip sizeofLd m addr = .ok (addr + c.span.size) := by
  have hadvance := wrap_advance addr _ h.below
  obtain ⟨constructor, hfits⟩ := c
  have hholds := h.holds
  cases constructor with
  | empty =>
    have htype := typeOf_of_holds (hholds (setType addr .empty) (by simp [Tile.header, Constructor.header]))
    simp only [skip, htype]
    exact hadvance
  | scannedPointer =>
    have htype := typeOf_of_holds
      (hholds (setType addr .scannedPointer) (by simp [Tile.header, Constructor.header]))
    simp only [skip, htype]
    exact hadvance
  | string length s =>
    have htype := typeOf_of_holds
      (hholds (setType addr .metadataString) (by simp [Tile.header, Constructor.header]))
    have hlength := word_of_holds
      (hholds (setWord addr offsetofStringLength length) (by simp [Tile.header, Constructor.header]))
    simp only [skip, htype, hlength]
    exact hadvance
  | buckets length unused =>
    have htype := typeOf_of_holds
      (hholds (setType addr .metadataHashTableBucket) (by simp [Tile.header, Constructor.header]))
    have hlength := word_of_holds
      (hholds (setWord addr offsetofBucketsLength (tagCount length))
        (by simp [Tile.header, Constructor.header]))
    have htag : untagCount (tagCount length) = length := untagCount_tagCount (wrap_bucketsNeeds hfits).2
    simp only [skip, htype, hlength, htag]
    exact hadvance
  | hashtable =>
    have htype := typeOf_of_holds
      (hholds (setType addr .metadataHashTable) (by simp [Tile.header, Constructor.header]))
    simp only [skip, htype]
    exact hadvance

/-- `managed_obj_skip` goes from any block but a gap to its end. -/
theorem skip_laid (h : Laid m addr t) (ht : ¬ t.IsGap) : skip sizeofLd m addr = .ok (addr + t.size) := by
  have hadvance := wrap_advance addr _ h.below
  have hholds := h.holds
  cases t with
  | gap s => exact absurd ⟨s, rfl⟩ ht
  | object c forwarded =>
    cases forwarded with
    | none => exact skip_object h
    | some new =>
      have htype := typeOf_of_holds (hholds (setType addr .fwd) (by simp [Tile.header]))
      have hsize := word_of_holds
        (hholds (setWord addr offsetofFwdSize c.span.size) (by simp [Tile.header]))
      have halign : alignWord c.span.size = c.span.size :=
        alignWord_of_dvd (Nat.lt_of_le_of_lt (Nat.le_add_left _ _) h.below) c.span.aligned
      simp only [skip, htype, hsize, halign]
      exact hadvance
  | pad s =>
    have hbelow : addr + s.size < 2 ^ 64 := h.below
    by_cases hone : s.size = sizeofPad1
    · have htype := typeOf_of_holds (hholds (setType addr .pad1) (by simp [Tile.header, hone]))
      have hword : alignWord sizeofPad1 = s.size := by
        rw [hone]
        decide
      simp only [skip, htype, hword]
      exact hadvance
    · have htype := typeOf_of_holds (hholds (setType addr .pad) (by simp [Tile.header, hone]))
      have hsize := word_of_holds
        (hholds (setWord addr offsetofPadSize s.size) (by simp [Tile.header, hone]))
      have halign : alignWord s.size = s.size := alignWord_of_dvd (by omega) s.aligned
      simp only [skip, htype, hsize, halign]
      exact hadvance

/-- `managed_obj_isfwd` gives the new address of a forwarded object and `NULL` for all others. -/
theorem isfwd_laid (h : Laid m addr t) (ht : ¬ t.IsGap) : isfwd m addr = t.forwarded.getD null := by
  have hholds := h.holds
  cases t with
  | gap s => exact absurd ⟨s, rfl⟩ ht
  | object c forwarded =>
    cases forwarded with
    | none =>
      obtain ⟨constructor, hfits⟩ := c
      have htype : ∀ type, setType addr type ∈ constructor.header addr → typeOf m addr = some type :=
        fun type hmem => typeOf_of_holds (hholds _ hmem)
      cases constructor with
      | empty => rw [isfwd, htype .empty (by simp [Constructor.header])]; rfl
      | scannedPointer => rw [isfwd, htype .scannedPointer (by simp [Constructor.header])]; rfl
      | string => rw [isfwd, htype .metadataString (by simp [Constructor.header])]; rfl
      | buckets => rw [isfwd, htype .metadataHashTableBucket (by simp [Constructor.header])]; rfl
      | hashtable => rw [isfwd, htype .metadataHashTable (by simp [Constructor.header])]; rfl
    | some new =>
      have htype := typeOf_of_holds (hholds (setType addr .fwd) (by simp [Tile.header]))
      have hnew := word_of_holds (hholds (setWord addr offsetofFwd new) (by simp [Tile.header]))
      simp only [isfwd, htype, hnew]
      rfl
  | pad s =>
    by_cases hone : s.size = sizeofPad1
    · have htype := typeOf_of_holds (hholds (setType addr .pad1) (by simp [Tile.header, hone]))
      simp only [isfwd, htype]
      rfl
    · have htype := typeOf_of_holds (hholds (setType addr .pad) (by simp [Tile.header, hone]))
      simp only [isfwd, htype]
      rfl

/-- `managed_obj_fwd` never takes its two-word branch: every object has room for a `managed_obj_fwd_s`. -/
theorem fwd_object {c : Call sizeofLd} (h : Laid m addr (.object c none)) :
    fwd sizeofLd m addr new = .ok ((Tile.object c (some new)).header addr) := by
  have hbelow : addr + c.span.size < 2 ^ 64 := h.below
  have hroom := c.forwardable
  have hsize : wrap (2 ^ 64 + (addr + c.span.size) - addr) = c.span.size := by
    rw [wrap]
    omega
  have htwo : alignWord sizeofFwd2 = 16 := by decide
  have haver : ¬ c.span.size < 16 := by omega
  have hbranch : ¬ c.span.size = 16 := by omega
  rw [fwd, skip_object h]
  simp only [bind, Except.bind, hsize, htwo, haver, hbranch, ↓reduceIte]
  rfl

theorem pad_gap (s : Span) : pad addr s.size = .ok ((Tile.pad s : Tile sizeofLd).header addr) := by
  have hone : alignWord sizeofPad1 = sizeofPad1 := by decide
  have haver : ¬ s.size < sizeofPad1 := Nat.not_lt.mpr s.eight_le
  rw [pad, hone, Tile.header]
  simp only [haver, ↓reduceIte]
  split <;> rfl

end ManagedObject.Format
