import ManagedObject.Lib.Outcome
import ManagedObject.Metadata.Rounds

/-!
# The table invariant

The entries of a table are the pairs in its live slots. The invariant ties the tagged counters to
the slots of the key array and carries `KeysOk` for it; what an operation does to the table as a
map is stated on the entries, up to their order.
-/

namespace ManagedObject.Metadata

open Format Outcome

variable {α : Type} [DecidableEq α]

def usedCount (W : World α) (ks : List α) : Nat := ks.countP fun k => k ≠ W.unused

def deletedCount (W : World α) (ks : List α) : Nat := ks.countP fun k => k = W.deleted

/-- The pairs in the live slots of two arrays. -/
def entriesOf (W : World α) (ks vs : List α) : List (α × α) :=
  (ks.zip vs).filter fun p => W.live p.1

def entries (W : World α) (m : Machine α) : List (α × α) :=
  entriesOf W m.tbl.keys.bucket m.tbl.values.bucket

structure ArraysOk (W : World α) (e : Nat) (keys values : Buckets α) (ld : Ld α) (now : Nat) :
    Prop where
  slots : KeysOk W e keys.bucket ld now
  valueSlots : values.bucket.length = 2 ^ e
  small : e ≤ 60
  keysLength : keys.length = tagCount (2 ^ e)
  valuesLength : values.length = tagCount (2 ^ e)
  used : keys.used = tagCount (usedCount W keys.bucket)
  deleted : keys.deleted = tagCount (deletedCount W keys.bucket)

def TableOk (W : World α) (e : Nat) (m : Machine α) : Prop :=
  ArraysOk W e m.tbl.keys m.tbl.values m.tbl.ld m.now

variable {W : World α} {e b : Nat} {ks vs : List α} {ld ld' : Ld α} {now now' : Nat}
  {key value k old : α} {m : Machine α} {keys values : Buckets α}

/-! ### Counting slots -/

theorem usedCount_eq (hW : W.Lawful) (ks : List α) :
    usedCount W ks = ks.countP W.live + deletedCount W ks := by
  induction ks with
  | nil => rfl
  | cons k ks ih =>
    simp only [usedCount, deletedCount, List.countP_cons] at ih ⊢
    rw [ih]
    by_cases hdel : k = W.deleted
    · simp [hdel, hW.unused_ne_deleted.symm, World.live]
      omega
    · by_cases hun : k = W.unused
      · simp [hun, hW.unused_ne_deleted, World.live]
      · simp [hdel, hun, World.live]
        omega

omit [DecidableEq α] in
theorem countP_zip_fst (p : α → Bool) : ∀ {ks vs : List α}, ks.length = vs.length →
    (ks.zip vs).countP (fun q => p q.1) = ks.countP p := by
  intro ks vs hlen
  rw [show (fun q : α × α => p q.1) = p ∘ Prod.fst from rfl, ← List.countP_map,
    List.map_fst_zip (le_of_eq hlen)]

theorem length_entriesOf (hlen : ks.length = vs.length) :
    (entriesOf W ks vs).length = ks.countP W.live := by
  rw [entriesOf, ← List.countP_eq_length_filter, countP_zip_fst _ hlen]

theorem usedCount_le (ks : List α) : usedCount W ks ≤ ks.length := List.countP_le_length

theorem deletedCount_le (ks : List α) : deletedCount W ks ≤ ks.length := List.countP_le_length

theorem usedCount_replicate (n : Nat) : usedCount W (List.replicate n W.unused) = 0 := by
  rw [usedCount, List.countP_eq_zero]
  intro k hk
  simp [List.eq_of_mem_replicate hk]

theorem deletedCount_replicate (hW : W.Lawful) (n : Nat) :
    deletedCount W (List.replicate n W.unused) = 0 := by
  rw [deletedCount, List.countP_eq_zero]
  intro k hk
  simp [List.eq_of_mem_replicate hk, hW.unused_ne_deleted]

/-! ### Entries and slots -/

omit [DecidableEq α] in
theorem zip_set : ∀ (ks vs : List α) (b : Nat) (k v : α),
    (ks.set b k).zip (vs.set b v) = (ks.zip vs).set b (k, v) := by
  intro ks
  induction ks with
  | nil => simp
  | cons x ks ih =>
    intro vs b k v
    cases vs with
    | nil => simp
    | cons y vs =>
      cases b with
      | zero => rfl
      | succ b => simp [ih]

def others (W : World α) (ks vs : List α) (b : Nat) : List (α × α) :=
  ((ks.zip vs).eraseIdx b).filter fun p => W.live p.1

theorem entriesOf_perm_live (hk : ks[b]? = some k) (hv : vs[b]? = some old) (hlive : W.live k = true) :
    (entriesOf W ks vs).Perm ((k, old) :: others W ks vs b) := by
  have hz : (ks.zip vs)[b]? = some (k, old) := List.getElem?_zip_eq_some.mpr ⟨hk, hv⟩
  obtain ⟨hlt, hget⟩ := List.getElem?_eq_some_iff.mp hz
  have hperm := ((List.getElem_cons_eraseIdx_perm hlt).symm).filter fun p => W.live p.1
  rwa [hget, List.filter_cons_of_pos (by exact hlive)] at hperm

theorem entriesOf_perm_dead (hk : ks[b]? = some k) (hv : vs[b]? = some old) (hdead : W.live k = false) :
    (entriesOf W ks vs).Perm (others W ks vs b) := by
  have hz : (ks.zip vs)[b]? = some (k, old) := List.getElem?_zip_eq_some.mpr ⟨hk, hv⟩
  obtain ⟨hlt, hget⟩ := List.getElem?_eq_some_iff.mp hz
  have hperm := ((List.getElem_cons_eraseIdx_perm hlt).symm).filter fun p => W.live p.1
  rwa [hget, List.filter_cons_of_neg (by simp [hdead])] at hperm

theorem others_set (k v : α) : others W (ks.set b k) (vs.set b v) b = others W ks vs b := by
  rw [others, zip_set, List.eraseIdx_set_eq, others]

section
variable (hk : ks[b]? = some k) (hv : vs[b]? = some old)
include hk hv

theorem entriesOf_fill (value : α) (hlive : W.live key = true) :
    (entriesOf W (ks.set b key) (vs.set b value)).Perm ((key, value) :: others W ks vs b) := by
  rw [← others_set key value]
  exact entriesOf_perm_live (List.getElem?_set_self (List.getElem?_eq_some_iff.mp hk).1)
    (List.getElem?_set_self (List.getElem?_eq_some_iff.mp hv).1) hlive

theorem entriesOf_clear (x : α) (hdead : W.live key = false) :
    (entriesOf W (ks.set b key) (vs.set b x)).Perm (others W ks vs b) := by
  rw [← others_set key x]
  exact entriesOf_perm_dead (List.getElem?_set_self (List.getElem?_eq_some_iff.mp hk).1)
    (List.getElem?_set_self (List.getElem?_eq_some_iff.mp hv).1) hdead

end

theorem mem_entriesOf {p : α × α} : p ∈ entriesOf W ks vs ↔
    W.live p.1 = true ∧ ∃ i : Nat, ks[i]? = some p.1 ∧ vs[i]? = some p.2 := by
  rw [entriesOf, List.mem_filter, List.mem_iff_getElem?]
  simp only [List.getElem?_zip_eq_some]
  exact and_comm

theorem KeysOk.distinct (h : KeysOk W e ks ld now) (vs : List α) :
    Assoc.Distinct W.cmp (entriesOf W ks vs) := by
  rw [Assoc.Distinct, entriesOf, List.pairwise_filter, List.pairwise_iff_getElem]
  intro i j hi hj hij hlive hlive'
  rw [← Bool.not_eq_true]
  intro hcmp
  have hzi := List.getElem?_zip_eq_some.mp (List.getElem?_eq_getElem hi)
  have hzj := List.getElem?_zip_eq_some.mp (List.getElem?_eq_getElem hj)
  have := h.unique i j _ _ hzi.1 hzj.1 hlive hlive' hcmp
  omega

theorem absent_iff (hlen : ks.length = vs.length) :
    Absent W ks key ↔ ∀ p ∈ entriesOf W ks vs, W.cmp p.1 key = false := by
  constructor
  · intro h p hp
    obtain ⟨hlive, i, hi, -⟩ := mem_entriesOf.mp hp
    exact h i p.1 hi hlive
  · intro h i k hi hlive
    have hlt : i < vs.length := hlen ▸ (List.getElem?_eq_some_iff.mp hi).1
    exact h (k, vs[i]) (mem_entriesOf.mpr ⟨hlive, i, hi, List.getElem?_eq_getElem hlt⟩)

/-! ### Fresh arrays -/

/-- From one time on and before another, the reservation of an array of a length fails. -/
def World.Refuses (W : World α) (now later length : Nat) : Prop :=
  ∃ t, now ≤ t ∧ t < later ∧ W.reserve t (bucketsSize length) = false

/-- The size of an array of a length is too big to be computed in a `size_t`. -/
def SizeWraps (length : Nat) : Prop := bucketsSize length < offsetofBucket + length * sizeofPointer

/-- Memory errors: a reservation that failed, or an array too big for its own size computation. -/
def MemoryStop (W : World α) (now later length : Nat) (s : Stop) : Prop :=
  (s = .outOfMemory ∧ W.Refuses now later length) ∨ (s = .overrun ∧ SizeWraps length)

omit [DecidableEq α] in
theorem World.Refuses.mono {now' later later' length : Nat} (h : W.Refuses now later length) (hnow : now' ≤ now)
    (hlater : later ≤ later') : W.Refuses now' later' length := by
  obtain ⟨t, hge, hlt, hreserve⟩ := h
  exact ⟨t, hnow.trans hge, hlt.trans_le hlater, hreserve⟩

omit [DecidableEq α] in
theorem World.not_refuses {later length : Nat} (h : ∀ t size, W.reserve t size = true) :
    ¬ W.Refuses now later length := by
  rintro ⟨t, -, -, hreserve⟩
  rw [h] at hreserve
  cases hreserve

omit [DecidableEq α] in
theorem MemoryStop.mono {now' later later' length : Nat} {s : Stop} (h : MemoryStop W now later length s)
    (hnow : now' ≤ now) (hlater : later ≤ later') : MemoryStop W now' later' length s := by
  rcases h with ⟨hs, hrefuses⟩ | h
  · exact Or.inl ⟨hs, hrefuses.mono hnow hlater⟩
  · exact Or.inr h

theorem bucketsSize_of_le (he : e ≤ 60) : offsetofBucket + 2 ^ e * sizeofPointer ≤ bucketsSize (2 ^ e) := by
  have hpow : 2 ^ e ≤ 2 ^ 60 := Nat.pow_le_pow_right (by decide) he
  have hinner : wrap (2 ^ e * sizeofPointer) = 2 ^ e * sizeofPointer :=
    wrap_of_lt (by simp only [sizeofPointer]; omega)
  have houter : wrap (offsetofBucket + 2 ^ e * sizeofPointer) = offsetofBucket + 2 ^ e * sizeofPointer :=
    wrap_of_lt (by simp only [offsetofBucket, sizeofPointer]; omega)
  rw [bucketsSize, hinner, houter]
  apply le_alignObj
  simp only [offsetofBucket, sizeofPointer]
  omega

/-- A reserved block is smaller than the address space, so a bigger array does not fit. -/
theorem small_of_fits (h : offsetofBucket + 2 ^ e * sizeofPointer ≤ bucketsSize (2 ^ e)) : e ≤ 60 := by
  by_contra hlt
  have hpow : 2 ^ 61 ≤ 2 ^ e := Nat.pow_le_pow_right (by decide) (by omega)
  have hfwd : alignWord sizeofFwd = 24 := by decide
  have hbound : ∀ n, alignObj n < 2 ^ 64 := by
    intro n
    have hword : alignWord n < 2 ^ 64 := Nat.and_lt_two_pow _ (by decide)
    rw [alignObj]
    split <;> omega
  have := hbound (wrap (offsetofBucket + wrap (2 ^ e * sizeofPointer)))
  rw [bucketsSize] at h
  simp only [sizeofPointer, offsetofBucket] at h this
  omega

theorem SizeWraps.big (h : SizeWraps (2 ^ e)) : 60 < e := by
  by_contra hle
  exact Nat.not_le_of_gt h (bucketsSize_of_le (by omega))

omit [DecidableEq α] in
theorem makeBuckets_meets (W : World α) (now e : Nat) :
    Meets (makeBuckets W now (2 ^ e)) (MemoryStop W now (now + 1) (2 ^ e)) fun bs =>
      e ≤ 60 ∧ bs = { length := tagCount (2 ^ e), used := tagCount 0, deleted := tagCount 0,
                      bucket := List.replicate (2 ^ e) W.unused } := by
  rw [makeBuckets]
  split
  · split
    · rename_i hfits
      exact ⟨small_of_fits hfits, rfl⟩
    · rename_i hfits
      exact Or.inr ⟨rfl, Nat.lt_of_not_le hfits⟩
  · rename_i hreserve
    exact Or.inl ⟨rfl, now, le_rfl, Nat.lt_succ_self now, Bool.not_eq_true _ ▸ hreserve⟩

theorem entriesOf_fresh (hW : W.Lawful) (n : Nat) :
    entriesOf W (List.replicate n W.unused) (List.replicate n W.unused) = [] := by
  rw [entriesOf, List.filter_eq_nil_iff]
  intro p hp
  rw [List.eq_of_mem_replicate (List.of_mem_zip hp).1, hW.unused_not_live]
  exact Bool.false_ne_true

theorem arraysOk_fresh (hW : W.Lawful) (he : e ≤ 60) (hreset : ld.reset ≤ now) :
    ArraysOk W e
      { length := tagCount (2 ^ e), used := tagCount 0, deleted := tagCount 0,
        bucket := List.replicate (2 ^ e) W.unused }
      { length := tagCount (2 ^ e), used := tagCount 0, deleted := tagCount 0,
        bucket := List.replicate (2 ^ e) W.unused } ld now where
  slots := keysOk_replicate hreset
  valueSlots := List.length_replicate
  small := he
  keysLength := rfl
  valuesLength := rfl
  used := by rw [usedCount_replicate]
  deleted := by rw [deletedCount_replicate hW]

/-! ### Writing one slot -/

theorem ArraysOk.slots_eq (h : ArraysOk W e keys values ld now) :
    keys.bucket.length = values.bucket.length := by
  rw [h.slots.length, h.valueSlots]

theorem ArraysOk.distinct (h : ArraysOk W e keys values ld now) :
    Assoc.Distinct W.cmp (entriesOf W keys.bucket values.bucket) := h.slots.distinct _

theorem ArraysOk.mono (h : ArraysOk W e keys values ld now) (hnow : now ≤ now')
    (hld : ∀ p ∈ ld.added, p ∈ ld'.added) (hreset : ld'.reset = ld.reset) :
    ArraysOk W e keys values ld' now' :=
  { h with slots := h.slots.mono hnow hld hreset }

theorem ArraysOk.pow_lt (h : ArraysOk W e keys values ld now) : 2 ^ e < 2 ^ 62 :=
  Nat.pow_lt_pow_right (by decide) (by have := h.small; omega)

theorem TableOk.length_eq (h : TableOk W e m) : untagCount m.tbl.keys.length = 2 ^ e := by
  have hpow := ArraysOk.pow_lt h
  rw [h.keysLength, untagCount_tagCount (by omega)]

theorem ArraysOk.value_at (h : ArraysOk W e keys values ld now) (hk : keys.bucket[b]? = some k) :
    ∃ old, values.bucket[b]? = some old := by
  have hlt : b < values.bucket.length := h.slots_eq ▸ (List.getElem?_eq_some_iff.mp hk).1
  exact ⟨_, List.getElem?_eq_getElem hlt⟩

/-- The counts after a write, from the key that was overwritten. -/
theorem usedCount_set {x : α} (hk : ks[b]? = some k) : usedCount W (ks.set b x) =
    usedCount W ks - (if k ≠ W.unused then 1 else 0) + (if x ≠ W.unused then 1 else 0) := by
  obtain ⟨hlt, rfl⟩ := List.getElem?_eq_some_iff.mp hk
  simp [usedCount, List.countP_set hlt]

theorem deletedCount_set {x : α} (hk : ks[b]? = some k) : deletedCount W (ks.set b x) =
    deletedCount W ks - (if k = W.deleted then 1 else 0) + (if x = W.deleted then 1 else 0) := by
  obtain ⟨hlt, rfl⟩ := List.getElem?_eq_some_iff.mp hk
  simp [deletedCount, List.countP_set hlt]

theorem usedCount_pos (hk : ks[b]? = some k) (hne : k ≠ W.unused) : 0 < usedCount W ks :=
  List.countP_pos_iff.mpr ⟨k, List.mem_of_getElem? hk, by simpa using hne⟩

theorem deletedCount_pos (hk : ks[b]? = some W.deleted) : 0 < deletedCount W ks :=
  List.countP_pos_iff.mpr ⟨W.deleted, List.mem_of_getElem? hk, by simp⟩

theorem tagCount_succ {n c : Nat} (h : c = tagCount n) (hn : n < 2 ^ 62) :
    tagCount (untagCount c + 1) = tagCount (n + 1) := by
  rw [h, untagCount_tagCount (by omega)]

theorem tagCount_pred {n c : Nat} (h : c = tagCount n) (hn : n < 2 ^ 62) :
    tagCount (untagCount c - 1) = tagCount (n - 1) := by
  rw [h, untagCount_tagCount (by omega)]

section
variable (h : ArraysOk W e keys values ld now) (hW : W.Lawful)
include h hW

/-- A new key in an unused slot of its path. -/
theorem ArraysOk.fillUnused (value : α) (hkey : W.IsKey key) (habsent : Absent W keys.bucket key)
    (hb : keys.bucket[b]? = some W.unused)
    (hpath : Probe.OnPath (freeAt W keys.bucket) (probes e (W.hash now key)) b)
    (hadded : W.addsToLd = true → (key, now) ∈ ld.added) :
    ArraysOk W e { keys.write b key with used := tagCount (untagCount keys.used + 1) }
      (values.write b value) ld now ∧
    (entriesOf W (keys.bucket.set b key) (values.bucket.set b value)).Perm
      ((key, value) :: entriesOf W keys.bucket values.bucket) := by
  obtain ⟨old, hv⟩ := h.value_at hb
  have hlive := hkey.live hW
  have hne := live_iff.mp hlive
  have hle := usedCount_le (W := W) keys.bucket
  have hpow := h.pow_lt
  rw [h.slots.length] at hle
  refine ⟨{
    slots := h.slots.store hW hkey habsent hpath hadded
    valueSlots := by rw [Buckets.write, List.length_set, h.valueSlots]
    small := h.small
    keysLength := h.keysLength
    valuesLength := h.valuesLength
    used := ?_
    deleted := ?_ }, ?_⟩
  · rw [tagCount_succ h.used (by omega), Buckets.write, usedCount_set hb]
    simp [hne.1]
  · rw [Buckets.write, deletedCount_set hb, h.deleted]
    simp [hne.2, hW.unused_ne_deleted]
  · exact (entriesOf_fill hb hv value hlive).trans
      ((entriesOf_perm_dead hb hv hW.unused_not_live).symm.cons _)

/-- A new key in a tombstone of its path. -/
theorem ArraysOk.fillDeleted (value : α) (hkey : W.IsKey key) (habsent : Absent W keys.bucket key)
    (hb : keys.bucket[b]? = some W.deleted)
    (hpath : Probe.OnPath (freeAt W keys.bucket) (probes e (W.hash now key)) b)
    (hadded : W.addsToLd = true → (key, now) ∈ ld.added) :
    ArraysOk W e { keys.write b key with deleted := tagCount (untagCount keys.deleted - 1) }
      (values.write b value) ld now ∧
    (entriesOf W (keys.bucket.set b key) (values.bucket.set b value)).Perm
      ((key, value) :: entriesOf W keys.bucket values.bucket) := by
  obtain ⟨old, hv⟩ := h.value_at hb
  have hlive := hkey.live hW
  have hne := live_iff.mp hlive
  have hle := deletedCount_le (W := W) keys.bucket
  have hpow := h.pow_lt
  rw [h.slots.length] at hle
  refine ⟨{
    slots := h.slots.store hW hkey habsent hpath hadded
    valueSlots := by rw [Buckets.write, List.length_set, h.valueSlots]
    small := h.small
    keysLength := h.keysLength
    valuesLength := h.valuesLength
    used := ?_
    deleted := ?_ }, ?_⟩
  · have hpos := usedCount_pos hb hW.unused_ne_deleted.symm
    rw [Buckets.write, usedCount_set hb, h.used]
    simp only [Ne, hne.1, hW.unused_ne_deleted.symm, not_false_eq_true, if_true]
    congr 1
    omega
  · rw [tagCount_pred h.deleted (by omega), Buckets.write, deletedCount_set hb]
    simp [hne.2]
  · exact (entriesOf_fill hb hv value hlive).trans
      ((entriesOf_perm_dead hb hv hW.deleted_not_live).symm.cons _)

omit hW in
theorem ArraysOk.replaceValue (value : α) (hb : keys.bucket[b]? = some k) (hlive : W.live k = true) :
    ArraysOk W e keys (values.write b value) ld now ∧ ∃ old,
      (entriesOf W keys.bucket values.bucket).Perm
        ((k, old) :: others W keys.bucket values.bucket b) ∧
      (entriesOf W keys.bucket (values.bucket.set b value)).Perm
        ((k, value) :: others W keys.bucket values.bucket b) := by
  obtain ⟨old, hv⟩ := h.value_at hb
  refine ⟨{ h with valueSlots := by rw [Buckets.write, List.length_set, h.valueSlots] },
    old, entriesOf_perm_live hb hv hlive, ?_⟩
  have hsame : keys.bucket.set b k = keys.bucket := by
    obtain ⟨hlt, rfl⟩ := List.getElem?_eq_some_iff.mp hb
    exact List.set_getElem_self hlt
  have hfill := entriesOf_fill hb hv value hlive
  rwa [hsame] at hfill

theorem ArraysOk.entomb {x : α} (hb : keys.bucket[b]? = some k) (hlive : W.live k = true) :
    ArraysOk W e { keys.write b W.deleted with deleted := tagCount (untagCount keys.deleted + 1) }
      (values.write b x) ld now ∧ ∃ old,
      (entriesOf W keys.bucket values.bucket).Perm
        ((k, old) :: entriesOf W (keys.bucket.set b W.deleted) (values.bucket.set b x)) := by
  obtain ⟨old, hv⟩ := h.value_at hb
  have hne := live_iff.mp hlive
  have hle := deletedCount_le (W := W) keys.bucket
  have hpow := h.pow_lt
  rw [h.slots.length] at hle
  refine ⟨{
    slots := h.slots.erase hW
    valueSlots := by rw [Buckets.write, List.length_set, h.valueSlots]
    small := h.small
    keysLength := h.keysLength
    valuesLength := h.valuesLength
    used := ?_
    deleted := ?_ }, old, ?_⟩
  · have hpos := usedCount_pos hb hne.1
    rw [Buckets.write, usedCount_set hb, h.used]
    simp only [Ne, hne.1, hW.unused_ne_deleted.symm, not_false_eq_true, if_true]
    congr 1
    omega
  · rw [tagCount_succ h.deleted (by omega), Buckets.write, deletedCount_set hb]
    simp [hne.2]
  · exact (entriesOf_perm_live hb hv hlive).trans
      ((entriesOf_clear hb hv x hW.deleted_not_live).symm.cons _)

end

end ManagedObject.Metadata
