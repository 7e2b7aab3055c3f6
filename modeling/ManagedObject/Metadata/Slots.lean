import ManagedObject.Lib.Assoc
import ManagedObject.Lib.Probe
import ManagedObject.Metadata.Table

/-!
# The key array

What the table code relies on about the slots of a key array: a key sits on the probe path of the
hash value it had when it was stored, no path is interrupted by an unused slot, and no two live
slots hold keys that compare equal. Storing a key in the slot a search reports keeps this, and so
does turning a live slot into a tombstone.
-/

namespace ManagedObject.Metadata

open Format

variable {α : Type} [DecidableEq α]

/-- The assumptions on the comparison, the hash function and the ids. -/
structure World.Lawful (W : World α) : Prop where
  comparison : Assoc.Comparison W.cmp
  hash_eq : ∀ t a b, W.cmp a b = true → W.hash t a = W.hash t b
  unused_ne_deleted : W.unused ≠ W.deleted

/-- Numbers as references, hashed and compared by their last digit. -/
def digitWorld : World Nat where
  null := 0
  unused := 1
  deleted := 2
  managed k := 3 ≤ k
  hash _ k := BitVec.ofNat 64 (k % 10)
  addsToLd := false
  cmp a b := a % 10 == b % 10
  isStale _ _ _ _ := false
  reserve _ _ := true

theorem digitWorld_lawful : digitWorld.Lawful where
  comparison := {
    refl := fun a => beq_self_eq_true (a % 10)
    symm := fun _ _ h => beq_iff_eq.mpr (beq_iff_eq.mp h).symm
    trans := fun _ _ _ h h' => beq_iff_eq.mpr ((beq_iff_eq.mp h).trans (beq_iff_eq.mp h')) }
  hash_eq _ _ _ h := congrArg (BitVec.ofNat 64) (beq_iff_eq.mp h)
  unused_ne_deleted := by decide

/-- A reference that may be used as a key: it never compares equal to a sentinel id. -/
def World.IsKey (W : World α) (k : α) : Prop :=
  W.cmp k W.unused = false ∧ W.cmp k W.deleted = false

/-- The staleness answers can be relied on: if the hash value of a key changed since an equal key
was stored, the location dependency that recorded it is reported stale. -/
def World.Tracked (W : World α) : Prop :=
  ∀ calls ld t t₀ k k', W.cmp k k' = true → ld.reset ≤ t₀ → t₀ ≤ t →
    (W.addsToLd = true → (k, t₀) ∈ ld.added) →
    W.hash t k' = W.hash t₀ k ∨ (k' ≠ W.null ∧ W.isStale calls ld t k' = true)

def World.live (W : World α) (k : α) : Bool := k ≠ W.unused && k ≠ W.deleted

def freeAt (W : World α) (ks : List α) (i : Nat) : Bool := ks[i]? = some W.unused

def hitAt (W : World α) (ks : List α) (key : α) (i : Nat) : Bool := ks[i]?.any (W.cmp · key)

def tombAt (W : World α) (ks : List α) (i : Nat) : Bool := ks[i]? = some W.deleted

def probes (e : Nat) (hash : BitVec 64) : List Nat :=
  Probe.sequence e (hash.toNat &&& (2 ^ e - 1)) ((hash.toNat >>> 8) ||| 1)

structure KeysOk (W : World α) (e : Nat) (ks : List α) (ld : Ld α) (now : Nat) : Prop where
  length : ks.length = 2 ^ e
  reset_le : ld.reset ≤ now
  isKey : ∀ (i : Nat) k, ks[i]? = some k → W.live k = true → W.IsKey k
  unique : ∀ (i j : Nat) a b, ks[i]? = some a → ks[j]? = some b → W.live a = true → W.live b = true →
    W.cmp a b = true → i = j
  path : ∀ (i : Nat) k, ks[i]? = some k → W.live k = true → ∃ t ≤ now,
    ld.reset ≤ t ∧ (W.addsToLd = true → (k, t) ∈ ld.added) ∧
      Probe.OnPath (freeAt W ks) (probes e (W.hash t k)) i

variable {W : World α} {e : Nat} {ks : List α} {ld ld' : Ld α} {now now' b : Nat} {key : α}

theorem live_iff {k : α} : W.live k = true ↔ k ≠ W.unused ∧ k ≠ W.deleted := by
  simp [World.live]

theorem live_false_iff {k : α} : W.live k = false ↔ k = W.unused ∨ k = W.deleted := by
  rw [← Bool.not_eq_true, live_iff]
  tauto

theorem World.Lawful.unused_not_live (_ : W.Lawful) : W.live W.unused = false := by
  simp [World.live]

theorem World.Lawful.deleted_not_live (_ : W.Lawful) : W.live W.deleted = false := by
  simp [World.live]

/-- What compares equal to a key is not a sentinel. -/
theorem World.IsKey.live_of_cmp (hW : W.Lawful) (hkey : W.IsKey key) {k : α}
    (h : W.cmp k key = true) : W.live k = true := by
  rw [live_iff]
  constructor
  · rintro rfl
    rw [hW.comparison.comm, hkey.1] at h
    cases h
  · rintro rfl
    rw [hW.comparison.comm, hkey.2] at h
    cases h

theorem World.IsKey.live (hW : W.Lawful) (hkey : W.IsKey key) : W.live key = true :=
  hkey.live_of_cmp hW (hW.comparison.refl key)

theorem probes_step_odd (hash : BitVec 64) : ((hash.toNat >>> 8) ||| 1) % 2 = 1 := by
  simp

theorem home_lt (hash : BitVec 64) : hash.toNat &&& (2 ^ e - 1) < 2 ^ e := by
  rw [Nat.and_two_pow_sub_one_eq_mod]
  exact Nat.mod_lt _ (Nat.two_pow_pos e)

theorem mem_probes (hash : BitVec 64) {i : Nat} (hi : i < 2 ^ e) : i ∈ probes e hash :=
  Probe.mem_sequence (probes_step_odd hash) hi

/-- The hash value of a key does not change when objects move. -/
def World.Fixed (W : World α) : Prop := ∀ t t' k, W.hash t k = W.hash t' k

omit [DecidableEq α] in
theorem World.Tracked.of_fixed (hW : W.Lawful) (hfixed : W.Fixed) : W.Tracked := by
  intro _ _ t t₀ k k' hcmp _ _ _
  left
  rw [hfixed t t₀ k', hW.hash_eq t₀ k k' hcmp]

/-! ### Searching a key array -/

omit [DecidableEq α] in
theorem exists_slot (hlen : ks.length = 2 ^ e) {i : Nat} (hi : i < 2 ^ e) : ∃ k, ks[i]? = some k := by
  rw [← hlen] at hi
  exact ⟨ks[i], List.getElem?_eq_getElem hi⟩

theorem freeAt_iff {i : Nat} : freeAt W ks i = true ↔ ks[i]? = some W.unused := by
  simp [freeAt]

theorem tombAt_iff {i : Nat} : tombAt W ks i = true ↔ ks[i]? = some W.deleted := by
  simp [tombAt]

omit [DecidableEq α] in
theorem hitAt_iff {i : Nat} : hitAt W ks key i = true ↔ ∃ k, ks[i]? = some k ∧ W.cmp k key = true := by
  rw [hitAt, Option.any_eq_true]

def Absent (W : World α) (ks : List α) (key : α) : Prop :=
  ∀ (i : Nat) k, ks[i]? = some k → W.live k = true → W.cmp k key = false

/-- The slot of a key that is stored under its present hash value is found. -/
theorem KeysOk.search_hit (h : KeysOk W e ks ld now) (hW : W.Lawful) (hkey : W.IsKey key)
    {hash : BitVec 64} {i : Nat} {k : α} (hi : ks[i]? = some k) (hcmp : W.cmp k key = true)
    (hpath : Probe.OnPath (freeAt W ks) (probes e hash) i) :
    Probe.search (freeAt W ks) (hitAt W ks key) (tombAt W ks) (probes e hash) = some i := by
  refine Probe.search_of_onPath (Probe.nodup_sequence (probes_step_odd hash)) hpath
    (hitAt_iff.mpr ⟨k, hi, hcmp⟩) ?_
  intro j _ hj
  obtain ⟨k', hj, hcmp'⟩ := hitAt_iff.mp hj
  have hsame : W.cmp k' k = true :=
    hW.comparison.trans _ _ _ hcmp' (hW.comparison.symm _ _ hcmp)
  exact h.unique j i k' k hj hi (hkey.live_of_cmp hW hcmp') (hkey.live_of_cmp hW hcmp) hsame

/-- The search finds nothing where every slot is occupied by another key. -/
theorem search_eq_none_iff (hlength : ks.length = 2 ^ e) (hash : BitVec 64) :
    Probe.search (freeAt W ks) (hitAt W ks key) (tombAt W ks) (probes e hash) = none ↔
      ∀ k ∈ ks, k ≠ W.unused ∧ k ≠ W.deleted ∧ W.cmp k key = false := by
  rw [Probe.search_eq_none_iff]
  constructor
  · intro h k hk
    obtain ⟨i, hi⟩ := List.mem_iff_getElem?.mp hk
    have hlt : i < 2 ^ e := hlength ▸ (List.getElem?_eq_some_iff.mp hi).1
    have hquiet := h i (mem_probes hash hlt)
    simpa [freeAt, hitAt, tombAt, hi, and_left_comm, and_comm] using hquiet
  · intro h i hi
    have hlt := List.mem_range.mp ((Probe.perm_sequence (probes_step_odd hash)).mem_iff.mp hi)
    obtain ⟨k, hk⟩ := exists_slot hlength hlt
    have hother := h k (List.mem_of_getElem? hk)
    simp [freeAt, hitAt, tombAt, hk, hother]

theorem KeysOk.search_none (h : KeysOk W e ks ld now) {hash : BitVec 64}
    (hs : Probe.search (freeAt W ks) (hitAt W ks key) (tombAt W ks) (probes e hash) = none) :
    Absent W ks key ∧ ∀ k ∈ ks, W.live k = true := by
  have hquiet := (search_eq_none_iff h.length hash).mp hs
  refine ⟨fun i k hi _ => (hquiet k (List.mem_of_getElem? hi)).2.2, fun k hk => ?_⟩
  rw [live_iff]
  exact ⟨(hquiet k hk).1, (hquiet k hk).2.1⟩

/-- A slot that the search reports is on the path, and holds a matching key or none at all. -/
theorem search_some {hash : BitVec 64} {b : Nat}
    (hs : Probe.search (freeAt W ks) (hitAt W ks key) (tombAt W ks) (probes e hash) = some b) :
    Probe.OnPath (freeAt W ks) (probes e hash) b ∧
      ∃ k, ks[b]? = some k ∧ (W.live k = true → W.cmp k key = true) := by
  obtain ⟨hpath, hslot⟩ := Probe.search_eq_some hs
  refine ⟨hpath, ?_⟩
  rcases hslot with hfree | hhit | ⟨htomb, -⟩
  · exact ⟨W.unused, freeAt_iff.mp hfree, fun hlive => absurd rfl (live_iff.mp hlive).1⟩
  · obtain ⟨k, hb, hcmp⟩ := hitAt_iff.mp hhit
    exact ⟨k, hb, fun _ => hcmp⟩
  · exact ⟨W.deleted, tombAt_iff.mp htomb, fun hlive => absurd rfl (live_iff.mp hlive).2⟩

/-! ### What the operations keep -/

theorem keysOk_replicate (hreset : ld.reset ≤ now) :
    KeysOk W e (List.replicate (2 ^ e) W.unused) ld now := by
  have hdead : ∀ (i : Nat) k, (List.replicate (2 ^ e) W.unused)[i]? = some k → W.live k ≠ true := by
    intro i k hi hlive
    have hk : k ∈ List.replicate (2 ^ e) W.unused := List.mem_of_getElem? hi
    exact (live_iff.mp hlive).1 (List.eq_of_mem_replicate hk)
  exact {
    length := List.length_replicate
    reset_le := hreset
    isKey := fun i k hi hlive => absurd hlive (hdead i k hi)
    unique := fun i _ a _ hi _ hlive _ _ => absurd hlive (hdead i a hi)
    path := fun i k hi hlive => absurd hlive (hdead i k hi) }

theorem KeysOk.mono (h : KeysOk W e ks ld now) (hnow : now ≤ now')
    (hld : ∀ p ∈ ld.added, p ∈ ld'.added) (hreset : ld'.reset = ld.reset) :
    KeysOk W e ks ld' now' where
  length := h.length
  reset_le := by rw [hreset]; exact h.reset_le.trans hnow
  isKey := h.isKey
  unique := h.unique
  path i k hi hlive := by
    obtain ⟨t, ht, hsince, hadded, hpath⟩ := h.path i k hi hlive
    exact ⟨t, ht.trans hnow, hreset ▸ hsince, fun hw => hld _ (hadded hw), hpath⟩

def Ld.afterFind (W : World α) (ld : Ld α) (now : Nat) (key : α) (add : Bool) : Ld α :=
  if add && W.addsToLd then { ld with added := (key, now) :: ld.added } else ld

omit [DecidableEq α] in
theorem Ld.subset_afterFind (add : Bool) : ∀ p ∈ ld.added, p ∈ (ld.afterFind W now key add).added := by
  intro p hp
  rw [Ld.afterFind]
  split
  · exact List.mem_cons_of_mem _ hp
  · exact hp

omit [DecidableEq α] in
theorem Ld.reset_afterFind (add : Bool) : (ld.afterFind W now key add).reset = ld.reset := by
  rw [Ld.afterFind]
  split <;> rfl

omit [DecidableEq α] in
theorem Ld.mem_afterFind (hadd : W.addsToLd = true) : (key, now) ∈ (ld.afterFind W now key true).added := by
  rw [Ld.afterFind, hadd]
  exact List.mem_cons_self ..

/-- Occupying or clearing a slot to something other than `unused` frees no slot. -/
theorem freeAt_set {k : α} (hk : k ≠ W.unused) (i : Nat) (h : freeAt W ks i = false) :
    freeAt W (ks.set b k) i = false := by
  rw [← Bool.not_eq_true, freeAt_iff] at h ⊢
  rw [List.getElem?_set]
  split
  · split
    · simpa using hk
    · simp
  · exact h

theorem KeysOk.store (h : KeysOk W e ks ld now) (hW : W.Lawful) (hkey : W.IsKey key)
    (habsent : Absent W ks key)
    (hpath : Probe.OnPath (freeAt W ks) (probes e (W.hash now key)) b)
    (hadded : W.addsToLd = true → (key, now) ∈ ld.added) : KeysOk W e (ks.set b key) ld now where
  length := by rw [List.length_set, h.length]
  reset_le := h.reset_le
  isKey i k hi hlive := by
    rw [List.getElem?_set] at hi
    split at hi
    · split at hi
      · cases hi
        exact hkey
      · cases hi
    · exact h.isKey i k hi hlive
  unique i j x y hi hj hx hy hxy := by
    rw [List.getElem?_set] at hi hj
    split at hi <;> split at hj
    · omega
    · split at hi
      · cases hi
        rw [hW.comparison.comm, habsent j y hj hy] at hxy
        cases hxy
      · cases hi
    · split at hj
      · cases hj
        rw [habsent i x hi hx] at hxy
        cases hxy
      · cases hj
    · exact h.unique i j x y hi hj hx hy hxy
  path i k hi hlive := by
    have hkeep : ∀ j, freeAt W ks j = false → freeAt W (ks.set b key) j = false :=
      freeAt_set (live_iff.mp (hkey.live hW)).1
    rw [List.getElem?_set] at hi
    split at hi
    · split at hi
      · rename_i hib _
        cases hi
        subst hib
        exact ⟨now, le_rfl, h.reset_le, hadded, hpath.mono hkeep⟩
      · cases hi
    · obtain ⟨t, ht, hsince, hld, hold⟩ := h.path i k hi hlive
      exact ⟨t, ht, hsince, hld, hold.mono hkeep⟩

theorem KeysOk.erase (h : KeysOk W e ks ld now) (hW : W.Lawful) :
    KeysOk W e (ks.set b W.deleted) ld now := by
  have hold : ∀ (i : Nat) k, (ks.set b W.deleted)[i]? = some k → W.live k = true → ks[i]? = some k := by
    intro i k hi hlive
    rw [List.getElem?_set] at hi
    split at hi
    · split at hi
      · cases hi
        rw [hW.deleted_not_live] at hlive
        cases hlive
      · cases hi
    · exact hi
  exact {
    length := by rw [List.length_set, h.length]
    reset_le := h.reset_le
    isKey := fun i k hi hlive => h.isKey i k (hold i k hi hlive) hlive
    unique := fun i j x y hi hj hx hy hxy =>
      h.unique i j x y (hold i x hi hx) (hold j y hj hy) hx hy hxy
    path := fun i k hi hlive => by
      obtain ⟨t, ht, hsince, hld, hpath⟩ := h.path i k (hold i k hi hlive) hlive
      exact ⟨t, ht, hsince, hld, hpath.mono fun j => freeAt_set hW.unused_ne_deleted.symm j⟩ }

end ManagedObject.Metadata
