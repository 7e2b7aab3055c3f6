import ManagedObject.Metadata.Invariant

/-!
# What each table operation does

One specification for each function of the table code, from the invariant before the call: how it
can stop, and what it does to the entries when it returns. A caller is specified from the
specifications of the functions it calls.
-/

namespace ManagedObject.Metadata

open Format Outcome

variable {α : Type} [DecidableEq α] {W : World α} {e : Nat} {key value : α} {m : Machine α}

omit [DecidableEq α] in
theorem read_eq {bs : Buckets α} {i : Nat} {k : α} (h : bs.bucket[i]? = some k) :
    bs.read i = .ok k := by
  rw [Buckets.read, h]

theorem tableSize_eq (hW : W.Lawful) (h : TableOk W e m) :
    tableSize m.tbl = .ok (entries W m).length := by
  have hpow := h.pow_lt
  have hused := usedCount_le (W := W) m.tbl.keys.bucket
  have hdel := deletedCount_le (W := W) m.tbl.keys.bucket
  rw [h.slots.length] at hused hdel
  have hcount := usedCount_eq hW m.tbl.keys.bucket
  rw [tableSize, h.used, h.deleted, untagCount_tagCount (by omega), untagCount_tagCount (by omega),
    aver, if_pos (by simp only [ge_iff_le, decide_eq_true_eq]; omega), entries,
    length_entriesOf h.slots_eq]
  simp only [bind, Except.bind, pure, Except.pure]
  congr 1
  omega

/-! ### Rehashing -/

/-- The new arrays of a rehash after it has moved the entries `done`. -/
structure RehashOk (W : World α) (e now : Nat) (key : α) (r : Rehash α) (done : List (α × α)) :
    Prop where
  arrays : ArraysOk W e r.keys r.values r.ld now
  perm : (entriesOf W r.keys.bucket r.values.bucket).Perm done
  noTombs : deletedCount W r.keys.bucket = 0
  reset : r.ld.reset = now
  found : ∀ b, r.result = some b → ∃ k, r.keys.bucket[b]? = some k ∧ W.live k = true ∧
    W.cmp k key = true
  missed : r.result = none → key = W.null ∨ ∀ p ∈ done, W.cmp p.1 key = false

section
variable {now : Nat} {r : Rehash α} {done : List (α × α)} {oldKey oldValue : α} {b : Nat}

/-- While entries remain to be moved, the search for a new key ends in an unused slot. -/
theorem RehashOk.search_unused (hr : RehashOk W e now key r done) (hroom : done.length < 2 ^ e)
    (habsent : Absent W r.keys.bucket oldKey) (hash : BitVec 64) :
    ∃ b, Probe.search (freeAt W r.keys.bucket) (hitAt W r.keys.bucket oldKey)
        (tombAt W r.keys.bucket) (probes e hash) = some b ∧
      r.keys.bucket[b]? = some W.unused ∧
      Probe.OnPath (freeAt W r.keys.bucket) (probes e hash) b := by
  cases hs : Probe.search (freeAt W r.keys.bucket) (hitAt W r.keys.bucket oldKey)
      (tombAt W r.keys.bucket) (probes e hash) with
  | none =>
    -- every slot would be live, but fewer entries than slots have been moved
    obtain ⟨-, hfull⟩ := hr.arrays.slots.search_none hs
    have hall : r.keys.bucket.countP W.live = r.keys.bucket.length := List.countP_eq_length.mpr hfull
    have hlen := length_entriesOf (W := W) hr.arrays.slots_eq
    rw [hall, hr.arrays.slots.length, hr.perm.length_eq] at hlen
    omega
  | some b =>
    obtain ⟨hpath, k, hb, hmatch⟩ := search_some hs
    refine ⟨b, rfl, ?_, hpath⟩
    cases hklive : W.live k with
    | true =>
      rw [habsent b k hb hklive] at hmatch
      exact absurd (hmatch hklive) Bool.false_ne_true
    | false =>
      rcases live_false_iff.mp hklive with rfl | rfl
      · exact hb
      · have := deletedCount_pos hb
        rw [hr.noTombs] at this
        omega

/-- Moving one entry into an unused slot of its path. -/
theorem RehashOk.move (hr : RehashOk W e now key r done) (hW : W.Lawful) (hkey : W.IsKey oldKey)
    (habsent : Absent W r.keys.bucket oldKey) (hb : r.keys.bucket[b]? = some W.unused)
    (hpath : Probe.OnPath (freeAt W r.keys.bucket) (probes e (W.hash now oldKey)) b) :
    RehashOk W e now key
      { keys := { r.keys.write b oldKey with used := tagCount (untagCount r.keys.used + 1) }
        values := r.values.write b oldValue
        ld := r.ld.afterFind W now oldKey true
        result := if key ≠ W.null && W.cmp oldKey key then some b else r.result }
      (done ++ [(oldKey, oldValue)]) := by
  have hlive := hkey.live hW
  have hlt := (List.getElem?_eq_some_iff.mp hb).1
  have hrecorded : ArraysOk W e r.keys r.values (r.ld.afterFind W now oldKey true) now :=
    hr.arrays.mono le_rfl (Ld.subset_afterFind true) (Ld.reset_afterFind true)
  obtain ⟨harrays, hentries⟩ :=
    hrecorded.fillUnused hW oldValue hkey habsent hb hpath Ld.mem_afterFind
  refine {
    arrays := harrays
    perm := (hentries.trans (hr.perm.cons _)).trans (List.perm_append_singleton _ _).symm
    noTombs := ?_
    reset := by rw [Ld.reset_afterFind, hr.reset]
    found := ?_
    missed := ?_ }
  · simp only [Buckets.write]
    rw [deletedCount_set hb, hr.noTombs]
    simp [hW.unused_ne_deleted, (live_iff.mp hlive).2]
  · intro b' hb'
    simp only [Buckets.write]
    split at hb'
    · rename_i hcmp
      cases hb'
      rw [Bool.and_eq_true] at hcmp
      exact ⟨oldKey, List.getElem?_set_self hlt, hlive, hcmp.2⟩
    · obtain ⟨k, hk, hklive, hkcmp⟩ := hr.found b' hb'
      refine ⟨k, ?_, hklive, hkcmp⟩
      rw [List.getElem?_set_ne, hk]
      rintro rfl
      rw [hb] at hk
      cases hk
      rw [hW.unused_not_live] at hklive
      cases hklive
  · intro hnone
    dsimp only at hnone
    split at hnone
    · cases hnone
    · rename_i hcmp
      by_cases hnull : key = W.null
      · exact Or.inl hnull
      · refine Or.inr fun q hq => ?_
        rcases List.mem_append.mp hq with hq | hq
        · exact (hr.missed hnone).resolve_left hnull q hq
        · rw [List.mem_singleton.mp hq]
          simpa [hnull] using hcmp

end

theorem rehashLoop_meets (hW : W.Lawful) {now : Nat} {rest : List (α × α)} :
    ∀ {done : List (α × α)} {r : Rehash α}, RehashOk W e now key r done →
      (∀ p ∈ rest, W.live p.1 = true → W.IsKey p.1) →
      Assoc.Distinct W.cmp (done ++ rest.filter fun p => W.live p.1) →
      (done ++ rest.filter fun p => W.live p.1).length ≤ 2 ^ e →
      Meets (rehashLoop W now key rest r) (fun _ => False) fun r' =>
        RehashOk W e now key r' (done ++ rest.filter fun p => W.live p.1) := by
  induction rest with
  | nil =>
    intro done r hr _ _ _
    rw [List.filter_nil, List.append_nil]
    exact hr
  | cons p rest ih =>
    intro done r hr hkeys hdistinct hroom
    obtain ⟨oldKey, oldValue⟩ := p
    have hrest : ∀ p ∈ rest, W.live p.1 = true → W.IsKey p.1 :=
      fun q hq => hkeys q (List.mem_cons_of_mem _ hq)
    have hlive' : (decide (oldKey ≠ W.unused) && decide (oldKey ≠ W.deleted)) = W.live oldKey := rfl
    rw [rehashLoop, hlive']
    cases hlive : W.live oldKey with
    | false =>
      rw [List.filter_cons_of_neg (p := fun p : α × α => W.live p.1) (by simp [hlive])]
        at hdistinct hroom ⊢
      exact ih hr hrest hdistinct hroom
    | true =>
      rw [List.filter_cons_of_pos (p := fun p : α × α => W.live p.1) hlive] at hdistinct hroom ⊢
      have hkey : W.IsKey oldKey := hkeys _ List.mem_cons_self hlive
      have habsent : Absent W r.keys.bucket oldKey := by
        rw [absent_iff hr.arrays.slots_eq]
        intro q hq
        exact (List.pairwise_append.mp hdistinct).2.2 q (hr.perm.mem_iff.mp hq) _ List.mem_cons_self
      have hlength : done.length < 2 ^ e := by
        simp only [List.length_append, List.length_cons] at hroom
        omega
      obtain ⟨b, hs, hb, hpath⟩ := hr.search_unused hlength habsent (W.hash now oldKey)
      have hdone : done ++ (oldKey, oldValue) :: rest.filter (fun p => W.live p.1) =
          (done ++ [(oldKey, oldValue)]) ++ rest.filter fun p => W.live p.1 := by simp
      rw [if_pos rfl, bucketsFind_eq hr.arrays.small hr.arrays.slots.length hr.arrays.keysLength, hs]
      rw [hdone] at hdistinct hroom ⊢
      simp only [bind, Except.bind, read_eq hb, aver, decide_true, if_true]
      exact ih (hr.move hW hkey habsent hb hpath) hrest hdistinct hroom

structure Rehashed (W : World α) (e : Nat) (key : α) (m : Machine α) (found : Option Nat)
    (m' : Machine α) : Prop where
  table : TableOk W e m'
  perm : (entries W m').Perm (entries W m)
  noTombs : deletedCount W m'.tbl.keys.bucket = 0
  clock : m'.now = m.now + 2
  reset : m'.tbl.ld.reset = m'.now
  hit : ∀ b, found = some b → ∃ k, m'.tbl.keys.bucket[b]? = some k ∧ W.live k = true ∧
    W.cmp k key = true
  miss : found = none → key = W.null ∨ ∀ p ∈ entries W m, W.cmp p.1 key = false

theorem length_entries_le (h : TableOk W e m) : (entries W m).length ≤ 2 ^ e := by
  rw [entries, length_entriesOf h.slots_eq, ← h.slots.length]
  exact List.countP_le_length

theorem length_entries_lt_double (h : TableOk W e m) : (entries W m).length < 2 ^ (e + 1) := by
  have hle := length_entries_le h
  have hpos := Nat.two_pow_pos e
  rw [pow_succ]
  omega

/-- The length that `table_set` asks of a rehash. -/
theorem TableOk.double_eq (h : TableOk W e m) : wrap (untagCount m.tbl.keys.length * 2) = 2 ^ (e + 1) := by
  have hpow := ArraysOk.pow_lt h
  rw [TableOk.length_eq h, wrap_of_lt (by omega), pow_succ]

theorem tableRehash_meets (hW : W.Lawful) (h : TableOk W e m) {e' : Nat}
    (hroom : (entries W m).length ≤ 2 ^ e') (key : α) :
    Meets (tableRehash W m (2 ^ e') key) (MemoryStop W m.now (m.now + 2) (2 ^ e')) fun (found, m') =>
      Rehashed W e' key m found m' := by
  refine ((makeBuckets_meets W m.now e').mono (fun _ hs => hs.mono le_rfl (by omega)) fun _ h => h).bind ?_
  rintro _ ⟨he', rfl⟩
  refine ((makeBuckets_meets W (m.now + 1) e').mono (fun _ hs => hs.mono (by omega) le_rfl) fun _ h => h).bind ?_
  rintro _ ⟨-, rfl⟩
  have hstart : RehashOk W e' (m.now + 2) key
      { keys := { length := tagCount (2 ^ e'), used := tagCount 0, deleted := tagCount 0,
                  bucket := List.replicate (2 ^ e') W.unused }
        values := { length := tagCount (2 ^ e'), used := tagCount 0, deleted := tagCount 0,
                    bucket := List.replicate (2 ^ e') W.unused }
        ld := ⟨[], m.now + 2⟩, result := none } [] := {
    arrays := arraysOk_fresh hW he' le_rfl
    perm := by rw [entriesOf_fresh hW]
    noTombs := deletedCount_replicate hW _
    reset := rfl
    found := fun _ hb => by cases hb
    missed := fun _ => Or.inr fun _ hp => by cases hp }
  have hkeys : ∀ p ∈ m.tbl.keys.bucket.zip m.tbl.values.bucket, W.live p.1 = true → W.IsKey p.1 := by
    intro p hp hlive
    obtain ⟨i, hi⟩ := List.mem_iff_getElem?.mp hp
    exact h.slots.isKey i p.1 (List.getElem?_zip_eq_some.mp hi).1 hlive
  refine ((rehashLoop_meets hW hstart hkeys h.distinct hroom).mono (fun _ => False.elim)
    fun _ h => h).bind ?_
  intro r hr
  rw [List.nil_append] at hr
  have hcount : untagCount r.keys.used = (entries W m).length := by
    have hused := usedCount_le (W := W) r.keys.bucket
    have hpow := hr.arrays.pow_lt
    rw [hr.arrays.slots.length] at hused
    rw [hr.arrays.used, untagCount_tagCount (by omega), usedCount_eq hW, hr.noTombs, Nat.add_zero,
      ← length_entriesOf hr.arrays.slots_eq, hr.perm.length_eq, entries, entriesOf]
  rw [tableSize_eq hW h]
  simp only [bind, Except.bind, hcount, aver, decide_true, if_true, pure, Except.pure, meets_ok]
  exact {
    table := hr.arrays
    perm := hr.perm
    noTombs := hr.noTombs
    clock := rfl
    reset := hr.reset
    hit := hr.found
    miss := hr.missed }

/-! ### Finding a key -/

/-- The MPS reports nothing stale before the clock has moved past the last reset. -/
def World.Settled (W : World α) : Prop :=
  ∀ calls ld key, W.isStale calls ld ld.reset key = false

/-- How a lookup can stop: one of the two arrays for the rehash of a stale table is not reserved. -/
def FindStop (W : World α) (m : Machine α) (s : Stop) : Prop :=
  s = .outOfMemory ∧ W.Refuses m.now (m.now + 2) (untagCount m.tbl.keys.length)

omit [DecidableEq α] in
/-- A call that only a failed lookup stops returns when the arrays of a rehash can be reserved. -/
theorem returns_of_reserved {β : Type} {r : Except Stop β} {post : β → Prop} (h : Meets r (FindStop W m) post)
    (hreserved : ¬ W.Refuses m.now (m.now + 2) (untagCount m.tbl.keys.length)) : ∃ a, r = .ok a ∧ post a :=
  h.returns fun _ hs => hreserved hs.2

/-- What `table_find` establishes: it reports the slot of an equal key, or else there is no such key
and a reported slot is one in which it may be stored. -/
structure FindPost (W : World α) (e : Nat) (key : α) (add : Bool) (m : Machine α)
    (found : Option Nat) (m' : Machine α) : Prop where
  table : TableOk W e m'
  clock : m.now ≤ m'.now ∧ m'.now ≤ m.now + 2
  perm : (entries W m').Perm (entries W m)
  outcome : (∃ b k, found = some b ∧ m'.tbl.keys.bucket[b]? = some k ∧ W.cmp k key = true) ∨
    (Absent W m'.tbl.keys.bucket key ∧ ∀ b, found = some b → ∃ k,
      m'.tbl.keys.bucket[b]? = some k ∧ W.live k = false ∧
      Probe.OnPath (freeAt W m'.tbl.keys.bucket) (probes e (W.hash m'.now key)) b ∧
      (add = true → W.addsToLd = true → (key, m'.now) ∈ m'.tbl.ld.added))
  settled : W.Settled → m.tbl.ld.reset = m.now → (entries W m).length < 2 ^ e → found ≠ none

/-- Where a search for a key ends in a slot without one, no equal key is stored, unless the dependency is stale:
an equal key would have been stored under another hash value. -/
theorem TableOk.absent_of_search (h : TableOk W e m) (hW : W.Lawful) (htracked : W.Tracked)
    (hkey : W.IsKey key) (add : Bool) {b : Nat} {k : α}
    (hs : Probe.search (freeAt W m.tbl.keys.bucket) (hitAt W m.tbl.keys.bucket key)
      (tombAt W m.tbl.keys.bucket) (probes e (W.hash m.now key)) = some b)
    (hb : m.tbl.keys.bucket[b]? = some k) (hlive : W.live k = false)
    (hquiet : key = W.null ∨ W.isStale m.calls (m.tbl.ld.afterFind W m.now key add) m.now key = false) :
    Absent W m.tbl.keys.bucket key := by
  intro i k₀ hi hk₀
  rw [← Bool.not_eq_true]
  intro hcmp
  obtain ⟨t, ht, hsince, hadded, hpath₀⟩ := h.slots.path i k₀ hi hk₀
  have hsince' : (m.tbl.ld.afterFind W m.now key add).reset ≤ t := by
    rw [Ld.reset_afterFind]
    exact hsince
  rcases htracked m.calls (m.tbl.ld.afterFind W m.now key add) m.now t k₀ key hcmp hsince' ht
    (fun hw => Ld.subset_afterFind add _ (hadded hw)) with hhash | ⟨hnull, hstale⟩
  · rw [← hhash] at hpath₀
    have hfound := h.slots.search_hit hW hkey hi hcmp hpath₀
    rw [hs, Option.some.injEq] at hfound
    subst hfound
    rw [hb, Option.some.injEq] at hi
    subst hi
    rw [hlive] at hk₀
    cases hk₀
  · rcases hquiet with hquiet | hquiet
    · exact hnull hquiet
    · rw [hquiet] at hstale
      cases hstale

/-- A rehash finds the key where it stands now, or shows that there is none. -/
theorem Rehashed.outcome {found : Option Nat} {m' : Machine α} {add : Bool} (hr : Rehashed W e key m found m')
    (h : TableOk W e m) (hnull : key = W.null → Absent W m.tbl.keys.bucket key) :
    (∃ b k, found = some b ∧ m'.tbl.keys.bucket[b]? = some k ∧ W.cmp k key = true) ∨
      (Absent W m'.tbl.keys.bucket key ∧ ∀ b, found = some b → ∃ k,
        m'.tbl.keys.bucket[b]? = some k ∧ W.live k = false ∧
        Probe.OnPath (freeAt W m'.tbl.keys.bucket) (probes e (W.hash m'.now key)) b ∧
        (add = true → W.addsToLd = true → (key, m'.now) ∈ m'.tbl.ld.added)) := by
  cases found with
  | some b =>
    obtain ⟨k, hk, -, hcmp⟩ := hr.hit b rfl
    exact Or.inl ⟨b, k, rfl, hk, hcmp⟩
  | none =>
    refine Or.inr ⟨?_, fun b hb => by cases hb⟩
    rw [absent_iff (ArraysOk.slots_eq hr.table)]
    intro p hp
    rcases hr.miss rfl with hkey | hmiss
    · exact (absent_iff h.slots_eq).mp (hnull hkey) p (hr.perm.mem_iff.mp hp)
    · exact hmiss p (hr.perm.mem_iff.mp hp)

theorem tableFind_meets (hW : W.Lawful) (htracked : W.Tracked) (h : TableOk W e m)
    (hkey : W.IsKey key) (add : Bool) :
    Meets (tableFind W m key add) (FindStop W m) fun (found, m') =>
      FindPost W e key add m found m' := by
  have hsame : m.now ≤ m.now ∧ m.now ≤ m.now + 2 := ⟨le_rfl, Nat.le_add_right _ _⟩
  have hlater : TableOk W e { m with tbl := { m.tbl with ld := m.tbl.ld.afterFind W m.now key add } } :=
    h.mono le_rfl (Ld.subset_afterFind add) (Ld.reset_afterFind add)
  rw [tableFind, bucketsFind_eq h.small h.slots.length h.keysLength]
  cases hs : Probe.search (freeAt W m.tbl.keys.bucket) (hitAt W m.tbl.keys.bucket key)
      (tombAt W m.tbl.keys.bucket) (probes e (W.hash m.now key)) with
  | none =>
    obtain ⟨habsent, hfull⟩ := h.slots.search_none hs
    refine ⟨hlater, hsame, .refl _, Or.inr ⟨habsent, fun b hb => by cases hb⟩, fun _ _ hroom => ?_⟩
    have hall := List.countP_eq_length.mpr hfull
    rw [entries, length_entriesOf h.slots_eq, hall, h.slots.length] at hroom
    omega
  | some b =>
    obtain ⟨hpath, k, hb, hmatch⟩ := search_some hs
    have hlive' : (decide (k = W.unused) || decide (k = W.deleted)) = !W.live k := by
      by_cases hun : k = W.unused <;> simp [World.live, hun]
    simp only [bind, Except.bind, read_eq hb, hlive']
    cases hlive : W.live k with
    | true => exact ⟨hlater, hsame, .refl _, Or.inl ⟨b, k, rfl, hb, hmatch hlive⟩, fun _ _ _ => by simp⟩
    | false =>
      rw [Bool.not_false, if_pos rfl]
      cases hstale : W.isStale m.calls (m.tbl.ld.afterFind W m.now key add) m.now key with
      | true =>
        have hroom : (entries W m).length ≤ 2 ^ e := length_entries_le h
        have hrehash := tableRehash_meets (m := { m with
          tbl := { m.tbl with ld := m.tbl.ld.afterFind W m.now key add }, calls := m.calls + 1 })
          hW hlater hroom key
        rw [if_pos rfl, TableOk.length_eq h]
        refine hrehash.mono ?_ ?_
        · rintro s (hs | ⟨-, hwraps⟩)
          · rw [FindStop, TableOk.length_eq h]
            exact hs
          · exact absurd hwraps.big (Nat.not_lt.mpr h.small)
        · rintro ⟨found, m'⟩ hr
          have hnull : key = W.null → Absent W m.tbl.keys.bucket key := fun hkey' =>
            h.absent_of_search hW htracked hkey add hs hb hlive (.inl hkey')
          have hclock : m'.now = m.now + 2 := hr.clock
          have hticks : m.now ≤ m'.now ∧ m'.now ≤ m.now + 2 := by omega
          refine ⟨hr.table, hticks, hr.perm, hr.outcome hlater hnull, fun hsettled hreset _ => ?_⟩
          have hquiet := hsettled m.calls (m.tbl.ld.afterFind W m.now key add) key
          rw [Ld.reset_afterFind, hreset, hstale] at hquiet
          cases hquiet
      | false =>
        rw [if_neg Bool.false_ne_true]
        refine ⟨hlater, hsame, .refl _, Or.inr ⟨?_, ?_⟩, fun _ _ _ => by simp⟩
        · exact h.absent_of_search hW htracked hkey add hs hb hlive (.inr hstale)
        · intro b' hb'
          cases hb'
          refine ⟨k, hb, hlive, hpath, ?_⟩
          rintro rfl hw
          exact Ld.mem_afterFind hw

/-! ### The operations -/

def stored (W : World α) (m : Machine α) (key : α) : Option α := Assoc.get W.cmp (entries W m) key

theorem stored_perm (hW : W.Lawful) {m' : Machine α} (h : TableOk W e m)
    (hperm : (entries W m).Perm (entries W m')) (key : α) : stored W m key = stored W m' key :=
  Assoc.get_perm hW.comparison (ArraysOk.distinct h) hperm

theorem stored_of_absent (h : TableOk W e m) (habsent : Absent W m.tbl.keys.bucket key) :
    stored W m key = none :=
  Assoc.get_eq_none ((absent_iff (ArraysOk.slots_eq h)).mp habsent)

theorem stored_of_slot (hW : W.Lawful) (h : TableOk W e m) {b : Nat} {k v : α}
    (hk : m.tbl.keys.bucket[b]? = some k) (hv : m.tbl.values.bucket[b]? = some v)
    (hlive : W.live k = true) (hcmp : W.cmp k key = true) : stored W m key = some v :=
  Assoc.get_of_mem (p := (k, v)) hW.comparison (ArraysOk.distinct h)
    (mem_entriesOf.mpr ⟨hlive, b, hk, hv⟩) hcmp

theorem live_test (W : World α) (k : α) :
    (decide (k ≠ W.unused) && decide (k ≠ W.deleted)) = W.live k := rfl

section
variable (hW : W.Lawful) (htracked : W.Tracked) (h : TableOk W e m) (hkey : W.IsKey key)
include hW htracked h hkey

theorem tableRef_meets : Meets (tableRef W m key) (FindStop W m) fun (v, m') =>
    TableOk W e m' ∧ (m.now ≤ m'.now ∧ m'.now ≤ m.now + 2) ∧ (entries W m').Perm (entries W m) ∧
      v = (stored W m key).getD W.null := by
  refine (tableFind_meets hW htracked h hkey false).bind ?_
  rintro ⟨found, m'⟩ hfind
  have hsame : stored W m key = stored W m' key := stored_perm hW h hfind.perm.symm key
  rcases hfind.outcome with ⟨b, k, rfl, hb, hcmp⟩ | ⟨habsent, hfree⟩
  · have hlive := hkey.live_of_cmp hW hcmp
    obtain ⟨v, hv⟩ := ArraysOk.value_at hfind.table hb
    simp only [bind, Except.bind, read_eq hb, live_test, hlive, if_true, read_eq hv]
    refine ⟨hfind.table, hfind.clock, hfind.perm, ?_⟩
    rw [hsame, stored_of_slot hW hfind.table hb hv hlive hcmp, Option.getD_some]
  · have hnone : stored W m key = none := by rw [hsame, stored_of_absent hfind.table habsent]
    cases found with
    | none => exact ⟨hfind.table, hfind.clock, hfind.perm, by rw [hnone, Option.getD_none]⟩
    | some b =>
      obtain ⟨k, hb, hdead, -⟩ := hfree b rfl
      simp only [bind, Except.bind, read_eq hb, live_test, hdead]
      exact ⟨hfind.table, hfind.clock, hfind.perm, by rw [hnone, Option.getD_none]⟩

omit htracked in
theorem storeAt_meets (value : α) {b : Nat} {m' : Machine α} (hfind : FindPost W e key true m (some b) m') :
    Meets (storeAt W m' b key value) (fun _ => False) fun m'' =>
      TableOk W e m'' ∧ m''.now = m'.now ∧
        Assoc.Writes W.cmp (entries W m) key (some value) (entries W m'') := by
  have hd := ArraysOk.distinct h
  rcases hfind.outcome with ⟨b', k, hsome, hb, hcmp⟩ | ⟨habsent, hfree⟩
  · cases hsome
    have hlive := hkey.live_of_cmp hW hcmp
    have hne := live_iff.mp hlive
    obtain ⟨hok, old, hbefore, hafter⟩ :=
      ArraysOk.replaceValue hfind.table value hb hlive
    simp only [storeAt, bind, Except.bind, read_eq hb, if_neg hne.1, if_neg hne.2, pure, Except.pure,
      meets_ok]
    refine ⟨hok, trivial, ?_⟩
    exact (Assoc.writes_replace hW.comparison (hW.comparison.symm _ _ hcmp)).perm hW.comparison hd
      hok.distinct (hfind.perm.symm.trans hbefore) hafter
  · obtain ⟨k, hb, hdead, hpath, hadded⟩ := hfree b rfl
    have hwrites : Assoc.Writes W.cmp (entries W m') key (some value)
        ((key, value) :: entries W m') :=
      Assoc.writes_cons hW.comparison (hW.comparison.refl key)
    by_cases hun : k = W.unused
    · subst hun
      obtain ⟨hok, hafter⟩ := ArraysOk.fillUnused hfind.table hW value hkey habsent hb hpath
        (hadded rfl)
      simp only [storeAt, bind, Except.bind, read_eq hb, if_true, pure, Except.pure, meets_ok]
      exact ⟨hok, trivial, hwrites.perm hW.comparison hd hok.distinct hfind.perm.symm hafter⟩
    · have hdel : k = W.deleted := (live_false_iff.mp hdead).resolve_left hun
      subst hdel
      obtain ⟨hok, hafter⟩ := ArraysOk.fillDeleted hfind.table hW value hkey habsent hb hpath
        (hadded rfl)
      have hpos : m'.tbl.keys.deleted > tagCount 0 := by
        have hpos := deletedCount_pos hb
        have hle := deletedCount_le (W := W) m'.tbl.keys.bucket
        have hpow := ArraysOk.pow_lt hfind.table
        rw [hfind.table.slots.length] at hle
        rw [hfind.table.deleted, tagCount_of_lt (by omega), tagCount_of_lt (by omega)]
        omega
      simp only [storeAt, bind, Except.bind, read_eq hb, if_neg hun, if_true, aver, Buckets.write,
        hpos, decide_true, pure, Except.pure, meets_ok]
      exact ⟨hok, trivial, hwrites.perm hW.comparison hd hok.distinct hfind.perm.symm hafter⟩

theorem tableTrySet_meets (value : α) : Meets (tableTrySet W m key value) (FindStop W m) fun (res, m') =>
    TableOk W e m' ∧ (m.now ≤ m'.now ∧ m'.now ≤ m.now + 2) ∧
    (res = true → Assoc.Writes W.cmp (entries W m) key (some value) (entries W m')) ∧
    (res = false → (entries W m').Perm (entries W m)) ∧
    (W.Settled → m.tbl.ld.reset = m.now → (entries W m).length < 2 ^ e → res = true) := by
  refine (tableFind_meets hW htracked h hkey true).bind ?_
  rintro ⟨found, m'⟩ hfind
  cases found with
  | none =>
    refine ⟨hfind.table, hfind.clock, fun hres => absurd hres (by decide), fun _ => hfind.perm,
      fun hs hr hroom => ?_⟩
    exact absurd rfl (hfind.settled hs hr hroom)
  | some b =>
    refine ((storeAt_meets hW h hkey value hfind).mono
      (fun _ => False.elim) fun _ h => h).bind ?_
    rintro m'' ⟨hok, hnow, hwrites⟩
    exact ⟨hok, hnow ▸ hfind.clock, fun _ => hwrites, fun hres => absurd hres (by decide), fun _ _ _ => rfl⟩

theorem tableDelete_meets : Meets (tableDelete W m key) (FindStop W m) fun m' =>
    TableOk W e m' ∧ Assoc.Writes W.cmp (entries W m) key none (entries W m') := by
  refine (tableFind_meets hW htracked h hkey false).bind ?_
  rintro ⟨found, m'⟩ hfind
  have hd := ArraysOk.distinct h
  rcases hfind.outcome with ⟨b, k, rfl, hb, hcmp⟩ | ⟨habsent, hfree⟩
  · have hlive := hkey.live_of_cmp hW hcmp
    obtain ⟨hok, old, hbefore⟩ := ArraysOk.entomb (x := W.null) hfind.table hW hb hlive
    simp only [bind, Except.bind, read_eq hb, live_test, hlive, if_true, pure, Except.pure, meets_ok]
    refine ⟨hok, ?_⟩
    have hperm := hfind.perm.symm.trans hbefore
    exact (Assoc.writes_tail hW.comparison (hW.comparison.symm _ _ hcmp)
      (hd.perm hW.comparison hperm)).perm hW.comparison hd hok.distinct hperm (.refl _)
  · have hwrites : Assoc.Writes W.cmp (entries W m) key none (entries W m') :=
      (Assoc.writes_none hW.comparison ((absent_iff (ArraysOk.slots_eq hfind.table)).mp habsent)).perm
        hW.comparison hd (ArraysOk.distinct hfind.table) hfind.perm.symm (.refl _)
    cases found with
    | none => exact ⟨hfind.table, hwrites⟩
    | some b =>
      obtain ⟨k, hb, hdead, -⟩ := hfree b rfl
      simp only [bind, Except.bind, read_eq hb, live_test, hdead]
      exact ⟨hfind.table, hwrites⟩

end

/-- How `table_set` can stop: a memory error, in a lookup or for the doubled arrays, or, when the MPS
reports staleness that nothing explains, the `AVER` on the retry. -/
def SetStop (W : World α) (m : Machine α) (s : Stop) : Prop :=
  FindStop W m s ∨ MemoryStop W m.now (m.now + 6) (untagCount m.tbl.keys.length * 2) s ∨
    (s = .aver ∧ ¬ W.Settled)

omit [DecidableEq α] in
/-- A lookup that stops while `table_set` runs stops it for want of memory. -/
theorem FindStop.later {m' : Machine α} {s : Stop} (hs : FindStop W m' s) (hlow : m.now ≤ m'.now)
    (hhigh : m'.now ≤ m.now + 4)
    (hlength : untagCount m'.tbl.keys.length = untagCount m.tbl.keys.length * 2) : SetStop W m s := by
  obtain ⟨hs, hrefuses⟩ := hs
  rw [hlength] at hrefuses
  exact Or.inr (Or.inl (Or.inl ⟨hs, hrefuses.mono hlow (by omega)⟩))

theorem tableSet_meets (hW : W.Lawful) (htracked : W.Tracked) (h : TableOk W e m)
    (hkey : W.IsKey key) (value : α) : Meets (tableSet W m key value) (SetStop W m) fun m' =>
      (TableOk W e m' ∨ TableOk W (e + 1) m') ∧
      Assoc.Writes W.cmp (entries W m) key (some value) (entries W m') := by
  have hfirst : Meets (if tableFull m.tbl then pure (false, m) else tableTrySet W m key value)
      (SetStop W m) fun (res, m') => TableOk W e m' ∧ (m.now ≤ m'.now ∧ m'.now ≤ m.now + 2) ∧
        (res = true → Assoc.Writes W.cmp (entries W m) key (some value) (entries W m')) ∧
        (res = false → (entries W m').Perm (entries W m)) := by
    cases tableFull m.tbl with
    | true => exact ⟨h, ⟨le_rfl, Nat.le_add_right _ _⟩, fun hres => absurd hres (by decide), fun _ => .refl _⟩
    | false =>
      rw [if_neg Bool.false_ne_true]
      exact (tableTrySet_meets hW htracked h hkey value).mono (fun _ => Or.inl)
        fun _ hpost => ⟨hpost.1, hpost.2.1, hpost.2.2.1, hpost.2.2.2.1⟩
  refine hfirst.bind ?_
  rintro ⟨res, m'⟩ ⟨hok, ⟨hlow, hhigh⟩, hdone, hsame⟩
  cases res with
  | true => exact ⟨Or.inl hok, hdone rfl⟩
  | false =>
    have hroom := length_entries_lt_double hok
    dsimp only
    rw [if_neg Bool.false_ne_true, hok.double_eq]
    have hdouble : 2 ^ (e + 1) = untagCount m.tbl.keys.length * 2 := by rw [h.length_eq, pow_succ]
    refine ((tableRehash_meets hW hok hroom.le W.null).mono
      (fun s hs => Or.inr (Or.inl (hdouble ▸ hs.mono hlow (by omega)))) fun _ h => h).bind ?_
    rintro ⟨found, m''⟩ hr
    have hclock : m''.now = m'.now + 2 := hr.clock
    have hretry := tableTrySet_meets hW htracked hr.table hkey value
    refine (hretry.mono (fun s hs => hs.later (by omega) (by omega) (hr.table.length_eq.trans hdouble))
      fun _ h => h).bind ?_
    rintro ⟨res, m₃⟩ ⟨hok₃, -, hdone₃, -, hsettled⟩
    cases res with
    | true =>
      refine ⟨Or.inr hok₃, ?_⟩
      exact (hdone₃ rfl).perm hW.comparison (ArraysOk.distinct h) (ArraysOk.distinct hok₃)
        ((hr.perm.trans (hsame rfl)).symm) (.refl _)
    | false =>
      refine Or.inr (Or.inr ⟨rfl, fun hs => ?_⟩)
      rw [← hr.perm.length_eq] at hroom
      cases hsettled hs hr.reset hroom

end ManagedObject.Metadata
