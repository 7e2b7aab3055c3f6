import ManagedObject.Lib.Outcome
import ManagedObject.Metadata.Slots

/-!
# The probe loop

The loop of `managed_obj_metadata_buckets_find`, round by round, with the out-parameter that a later round may
overwrite and the slots that are compared. The mask keeps the index on the probe sequence, so the loop is back
at its first slot when every slot was compared and not before. What it leaves in the out-parameter is the
answer of the search along the sequence.
-/

namespace ManagedObject.Metadata

open Format Outcome

/-- How the loop is left: by the `return` inside it, or because `i` is `h` again. -/
inductive Exit
  | found
  | around
  deriving DecidableEq, Repr

/-- The variables of the loop, what `*b` holds, and the slots that were compared, in order. -/
structure Probing where
  i : Nat
  result : Bool
  b : Nat
  visits : List Nat
  deriving DecidableEq, Repr

/-- What the caller learns: the slot in `*b`, if the answer is 1. -/
def Probing.reported (st : Probing) : Option Nat := if st.result then some st.b else none

variable {α : Type} [DecidableEq α]

/-- The body of the loop and the test below it. After the `return` inside, `result` is what it returned. -/
def probeRound (W : World α) (buckets : Buckets α) (key : α) (l probe h : Nat) (st : Probing) :
    Except Stop (Option Exit × Probing) := do
  let k ← buckets.read st.i
  let st := { st with visits := st.visits ++ [st.i] }
  if k = W.unused || W.cmp k key then return (some .found, { st with b := st.i, result := true })
  let st := if !st.result && k = W.deleted then { st with b := st.i, result := true } else st
  let st := { st with i := wrap (st.i + probe) &&& l }
  return (if st.i = h then some .around else none, st)

def probeRounds (W : World α) (buckets : Buckets α) (key : α) (l probe h : Nat) :
    Nat → Probing → Except Stop (Exit × Probing)
  | 0, _ => .error .diverges
  | fuel + 1, st => do
    let (exit, st) ← probeRound W buckets key l probe h st
    match exit with
    | some exit => return (exit, st)
    | none => probeRounds W buckets key l probe h fuel st

/-- `managed_obj_metadata_buckets_find`, with the value that `*b` has at the call. -/
def bucketsProbing (W : World α) (now : Nat) (buckets : Buckets α) (key : α) (b : Nat) :
    Except Stop (Exit × Probing) :=
  let l := wrap (untagCount buckets.length + (2 ^ 64 - 1))
  let hash := (W.hash now key).toNat
  let probe := (hash >>> 8) ||| 1
  let h := hash &&& l
  probeRounds W buckets key l probe h (untagCount buckets.length) ⟨h, false, b, []⟩

variable {W : World α} {buckets : Buckets α} {ks : List α} {key k : α} {ld : Ld α} {hash : BitVec 64}
  {st : Probing} {e home step j now l probe h fuel b : Nat}

/-! ### One round -/

theorem probeRound_found (hread : buckets.read st.i = .ok k) (hstop : k = W.unused ∨ W.cmp k key = true) :
    probeRound W buckets key l probe h st =
      .ok (some .found, ⟨st.i, true, st.i, st.visits ++ [st.i]⟩) := by
  rw [probeRound, hread, ok_bind, if_pos (by simpa using hstop)]
  rfl

theorem probeRound_next (hread : buckets.read st.i = .ok k) (hfree : k ≠ W.unused)
    (hmiss : W.cmp k key = false) :
    probeRound W buckets key l probe h st =
      .ok (if wrap (st.i + probe) &&& l = h then some .around else none,
        ⟨wrap (st.i + probe) &&& l, st.result || k = W.deleted,
          if !st.result && k = W.deleted then st.i else st.b, st.visits ++ [st.i]⟩) := by
  rw [probeRound, hread, ok_bind, if_neg (by simp [hfree, hmiss])]
  cases hresult : st.result with
  | true => simp [pure, Except.pure]
  | false => by_cases hdeleted : k = W.deleted <;> simp [hdeleted, pure, Except.pure]

/-- With the record of its rounds left out, the loop is that of `bucketsFind`. -/
theorem probeRounds_reported (fuel : Nat) (st : Probing) :
    (probeRounds W buckets key l probe h fuel st).map (fun r => r.2.reported) =
      probeLoop W buckets key l probe h fuel st.i st.reported := by
  induction fuel generalizing st with
  | zero => rfl
  | succ fuel ih =>
    rw [probeRounds, probeLoop]
    cases hread : buckets.read st.i with
    | error stop =>
      rw [probeRound, hread]
      rfl
    | ok k =>
      by_cases hstop : k = W.unused ∨ W.cmp k key = true
      · rw [probeRound_found hread hstop, ok_bind, ok_bind, if_pos (by simpa using hstop)]
        rfl
      · have hfree : k ≠ W.unused := fun hk => hstop (.inl hk)
        have hmiss : W.cmp k key = false := by simpa using fun hk => hstop (.inr hk)
        have hgo : ¬ (k = W.unused || W.cmp k key) = true := by simp [hfree, hmiss]
        have hreported : (if st.reported.isNone && k = W.deleted then some st.i else st.reported) =
            Probing.reported ⟨wrap (st.i + probe) &&& l, st.result || k = W.deleted,
              if !st.result && k = W.deleted then st.i else st.b, st.visits ++ [st.i]⟩ := by
          cases hresult : st.result <;> by_cases hdeleted : k = W.deleted <;>
            simp [Probing.reported, hresult, hdeleted]
        have hround : probeRound W buckets key l probe h st = _ := probeRound_next hread hfree hmiss
        by_cases hback : wrap (st.i + probe) &&& l = h
        · rw [if_pos hback] at hround
          rw [hround, ok_bind, ok_bind, if_neg hgo, hreported, if_pos hback]
          rfl
        · rw [if_neg hback] at hround
          rw [hround, ok_bind, ok_bind, if_neg hgo, hreported, if_neg hback]
          exact ih _

/-! ### The whole loop -/

/-- The loop before a round: no slot has ended it so far, and `*b` holds the first tombstone. -/
structure Walked (W : World α) (ks : List α) (key : α) (e home step b j : Nat) (st : Probing) : Prop where
  i : st.i = Probe.slot e home step j
  visits : st.visits = (Probe.sequence e home step).take j
  quiet : ∀ i ∈ st.visits, freeAt W ks i = false ∧ hitAt W ks key i = false
  reported : st.reported = st.visits.find? (tombAt W ks)
  untouched : st.result = false → st.b = b

/-- The loop after the `return` inside it. -/
structure Halted (W : World α) (ks : List α) (key : α) (e home step : Nat) (st : Probing) : Prop where
  result : st.result = true
  split : ∃ before after, Probe.sequence e home step = before ++ st.b :: after ∧
    st.visits = before ++ [st.b] ∧ ∀ i ∈ before, freeAt W ks i = false ∧ hitAt W ks key i = false
  ends : freeAt W ks st.b = true ∨ hitAt W ks key st.b = true

def Round (W : World α) (ks : List α) (key : α) (e home step b j : Nat) : Option Exit × Probing → Prop
  | (some .found, st) => Halted W ks key e home step st
  | (some .around, st) => j + 1 = 2 ^ e ∧ Walked W ks key e home step b (j + 1) st
  | (none, st) => j + 1 < 2 ^ e ∧ Walked W ks key e home step b (j + 1) st

def Left (W : World α) (ks : List α) (key : α) (e home step b : Nat) : Exit × Probing → Prop
  | (.found, st) => Halted W ks key e home step st
  | (.around, st) => Walked W ks key e home step b (2 ^ e) st

/-- The mask of the loop takes the next slot of the sequence; the sum may wrap, because the number
of slots divides `2 ^ 64`. -/
theorem wrap_and_mask (he : e ≤ 64) (x : Nat) : wrap x &&& (2 ^ e - 1) = x % 2 ^ e := by
  rw [Nat.and_two_pow_sub_one_eq_mod, wrap, Nat.mod_mod_of_dvd _ (Nat.pow_dvd_pow 2 he)]

omit [DecidableEq α] in
theorem read_slot (hslots : buckets.bucket.length = 2 ^ e) {i : Nat} (hi : i < 2 ^ e) :
    ∃ k, buckets.bucket[i]? = some k ∧ buckets.read i = .ok k := by
  obtain ⟨k, hk⟩ := exists_slot hslots hi
  exact ⟨k, hk, by rw [Buckets.read, hk]⟩

theorem Walked.round (h : Walked W buckets.bucket key e home step b j st) (he : e ≤ 64)
    (hslots : buckets.bucket.length = 2 ^ e) (hstep : step % 2 = 1) (hhome : home < 2 ^ e) (hj : j < 2 ^ e) :
    Meets (probeRound W buckets key (2 ^ e - 1) step home st) (fun _ => False)
      (Round W buckets.bucket key e home step b j) := by
  obtain ⟨k, hk, hread⟩ := read_slot hslots (Probe.slot_lt j : Probe.slot e home step j < 2 ^ e)
  rw [← h.i] at hk hread
  have hvisits : (Probe.sequence e home step).take (j + 1) = st.visits ++ [st.i] := by
    rw [Probe.take_sequence_succ hj, h.visits, h.i]
  by_cases hstop : k = W.unused ∨ W.cmp k key = true
  · rw [probeRound_found hread hstop]
    have hsplit := (List.take_append_drop (j + 1) (Probe.sequence e home step)).symm
    rw [hvisits, List.append_assoc] at hsplit
    refine ⟨rfl, ⟨st.visits, _, hsplit, rfl, h.quiet⟩, ?_⟩
    rw [freeAt_iff, hitAt_iff]
    exact hstop.imp (fun hfree => by rw [hk, hfree]) fun hhit => ⟨k, hk, hhit⟩
  · have hfree : k ≠ W.unused := fun hk => hstop (.inl hk)
    have hmiss : W.cmp k key = false := by simpa using fun hk => hstop (.inr hk)
    have hnext : wrap (st.i + step) &&& (2 ^ e - 1) = Probe.slot e home step (j + 1) := by
      rw [wrap_and_mask he, Probe.slot_succ, h.i]
    have hback := Probe.slot_eq_home_iff hstep hhome (Nat.succ_pos j) hj
    rw [probeRound_next hread hfree hmiss, hnext]
    have hwalked : Walked W buckets.bucket key e home step b (j + 1) ⟨Probe.slot e home step (j + 1),
        st.result || k = W.deleted, if !st.result && k = W.deleted then st.i else st.b,
        st.visits ++ [st.i]⟩ := by
      refine ⟨rfl, hvisits.symm, ?_, ?_, ?_⟩
      · intro i hi
        rcases List.mem_append.mp hi with hi | hi
        · exact h.quiet i hi
        · rw [List.mem_singleton.mp hi]
          simp [freeAt, hitAt, hk, hfree, hmiss]
      · have hold := h.reported
        rw [List.find?_append, ← hold]
        have htomb : tombAt W buckets.bucket st.i = decide (k = W.deleted) := by simp [tombAt, hk]
        cases hresult : st.result with
        | true => simp [Probing.reported, hresult]
        | false => by_cases hdeleted : k = W.deleted <;> simp [Probing.reported, hresult, htomb, hdeleted]
      · intro hresult
        simp only [Bool.or_eq_false_iff, decide_eq_false_iff_not] at hresult
        simp [hresult.2, h.untouched hresult.1]
    split
    · rename_i hhome'
      exact ⟨hback.mp hhome', hwalked⟩
    · rename_i hhome'
      exact ⟨by have := mt hback.mpr hhome'; omega, hwalked⟩

theorem probeRounds_left (he : e ≤ 64) (hslots : buckets.bucket.length = 2 ^ e) (hstep : step % 2 = 1)
    (hhome : home < 2 ^ e) (h : Walked W buckets.bucket key e home step b j st) (hj : j < 2 ^ e)
    (hfuel : fuel + j = 2 ^ e) :
    Meets (probeRounds W buckets key (2 ^ e - 1) step home fuel st) (fun _ => False)
      (Left W buckets.bucket key e home step b) := by
  induction fuel generalizing j st with
  | zero => omega
  | succ fuel ih =>
    refine (h.round he hslots hstep hhome hj).bind ?_
    intro r hr
    obtain ⟨exit, st'⟩ := r
    cases exit with
    | none => exact ih hr.2 hr.1 (by omega)
    | some exit =>
      cases exit with
      | found => exact hr
      | around =>
        obtain ⟨hend, hwalked⟩ := hr
        rw [hend] at hwalked
        exact hwalked

theorem walked_start (hhome : home < 2 ^ e) :
    Walked W buckets.bucket key e home step b 0 ⟨home, false, b, []⟩ where
  i := (Probe.slot_zero hhome).symm
  visits := rfl
  quiet := fun _ hi => absurd hi List.not_mem_nil
  reported := rfl
  untouched := fun _ => rfl

theorem Walked.all (h : Walked W ks key e home step b (2 ^ e) st) :
    st.visits = Probe.sequence e home step := by
  rw [h.visits, List.take_of_length_le (Nat.le_of_eq Probe.length_sequence)]

/-- What is reported at the end is the answer of the search. -/
theorem Left.reported {r : Exit × Probing} (h : Left W ks key e home step b r) :
    r.2.reported =
      Probe.search (freeAt W ks) (hitAt W ks key) (tombAt W ks) (Probe.sequence e home step) := by
  obtain ⟨exit, st⟩ := r
  cases exit with
  | found =>
    have hhalted : Halted W ks key e home step st := h
    obtain ⟨before, after, hseq, -, hbefore⟩ := hhalted.split
    rw [Probe.search_of_first hseq hbefore hhalted.ends]
    exact if_pos hhalted.result
  | around =>
    have hwalked : Walked W ks key e home step b (2 ^ e) st := h
    rw [Probe.search_of_quiet fun i hi => hwalked.quiet i (hwalked.all ▸ hi), ← hwalked.all]
    exact hwalked.reported

/-- Which slots were compared, and where the loop was left. -/
theorem Left.visits {exit : Exit} (hhome : home < 2 ^ e) (h : Left W ks key e home step b (exit, st)) :
    st.visits <+: Probe.sequence e home step ∧
      (exit = .around → st.visits = Probe.sequence e home step ∧ st.i = home) ∧
      (st.result = false → st.b = b) := by
  cases exit with
  | found =>
    have hhalted : Halted W ks key e home step st := h
    obtain ⟨before, after, hseq, hvisits, -⟩ := hhalted.split
    refine ⟨⟨after, ?_⟩, fun hexit => (by cases hexit), fun hresult => ?_⟩
    · rw [hvisits, List.append_assoc]
      exact hseq.symm
    · rw [hhalted.result] at hresult
      cases hresult
  | around =>
    have hwalked : Walked W ks key e home step b (2 ^ e) st := h
    refine ⟨⟨[], ?_⟩, fun _ => ⟨hwalked.all, ?_⟩, hwalked.untouched⟩
    · rw [List.append_nil]
      exact hwalked.all
    · rw [hwalked.i, Probe.slot_period, Probe.slot_zero hhome]

/-! ### The function -/

omit [DecidableEq α] in
theorem exponent_lt (hword : buckets.length < 2 ^ 64) (hlength : untagCount buckets.length = 2 ^ e) :
    e < 63 := by
  rw [untagCount, Nat.shiftRight_eq_div_pow] at hlength
  apply (Nat.pow_lt_pow_iff_right (Nat.one_lt_two)).mp
  rw [← hlength]
  omega

theorem mask_eq (he : e < 63) : wrap (2 ^ e + (2 ^ 64 - 1)) = 2 ^ e - 1 := by
  have hpow : 2 ^ e < 2 ^ 63 := Nat.pow_lt_pow_right Nat.one_lt_two he
  have hpos := Nat.two_pow_pos e
  rw [wrap]
  omega

theorem bucketsProbing_left (hword : buckets.length < 2 ^ 64) (hlength : untagCount buckets.length = 2 ^ e)
    (hslots : buckets.bucket.length = 2 ^ e) :
    Meets (bucketsProbing W now buckets key b) (fun _ => False)
      (Left W buckets.bucket key e ((W.hash now key).toNat &&& (2 ^ e - 1))
        (((W.hash now key).toNat >>> 8) ||| 1) b) := by
  have he := exponent_lt hword hlength
  dsimp only [bucketsProbing]
  rw [hlength, mask_eq he]
  exact probeRounds_left (by omega) hslots (probes_step_odd _) (home_lt _) (walked_start (home_lt _))
    (Nat.two_pow_pos e) rfl

theorem bucketsFind_eq_probing (b : Nat) (add : Bool) :
    bucketsFind W ld now buckets key add =
      (bucketsProbing W now buckets key b).map fun r => (r.2.reported, ld.afterFind W now key add) := by
  have hloop : ∀ l probe h fuel, probeLoop W buckets key l probe h fuel h none =
      (probeRounds W buckets key l probe h fuel ⟨h, false, b, []⟩).map fun r => r.2.reported :=
    fun _ _ h fuel => (probeRounds_reported fuel ⟨h, false, b, []⟩).symm
  dsimp only [bucketsFind, bucketsProbing]
  rw [hloop]
  cases probeRounds W buckets key _ _ _ _ _ <;> rfl

theorem bucketsFind_search (hword : buckets.length < 2 ^ 64) (hlength : untagCount buckets.length = 2 ^ e)
    (hslots : buckets.bucket.length = 2 ^ e) (add : Bool) :
    bucketsFind W ld now buckets key add =
      .ok (Probe.search (freeAt W buckets.bucket) (hitAt W buckets.bucket key)
        (tombAt W buckets.bucket) (probes e (W.hash now key)), ld.afterFind W now key add) := by
  have hleft : Meets (bucketsProbing W now buckets key 0) _ _ := bucketsProbing_left hword hlength hslots
  rw [bucketsFind_eq_probing 0 add]
  cases hprobing : bucketsProbing W now buckets key 0 with
  | error stop => exact (hleft.of_error hprobing).elim
  | ok r =>
    rw [Except.map, (hleft.of_ok hprobing).reported]
    rfl

/-- `buckets_find` on a whole array is the search along the probe sequence of the key. -/
theorem bucketsFind_eq (he : e ≤ 60) (hlen : buckets.bucket.length = 2 ^ e)
    (htag : buckets.length = tagCount (2 ^ e)) (add : Bool) :
    bucketsFind W ld now buckets key add =
      .ok (Probe.search (freeAt W buckets.bucket) (hitAt W buckets.bucket key)
        (tombAt W buckets.bucket) (probes e (W.hash now key)), ld.afterFind W now key add) := by
  have hpow : 2 ^ e ≤ 2 ^ 60 := Nat.pow_le_pow_right (by decide) he
  refine bucketsFind_search ?_ ?_ hlen add
  · rw [htag]
    exact wrap_lt _
  · rw [htag, untagCount_tagCount (by omega)]

/-! ### What a probing covers -/

/-- What the loop of `managed_obj_metadata_buckets_find` has done when it is left, for a hash value and the value
that `*b` had. -/
structure Probed (W : World α) (ks : List α) (key : α) (e : Nat) (hash : BitVec 64) (b : Nat)
    (r : Exit × Probing) : Prop where
  /-- the slots are compared in the order of the sequence -/
  order : r.2.visits <+: probes e hash
  /-- without a `return` inside it, the loop compares every slot once, and is back at its first one -/
  around : r.1 = .around → r.2.visits.Perm (List.range (2 ^ e)) ∧ r.2.i = hash.toNat &&& (2 ^ e - 1)
  /-- the answer is 0 -/
  zero : r.2.result = false ↔ ∀ k ∈ ks, k ≠ W.unused ∧ k ≠ W.deleted ∧ W.cmp k key = false
  untouched : r.2.result = false → r.2.b = b
  /-- the answer is 1 -/
  one : r.2.result = true →
    (probes e hash).find? (fun i => freeAt W ks i || hitAt W ks key i) = some r.2.b ∨
    (probes e hash).find? (fun i => freeAt W ks i || hitAt W ks key i) = none ∧
      (probes e hash).find? (tombAt W ks) = some r.2.b

theorem Left.probed {r : Exit × Probing} (hslots : ks.length = 2 ^ e)
    (h : Left W ks key e (hash.toNat &&& (2 ^ e - 1)) ((hash.toNat >>> 8) ||| 1) b r) :
    Probed W ks key e hash b r := by
  have hreported := h.reported
  obtain ⟨exit, st⟩ := r
  obtain ⟨horder, haround, huntouched⟩ := h.visits (home_lt hash)
  refine ⟨horder, fun hexit => ?_, ?_, huntouched, fun hresult => ?_⟩
  · obtain ⟨hall, hi⟩ := haround hexit
    refine ⟨?_, hi⟩
    rw [hall]
    exact Probe.perm_sequence (probes_step_odd hash)
  · have hzero : st.result = false ↔ st.reported = none := by
      cases hresult : st.result <;> simp [Probing.reported, hresult]
    rw [hzero, hreported]
    exact search_eq_none_iff hslots hash
  · have hfound : st.reported = some st.b := if_pos hresult
    rw [hreported, Probe.search, Option.or_eq_some_iff] at hfound
    exact hfound

/-- The loop of `managed_obj_metadata_buckets_find` ends, and compares every slot once unless it returns early. -/
theorem probing_covers (hword : buckets.length < 2 ^ 64) (hlength : untagCount buckets.length = 2 ^ e)
    (hslots : buckets.bucket.length = 2 ^ e) (ld : Ld α) (now : Nat) (key : α) (add : Bool) (b : Nat) :
    ∃ r, bucketsProbing W now buckets key b = .ok r ∧
      bucketsFind W ld now buckets key add = .ok (r.2.reported, ld.afterFind W now key add) ∧
      Probed W buckets.bucket key e (W.hash now key) b r := by
  have hleft : Meets (bucketsProbing W now buckets key b) _ _ := bucketsProbing_left hword hlength hslots
  rw [bucketsFind_eq_probing b add]
  cases hprobing : bucketsProbing W now buckets key b with
  | error stop => exact (hleft.of_error hprobing).elim
  | ok r => exact ⟨r, rfl, rfl, (hleft.of_ok hprobing).probed hslots⟩

/-- No slot of the four is unused. The loop goes around, past two tombstones, and reports the one it met first. -/
theorem probing_covers_tombstones : ∃ r,
    bucketsProbing digitWorld 0 ⟨9, 9, 5, [2, 13, 14, 2]⟩ 5 7 = .ok r ∧
    bucketsFind digitWorld ⟨[], 0⟩ 0 ⟨9, 9, 5, [2, 13, 14, 2]⟩ 5 false =
      .ok (r.2.reported, Ld.afterFind digitWorld ⟨[], 0⟩ 0 5 false) ∧
    Probed digitWorld [2, 13, 14, 2] 5 2 (digitWorld.hash 0 5) 7 r :=
  probing_covers (e := 2) (by decide) (by decide) rfl ⟨[], 0⟩ 0 5 false 7

example : bucketsProbing digitWorld 0 ⟨9, 9, 5, [2, 13, 14, 2]⟩ 5 7 =
    .ok (.around, ⟨1, true, 3, [1, 2, 3, 0]⟩) := rfl

end ManagedObject.Metadata
