import ManagedObject.Hashmap.Iteration

/-!
# Loops that remove

A loop over a map may remove the entry that it is at. The entries behind it move up into the gap, so none is
left out. One that had been pushed over the end of the table can move back to a slot that the loop has not come
to, and is visited a second time. What the body does is any function of the visits before.
-/

namespace ManagedObject.Hashmap

open Format Linear Lib Outcome

variable {K D : Type} [DecidableEq K] {f : Functions K} {p q : Process K D} {e e' : Entry K D} {keyDup : Bool}
  {i j n bound : Nat} {s s' : Loop K D} {body : List (Entry K D × Bool) → Entry K D → Bool}
  {round : Loop K D → Except Fault (Option (Loop K D))} {visits : List (Entry K D × Bool)}

/-! ### The loops -/

namespace Loop

/-- One round of `managed_object_hashmap_foreach_safe`, whose body calls `managed_object_hashmap_remove` for the
key it is given, or does nothing. -/
def safeRound (f : Functions K) (body : List (Entry K D × Bool) → Entry K D → Bool) (s : Loop K D) :
    Except Fault (Option (Loop K D)) := do
  match ← s.map.current s.pos with
  | none => return none
  | some e =>
    let (_, map) ← if body s.visits e then s.map.remove f (some e.key) else .ok (none, s.map)
    let key ← map.iterGetKey s.pos
    -- `MANAGED_OBJECT_PRIVATE_HASHMAP_ITER_RESET`, if the key is not that of `temp_ptr` any more
    let pos ← if key = some e.key then map.iterNext s.pos else map.iter s.pos
    return some ⟨map, pos, (e, body s.visits e) :: s.visits⟩

omit [DecidableEq K] in
/-- One round of a loop while `managed_object_hashmap_iter_valid`, whose body calls
`managed_object_hashmap_iter_remove` or `managed_object_hashmap_iter_next`. -/
def removeRound (f : Functions K) (body : List (Entry K D × Bool) → Entry K D → Bool) (s : Loop K D) :
    Except Fault (Option (Loop K D)) := do
  if s.map.iterValid s.pos then
    match ← s.map.current s.pos with
    | none => return none
    | some e =>
      if body s.visits e then
        let (pos, map) ← s.map.iterRemove f s.pos
        return some ⟨map, pos, (e, true) :: s.visits⟩
      else
        let pos ← s.map.iterNext s.pos
        return some ⟨s.map, pos, (e, false) :: s.visits⟩
  else return none

end Loop

structure Rounds (f : Functions K) (body : List (Entry K D × Bool) → Entry K D → Bool)
    (round : Loop K D → Except Fault (Option (Loop K D))) : Prop where
  ends : ∀ s, s.pos = none → round s = .ok none
  keeps : ∀ s i e, Tidy f s.map → s.pos = some i → slot s.map.base.entries i = some e → body s.visits e = false →
    round s = .ok (some ⟨s.map, nextPopulated s.map.base.entries (i + 1), (e, false) :: s.visits⟩)
  removes : ∀ s i e map, Tidy f s.map → s.pos = some i → slot s.map.base.entries i = some e →
    body s.visits e = true → Removed f s.map map i e → s.map.entryRemove f i e.key = .ok map →
    s.map.remove f (some e.key) = .ok (some e.data, map) →
    round s = .ok (some ⟨map, nextPopulated map.base.entries i, (e, true) :: s.visits⟩)

omit [DecidableEq K] in
/-- No other entry has the key of the one that is removed. -/
theorem Removed.key_ne (hf : f.Lawful) (h : Tidy f p) (hremoved : Removed f p q i e)
    (he' : slot q.base.entries j = some e') : e'.key ≠ e.key := by
  have hfree : (e :: populated q.base.entries).Pairwise fun e e' => f.compare e'.key e.key = false :=
    hremoved.perm.symm.pairwise h.mergeFree fun {e e'} hmiss => by rwa [hf.comparison.comm]
  intro heq
  have hmiss := (List.pairwise_cons.mp hfree).1 e' (mem_populated.mpr ⟨j, he'⟩)
  rw [heq, hf.comparison.refl] at hmiss
  cases hmiss

omit [DecidableEq K] in
theorem Removed.length (h : Removed f p q i e) : q.base.entries.length = p.base.entries.length :=
  length_removeLoop h.loop

omit [DecidableEq K] in
theorem iterGetKey_eq (hi : i < p.base.entries.length) :
    p.iterGetKey (some i) = .ok ((slot p.base.entries i).map Entry.key) := by
  rw [Process.iterGetKey, getElem?_eq_slot hi]

theorem rounds_safe (hf : f.Lawful) : Rounds f body (Loop.safeRound f body) where
  ends s hpos := by
    unfold Loop.safeRound
    simp only [hpos, current_none, ok_bind]
    rfl
  keeps s i e h hpos he hbody := by
    unfold Loop.safeRound
    simp only [hpos, current_of_slot he, ok_bind, hbody, Bool.false_eq_true, if_false,
      iterGetKey_eq (lt_of_slot he), he, Option.map_some, if_true]
    rw [Process.iterNext, h.getPopulated]
    rfl
  removes s i e map h hpos he hbody hremoved _ hcall := by
    have hkey : (slot map.base.entries i).map Entry.key ≠ some e.key := by
      cases hslot : slot map.base.entries i with
      | none => exact fun heq => by cases heq
      | some e' => exact fun heq => hremoved.key_ne hf h hslot (Option.some.inj heq)
    have hi : i < map.base.entries.length := by
      rw [hremoved.length]
      exact lt_of_slot he
    unfold Loop.safeRound
    simp only [hpos, current_of_slot he, ok_bind, hbody, if_true, hcall, iterGetKey_eq hi, if_neg hkey]
    rw [Process.iter, Option.getD_some, hremoved.tidy.getPopulated]
    rfl

omit [DecidableEq K] in
theorem Tidy.iterValid (h : Tidy f p) (he : slot p.base.entries i = some e) : p.iterValid (some i) = true := by
  obtain ⟨t, -, -, hlength⟩ := h.ok.of_slot (lt_of_slot he)
  have hentry : p.base.entries[i]?.join = some e := he
  show ((p.base.entries[i]?.join).isSome && decide (i < p.base.tableSize)) = true
  rw [hentry, ← hlength, decide_eq_true (lt_of_slot he)]
  rfl

omit [DecidableEq K] in
theorem rounds_remove : Rounds f body (Loop.removeRound f body) where
  ends s hpos := by
    unfold Loop.removeRound
    rw [hpos]
    rfl
  keeps s i e h hpos he hbody := by
    unfold Loop.removeRound
    simp only [hpos, h.iterValid he, if_true, current_of_slot he, ok_bind, hbody, Bool.false_eq_true, if_false]
    rw [Process.iterNext, h.getPopulated]
    rfl
  removes s i e map h hpos he hbody hremoved hremove _ := by
    unfold Loop.removeRound Process.iterRemove
    simp only [hpos, h.iterValid he, if_true, current_of_slot he, ok_bind, hbody, slot_eq_some.mp he, hremove,
      hremoved.tidy.getPopulated]
    rfl

/-! ### What has been visited -/

/-- How often the loop was at the entry with the key. -/
def visited (visits : List (Entry K D × Bool)) (e : Entry K D) : Nat := visits.countP fun v => v.1.key = e.key

/-- The entries that the body has removed, the last one first. -/
def removedOf (visits : List (Entry K D × Bool)) : List (Entry K D) := (visits.filter Prod.snd).map Prod.fst

/-- At each visit the body has done what it does after the visits before. -/
def Decided (body : List (Entry K D × Bool) → Entry K D → Bool) : List (Entry K D × Bool) → Prop
  | [] => True
  | (e, removed) :: past => removed = body past e ∧ Decided body past

/-- The calls of `managed_object_hashmap_remove` with their answers. -/
def removeCalls (visits : List (Entry K D × Bool)) : List (Call K D × Answer D) :=
  (removedOf visits).map fun e => (.op (.remove (some e.key)), .data (some e.data))

/-- The slot of an entry is before its home: it was pushed over the end of the table. -/
def Wrapped (f : Functions K) (p : Process K D) (i : Nat) (e : Entry K D) : Prop := i < home f p.base.tableSize e

omit [DecidableEq K] in
instance : Decidable (Wrapped f p i e) := inferInstanceAs (Decidable (_ < _))

omit [DecidableEq K] in
theorem wrapped_congr (h : q.base.tableSize = p.base.tableSize) : Wrapped f q i e ↔ Wrapped f p i e := by
  unfold Wrapped
  rw [h]

/-- The invariant of the loops: an entry was visited once if it is at a slot that the loop has passed, and once
more if it has moved back over the end of the table. -/
structure Passing (f : Functions K) (keyDup : Bool) (body : List (Entry K D × Bool) → Entry K D → Bool)
    (p : Process K D) (bound : Nat) (s : Loop K D) : Prop where
  serving : Serving f keyDup s.map
  functions : s.map.base.functions = true
  tableSize : s.map.base.tableSize = p.base.tableSize
  pos : s.pos = nextPopulated s.map.base.entries bound
  perm : (removedOf s.visits ++ populated s.map.base.entries).Perm (populated p.base.entries)
  left : ∀ j e, slot s.map.base.entries j = some e → ∃ i, slot p.base.entries i = some e ∧
    (Wrapped f s.map j e → Wrapped f p i e) ∧
    visited s.visits e = (if j < bound then 1 else 0) + if Wrapped f p i e ∧ ¬ Wrapped f s.map j e then 1 else 0
  removed : ∀ e ∈ removedOf s.visits, ∃ i, slot p.base.entries i = some e ∧ 1 ≤ visited s.visits e ∧
    visited s.visits e ≤ if Wrapped f p i e then 2 else 1
  known : ∀ v ∈ s.visits, v.1 ∈ populated p.base.entries
  decided : Decided body s.visits
  keyFree : s.map.base.keyFree = p.base.keyFree
  freed : s.map.freedKeys =
    if p.base.keyFree then (removedOf s.visits).map Entry.key ++ p.freedKeys else p.freedKeys
  calls : Run (fun _ => CallStep f) p (removeCalls s.visits) s.map

theorem visited_cons (v : Entry K D × Bool) (e : Entry K D) :
    visited (v :: visits) e = visited visits e + if v.1.key = e.key then 1 else 0 := by
  rw [visited, visited, List.countP_cons]
  simp

omit [DecidableEq K] in
theorem Tidy.keys_nodup (hf : f.Lawful) (h : Tidy f p) : ((populated p.base.entries).map Entry.key).Nodup := by
  rw [List.Nodup, List.pairwise_map]
  refine h.mergeFree.imp fun {e e'} hmiss heq => ?_
  rw [heq, hf.comparison.refl] at hmiss
  cases hmiss

omit [DecidableEq K] in
/-- Entries of a table with the same key are in the same slot. -/
theorem Tidy.eq_of_key (hf : f.Lawful) (h : Tidy f p) (hi : slot p.base.entries i = some e)
    (hj : slot p.base.entries j = some e') (hkey : e.key = e'.key) : i = j :=
  h.mergeFree.eq_of_match hf hi hj (by rw [hkey]; exact hf.comparison.refl _)

omit [DecidableEq K] in
/-- A removed entry has the key of none that is left. -/
theorem Passing.key_ne (hf : f.Lawful) (h : Tidy f p)
    (hperm : (removedOf visits ++ populated q.base.entries).Perm (populated p.base.entries))
    (he : e ∈ removedOf visits) (he' : slot q.base.entries j = some e') : e.key ≠ e'.key := by
  have hnodup := (hperm.map Entry.key).nodup_iff.mpr (h.keys_nodup hf)
  rw [List.map_append, List.nodup_append] at hnodup
  exact hnodup.2.2 e.key (List.mem_map_of_mem he) e'.key (List.mem_map_of_mem (mem_populated.mpr ⟨j, he'⟩))

/-! ### Rounds -/

omit [DecidableEq K] in
theorem nextPopulated_self {entries : List (Option (Entry K D))} (he : slot entries i = some e) :
    nextPopulated entries i = some i := by
  cases hnext : nextPopulated entries i with
  | none =>
    rw [nextPopulated_eq_none hnext (Nat.le_refl i)] at he
    cases he
  | some j =>
    obtain ⟨hle, hbefore, -⟩ := nextPopulated_eq_some hnext
    by_cases hij : i = j
    · rw [hij]
    · rw [hbefore i (Nat.le_refl i) (by omega)] at he
      cases he

/-- The loop is at an entry: it has passed the slots before. -/
theorem Passing.at (h : Passing f keyDup body p bound s) (hpos : s.pos = some i) :
    Passing f keyDup body p i s ∧ ∃ e, slot s.map.base.entries i = some e := by
  have hnext := h.pos
  rw [hpos] at hnext
  obtain ⟨hle, hbefore, e, he, -⟩ := nextPopulated_eq_some hnext.symm
  refine ⟨{ h with pos := by rw [hpos, nextPopulated_self he], left := fun j e' hj => ?_ }, e, he⟩
  obtain ⟨i₀, hi₀, hwrapped, hcount⟩ := h.left j e' hj
  refine ⟨i₀, hi₀, hwrapped, ?_⟩
  have hsame : j < bound ↔ j < i := by
    constructor
    · omega
    · intro hji
      by_contra hbound
      rw [hbefore j (by omega) hji] at hj
      cases hj
  rw [hcount, if_congr hsame rfl rfl]

theorem Passing.keep (hf : f.Lawful) (hp : Tidy f p) (h : Passing f keyDup body p i s)
    (he : slot s.map.base.entries i = some e) (hbody : body s.visits e = false) :
    Passing f keyDup body p (i + 1)
      ⟨s.map, nextPopulated s.map.base.entries (i + 1), (e, false) :: s.visits⟩ := by
  have hremoved : removedOf ((e, false) :: s.visits) = removedOf s.visits := by
    rw [removedOf, List.filter_cons_of_neg (by simp)]
    rfl
  refine {
    serving := h.serving
    functions := h.functions
    tableSize := h.tableSize
    pos := rfl
    perm := by rw [hremoved]; exact h.perm
    left := fun j e' hj => ?_
    removed := fun e' he' => ?_
    known := fun v hv => ?_
    decided := ⟨hbody.symm, h.decided⟩
    keyFree := h.keyFree
    freed := by rw [hremoved]; exact h.freed
    calls := by rw [removeCalls, hremoved]; exact h.calls }
  · obtain ⟨i₀, hi₀, hwrapped, hcount⟩ := h.left j e' hj
    refine ⟨i₀, hi₀, hwrapped, ?_⟩
    rw [visited_cons, hcount]
    by_cases hji : j = i
    · subst hji
      rw [he] at hj
      cases hj
      dsimp only
      simp only [Nat.lt_irrefl, Nat.lt_succ_self, if_true, if_false]
      omega
    · have hkey : e.key ≠ e'.key := fun hkey => hji (h.serving.tidy.eq_of_key hf he hj hkey).symm
      have hsame : j < i ↔ j < i + 1 := by omega
      rw [if_neg hkey, if_congr hsame rfl rfl]
      rfl
  · rw [hremoved] at he'
    obtain ⟨i₀, hi₀, hcount⟩ := h.removed e' he'
    have hkey : e.key ≠ e'.key := fun hkey => Passing.key_ne hf hp h.perm he' he hkey.symm
    rw [visited_cons, if_neg hkey]
    exact ⟨i₀, hi₀, hcount⟩
  · rcases List.mem_cons.mp hv with rfl | hv
    · exact h.perm.mem_iff.mp (List.mem_append_right _ (mem_populated.mpr ⟨i, he⟩))
    · exact h.known v hv

omit [DecidableEq K] in
/-- Where the entries come from that are left after a removal. -/
theorem Removed.source (h : Tidy f p) (he : slot p.base.entries i = some e) (hremoved : Removed f p q i e)
    (he' : slot q.base.entries j = some e') :
    ∃ k, slot p.base.entries k = some e' ∧ k ≠ i ∧
      (k = j ∨ Moved (home f p.base.tableSize) i k j e') := by
  obtain ⟨t, -, hsize, hlength⟩ := h.ok.of_slot (lt_of_slot he)
  have hi := lt_of_slot he
  have hpos : 0 < p.base.size := by
    rw [h.size]
    exact List.length_pos_of_mem (mem_populated.mpr ⟨i, he⟩)
  obtain ⟨hle, hmax⟩ := h.ok.size_le h.size
  have hwrap : wrap (p.base.size + (2 ^ 64 - 1)) = p.base.size - 1 := by
    rw [wrap]
    omega
  have hloop := hremoved.loop
  rw [hwrap] at hloop
  rw [← hlength] at hloop hsize hle
  rw [probeNext_eq hsize hi, removeLoop_eq hsize (Nat.mod_lt _ hsize.pos) hi] at hloop
  rw [← Except.ok.inj hloop] at he'
  obtain ⟨k, hk, hne, hsource⟩ := closeGap_source (home_lt hsize) hi Nat.one_pos
    (Nat.mod_eq_of_lt hi) rfl (by omega) he'
  rw [hlength] at hsource
  exact ⟨k, hk, hne, hsource.imp_right And.left⟩

theorem Passing.remove (hf : f.Lawful) (hp : Tidy f p) (h : Passing f keyDup body p i s)
    (he : slot s.map.base.entries i = some e) (hbody : body s.visits e = true) (hremoved : Removed f s.map q i e)
    (hcall : s.map.remove f (some e.key) = .ok (some e.data, q)) :
    Passing f keyDup body p i ⟨q, nextPopulated q.base.entries i, (e, true) :: s.visits⟩ := by
  have hcons : removedOf ((e, true) :: s.visits) = e :: removedOf s.visits := by
    rw [removedOf, List.filter_cons_of_pos rfl]
    rfl
  have htableSize : q.base.tableSize = s.map.base.tableSize := by
    rw [hremoved.base]
    rfl
  refine {
    serving := h.serving.of_same hremoved.same hremoved.tidy
    functions := hremoved.same.functions.trans h.functions
    tableSize := htableSize.trans h.tableSize
    pos := rfl
    perm := ?_
    left := fun j e' hj => ?_
    removed := fun e' he' => ?_
    known := fun v hv => ?_
    decided := ⟨hbody.symm, h.decided⟩
    keyFree := by rw [hremoved.base]; exact h.keyFree
    freed := ?_
    calls := ?_ }
  · rw [hcons]
    calc (e :: removedOf s.visits ++ populated q.base.entries).Perm
          (removedOf s.visits ++ e :: populated q.base.entries) := List.perm_middle.symm
      List.Perm _ (removedOf s.visits ++ populated s.map.base.entries) := hremoved.perm.append_left _
      List.Perm _ (populated p.base.entries) := h.perm
  · obtain ⟨k, hk, hki, hsource⟩ := hremoved.source h.serving.tidy he hj
    obtain ⟨i₀, hi₀, hwrapped, hcount⟩ := h.left k e' hk
    have hkey : e.key ≠ e'.key := fun hkey => hki (h.serving.tidy.eq_of_key hf he hk hkey).symm
    have hsame := wrapped_congr (f := f) (i := j) (e := e') htableSize
    obtain ⟨hwrapped', hcount'⟩ := count_of_source hki hsource hwrapped
    refine ⟨i₀, hi₀, fun hj => hwrapped' (hsame.mp hj), ?_⟩
    rw [visited_cons, if_neg hkey, Nat.add_zero, hcount,
      if_congr (and_congr_right' (not_congr hsame)) rfl rfl]
    exact hcount'
  · rw [hcons, List.mem_cons] at he'
    rcases he' with rfl | he'
    · obtain ⟨i₀, hi₀, hwrapped, hcount⟩ := h.left i e' he
      refine ⟨i₀, hi₀, ?_⟩
      rw [visited_cons, if_pos rfl, hcount, if_neg (Nat.lt_irrefl i)]
      by_cases hwraps : Wrapped f p i₀ e'
      · rw [if_pos hwraps]
        split <;> omega
      · rw [if_neg hwraps, if_neg fun h => hwraps h.1]
        omega
    · obtain ⟨i₀, hi₀, hcount⟩ := h.removed e' he'
      have hkey : e.key ≠ e'.key := fun hkey => Passing.key_ne hf hp h.perm he' he hkey.symm
      rw [visited_cons, if_neg hkey]
      exact ⟨i₀, hi₀, hcount⟩
  · rcases List.mem_cons.mp hv with rfl | hv
    · exact h.perm.mem_iff.mp (List.mem_append_right _ (mem_populated.mpr ⟨i, he⟩))
    · exact h.known v hv
  · rw [hremoved.freed, h.keyFree, h.freed, hcons]
    split
    · rfl
    · rfl
  · have hstep : CallStep f s.map (.op (.remove (some e.key)), .data (some e.data)) q := by
      refine ⟨⟨h.functions, fun op heq => ?_⟩, ?_⟩
      · cases heq
        exact ⟨trivial, not_strands fun _ heq => (by cases heq)⟩
      · unfold Process.call
        simp only [hcall, ok_bind]
        rfl
    rw [removeCalls, hcons]
    exact h.calls.next hstep

/-- The loop ends, and has passed the whole table then. -/
theorem Passing.run (hf : f.Lawful) (hp : Tidy f p) (hrounds : Rounds f body round)
    (h : Passing f keyDup body p bound s)
    (hn : s.map.base.size * (p.base.tableSize + 1) + (p.base.tableSize - bound) < n) :
    ∃ s', rounds round n s = .ok (some s') ∧ s'.pos = none ∧
      ∃ bound, Passing f keyDup body p bound s' := by
  induction n generalizing s bound with
  | zero => omega
  | succ n ih =>
    rw [rounds]
    cases hpos : s.pos with
    | none =>
      rw [hrounds.ends s hpos]
      exact ⟨s, rfl, hpos, bound, h⟩
    | some i =>
      have hle : bound ≤ i := by
        have hnext := h.pos
        rw [hpos] at hnext
        exact (nextPopulated_eq_some hnext.symm).1
      obtain ⟨hat, e, he⟩ := h.at hpos
      have hi : i < p.base.tableSize := by
        obtain ⟨t, -, -, hlength⟩ := h.serving.tidy.ok.of_slot (lt_of_slot he)
        have hlt := lt_of_slot he
        rwa [hlength, h.tableSize] at hlt
      cases hbody : body s.visits e with
      | false =>
        rw [hrounds.keeps s i e h.serving.tidy hpos he hbody]
        exact ih (hat.keep hf hp he hbody) (by dsimp only; omega)
      | true =>
        obtain ⟨q, hremove, hcall, hremoved⟩ := h.serving.tidy.entryRemove hf h.functions he
        rw [hrounds.removes s i e q h.serving.tidy hpos he hbody hremoved hremove hcall]
        refine ih (hat.remove hf hp he hbody hremoved hcall) ?_
        rw [← hremoved.size, Nat.succ_mul] at hn
        dsimp only
        omega

/-! ### Whole loops -/

variable {keyFree : Bool} {hist : List (Call K D × Answer D)}

theorem Passing.start (h : Serving f keyDup p) (hfunctions : p.base.functions = true) :
    Passing f keyDup body p 0 ⟨p, nextPopulated p.base.entries 0, []⟩ where
  serving := h
  functions := hfunctions
  tableSize := rfl
  pos := rfl
  perm := .refl _
  left j e he := by
    refine ⟨j, he, id, ?_⟩
    rw [if_neg (Nat.not_lt_zero j), if_neg fun hand => hand.2 hand.1]
    rfl
  removed e he := by cases he
  known v hv := by cases hv
  decided := trivial
  keyFree := rfl
  freed := by
    split
    · rfl
    · rfl
  calls := .start

theorem Passing.loop (hf : f.Lawful) (hrounds : Rounds f body round) (h : Serving f keyDup p)
    (hfunctions : p.base.functions = true) (hn : p.base.size * (p.base.tableSize + 1) + p.base.tableSize < n) :
    ∃ q visits bound, p.loop round n = .ok (some ⟨q, none, visits⟩) ∧
      Passing f keyDup body p bound ⟨q, none, visits⟩ := by
  have hstart : Passing f keyDup body p 0 ⟨p, nextPopulated p.base.entries 0, []⟩ := .start h hfunctions
  obtain ⟨⟨q, pos, visits⟩, hloop, hpos, bound, hpassing⟩ := hstart.run hf h.tidy hrounds hn
  cases hpos
  refine ⟨q, visits, bound, ?_, hpassing⟩
  have hiter : p.iter none = .ok (nextPopulated p.base.entries 0) := h.tidy.getPopulated 0
  rw [Process.loop, hiter]
  exact hloop

/-- At the end of the loop every entry has been visited. -/
theorem Passing.visited_slot (hf : f.Lawful) (hp : Tidy f p) (h : Passing f keyDup body p bound ⟨q, none, visits⟩)
    (hi : slot p.base.entries i = some e) :
    1 ≤ visited visits e ∧ visited visits e ≤ if Wrapped f p i e then 2 else 1 := by
  rcases List.mem_append.mp (h.perm.mem_iff.mpr (mem_populated.mpr ⟨i, hi⟩)) with he | he
  · obtain ⟨i₀, hi₀, hcount⟩ := h.removed e he
    rwa [hp.eq_of_key hf hi₀ hi rfl] at hcount
  · obtain ⟨j, hj⟩ := mem_populated.mp he
    obtain ⟨i₀, hi₀, -, hcount⟩ := h.left j e hj
    have hpassed : j < bound := by
      by_contra hleft
      have hnone := nextPopulated_eq_none h.pos.symm (Nat.le_of_not_lt hleft)
      rw [hj] at hnone
      cases hnone
    rw [hp.eq_of_key hf hi₀ hi rfl] at hcount
    rw [hcount, if_pos hpassed]
    by_cases hwraps : Wrapped f p i e
    · rw [if_pos hwraps]
      split <;> omega
    · rw [if_neg hwraps, if_neg fun hand => hwraps hand.1]
      omega

/-- The two loops that remove end, whatever the body does. What they remove and what is left is what the map
held, and the map is left as by calls of `managed_object_hashmap_remove`. Every entry is visited, and only one
that was pushed over the end of the table can be visited twice. -/
theorem removing_visits (hf : f.Lawful) (hrun : CallRun f keyDup keyFree hist p)
    (hfunctions : p.base.functions = true)
    (hround : round = Loop.safeRound f body ∨ round = Loop.removeRound f body)
    (hn : p.base.size * (p.base.tableSize + 1) + p.base.tableSize < n) :
    ∃ q visits, p.loop round n = .ok (some ⟨q, none, visits⟩) ∧
      CallRun f keyDup keyFree (removeCalls visits ++ hist) q ∧
      (removedOf visits ++ populated q.base.entries).Perm (populated p.base.entries) ∧
      Decided body visits ∧ (∀ v ∈ visits, v.1 ∈ populated p.base.entries) ∧
      q.freedKeys = (if p.base.keyFree then (removedOf visits).map Entry.key ++ p.freedKeys else p.freedKeys) ∧
      ∀ i e, slot p.base.entries i = some e →
        1 ≤ visited visits e ∧ visited visits e ≤ if Wrapped f p i e then 2 else 1 := by
  obtain ⟨hserving, -⟩ := hrun.simulates hf
  have hrounds : Rounds f body round := by
    rcases hround with rfl | rfl
    · exact rounds_safe hf
    · exact rounds_remove
  obtain ⟨q, visits, bound, hloop, h⟩ := Passing.loop hf hrounds hserving hfunctions hn
  exact ⟨q, visits, hloop, hrun.append h.calls, h.perm, h.decided, h.known, h.freed,
    fun i e hi => h.visited_slot hf hserving.tidy hi⟩

/-- Key 396 is removed, and 136 comes back over the end, where it is visited again. -/
theorem removing_visits_crowded : ∃ q visits,
    crowded.loop (Loop.safeRound numbers fun _ e => e.data = 9) 260 = .ok (some ⟨q, none, visits⟩) ∧
      visits = [(⟨136, 7⟩, false), (⟨396, 9⟩, true), (⟨136, 7⟩, false), (⟨40, 7⟩, false)] ∧
      CallRun numbers false false (removeCalls visits ++ crowdedCalls) q ∧
      (removedOf visits ++ populated q.base.entries).Perm (populated crowded.base.entries) ∧
      Decided (fun _ e => e.data = 9) visits ∧ (∀ v ∈ visits, v.1 ∈ populated crowded.base.entries) ∧
      q.freedKeys = (if crowded.base.keyFree then (removedOf visits).map Entry.key ++ crowded.freedKeys
        else crowded.freedKeys) ∧
      ∀ i e, slot crowded.base.entries i = some e →
        1 ≤ visited visits e ∧ visited visits e ≤ if Wrapped numbers crowded i e then 2 else 1 := by
  obtain ⟨q, visits, hloop, hvisits⟩ :=
    removing_visits numbers_lawful crowded_calls rfl (.inl rfl) (by decide : _ < 260)
  refine ⟨q, visits, hloop, ?_, hvisits⟩
  exact congrArg (fun result => result.toOption.join.elim [] Loop.visits) hloop.symm

omit [DecidableEq K] in
theorem Decided.eq {pred : Entry K D → Bool} {v : Entry K D × Bool} (h : Decided (fun _ => pred) visits)
    (hv : v ∈ visits) : v.2 = pred v.1 := by
  induction visits with
  | nil => cases hv
  | cons last past ih =>
    rcases List.mem_cons.mp hv with rfl | hv
    · exact h.1
    · exact ih h.2 hv

omit [DecidableEq K] in
theorem mem_removedOf : e ∈ removedOf visits ↔ (e, true) ∈ visits := by
  rw [removedOf, List.mem_map]
  constructor
  · rintro ⟨⟨e', removed⟩, hv, rfl⟩
    obtain ⟨hv, htrue⟩ := List.mem_filter.mp hv
    cases htrue
    exact hv
  · exact fun hv => ⟨(e, true), List.mem_filter.mpr ⟨hv, rfl⟩, rfl⟩

/-- What is left was visited, and the body did not remove it. -/
theorem Passing.kept (hf : f.Lawful) (hp : Tidy f p) {pred : Entry K D → Bool}
    (h : Passing f keyDup (fun _ => pred) p bound ⟨q, none, visits⟩) (he : e ∈ populated q.base.entries) :
    pred e = false := by
  obtain ⟨j, hj⟩ := mem_populated.mp he
  obtain ⟨i, hi⟩ := mem_populated.mp (h.perm.mem_iff.mp (List.mem_append_right _ he))
  obtain ⟨v, hv, hkey⟩ := List.countP_pos_iff.mp (h.visited_slot hf hp hi).1
  obtain ⟨i', hi'⟩ := mem_populated.mp (h.known v hv)
  have hsame := hp.eq_of_key hf hi' hi (of_decide_eq_true hkey)
  rw [hsame, hi] at hi'
  cases hi'
  by_contra hpred
  rw [Bool.not_eq_false] at hpred
  have hmem : (v.1, true) ∈ visits := by
    rw [← hpred, ← h.decided.eq hv]
    exact hv
  exact Passing.key_ne hf hp h.perm (mem_removedOf.mpr hmem) hj rfl

/-- With a body that looks only at the entry, the loops leave what it does not remove. -/
theorem removing_filters (hf : f.Lawful) (hrun : CallRun f keyDup keyFree hist p)
    (hfunctions : p.base.functions = true) (pred : Entry K D → Bool)
    (hround : round = Loop.safeRound f (fun _ => pred) ∨ round = Loop.removeRound f fun _ => pred)
    (hn : p.base.size * (p.base.tableSize + 1) + p.base.tableSize < n) :
    ∃ q visits, p.loop round n = .ok (some ⟨q, none, visits⟩) ∧
      (removedOf visits).Perm ((populated p.base.entries).filter pred) ∧
      (populated q.base.entries).Perm ((populated p.base.entries).filter fun e => !pred e) ∧
      ∀ k d, q.get f (some k) = .ok (some d) ↔
        ∃ e ∈ populated p.base.entries, f.compare e.key k = true ∧ e.data = d ∧ pred e = false := by
  obtain ⟨hserving, -⟩ := hrun.simulates hf
  have hrounds : Rounds f (fun _ => pred) round := by
    rcases hround with rfl | rfl
    · exact rounds_safe hf
    · exact rounds_remove
  obtain ⟨q, visits, bound, hloop, h⟩ := Passing.loop hf hrounds hserving hfunctions hn
  have hkept : ∀ e ∈ populated q.base.entries, pred e = false := fun e => h.kept hf hserving.tidy
  have hgone : ∀ e ∈ removedOf visits, pred e = true := fun e he => (h.decided.eq (mem_removedOf.mp he)).symm
  have hleft : (populated q.base.entries).Perm ((populated p.base.entries).filter fun e => !pred e) := by
    have hperm := h.perm.filter fun e => !pred e
    rwa [List.filter_append, List.filter_eq_nil_iff.mpr fun e he => by simp [hgone e he], List.nil_append,
      List.filter_eq_self.mpr fun e he => by simp [hkept e he]] at hperm
  refine ⟨q, visits, hloop, ?_, hleft, fun k d => ?_⟩
  · have hperm := h.perm.filter pred
    rwa [List.filter_append, List.filter_eq_self.mpr hgone,
      List.filter_eq_nil_iff.mpr fun e he => by simp [hkept e he], List.append_nil] at hperm
  · rw [h.serving.get_iff hf h.functions]
    constructor
    · rintro ⟨e, he, hmatch, hdata⟩
      exact ⟨e, (List.mem_filter.mp (hleft.mem_iff.mp he)).1, hmatch, hdata, hkept e he⟩
    · rintro ⟨e, he, hmatch, hdata, hpred⟩
      refine ⟨e, hleft.mem_iff.mpr (List.mem_filter.mpr ⟨he, ?_⟩), hmatch, hdata⟩
      rw [hpred]
      rfl

/-- The slot of 40 is filled with 136 when 40 is removed, and 136 is removed from there. -/
theorem removing_filters_crowded : ∃ q visits,
    crowded.loop (Loop.removeRound numbers fun _ e => e.data = 7) 260 = .ok (some ⟨q, none, visits⟩) ∧
      (removedOf visits).Perm ((populated crowded.base.entries).filter fun e => e.data = 7) ∧
      (populated q.base.entries).Perm ((populated crowded.base.entries).filter fun e => !(e.data = 7)) ∧
      ∀ k d, q.get numbers (some k) = .ok (some d) ↔ ∃ e ∈ populated crowded.base.entries,
        numbers.compare e.key k = true ∧ e.data = d ∧ decide (e.data = 7) = false :=
  removing_filters numbers_lawful crowded_calls rfl _ (.inr rfl) (by decide)

end ManagedObject.Hashmap
