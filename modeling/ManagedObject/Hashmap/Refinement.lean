import ManagedObject.Hashmap.Calls

/-!
# The map as a finite map

A hashmap whose functions are lawful answers like a finite map, whatever the allocators give: the table, its
growth and the gaps that a removal closes cannot be seen in the answers.
-/

namespace ManagedObject.Hashmap

open Format Linear Lib Outcome

variable {K D : Type} {f : Functions K} {p p' p₁ : Process K D} {keyDup : Bool} {calloc : Option Nat}
  {data : Option D} {key dup : Option K} {k : K} {d : D} {r : Option Errno} {c : Call K D} {a : Answer D}

/-- The fields of a map that only `cleanup` and `reserve` change. -/
structure SameFunctions (p p' : Process K D) : Prop where
  functions : p'.base.functions = p.base.functions
  keyDup : p'.base.keyDup = p.base.keyDup
  init : sizeMin ≤ p.base.tableSizeInit → sizeMin ≤ p'.base.tableSizeInit

/-- The invariant of a map that answers calls. -/
structure Serving (f : Functions K) (keyDup : Bool) (p : Process K D) : Prop where
  tidy : Tidy f p
  keyDup : p.base.functions = true → p.base.keyDup = keyDup
  init : p.base.functions = true → sizeMin ≤ p.base.tableSizeInit

theorem Serving.of_same (h : Serving f keyDup p) (hsame : SameFunctions p p') (htidy : Tidy f p') :
    Serving f keyDup p' where
  tidy := htidy
  keyDup hfunctions := hsame.keyDup.trans (h.keyDup (hsame.functions.symm.trans hfunctions))
  init hfunctions := hsame.init (h.init (hsame.functions.symm.trans hfunctions))

/-! ### Growing -/

theorem Grown.sameFunctions (h : Grown f p calloc p₁) : SameFunctions p p₁ := by
  cases h with
  | same => exact ⟨rfl, rfl, id⟩
  | replaced => exact ⟨rfl, rfl, id⟩

/-- A `put` finds room, unless the table that it needs cannot be allocated. -/
theorem Serving.grow (h : Serving f keyDup p) (hfunctions : p.base.functions = true) {n : Nat}
    (hcalc : calcTableSize p.base.tableSizeInit p.base.size = .ok n) (calloc : Option Nat) :
    ∃ r p₁, (if n > p.base.tableSize then p.rehash f n calloc else .ok (none, p)) = .ok (r, p₁) ∧
      Grown f p calloc p₁ ∧
      (r = none ∧ n ≤ p₁.base.tableSize ∨ r = some .nomem ∧ calloc = none ∧ p₁ = p) := by
  have hsize := (isSize_init_of_calc h.tidy.ok hcalc).2
  obtain ⟨-, -, hroom⟩ := room_of_calcTableSize (h.init hfunctions) h.tidy.searchable.size hcalc
  by_cases hlarger : n > p.base.tableSize
  · rw [if_pos hlarger]
    obtain ⟨r, p₁, hrehash, hresult⟩ := h.tidy.rehash hfunctions hsize (Nat.le_of_lt hroom) calloc
    refine ⟨r, p₁, hrehash, ?_, ?_⟩
    · rcases rehash_cases hrehash with ⟨-, -, rfl⟩ | ⟨addr, entries, hcalloc, -, hle, hloop, rfl⟩
      · exact .same
      · exact .replaced hcalc hlarger hcalloc hle hloop
    · rcases hresult with ⟨hcalloc, hr, hp⟩ | ⟨-, hr, hn⟩
      · exact .inr ⟨hr, hcalloc, hp⟩
      · exact .inl ⟨hr, hn.ge⟩
  · rw [if_neg hlarger]
    exact ⟨none, p, rfl, .same, .inl ⟨rfl, by omega⟩⟩

/-! ### What each call answers -/

/-- A call returns, with the answer of the finite map. -/
def Serves (f : Functions K) (keyDup : Bool) (p : Process K D) (c : Call K D) : Prop :=
  ∃ a p', p.call f c = .ok (a, p') ∧ Answers f.compare keyDup (p.view f) c a (p'.view f) ∧ Serving f keyDup p'

theorem Tidy.view_insert (hf : f.Lawful) (h : Tidy f p) {i : Nat} {k' : K}
    (hempty : p.base.entries[i]? = some none) (habsent : p.view f k = none) (hcopy : f.compare k k' = true)
    (hput : p'.base = { p.base.setEntries (p.base.entries.set i (some ⟨k', d⟩)) with size := wrap (p.base.size + 1) }) :
    p'.view f = Assoc.update f.compare (p.view f) k (some d) := by
  obtain ⟨hperm, -⟩ := h.ok.insert_perm h.size hempty hput
  have hperm : (pairs p'.base.entries).Perm ((k', d) :: pairs p.base.entries) :=
    hperm.map fun e : Entry K D => (e.key, e.data)
  have hdistinct : Assoc.Distinct f.compare ((k', d) :: pairs p.base.entries) := by
    refine List.pairwise_cons.mpr ⟨fun q hq => ?_, h.mergeFree.distinct hf⟩
    rw [Process.view, Assoc.get, Option.map_eq_none_iff, List.find?_eq_none] at habsent
    rw [← hf.comparison.congr hcopy, hf.comparison.comm, ← Bool.not_eq_true]
    exact habsent q hq
  have hwrites : Assoc.Writes f.compare (pairs p.base.entries) k (some d) ((k', d) :: pairs p.base.entries) :=
    Assoc.writes_cons hf.comparison hcopy
  funext key
  exact hwrites.perm hf.comparison (h.mergeFree.distinct hf) (hdistinct.perm hf.comparison hperm.symm) (.refl _)
    hperm key

theorem Removed.view (hf : f.Lawful) (h : Tidy f p) {i : Nat} {e : Entry K D} (hremoved : Removed f p p' i e)
    (hmatch : f.compare k e.key = true) : p'.view f = Assoc.update f.compare (p.view f) k none := by
  have hperm : ((e.key, e.data) :: pairs p'.base.entries).Perm (pairs p.base.entries) :=
    hremoved.perm.map fun e : Entry K D => (e.key, e.data)
  have hdistinct := (h.mergeFree.distinct hf).perm hf.comparison hperm.symm
  have hwrites : Assoc.Writes f.compare ((e.key, e.data) :: pairs p'.base.entries) k none (pairs p'.base.entries) :=
    Assoc.writes_tail hf.comparison hmatch hdistinct
  funext key
  exact hwrites.perm hf.comparison (h.mergeFree.distinct hf) (hremoved.tidy.mergeFree.distinct hf) hperm.symm
    (.refl _) key

theorem Removed.same {i : Nat} {e : Entry K D} (h : Removed f p p' i e) : SameFunctions p p' := by
  constructor
  · rw [h.base]
    rfl
  · rw [h.base]
    rfl
  · intro hinit
    rw [h.base]
    exact hinit

theorem Serving.put (hf : f.Lawful) (h : Serving f keyDup p) (hfunctions : p.base.functions = true)
    (hop : (Op.put (some k) (some d) calloc dup).Provided f p) {n : Nat}
    (hcalc : calcTableSize p.base.tableSizeInit p.base.size = .ok n) :
    Serves f keyDup p (.op (.put (some k) (some d) calloc dup)) := by
  obtain ⟨r, p₁, hgrow, hgrown, hr⟩ := h.grow hfunctions hcalc calloc
  obtain ⟨htidy, hperm⟩ := hgrown.tidy hf h.tidy hop.1
  have h₁ := h.of_same hgrown.sameFunctions htidy
  have hview := h.tidy.view_perm hf hperm
  have hfunctions₁ := hgrown.sameFunctions.functions.trans hfunctions
  have hkeyDup := h₁.keyDup hfunctions₁
  obtain ⟨found, hfind, hfound⟩ := htidy.find hf hfunctions₁ k true
  have hput : ∃ r p', p.put f (some k) (some d) calloc dup = .ok (r, p') ∧
      Answers f.compare keyDup (p.view f) (.op (.put (some k) (some d) calloc dup)) (.errno r) (p'.view f) ∧
      SameFunctions p₁ p' := by
    rw [← hview]
    unfold Process.put
    simp only [hcalc, ok_bind, hgrow, hfind]
    cases hfound with
    | nothing habsent hfull =>
      rcases hr with ⟨-, hroom⟩ | ⟨rfl, hcalloc, -⟩
      · -- the search of a table with an empty slot ends there
        have hsize := htidy.size
        rw [hgrown.frame.1] at hsize
        have hless := (room_of_calcTableSize (h.init hfunctions) h.tidy.searchable.size hcalc).2.2
        have := hfull rfl
        omega
      · exact ⟨_, p₁, rfl, .nomem habsent (.inl hcalloc), rfl, rfl, id⟩
    | @entry i e hslot hmatch hsome =>
      have hentry : p₁.base.entries[i]? = some (some e) := slot_eq_some.mp hslot
      simp only [hentry]
      exact ⟨_, p₁, rfl, .exist hsome, rfl, rfl, id⟩
    | @gap i hgap _ habsent =>
      simp only [hgap, hkeyDup]
      cases hhanded : if keyDup then dup else some k with
      | none =>
        refine ⟨_, p₁, rfl, .nomem habsent (.inr ?_), rfl, rfl, id⟩
        split at hhanded
        · rename_i hdup
          exact ⟨hdup, hhanded⟩
        · cases hhanded
      | some k' =>
        have hcopy : f.compare k k' = true := by
          split at hhanded
          · exact hop.2 k k' rfl hhanded
          · cases hhanded
            exact hf.comparison.refl k
        simp only
        generalize hp' : Process.mk (K := K) (D := D) _ _ _ _ = p'
        have hview' := htidy.view_insert hf hgap habsent hcopy (congrArg Process.base hp'.symm)
        refine ⟨none, p', rfl, ?_, by rw [← hp']; rfl, by rw [← hp']; rfl, by rw [← hp']; exact id⟩
        rw [hview']
        exact .put habsent
  obtain ⟨r', p', hput, hanswer, hsame⟩ := hput
  have htidy' := (h.tidy.put hf hop hput).tidy (not_strands fun _ heq => (by cases heq))
  refine ⟨.errno r', p', ?_, hanswer, h₁.of_same hsame htidy'⟩
  unfold Process.call
  simp only [hput, ok_bind]
  rfl

theorem Serving.get_eq (hf : f.Lawful) (h : Serving f keyDup p) (hfunctions : p.base.functions = true)
    (key : Option K) : p.get f key = .ok (key.bind (p.view f)) := by
  cases key with
  | none => rfl
  | some k =>
    obtain ⟨found, hfind, hfound⟩ := h.tidy.find hf hfunctions k false
    unfold Process.get
    simp only [hfind, ok_bind]
    cases hfound with
    | nothing habsent _ => exact congrArg Except.ok habsent.symm
    | @entry i e hslot hmatch hsome =>
      have hentry : p.base.entries[i]?.join = some e := hslot
      simp only [hentry]
      exact congrArg Except.ok hsome.symm
    | gap _ hempty _ => cases hempty

theorem Serving.get (hf : f.Lawful) (h : Serving f keyDup p) (hfunctions : p.base.functions = true)
    (key : Option K) : Serves f keyDup p (.get key) := by
  refine ⟨.data (key.bind (p.view f)), p, ?_, .get, h⟩
  unfold Process.call
  simp only [h.get_eq hf hfunctions, ok_bind]
  rfl

theorem Serving.remove (hf : f.Lawful) (h : Serving f keyDup p) (hfunctions : p.base.functions = true)
    (key : Option K) : Serves f keyDup p (.op (.remove key)) := by
  cases key with
  | none => exact ⟨_, p, rfl, .removeNull, h⟩
  | some k =>
    obtain ⟨found, hfind, hfound⟩ := h.tidy.find hf hfunctions k false
    unfold Serves Process.call Process.remove
    simp only [hfind, ok_bind]
    cases hfound with
    | nothing habsent _ =>
      have hsame : Assoc.update f.compare (p.view f) k none = p.view f := by
        funext k'
        rw [Assoc.update]
        split
        · rename_i hmatch
          rw [← view_congr hf hmatch, habsent]
        · rfl
      refine ⟨.data none, p, rfl, ?_, h⟩
      have hanswer : Answers f.compare keyDup (p.view f) (.op (.remove (some k))) _ _ := .remove
      rwa [habsent, hsame] at hanswer
    | @entry i e hslot hmatch hsome =>
      obtain ⟨p', hremove, -, hremoved⟩ := h.tidy.entryRemove hf hfunctions hslot
      have hentry : p.base.entries[i]?.join = some e := hslot
      simp only [hentry, hremove, ok_bind]
      refine ⟨.data (some e.data), p', rfl, ?_, h.of_same hremoved.same hremoved.tidy⟩
      rw [hremoved.view hf h.tidy hmatch, ← hsome]
      exact .remove
    | gap _ hempty _ => cases hempty

theorem sizeMin_le_of_calc {capacity n : Nat} (hcalc : calcTableSize sizeMin capacity = .ok n) : sizeMin ≤ n := by
  rw [calcTableSize] at hcalc
  split at hcalc
  · cases hcalc
    exact Nat.le_refl _
  · split at hcalc
    · cases hcalc
    · rename_i hlarge hone
      rw [shiftOne] at hcalc
      split at hcalc
      · have hmin : sizeMin = 32 := rfl
        have hrange : wrap (capacity + capacity / 3) < 2 ^ 64 := Nat.mod_lt _ (by decide)
        generalize wrap (capacity + capacity / 3) = x at *
        have hmask : wrap (x + (2 ^ 64 - 1)) = x - 1 := by
          rw [wrap]
          omega
        have hlog := Nat.lt_log2_self (n := x - 1)
        rw [hmask] at hcalc
        cases hcalc
        omega
      · cases hcalc

theorem Serving.reserve (hf : f.Lawful) (h : Serving f keyDup p) (hfunctions : p.base.functions = true)
    {capacity n : Nat} (hop : (Op.reserve (K := K) (D := D) capacity calloc).Provided f p)
    (hcalc : calcTableSize sizeMin capacity = .ok n) : Serves f keyDup p (.op (.reserve capacity calloc)) := by
  have hsize := isSize_of_sizeMin hcalc
  have hinit : Tidy f { p with base := { p.base with tableSizeInit := n } } :=
    h.tidy.of_perm hf (h.tidy.ok.setInit hsize) ⟨h.tidy.searchable.probed, h.tidy.searchable.size⟩ (.refl _) rfl
      h.tidy.owned
  have hresult : ∃ r p', p.reserve f capacity calloc = .ok (r, p') ∧ (r = none ∨ r = some .nomem ∧ calloc = none) := by
    unfold Process.reserve
    simp only [hcalc, ok_bind]
    by_cases hlarger : n > p.base.tableSize
    · have hroom : p.base.size ≤ n := by
        have := (h.tidy.ok.size_le h.tidy.size).1
        omega
      obtain ⟨r, p₁, hrehash, hcases⟩ := hinit.rehash hfunctions hsize hroom calloc
      simp only [if_pos hlarger, hrehash, ok_bind]
      rcases hcases with ⟨hcalloc, rfl, rfl⟩ | ⟨-, rfl, -⟩
      · exact ⟨_, _, rfl, .inr ⟨rfl, hcalloc⟩⟩
      · exact ⟨_, _, rfl, .inl rfl⟩
    · simp only [if_neg hlarger]
      exact ⟨_, _, rfl, .inl rfl⟩
  obtain ⟨r, p', hreserve, hr⟩ := hresult
  have htidy := (h.tidy.reserve hf hop hreserve).tidy (not_strands fun _ heq => (by cases heq))
  have hkept : (populated p'.base.entries).Perm (populated p.base.entries) ∧ SameFunctions p p' := by
    rcases reserve_cases hreserve with ⟨-, rfl⟩ |
      ⟨n', hcalc', -, ⟨-, rfl⟩ | ⟨hlarger, addr, entries, rfl, hroom, hloop, rfl⟩⟩
    · exact ⟨.refl _, rfl, rfl, id⟩
    · exact ⟨.refl _, rfl, rfl, fun _ => sizeMin_le_of_calc hcalc'⟩
    · exact ⟨replaced_perm (isSize_of_sizeMin hcalc') h.tidy.mergeFree hloop, rfl, rfl,
        fun _ => sizeMin_le_of_calc hcalc'⟩
  refine ⟨.errno r, p', ?_, ?_, h.of_same hkept.2 htidy⟩
  · unfold Process.call
    simp only [hreserve, ok_bind]
    rfl
  · rw [h.tidy.view_perm hf hkept.1]
    exact .reserve hr

theorem Serving.empty (h : Serving f keyDup p) (hsame : SameFunctions p p') (htidy : Tidy f p')
    (hempty : populated p'.base.entries = []) : Serving f keyDup p' ∧ p'.view f = fun _ => none :=
  ⟨h.of_same hsame htidy, view_of_empty hempty⟩

/-- A map that has not been cleaned up answers every call. -/
theorem Serving.call (hf : f.Lawful) (h : Serving f keyDup p) (hserved : c.Served f p) (hdefined : c.Defined p) :
    Serves f keyDup p c := by
  have hfunctions := hserved.functions
  cases c with
  | get key => exact h.get hf hfunctions key
  | op op =>
    obtain ⟨hop, hstrands⟩ := hserved.granted op rfl
    cases op with
    | put key data calloc dup =>
      cases key with
      | none => exact ⟨_, p, rfl, .inval (.inl rfl), h⟩
      | some k =>
        cases data with
        | none => exact ⟨_, p, rfl, .inval (.inr rfl), h⟩
        | some d =>
          obtain ⟨n, hcalc⟩ := hdefined
          exact h.put hf hfunctions hop hcalc
    | remove key => exact h.remove hf hfunctions key
    | reserve capacity calloc =>
      obtain ⟨n, hcalc⟩ := hdefined
      exact h.reserve hf hfunctions hop hcalc
    | clear =>
      have hbase : p.clear.base = { p.base.setEntries (List.replicate p.base.tableSize none) with size := 0 } := by
        rw [Process.clear]
        dsimp only
        rw [freeKeys_base]
        rfl
      have hsame : SameFunctions p p.clear := by
        constructor
        · rw [hbase]
          rfl
        · rw [hbase]
          rfl
        · rw [hbase]
          exact id
      have htidy := h.tidy.clear.tidy (not_strands fun _ heq => (by cases heq))
      obtain ⟨hserving, hview⟩ := h.empty hsame htidy (entries_cleared _ _)
      refine ⟨.done, p.clear, rfl, ?_, hserving⟩
      rw [hview]
      exact .clear
    | reset calloc =>
      have htidy := (h.tidy.reset hop).tidy hstrands
      have hreset : ((p.reset calloc).1 = none ∨
          (p.reset calloc).1 = some .nomem ∧ calloc = none ∧ (∀ k, p.view f k = none)) ∧
          SameFunctions p (p.reset calloc).2 ∧ populated (p.reset calloc).2.base.entries = [] := by
        rw [reset_eq]
        split
        · rename_i hsize
          cases calloc with
          | none =>
            have hempty : populated p.base.entries = [] := by
              by_contra hentries
              exact hstrands ⟨rfl, hsize, hentries⟩
            exact ⟨.inr ⟨rfl, rfl, congrFun (view_of_empty hempty)⟩, ⟨rfl, rfl, id⟩, hempty⟩
          | some addr => exact ⟨.inl rfl, ⟨rfl, rfl, id⟩, populated_replicate _⟩
        · exact ⟨.inl rfl, ⟨rfl, rfl, id⟩, entries_cleared _ _⟩
      obtain ⟨hr, hsame, hempty⟩ := hreset
      obtain ⟨hserving, hview⟩ := h.empty hsame htidy hempty
      refine ⟨.errno (p.reset calloc).1, (p.reset calloc).2, rfl, ?_, hserving⟩
      rw [hview]
      exact .reset hr
    | cleanup =>
      have htidy := h.tidy.cleanup.tidy (not_strands fun _ heq => (by cases heq))
      have hgone : p.cleanup.base.functions = false := rfl
      refine ⟨.done, p.cleanup, rfl, ?_, htidy, ?_, ?_⟩
      · rw [view_of_empty (p := p.cleanup) rfl]
        exact .cleanup
      · rw [hgone]
        exact fun hfunctions => by cases hfunctions
      · rw [hgone]
        exact fun hfunctions => by cases hfunctions

/-- A call that returns has computed the size of its table. -/
theorem defined_of_call (h : p.call f c = .ok (a, p')) : c.Defined p := by
  cases c with
  | get key => exact trivial
  | op op =>
    cases op with
    | put key data calloc dup =>
      cases key with
      | none => exact trivial
      | some k =>
        cases data with
        | none => exact trivial
        | some d =>
          obtain ⟨⟨r, p₁⟩, hput, -⟩ := bind_eq_ok h
          exact calc_of_put hput
    | reserve capacity calloc =>
      obtain ⟨x, hreserve, -⟩ := bind_eq_ok h
      obtain ⟨n, hcalc, -⟩ := bind_eq_ok hreserve
      exact ⟨n, hcalc⟩
    | remove key => exact trivial
    | clear => exact trivial
    | reset calloc => exact trivial
    | cleanup => exact trivial

theorem Answers.ne_addrnotavail {same : K → K → Bool} {m m' : K → Option D} (h : Answers same keyDup m c a m') :
    a ≠ .errno (some .addrnotavail) := by
  rintro rfl
  cases h with
  | reserve hr => simp at hr
  | reset hr => simp at hr

/-! ### Runs -/

/-- A call and its answer. -/
def CallStep (f : Functions K) (p : Process K D) (event : Call K D × Answer D) (p' : Process K D) : Prop :=
  event.1.Served f p ∧ p.call f event.1 = .ok (event.2, p')

/-- The calls of a client, from a map right after `init`, with the answers that it got. -/
abbrev CallRun (f : Functions K) (keyDup keyFree : Bool) : List (Call K D × Answer D) → Process K D → Prop :=
  Run (fun _ => CallStep f) (.init keyDup keyFree)

/-- A run of the finite map, from the empty one, with its answers. -/
abbrev MapRun (same : K → K → Bool) (keyDup : Bool) : List (Call K D × Answer D) → (K → Option D) → Prop :=
  Run (fun _ m event m' => Answers same keyDup m event.1 event.2 m') fun _ => none

variable {keyFree : Bool} {hist : List (Call K D × Answer D)}

theorem serving_init : Serving f keyDup (.init keyDup keyFree : Process K D) where
  tidy := tidy_init
  keyDup _ := rfl
  init _ := by
    show 32 ≤ 128
    decide

theorem Serving.step (hf : f.Lawful) (h : Serving f keyDup p) {event : Call K D × Answer D}
    (hstep : CallStep f p event p') :
    Serving f keyDup p' ∧ Answers f.compare keyDup (p.view f) event.1 event.2 (p'.view f) := by
  obtain ⟨hserved, hcall⟩ := hstep
  obtain ⟨a, p₁, hcall', hanswer, hserving⟩ := h.call hf hserved (defined_of_call hcall)
  rw [hcall] at hcall'
  cases hcall'
  exact ⟨hserving, hanswer⟩

/-- A run of the map is a run of the finite map that its entries are. -/
theorem CallRun.simulates (hf : f.Lawful) (hrun : CallRun f keyDup keyFree hist p) :
    Serving f keyDup p ∧ MapRun f.compare keyDup hist (p.view f) := by
  apply hrun.invariant fun hist p => Serving f keyDup p ∧ MapRun f.compare keyDup hist (p.view f)
  · refine ⟨serving_init, ?_⟩
    rw [view_of_empty rfl]
    exact .start
  · intro hist p event p' h hstep
    obtain ⟨hserving, hmap⟩ := h
    obtain ⟨hserving', hanswer⟩ := hserving.step hf hstep
    exact ⟨hserving', hmap.next hanswer⟩

/-- The client gets the answers of a finite map, and the size is the number of its keys. -/
theorem answers_of_map (hf : f.Lawful) (hrun : CallRun f keyDup keyFree hist p) :
    ∃ m keys, MapRun f.compare keyDup hist m ∧ Assoc.Keys f.compare m keys ∧ p.base.size = keys.length := by
  obtain ⟨hserving, hmap⟩ := hrun.simulates hf
  refine ⟨p.view f, _, hmap, Assoc.keys_get hf.comparison (hserving.tidy.mergeFree.distinct hf), ?_⟩
  rw [List.length_map, pairs, List.length_map, hserving.tidy.size]

/-- The map after a `reserve` of ten entries, with the table at 4096. -/
def reserved (entries : List (Option (Entry Nat Nat))) (size : Nat) : Process Nat Nat where
  base := {
    tableSizeInit := 32, tableSize := 32, size := size, table := some ⟨4096, entries⟩, functions := true
    keyDup := false, keyFree := false, onRealloc := true }
  blocks := [4096]
  freedKeys := []
  reports := [⟨some 4096, 64, some ⟨4096, List.replicate 32 none⟩, [4096]⟩]

/-- Keys 396, 40 and 136, in a table of 64 slots that replaced one of 32: 136 has its home at the end, where 396
is, and was pushed over the end, past 40. -/
def crowded : Process Nat Nat where
  base := {
    tableSizeInit := 64, tableSize := 64, size := 3
    table := some ⟨8192, (((List.replicate 64 none).set 63 (some ⟨396, 9⟩)).set 0 (some ⟨40, 7⟩)).set 1
      (some ⟨136, 7⟩)⟩
    functions := true, keyDup := false, keyFree := false, onRealloc := true }
  blocks := [8192]
  freedKeys := []
  reports := [
    ⟨some 8192, 128, some ⟨8192, (((List.replicate 64 none).set 63 (some ⟨396, 9⟩)).set 0 (some ⟨40, 7⟩)).set 1
      (some ⟨136, 7⟩)⟩, [8192, 4096]⟩,
    ⟨some 4096, 64, some ⟨4096, List.replicate 32 none⟩, [4096]⟩]

def crowdedCalls : List (Call Nat Nat × Answer Nat) := [
  (.get (some 1), .data none), (.get (some 136), .data (some 7)),
  (.op (.reserve 40 (some 8192)), .errno none),
  (.op (.put (some 40) (some 7) (some 8192) none), .errno none),
  (.op (.put (some 396) (some 9) (some 8192) none), .errno none),
  (.op (.put (some 136) (some 7) (some 8192) none), .errno none),
  (.op (.reserve 10 (some 4096)), .errno none)]

section
variable {p p' : Process Nat Nat} {addr : Nat} {a : Answer Nat}

theorem callStep_put {k d : Nat} (hfunctions : p.base.functions = true) (hfresh : addr ∉ p.blocks)
    (hcall : p.call numbers (.op (.put (some k) (some d) (some addr) none)) = .ok (a, p')) :
    CallStep numbers p (.op (.put (some k) (some d) (some addr) none), a) p' := by
  refine ⟨⟨hfunctions, fun op heq => ?_⟩, hcall⟩
  cases heq
  refine ⟨⟨fun addr' heq => ?_, fun k k' _ hdup => by cases hdup⟩, not_strands fun _ heq => (by cases heq)⟩
  cases heq
  exact hfresh

theorem callStep_reserve {capacity : Nat} (hfunctions : p.base.functions = true) (hfresh : addr ∉ p.blocks)
    (hcall : p.call numbers (.op (.reserve capacity (some addr))) = .ok (a, p')) :
    CallStep numbers p (.op (.reserve capacity (some addr)), a) p' := by
  refine ⟨⟨hfunctions, fun op heq => ?_⟩, hcall⟩
  cases heq
  refine ⟨fun addr' heq => ?_, not_strands fun _ heq => (by cases heq)⟩
  cases heq
  exact hfresh

end

/-- Three keys are put into the smaller table, which a `reserve` then replaces, and two keys are looked up. -/
theorem crowded_run :
    Run (fun _ p event p' => CallStep numbers p event p' ∧ event.1.Allocated) (.init false false) crowdedCalls
      crowded := by
  have hreserve : CallStep numbers (.init false false) (.op (.reserve 10 (some 4096)), .errno none)
      (reserved (List.replicate 32 none) 0) := callStep_reserve rfl List.not_mem_nil rfl
  have hlast : CallStep numbers (reserved (List.replicate 32 none) 0)
      (.op (.put (some 136) (some 7) (some 8192) none), .errno none)
      (reserved ((List.replicate 32 none).set 31 (some ⟨136, 7⟩)) 1) := callStep_put rfl (by decide) rfl
  have hwraps : CallStep numbers (reserved ((List.replicate 32 none).set 31 (some ⟨136, 7⟩)) 1)
      (.op (.put (some 396) (some 9) (some 8192) none), .errno none)
      (reserved (((List.replicate 32 none).set 31 (some ⟨136, 7⟩)).set 0 (some ⟨396, 9⟩)) 2) :=
    callStep_put rfl (by decide) rfl
  have hpushed : CallStep numbers
      (reserved (((List.replicate 32 none).set 31 (some ⟨136, 7⟩)).set 0 (some ⟨396, 9⟩)) 2)
      (.op (.put (some 40) (some 7) (some 8192) none), .errno none)
      (reserved ((((List.replicate 32 none).set 31 (some ⟨136, 7⟩)).set 0 (some ⟨396, 9⟩)).set 1
        (some ⟨40, 7⟩)) 3) := callStep_put rfl (by decide) rfl
  have hgrown : CallStep numbers
      (reserved ((((List.replicate 32 none).set 31 (some ⟨136, 7⟩)).set 0 (some ⟨396, 9⟩)).set 1
        (some ⟨40, 7⟩)) 3)
      (.op (.reserve 40 (some 8192)), .errno none) crowded := callStep_reserve rfl (by decide) rfl
  have hget (key : Nat) (data : Option Nat)
      (hcall : crowded.call numbers (.get (some key)) = .ok (.data data, crowded)) :
      CallStep numbers crowded (.get (some key), .data data) crowded := ⟨⟨rfl, fun op heq => by cases heq⟩, hcall⟩
  rw [crowdedCalls]
  refine .next (.next ?_ ⟨hget 136 (some 7) rfl, trivial⟩) ⟨hget 1 none rfl, trivial⟩
  exact .next (.next (.next (.next (.next .start ⟨hreserve, rfl⟩) ⟨hlast, rfl⟩) ⟨hwraps, rfl⟩) ⟨hpushed, rfl⟩)
    ⟨hgrown, rfl⟩

theorem crowded_calls : CallRun numbers false false crowdedCalls crowded :=
  crowded_run.mono fun _ _ _ _ hstep => hstep.1

/-- What has been put is found, and the size is 3. -/
theorem answers_of_map_crowded : ∃ m keys, MapRun numbers.compare false crowdedCalls m ∧
    Assoc.Keys numbers.compare m keys ∧ crowded.base.size = keys.length :=
  answers_of_map numbers_lawful crowded_calls

/-- A call returns as long as the size of its table is defined: no assertion fails, no entry outside of the
table is read, and no function is missing. -/
theorem calls_return (hf : f.Lawful) (hrun : CallRun f keyDup keyFree hist p) (hserved : c.Served f p)
    (hdefined : c.Defined p) : ∃ a p', p.call f c = .ok (a, p') ∧ a ≠ .errno (some .addrnotavail) := by
  obtain ⟨hserving, -⟩ := hrun.simulates hf
  obtain ⟨a, p', hcall, hanswer, -⟩ := hserving.call hf hserved hdefined
  exact ⟨a, p', hcall, hanswer.ne_addrnotavail⟩

/-- Key 396 is removed, which moves 136 back over the end. -/
theorem calls_return_crowded :
    ∃ a p', crowded.call numbers (.op (.remove (some 396))) = .ok (a, p') ∧ a ≠ .errno (some .addrnotavail) := by
  have hserved : Call.Served numbers crowded (.op (.remove (some 396))) := by
    refine ⟨rfl, fun op heq => ?_⟩
    cases heq
    exact ⟨trivial, not_strands fun _ heq => (by cases heq)⟩
  exact calls_return numbers_lawful crowded_calls hserved trivial

end ManagedObject.Hashmap
