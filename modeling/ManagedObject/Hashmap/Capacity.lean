import Mathlib.Data.Fintype.EquivFin
import ManagedObject.Hashmap.Refinement

/-!
# Capacity

After a `reserve` the table has room for as many entries as were asked for: no `put` replaces it, and none
needs memory for it. Where memory is given whenever it is asked for, at most one entry more than three quarters
of the table are in use.
-/

namespace ManagedObject.Hashmap

open Format Linear Lib Outcome

variable {K D : Type} {f : Functions K} {p p' p₁ q : Process K D} {keyDup keyFree : Bool}
  {calloc : Option Nat} {data : Option D} {key dup : Option K} {k : K} {d : D} {r : Option Errno}
  {c : Call K D} {a : Answer D} {capacity n : Nat} {hist hist' : List (Call K D × Answer D)}

/-- The size that `reserve` computes is enough for the capacity. -/
theorem calcTableSize_le {tableSizeInit size : Nat} (hwrap : capacity + capacity / 3 < 2 ^ 64)
    (hinit : calcTableSize sizeMin capacity = .ok tableSizeInit) (hsize : size ≤ capacity)
    (hcalc : calcTableSize tableSizeInit size = .ok n) : n ≤ tableSizeInit := by
  have hcapacity : wrap (capacity + capacity / 3) = capacity + capacity / 3 := wrap_of_lt hwrap
  have hless : wrap (size + size / 3) = size + size / 3 := wrap_of_lt (by omega)
  have hmask : ∀ x, 0 < x → x < 2 ^ 64 → wrap (x + (2 ^ 64 - 1)) = x - 1 := by
    intro x hpos hlt
    rw [wrap]
    omega
  have hmin : sizeMin = 32 := rfl
  rw [calcTableSize, hcapacity] at hinit
  rw [calcTableSize, hless] at hcalc
  split at hcalc
  · cases hcalc
    exact Nat.le_refl _
  rename_i hlarge
  split at hinit
  · -- the capacity fits the smallest table
    cases hinit
    omega
  split at hinit
  · cases hinit
  rw [hmask _ (by omega) hwrap] at hinit
  have hlog := Nat.lt_log2_self (n := capacity + capacity / 3 - 1)
  rw [shiftOne] at hinit
  split at hinit
  · rename_i hshift
    cases hinit
    -- only the capacity itself asks for the whole table
    have hsame : size + size / 3 = capacity + capacity / 3 := by omega
    rw [hsame, hmask _ (by omega) hwrap] at hcalc
    split at hcalc
    · cases hcalc
    · rw [shiftOne, if_pos hshift] at hcalc
      cases hcalc
      exact Nat.le_refl _
  · cases hinit

/-- The table stays where it is, and nothing is allocated or freed for it. -/
structure Unmoved (p p' : Process K D) : Prop where
  address : p'.address = p.address
  tableSize : p'.base.tableSize = p.base.tableSize
  init : p'.base.tableSizeInit = p.base.tableSizeInit
  blocks : p'.blocks = p.blocks
  reports : p'.reports = p.reports

theorem Unmoved.refl (p : Process K D) : Unmoved p p := ⟨rfl, rfl, rfl, rfl, rfl⟩

theorem Unmoved.trans (h : Unmoved p p₁) (h' : Unmoved p₁ p') : Unmoved p p' where
  address := h'.address.trans h.address
  tableSize := h'.tableSize.trans h.tableSize
  init := h'.init.trans h.init
  blocks := h'.blocks.trans h.blocks
  reports := h'.reports.trans h.reports

theorem Unmoved.of_setEntries {entries : List (Option (Entry K D))} {size : Nat}
    (hbase : p'.base = { p.base.setEntries entries with size := size }) (hblocks : p'.blocks = p.blocks)
    (hreports : p'.reports = p.reports) : Unmoved p p' where
  address := by
    rw [Process.address, hbase, Base.setEntries, Option.map_map]
    rfl
  tableSize := by rw [hbase]; rfl
  init := by rw [hbase]; rfl
  blocks := hblocks
  reports := hreports

/-! ### Reserved capacity -/

/-- A `put` into a map of this size does not replace the table. -/
def Roomy (p : Process K D) (size : Nat) : Prop :=
  ∀ n, calcTableSize p.base.tableSizeInit size = .ok n → n ≤ p.base.tableSize

theorem Roomy.of_unmoved {size : Nat} (h : Roomy p size) (hsame : Unmoved p p') : Roomy p' size := by
  rw [Roomy, hsame.init, hsame.tableSize]
  exact h

theorem Grown.eq_of_roomy (hroomy : Roomy p p.base.size) (h : Grown f p calloc p₁) : p₁ = p := by
  cases h with
  | same => rfl
  | replaced hcalc hlarger =>
    have := hroomy _ hcalc
    omega

theorem put_unmoved (hroomy : Roomy p p.base.size) (h : p.put f key data calloc dup = .ok (r, p')) :
    Unmoved p p' := by
  rcases put_cases h with ⟨-, rfl⟩ | ⟨k, d, p₁, rfl, rfl, hgrown, hrest⟩
  · exact .refl _
  have hsame := hgrown.eq_of_roomy hroomy
  subst hsame
  rcases hrest with ⟨-, rfl⟩ | ⟨-, i, k', -, -, -, rfl⟩
  · exact .refl _
  · exact .of_setEntries rfl rfl rfl

/-- Such a `put` does not depend on the memory for a table. -/
theorem put_calloc (hroomy : Roomy p p.base.size) (calloc' : Option Nat) :
    p.put f key data calloc dup = p.put f key data calloc' dup := by
  cases key with
  | none => rfl
  | some k =>
    cases data with
    | none => rfl
    | some d =>
      unfold Process.put
      cases hcalc : calcTableSize p.base.tableSizeInit p.base.size with
      | error e => rfl
      | ok n =>
        have hle := hroomy n hcalc
        simp only [ok_bind, if_neg (Nat.not_lt.mpr hle)]

theorem remove_unmoved (h : p.remove f key = .ok (data, p')) : Unmoved p p' := by
  obtain rfl | ⟨i, e, entries, -, -, hbase, -, hblocks, hreports⟩ := remove_cases h
  · exact .refl _
  · exact .of_setEntries hbase hblocks hreports

theorem clear_unmoved : Unmoved p p.clear := by
  have hbase : p.clear.base = { p.base.setEntries (List.replicate p.base.tableSize none) with size := 0 } := by
    rw [Process.clear]
    dsimp only
    rw [freeKeys_base]
    rfl
  exact .of_setEntries hbase freeKeys_blocks freeKeys_reports

/-- What a client does with its capacity: it puts entries while there are not more than were asked for, and
looks up and removes them. -/
def Call.Within (capacity : Nat) (p : Process K D) : Call K D → Prop
  | .op (.put _ _ _ _) => p.base.size ≤ capacity
  | .op (.remove _) | .op .clear | .get _ => True
  | _ => False

/-- The answer is not that of an allocation, except of a key. -/
def Spared (keyDup : Bool) (event : Call K D × Answer D) : Prop :=
  event.2 = .errno (some .nomem) → keyDup = true ∧ ∃ k d calloc, event.1 = .op (.put (some k) (some d) calloc none)

/-- Memory that is not in use. -/
theorem exists_fresh (p : Process K D) : ∃ addr, addr ∉ p.blocks := by
  obtain ⟨addr, hfresh⟩ := Infinite.exists_notMem_finset p.blocks.toFinset
  exact ⟨addr, fun hmem => hfresh (List.mem_toFinset.mpr hmem)⟩

theorem Serving.put_spared (hf : f.Lawful) (h : Serving f keyDup p) (hfunctions : p.base.functions = true)
    (hop : (Op.put key data calloc dup).Provided f p) (hroomy : Roomy p p.base.size)
    (hput : p.put f key data calloc dup = .ok (r, p')) :
    Spared keyDup (.op (.put key data calloc dup), (.errno r : Answer D)) := by
  obtain ⟨addr, hfresh⟩ := exists_fresh p
  rw [put_calloc hroomy (some addr)] at hput
  have hserved : Call.Served f p (.op (.put key data (some addr) dup)) := by
    refine ⟨hfunctions, fun op heq => ?_⟩
    cases heq
    refine ⟨⟨fun addr' heq => ?_, hop.2⟩, not_strands fun _ heq => (by cases heq)⟩
    cases heq
    exact hfresh
  have hcall : p.call f (.op (.put key data (some addr) dup)) = .ok (.errno r, p') := by
    unfold Process.call
    simp only [hput, ok_bind]
    rfl
  obtain ⟨a, p₁, hcall', hanswer, -⟩ := h.call hf hserved (defined_of_call hcall)
  rw [hcall] at hcall'
  cases hcall'
  intro hr
  cases hr
  generalize hm' : p'.view f = m' at hanswer
  cases hanswer with
  | @nomem k d _ _ _ halloc =>
    rcases halloc with hcalloc | ⟨hkeyDup, rfl⟩
    · cases hcalloc
    · exact ⟨hkeyDup, k, d, calloc, rfl⟩

/-- A call within the capacity leaves the table where it is. -/
theorem Serving.within (hf : f.Lawful) (h : Serving f keyDup p) (hserved : c.Served f p)
    (hwithin : c.Within capacity p) (hroomy : ∀ size ≤ capacity, Roomy p size) (hcall : p.call f c = .ok (a, p')) :
    Unmoved p p' ∧ Spared keyDup (c, a) := by
  cases c with
  | get key =>
    obtain ⟨x, -, hcall⟩ := bind_eq_ok hcall
    cases hcall
    exact ⟨.refl _, fun hr => by cases hr⟩
  | op op =>
    cases op with
    | put key data calloc dup =>
      obtain ⟨x, hput, hcall⟩ := bind_eq_ok hcall
      cases hcall
      have hroomy := hroomy _ hwithin
      exact ⟨put_unmoved hroomy hput, h.put_spared hf hserved.functions (hserved.granted _ rfl).1 hroomy hput⟩
    | remove key =>
      obtain ⟨x, hremove, hcall⟩ := bind_eq_ok hcall
      cases hcall
      exact ⟨remove_unmoved hremove, fun hr => by cases hr⟩
    | clear =>
      cases hcall
      exact ⟨clear_unmoved, fun hr => by cases hr⟩
    | reserve capacity calloc => exact hwithin.elim
    | reset calloc => exact hwithin.elim
    | cleanup => exact hwithin.elim

/-- The calls of a client that keeps to its capacity. -/
abbrev CapacityRun (f : Functions K) (capacity : Nat) (p : Process K D) :
    List (Call K D × Answer D) → Process K D → Prop :=
  Run (fun _ p event p' => CallStep f p event p' ∧ event.1.Within capacity p) p

/-- After a `reserve` that succeeds, a client that keeps to the capacity never has its table replaced: the hook
is not called, nothing is allocated or freed but keys, and only a failed copy of a key makes a `put` fail for
want of memory. -/
theorem reserve_suffices (hf : f.Lawful) (hrun : CallRun f keyDup keyFree hist q)
    (hcapacity : capacity + capacity / 3 < 2 ^ 64)
    (hreserve : CallStep f q (.op (.reserve capacity calloc), .errno none) p)
    (hcalls : CapacityRun f capacity p hist' p') :
    Unmoved p p' ∧ ∀ event ∈ hist', Spared keyDup event := by
  have hrun' : CallRun f keyDup keyFree ((.op (.reserve capacity calloc), .errno none) :: hist) p :=
    hrun.next hreserve
  obtain ⟨hserving, -⟩ := hrun'.simulates hf
  have hroomy : ∀ size ≤ capacity, Roomy p size := by
    obtain ⟨x, hok, hcall⟩ := bind_eq_ok hreserve.2
    obtain ⟨r, p₁⟩ := x
    cases hcall
    intro size hsize n hcalc
    rcases reserve_cases hok with ⟨hr, -⟩ | ⟨init, hinit, -, ⟨hle, hp⟩ | ⟨-, addr, entries, -, -, -, hp⟩⟩
    · cases hr
    · rw [hp] at hcalc ⊢
      exact (calcTableSize_le hcapacity hinit hsize hcalc).trans hle
    · rw [hp] at hcalc ⊢
      exact calcTableSize_le hcapacity hinit hsize hcalc
  have hinv : Serving f keyDup p' ∧ Unmoved p p' ∧ ∀ event ∈ hist', Spared keyDup event := by
    apply hcalls.invariant fun hist' p' => Serving f keyDup p' ∧ Unmoved p p' ∧ ∀ event ∈ hist', Spared keyDup event
    · exact ⟨hserving, .refl p, fun event hmem => by cases hmem⟩
    · intro hist' p₁ event p' h hstep
      obtain ⟨hserving₁, hsame, hspared⟩ := h
      obtain ⟨hcall, hwithin⟩ := hstep
      obtain ⟨hsame', hevent⟩ := hserving₁.within hf hcall.1 hwithin
        (fun size hsize => (hroomy size hsize).of_unmoved hsame) hcall.2
      refine ⟨(hserving₁.step hf hcall).1, hsame.trans hsame', fun event' hmem => ?_⟩
      rcases List.mem_cons.mp hmem with rfl | hmem
      · exact hevent
      · exact hspared event' hmem
  exact hinv.2

/-- A key is put into it, when there is no memory any more. -/
theorem reserve_suffices_ten :
    Unmoved (reserved (List.replicate 32 none) 0) (reserved ((List.replicate 32 none).set 1 (some ⟨1, 7⟩)) 1) ∧
      ∀ event ∈ [((.op (.put (some 1) (some 7) none none), .errno none) : Call Nat Nat × Answer Nat)],
        Spared false event := by
  have hinit : CallRun numbers false false [] (.init false false : Process Nat Nat) := Run.start
  have hreserve : CallStep numbers (.init false false) (.op (.reserve 10 (some 4096)), .errno none)
      (reserved (List.replicate 32 none) 0) := callStep_reserve rfl List.not_mem_nil rfl
  have hput : CallStep numbers (reserved (List.replicate 32 none) 0)
      (.op (.put (some 1) (some 7) none none), .errno none)
      (reserved ((List.replicate 32 none).set 1 (some ⟨1, 7⟩)) 1) := by
    refine ⟨⟨rfl, fun op heq => ?_⟩, rfl⟩
    cases heq
    exact ⟨⟨fun addr hcalloc => (by cases hcalloc), fun k k' _ hdup => (by cases hdup)⟩,
      not_strands fun _ heq => (by cases heq)⟩
  exact reserve_suffices numbers_lawful hinit (by decide) hreserve
    (Run.start.next ⟨hput, Nat.zero_le 10⟩)

/-! ### The load -/

/-- At most one entry more than three quarters of the table are in use, and a slot is empty. -/
structure Process.Loaded (p : Process K D) : Prop where
  quarters : 4 * p.base.size ≤ 3 * p.base.tableSize + 4
  empty : p.base.size = 0 ∨ p.base.size < p.base.tableSize

theorem IsSize.four_dvd (hn : IsSize n) (hmin : sizeMin ≤ n) : 4 ∣ n := by
  obtain ⟨b, -, rfl⟩ := hn
  have hb : 2 ≤ b := by
    by_contra hless
    have hle : 2 ^ b ≤ 2 ^ 2 := Nat.pow_le_pow_right (by decide) (by omega)
    have hmin' : 32 ≤ 2 ^ b := hmin
    omega
  exact Nat.pow_dvd_pow 2 hb

/-- A `put` that gets its memory leaves room: the table has the size that was computed, at least. -/
theorem Serving.put_room (hf : f.Lawful) (h : Serving f keyDup p) (hfunctions : p.base.functions = true)
    {addr : Nat} (hfresh : addr ∉ p.blocks) (hput : p.put f (some k) (some d) (some addr) dup = .ok (r, p')) :
    ∃ n, calcTableSize p.base.tableSizeInit p.base.size = .ok n ∧ n ≤ p'.base.tableSize ∧
      p'.base.size ≤ p.base.size + 1 := by
  obtain ⟨n, hcalc⟩ := calc_of_put hput
  obtain ⟨r₁, p₁, hgrow, hgrown, hr⟩ := h.grow hfunctions hcalc (some addr)
  have htidy := (hgrown.tidy hf h.tidy fun _ heq => by cases heq; exact hfresh).1
  have hle : n ≤ p₁.base.tableSize := by
    rcases hr with ⟨-, hle⟩ | ⟨-, hnone, -⟩
    · exact hle
    · cases hnone
  have hsize := hgrown.frame.1
  have hwrap : wrap (p₁.base.size + 1) ≤ p₁.base.size + 1 := Nat.mod_le _ _
  refine ⟨n, hcalc, ?_⟩
  obtain ⟨found, hfind, -⟩ := htidy.find hf (hgrown.sameFunctions.functions.trans hfunctions) k true
  unfold Process.put at hput
  simp only [hcalc, ok_bind, hgrow, hfind] at hput
  rw [← hsize]
  cases found with
  | none =>
    cases hput
    exact ⟨hle, Nat.le_succ _⟩
  | some i =>
    simp only at hput
    split at hput
    · cases hput
    · cases hput
      exact ⟨hle, Nat.le_succ _⟩
    · split at hput
      · cases hput
        exact ⟨hle, Nat.le_succ _⟩
      · cases hput
        exact ⟨hle, hwrap⟩

theorem Process.Loaded.of_le (h : p.Loaded) (hsize : p'.base.size ≤ p.base.size)
    (htable : p.base.tableSize ≤ p'.base.tableSize) : p'.Loaded := by
  have hquarters := h.quarters
  have hempty := h.empty
  constructor <;> omega

theorem loaded_of_empty (hsize : p.base.size = 0) : p.Loaded := by
  constructor <;> omega

/-- The load after a call that gets its memory. -/
theorem Serving.loaded (hf : f.Lawful) (h : Serving f keyDup p) (hload : p.Loaded) (hserved : c.Served f p)
    (halloc : c.Allocated) (hcall : p.call f c = .ok (a, p')) : p'.Loaded := by
  cases c with
  | get key =>
    obtain ⟨x, -, hcall⟩ := bind_eq_ok hcall
    cases hcall
    exact hload
  | op op =>
    cases op with
    | put key data calloc dup =>
      obtain ⟨x, hput, hcall⟩ := bind_eq_ok hcall
      obtain ⟨r, p₁⟩ := x
      cases hcall
      rcases put_cases hput with ⟨-, rfl⟩ | ⟨k, d, -, rfl, rfl, -⟩
      · exact hload
      obtain ⟨addr, rfl⟩ := Option.isSome_iff_exists.mp halloc
      obtain ⟨n, hcalc, hle, hsize⟩ := h.put_room hf hserved.functions ((hserved.granted _ rfl).1.1 addr rfl) hput
      obtain ⟨hinit, hroom, -⟩ := room_of_calcTableSize (h.init hserved.functions) h.tidy.searchable.size hcalc
      have hmin := (h.init hserved.functions).trans hinit
      have hdvd := (isSize_init_of_calc h.tidy.ok hcalc).2.four_dvd hmin
      rw [sizeMin] at hmin
      constructor <;> omega
    | remove key =>
      obtain ⟨x, hremove, hcall⟩ := bind_eq_ok hcall
      obtain ⟨data, p₁⟩ := x
      cases hcall
      refine hload.of_le ?_ (remove_unmoved hremove).tableSize.ge
      rcases remove_cases hremove with rfl | ⟨i, e, entries, he, hloop, hbase, -⟩
      · exact Nat.le_refl _
      · have := (h.tidy.ok.remove_perm h.tidy.size he hloop hbase).2
        omega
    | reserve capacity calloc =>
      obtain ⟨x, hreserve, hcall⟩ := bind_eq_ok hcall
      obtain ⟨r, p₁⟩ := x
      cases hcall
      rcases reserve_cases hreserve with ⟨-, rfl⟩ |
        ⟨init, -, -, ⟨-, rfl⟩ | ⟨hlarger, addr, entries, -, -, -, rfl⟩⟩
      · exact hload
      · exact hload.of_le (Nat.le_refl _) (Nat.le_refl _)
      · exact hload.of_le (Nat.le_refl _) (Nat.le_of_lt hlarger)
    | clear =>
      cases hcall
      exact loaded_of_empty rfl
    | reset calloc =>
      cases hcall
      apply loaded_of_empty
      rw [reset_eq]
      split
      · cases calloc with
        | none => rfl
        | some addr => rfl
      · rfl
    | cleanup =>
      cases hcall
      exact loaded_of_empty rfl

end ManagedObject.Hashmap
