import ManagedObject.Hashmap.Cases
import ManagedObject.Lib.Run

/-!
# The region that the hook is told of

`on_realloc` is called with the address of the new table and `length_in_bytes`, on four paths. The region
of the last call starts at the table. Its length is twice the number of entries, and an entry takes sixteen
bytes: it covers the entries in the first eighth of the table.
-/

namespace ManagedObject.Hashmap

open Format Linear Lib Outcome

variable {K D : Type} {f : Functions K} {p p' : Process K D}

/-! ### Runs -/

inductive Op (K D : Type)
  | put (key : Option K) (data : Option D) (calloc : Option Nat) (dup : Option K)
  | remove (key : Option K)
  | reserve (capacity : Nat) (calloc : Option Nat)
  | clear
  | reset (calloc : Option Nat)
  | cleanup

def Process.step (f : Functions K) (p : Process K D) : Op K D → Except Fault (Process K D)
  | .put key data calloc dup => do
    let (_, p) ← p.put f key data calloc dup
    return p
  | .remove key => do
    let (_, p) ← p.remove f key
    return p
  | .reserve capacity calloc => do
    let (_, p) ← p.reserve f capacity calloc
    return p
  | .clear => return p.clear
  | .reset calloc => return (p.reset calloc).2
  | .cleanup => return p.cleanup

def Step (f : Functions K) (allowed : Process K D → Op K D → Prop) (p : Process K D) (op : Op K D)
    (p' : Process K D) : Prop :=
  allowed p op ∧ p.step f op = .ok p'

/-- A run from a map whose hook is installed right after `init`. -/
abbrev ProcessRun (f : Functions K) (allowed : Process K D → Op K D → Prop) (keyDup keyFree : Bool) :
    List (Op K D) → Process K D → Prop :=
  Run (fun _ => Step f allowed) (.init keyDup keyFree)

/-- A copy of a key has the hash of the key, and a reset gets its table. -/
def Op.Regular (f : Functions K) (p : Process K D) : Op K D → Prop
  | .put key _ _ dup => ∀ k k', key = some k → dup = some k' → f.hash k' = f.hash k
  | .reset calloc => p.base.tableSize = p.base.tableSizeInit ∨ calloc.isSome
  | _ => True

/-- The region of the last call of the hook. -/
def Process.region (p : Process K D) : Option Nat × Nat :=
  (p.reports.head?.map fun r => (r.newMem, r.lengthInBytes)).getD (none, 0)

/-- The region starts at the table and contains every byte of every entry in it, and it is `NULL` and 0
exactly when there is no table. -/
structure Process.Covered (p : Process K D) : Prop where
  start : p.region.1 = p.base.table.map Table.addr
  bytes : ∀ t i e, p.base.table = some t → t.entries[i]? = some (some e) → ∃ newMem, p.region.1 = some newMem ∧
    newMem ≤ t.addr + sizeofEntry * i ∧ t.addr + sizeofEntry * (i + 1) ≤ newMem + p.region.2
  null : p.region = (none, 0) ↔ p.base.table = none

/-! ### The invariants -/

structure Base.Sized (b : Base K D) : Prop where
  init : IsSize b.tableSizeInit ∨ b.tableSizeInit = 0 ∧ b.table = none ∧ b.size = 0
  none : b.table = none → b.tableSize = 0
  some : ∀ t, b.table = some t → IsSize b.tableSize ∧ t.entries.length = b.tableSize

structure Process.Ok (p : Process K D) : Prop where
  sized : p.base.Sized
  region : p.region = if p.base.onRealloc then (p.base.table.map Table.addr, 2 * p.base.tableSize) else (none, 0)

/-- No key is lost to the search: the size is at least the number of entries, and each is reached from its
home. -/
structure Process.Searchable (f : Functions K) (p : Process K D) : Prop where
  probed : Probed f p.base.tableSize p.base.size p.base.entries
  size : p.base.size ≤ 2 ^ 30

/-- A step keeps the first invariant, and a regular one keeps both. -/
structure Keeps (f : Functions K) (regular : Prop) (p p' : Process K D) : Prop where
  ok : p'.Ok
  searchable : regular → p.Searchable f → p'.Searchable f

variable {regular : Prop}

theorem Keeps.refl (hp : p.Ok) : Keeps f regular p p := ⟨hp, fun _ => id⟩

theorem Process.Searchable.of_base {b : Base K D} (hbase : p'.base = b)
    (hprobed : Probed f b.tableSize b.size b.entries) (hsize : b.size ≤ 2 ^ 30) : p'.Searchable f := by
  subst hbase
  exact ⟨hprobed, hsize⟩

structure Replaced (p p' : Process K D) (addr tableSize : Nat) (entries : List (Option (Entry K D))) : Prop where
  base : p'.base = { p.base with tableSize := tableSize, table := some ⟨addr, entries⟩ }
  reports : p'.reports = if p.base.onRealloc then
    ⟨some addr, wrap (tableSize * 2), some ⟨addr, entries⟩, addr :: p.blocks⟩ :: p.reports else p.reports

theorem Replaced.of_replaced (p : Process K D) (addr tableSize : Nat) (entries : List (Option (Entry K D))) :
    Replaced p (p.replaced addr tableSize entries) addr tableSize entries := ⟨rfl, rfl⟩

theorem Replaced.ok {addr tableSize : Nat} {entries : List (Option (Entry K D))}
    (h : Replaced p p' addr tableSize entries) (hp : p.Ok)
    (hinit : IsSize p.base.tableSizeInit) (hsize : IsSize tableSize) (hlength : entries.length = tableSize) : p'.Ok := by
  have hle := hsize.le
  constructor
  · rw [h.base]
    constructor
    · exact Or.inl hinit
    · intro htable
      cases htable
    · intro t htable
      cases htable
      exact ⟨hsize, hlength⟩
  · rw [Process.region, h.reports, h.base]
    cases honRealloc : p.base.onRealloc with
    | false =>
      have hregion := hp.region
      rw [honRealloc] at hregion
      exact hregion
    | true =>
      simp only [if_true, List.head?_cons, Option.map_some, Option.getD_some, wrap_of_lt
        (show tableSize * 2 < 2 ^ 64 by omega), Nat.mul_comm]

/-! ### Sizes and tables -/

theorem calcTableSize_ok {tableSizeInit size tableSize : Nat}
    (h : calcTableSize tableSizeInit size = .ok tableSize) : tableSize = tableSizeInit ∨ IsSize tableSize := by
  rw [calcTableSize] at h
  split at h
  · cases h
    exact Or.inl rfl
  · split at h
    · cases h
    · rw [shiftOne] at h
      split at h
      · rename_i hshift
        rw [Except.ok.injEq] at h
        exact Or.inr ⟨_, Nat.le_of_lt_succ hshift, h.symm⟩
      · cases h

theorem isSize_of_sizeMin {size tableSize : Nat} (h : calcTableSize sizeMin size = .ok tableSize) :
    IsSize tableSize := by
  rcases calcTableSize_ok h with rfl | hsize
  · exact ⟨5, by decide, rfl⟩
  · exact hsize

/-- The table has room for one more entry. -/
theorem size_lt_of_calcTableSize {tableSizeInit size tableSize : Nat} (hinit : tableSizeInit ≤ 2 ^ 30)
    (hsize : size ≤ 2 ^ 30) (h : calcTableSize tableSizeInit size = .ok tableSize) : size < 2 ^ 30 := by
  have hwrap : wrap (size + size / 3) = size + size / 3 := wrap_of_lt (by omega)
  rw [calcTableSize, hwrap] at h
  split at h
  · omega
  · split at h
    · cases h
    · rw [shiftOne] at h
      split at h
      · rename_i hshift
        by_contra hlarge
        have hmask : wrap (size + size / 3 + (2 ^ 64 - 1)) = size + size / 3 - 1 := by
          rw [wrap]
          omega
        rw [hmask] at hshift
        have hlog := Nat.lt_log2_self (n := size + size / 3 - 1)
        have hpow : 2 ^ (Nat.log2 (size + size / 3 - 1) + 1) ≤ 2 ^ 30 :=
          Nat.pow_le_pow_right (by decide) (by omega)
        omega
      · cases h

theorem Replaced.keeps {addr tableSize : Nat} {entries : List (Option (Entry K D))}
    (h : Replaced p p' addr tableSize entries) (hp : p.Ok) (hinit : IsSize p.base.tableSizeInit)
    (hsize : IsSize tableSize) (hroom : p.base.size ≤ tableSize)
    (hloop : rehashLoop f tableSize p.base.entries (List.replicate tableSize none) = .ok entries) :
    Keeps f regular p p' := by
  have hlength : entries.length = tableSize := by
    rw [length_rehashLoop hloop, List.length_replicate]
  constructor
  · exact h.ok hp hinit hsize hlength
  · intro _ hsearch
    have hcount := hsearch.probed.count
    have hempty : (List.replicate tableSize (none : Option (Entry K D))).length = tableSize :=
      List.length_replicate
    have hroom' : 0 + p.base.entries.countP (Option.any fun _ => true) ≤
        (List.replicate tableSize (none : Option (Entry K D))).length := by
      rw [hempty]
      omega
    have hprobed := (probed_replicate (f := f) (n := 0) (D := D) tableSize).rehash (by rwa [hempty]) hroom'
      (by rwa [hempty])
    rw [hempty, Nat.zero_add] at hprobed
    exact .of_base h.base ⟨hprobed.chained, hprobed.count.trans hcount⟩ hsearch.size

/-- A `put` computes the size of its table from a size. -/
theorem isSize_init_of_calc {n : Nat} (hp : p.Ok)
    (hcalc : calcTableSize p.base.tableSizeInit p.base.size = .ok n) :
    IsSize p.base.tableSizeInit ∧ IsSize n := by
  have hinit : IsSize p.base.tableSizeInit := by
    rcases hp.sized.init with hinit | ⟨hinit, -, hsize⟩
    · exact hinit
    · have hundefined : calcTableSize 0 0 = .error .undefined := by decide
      rw [hinit, hsize, hundefined] at hcalc
      cases hcalc
  refine ⟨hinit, ?_⟩
  rcases calcTableSize_ok hcalc with rfl | hsize
  · exact hinit
  · exact hsize

theorem Grown.keeps {calloc : Option Nat} {p₁ : Process K D} (hp : p.Ok) (h : Grown f p calloc p₁) :
    Keeps f regular p p₁ := by
  cases h with
  | same => exact .refl hp
  | replaced hcalc hlarger hcalloc hroom hloop =>
    obtain ⟨hinit, hsize⟩ := isSize_init_of_calc hp hcalc
    exact (Replaced.of_replaced p _ _ _).keeps hp hinit hsize hroom hloop

/-- The rehash of a `put` changes the table only. -/
theorem Grown.frame {calloc : Option Nat} {p₁ : Process K D} (h : Grown f p calloc p₁) :
    p₁.base.size = p.base.size ∧ p₁.freedKeys = p.freedKeys ∧ p₁.base.keyDup = p.base.keyDup ∧
      p₁.base.keyFree = p.base.keyFree := by
  cases h <;> exact ⟨rfl, rfl, rfl, rfl⟩

theorem Process.Ok.setEntries (hp : p.Ok) {entries : List (Option (Entry K D))} {size : Nat}
    (hlength : entries.length = p.base.tableSize) (hsize : p.base.table = none → size = 0)
    (hbase : p'.base = { p.base.setEntries entries with size := size }) (hreports : p'.reports = p.reports) :
    p'.Ok := by
  have hregion := hp.region
  constructor
  · rw [hbase]
    constructor
    · rcases hp.sized.init with hinit | ⟨hinit, htable, -⟩
      · exact Or.inl hinit
      · exact Or.inr ⟨hinit, by rw [Base.setEntries, htable]; rfl, hsize htable⟩
    · intro htable
      apply hp.sized.none
      rw [Base.setEntries, Option.map_eq_none_iff] at htable
      exact htable
    · intro t htable
      rw [Base.setEntries, Option.map_eq_some_iff] at htable
      obtain ⟨t', htable, rfl⟩ := htable
      exact ⟨(hp.sized.some t' htable).1, hlength⟩
  · rw [Process.region, hreports, hbase]
    dsimp only [Base.setEntries]
    rw [Option.map_map]
    exact hregion

theorem entries_setEntries {b : Base K D} (entries : List (Option (Entry K D))) {t : Table K D}
    (htable : b.table = some t) : (b.setEntries entries).entries = entries := by
  rw [Base.entries, Base.setEntries, htable]
  rfl

theorem clear_keeps (hp : p.Ok)
    (hbase : p'.base = { p.base.setEntries (List.replicate p.base.tableSize none) with size := 0 })
    (hreports : p'.reports = p.reports) : Keeps f regular p p' := by
  constructor
  · exact hp.setEntries List.length_replicate (fun _ => rfl) hbase hreports
  · intro _ _
    refine .of_base hbase ?_ (Nat.zero_le _)
    cases htable : p.base.table with
    | none =>
      have hnil : (p.base.setEntries (List.replicate p.base.tableSize none)).entries = [] := by
        rw [Base.entries, Base.setEntries, htable]
        rfl
      have hprobed : Probed f p.base.tableSize 0 ([] : List (Option (Entry K D))) := probed_nil
      rwa [← hnil] at hprobed
    | some t =>
      have hprobed : Probed f p.base.tableSize 0 (List.replicate p.base.tableSize (none : Option (Entry K D))) :=
        probed_replicate _
      rwa [← entries_setEntries (List.replicate p.base.tableSize none) htable] at hprobed

/-! ### Operations -/

theorem Process.Ok.clear (hp : p.Ok) : Keeps f regular p p.clear := by
  apply clear_keeps hp
  · rw [Process.clear]
    dsimp only
    rw [freeKeys_base]
    rfl
  · rw [Process.clear]
    exact freeKeys_reports

theorem Process.Ok.cleanup (hp : p.Ok) : Keeps f regular p p.cleanup := by
  constructor
  · constructor
    · exact ⟨Or.inr ⟨rfl, rfl, rfl⟩, fun _ => rfl, fun t htable => by cases htable⟩
    · have hregion := hp.region
      rw [Process.cleanup, Process.region]
      dsimp only
      rw [free_reports, report_reports, freeKeys_base, freeKeys_reports]
      cases honRealloc : p.base.onRealloc with
      | true => rfl
      | false =>
        rw [honRealloc] at hregion
        exact hregion
  · intro _ _
    exact ⟨probed_nil, Nat.zero_le _⟩

theorem Process.Ok.emptied (hp : p.Ok) : p.emptied.Ok := by
  constructor
  · refine ⟨?_, hp.sized.none, hp.sized.some⟩
    rcases hp.sized.init with hinit | ⟨hinit, htable, -⟩
    · exact Or.inl hinit
    · exact Or.inr ⟨hinit, htable, rfl⟩
  · rw [Process.region, Process.emptied]
    dsimp only
    rw [freeKeys_reports]
    exact hp.region

theorem Process.Ok.reset {calloc : Option Nat} (hp : p.Ok) :
    Keeps f (p.base.tableSize = p.base.tableSizeInit ∨ calloc.isSome) p (p.reset calloc).2 := by
  rw [reset_eq]
  split
  · rename_i hne
    have hinit : IsSize p.base.tableSizeInit := by
      rcases hp.sized.init with hinit | ⟨hinit, htable, -⟩
      · exact hinit
      · exact absurd ((hp.sized.none htable).trans hinit.symm) hne
    cases calloc with
    | none => exact ⟨hp.emptied, fun hregular => by simp [hne] at hregular⟩
    | some addr =>
      have hreplaced := Replaced.of_replaced p.emptied addr p.base.tableSizeInit
        (List.replicate p.base.tableSizeInit none)
      constructor
      · exact hreplaced.ok hp.emptied hinit hinit List.length_replicate
      · intro _ _
        exact .of_base hreplaced.base (probed_replicate _) (Nat.zero_le _)
  · exact clear_keeps hp rfl freeKeys_reports

theorem Process.Ok.setInit (hp : p.Ok) {n : Nat} (hn : IsSize n) :
    Process.Ok { p with base := { p.base with tableSizeInit := n } } :=
  ⟨⟨Or.inl hn, hp.sized.none, hp.sized.some⟩, hp.region⟩

theorem Process.Ok.reserve {capacity : Nat} {calloc : Option Nat} {r : Option Errno} (hp : p.Ok)
    (h : p.reserve f capacity calloc = .ok (r, p')) : Keeps f regular p p' := by
  obtain ⟨-, rfl⟩ | ⟨sizeInit, hcalc, -, hcases⟩ := reserve_cases h
  · exact .refl hp
  have hsize := isSize_of_sizeMin hcalc
  have hset := hp.setInit hsize
  rcases hcases with ⟨-, rfl⟩ | ⟨-, addr, entries, -, hroom, hloop, rfl⟩
  · exact ⟨hset, fun _ hsearch => ⟨hsearch.probed, hsearch.size⟩⟩
  · have hkeeps : Keeps f regular _ _ :=
      (Replaced.of_replaced _ addr sizeInit entries).keeps hset hsize hsize hroom hloop
    exact ⟨hkeeps.ok, fun hregular hsearch => hkeeps.searchable hregular ⟨hsearch.probed, hsearch.size⟩⟩

theorem Process.Ok.of_slot (hp : p.Ok) {i : Nat} (hi : i < p.base.entries.length) :
    ∃ t, p.base.table = some t ∧ IsSize p.base.tableSize ∧ p.base.entries.length = p.base.tableSize := by
  cases htable : p.base.table with
  | none =>
    rw [Base.entries, htable] at hi
    cases hi
  | some t =>
    obtain ⟨hsize, hlength⟩ := hp.sized.some t htable
    refine ⟨t, rfl, hsize, ?_⟩
    rwa [Base.entries, htable]

theorem Process.Ok.put {key : Option K} {data : Option D} {calloc : Option Nat} {dup : Option K}
    {r : Option Errno} (hp : p.Ok) (h : p.put f key data calloc dup = .ok (r, p')) :
    Keeps f (∀ k k', key = some k → dup = some k' → f.hash k' = f.hash k) p p' := by
  obtain ⟨-, rfl⟩ | ⟨k, d, p₁, rfl, rfl, hgrown, hput⟩ := put_cases h
  · exact .refl hp
  have hkeeps : ∀ regular, Keeps f regular p p₁ := fun _ => hgrown.keeps hp
  obtain ⟨-, rfl⟩ | ⟨-, i, k', hfind, hempty, hkey, rfl⟩ := hput
  · exact hkeeps _
  have hfind := Base.find_ok hfind
  have hlt : i < p₁.base.entries.length := (List.getElem?_eq_some_iff.mp hempty).1
  have hslot : slot p₁.base.entries i = none := by rw [slot, hempty]; rfl
  obtain ⟨t, htable, hsize, hlength⟩ := (hkeeps True).ok.of_slot hlt
  constructor
  · refine (hkeeps True).ok.setEntries ?_ ?_ rfl rfl
    · rw [List.length_set, hlength]
    · intro hnone
      rw [hnone] at htable
      cases htable
  · intro hregular hsearch
    have hsearch₁ := (hkeeps True).searchable trivial hsearch
    have hless : p₁.base.size < 2 ^ 30 := by
      obtain ⟨n, hcalc⟩ := calc_of_put h
      rw [hgrown.frame.1]
      exact size_lt_of_calcTableSize (isSize_init_of_calc hp hcalc).1.le hsearch.size hcalc
    have hwrap : wrap (p₁.base.size + 1) = p₁.base.size + 1 := wrap_of_lt (by omega)
    have hindex : calcIndex f p₁.base.tableSize k' = calcIndex f p₁.base.tableSize k := by
      split at hkey
      · rw [calcIndex, calcIndex, hregular k k' rfl hkey]
      · rw [Option.some.inj hkey]
    have hprobed := hsearch₁.probed
    rw [← hlength] at hfind hsize hindex hprobed
    have hreach := (reach_of_entryFind hsize hfind).2
    rw [← hindex] at hreach
    have hinsert := hprobed.insert (e := ⟨k', d⟩) hsize hlt hslot hreach
    have hentries := entries_setEntries (p₁.base.entries.set i (some ⟨k', d⟩)) htable
    rw [← hentries, hlength, ← hwrap] at hinsert
    refine .of_base rfl hinsert ?_
    dsimp only
    omega

theorem Process.Ok.remove {key : Option K} {data : Option D} (hp : p.Ok)
    (h : p.remove f key = .ok (data, p')) : Keeps f regular p p' := by
  obtain rfl | ⟨i, e, entries, he, hloop, hbase, -, -, hreports⟩ := remove_cases h
  · exact .refl hp
  obtain ⟨t, htable, hsize, hlength⟩ := hp.of_slot (lt_of_slot he)
  constructor
  · refine hp.setEntries ?_ ?_ hbase hreports
    · rw [length_removeLoop hloop, hlength]
    · intro hnone
      rw [hnone] at htable
      cases htable
  · intro _ hsearch
    have hprobed := hsearch.probed
    have hcount : 0 < p.base.entries.countP (Option.any fun _ => true) := by
      rw [List.countP_pos_iff]
      exact ⟨some e, List.mem_of_getElem? (slot_eq_some.mp he), rfl⟩
    have hle := hprobed.count
    have hsize' := hsearch.size
    have hwrap : wrap (p.base.size + (2 ^ 64 - 1)) = p.base.size - 1 := by
      rw [wrap]
      omega
    have hpred : p.base.size = p.base.size - 1 + 1 := by omega
    rw [hwrap] at hloop hbase
    rw [← hlength] at hloop hprobed hsize
    rw [hpred] at hprobed
    obtain ⟨entries', hloop', -, hremove⟩ := hprobed.remove hsize he
    rw [hloop] at hloop'
    cases hloop'
    have hentries := entries_setEntries entries htable
    rw [← hentries, hlength] at hremove
    refine .of_base hbase hremove ?_
    dsimp only
    omega

theorem step_keeps {op : Op K D} (hp : p.Ok) (h : p.step f op = .ok p') : Keeps f (op.Regular f p) p p' := by
  cases op with
  | put key data calloc dup =>
    obtain ⟨⟨r, p₁⟩, hput, h⟩ := bind_eq_ok h
    cases h
    exact hp.put hput
  | remove key =>
    obtain ⟨⟨data, p₁⟩, hremove, h⟩ := bind_eq_ok h
    cases h
    exact hp.remove hremove
  | reserve capacity calloc =>
    obtain ⟨⟨r, p₁⟩, hreserve, h⟩ := bind_eq_ok h
    cases h
    exact hp.reserve hreserve
  | clear =>
    cases h
    exact hp.clear
  | reset calloc =>
    cases h
    exact hp.reset
  | cleanup =>
    cases h
    exact hp.cleanup

/-! ### Runs -/

variable {keyDup keyFree : Bool} {hist : List (Op K D)} {allowed : Process K D → Op K D → Prop}

theorem init_ok : (Process.init keyDup keyFree : Process K D).Ok := by
  constructor
  · exact ⟨Or.inl ⟨7, by decide, rfl⟩, fun _ => rfl, fun t htable => by cases htable⟩
  · rfl

theorem ProcessRun.ok (hrun : ProcessRun f allowed keyDup keyFree hist p) : p.Ok := by
  apply hrun.invariant fun _ p => p.Ok
  · exact init_ok
  · intro hist p op p' hp hstep
    exact (step_keeps hp hstep.2).ok

theorem ProcessRun.searchable (hrun : ProcessRun f (Op.Regular f) keyDup keyFree hist p) :
    p.Searchable f := by
  have hinv : p.Ok ∧ p.Searchable f := by
    apply hrun.invariant fun _ p => p.Ok ∧ p.Searchable f
    · exact ⟨init_ok, probed_nil, Nat.zero_le _⟩
    · intro hist p op p' hp hstep
      have hkeeps := step_keeps hp.1 hstep.2
      exact ⟨hkeeps.ok, hkeeps.searchable hstep.1 hp.2⟩
  exact hinv.2

/-- The hook is still there, or there is no table to report. -/
def Process.Hooked (p : Process K D) : Prop := p.base.onRealloc = true ∨ p.base.table = none

/-- Every entry lies in the first eighth of the table. -/
def Process.Low (p : Process K D) : Prop :=
  ∀ i e, p.base.entries[i]? = some (some e) → 8 * (i + 1) ≤ p.base.tableSize

/-- The first eighth of the table has room, from each slot of it on, for the entries whose index is there
or later. -/
def Process.Room (f : Functions K) (p : Process K D) : Prop :=
  ∀ k ≤ p.base.tableSize / 8, p.base.entries.countP
    (Option.any fun e => decide (k ≤ calcIndex f p.base.tableSize e.key)) + k ≤ p.base.tableSize / 8

theorem Process.Ok.covered_iff (hp : p.Ok) : p.Covered ↔ p.Hooked ∧ p.Low := by
  have hregion := hp.region
  cases htable : p.base.table with
  | none =>
    have hnone : p.region = (none, 0) := by
      rw [hregion, htable, hp.sized.none htable]
      split <;> rfl
    have hlow : p.Low := by
      intro i e he
      rw [Base.entries, htable] at he
      cases he
    have hcovered : p.Covered := by
      refine ⟨by rw [hnone, htable]; rfl, fun t i e ht => ?_, by simp [hnone, htable]⟩
      rw [htable] at ht
      cases ht
    exact ⟨fun _ => ⟨Or.inr htable, hlow⟩, fun _ => hcovered⟩
  | some t =>
    have hentries : p.base.entries = t.entries := by rw [Base.entries, htable]; rfl
    rw [htable] at hregion
    cases honRealloc : p.base.onRealloc with
    | false =>
      rw [honRealloc, if_neg Bool.false_ne_true] at hregion
      constructor
      · intro hcovered
        have hstart := hcovered.start
        rw [hregion, htable] at hstart
        cases hstart
      · intro h
        obtain ⟨hhooked, _⟩ := h
        simp [Process.Hooked, honRealloc, htable] at hhooked
    | true =>
      rw [honRealloc, if_pos rfl] at hregion
      constructor
      · intro hcovered
        refine ⟨Or.inl honRealloc, fun i e he => ?_⟩
        rw [hentries] at he
        obtain ⟨newMem, hstart, -, hend⟩ := hcovered.bytes t i e htable he
        rw [hregion] at hstart hend
        cases hstart
        dsimp only [sizeofEntry] at hend
        omega
      · intro h
        obtain ⟨_, hlow⟩ := h
        refine ⟨by rw [hregion, htable], fun t' i e ht he => ?_, by simp [hregion, htable]⟩
        rw [htable] at ht
        cases ht
        have hi := hlow i e (by rwa [hentries])
        rw [hregion]
        refine ⟨t.addr, rfl, ?_, ?_⟩
        · omega
        · dsimp only [sizeofEntry]
          omega

theorem Process.Searchable.low_iff (hsearch : p.Searchable f) (hp : p.Ok) : p.Low ↔ p.Room f := by
  have hlow : p.Low ↔ ∀ i e, slot p.base.entries i = some e → i < p.base.tableSize / 8 := by
    constructor
    · intro h i e he
      have := h i e (slot_eq_some.mp he)
      omega
    · intro h i e he
      have := h i e (slot_eq_some.mpr he)
      omega
  rw [hlow]
  cases htable : p.base.table with
  | none =>
    have hentries : p.base.entries = [] := by rw [Base.entries, htable]; rfl
    rw [Process.Room, hentries, hp.sized.none htable]
    constructor
    · intro _ k hk
      simpa using hk
    · intro _ i e he
      cases he
  | some t =>
    obtain ⟨hsize, hlength⟩ := hp.sized.some t htable
    have hentries : p.base.entries = t.entries := by rw [Base.entries, htable]; rfl
    have hlength : p.base.entries.length = p.base.tableSize := by rw [hentries, hlength]
    have hpos := hsize.pos
    obtain ⟨c, hchained⟩ := hsearch.probed.chained
    rw [← hlength] at hchained hsize hpos
    have hiff := hchained.slots_lt_iff (m := p.base.tableSize / 8) (home_lt hsize) (by omega)
    rw [hlength] at hiff
    exact hiff

/-- The reported region is right if and only if the hook has not been given up and every entry lies in the
first eighth of the table. As long as no reset fails, this depends on the indexes of the keys only. -/
theorem region_covers_iff (hrun : ProcessRun f (fun _ _ => True) keyDup keyFree hist p) :
    (p.Covered ↔ p.Hooked ∧ p.Low) ∧
      (ProcessRun f (Op.Regular f) keyDup keyFree hist p → (p.Covered ↔ p.Hooked ∧ p.Room f)) := by
  have hcovered := hrun.ok.covered_iff
  refine ⟨hcovered, fun hregular => ?_⟩
  rw [hcovered, hregular.searchable.low_iff hregular.ok]

/-- Keys that are numbers. -/
def numbers : Functions Nat := ⟨BitVec.ofNat 64, fun a b => a = b⟩

/-- The map after the first `put` of a key, with the table at 4096. -/
def oneEntry (i key : Nat) : Process Nat Nat where
  base := {
    tableSizeInit := 128, tableSize := 128, size := 1,
    table := some ⟨4096, (List.replicate 128 none).set i (some ⟨key, 7⟩)⟩, functions := true,
    keyDup := false, keyFree := false, onRealloc := true }
  blocks := [4096]
  freedKeys := []
  reports := [⟨some 4096, 256, some ⟨4096, List.replicate 128 none⟩, [4096]⟩]

theorem oneEntry_run {i key : Nat} (h : (Process.init false false : Process Nat Nat).step numbers
    (.put (some key) (some 7) (some 4096) none) = .ok (oneEntry i key)) :
    ProcessRun numbers (fun _ _ => True) false false [.put (some key) (some 7) (some 4096) none]
      (oneEntry i key) := Run.start.next ⟨trivial, h⟩

theorem region_covers_iff_thirteen :
    ((oneEntry 10 13).Covered ↔ (oneEntry 10 13).Hooked ∧ (oneEntry 10 13).Low) ∧
      (ProcessRun numbers (Op.Regular numbers) false false [.put (some 13) (some 7) (some 4096) none]
        (oneEntry 10 13) →
        ((oneEntry 10 13).Covered ↔ (oneEntry 10 13).Hooked ∧ (oneEntry 10 13).Room numbers)) :=
  region_covers_iff (oneEntry_run rfl)

/-- A key whose index is 33 is stored beyond the 256 bytes that are reported of the 2048 of the table. -/
theorem entry_outside_region :
    ∃ p : Process Nat Nat,
      ProcessRun numbers (fun _ _ => True) false false [.put (some 1) (some 7) (some 4096) none] p ∧
      p.region = (some 4096, 256) ∧ p.base.entries[33]? = some (some ⟨1, 7⟩) ∧ ¬ p.Covered := by
  refine ⟨oneEntry 33 1, oneEntry_run rfl, rfl, rfl, ?_⟩
  intro hcovered
  obtain ⟨newMem, hstart, -, hend⟩ := hcovered.bytes _ 33 ⟨1, 7⟩ rfl rfl
  have hend : 4096 + 16 * 34 ≤ newMem + 256 := hend
  cases hstart
  exact absurd hend (by decide)

end ManagedObject.Hashmap
