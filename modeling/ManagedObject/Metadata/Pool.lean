import ManagedObject.Metadata.Stored

/-!
# Scanning a pool of bucket arrays

The arrays of any number of tables lie in memory, and `managed_obj_scan` goes over a region of them, keys and values
in any order, moves their references and lets weak ones die. It leaves the tables that their scans leave, one array
after the other, and an entry is still there if neither its key nor its value has died in an array of the region.
-/

namespace ManagedObject.Metadata

open Format Outcome Lib

variable {α ι : Type} [DecidableEq α] [DecidableEq ι] {W : World α} {sizeofLd deleted base fuel e : Nat} {mem : Memory}
  {site : ι → Part → Nat} {length : ι → Nat} {addr : ι → Part → α → Nat} {tables : ι → Machine α} {old new : α → Nat}
  {dead : α → Bool} {F : Fix} {m m' : Machine α} {p : Part} {t : ι} {s : Scan α} {b d : Buckets α}
  {arrays : List (ι × Part)}

def Part.other : Part → Part
  | .keys => .values
  | .values => .keys

theorem Part.eq_or_eq_other (q p : Part) : q = p ∨ q = p.other := by
  cases q <;> cases p <;> simp [Part.other]

/-- The arrays of the tables, where they are and where their references point to. -/
structure Pool (W : World α) (sizeofLd deleted : Nat) (site : ι → Part → Nat) (length : ι → Nat) (mem : Memory)
    (addr : ι → Part → α → Nat) (tables : ι → Machine α) : Prop where
  stored : ∀ t p, StoredAt sizeofLd mem (site t p) (fun _ => addr t p) ((tables t).part p)
  lengths : ∀ t p, ((tables t).part p).bucket.length = length t
  apart : ∀ t p t' p', (t, p) ≠ (t', p') →
    Separate (site t p) (sizeofBuckets (length t)) (site t' p') (sizeofBuckets (length t'))
  nonnull : ∀ t p, site t p ≠ null
  addresses : ∀ t p, Addresses W deleted (addr t p)

/-- A table that a run of calls and scans has led to. -/
def Reached (W : World α) (m : Machine α) : Prop :=
  ∃ sizeofLd now length weakKey weakValue start hist,
    makeTable W sizeofLd now length weakKey weakValue = .ok start ∧
      CallRun W (fun _ m c => Served W m c ∧ ScansSafe W m c) start hist m

def scanOf (F : Fix) (old : α → Nat) (dead : α → Bool) (m : Machine α) (p : Part) : Scan α where
  part := p
  fix1 x := F.fix1 (old x)
  dies i := (m.part p).bucket[i]?.any dead

/-- What the scan of an array relies on: its dependent, which may have moved, that only keys and values of entries
die in it, and only if it is weak, and that a `NULL` in it is not fixed. -/
structure Due (W : World α) (F : Fix) (old : α → Nat) (dead : α → Bool) (mem : Memory) (site : Part → Nat)
    (m : Machine α) (p : Part) : Prop where
  linked : word mem (site p) offsetofDependent ≠ null
  leads : Leads F (word mem (site p) offsetofDependent) (site p.other)
  weak : ∀ (i : Nat) x, (m.part p).bucket[i]? = some x → dead x = true →
    m.weak p = true ∧ ∃ k, m.tbl.keys.bucket[i]? = some k ∧ W.live k = true
  safe : W.null ∈ (m.part p).bucket → F.fix1 (old W.null) = false

/-- Where the references point to when some arrays have been scanned. -/
def relocated (addr : ι → Part → α → Nat) (arrays : List (ι × Part)) (new : α → Nat) (t : ι) (p : Part) : α → Nat :=
  if (t, p) ∈ arrays then new else addr t p

omit [DecidableEq α] in
theorem dies_scanOf {i : Nat} {x : α} (hx : (m.part p).bucket[i]? = some x) :
    (scanOf F old dead m p).dies i = dead x := by
  have hdies : (scanOf F old dead m p).dies i = (m.part p).bucket[i]?.any dead := rfl
  rw [hdies, hx, Option.any_some]

section
variable {loc : Part → Nat} (hF : Clears W deleted F old new dead) (hdue : Due W F old dead mem loc m p)
include hF hdue

theorem Due.fix2_eq {i : Nat} {x : α} (hx : (m.part p).bucket[i]? = some x) :
    fix2 W (m.weak p) (scanOf F old dead m p).dies i x = if dead x then W.null else x := by
  rw [fix2, dies_scanOf hx]
  cases hdead : dead x with
  | true =>
    rw [hF.managed x hdead, (hdue.weak i x hx hdead).1]
    rfl
  | false => rw [Bool.and_false]

end

/-- The table behind the scan of one of its arrays. -/
theorem scanTable_eq (h : scanBuckets W (m.weak s.part) s (m.part s.part) (m.part s.part.other) = .ok (b, d)) :
    ∃ m', scanTable W m s = .ok m' ∧ m'.part s.part = b ∧ m'.part s.part.other = d ∧ ∀ q, m'.weak q = m.weak q := by
  rw [scanTable]
  cases hpart : s.part with
  | keys =>
    rw [hpart] at h
    rw [show scanBuckets W m.tbl.weakKey s m.tbl.keys m.tbl.values = .ok (b, d) from h]
    exact ⟨_, rfl, rfl, rfl, fun q => by cases q <;> rfl⟩
  | values =>
    rw [hpart] at h
    rw [show scanBuckets W m.tbl.weakValue s m.tbl.values m.tbl.keys = .ok (b, d) from h]
    exact ⟨_, rfl, rfl, rfl, fun q => by cases q <;> rfl⟩

theorem ScanInv.scanned {n : Nat} (h : ScanInv W e m s n (b, d)) :
    b.bucket = cleared W (dying W m s) n (m.part s.part).bucket ∧
      d.bucket = cleared W (dying W m s) n (m.part s.part.other).bucket := by
  have hkeys := h.keys
  have hvalues := h.values
  cases hpart : s.part with
  | keys =>
    rw [hpart] at hkeys hvalues
    exact ⟨hkeys, hvalues⟩
  | values =>
    rw [hpart] at hkeys hvalues
    exact ⟨hvalues, hkeys⟩

theorem Reached.table (hW : W.Lawful) (htracked : W.Tracked) (h : Reached W m) : ∃ e, TableOk W e m := by
  obtain ⟨sizeofLd, now, length, weakKey, weakValue, start, hist, hmake, hrun⟩ := h
  exact hrun.table_ok hW htracked
    ((makeTable_meets hW sizeofLd now length weakKey weakValue).of_ok hmake).1.table

theorem Reached.scan (h : Reached W m) (hok : ScanOk W m s) (hsafe : NullSafe W m s)
    (hscan : scanTable W m s = .ok m') : Reached W m' := by
  obtain ⟨sizeofLd, now, length, weakKey, weakValue, start, hist, hmake, hrun⟩ := h
  have hcall : m.call W (.scan s) = .ok (.done, m') := by
    rw [Machine.call, hscan]
    rfl
  have hserved : Served W m (.scan s) ∧ ScansSafe W m (.scan s) := ⟨hok, hsafe⟩
  have hnext : CallRun W (fun _ m c => Served W m c ∧ ScansSafe W m c) start ((.scan s, .done) :: hist) m' :=
    hrun.next ⟨hserved, hcall⟩
  exact ⟨sizeofLd, now, length, weakKey, weakValue, start, _, hmake, hnext⟩

/-- Of memory, what the scan of an array relies on is the dependent of the array alone. -/
theorem Due.of_word {loc : Part → Nat} {q : Part} {mem' : Memory} (hdue : Due W F old dead mem loc m q)
    (hword : word mem' (loc q) offsetofDependent = word mem (loc q) offsetofDependent) :
    Due W F old dead mem' loc m q := by
  constructor
  · rw [hword]
    exact hdue.linked
  · rw [hword]
    exact hdue.leads
  · exact hdue.weak
  · exact hdue.safe

/-- What another array of the table relies on is left by a scan. -/
theorem Due.after {loc : Part → Nat} {q : Part} {mem' : Memory} (hF : Clears W deleted F old new dead)
    (hdue : Due W F old dead mem loc m q)
    (hword : word mem' (loc q) offsetofDependent = word mem (loc q) offsetofDependent)
    (hweak : m'.weak q = m.weak q)
    (hcleared : ∀ r, (m'.part r).bucket = cleared W (dying W m s) (2 ^ e) (m.part r).bucket) :
    Due W F old dead mem' loc m' q := by
  have hdeleted : W.deleted ≠ W.null := by
    intro heq
    exact hF.named (hF.target.deleted.symm.trans ((hF.target.null _).mpr heq))
  have hmoved := hdue.of_word hword
  refine ⟨hmoved.linked, hmoved.leads, ?_, ?_⟩
  · intro i x hx hdead
    rw [hcleared, getElem?_cleared, Option.map_eq_some_iff] at hx
    obtain ⟨y, hy, rfl⟩ := hx
    split at hdead
    · rw [hF.kept] at hdead
      cases hdead
    · rename_i hslot
      obtain ⟨hweak', k, hk, hlive⟩ := hdue.weak i y hy hdead
      refine ⟨hweak.trans hweak', k, ?_, hlive⟩
      have hkeys := hcleared .keys
      rw [show m'.tbl.keys.bucket = _ from hkeys, getElem?_cleared, show (m.part .keys).bucket[i]? = some k from hk,
        Option.map_some, if_neg hslot]
  · intro hnull
    rw [hcleared] at hnull
    obtain ⟨i, hi⟩ := List.mem_iff_getElem?.mp hnull
    rw [getElem?_cleared, Option.map_eq_some_iff] at hi
    obtain ⟨y, hy, hcase⟩ := hi
    split at hcase
    · exact absurd hcase hdeleted
    · subst hcase
      exact hdue.safe (List.mem_of_getElem? hy)

/-! ### One array of a pool -/

omit [DecidableEq α] in
theorem relocated_self : relocated addr [(t, p)] new t p = new := if_pos (List.mem_singleton.mpr rfl)

omit [DecidableEq α] in
theorem relocated_of_ne {t' : ι} {q : Part} (h : (t', q) ≠ (t, p)) : relocated addr [(t, p)] new t' q = addr t' q :=
  if_neg fun hmem => h (List.mem_singleton.mp hmem)

omit [DecidableEq α] [DecidableEq ι] in
/-- What an array of the pool is while another table is scanned. -/
theorem Pool.stored_frame {s s' : Format.Scan} {t' : ι} {q : Part}
    (h : Pool W sizeofLd deleted site length s.mem addr tables) (hne : t' ≠ t)
    (hrest : ∀ a, (a < site t p ∨ site t p + sizeofBuckets (length t) ≤ a) →
      (a < site t p.other ∨ site t p.other + sizeofBuckets (length t) ≤ a) → s'.mem a = s.mem a) :
    (∀ a, site t' q ≤ a → a < site t' q + sizeofBuckets (length t') → s'.mem a = s.mem a) ∧
      StoredAt sizeofLd s'.mem (site t' q) (fun _ => addr t' q) ((tables t').part q) := by
  have hsame : ∀ a, site t' q ≤ a → a < site t' q + sizeofBuckets (length t') → s'.mem a = s.mem a := by
    intro a hlow hhigh
    have hself := h.apart t' q t p fun heq => hne (congrArg Prod.fst heq)
    have hother := h.apart t' q t p.other fun heq => hne (congrArg Prod.fst heq)
    rw [Separate] at hself hother
    exact hrest a (by omega) (by omega)
  have hsize : 40 ≤ sizeofBuckets (length t') := Nat.le_add_right _ _
  refine ⟨hsame, (h.stored t' q).of_same (fun a hlow hhigh => hsame a hlow (by omega)) fun a hlow hhigh => ?_⟩
  rw [h.lengths t' q] at hhigh
  exact hsame a (by omega) hhigh

theorem Pool.scan {s : Format.Scan} (hF : Clears W deleted F old new dead)
    (h : Pool W sizeofLd deleted site length s.mem addr tables) (hold : addr t p = old)
    (hdue : Due W F old dead s.mem (site t) (tables t) p) :
    ∃ s' m', scanObject sizeofLd F deleted (site t p) s =
        .ok (site t p + (Block.buckets (length t)).size sizeofLd) s' ∧
      scanTable W (tables t) (scanOf F old dead (tables t) p) = .ok m' ∧ (∀ q, m'.weak q = (tables t).weak q) ∧
      Pool W sizeofLd deleted site length s'.mem (relocated addr [(t, p)] new) (Function.update tables t m') ∧
      (∀ t' q, (t', q) ≠ (t, p) →
        word s'.mem (site t' q) offsetofDependent = word s.mem (site t' q) offsetofDependent) ∧
      ∀ a, (∀ t p, a < site t p ∨ site t p + sizeofBuckets (length t) ≤ a) → s'.mem a = s.mem a := by
  have hdistinct : (t, p) ≠ (t, p.other) := by cases p <;> simp [Part.other]
  have hstored := h.stored t p
  rw [hold] at hstored
  obtain ⟨s', b, d, hrun, hscan, hdone⟩ := scanObject_stored (scanOf F old dead (tables t) p) hF hstored
    (h.stored t p.other) (h.lengths t p) (h.lengths t p.other) (h.apart t p t p.other hdistinct)
    (h.nonnull t p.other) hdue.linked hdue.leads (fun _ => h.addresses t p.other) (fun _ => rfl)
    (fun i x hx => hdue.fix2_eq hF hx)
  obtain ⟨m', hscan', hself, hother, hweak⟩ := scanTable_eq (s := scanOf F old dead (tables t) p) hscan
  have hpart : ∀ q, StoredAt sizeofLd s'.mem (site t q) (fun _ => relocated addr [(t, p)] new t q) (m'.part q) ∧
      (m'.part q).bucket.length = length t := by
    intro q
    rcases q.eq_or_eq_other p with rfl | rfl
    · rw [show m'.part q = b from hself, relocated_self]
      exact ⟨hdone.scanned, hdone.length⟩
    · rw [show m'.part p.other = d from hother, relocated_of_ne hdistinct.symm]
      exact ⟨hdone.dependent, hdone.dependentLength⟩
  refine ⟨s', m', hrun, hscan', hweak, ⟨fun t' q => ?_, fun t' q => ?_, h.apart, h.nonnull, fun t' q => ?_⟩, ?_, ?_⟩
  · by_cases ht : t' = t
    · subst ht
      rw [Function.update_self]
      exact (hpart q).1
    · rw [Function.update_of_ne ht, relocated_of_ne fun heq => ht (congrArg Prod.fst heq)]
      exact (h.stored_frame ht hdone.rest).2
  · by_cases ht : t' = t
    · subst ht
      rw [Function.update_self]
      exact (hpart q).2
    · rw [Function.update_of_ne ht]
      exact h.lengths t' q
  · rw [relocated]
    split
    · exact hF.target
    · exact h.addresses t' q
  · intro t' q hne
    by_cases ht : t' = t
    · subst ht
      rcases q.eq_or_eq_other p with rfl | rfl
      · exact absurd rfl hne
      · exact hdone.back
    · apply Memory.load_congr
      intro a hlow hhigh
      have hsize : 40 ≤ sizeofBuckets (length t') := Nat.le_add_right _ _
      simp only [offsetofDependent, sizeofPointer] at hlow hhigh
      exact (h.stored_frame (q := q) ht hdone.rest).1 a (by omega) (by omega)
  · intro a ha
    exact hdone.rest a (ha t p) (ha t p.other)

/-! ### A region of the pool -/

end ManagedObject.Metadata
