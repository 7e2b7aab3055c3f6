import ManagedObject.Format.Methods
import ManagedObject.Lib.Lists

/-!
# Walking a region

Every step keeps all blocks laid where they are, so in any region that steps lead to, skipping goes
from block to block and meets each of them once.
-/

namespace ManagedObject.Format

open Lib

variable {sizeofLd : Nat} {r r' start : Region sizeofLd} {t : Tile sizeofLd} {i : Nat}

/-- Skipping from `addr` while it is below `limit`, at most `fuel` times: the addresses met and the
address reached. -/
def walk (sizeofLd : Nat) (m : Memory) (limit : Nat) : Nat → Nat → Except Abort (List Nat × Nat)
  | 0, addr => .ok ([], addr)
  | fuel + 1, addr =>
    if addr < limit then do
      let next ← skip sizeofLd m addr
      let (visited, reached) ← walk sizeofLd m limit fuel next
      return (addr :: visited, reached)
    else .ok ([], addr)

structure Region.Ok (r : Region sizeofLd) : Prop where
  limit : r.base + extent Tile.size r.tiles < 2 ^ 64
  laid : Tiled Tile.size (Laid r.mem) r.base r.tiles

theorem tiles_split (hi : r.tiles[i]? = some t) :
    r.tiles = r.tiles.take i ++ t :: r.tiles.drop (i + 1) := by
  obtain ⟨hlt, rfl⟩ := List.getElem?_eq_some_iff.mp hi
  rw [List.getElem_cons_drop, List.take_append_drop]

theorem Region.Ok.laid_at (h : r.Ok) (hi : r.tiles[i]? = some t) : Laid r.mem (r.address i) t := by
  have hlaid := h.laid
  rw [tiles_split hi] at hlaid
  exact hlaid.middle

/-- Stores inside of a block that make it a laid block of the same size. -/
theorem Region.Ok.change {t' : Tile sizeofLd} {ws : List Write} (h : r.Ok) (hi : r.tiles[i]? = some t)
    (hsize : t'.size = t.size)
    (hws : ∀ w ∈ ws, w.Within (r.address i) (r.address i + t.size))
    (hlaid : Laid (r.mem.storeAll ws) (r.address i) t') : (r.change i t' ws).Ok := by
  obtain ⟨hlt, -⟩ := List.getElem?_eq_some_iff.mp hi
  have hset : r.tiles.set i t' = r.tiles.take i ++ t' :: r.tiles.drop (i + 1) :=
    List.set_eq_take_append_cons_drop.trans (if_pos hlt)
  have hbefore := h.laid
  have hlimit := h.limit
  rw [tiles_split hi] at hbefore hlimit
  constructor
  · show r.base + extent Tile.size (r.tiles.set i t') < 2 ^ 64
    rw [hset]
    simp only [extent_append, extent_cons, hsize] at hlimit ⊢
    exact hlimit
  · show Tiled Tile.size (Laid (r.mem.storeAll ws)) r.base (r.tiles.set i t')
    rw [hset]
    apply hbefore.exchange hsize hlaid
    intro a u houtside hu
    exact hu.frame hws houtside

theorem Region.Ok.make {c : Call sizeofLd} (h : r.Ok) (hi : r.tiles[i]? = some (.gap c.span)) :
    (r.change i (.object c none) (c.constructor.writes sizeofLd (r.address i))).Ok :=
  h.change hi rfl (fun _ hw => writes_within c hw) (object_laid (h.laid_at hi).below)

/-- Stores inside of a block that leave what it is. -/
theorem Region.Ok.write {ws : List Write} (h : r.Ok) (hi : r.tiles[i]? = some t)
    (hwithin : ∀ w ∈ ws, w.Within (r.address i) (r.address i + t.size))
    (hapart : ∀ w ∈ ws, ∀ f ∈ t.header (r.address i), w.Apart f) : (r.write ws).Ok := by
  have hlaid := h.laid_at hi
  have hkept : Laid (r.mem.storeAll ws) (r.address i) t := by
    refine ⟨hlaid.below, ?_⟩
    intro f hf
    apply (hlaid.holds f hf).storeAll
    intro w hw
    exact hapart w hw f hf
  have hsame : r.change i t ws = r.write ws := by
    obtain ⟨hlt, rfl⟩ := List.getElem?_eq_some_iff.mp hi
    rw [Region.change, List.set_getElem_self]
    rfl
  rw [← hsame]
  exact h.change hi rfl hwithin hkept

theorem address_change {t' : Tile sizeofLd} {ws : List Write} (j : Nat) (hi : r.tiles[i]? = some t)
    (hsize : t'.size = t.size) : (r.change i t' ws).address j = r.address j := by
  have hmap : (r.tiles.set i t').map Tile.size = r.tiles.map Tile.size := Lists.map_set_of_eq hi hsize
  show r.base + (((r.tiles.set i t').take j).map Tile.size).sum = r.base + ((r.tiles.take j).map Tile.size).sum
  rw [List.map_take, hmap, ← List.map_take]

theorem Region.Ok.makeAt {c : Call sizeofLd} {start : Nat → Nat} (h : r.Ok)
    (hi : r.tiles[i]? = some (.gap c.span)) (hstart : ∀ n, r.address n = start n) :
    ∃ r', r' = r.change i (.object c none) (c.constructor.writes sizeofLd (start i)) ∧ r'.Ok ∧
      (∀ n, r'.address n = start n) ∧ r'.tiles[i]? = some (.object c none) ∧
        ∀ j, i ≠ j → r'.tiles[j]? = r.tiles[j]? := by
  refine ⟨_, rfl, ?_, ?_, ?_, ?_⟩
  · rw [← hstart]
    exact h.make hi
  · intro n
    apply (address_change n hi _).trans (hstart n)
    rfl
  · exact List.getElem?_set_self (List.getElem?_eq_some_iff.mp hi).1
  · intro j hij
    exact List.getElem?_set_ne hij

theorem Region.Ok.setTable {c : Call sizeofLd} {ws : List Write} (h : r.Ok)
    (hi : r.tiles[i]? = some (.object c none)) (hc : c.constructor = .hashtable)
    (hws : ∀ w ∈ ws, w.Within (r.address i + 4) (r.address i + sizeofHashtable sizeofLd)) :
    (r.write ws).Ok := by
  have hneeds : c.constructor.needs sizeofLd ≤ c.span.size := c.size_spec.1
  rw [hc] at hneeds
  apply h.write hi
  · intro w hw
    exact (hws w hw).mono (Nat.le_add_right _ _) (Nat.add_le_add_left hneeds _)
  · intro w hw f hf
    have hf : f ∈ c.constructor.header (r.address i) := hf
    rw [hc] at hf
    have htype : f.Within (r.address i) (r.address i + 4) := by
      rw [List.mem_singleton.mp hf, setType_within]
      omega
    exact (hws w hw).apart htype (.inr (Nat.le_refl _))

theorem Region.Ok.setDependent {b : Call sizeofLd} {length unused addr : Nat} (h : r.Ok)
    (hi : r.tiles[i]? = some (.object b none)) (hb : b.constructor = .buckets length unused)
    (haddr : r.address i = addr) (dependent : Nat) :
    (r.write [setWord addr offsetofDependent dependent]).Ok := by
  have hroom := b.forwardable
  subst haddr
  apply h.write hi
  · intro w hw
    rw [List.mem_singleton.mp hw, setWord_within]
    simp only [offsetofDependent, Tile.size, Tile.span]
    omega
  · intro w hw f hf
    have hf : f ∈ b.constructor.header (r.address i) := hf
    simp only [hb, Constructor.header, List.mem_cons, List.not_mem_nil, or_false] at hf
    rw [List.mem_singleton.mp hw]
    rcases hf with rfl | rfl <;> simp [offsetofDependent, offsetofBucketsLength]

/-- `managed_obj_metadata_make_table` one reservation at a time. -/
theorem Region.Ok.makeTable {j k : Nat} {p : TableParts} {c b : Call sizeofLd} (h : r.Ok)
    (hc : c.constructor = .hashtable) (hb : b.constructor = .buckets p.l p.unused)
    (hi : r.tiles[i]? = some (.gap c.span)) (hj : r.tiles[j]? = some (.gap b.span))
    (hk : r.tiles[k]? = some (.gap b.span)) (hij : i ≠ j) (hik : i ≠ k) (hjk : j ≠ k) :
    Region.Ok
      { r.write (makeTable sizeofLd (r.address i) (r.address j) (r.address k) p) with
        tiles := ((r.tiles.set i (.object c none)).set j (.object b none)).set k (.object b none) } := by
  -- the table is committed and its first fields are set
  obtain ⟨r₁, hr₁, h₁, ha₁, hi₁, hrest₁⟩ := h.makeAt hi fun _ => rfl
  have h₂ : (r₁.write (makeTableFunctions sizeofLd (r.address i) p)).Ok := by
    apply h₁.setTable hi₁ hc
    intro w hw
    rw [ha₁]
    simp only [makeTableFunctions, List.mem_cons, List.not_mem_nil, or_false] at hw
    rcases hw with rfl | rfl | rfl | rfl <;>
      simp only [setWord_within, sizeofHashtable, offsetofKeyAp, offsetofValueAp] <;> omega
  -- the keys
  obtain ⟨r₃, hr₃, h₃, ha₃, hj₃, hrest₃⟩ := h₂.makeAt ((hrest₁ j hij).trans hj) ha₁
  have hi₃ : r₃.tiles[i]? = some (.object c none) := (hrest₃ i hij.symm).trans hi₁
  have h₄ : (r₃.write [setWord (r.address i) (offsetofKeys sizeofLd) (r.address j)]).Ok := by
    apply h₃.setTable hi₃ hc
    intro w hw
    rw [List.mem_singleton.mp hw, ha₃]
    simp only [setWord_within, sizeofHashtable, offsetofKeys]
    omega
  -- the values
  have hk₃ : r₃.tiles[k]? = some (.gap b.span) := (hrest₃ k hjk).trans ((hrest₁ k hik).trans hk)
  obtain ⟨r₅, hr₅, h₅, ha₅, hk₅, hrest₅⟩ := h₄.makeAt hk₃ ha₃
  have hi₅ : r₅.tiles[i]? = some (.object c none) := (hrest₅ i hik.symm).trans hi₃
  have hj₅ : r₅.tiles[j]? = some (.object b none) := (hrest₅ j hjk.symm).trans hj₃
  have h₆ : (r₅.write [setWord (r.address i) (offsetofValues sizeofLd) (r.address k)]).Ok := by
    apply h₅.setTable hi₅ hc
    intro w hw
    rw [List.mem_singleton.mp hw, ha₅]
    simp only [setWord_within, sizeofHashtable, offsetofValues]
    omega
  -- the arrays depend on each other, and `mps_ld_reset` fills the location dependency
  have h₇ := h₆.setDependent hj₅ hb (ha₅ j) (r.address k)
  have h₈ := h₇.setDependent hk₅ hb (ha₅ k) (r.address j)
  obtain ⟨r₈, hr₈, ha₈⟩ : ∃ r₈, r₈ = ((r₅.write [setWord (r.address i) (offsetofValues sizeofLd)
      (r.address k)]).write [setWord (r.address j) offsetofDependent (r.address k)]).write
      [setWord (r.address k) offsetofDependent (r.address j)] ∧ ∀ n, r₈.address n = r.address n :=
    ⟨_, rfl, ha₅⟩
  rw [← hr₈] at h₈
  have hi₈ : r₈.tiles[i]? = some (.object c none) := by rw [hr₈]; exact hi₅
  have h₉ : (r₈.write [⟨r.address i + offsetofLd, sizeofLd, p.ld⟩]).Ok := by
    apply h₈.setTable hi₈ hc
    intro w hw
    rw [List.mem_singleton.mp hw, ha₈]
    simp only [Write.Within, sizeofHashtable, offsetofLd]
    omega
  have hresult : r₈.write [⟨r.address i + offsetofLd, sizeofLd, p.ld⟩] =
      { r.write (Format.makeTable sizeofLd (r.address i) (r.address j) (r.address k) p) with
        tiles := ((r.tiles.set i (.object c none)).set j (.object b none)).set k (.object b none) } := by
    rw [hr₈, hr₅, hr₃, hr₁, hc, hb]
    simp only [Region.write, Region.change, Format.makeTable, Memory.storeAll_append,
      Memory.storeAll_cons, Memory.storeAll_nil, Constructor.writes]
  rw [← hresult]
  exact h₉

theorem Step.ok (hstep : Step r r') (h : r.Ok) : r'.Ok := by
  cases hstep with
  | make i c hi => exact h.make hi
  | makeAgain i c hi =>
    exact h.write hi (fun w hw => writes_within c hw) fun _ _ f hf => nomatch hf
  | makeTable i j k p c b hc hb hi hj hk hij hik hjk => exact h.makeTable hc hb hi hj hk hij hik hjk
  | assign i c ws hi hwithin hapart => exact h.write hi hwithin hapart
  | fwd i c new ws hi hnew hfwd =>
    have hlaid := h.laid_at hi
    have hws : ws = (Tile.object c (some new)).header (r.address i) := by
      rw [fwd_object hlaid] at hfwd
      exact (Except.ok.inj hfwd).symm
    subst hws
    exact h.change hi rfl (fun w hw => forwarding_within hw) (forwarding_laid hlaid.below hnew)
  | pad i s ws hi hpad =>
    have hws : ws = (Tile.pad s : Tile sizeofLd).header (r.address i) := by
      rw [pad_gap] at hpad
      exact (Except.ok.inj hpad).symm
    subst hws
    exact h.change hi rfl (fun w hw => padding_within hw) (padding_laid (h.laid_at hi).below)

theorem Region.Ok.steps (h : start.Ok) (hrun : Relation.ReflTransGen Step start r) : r.Ok := by
  induction hrun with
  | refl => exact h
  | tail _ hlast ih => exact hlast.ok ih

theorem Region.Ok.of_gaps (hgaps : ∀ t ∈ r.tiles, t.IsGap)
    (hlimit : r.base + extent Tile.size r.tiles < 2 ^ 64) : r.Ok := by
  refine ⟨hlimit, ?_⟩
  obtain ⟨m, base, tiles⟩ := r
  induction tiles generalizing base with
  | nil => trivial
  | cons t ts ih =>
    have hlimit : base + (t.size + extent Tile.size ts) < 2 ^ 64 := by simpa using hlimit
    have hrest : Tiled Tile.size (Laid m) (base + t.size) ts := by
      apply ih
      · intro u hu
        exact hgaps u (List.mem_cons_of_mem _ hu)
      · show base + t.size + extent Tile.size ts < 2 ^ 64
        omega
    have hbelow : base + t.size < 2 ^ 64 := by omega
    obtain ⟨s, rfl⟩ := hgaps t List.mem_cons_self
    exact ⟨⟨hbelow, fun w hw => nomatch hw⟩, hrest⟩

/-- Where every tile is skipped to its end, a walk meets the tiles and ends where they end. -/
theorem walk_tiled {τ : Type} {size : τ → Nat} {m : Memory} {base fuel : Nat} {ts : List τ}
    (hpos : ∀ t ∈ ts, 0 < size t)
    (hskip : Tiled size (fun a t => skip sizeofLd m a = .ok (a + size t)) base ts)
    (hfuel : ts.length ≤ fuel) :
    walk sizeofLd m (base + extent size ts) fuel base =
      .ok (addresses size base ts, base + extent size ts) := by
  induction ts generalizing base fuel with
  | nil =>
    cases fuel with
    | zero => rfl
    | succ fuel => rw [walk, if_neg (by simp)]; rfl
  | cons t ts ih =>
    obtain ⟨hhead, htail⟩ := hskip
    have hpos' := hpos t List.mem_cons_self
    cases fuel with
    | zero => cases hfuel
    | succ fuel =>
      have hrest := ih (fun u hu => hpos u (List.mem_cons_of_mem t hu)) htail (Nat.le_of_succ_le_succ hfuel)
      rw [Nat.add_assoc, ← extent_cons] at hrest
      have hbelow : base < base + extent size (t :: ts) := by
        rw [extent_cons]
        omega
      simp only [walk, hbelow, ↓reduceIte, hhead, bind, Except.bind, hrest]
      rfl

/-- What the MPS relies on in a region, whatever has been made, forwarded and padded in it. -/
structure Region.Walkable (r : Region sizeofLd) : Prop where
  /-- `managed_obj_skip` goes to the end of the block that was reserved or padded -/
  skip_eq : Tiled Tile.size (fun a t => ¬ t.IsGap → skip sizeofLd r.mem a = .ok (a + t.size)) r.base r.tiles
  /-- `managed_obj_isfwd` is the new address of a forwarded object, and `NULL` for everything else -/
  isfwd_eq : Tiled Tile.size (fun a t => ¬ t.IsGap → isfwd r.mem a = t.forwarded.getD null) r.base r.tiles
  /-- an object that is not yet forwarded can be, by stores inside of its block -/
  fwd_within : Tiled Tile.size
    (fun a t => ∀ c, t = .object c none → ∀ new < 2 ^ 64,
      ∃ ws, fwd sizeofLd r.mem a new = .ok ws ∧ ∀ w ∈ ws, w.Within a (a + t.size)) r.base r.tiles
  /-- a gap can be padded, by stores inside of it -/
  pad_within : Tiled Tile.size
    (fun a t => ∀ s, t = .gap s → ∃ ws, pad a s.size = .ok ws ∧ ∀ w ∈ ws, w.Within a (a + t.size))
    r.base r.tiles
  /-- from the start of any run of blocks without a gap, skipping meets these blocks in order and
  reaches the end of the last one exactly -/
  walk_eq : ∀ pre ts post, r.tiles = pre ++ ts ++ post → (∀ t ∈ ts, ¬ t.IsGap) → ∀ fuel ≥ ts.length,
    walk sizeofLd r.mem (r.base + extent Tile.size (pre ++ ts)) fuel (r.base + extent Tile.size pre) =
      .ok (addresses Tile.size (r.base + extent Tile.size pre) ts,
        r.base + extent Tile.size (pre ++ ts))
  /-- no block is met twice -/
  increasing : (addresses Tile.size r.base r.tiles).Pairwise (· < ·)

theorem Region.Ok.walkable (h : r.Ok) : r.Walkable where
  skip_eq := h.laid.imp fun a t _ _ _ hlaid ht => skip_laid hlaid ht
  isfwd_eq := h.laid.imp fun a t _ _ _ hlaid ht => isfwd_laid hlaid ht
  fwd_within := by
    apply h.laid.imp
    intro a t _ _ _ hlaid c ht new _
    subst ht
    exact ⟨_, fwd_object hlaid, fun w hw => forwarding_within hw⟩
  pad_within := by
    apply h.laid.imp
    intro a t _ _ _ _ s ht
    subst ht
    have hpad : pad a s.size = .ok ((Tile.pad s : Tile sizeofLd).header a) := pad_gap s
    exact ⟨_, hpad, fun w hw => padding_within hw⟩
  walk_eq := by
    intro pre ts post htiles hts fuel hfuel
    have hlaid := h.laid
    rw [htiles, List.append_assoc] at hlaid
    have hmiddle := (tiled_append.mp (tiled_append.mp hlaid).2).1
    have hskip : Tiled Tile.size (fun a t => skip sizeofLd r.mem a = .ok (a + t.size))
        (r.base + extent Tile.size pre) ts := by
      apply hmiddle.imp
      intro a t ht _ _ hlaid
      exact skip_laid hlaid (hts t ht)
    have hwalk := walk_tiled (fun t _ => t.span.pos) hskip hfuel
    rw [extent_append, ← Nat.add_assoc]
    exact hwalk
  increasing := addresses_increasing fun t _ => t.span.pos

/-- Heap walkability: in a region that was unused, any objects are made and assigned to, in any
order any of them are forwarded and any gaps are padded, and at every moment the blocks can be
walked. -/
theorem heap_walkable (hgaps : ∀ t ∈ start.tiles, t.IsGap)
    (hlimit : start.base + extent Tile.size start.tiles < 2 ^ 64)
    (hrun : Relation.ReflTransGen Step start r) : r.Walkable :=
  ((Region.Ok.of_gaps hgaps hlimit).steps hrun).walkable

section Example

def twentyBytes : Call 16 := ⟨.string 20 none, by decide⟩

def oneWord : Span := ⟨8, by decide, by decide⟩

def unusedRegion : Region 16 := ⟨fun _ => 0, 4096, [.gap twentyBytes.span, .gap oneWord]⟩

/-- The string is made and forwarded to 8192, and the gap behind it is padded. -/
def forwardedRegion : Region 16 :=
  ((unusedRegion.change 0 (.object twentyBytes none) (makeString 4096 20 none)).change 0
    (.object twentyBytes (some 8192)) [setType 4096 .fwd, setWord 4096 8 8192, setWord 4096 16 40]).change 1
    (.pad oneWord) [setType 4136 .pad1]

theorem forwardedRegion_steps : Relation.ReflTransGen Step unusedRegion forwardedRegion := by
  have hmake : Step unusedRegion
      (unusedRegion.change 0 (.object twentyBytes none) (makeString 4096 20 none)) :=
    .make 0 twentyBytes rfl
  apply (Relation.ReflTransGen.single hmake).trans
  have hfwd : fwd 16 (unusedRegion.change 0 (.object twentyBytes none) (makeString 4096 20 none)).mem 4096
      8192 = .ok [setType 4096 .fwd, setWord 4096 8 8192, setWord 4096 16 40] := by
    decide +kernel
  apply (Relation.ReflTransGen.single (.fwd 0 twentyBytes 8192 _ rfl (by decide) hfwd)).trans
  exact .single (.pad 1 oneWord _ rfl rfl)

theorem heap_walkable_forwarded : forwardedRegion.Walkable :=
  heap_walkable (by simp [unusedRegion, Tile.IsGap]) (by decide) forwardedRegion_steps

end Example

end ManagedObject.Format
