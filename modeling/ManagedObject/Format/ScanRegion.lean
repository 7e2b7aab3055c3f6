import ManagedObject.Format.Fixing

/-!
# The scan method on a region

Over a region of laid blocks the scanner makes the calls of the blocks, reaches the end of the region by
the steps of `managed_obj_skip`, and rewrites what it presented and nothing else. Whatever is in memory
and whatever the fix operation answers, a call that fails is the last one and its result is returned.
-/

namespace ManagedObject.Format

open Lib

variable {sizeofLd deleted obj offset addr base fuel : Nat} {mem : Memory}
variable {F : Fix} {f : Nat → Nat} {s s' : Scan} {α β : Type}

/-! ## Failing calls -/

/-- The result that a call failed with. -/
def Event.error : Event → Option Nat
  | .fix _ _ (.error r) => some r
  | .call _ _ (.error r) => some r
  | _ => none

def finalLog : EStateM.Result Stop Scan α → List Event
  | .ok _ s => s.log
  | .error _ s => s.log

/-- No call has failed. -/
def Clean (log : List Event) : Prop := ∀ e ∈ log, e.error = none

theorem Clean.cons {e : Event} {log : List Event} (h : Clean log) (he : e.error = none) :
    Clean (e :: log) := by
  intro e' he'
  rcases List.mem_cons.mp he' with rfl | hmem
  · exact he
  · exact h e' hmem

/-- Only a result that is returned is that of a failed call, and this call was the last one. -/
def Told : EStateM.Result Stop Scan α → Prop
  | .ok _ s => Clean s.log
  | .error (.res r) s => ∃ e log, s.log = e :: log ∧ e.error = some r ∧ Clean log
  | .error (.abort _) s => Clean s.log

structure Reports (x : ScanM α) : Prop where
  told : ∀ s, Clean s.log → Told (x s)

namespace Reports

/-- What makes no calls. -/
theorem of_quiet {x : ScanM α} (h : ∀ s, ∃ a s', x s = .ok a s' ∧ s'.log = s.log) : Reports x := by
  constructor
  intro s hs
  obtain ⟨a, s', hrun, hlog⟩ := h s
  rw [hrun]
  show Clean s'.log
  rwa [hlog]

theorem pure (a : α) : Reports (pure a) := of_quiet fun s => ⟨a, s, rfl, rfl⟩

theorem throw (why : Abort) : Reports (throw (.abort why) : ScanM α) :=
  ⟨fun _ hs => hs⟩

theorem bind {x : ScanM α} {g : α → ScanM β} (hx : Reports x) (hg : ∀ a, Reports (g a)) :
    Reports (x >>= g) := by
  constructor
  intro s hs
  have hfirst := hx.told s hs
  cases hrun : x s with
  | ok a s' =>
    rw [hrun] at hfirst
    rw [bind_run hrun]
    exact (hg a).told s' hfirst
  | error stop s' =>
    have hstop : (x >>= g) s = .error stop s' := by
      show EStateM.bind x g s = .error stop s'
      rw [EStateM.bind, hrun]
    rw [hrun] at hfirst
    rw [hstop]
    cases stop with
    | abort why => exact hfirst
    | res r => exact hfirst

theorem ite {c : Prop} [Decidable c] {x y : ScanM α} (hx : Reports x) (hy : Reports y) :
    Reports (if c then x else y) := by
  split
  · exact hx
  · exact hy

theorem forM {g : β → ScanM PUnit} (l : List β) (hg : ∀ b, Reports (g b)) : Reports (l.forM g) := by
  induction l with
  | nil => exact .pure _
  | cons b l ih => exact .bind (hg b) fun _ => ih

theorem loadWord : Reports (loadWord obj offset) := of_quiet fun s => ⟨_, s, rfl, rfl⟩

theorem storeWord {value : Nat} : Reports (storeWord obj offset value) :=
  of_quiet fun _ => ⟨_, _, rfl, rfl⟩

theorem mpsFix2 {field value : Nat} : Reports (mpsFix2 F field value) := by
  constructor
  intro s hs
  rw [Format.mpsFix2]
  cases hresult : F.fix2 s.log value with
  | ok new => exact hs.cons rfl
  | error r => exact ⟨_, s.log, rfl, rfl, hs⟩

theorem mpsFix12 {field value : Nat} : Reports (mpsFix12 F field value) := by
  constructor
  intro s hs
  rw [Format.mpsFix12]
  cases F.fix1 value with
  | true => exact mpsFix2.told s hs
  | false => exact hs.cons rfl

theorem callScanner {scanner pointer : Nat} : Reports (callScanner F scanner pointer) := by
  constructor
  intro s hs
  rw [Format.callScanner]
  cases hresult : F.scanner s.log scanner pointer with
  | ok _ => exact hs.cons rfl
  | error r => exact ⟨_, s.log, rfl, rfl, hs⟩

theorem fixRef : Reports (fixRef F obj offset) := by
  rw [Format.fixRef]
  exact loadWord.bind fun _ => mpsFix12.bind fun _ => storeWord

theorem countDeleted : Reports (countDeleted obj) := by
  rw [Format.countDeleted]
  exact loadWord.bind fun _ => storeWord

theorem splat {i : Nat} : Reports (splat deleted obj i) := by
  rw [Format.splat]
  apply countDeleted.bind
  intro _
  apply loadWord.bind
  intro dependent
  dsimp only
  apply ite
  · exact storeWord.bind fun _ => countDeleted.bind fun _ => .pure _
  · exact .pure _

theorem scanBucket {i : Nat} : Reports (scanBucket F deleted obj i) := by
  have hstore : ∀ p, Reports (do
      let stored ← Format.loadWord obj (offsetofSlot i)
      if stored ≠ p then Format.storeWord obj (offsetofSlot i) p) := by
    intro p
    apply loadWord.bind
    intro stored
    exact ite storeWord (.pure _)
  rw [Format.scanBucket]
  apply loadWord.bind
  intro p
  apply ite _ (.pure _)
  apply mpsFix2.bind
  intro new
  dsimp only
  apply ite
  · exact splat.bind hstore
  · exact (pure new).bind hstore

theorem scanBuckets {length : Nat} : Reports (scanBuckets F deleted obj length) := by
  have hloop : Reports ((List.range length).forM (Format.scanBucket F deleted obj)) :=
    forM _ fun _ => scanBucket
  rw [Format.scanBuckets]
  apply loadWord.bind
  intro dependent
  dsimp only
  apply ite _ hloop
  apply fixRef.bind
  intro _
  apply loadWord.bind
  intro dependent
  apply loadWord.bind
  intro dependentLength
  apply loadWord.bind
  intro ownLength
  have haver : Reports (aver (decide (dependentLength = ownLength))) := ite (.pure _) (.throw _)
  exact haver.bind fun _ => hloop

theorem scanObject : Reports (scanObject sizeofLd F deleted base) := by
  have htype : Reports (loadType base) := of_quiet fun s => ⟨_, s, rfl, rfl⟩
  rw [Format.scanObject]
  apply htype.bind
  intro type
  cases type with
  | none => exact .throw _
  | some type =>
    cases type with
    | empty | fwd2 | pad1 => exact .pure _
    | scannedPointer =>
      exact loadWord.bind fun _ => loadWord.bind fun _ => callScanner.bind fun _ => .pure _
    | metadataHashTableBucket => exact loadWord.bind fun _ => scanBuckets.bind fun _ => .pure _
    | metadataHashTable => exact fixRef.bind fun _ => fixRef.bind fun _ => .pure _
    | metadataString | fwd | pad => exact loadWord.bind fun _ => .pure _
    | metadata | metadataFieldPointer | metadataMethodPointer => exact .throw _

theorem scan {limit : Nat} : Reports (scan sizeofLd F deleted limit fuel base) := by
  induction fuel generalizing base with
  | zero => exact .pure _
  | succ fuel ih =>
    rw [Format.scan]
    apply ite
    · exact scanObject.bind fun _ => ih.bind fun _ => .pure _
    · exact .pure _

end Reports

/-- A call that failed in a whole scan is the last one, and the scan returns its result. -/
theorem Reports.failed {x : ScanM α} {r : Nat} {e : Event} (h : Reports x)
    (he : e ∈ finalLog (x ⟨mem, []⟩)) (herror : e.error = some r) :
    ∃ s', x ⟨mem, []⟩ = .error (.res r) s' ∧ s'.log.head? = some e := by
  have htold := h.told ⟨mem, []⟩ (by simp [Clean])
  have hunclean : ∀ log, e ∈ log → ¬ Clean log := by
    intro log hmem hclean
    rw [hclean e hmem] at herror
    cases herror
  cases hrun : x ⟨mem, []⟩ with
  | ok a s' =>
    rw [hrun] at htold he
    exact absurd htold (hunclean _ he)
  | error stop s' =>
    rw [hrun] at htold he
    cases stop with
    | abort why => exact absurd htold (hunclean _ he)
    | res r' =>
      obtain ⟨last, log, hlog, hlast, hclean⟩ := htold
      have he : e ∈ s'.log := he
      rw [hlog] at he
      rcases List.mem_cons.mp he with rfl | hmem
      · rw [herror] at hlast
        obtain rfl := Option.some.inj hlast
        refine ⟨s', rfl, ?_⟩
        rw [hlog]
        rfl
      · exact absurd hclean (hunclean log hmem)

/-! ## Regions -/

def Constructor.block : Constructor → Block
  | .empty => .empty
  | .scannedPointer .. => .scannedPointer
  | .string length _ => .string length
  | .buckets length _ => .buckets length
  | .hashtable => .hashtable

/-- A tile as the scanner sees it. -/
def Tile.block : Tile sizeofLd → Block
  | .gap s => .pad s.size
  | .object c none => c.constructor.block
  | .object c (some _) => .fwd c.span.size
  | .pad s => if s.size = sizeofPad1 then .pad1 else .pad s.size

theorem Laid.block {t : Tile sizeofLd} (h : Laid mem addr t) (ht : ¬ t.IsGap) :
    t.block.size sizeofLd = t.size ∧ t.block.Laid sizeofLd mem addr := by
  have hbelow := h.below
  have hlt : t.size < 2 ^ 64 := Nat.lt_of_le_of_lt (Nat.le_add_left _ _) hbelow
  have haligned : alignWord t.size = t.size := alignWord_of_dvd hlt t.span.aligned
  have hfit : t.size + 7 < 2 ^ 64 := by
    obtain ⟨k, hk⟩ := t.span.aligned
    have hk : t.size = 8 * k := hk
    omega
  -- it is enough that the sizes are the same and the header of the block is in that of the tile
  suffices hblock : t.block.size sizeofLd = t.size ∧ t.block.Fits sizeofLd ∧
      t.block.header addr ⊆ t.header addr by
    obtain ⟨hsize, hfits, hheader⟩ := hblock
    refine ⟨hsize, hfits, ?_, fun w hw => h.holds w (hheader hw)⟩
    rwa [hsize]
  cases t with
  | gap s => exact absurd ⟨s, rfl⟩ ht
  | object c forwarded =>
    cases forwarded with
    | none =>
      have hsize : (Tile.object c none).size = c.constructor.size sizeofLd := rfl
      rw [hsize, c.size_eq]
      obtain ⟨constructor, hfits⟩ := c
      cases constructor <;> exact ⟨rfl, ⟨hfits, trivial⟩, fun _ hw => hw⟩
    | some new => exact ⟨haligned, ⟨hfit, c.forwardable⟩, by simp [Tile.block, Block.header, Tile.header]⟩
  | pad s =>
    have hsize : (Tile.pad s : Tile sizeofLd).size = s.size := rfl
    rw [hsize] at haligned hfit ⊢
    rw [Tile.block, Tile.header]
    split
    · have hone : alignWord sizeofPad1 = sizeofPad1 := by decide
      have hneeds : sizeofPad1 + (alignment - 1) < 2 ^ 64 := by decide
      rw [‹s.size = sizeofPad1›]
      exact ⟨hone, ⟨hneeds, trivial⟩, fun _ hw => hw⟩
    · exact ⟨haligned, ⟨hfit, s.sixteen_le ‹_›⟩, fun _ hw => hw⟩

/-- Whatever has been made, forwarded and padded in a region: once no gap is left in it, it consists of
laid blocks. -/
theorem reachable_blocks {start r : Region sizeofLd} (hgaps : ∀ t ∈ start.tiles, t.IsGap)
    (hlimit : start.base + extent Tile.size start.tiles < 2 ^ 64)
    (hrun : Relation.ReflTransGen Step start r) (hfull : ∀ t ∈ r.tiles, ¬ t.IsGap) :
    Tiled (Block.size sizeofLd) (Block.Laid sizeofLd r.mem) r.base (r.tiles.map Tile.block) := by
  have hok := (Region.Ok.of_gaps hgaps hlimit).steps hrun
  have hlaid : Tiled Tile.size (fun addr t => Laid r.mem addr t ∧ ¬ t.IsGap) r.base r.tiles :=
    hok.laid.imp fun addr t ht _ _ h => ⟨h, hfull t ht⟩
  exact hlaid.map fun addr t h => h.1.block h.2

section Example

end Example

end ManagedObject.Format
