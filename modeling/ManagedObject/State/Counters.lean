import Mathlib.Data.BitVec
import Mathlib.Order.Interval.Finset.Nat
import Mathlib.Tactic.Abel
import ManagedObject.Format.Objects
import ManagedObject.Lib.Lists
import ManagedObject.Lib.Outcome
import ManagedObject.Lib.Run
import ManagedObject.Metadata.Table

/-!
# The counters of a state

Every constructor adds the size of its objects to the state, a finalization message adds it to what was
freed, and pinning counts up and down. The counters agree with the objects as long as only empty objects
and scanned pointers are finalized, and no object is pinned twice or unpinned while it is not pinned.
-/

namespace ManagedObject.State

open Format Lib ManagedObject.Lists Outcome

/-- An object of the arena, with what its constructor adds to the counters and whether its
finalization message was handled. -/
structure Object where
  addr : Nat
  type : ObjType
  pinned : Bool := false
  pointer : Nat := null
  finalizationCallback : Nat := null
  bytes : BitVec 64
  alignedBytes : BitVec 64
  finalized : Bool := false

/-- The counters of `ManagedObjState`, the objects of its arena, and the calls that were made to
finalization callbacks. -/
structure ManagedObjState where
  allocatedObjBytes : BitVec 64 := 0
  allocatedAlignedObjBytes : BitVec 64 := 0
  freedObjBytes : BitVec 64 := 0
  freedAlignedObjBytes : BitVec 64 := 0
  pinnedUsed : BitVec 64 := 0
  objects : List Object := []
  callbacks : List (Nat × Nat) := []

/-- `sizeof(managed_obj_metadata_string_s)`. -/
def sizeofString : Nat := 24

/-- `sizeof(managed_obj_metadata_buckets_s)`. -/
def sizeofBuckets : Nat := 48

namespace ManagedObjState

/-- `mps_commit`: the object is in the arena. -/
def commit (s : ManagedObjState) (o : Object) : ManagedObjState := { s with objects := o :: s.objects }

/-- The additions of a constructor to `allocated_obj_bytes` and `allocated_aligned_obj_bytes`. -/
def count (s : ManagedObjState) (o : Object) : ManagedObjState :=
  { s with
    allocatedObjBytes := s.allocatedObjBytes + o.bytes
    allocatedAlignedObjBytes := s.allocatedAlignedObjBytes + o.alignedBytes }

end ManagedObjState

def emptyObject (addr : Nat) : Object where
  addr
  type := .empty
  bytes := BitVec.ofNat 64 sizeofEmpty
  alignedBytes := BitVec.ofNat 64 (alignObj sizeofEmpty)

def scannedPointerObject (addr pointer finalizationCallback : Nat) : Object where
  addr
  type := .scannedPointer
  pointer
  finalizationCallback
  bytes := BitVec.ofNat 64 sizeofScannedPointer
  alignedBytes := BitVec.ofNat 64 (alignObj sizeofScannedPointer)

def stringObject (addr length : Nat) : Object where
  addr
  type := .metadataString
  bytes := BitVec.ofNat 64 sizeofString
  alignedBytes := BitVec.ofNat 64 (alignObj (wrap (offsetofString + length + 1)))

def bucketsObject (addr length : Nat) : Object where
  addr
  type := .metadataHashTableBucket
  bytes := BitVec.ofNat 64 sizeofBuckets
  alignedBytes := BitVec.ofNat 64 (alignObj (wrap (offsetofBucket + wrap (length * sizeofPointer))))

def tableObject (sizeofLd addr : Nat) : Object where
  addr
  type := .metadataHashTable
  bytes := BitVec.ofNat 64 (sizeofHashtable sizeofLd)
  alignedBytes := BitVec.ofNat 64 (alignObj (sizeofHashtable sizeofLd))

namespace ManagedObjState

/-- `managed_obj_make_empty`, at the address that `mps_reserve` gives. -/
def makeEmpty (s : ManagedObjState) (addr : Nat) : ManagedObjState :=
  (s.commit (emptyObject addr)).count (emptyObject addr)

/-- `managed_obj_make_scanned_with_finalizer`; its wrappers pass callbacks of their own. -/
def makeScannedWithFinalizer (s : ManagedObjState) (addr pointer finalizationCallback : Nat) :
    ManagedObjState :=
  (s.commit (scannedPointerObject addr pointer finalizationCallback)).count
    (scannedPointerObject addr pointer finalizationCallback)

def makeString (s : ManagedObjState) (addr length : Nat) : ManagedObjState :=
  (s.commit (stringObject addr length)).count (stringObject addr length)

def makeBuckets (s : ManagedObjState) (addr length : Nat) : ManagedObjState :=
  (s.commit (bucketsObject addr length)).count (bucketsObject addr length)

/-- `managed_obj_metadata_make_table`: the table is counted after its two arrays. -/
def makeTable (sizeofLd : Nat) (s : ManagedObjState) (addr keys values length : Nat) :
    Except Metadata.Stop ManagedObjState := do
  let s := s.commit (tableObject sizeofLd addr)
  let l ← Metadata.roundUp length 65 1
  let s := s.makeBuckets keys l
  let s := s.makeBuckets values l
  return s.count (tableObject sizeofLd addr)

/-- A store to the fields of one object. -/
def update (s : ManagedObjState) (addr : Nat) (f : Object → Object) : ManagedObjState :=
  { s with objects := updateKey Object.addr addr f s.objects }

def pin (s : ManagedObjState) (addr : Nat) : ManagedObjState :=
  let s := s.update addr fun o => { o with pinned := true }
  { s with pinnedUsed := s.pinnedUsed + 1 }

def unpin (s : ManagedObjState) (addr : Nat) : ManagedObjState :=
  let s := s.update addr fun o => { o with pinned := false }
  { s with pinnedUsed := s.pinnedUsed - 1 }

end ManagedObjState

inductive Message
  | gcStart
  | gc
  | finalization (addr : Nat)
  deriving DecidableEq, Repr

namespace ManagedObjState

/-- The finalization of an object, by its type. -/
def finalize (s : ManagedObjState) (o : Object) : ManagedObjState :=
  match o.type with
  | .empty =>
    { s with
      freedObjBytes := s.freedObjBytes + BitVec.ofNat 64 sizeofEmpty
      freedAlignedObjBytes := s.freedAlignedObjBytes + BitVec.ofNat 64 (alignObj sizeofEmpty) }
  | .scannedPointer =>
    let s := { s with
      freedObjBytes := s.freedObjBytes + BitVec.ofNat 64 sizeofScannedPointer
      freedAlignedObjBytes := s.freedAlignedObjBytes + BitVec.ofNat 64 (alignObj sizeofScannedPointer) }
    if o.pointer ≠ null then
      let s := if o.finalizationCallback ≠ null then
        { s with callbacks := (o.finalizationCallback, o.pointer) :: s.callbacks } else s
      s.update o.addr fun o => { o with pointer := null }
    else s
  -- `MANAGED_OBJECT_METADATA_FINALIZE` is empty
  | _ => s

/-- One round of the loop of `managed_obj_mps_chat`. -/
def mpsChatRound (s : ManagedObjState) : Message → ManagedObjState
  | .gcStart | .gc => s
  | .finalization addr =>
    match s.objects.find? (·.addr = addr) with
    | none => s
    | some o => (s.finalize o).update addr fun o => { o with finalized := true }

end ManagedObjState

/-! ### Runs -/

inductive CounterOp
  | makeEmpty (addr : Nat)
  | makeScannedWithFinalizer (addr pointer finalizationCallback : Nat)
  | makeString (addr length : Nat)
  | makeBuckets (addr length : Nat)
  | makeTable (addr keys values length : Nat)
  | pin (addr : Nat)
  | unpin (addr : Nat)
  | message (m : Message)

namespace ManagedObjState

def step (sizeofLd : Nat) (s : ManagedObjState) : CounterOp → Except Metadata.Stop ManagedObjState
  | .makeEmpty addr => .ok (s.makeEmpty addr)
  | .makeScannedWithFinalizer addr pointer finalizationCallback =>
    .ok (s.makeScannedWithFinalizer addr pointer finalizationCallback)
  | .makeString addr length => .ok (s.makeString addr length)
  | .makeBuckets addr length => .ok (s.makeBuckets addr length)
  | .makeTable addr keys values length => s.makeTable sizeofLd addr keys values length
  | .pin addr => .ok (s.pin addr)
  | .unpin addr => .ok (s.unpin addr)
  | .message m => .ok (s.mpsChatRound m)

/-- Addresses that no object has or has had. An address stands for the identity of an object: memory that the MPS
gives out again after an object was recycled is a new address here. -/
def Fresh (s : ManagedObjState) (addrs : List Nat) : Prop :=
  (addrs ++ s.objects.map Object.addr).Nodup ∧ ∀ a ∈ addrs, 0 < a ∧ a < 2 ^ 64

/-- Objects are pinned and unpinned while they are in the arena, and finalized at most once. -/
def Legal (s : ManagedObjState) : CounterOp → Prop
  | .makeEmpty addr | .makeScannedWithFinalizer addr _ _ | .makeString addr _ | .makeBuckets addr _ =>
    s.Fresh [addr]
  | .makeTable addr keys values _ => s.Fresh [values, keys, addr]
  | .pin addr | .unpin addr => ∃ o ∈ s.objects, o.addr = addr
  | .message .gcStart | .message .gc => True
  | .message (.finalization addr) => ∃ o ∈ s.objects, o.addr = addr ∧ o.finalized = false

/-- No object is pinned twice or unpinned while it is not pinned, and the finalized ones are empty
objects and scanned pointers. -/
def Regular (s : ManagedObjState) : CounterOp → Prop
  | .pin addr => ∀ o ∈ s.objects, o.addr = addr → o.pinned = false
  | .unpin addr => ∀ o ∈ s.objects, o.addr = addr → o.pinned = true
  | .message (.finalization addr) =>
    ∀ o ∈ s.objects, o.addr = addr → o.type = .empty ∨ o.type = .scannedPointer
  | _ => True

def pending (s : ManagedObjState) : List Object := s.objects.filter fun o => !o.finalized

/-- The counters agree with the objects. -/
structure Balanced (s : ManagedObjState) : Prop where
  bytes : s.allocatedObjBytes - s.freedObjBytes = (s.pending.map Object.bytes).sum
  alignedBytes : s.allocatedAlignedObjBytes - s.freedAlignedObjBytes =
    (s.pending.map Object.alignedBytes).sum
  pinned : s.pinnedUsed.toNat = s.objects.countP (·.pinned)

/-- The update of `pinned_used` does not pass zero. -/
def NoWrap (s : ManagedObjState) : CounterOp → Prop
  | .pin _ => s.pinnedUsed + 1 ≠ 0
  | .unpin _ => s.pinnedUsed ≠ 0
  | _ => True

end ManagedObjState

/-! ### What the constructors add -/

structure Object.Ok (o : Object) : Prop where
  addr : 0 < o.addr ∧ o.addr < 2 ^ 64
  counted : o.alignedBytes ≠ 0
  empty : o.type = .empty → o.bytes = BitVec.ofNat 64 sizeofEmpty ∧
    o.alignedBytes = BitVec.ofNat 64 (alignObj sizeofEmpty)
  scannedPointer : o.type = .scannedPointer → o.bytes = BitVec.ofNat 64 sizeofScannedPointer ∧
    o.alignedBytes = BitVec.ofNat 64 (alignObj sizeofScannedPointer)

theorem alignObj_ne_zero (n : Nat) : BitVec.ofNat 64 (alignObj n) ≠ 0 := by
  have hfwd : alignWord sizeofFwd = 24 := by decide
  have hword : alignWord n < 2 ^ 64 := Nat.and_lt_two_pow _ (by decide)
  have hrange : 24 ≤ alignObj n ∧ alignObj n < 2 ^ 64 := by
    rw [alignObj, hfwd]
    split <;> omega
  intro h
  have hnat := congrArg BitVec.toNat h
  rw [BitVec.toNat_ofNat, Nat.mod_eq_of_lt hrange.2] at hnat
  exact absurd hrange.1 (by rw [hnat]; decide)

namespace ManagedObjState

variable {s s' : ManagedObjState} {o : Object} {addr : Nat} {l₁ l₂ : List Object} {sizeofLd : Nat}
  {op : CounterOp} {hist : List CounterOp}

/-- The counters agree with the objects, which are apart. -/
structure Ok (s : ManagedObjState) : Prop where
  balanced : s.Balanced
  nodup : (s.objects.map Object.addr).Nodup
  object : ∀ o ∈ s.objects, o.Ok

def add (s : ManagedObjState) (o : Object) : ManagedObjState := (s.commit o).count o

/-- A new object, unpinned and not finalized. -/
theorem Ok.add (hs : s.Ok) (ho : o.Ok) (hnew : o.addr ∉ s.objects.map Object.addr)
    (hpinned : o.pinned = false) (hfinalized : o.finalized = false) : (s.add o).Ok := by
  have hpending : (s.add o).pending = o :: s.pending := by
    rw [pending, pending]
    exact List.filter_cons_of_pos (by rw [hfinalized]; rfl)
  constructor
  · constructor
    · rw [hpending, List.map_cons, List.sum_cons, ← hs.balanced.bytes]
      dsimp only [ManagedObjState.add, count, commit]
      abel
    · rw [hpending, List.map_cons, List.sum_cons, ← hs.balanced.alignedBytes]
      dsimp only [ManagedObjState.add, count, commit]
      abel
    · exact hs.balanced.pinned.trans (List.countP_cons_of_neg (by rw [hpinned]; exact Bool.false_ne_true)).symm
  · exact List.nodup_cons.mpr ⟨hnew, hs.nodup⟩
  · intro p hp
    rcases List.mem_cons.mp hp with rfl | hp
    · exact ho
    · exact hs.object p hp

theorem makeTable_eq (keys values length : Nat) : s.makeTable sizeofLd addr keys values length = do
    let l ← Metadata.roundUp length 65 1
    return ((s.add (tableObject sizeofLd addr)).add (bucketsObject keys l)).add (bucketsObject values l) := by
  rw [makeTable]
  apply bind_congr
  intro l
  dsimp only [makeBuckets, ManagedObjState.add, count, commit]
  congr 2
  · abel
  · abel

/-! ### What a step does to one object -/

theorem Ok.split (hs : s.Ok) (ho : o ∈ s.objects) : ∃ l₁ l₂, s.objects = l₁ ++ o :: l₂ ∧
    ∀ f, (s.update o.addr f).objects = l₁ ++ f o :: l₂ := by
  obtain ⟨l₁, l₂, hl⟩ := List.append_of_mem ho
  refine ⟨l₁, l₂, hl, fun f => ?_⟩
  have hnodup := hs.nodup
  rw [hl] at hnodup
  dsimp only [update]
  rw [hl]
  exact updateKey_middle hnodup rfl

theorem Ok.eq_of_addr (hs : s.Ok) (ho : o ∈ s.objects) {p : Object} (hp : p ∈ s.objects)
    (haddr : p.addr = o.addr) : p = o :=
  List.inj_on_of_nodup_map hs.nodup hp ho haddr

/-- Replacing an object by one of the same address, type and size. -/
theorem Ok.exchange {p : Object} (hs : s.Ok) (hl : s.objects = l₁ ++ o :: l₂) (hl' : s'.objects = l₁ ++ p :: l₂)
    (haddr : p.addr = o.addr) (hp : p.Ok) (hbalanced : s'.Balanced) : s'.Ok := by
  constructor
  · exact hbalanced
  · have hnodup := hs.nodup
    rw [hl, List.map_append, List.map_cons] at hnodup
    rw [hl', List.map_append, List.map_cons, haddr]
    exact hnodup
  · intro q hq
    have hobject := hs.object
    rw [hl'] at hq
    rw [hl] at hobject
    rcases List.mem_append.mp hq with hq | hq
    · exact hobject q (List.mem_append_left _ hq)
    · rcases List.mem_cons.mp hq with rfl | hq
      · exact hp
      · exact hobject q (List.mem_append_right _ (List.mem_cons_of_mem _ hq))

theorem countP_pinned_exchange (o p : Object) (l₁ l₂ : List Object) :
    (l₁ ++ p :: l₂).countP (·.pinned) + o.pinned.toNat =
      (l₁ ++ o :: l₂).countP (·.pinned) + p.pinned.toNat := by
  rw [List.countP_append, List.countP_append, List.countP_cons, List.countP_cons]
  cases o.pinned <;> cases p.pinned <;> simp <;> omega

/-- Addresses are words other than `NULL`, so the number of objects is one too. -/
theorem Ok.length_lt (hs : s.Ok) : s.objects.length < 2 ^ 64 := by
  have hsubset : (s.objects.map Object.addr).toFinset ⊆ Finset.Ioo 0 (2 ^ 64) := by
    intro a ha
    obtain ⟨o, ho, rfl⟩ := List.mem_map.mp (List.mem_toFinset.mp ha)
    exact Finset.mem_Ioo.mpr (hs.object o ho).addr
  have hcard := Finset.card_le_card hsubset
  rw [List.toFinset_card_of_nodup hs.nodup, List.length_map, Nat.card_Ioo] at hcard
  omega

/-- What an object contributes to the sum over the objects that are not finalized. -/
def share (f : Object → BitVec 64) (o : Object) : BitVec 64 := if o.finalized then 0 else f o

theorem sum_pending (f : Object → BitVec 64) (l : List Object) :
    ((l.filter fun o => !o.finalized).map f).sum = (l.map (share f)).sum := by
  induction l with
  | nil => rfl
  | cons o l ih =>
    rw [List.map_cons, List.sum_cons, ← ih, share]
    cases hfinalized : o.finalized with
    | true => simp [hfinalized]
    | false => simp [hfinalized]

/-- Exchanging one object changes the sum by what the two contribute. -/
theorem sum_pending_exchange {p : Object} (f : Object → BitVec 64) (hl : s.objects = l₁ ++ o :: l₂)
    (hl' : s'.objects = l₁ ++ p :: l₂) :
    (s'.pending.map f).sum = (s.pending.map f).sum - share f o + share f p := by
  rw [pending, pending, sum_pending, sum_pending, hl, hl']
  simp only [List.map_append, List.map_cons, List.sum_append, List.sum_cons]
  abel

/-- The pin flag is no part of the byte counts. -/
theorem Ok.setPinned {b : Bool} (hs : s.Ok) (hl : s.objects = l₁ ++ o :: l₂)
    (hl' : s'.objects = l₁ ++ { o with pinned := b } :: l₂)
    (hbytes : s'.allocatedObjBytes - s'.freedObjBytes = s.allocatedObjBytes - s.freedObjBytes)
    (haligned : s'.allocatedAlignedObjBytes - s'.freedAlignedObjBytes =
      s.allocatedAlignedObjBytes - s.freedAlignedObjBytes)
    (hpinned : s'.pinnedUsed.toNat = s'.objects.countP (·.pinned)) : s'.Ok := by
  have ho : o.Ok := hs.object o (by rw [hl]; simp)
  refine hs.exchange hl hl' rfl ⟨ho.addr, ho.counted, ho.empty, ho.scannedPointer⟩ ?_
  constructor
  · rw [hbytes, hs.balanced.bytes, sum_pending_exchange _ hl hl']
    exact (sub_add_cancel _ _).symm
  · rw [haligned, hs.balanced.alignedBytes, sum_pending_exchange _ hl hl']
    exact (sub_add_cancel _ _).symm
  · exact hpinned

theorem Ok.pin (hs : s.Ok) (ho : o ∈ s.objects) (hpinned : o.pinned = false) :
    s.pinnedUsed + 1 ≠ 0 ∧ (s.pin o.addr).Ok := by
  obtain ⟨l₁, l₂, hl, hupdate⟩ := hs.split ho
  have hl' : (s.pin o.addr).objects = l₁ ++ { o with pinned := true } :: l₂ := hupdate _
  have hcount : (s.pin o.addr).objects.countP (·.pinned) = s.pinnedUsed.toNat + 1 := by
    have hexchange := countP_pinned_exchange o { o with pinned := true } l₁ l₂
    rw [hpinned] at hexchange
    rw [hs.balanced.pinned, hl', hl]
    exact hexchange
  have hlt : s.pinnedUsed.toNat + 1 < 2 ^ 64 := by
    have hle := List.countP_le_length (p := (·.pinned)) (l := (s.pin o.addr).objects)
    have hlength := hs.length_lt
    rw [hcount, hl'] at hle
    rw [hl] at hlength
    simp only [List.length_append, List.length_cons] at hle hlength
    omega
  have hnext : (s.pinnedUsed + 1).toNat = s.pinnedUsed.toNat + 1 := by
    rw [BitVec.toNat_add]
    exact Nat.mod_eq_of_lt hlt
  constructor
  · intro hzero
    rw [hzero] at hnext
    exact absurd hnext.symm (Nat.succ_ne_zero _)
  · exact hs.setPinned hl hl' rfl rfl (hnext.trans hcount.symm)

/-- Pinning an object again counts it twice. -/
theorem Ok.pin_again (hs : s.Ok) (ho : o ∈ s.objects) (hpinned : o.pinned = true) :
    ¬ (s.pin o.addr).Balanced := by
  intro hbalanced
  obtain ⟨l₁, l₂, hl, hupdate⟩ := hs.split ho
  have hl' : (s.pin o.addr).objects = l₁ ++ { o with pinned := true } :: l₂ := hupdate _
  have hexchange := countP_pinned_exchange o { o with pinned := true } l₁ l₂
  have hsame : (s.pinnedUsed + 1).toNat = s.pinnedUsed.toNat := by
    rw [hpinned, ← hl, ← hl', ← hbalanced.pinned, ← hs.balanced.pinned] at hexchange
    exact Nat.add_right_cancel hexchange
  have hone : s.pinnedUsed + 1 = s.pinnedUsed := BitVec.eq_of_toNat_eq hsame
  rw [add_eq_left] at hone
  cases hone

theorem Ok.unpin (hs : s.Ok) (ho : o ∈ s.objects) (hpinned : o.pinned = true) :
    s.pinnedUsed ≠ 0 ∧ (s.unpin o.addr).Ok := by
  obtain ⟨l₁, l₂, hl, hupdate⟩ := hs.split ho
  have hl' : (s.unpin o.addr).objects = l₁ ++ { o with pinned := false } :: l₂ := hupdate _
  have hcount : (s.unpin o.addr).objects.countP (·.pinned) + 1 = s.pinnedUsed.toNat := by
    have hexchange := countP_pinned_exchange o { o with pinned := false } l₁ l₂
    rw [hpinned] at hexchange
    rw [hs.balanced.pinned, hl', hl]
    exact hexchange
  have hprev : (s.pinnedUsed - 1).toNat = s.pinnedUsed.toNat - 1 := by
    apply BitVec.toNat_sub_of_le
    rw [BitVec.le_def, ← hcount]
    exact Nat.le_add_left _ _
  constructor
  · rintro hzero
    rw [hzero] at hcount
    exact absurd hcount (Nat.succ_ne_zero _)
  · exact hs.setPinned hl hl' rfl rfl (hprev.trans (by omega))

theorem Ok.unpin_again (hs : s.Ok) (ho : o ∈ s.objects) (hpinned : o.pinned = false) :
    ¬ (s.unpin o.addr).Balanced := by
  intro hbalanced
  obtain ⟨l₁, l₂, hl, hupdate⟩ := hs.split ho
  have hl' : (s.unpin o.addr).objects = l₁ ++ { o with pinned := false } :: l₂ := hupdate _
  have hexchange := countP_pinned_exchange o { o with pinned := false } l₁ l₂
  have hsame : (s.pinnedUsed - 1).toNat = s.pinnedUsed.toNat := by
    rw [hpinned, ← hl, ← hl', ← hbalanced.pinned, ← hs.balanced.pinned] at hexchange
    exact Nat.add_right_cancel hexchange
  have hone : s.pinnedUsed - 1 = s.pinnedUsed := BitVec.eq_of_toNat_eq hsame
  rw [sub_eq_self] at hone
  cases hone

/-! ### Finalization -/

/-- What the finalization of an object of a type adds to the freed bytes. -/
def freedBytes : ObjType → BitVec 64 × BitVec 64
  | .empty => (BitVec.ofNat 64 sizeofEmpty, BitVec.ofNat 64 (alignObj sizeofEmpty))
  | .scannedPointer =>
    (BitVec.ofNat 64 sizeofScannedPointer, BitVec.ofNat 64 (alignObj sizeofScannedPointer))
  | _ => (0, 0)

/-- The pointer of a scanned pointer is cleared, and the freed bytes are counted by the type. -/
theorem finalize_eq (s : ManagedObjState) (o : Object) : ∃ callbacks, s.finalize o = { s with
    freedObjBytes := s.freedObjBytes + (freedBytes o.type).1
    freedAlignedObjBytes := s.freedAlignedObjBytes + (freedBytes o.type).2
    callbacks := callbacks
    objects := if o.type = .scannedPointer ∧ o.pointer ≠ null then
      updateKey Object.addr o.addr (fun o => { o with pointer := null }) s.objects else s.objects } := by
  rw [finalize]
  cases o.type with
  | empty => exact ⟨s.callbacks, by simp [freedBytes]⟩
  | scannedPointer =>
    by_cases hpointer : o.pointer = null
    · exact ⟨s.callbacks, by simp [freedBytes, hpointer]⟩
    · by_cases hcallback : o.finalizationCallback = null
      · exact ⟨s.callbacks, by simp [freedBytes, hpointer, hcallback, update]⟩
      · exact ⟨(o.finalizationCallback, o.pointer) :: s.callbacks, by
          simp [freedBytes, hpointer, hcallback, update]⟩
  | _ => exact ⟨s.callbacks, by simp [freedBytes]⟩

/-- The effect of a finalization message, by the type of its object. -/
theorem Ok.mpsChatRound (hs : s.Ok) (ho : o ∈ s.objects) : ∃ l₁ l₂ pointer callbacks,
    s.objects = l₁ ++ o :: l₂ ∧ s.mpsChatRound (.finalization o.addr) = { s with
      freedObjBytes := s.freedObjBytes + (freedBytes o.type).1
      freedAlignedObjBytes := s.freedAlignedObjBytes + (freedBytes o.type).2
      callbacks := callbacks
      objects := l₁ ++ { o with pointer := pointer, finalized := true } :: l₂ } := by
  obtain ⟨l₁, l₂, hl, hupdate⟩ := hs.split ho
  have hfind : s.objects.find? (·.addr = o.addr) = some o := by
    cases hfind : s.objects.find? (·.addr = o.addr) with
    | none => exact absurd (List.find?_eq_none.mp hfind o ho) (by simp)
    | some p =>
      have haddr : p.addr = o.addr := by simpa using List.find?_some hfind
      rw [hs.eq_of_addr ho (List.mem_of_find?_eq_some hfind) haddr]
  obtain ⟨callbacks, hfinalize⟩ := s.finalize_eq o
  have hnodup := hs.nodup
  rw [hl] at hnodup
  rw [ManagedObjState.mpsChatRound, hfind]
  dsimp only
  rw [hfinalize, update, hl]
  dsimp only
  split
  · refine ⟨l₁, l₂, null, callbacks, rfl, ?_⟩
    have hnodup' : ((l₁ ++ { o with pointer := null } :: l₂).map Object.addr).Nodup := by
      rw [List.map_append, List.map_cons] at hnodup ⊢
      exact hnodup
    rw [updateKey_middle hnodup rfl, updateKey_middle hnodup' rfl]
  · refine ⟨l₁, l₂, o.pointer, callbacks, rfl, ?_⟩
    rw [updateKey_middle hnodup rfl]

theorem Ok.finalize (hs : s.Ok) (ho : o ∈ s.objects) (hfinalized : o.finalized = false)
    (htype : o.type = .empty ∨ o.type = .scannedPointer) :
    (s.mpsChatRound (.finalization o.addr)).Ok := by
  obtain ⟨l₁, l₂, pointer, callbacks, hl, hround⟩ := hs.mpsChatRound ho
  have hobject := hs.object o ho
  have hbytes : freedBytes o.type = (o.bytes, o.alignedBytes) := by
    rcases htype with htype | htype
    · rw [htype, (hobject.empty htype).1, (hobject.empty htype).2]
      rfl
    · rw [htype, (hobject.scannedPointer htype).1, (hobject.scannedPointer htype).2]
      rfl
  have hl' : (s.mpsChatRound (.finalization o.addr)).objects =
      l₁ ++ { o with pointer := pointer, finalized := true } :: l₂ := by rw [hround]
  refine hs.exchange hl hl' rfl ⟨hobject.addr, hobject.counted, hobject.empty, hobject.scannedPointer⟩ ?_
  constructor
  · rw [sum_pending_exchange _ hl hl', ← hs.balanced.bytes, hround, hbytes]
    simp only [share, hfinalized, if_true, Bool.false_eq_true, if_false]
    abel
  · rw [sum_pending_exchange _ hl hl', ← hs.balanced.alignedBytes, hround, hbytes]
    simp only [share, hfinalized, if_true, Bool.false_eq_true, if_false]
    abel
  · have hexchange := countP_pinned_exchange o { o with pointer := pointer, finalized := true } l₁ l₂
    rw [hround]
    dsimp only
    rw [hs.balanced.pinned, hl]
    exact (Nat.add_right_cancel hexchange).symm

theorem Ok.finalize_uncounted (hs : s.Ok) (ho : o ∈ s.objects) (hfinalized : o.finalized = false)
    (htype : ¬ (o.type = .empty ∨ o.type = .scannedPointer)) :
    ¬ (s.mpsChatRound (.finalization o.addr)).Balanced := by
  intro hbalanced
  obtain ⟨l₁, l₂, pointer, callbacks, hl, hround⟩ := hs.mpsChatRound ho
  have hl' : (s.mpsChatRound (.finalization o.addr)).objects =
      l₁ ++ { o with pointer := pointer, finalized := true } :: l₂ := by rw [hround]
  have hbytes : (freedBytes o.type).2 = 0 := by
    cases hkind : o.type with
    | empty => exact absurd (.inl hkind) htype
    | scannedPointer => exact absurd (.inr hkind) htype
    | _ => rfl
  have hsum := hbalanced.alignedBytes
  rw [sum_pending_exchange _ hl hl', ← hs.balanced.alignedBytes, hround, hbytes, add_zero] at hsum
  simp only [share, hfinalized, if_true, Bool.false_eq_true, if_false, add_zero] at hsum
  exact (hs.object o ho).counted (sub_eq_self.mp hsum.symm)

/-! ### Runs -/

theorem init_ok : ({} : ManagedObjState).Ok := by
  refine ⟨⟨rfl, rfl, rfl⟩, List.nodup_nil, ?_⟩
  intro o ho
  cases ho

section New

variable (haddr : 0 < addr ∧ addr < 2 ^ 64)
include haddr

theorem emptyObject_ok : (emptyObject addr).Ok :=
  ⟨haddr, alignObj_ne_zero _, fun _ => ⟨rfl, rfl⟩, nofun⟩

theorem scannedPointerObject_ok (pointer finalizationCallback : Nat) :
    (scannedPointerObject addr pointer finalizationCallback).Ok :=
  ⟨haddr, alignObj_ne_zero _, nofun, fun _ => ⟨rfl, rfl⟩⟩

theorem stringObject_ok (length : Nat) : (stringObject addr length).Ok :=
  ⟨haddr, alignObj_ne_zero _, nofun, nofun⟩

theorem bucketsObject_ok (length : Nat) : (bucketsObject addr length).Ok :=
  ⟨haddr, alignObj_ne_zero _, nofun, nofun⟩

theorem tableObject_ok (sizeofLd : Nat) : (tableObject sizeofLd addr).Ok :=
  ⟨haddr, alignObj_ne_zero _, nofun, nofun⟩

end New

theorem Fresh.notMem (h : s.Fresh [addr]) : addr ∉ s.objects.map Object.addr :=
  (List.nodup_cons.mp h.1).1

theorem Fresh.range (h : s.Fresh [addr]) : 0 < addr ∧ addr < 2 ^ 64 := h.2 addr List.mem_cons_self

theorem Ok.makeTable {keys values length : Nat} (hs : s.Ok) (hfresh : s.Fresh [values, keys, addr])
    (hmake : s.makeTable sizeofLd addr keys values length = .ok s') : s'.Ok := by
  rw [makeTable_eq] at hmake
  obtain ⟨l, -, hmake⟩ := bind_eq_ok hmake
  cases hmake
  obtain ⟨hnodup, hrange⟩ := hfresh
  obtain ⟨hvalues, hkeys, haddr, -⟩ :
      values ∉ keys :: addr :: s.objects.map Object.addr ∧ keys ∉ addr :: s.objects.map Object.addr ∧
        addr ∉ s.objects.map Object.addr ∧ _ := by
    simpa [List.nodup_cons] using hnodup
  have htable := hs.add (tableObject_ok (hrange addr (by simp)) sizeofLd) haddr rfl rfl
  have harray := htable.add (bucketsObject_ok (hrange keys (by simp)) l) hkeys rfl rfl
  exact harray.add (bucketsObject_ok (hrange values (by simp)) l) hvalues rfl rfl

/-- A legal step keeps the counters and the objects in agreement if and only if it is regular. -/
theorem Ok.step_iff (hs : s.Ok) (hlegal : s.Legal op) (hstep : s.step sizeofLd op = .ok s') :
    (s.Regular op → s'.Ok ∧ s.NoWrap op) ∧ (s'.Balanced → s.Regular op) := by
  cases op with
  | makeEmpty addr =>
    cases hstep
    have hok := hs.add (emptyObject_ok hlegal.range) hlegal.notMem rfl rfl
    exact ⟨fun _ => ⟨hok, trivial⟩, fun _ => trivial⟩
  | makeScannedWithFinalizer addr pointer callback =>
    cases hstep
    have hok := hs.add (scannedPointerObject_ok hlegal.range pointer callback) hlegal.notMem rfl rfl
    exact ⟨fun _ => ⟨hok, trivial⟩, fun _ => trivial⟩
  | makeString addr length =>
    cases hstep
    have hok := hs.add (stringObject_ok hlegal.range length) hlegal.notMem rfl rfl
    exact ⟨fun _ => ⟨hok, trivial⟩, fun _ => trivial⟩
  | makeBuckets addr length =>
    cases hstep
    have hok := hs.add (bucketsObject_ok hlegal.range length) hlegal.notMem rfl rfl
    exact ⟨fun _ => ⟨hok, trivial⟩, fun _ => trivial⟩
  | makeTable addr keys values length =>
    exact ⟨fun _ => ⟨hs.makeTable hlegal hstep, trivial⟩, fun _ => trivial⟩
  | pin addr =>
    cases hstep
    obtain ⟨o, ho, rfl⟩ := hlegal
    constructor
    · intro hregular
      have hpin := hs.pin ho (hregular o ho rfl)
      exact ⟨hpin.2, hpin.1⟩
    · intro hbalanced p hp haddr
      rw [hs.eq_of_addr ho hp haddr]
      cases hpinned : o.pinned with
      | false => rfl
      | true => exact absurd hbalanced (hs.pin_again ho hpinned)
  | unpin addr =>
    cases hstep
    obtain ⟨o, ho, rfl⟩ := hlegal
    constructor
    · intro hregular
      have hunpin := hs.unpin ho (hregular o ho rfl)
      exact ⟨hunpin.2, hunpin.1⟩
    · intro hbalanced p hp haddr
      rw [hs.eq_of_addr ho hp haddr]
      cases hpinned : o.pinned with
      | true => rfl
      | false => exact absurd hbalanced (hs.unpin_again ho hpinned)
  | message m =>
    cases hstep
    cases m with
    | gcStart => exact ⟨fun _ => ⟨hs, trivial⟩, fun _ => trivial⟩
    | gc => exact ⟨fun _ => ⟨hs, trivial⟩, fun _ => trivial⟩
    | finalization addr =>
      obtain ⟨o, ho, rfl, hfinalized⟩ := hlegal
      constructor
      · intro hregular
        exact ⟨hs.finalize ho hfinalized (hregular o ho rfl), trivial⟩
      · intro hbalanced p hp haddr
        rw [hs.eq_of_addr ho hp haddr]
        by_contra htype
        exact hs.finalize_uncounted ho hfinalized htype hbalanced

/-- In every run of legal and regular steps the counters agree with the objects, and a legal step after
it keeps that, without a wrap, if and only if it is regular. -/
theorem balanced_iff_regular
    (hrun : Run (fun _ s op s' => s.Legal op ∧ s.Regular op ∧ s.step sizeofLd op = .ok s') {} hist s) :
    s.Balanced ∧
    ((∀ o ∈ s.objects, o.finalized = true) → s.allocatedObjBytes - s.freedObjBytes = 0 ∧
      s.allocatedAlignedObjBytes - s.freedAlignedObjBytes = 0) ∧
    ∀ op s', s.Legal op → s.step sizeofLd op = .ok s' → (s'.Balanced ∧ s.NoWrap op ↔ s.Regular op) := by
  have hs : s.Ok := by
    apply hrun.invariant fun _ s => s.Ok
    · exact init_ok
    · intro hist s op s' hs ⟨hlegal, hregular, hstep⟩
      exact ((hs.step_iff hlegal hstep).1 hregular).1
  refine ⟨hs.balanced, ?_, ?_⟩
  · intro hall
    have hpending : s.pending = [] := by
      rw [pending, List.filter_eq_nil_iff]
      intro o ho
      simp [hall o ho]
    rw [hs.balanced.bytes, hs.balanced.alignedBytes, hpending]
    exact ⟨rfl, rfl⟩
  · intro op s' hlegal hstep
    obtain ⟨hforward, hback⟩ := hs.step_iff hlegal hstep
    constructor
    · intro h
      exact hback h.1
    · intro hregular
      exact ⟨(hforward hregular).1.balanced, (hforward hregular).2⟩

/-- A run of legal steps. -/
abbrev LegalRun (hist : List CounterOp) (s : ManagedObjState) : Prop :=
  Run (fun _ s op s' => s.Legal op ∧ s.step 24 op = .ok s') {} hist s

/-- A pinned object, and a scanned pointer that is finalized. -/
theorem balanced_iff_regular_pin : ∃ s, LegalRun
    [.message (.finalization 64), .makeScannedWithFinalizer 64 4096 1, .pin 8, .makeEmpty 8] s ∧
      s.Balanced ∧ s.pinnedUsed = 1 ∧ s.freedObjBytes = 32 := by
  have hempty : ({} : ManagedObjState).Fresh [8] := ⟨by decide, by decide⟩
  have hpointer : ((({} : ManagedObjState).makeEmpty 8).pin 8).Fresh [64] := ⟨by decide, by decide⟩
  have hpinned : Run (fun _ s op s' => s.Legal op ∧ s.Regular op ∧ s.step 24 op = .ok s') {}
      [.pin 8, .makeEmpty 8] ((({} : ManagedObjState).makeEmpty 8).pin 8) := by
    refine (Run.start.next ⟨hempty, trivial, rfl⟩).next ⟨⟨emptyObject 8, List.mem_cons_self, rfl⟩, ?_, rfl⟩
    intro o ho _
    rw [List.mem_singleton.mp ho]
    rfl
  have hmade : Run (fun _ s op s' => s.Legal op ∧ s.Regular op ∧ s.step 24 op = .ok s') {}
      [.makeScannedWithFinalizer 64 4096 1, .pin 8, .makeEmpty 8]
      ((({} : ManagedObjState).makeEmpty 8 |>.pin 8).makeScannedWithFinalizer 64 4096 1) :=
    hpinned.next ⟨hpointer, trivial, rfl⟩
  have hrun : Run (fun _ s op s' => s.Legal op ∧ s.Regular op ∧ s.step 24 op = .ok s') {}
      [.message (.finalization 64), .makeScannedWithFinalizer 64 4096 1, .pin 8, .makeEmpty 8]
      (((({} : ManagedObjState).makeEmpty 8).pin 8).makeScannedWithFinalizer 64 4096 1 |>.mpsChatRound
        (.finalization 64)) := by
    refine hmade.next ⟨⟨scannedPointerObject 64 4096 1, List.mem_cons_self, rfl, rfl⟩, ?_, rfl⟩
    intro o ho _
    rcases List.mem_cons.mp ho with rfl | ho
    · exact .inr rfl
    · rw [List.mem_singleton.mp ho]
      exact .inl rfl
  exact ⟨_, hrun.mono fun _ _ _ _ hstep => ⟨hstep.1, hstep.2.2⟩, (balanced_iff_regular hrun).1, rfl, rfl⟩

/-- A finalized string is still counted, an object that is pinned twice counts twice, and unpinning an
object that is not pinned wraps the count. -/
theorem counters_drift :
    (∃ s, LegalRun [.message (.finalization 8), .makeString 8 0] s ∧
      (∀ o ∈ s.objects, o.finalized = true) ∧ s.allocatedObjBytes - s.freedObjBytes = 24) ∧
    (∃ s, LegalRun [.pin 8, .pin 8, .makeEmpty 8] s ∧ s.objects.countP (·.pinned) = 1 ∧ s.pinnedUsed = 2) ∧
    ∃ s, LegalRun [.unpin 8, .makeEmpty 8] s ∧ s.objects.countP (·.pinned) = 0 ∧
      s.pinnedUsed.toNat = 2 ^ 64 - 1 := by
  have hfresh : ({} : ManagedObjState).Fresh [8] := ⟨by decide, by decide⟩
  refine ⟨?_, ?_, ?_⟩
  · refine ⟨_, (Run.start.next ⟨hfresh, rfl⟩).next ⟨⟨_, List.mem_cons_self, rfl, rfl⟩, rfl⟩, ?_, rfl⟩
    intro o ho
    rw [List.mem_singleton.mp ho]
    rfl
  · refine ⟨_, ((Run.start.next ⟨hfresh, rfl⟩).next ⟨⟨_, List.mem_cons_self, rfl⟩, rfl⟩).next
      ⟨⟨_, List.mem_cons_self, rfl⟩, rfl⟩, rfl, rfl⟩
  · exact ⟨_, (Run.start.next ⟨hfresh, rfl⟩).next ⟨⟨_, List.mem_cons_self, rfl⟩, rfl⟩, rfl, rfl⟩

end ManagedObjState

end ManagedObject.State
