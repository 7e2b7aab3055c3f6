import ManagedObject.State.Counters

/-!
# The memory behind scanned pointers

A scanned pointer owns the memory that it points to: the callback that it was made with frees the memory when
the object is finalized, and the pointer is cleared, so that a second message for the object frees nothing.
`free` of an address that is not that of a live block is a fault here, and so is a store outside of a block.
A client keeps to the ownership: it hands a block to one object only, and does not free it afterwards.
-/

namespace ManagedObject.State

open Format Lib ManagedObject.Lists Outcome

inductive MemoryFault
  /-- `free` of an address at which no block is live -/
  | badFree
  /-- a store outside of the live blocks -/
  | badStore
  | stop (stop : Metadata.Stop)
  deriving DecidableEq, Repr

/-- A block of the heap, with what was added to `allocated_bytes` for it. -/
structure Block where
  addr : Nat
  size : Nat
  counted : BitVec 64
  deriving DecidableEq, Repr

/-- A state with its fields `allocated_bytes` and `freed_bytes`, and the live blocks of the heap. -/
structure Arena where
  state : ManagedObjState := {}
  allocatedBytes : BitVec 64 := 0
  freedBytes : BitVec 64 := 0
  blocks : List Block := []

/-- What a finalization callback does with its pointer: the library's own callback and `delete` free it, other
callbacks call `managed_obj_delete` for a type of a size. -/
inductive Callback
  | free
  | delete (sizeofT : Nat)
  deriving DecidableEq, Repr

variable {code : Nat → Callback}

namespace Arena

/-- `malloc`, with its result. -/
def malloc (a : Arena) (s : Nat) (counted : BitVec 64) : Option Nat → Arena
  | none => a
  | some p => { a with blocks := ⟨p, s, counted⟩ :: a.blocks }

/-- `managed_obj_malloc`, with the result of `malloc`. -/
def managedObjMalloc (a : Arena) (s : Nat) (p : Option Nat) : Arena :=
  let a := a.malloc s (BitVec.ofNat 64 s) p
  if p ≠ none then { a with allocatedBytes := a.allocatedBytes + BitVec.ofNat 64 s } else a

def free (a : Arena) (p : Nat) : Except MemoryFault Arena :=
  if p = null then .ok a
  else if p ∈ a.blocks.map Block.addr then .ok { a with blocks := a.blocks.filter fun b => b.addr ≠ p }
  else .error .badFree

def managedObjFree (a : Arena) (p s : Nat) : Except MemoryFault Arena :=
  let a := if p ≠ null then { a with freedBytes := a.freedBytes + BitVec.ofNat 64 s } else a
  a.free p

/-- `managed_obj_volatile_memset`: whether the bytes are those of a live block. -/
def volatileMemset (a : Arena) (p length : Nat) : Except MemoryFault Unit :=
  if length = 0 ∨ ∃ b ∈ a.blocks, b.addr ≤ p ∧ p + length ≤ b.addr + b.size then .ok () else .error .badStore

def managedObjDelete (a : Arena) (p sizeofT : Nat) : Except MemoryFault Arena := do
  a.volatileMemset p sizeofT
  a.managedObjFree p sizeofT

def callback (a : Arena) (p : Nat) : Callback → Except MemoryFault Arena
  | .free => a.free p
  | .delete sizeofT => a.managedObjDelete p sizeofT

end Arena

/-- The finalization of the object calls its callback. -/
def Object.Calls (o : Object) : Prop := o.type = .scannedPointer ∧ o.pointer ≠ null ∧ o.finalizationCallback ≠ null

instance (o : Object) : Decidable o.Calls := inferInstanceAs (Decidable (_ ∧ _ ∧ _))

namespace Arena

/-- One round of the loop of `managed_obj_mps_chat`, with the callback. -/
def mpsChatRound (code : Nat → Callback) (a : Arena) (m : Message) : Except MemoryFault Arena :=
  match m with
  | .gcStart | .gc => .ok a
  | .finalization addr =>
    match a.state.objects.find? (·.addr = addr) with
    | none => .ok a
    | some o => do
      let a ← if o.Calls then a.callback o.pointer (code o.finalizationCallback) else .ok a
      return { a with state := a.state.mpsChatRound m }

/-- `managed_obj_mps_chat`, with the messages of the queue. -/
def mpsChat (code : Nat → Callback) (a : Arena) (messages : List Message) : Except MemoryFault Arena :=
  messages.foldlM (mpsChatRound code) a

end Arena

inductive MemoryOp
  | malloc (s : Nat) (p : Option Nat)
  | managedObjMalloc (s : Nat) (p : Option Nat)
  | free (p : Nat)
  | managedObjFree (p s : Nat)
  | managedObjDelete (p sizeofT : Nat)
  /-- the user sets the pointer of an object to `NULL` -/
  | setNull (addr : Nat)
  | message (m : Message)
  /-- the constructors and pins -/
  | object (op : CounterOp)

namespace Arena

def step (code : Nat → Callback) (sizeofLd : Nat) (a : Arena) : MemoryOp → Except MemoryFault Arena
  | .malloc s p => .ok (a.malloc s 0 p)
  | .managedObjMalloc s p => .ok (a.managedObjMalloc s p)
  | .free p => a.free p
  | .managedObjFree p s => a.managedObjFree p s
  | .managedObjDelete p sizeofT => a.managedObjDelete p sizeofT
  | .setNull addr => .ok { a with state := a.state.update addr fun o => { o with pointer := null } }
  | .message m => a.mpsChatRound code m
  | .object op =>
    match a.state.step sizeofLd op with
    | .ok s => .ok { a with state := s }
    | .error stop => .error (.stop stop)

/-- An object has the pointer. -/
def Owned (a : Arena) (p : Nat) : Prop := ∃ o ∈ a.state.objects, o.type = .scannedPointer ∧ o.pointer = p

/-- The client has the block, and no object does. -/
def Has (a : Arena) (p : Nat) : Prop := p ∈ a.blocks.map Block.addr ∧ ¬ a.Owned p

end Arena

/-- What a callback adds to `freed_bytes`. -/
def Callback.amount : Callback → BitVec 64
  | .free => 0
  | .delete sizeofT => BitVec.ofNat 64 sizeofT

/-- The bytes that a callback clears are those of the block. -/
def Callback.Fits : Callback → Block → Prop
  | .free, _ => True
  | .delete sizeofT, b => sizeofT ≤ b.size

namespace Arena

/-- What a client does: it frees what it has, and makes an object for what it has. Any messages come, for one
object again and again too. -/
def Lawful (code : Nat → Callback) (a : Arena) : MemoryOp → Prop
  | .malloc _ p | .managedObjMalloc _ p => ∀ addr, p = some addr → addr ≠ null ∧ addr ∉ a.blocks.map Block.addr
  | .free p | .managedObjFree p _ => p ≠ null → a.Has p
  | .managedObjDelete p sizeofT => a.Has p ∧ ∀ b ∈ a.blocks, b.addr = p → sizeofT ≤ b.size
  | .setNull _ => True
  | .message _ => True
  | .object (.message _) => False
  | .object (.makeScannedWithFinalizer addr p callback) => a.state.Fresh [addr] ∧
    (p ≠ null → a.Has p ∧ (callback ≠ null → ∀ b ∈ a.blocks, b.addr = p → (code callback).Fits b))
  | .object op => a.state.Legal op

/-- `allocated_bytes` and `freed_bytes` agree with the live blocks. -/
def Balanced (a : Arena) : Prop := a.allocatedBytes - a.freedBytes = (a.blocks.map Block.counted).sum

/-- A block is freed with what was added for it: one from `managed_obj_malloc` by `managed_obj_free` or
`managed_obj_delete` with its size, another one by `free`. -/
def Matched (code : Nat → Callback) (a : Arena) : MemoryOp → Prop
  | .free p => ∀ b ∈ a.blocks, b.addr = p → b.counted = 0
  | .managedObjFree p s | .managedObjDelete p s => ∀ b ∈ a.blocks, b.addr = p → b.counted = BitVec.ofNat 64 s
  | .message (.finalization addr) => ∀ o ∈ a.state.objects, o.addr = addr → o.Calls →
    ∀ b ∈ a.blocks, b.addr = o.pointer → b.counted = (code o.finalizationCallback).amount
  | _ => True

/-- The invariant: each block has one owner at most. -/
structure Ok (code : Nat → Callback) (a : Arena) : Prop where
  blocks : (a.blocks.map Block.addr).Nodup
  nonnull : ∀ b ∈ a.blocks, b.addr ≠ null
  objects : (a.state.objects.map Object.addr).Nodup
  live : ∀ o ∈ a.state.objects, o.type = .scannedPointer → o.pointer ≠ null →
    ∃ b ∈ a.blocks, b.addr = o.pointer ∧ (o.finalizationCallback ≠ null → (code o.finalizationCallback).Fits b)
  once : ∀ o ∈ a.state.objects, ∀ o' ∈ a.state.objects, o.type = .scannedPointer → o'.type = .scannedPointer →
    o.pointer ≠ null → o.pointer = o'.pointer → o.addr = o'.addr

variable {a a' : Arena} {o : Object} {b : Block} {p s addr : Nat} {messages : List Message}

/-! ### Freeing a block -/

def freed (a : Arena) (p : Nat) (amount : BitVec 64) : Arena :=
  { a with freedBytes := a.freedBytes + amount, blocks := a.blocks.filter fun b => b.addr ≠ p }

theorem free_eq (hp : p ∈ a.blocks.map Block.addr) (hnonnull : p ≠ null) : a.free p = .ok (a.freed p 0) := by
  rw [free, if_neg hnonnull, if_pos hp, freed, add_zero]

theorem managedObjFree_eq (hp : p ∈ a.blocks.map Block.addr) (hnonnull : p ≠ null) (s : Nat) :
    a.managedObjFree p s = .ok (a.freed p (BitVec.ofNat 64 s)) := by
  rw [managedObjFree, if_pos hnonnull, free, if_neg hnonnull, if_pos hp, freed]

theorem managedObjDelete_eq (hb : b ∈ a.blocks) (hnonnull : b.addr ≠ null) {sizeofT : Nat} (hfits : sizeofT ≤ b.size) :
    a.managedObjDelete b.addr sizeofT = .ok (a.freed b.addr (BitVec.ofNat 64 sizeofT)) := by
  have hbytes : a.volatileMemset b.addr sizeofT = .ok () :=
    if_pos (.inr ⟨b, hb, Nat.le_refl _, Nat.add_le_add_left hfits _⟩)
  rw [managedObjDelete, hbytes, ← managedObjFree_eq (List.mem_map_of_mem hb) hnonnull]
  rfl

end Arena

/-- An object after the message of its finalization. -/
def Object.settled (o : Object) : Object :=
  { o with pointer := if o.type = .scannedPointer then null else o.pointer, finalized := true }

/-- The message settles the object with the address. -/
theorem ManagedObjState.objects_mpsChatRound {s : ManagedObjState} (hnodup : (s.objects.map Object.addr).Nodup)
    (addr : Nat) : (s.mpsChatRound (.finalization addr)).objects =
      updateKey Object.addr addr Object.settled s.objects := by
  rw [ManagedObjState.mpsChatRound]
  cases hfind : s.objects.find? (·.addr = addr) with
  | none =>
    refine (updateKey_of_notMem fun hmem => ?_).symm
    obtain ⟨o, ho, heq⟩ := List.mem_map.mp hmem
    exact List.find?_eq_none.mp hfind o ho (decide_eq_true heq)
  | some o =>
    have ho := List.mem_of_find?_eq_some hfind
    have haddr : o.addr = addr := by simpa using List.find?_some hfind
    have hsame : ∀ x ∈ s.objects, x.addr = addr → x = o := fun x hx heq =>
      List.inj_on_of_nodup_map hnodup hx ho (heq.trans haddr.symm)
    obtain ⟨callbacks, hfinalize⟩ := s.finalize_eq o
    dsimp only [ManagedObjState.update]
    rw [hfinalize]
    dsimp only
    split
    · rename_i hpointer
      rw [updateKey, updateKey, updateKey, List.map_map]
      refine List.map_congr_left fun x hx => ?_
      by_cases heq : x.addr = addr
      · rw [hsame x hx heq]
        simp [Object.settled, haddr, hpointer.1]
      · simp [haddr, heq]
    · rename_i hpointer
      refine List.map_congr_left fun x hx => ?_
      by_cases heq : x.addr = addr
      · rw [hsame x hx heq, if_pos haddr, if_pos haddr, Object.settled]
        split
        · rename_i htype
          have hnull : o.pointer = null := by
            by_contra hne
            exact hpointer ⟨htype, hne⟩
          dsimp only
          rw [hnull]
        · rfl
      · rw [if_neg heq, if_neg heq]

namespace Arena

variable {a a' : Arena} {o : Object} {b : Block} {p s addr : Nat} {messages : List Message}

theorem mem_freed {amount : BitVec 64} : b ∈ (a.freed p amount).blocks ↔ b ∈ a.blocks ∧ b.addr ≠ p := by
  rw [freed, List.mem_filter, decide_eq_true_iff]

/-! ### Messages -/

/-- The block of an object whose callback is called. -/
theorem Ok.callback (h : a.Ok code) (ho : o ∈ a.state.objects) (hcalls : o.Calls) :
    a.callback o.pointer (code o.finalizationCallback) =
      .ok (a.freed o.pointer (code o.finalizationCallback).amount) := by
  obtain ⟨htype, hnonnull, hcallback⟩ := hcalls
  obtain ⟨b, hb, haddr, hfits⟩ := h.live o ho htype hnonnull
  have hfits := hfits hcallback
  cases hcode : code o.finalizationCallback with
  | free => exact free_eq (haddr ▸ List.mem_map_of_mem hb) hnonnull
  | delete sizeofT =>
    rw [hcode] at hfits
    rw [← haddr]
    exact managedObjDelete_eq hb (h.nonnull b hb) hfits

/-- Objects that have a pointer had it before, and their blocks stay. -/
theorem Ok.of_objects (h : a.Ok code) (hnodup : (a'.state.objects.map Object.addr).Nodup)
    (hsublist : a'.blocks.Sublist a.blocks)
    (hfrom : ∀ o' ∈ a'.state.objects, o'.type = .scannedPointer → o'.pointer ≠ null →
      (∃ o ∈ a.state.objects, o.addr = o'.addr ∧ o.type = .scannedPointer ∧ o.pointer = o'.pointer ∧
        o.finalizationCallback = o'.finalizationCallback) ∧ ∀ b ∈ a.blocks, b.addr = o'.pointer → b ∈ a'.blocks) :
    a'.Ok code where
  blocks := h.blocks.sublist (hsublist.map _)
  nonnull b hb := h.nonnull b (hsublist.subset hb)
  objects := hnodup
  live o' ho' htype' hnonnull' := by
    obtain ⟨⟨o, ho, -, htype, hpointer, hcallback⟩, hkept⟩ := hfrom o' ho' htype' hnonnull'
    obtain ⟨b, hb, haddr, hfits⟩ := h.live o ho htype (hpointer ▸ hnonnull')
    rw [hpointer] at haddr
    rw [hcallback] at hfits
    exact ⟨b, hkept b hb haddr, haddr, hfits⟩
  once o₁' ho₁' o₂' ho₂' htype₁' htype₂' hnonnull hsame := by
    obtain ⟨⟨o₁, ho₁, haddr₁, htype₁, hpointer₁, -⟩, -⟩ := hfrom o₁' ho₁' htype₁' hnonnull
    obtain ⟨⟨o₂, ho₂, haddr₂, htype₂, hpointer₂, -⟩, -⟩ := hfrom o₂' ho₂' htype₂' (hsame ▸ hnonnull)
    rw [← haddr₁, ← haddr₂]
    exact h.once o₁ ho₁ o₂ ho₂ htype₁ htype₂ (hpointer₁ ▸ hnonnull) (by rw [hpointer₁, hpointer₂, hsame])

/-- The objects with the address lose their pointer, and the blocks of the others stay. -/
theorem Ok.lose (h : a.Ok code) {f : Object → Object} (haddr : ∀ o, (f o).addr = o.addr)
    (hnull : ∀ o, (f o).type = .scannedPointer → (f o).pointer = null)
    (hobjects : a'.state.objects = updateKey Object.addr addr f a.state.objects)
    (hsublist : a'.blocks.Sublist a.blocks)
    (hkept : ∀ b ∈ a.blocks, b ∉ a'.blocks → ∃ o ∈ a.state.objects, o.addr = addr ∧ o.type = .scannedPointer ∧
      o.pointer ≠ null ∧ o.pointer = b.addr) : a'.Ok code := by
  refine h.of_objects (by rw [hobjects, map_updateKey haddr]; exact h.objects) hsublist ?_
  intro o' ho' htype' hnonnull'
  rw [hobjects] at ho'
  obtain ⟨o, ho, rfl⟩ := List.mem_map.mp ho'
  by_cases heq : o.addr = addr
  · rw [if_pos heq] at htype' hnonnull'
    exact absurd (hnull o htype') hnonnull'
  · rw [if_neg heq] at htype' hnonnull' ⊢
    refine ⟨⟨o, ho, rfl, htype', rfl, rfl⟩, fun b hb hpointer => ?_⟩
    by_contra hgone
    obtain ⟨o₁, ho₁, haddr₁, htype₁, hnonnull₁, hpointer₁⟩ := hkept b hb hgone
    exact heq ((h.once o₁ ho₁ o ho htype₁ htype' hnonnull₁ (hpointer₁.trans hpointer)).symm.trans haddr₁)

/-- A message frees the block of its object, if its callback is called, and settles the object. -/
inductive Handled (code : Nat → Callback) (a : Arena) (addr : Nat) : Arena → Prop
  | calls {o : Object} : o ∈ a.state.objects → o.addr = addr → o.Calls →
    Handled code a addr { a.freed o.pointer (code o.finalizationCallback).amount with
      state := a.state.mpsChatRound (.finalization addr) }
  | quiet : (∀ o ∈ a.state.objects, o.addr = addr → ¬ o.Calls) →
    Handled code a addr { a with state := a.state.mpsChatRound (.finalization addr) }

theorem Ok.eq_of_addr (h : a.Ok code) {o' : Object} (ho : o ∈ a.state.objects) (ho' : o' ∈ a.state.objects)
    (haddr : o.addr = o'.addr) : o = o' := List.inj_on_of_nodup_map h.objects ho ho' haddr

theorem Ok.handles (h : a.Ok code) (addr : Nat) :
    ∃ a', a.mpsChatRound code (.finalization addr) = .ok a' ∧ Handled code a addr a' := by
  rw [mpsChatRound]
  cases hfind : a.state.objects.find? (·.addr = addr) with
  | none =>
    have hround : a.state.mpsChatRound (.finalization addr) = a.state := by
      rw [ManagedObjState.mpsChatRound, hfind]
    have hquiet : Handled code a addr { a with state := a.state.mpsChatRound (.finalization addr) } :=
      .quiet fun o ho heq => absurd (decide_eq_true heq) (List.find?_eq_none.mp hfind o ho)
    rw [hround] at hquiet
    exact ⟨a, rfl, hquiet⟩
  | some o =>
    have ho := List.mem_of_find?_eq_some hfind
    have haddr : o.addr = addr := by simpa using List.find?_some hfind
    dsimp only
    by_cases hcalls : o.Calls
    · rw [if_pos hcalls, h.callback ho hcalls]
      exact ⟨_, rfl, .calls ho haddr hcalls⟩
    · rw [if_neg hcalls]
      refine ⟨_, rfl, .quiet fun x hx heq => ?_⟩
      rwa [h.eq_of_addr hx ho (heq.trans haddr.symm)]

theorem Handled.state (hhandled : Handled code a addr a') :
    a'.state = a.state.mpsChatRound (.finalization addr) := by
  cases hhandled with
  | calls _ _ _ => rfl
  | quiet _ => rfl

theorem Handled.mem_blocks (h : a.Ok code) (hhandled : Handled code a addr a') : b ∈ a'.blocks ↔
    b ∈ a.blocks ∧ ∀ o ∈ a.state.objects, o.addr = addr → o.Calls → o.pointer ≠ b.addr := by
  cases hhandled with
  | @calls o ho haddr hcalls =>
    have hmem : b ∈ (a.freed o.pointer (code o.finalizationCallback).amount).blocks ↔
        b ∈ a.blocks ∧ b.addr ≠ o.pointer := mem_freed
    refine hmem.trans (and_congr_right fun _ => ⟨fun hne x hx heq _ => ?_, fun hall => ?_⟩)
    · rw [h.eq_of_addr hx ho (heq.trans haddr.symm)]
      exact hne.symm
    · exact (hall o ho haddr hcalls).symm
  | quiet hquiet =>
    rw [iff_self_and]
    exact fun _ o ho heq hcalls => absurd hcalls (hquiet o ho heq)

theorem Handled.sublist (hhandled : Handled code a addr a') : a'.blocks.Sublist a.blocks := by
  cases hhandled with
  | calls _ _ _ => exact List.filter_sublist
  | quiet _ => exact .refl _

/-- An object that has a pointer after the message is another one than the message is about. -/
theorem Handled.mem_objects (h : a.Ok code) (hhandled : Handled code a addr a') (htype : o.type = .scannedPointer)
    (hnonnull : o.pointer ≠ null) : o ∈ a'.state.objects ↔ o ∈ a.state.objects ∧ o.addr ≠ addr := by
  rw [hhandled.state, ManagedObjState.objects_mpsChatRound h.objects, updateKey, List.mem_map]
  constructor
  · rintro ⟨x, hx, rfl⟩
    split at htype
    · rename_i heq
      rw [if_pos heq] at hnonnull
      exact absurd (if_pos htype) hnonnull
    · rename_i hne
      rw [if_neg hne]
      exact ⟨hx, hne⟩
  · exact fun hold => ⟨o, hold.1, if_neg hold.2⟩

theorem Handled.ok (h : a.Ok code) (hhandled : Handled code a addr a') : a'.Ok code := by
  have hobjects : a'.state.objects = updateKey Object.addr addr Object.settled a.state.objects := by
    rw [hhandled.state, ManagedObjState.objects_mpsChatRound h.objects]
  refine h.lose (f := Object.settled) (fun _ => rfl) (fun o htype => if_pos htype) hobjects hhandled.sublist
    fun b hb hgone => ?_
  rw [hhandled.mem_blocks h] at hgone
  push Not at hgone
  obtain ⟨o, ho, haddr, hcalls, hpointer⟩ := hgone hb
  exact ⟨o, ho, haddr, hcalls.1, hcalls.2.1, hpointer⟩

/-! ### The other steps -/

theorem Ok.grow (h : a.Ok code) (hb : b.addr ≠ null ∧ b.addr ∉ a.blocks.map Block.addr)
    (hblocks : a'.blocks = b :: a.blocks) (hstate : a'.state = a.state) : a'.Ok code where
  blocks := by
    rw [hblocks]
    exact List.nodup_cons.mpr ⟨hb.2, h.blocks⟩
  nonnull b' hb' := by
    rw [hblocks] at hb'
    rcases List.mem_cons.mp hb' with rfl | hb'
    · exact hb.1
    · exact h.nonnull b' hb'
  objects := hstate ▸ h.objects
  live o ho htype hnonnull := by
    obtain ⟨b', hb', hfits⟩ := h.live o (hstate ▸ ho) htype hnonnull
    exact ⟨b', hblocks ▸ List.mem_cons_of_mem b hb', hfits⟩
  once o ho o' ho' := h.once o (hstate ▸ ho) o' (hstate ▸ ho')

/-- The client frees what it has. -/
theorem Ok.freed (h : a.Ok code) (hp : ¬ a.Owned p) (amount : BitVec 64) : (a.freed p amount).Ok code := by
  refine h.of_objects h.objects List.filter_sublist fun o ho htype _ => ⟨⟨o, ho, rfl, htype, rfl, rfl⟩, ?_⟩
  intro b hb hpointer
  exact mem_freed.mpr ⟨hb, fun heq => hp ⟨o, ho, htype, hpointer.symm.trans heq⟩⟩

/-- A new object, which gets a block that no other object has, if any. -/
theorem Ok.extend (h : a.Ok code) (hnew : o.addr ∉ a.state.objects.map Object.addr)
    (hpointer : o.type = .scannedPointer → o.pointer ≠ null → a.Has o.pointer ∧
      (o.finalizationCallback ≠ null → ∀ b ∈ a.blocks, b.addr = o.pointer → (code o.finalizationCallback).Fits b))
    (hblocks : a'.blocks = a.blocks) (hobjects : a'.state.objects = o :: a.state.objects) : a'.Ok code where
  blocks := hblocks ▸ h.blocks
  nonnull := hblocks ▸ h.nonnull
  objects := by
    rw [hobjects]
    exact List.nodup_cons.mpr ⟨hnew, h.objects⟩
  live o' ho' htype hnonnull := by
    rw [hobjects] at ho'
    rw [hblocks]
    rcases List.mem_cons.mp ho' with rfl | ho'
    · obtain ⟨⟨hmem, -⟩, hfits⟩ := hpointer htype hnonnull
      obtain ⟨b, hb, haddr⟩ := List.mem_map.mp hmem
      exact ⟨b, hb, haddr, fun hcallback => hfits hcallback b hb haddr⟩
    · exact h.live o' ho' htype hnonnull
  once o₁ ho₁ o₂ ho₂ htype₁ htype₂ hnonnull hsame := by
    rw [hobjects] at ho₁ ho₂
    rcases List.mem_cons.mp ho₁ with rfl | hold₁
    · rcases List.mem_cons.mp ho₂ with rfl | hold₂
      · rfl
      · exact absurd ⟨o₂, hold₂, htype₂, hsame.symm⟩ (hpointer htype₁ hnonnull).1.2
    · rcases List.mem_cons.mp ho₂ with rfl | hold₂
      · exact absurd ⟨o₁, hold₁, htype₁, hsame⟩ (hpointer htype₂ (hsame ▸ hnonnull)).1.2
      · exact h.once o₁ hold₁ o₂ hold₂ htype₁ htype₂ hnonnull hsame

/-- The pin flags are no pointers. -/
theorem Ok.setPinned (h : a.Ok code) {pinned : Bool} (hblocks : a'.blocks = a.blocks)
    (hobjects : a'.state.objects = updateKey Object.addr addr (fun o => { o with pinned := pinned })
      a.state.objects) : a'.Ok code := by
  have hsame : (a'.state.objects.map Object.addr) = a.state.objects.map Object.addr := by
    rw [hobjects]
    exact map_updateKey fun _ => rfl
  refine h.of_objects (hsame ▸ h.objects) (hblocks ▸ .refl _) ?_
  intro o' ho' htype' _
  rw [hobjects] at ho'
  obtain ⟨o, ho, rfl⟩ := List.mem_map.mp ho'
  refine ⟨⟨o, ho, ?_⟩, fun b hb _ => hblocks ▸ hb⟩
  split at htype'
  · rename_i heq
    rw [if_pos heq]
    exact ⟨rfl, htype', rfl, rfl⟩
  · rename_i hne
    rw [if_neg hne]
    exact ⟨rfl, htype', rfl, rfl⟩

/-- A step that keeps to the ownership returns, but for a table that is too large, and keeps the invariant. -/
def Keeps (code : Nat → Callback) (sizeofLd : Nat) (a : Arena) (op : MemoryOp) : Prop :=
  (∃ a', a.step code sizeofLd op = .ok a' ∧ a'.Ok code) ∨ ∃ stop, a.step code sizeofLd op = .error (.stop stop)

variable {sizeofLd : Nat}

theorem Ok.object (h : a.Ok code) {op : CounterOp} (hlawful : a.Lawful code (.object op)) :
    a.Keeps code sizeofLd (.object op) := by
  cases op with
  | makeEmpty addr =>
    exact .inl ⟨_, rfl, h.extend (o := emptyObject addr) hlawful.notMem (fun htype => by cases htype) rfl rfl⟩
  | makeScannedWithFinalizer addr pointer callback =>
    obtain ⟨hfresh, hpointer⟩ := hlawful
    exact .inl ⟨_, rfl, h.extend (o := scannedPointerObject addr pointer callback) hfresh.notMem
      (fun _ hnonnull => hpointer hnonnull) rfl rfl⟩
  | makeString addr length =>
    exact .inl ⟨_, rfl, h.extend (o := stringObject addr length) hlawful.notMem (fun htype => by cases htype) rfl rfl⟩
  | makeBuckets addr length =>
    exact .inl ⟨_, rfl, h.extend (o := bucketsObject addr length) hlawful.notMem (fun htype => by cases htype) rfl rfl⟩
  | makeTable addr keys values length =>
    obtain ⟨hnodup, -⟩ := hlawful
    obtain ⟨hvalues, hkeys, haddr, -⟩ :
        values ∉ keys :: addr :: a.state.objects.map Object.addr ∧ keys ∉ addr :: a.state.objects.map Object.addr ∧
          addr ∉ a.state.objects.map Object.addr ∧ _ := by
      simpa [List.nodup_cons] using hnodup
    have hmake : a.state.step sizeofLd (.makeTable addr keys values length) = _ :=
      ManagedObjState.makeTable_eq keys values length
    cases hround : Metadata.roundUp length 65 1 with
    | error stop =>
      rw [hround] at hmake
      refine .inr ⟨stop, ?_⟩
      rw [Arena.step, hmake]
      rfl
    | ok l =>
      rw [hround] at hmake
      -- the table is committed first, then its two arrays
      have htable : ({ a with state := a.state.add (tableObject sizeofLd addr) } : Arena).Ok code :=
        h.extend haddr (fun htype => by cases htype) rfl rfl
      have hkeys : ({ a with
          state := (a.state.add (tableObject sizeofLd addr)).add (bucketsObject keys l) } : Arena).Ok code :=
        htable.extend hkeys (fun htype => by cases htype) rfl rfl
      have hvalues : ({ a with
          state := ((a.state.add (tableObject sizeofLd addr)).add (bucketsObject keys l)).add
            (bucketsObject values l) } : Arena).Ok code :=
        hkeys.extend hvalues (fun htype => by cases htype) rfl rfl
      refine .inl ⟨_, ?_, hvalues⟩
      rw [Arena.step, hmake]
      rfl
  | pin addr => exact .inl ⟨_, rfl, h.setPinned rfl rfl⟩
  | unpin addr => exact .inl ⟨_, rfl, h.setPinned rfl rfl⟩
  | message m => exact hlawful.elim

theorem Ok.step (h : a.Ok code) {op : MemoryOp} (hlawful : a.Lawful code op) : a.Keeps code sizeofLd op := by
  cases op with
  | malloc s p =>
    cases p with
    | none => exact .inl ⟨a, rfl, h⟩
    | some p => exact .inl ⟨_, rfl, h.grow (b := ⟨p, s, 0⟩) (hlawful p rfl) rfl rfl⟩
  | managedObjMalloc s p =>
    cases p with
    | none => exact .inl ⟨a, rfl, h⟩
    | some p => exact .inl ⟨_, rfl, h.grow (b := ⟨p, s, BitVec.ofNat 64 s⟩) (hlawful p rfl) rfl rfl⟩
  | free p =>
    by_cases hnull : p = null
    · exact .inl ⟨a, if_pos hnull, h⟩
    · exact .inl ⟨_, free_eq (hlawful hnull).1 hnull, h.freed (hlawful hnull).2 _⟩
  | managedObjFree p s =>
    by_cases hnull : p = null
    · subst hnull
      exact .inl ⟨a, rfl, h⟩
    · exact .inl ⟨_, managedObjFree_eq (hlawful hnull).1 hnull s, h.freed (hlawful hnull).2 _⟩
  | managedObjDelete p sizeofT =>
    obtain ⟨⟨hmem, howned⟩, hfits⟩ := hlawful
    obtain ⟨b, hb, rfl⟩ := List.mem_map.mp hmem
    exact .inl ⟨_, managedObjDelete_eq hb (h.nonnull b hb) (hfits b hb rfl), h.freed howned _⟩
  | setNull addr =>
    refine .inl ⟨_, rfl, h.lose (f := fun o => { o with pointer := null }) (fun _ => rfl) (fun _ _ => rfl) rfl
      (.refl _) fun b hb hgone => absurd hb hgone⟩
  | message m =>
    cases m with
    | gcStart => exact .inl ⟨a, rfl, h⟩
    | gc => exact .inl ⟨a, rfl, h⟩
    | finalization addr =>
      obtain ⟨a', hround, hhandled⟩ := h.handles addr
      exact .inl ⟨a', hround, hhandled.ok h⟩
  | object op => exact h.object hlawful

/-! ### Runs -/

abbrev MemoryRun (code : Nat → Callback) (sizeofLd : Nat) (hist : List MemoryOp) (a : Arena) : Prop :=
  Run (fun _ a op a' => a.Lawful code op ∧ a.step code sizeofLd op = .ok a') {} hist a

variable {hist : List MemoryOp}

theorem ok_init : ({} : Arena).Ok code where
  blocks := List.nodup_nil
  nonnull b hb := by cases hb
  objects := List.nodup_nil
  live o ho := by cases ho
  once o ho := by cases ho

theorem Ok.of_step (h : a.Ok code) {op : MemoryOp} (hlawful : a.Lawful code op)
    (hstep : a.step code sizeofLd op = .ok a') : a'.Ok code := by
  have hkeeps : a.Keeps code sizeofLd op := h.step hlawful
  rcases hkeeps with ⟨a₁, hok, h₁⟩ | ⟨stop, herror⟩
  · rw [hstep] at hok
    cases hok
    exact h₁
  · rw [hstep] at herror
    cases herror

theorem MemoryRun.ok (hrun : MemoryRun code sizeofLd hist a) : a.Ok code :=
  hrun.invariant (fun _ a => a.Ok code) ok_init fun _ _ _ _ h hstep => h.of_step hstep.1 hstep.2

/-- A block of `managed_obj_malloc` and the object that deletes it. -/
def oneOwned : Arena where
  state := ({} : ManagedObjState).makeScannedWithFinalizer 8 4096 1
  allocatedBytes := 16
  blocks := [⟨4096, 16, 16⟩]

def deletes : Nat → Callback := fun _ => .delete 16

theorem oneOwned_run : Run (fun _ a op a' =>
    (a.Lawful deletes op ∧ a.step deletes 24 op = .ok a') ∧ a.Matched deletes op) {}
    [.object (.makeScannedWithFinalizer 8 4096 1), .managedObjMalloc 16 (some 4096)] oneOwned := by
  have hmalloc : ({} : Arena).Lawful deletes (.managedObjMalloc 16 (some 4096)) := by
    intro addr haddr
    cases haddr
    exact ⟨by decide, List.not_mem_nil⟩
  have hmake : ({ allocatedBytes := 16, blocks := [⟨4096, 16, 16⟩] } : Arena).Lawful deletes
      (.object (.makeScannedWithFinalizer 8 4096 1)) := by
    refine ⟨⟨by decide, by decide⟩, fun _ => ⟨⟨by decide, fun howned => ?_⟩, fun _ b hb _ => ?_⟩⟩
    · obtain ⟨o, ho, -⟩ := howned
      cases ho
    · rw [List.mem_singleton.mp hb]
      exact Nat.le_refl 16
  exact (Run.start.next ⟨⟨hmalloc, rfl⟩, trivial⟩).next ⟨⟨hmake, rfl⟩, trivial⟩

theorem oneOwned_owns : MemoryRun deletes 24
    [.object (.makeScannedWithFinalizer 8 4096 1), .managedObjMalloc 16 (some 4096)] oneOwned :=
  oneOwned_run.mono fun _ _ _ _ hstep => hstep.1

/-- A client that keeps to the ownership never frees a block twice, nor does a finalization, whatever messages
come, and nothing is written outside of a block. The memory of an object is live until the object frees it, and
no other object has it. -/
theorem never_frees_twice (hrun : MemoryRun code sizeofLd hist a) :
    (∀ op fault, a.Lawful code op → a.step code sizeofLd op = .error fault → ∃ stop, fault = .stop stop) ∧
    (∀ o ∈ a.state.objects, o.type = .scannedPointer → o.pointer ≠ null → ∃ b ∈ a.blocks, b.addr = o.pointer) ∧
    ∀ o ∈ a.state.objects, ∀ o' ∈ a.state.objects, o.type = .scannedPointer → o'.type = .scannedPointer →
      o.pointer ≠ null → o.pointer = o'.pointer → o.addr = o'.addr := by
  have h := hrun.ok
  refine ⟨fun op fault hlawful hfault => ?_, fun o ho htype hnonnull => ?_, h.once⟩
  · have hkeeps : a.Keeps code sizeofLd op := h.step hlawful
    rcases hkeeps with ⟨a₁, hok, -⟩ | ⟨stop, herror⟩
    · rw [hfault] at hok
      cases hok
    · rw [hfault] at herror
      cases herror
      exact ⟨stop, rfl⟩
  · obtain ⟨b, hb, haddr, -⟩ := h.live o ho htype hnonnull
    exact ⟨b, hb, haddr⟩

theorem never_frees_twice_oneOwned :
    (∀ op fault, oneOwned.Lawful deletes op → oneOwned.step deletes 24 op = .error fault →
      ∃ stop, fault = .stop stop) ∧
    (∀ o ∈ oneOwned.state.objects, o.type = .scannedPointer → o.pointer ≠ null →
      ∃ b ∈ oneOwned.blocks, b.addr = o.pointer) ∧
    ∀ o ∈ oneOwned.state.objects, ∀ o' ∈ oneOwned.state.objects, o.type = .scannedPointer →
      o'.type = .scannedPointer → o.pointer ≠ null → o.pointer = o'.pointer → o.addr = o'.addr :=
  never_frees_twice oneOwned_owns

theorem Ok.mpsChat (h : a.Ok code) (messages : List Message) :
    ∃ a', a.mpsChat code messages = .ok a' ∧ a'.Ok code ∧
      (∀ b, b ∈ a'.blocks ↔ b ∈ a.blocks ∧
        ∀ o ∈ a.state.objects, .finalization o.addr ∈ messages → o.Calls → o.pointer ≠ b.addr) ∧
      ∀ o, o.type = .scannedPointer → o.pointer ≠ null →
        (o ∈ a'.state.objects ↔ o ∈ a.state.objects ∧ .finalization o.addr ∉ messages) := by
  induction messages generalizing a with
  | nil =>
    refine ⟨a, rfl, h, fun b => ?_, fun o _ _ => ?_⟩
    · rw [iff_self_and]
      exact fun _ o _ hmem => absurd hmem List.not_mem_nil
    · rw [iff_self_and]
      exact fun _ => List.not_mem_nil
  | cons m messages ih =>
    cases m with
    | gcStart =>
      obtain ⟨a', hchat, hok, hblocks, hobjects⟩ := ih h
      refine ⟨a', hchat, hok, fun b => ?_, fun o htype hnonnull => ?_⟩
      · simpa using hblocks b
      · simpa using hobjects o htype hnonnull
    | gc =>
      obtain ⟨a', hchat, hok, hblocks, hobjects⟩ := ih h
      refine ⟨a', hchat, hok, fun b => ?_, fun o htype hnonnull => ?_⟩
      · simpa using hblocks b
      · simpa using hobjects o htype hnonnull
    | finalization addr =>
      obtain ⟨a₁, hround, hhandled⟩ := h.handles addr
      obtain ⟨a', hchat, hok, hblocks, hobjects⟩ := ih (hhandled.ok h)
      refine ⟨a', ?_, hok, fun b => ?_, fun o htype hnonnull => ?_⟩
      · rw [Arena.mpsChat, List.foldlM_cons, hround]
        exact hchat
      · rw [hblocks, hhandled.mem_blocks h, and_assoc]
        refine and_congr_right fun _ => ⟨fun hall o ho hmem hcalls => ?_, fun hall => ⟨?_, ?_⟩⟩
        · by_cases heq : o.addr = addr
          · exact hall.1 o ho heq hcalls
          · refine hall.2 o ((hhandled.mem_objects h hcalls.1 hcalls.2.1).mpr ⟨ho, heq⟩) ?_ hcalls
            simpa [heq] using hmem
        · rintro o ho rfl hcalls
          exact hall o ho List.mem_cons_self hcalls
        · intro o ho hmem hcalls
          have hold := ((hhandled.mem_objects h hcalls.1 hcalls.2.1).mp ho).1
          exact hall o hold (List.mem_cons_of_mem _ hmem) hcalls
      · rw [hobjects o htype hnonnull, hhandled.mem_objects h htype hnonnull, and_assoc]
        refine and_congr_right fun _ => ?_
        simp

/-- Handling messages frees exactly the memory of the objects that they name, once each, and only the other
objects keep their pointers. Where all objects that own memory are named, as at the end, and have a callback, no
memory is left but what the client has. -/
theorem chat_frees_named (hrun : MemoryRun code sizeofLd hist a) (messages : List Message) :
    ∃ a', a.mpsChat code messages = .ok a' ∧
      (∀ b, b ∈ a'.blocks ↔ b ∈ a.blocks ∧
        ∀ o ∈ a.state.objects, .finalization o.addr ∈ messages → o.Calls → o.pointer ≠ b.addr) ∧
      (∀ o, o.type = .scannedPointer → o.pointer ≠ null →
        (o ∈ a'.state.objects ↔ o ∈ a.state.objects ∧ .finalization o.addr ∉ messages)) ∧
      ((∀ o ∈ a.state.objects, o.type = .scannedPointer → o.pointer ≠ null →
          o.finalizationCallback ≠ null ∧ .finalization o.addr ∈ messages) →
        ∀ b, b ∈ a'.blocks ↔ b ∈ a.blocks ∧ ¬ a.Owned b.addr) := by
  have h := hrun.ok
  obtain ⟨a', hchat, -, hblocks, hobjects⟩ := h.mpsChat messages
  refine ⟨a', hchat, hblocks, hobjects, fun hall b => (hblocks b).trans (and_congr_right fun hb => ?_)⟩
  constructor
  · rintro hothers ⟨o, ho, htype, hpointer⟩
    have hnonnull : o.pointer ≠ null := hpointer ▸ h.nonnull b hb
    obtain ⟨hcallback, hnamed⟩ := hall o ho htype hnonnull
    exact hothers o ho hnamed ⟨htype, hnonnull, hcallback⟩ hpointer
  · exact fun howned o ho _ hcalls hpointer => howned ⟨o, ho, hcalls.1, hpointer⟩

/-- An empty object beside the one that owns a block. -/
def ownedAndEmpty : Arena := { oneOwned with state := oneOwned.state.makeEmpty 64 }

/-- The message comes twice, and the empty object stays unnamed. -/
theorem chat_frees_named_ownedAndEmpty :
    ∃ a', ownedAndEmpty.mpsChat deletes [.finalization 8, .gc, .finalization 8] = .ok a' ∧ a'.blocks = [] := by
  have hfresh : oneOwned.state.Fresh [64] := ⟨by decide, by decide⟩
  have hrun : MemoryRun deletes 24 [.object (.makeEmpty 64), .object (.makeScannedWithFinalizer 8 4096 1),
      .managedObjMalloc 16 (some 4096)] ownedAndEmpty := oneOwned_owns.next ⟨hfresh, rfl⟩
  obtain ⟨a', hchat, -, -, hleft⟩ := chat_frees_named hrun [.finalization 8, .gc, .finalization 8]
  refine ⟨a', hchat, List.eq_nil_iff_forall_not_mem.mpr fun b hb => ?_⟩
  obtain ⟨hblock, howned⟩ := (hleft (by decide) b).mp hb
  rw [List.mem_singleton.mp hblock] at howned
  exact howned ⟨scannedPointerObject 8 4096 1, List.mem_cons_of_mem _ List.mem_cons_self, rfl, rfl⟩

/-! ### The bytes -/

theorem sum_filter {blocks : List Block} (hnodup : (blocks.map Block.addr).Nodup) (hb : b ∈ blocks) :
    ((blocks.filter fun b' => b'.addr ≠ b.addr).map Block.counted).sum + b.counted =
      (blocks.map Block.counted).sum := by
  obtain ⟨l₁, l₂, rfl⟩ := List.append_of_mem hb
  rw [List.map_append, List.map_cons, List.nodup_append, List.nodup_cons] at hnodup
  obtain ⟨-, ⟨hafter, -⟩, hbefore⟩ := hnodup
  have hkeep : ∀ l : List Block, (∀ b' ∈ l, b'.addr ≠ b.addr) → l.filter (fun b' => b'.addr ≠ b.addr) = l :=
    fun l hl => List.filter_eq_self.mpr fun b' hb' => decide_eq_true (hl b' hb')
  have hl₁ := hkeep l₁ fun b' hb' => hbefore b'.addr (List.mem_map_of_mem hb') b.addr List.mem_cons_self
  have hl₂ := hkeep l₂ fun b' hb' heq => hafter (heq ▸ List.mem_map_of_mem hb')
  rw [List.filter_append, List.filter_cons_of_neg (by simp), hl₁, hl₂]
  simp only [List.map_append, List.map_cons, List.sum_append, List.sum_cons]
  abel

/-- Freeing a block keeps the balance if what was added for it is added to `freed_bytes`. -/
theorem Ok.balanced_freed (h : a.Ok code) (hbalanced : a.Balanced) (hp : p ∈ a.blocks.map Block.addr)
    (amount : BitVec 64) : (a.freed p amount).Balanced ↔ ∀ b ∈ a.blocks, b.addr = p → b.counted = amount := by
  obtain ⟨b, hb, rfl⟩ := List.mem_map.mp hp
  have hsum := sum_filter h.blocks hb
  have hone : (∀ b' ∈ a.blocks, b'.addr = b.addr → b'.counted = amount) ↔ b.counted = amount := by
    refine ⟨fun hall => hall b hb rfl, fun heq b' hb' haddr => ?_⟩
    rw [List.inj_on_of_nodup_map h.blocks hb' hb haddr, heq]
  rw [hone, Balanced, Arena.freed]
  dsimp only
  rw [Balanced, ← hsum] at hbalanced
  rw [← sub_sub, hbalanced, add_sub_assoc, add_eq_left, sub_eq_zero]

theorem Ok.balanced_step (h : a.Ok code) (hbalanced : a.Balanced) {op : MemoryOp} (hlawful : a.Lawful code op)
    (hstep : a.step code sizeofLd op = .ok a') : a'.Balanced ↔ a.Matched code op := by
  cases op with
  | malloc s p =>
    cases hstep
    refine iff_of_true ?_ trivial
    cases p with
    | none => exact hbalanced
    | some p => exact hbalanced.trans (by rw [malloc, List.map_cons, List.sum_cons, zero_add])
  | managedObjMalloc s p =>
    cases hstep
    refine iff_of_true ?_ trivial
    cases p with
    | none => exact hbalanced
    | some p =>
      show a.allocatedBytes + BitVec.ofNat 64 s - a.freedBytes =
        BitVec.ofNat 64 s + (a.blocks.map Block.counted).sum
      rw [← show a.allocatedBytes - a.freedBytes = _ from hbalanced]
      abel
  | free p =>
    by_cases hnull : p = null
    · have hsame : a.step code sizeofLd (.free p) = .ok a := if_pos hnull
      rw [hsame] at hstep
      cases hstep
      exact iff_of_true hbalanced fun b hb haddr => absurd (haddr.trans hnull) (h.nonnull b hb)
    · rw [show a.step code sizeofLd (.free p) = _ from free_eq (hlawful hnull).1 hnull] at hstep
      cases hstep
      exact h.balanced_freed hbalanced (hlawful hnull).1 0
  | managedObjFree p s =>
    by_cases hnull : p = null
    · subst hnull
      cases hstep
      exact iff_of_true hbalanced fun b hb haddr => absurd haddr (h.nonnull b hb)
    · rw [show a.step code sizeofLd (.managedObjFree p s) = _ from
        managedObjFree_eq (hlawful hnull).1 hnull s] at hstep
      cases hstep
      exact h.balanced_freed hbalanced (hlawful hnull).1 _
  | managedObjDelete p sizeofT =>
    obtain ⟨⟨hmem, -⟩, hfits⟩ := hlawful
    obtain ⟨b, hb, rfl⟩ := List.mem_map.mp hmem
    rw [show a.step code sizeofLd (.managedObjDelete b.addr sizeofT) = _ from
      managedObjDelete_eq hb (h.nonnull b hb) (hfits b hb rfl)] at hstep
    cases hstep
    exact h.balanced_freed hbalanced hmem _
  | setNull addr =>
    cases hstep
    exact iff_of_true hbalanced trivial
  | message m =>
    cases m with
    | gcStart =>
      cases hstep
      exact iff_of_true hbalanced trivial
    | gc =>
      cases hstep
      exact iff_of_true hbalanced trivial
    | finalization addr =>
      obtain ⟨a₁, hround, hhandled⟩ := h.handles addr
      rw [show a.step code sizeofLd (.message (.finalization addr)) = _ from hround] at hstep
      cases hstep
      cases hhandled with
      | @calls o ho haddr hcalls =>
        obtain ⟨b, hb, hpointer, -⟩ := h.live o ho hcalls.1 hcalls.2.1
        have hmem : o.pointer ∈ a.blocks.map Block.addr := List.mem_map.mpr ⟨b, hb, hpointer⟩
        have hfreed := h.balanced_freed hbalanced hmem (code o.finalizationCallback).amount
        refine hfreed.trans ⟨fun hall x hx heq _ => ?_, fun hall => hall o ho haddr hcalls⟩
        rw [h.eq_of_addr hx ho (heq.trans haddr.symm)]
        exact hall
      | quiet hquiet =>
        exact iff_of_true hbalanced fun o ho heq hcalls => absurd hcalls (hquiet o ho heq)
  | object op =>
    have hsame : a'.allocatedBytes = a.allocatedBytes ∧ a'.freedBytes = a.freedBytes ∧ a'.blocks = a.blocks := by
      rw [Arena.step] at hstep
      split at hstep
      · cases hstep
        exact ⟨rfl, rfl, rfl⟩
      · cases hstep
    refine iff_of_true ?_ trivial
    rw [Balanced, hsame.1, hsame.2.1, hsame.2.2]
    exact hbalanced

/-- While every block is freed with what was added for it, the two counters agree with the live blocks, and the
next step keeps that if and only if it frees in this way too. -/
theorem bytes_balanced_iff
    (hrun : Run (fun _ a op a' => (a.Lawful code op ∧ a.step code sizeofLd op = .ok a') ∧ a.Matched code op)
      {} hist a) :
    a.Balanced ∧ ∀ op a', a.Lawful code op → a.step code sizeofLd op = .ok a' →
      (a'.Balanced ↔ a.Matched code op) := by
  have hinv : a.Ok code ∧ a.Balanced := by
    apply hrun.invariant fun _ a => a.Ok code ∧ a.Balanced
    · exact ⟨ok_init, rfl⟩
    · intro hist a op a' h hstep
      obtain ⟨⟨hlawful, hstep⟩, hmatched⟩ := hstep
      exact ⟨h.1.of_step hlawful hstep, (h.1.balanced_step h.2 hlawful hstep).mpr hmatched⟩
  exact ⟨hinv.2, fun op a' hlawful hstep => hinv.1.balanced_step hinv.2 hlawful hstep⟩

theorem bytes_balanced_iff_oneOwned :
    oneOwned.Balanced ∧ ∀ op a', oneOwned.Lawful deletes op → oneOwned.step deletes 24 op = .ok a' →
      (a'.Balanced ↔ oneOwned.Matched deletes op) :=
  bytes_balanced_iff oneOwned_run

end Arena

end ManagedObject.State
