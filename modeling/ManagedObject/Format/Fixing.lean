import ManagedObject.Format.Blocks
import ManagedObject.Format.Walk

/-!
# Scanning a region

When every fix succeeds and relocates by one map, each part of the scanner makes the calls that
`Block.calls` lists and rewrites the fields that `Block.presented` lists, and goes on where
`managed_obj_skip` does. That the fields of one block, and of one block and the next, do not overlap is
what lets these lists be appended over a region. For any other fix operation only the order matters: a
call that fails is the last one.
-/

namespace ManagedObject.Format

open Lib

variable {sizeofLd obj offset addr base fuel : Nat} {mem mem' : Memory}
variable {F : Fix} {f : Nat → Nat} {s s' s'' : Scan}

/-! ## Runs -/

theorem bind_run {α β : Type} {x : ScanM α} {g : α → ScanM β} {a : α} (h : x s = .ok a s') :
    (x >>= g) s = g a s' := by
  show EStateM.bind x g s = g a s'
  rw [EStateM.bind, h]

/-- Every fix succeeds, and relocates by the map `f`: the MPS answers with the new address of what it
moves, rejects what it does not, and never makes an address `NULL`. -/
structure Fix.Relocates (F : Fix) (f : Nat → Nat) : Prop where
  moved : ∀ log a, F.fix1 a = true → F.fix2 log a = .ok (f a)
  rejected : ∀ a, F.fix1 a = false → f a = a
  scanned : ∀ log scanner pointer, F.scanner log scanner pointer = .ok ()
  nonnull : ∀ a, a ≠ null → f a ≠ null
  address : ∀ a < 2 ^ 64, f a < 2 ^ 64

/-- What was done from one state to the other: calls, and fields that were rewritten. -/
structure Fixed (f : Nat → Nat) (fields : List Nat) (calls : List Event) (s s' : Scan) : Prop where
  log : s'.log = calls.reverse ++ s.log
  mem : Rewritten sizeofPointer f s.mem s'.mem fields

namespace Fixed

variable {fields fields' : List Nat} {calls calls' : List Event}

theorem refl (s : Scan) : Fixed f [] [] s s := ⟨rfl, .nil⟩

theorem trans (h : Fixed f fields calls s s') (h' : Fixed f fields' calls' s' s'')
    (hapart : ∀ a ∈ fields, ∀ b ∈ fields', a + sizeofPointer ≤ b ∨ b + sizeofPointer ≤ a) :
    Fixed f (fields ++ fields') (calls ++ calls') s s'' := by
  refine ⟨?_, h.mem.append h'.mem hapart⟩
  rw [h'.log, h.log, List.reverse_append, List.append_assoc]

end Fixed

theorem Fix.Relocates.mpsFix2 (hF : F.Relocates f) {field value : Nat} (haccepted : F.fix1 value = true) :
    mpsFix2 F field value s = .ok (f value) ⟨s.mem, .fix field value (.ok (f value)) :: s.log⟩ := by
  simp only [Format.mpsFix2, hF.moved _ _ haccepted]

theorem Fix.Relocates.mpsFix12 (hF : F.Relocates f) {field value : Nat} :
    mpsFix12 F field value s = .ok (f value) ⟨s.mem, .fix field value (.ok (f value)) :: s.log⟩ := by
  rw [Format.mpsFix12]
  cases haccepted : F.fix1 value with
  | true => exact hF.mpsFix2 haccepted
  | false =>
    rw [hF.rejected value haccepted]
    rfl

/-- What scanning a block relies on; `refs` are the references of the whole region. The array that the
dependent is fixed to has the length of this one, and no reference of the region overlaps that length. -/
structure Ready (sizeofLd : Nat) (f : Nat → Nat) (refs : List Nat) (mem : Memory) (addr : Nat)
    (b : Block) : Prop where
  laid : b.Laid sizeofLd mem addr
  slots : ∀ a ∈ b.slots addr, mem.load a sizeofPointer ≠ null
  matched : ∀ length, b = .buckets length → word mem addr offsetofDependent ≠ null →
    word mem (f (word mem addr offsetofDependent)) offsetofBucketsLength = tagCount length ∧
      ∀ a ∈ refs, a + sizeofPointer ≤ f (word mem addr offsetofDependent) + offsetofBucketsLength ∨
        f (word mem addr offsetofDependent) + offsetofBucketsLength + sizeofPointer ≤ a

/-- A block behind the fields that were rewritten can be scanned as before. -/
theorem Ready.frame {refs fields : List Nat} {b : Block} (h : Ready sizeofLd f refs mem addr b)
    (hmem : Rewritten sizeofPointer f mem mem' fields) (hfields : fields ⊆ refs)
    (hbelow : ∀ a ∈ fields, a + sizeofPointer ≤ addr) : Ready sizeofLd f refs mem' addr b := by
  have hload : ∀ a n, addr ≤ a → mem'.load a n = mem.load a n := by
    intro a n ha
    exact hmem.load_eq fun c hc => .inr (Nat.le_trans (hbelow c hc) ha)
  have hdependent : word mem' addr offsetofDependent = word mem addr offsetofDependent :=
    hload _ _ (Nat.le_add_right _ _)
  constructor
  · refine ⟨h.laid.fits, h.laid.below, ?_⟩
    intro w hw
    exact (hload _ _ (Block.le_header hw)).trans (h.laid.holds w hw)
  · intro a ha
    rw [hload a _ (Nat.le_trans (Nat.le_add_right _ _) (Block.slots_within h.laid.fits ha).1)]
    exact h.slots a ha
  · intro length hb
    rw [hdependent]
    intro hnull
    obtain ⟨hmatched, houtside⟩ := h.matched length hb hnull
    refine ⟨?_, houtside⟩
    rw [← hmatched]
    exact hmem.load_eq fun c hc => (houtside c (hfields hc)).symm

end ManagedObject.Format
