import ManagedObject.Format.Objects
import ManagedObject.Lib.Tiling
import Mathlib.Logic.Relation

/-!
# A region of a pool

A region as the MPS sees it: consecutive blocks, each of which is unused, an object or padding. A
constructor turns an unused block of the size it reserves into an object, `managed_obj_fwd` replaces
an object by a forwarding object, `managed_obj_pad` fills an unused block, and the program stores to
the fields of its objects. `Laid` says which fields in memory make a block what it is, and every
step keeps that.
-/

namespace ManagedObject.Format

open Lib

structure Span where
  size : Nat
  pos : 0 < size
  aligned : alignment ∣ size

/-- A constructor with its arguments; for a hash table, up to the commit of the table itself. -/
inductive Constructor
  | empty
  | scannedPointer (pointer scanner finalizationCallback : Nat)
  | string (length : Nat) (string : Option (Nat → UInt8))
  | buckets (length unused : Nat)
  | hashtable

namespace Constructor

/-- The size before it is rounded. -/
def needs (sizeofLd : Nat) : Constructor → Nat
  | .empty => sizeofEmpty
  | .scannedPointer .. => sizeofScannedPointer
  | .string length _ => offsetofString + length + 1
  | .buckets length _ => offsetofBucket + length * sizeofPointer
  | .hashtable => sizeofHashtable sizeofLd

/-- The `size` that is passed to `mps_reserve`. -/
def size (sizeofLd : Nat) : Constructor → Nat
  | .empty => alignObj sizeofEmpty
  | .scannedPointer .. => alignObj sizeofScannedPointer
  | .string length _ => alignObj (wrap (offsetofString + length + 1))
  | .buckets length _ => alignObj (wrap (offsetofBucket + wrap (length * sizeofPointer)))
  | .hashtable => alignObj (sizeofHashtable sizeofLd)

/-- What is stored to the block at `obj` before it is committed. -/
def writes (sizeofLd obj : Nat) : Constructor → List Write
  | .empty => makeEmpty obj
  | .scannedPointer pointer scanner finalizationCallback =>
    makeScannedWithFinalizer obj pointer scanner finalizationCallback
  | .string length s => makeString obj length s
  | .buckets length unused => makeBuckets obj length unused
  | .hashtable => makeTableReserved sizeofLd obj

/-- The type and, where the size depends on it, the length. -/
def header (obj : Nat) : Constructor → List Write
  | .empty => [setType obj .empty]
  | .scannedPointer .. => [setType obj .scannedPointer]
  | .string length _ => [setType obj .metadataString, setWord obj offsetofStringLength length]
  | .buckets length _ =>
    [setType obj .metadataHashTableBucket, setWord obj offsetofBucketsLength (tagCount length)]
  | .hashtable => [setType obj .metadataHashTable]

end Constructor

/-- A constructor call whose size computation does not wrap around. -/
structure Call (sizeofLd : Nat) where
  constructor : Constructor
  fits : constructor.needs sizeofLd + (alignment - 1) < 2 ^ 64

variable {sizeofLd : Nat}

theorem Call.size_eq (c : Call sizeofLd) :
    c.constructor.size sizeofLd = alignObj (c.constructor.needs sizeofLd) := by
  obtain ⟨constructor, hfits⟩ := c
  cases constructor with
  | empty => rfl
  | scannedPointer => rfl
  | string length s =>
    show alignObj (wrap (offsetofString + length + 1)) = alignObj (offsetofString + length + 1)
    rw [wrap_stringNeeds hfits]
  | buckets length unused =>
    show alignObj (wrap (offsetofBucket + wrap (length * sizeofPointer))) =
      alignObj (offsetofBucket + length * sizeofPointer)
    rw [(wrap_bucketsNeeds hfits).1]
  | hashtable => rfl

theorem Call.size_spec (c : Call sizeofLd) :
    c.constructor.needs sizeofLd ≤ c.constructor.size sizeofLd ∧ 24 ≤ c.constructor.size sizeofLd ∧
      8 ∣ c.constructor.size sizeofLd := by
  have hfits : c.constructor.needs sizeofLd + 7 < 2 ^ 64 := c.fits
  rw [c.size_eq, alignObj_of_lt hfits]
  omega

def Call.span (c : Call sizeofLd) : Span where
  size := c.constructor.size sizeofLd
  pos := Nat.lt_of_lt_of_le (by decide) c.size_spec.2.1
  aligned := c.size_spec.2.2

inductive Tile (sizeofLd : Nat)
  /-- memory without an object in it -/
  | gap (s : Span)
  /-- an object and, once it is forwarded, its new address -/
  | object (c : Call sizeofLd) (forwarded : Option Nat)
  /-- a gap after `managed_obj_pad` -/
  | pad (s : Span)

namespace Tile

def span : Tile sizeofLd → Span
  | .gap s => s
  | .object c _ => c.span
  | .pad s => s

def size (t : Tile sizeofLd) : Nat := t.span.size

def IsGap (t : Tile sizeofLd) : Prop := ∃ s, t = .gap s

def forwarded : Tile sizeofLd → Option Nat
  | .object _ forwarded => forwarded
  | _ => none

/-- The fields that the format methods read, with their values. -/
def header (addr : Nat) : Tile sizeofLd → List Write
  | .gap _ => []
  | .object c none => c.constructor.header addr
  | .object c (some new) =>
    [setType addr .fwd, setWord addr offsetofFwd new, setWord addr offsetofFwdSize c.span.size]
  | .pad s =>
    if s.size = sizeofPad1 then [setType addr .pad1]
    else [setType addr .pad, setWord addr offsetofPadSize s.size]

end Tile

structure Laid (m : Memory) (addr : Nat) (t : Tile sizeofLd) : Prop where
  below : addr + t.size < 2 ^ 64
  holds : ∀ w ∈ t.header addr, m.Holds w

structure Region (sizeofLd : Nat) where
  mem : Memory
  base : Nat
  tiles : List (Tile sizeofLd)

namespace Region

def address (r : Region sizeofLd) (i : Nat) : Nat := r.base + extent Tile.size (r.tiles.take i)

def write (r : Region sizeofLd) (ws : List Write) : Region sizeofLd :=
  { r with mem := r.mem.storeAll ws }

/-- The region after stores that make the `i`-th tile another one. -/
def change (r : Region sizeofLd) (i : Nat) (t : Tile sizeofLd) (ws : List Write) : Region sizeofLd :=
  { r.write ws with tiles := r.tiles.set i t }

end Region

inductive Step : Region sizeofLd → Region sizeofLd → Prop
  /-- a constructor gets a block from `mps_reserve`, initialises it, and `mps_commit` accepts it -/
  | make {r : Region sizeofLd} (i : Nat) (c : Call sizeofLd) (hi : r.tiles[i]? = some (.gap c.span)) :
      Step r (r.change i (.object c none) (c.constructor.writes sizeofLd (r.address i)))
  /-- the same, but `mps_commit` fails and the constructor tries again with another block -/
  | makeAgain {r : Region sizeofLd} (i : Nat) (c : Call sizeofLd)
      (hi : r.tiles[i]? = some (.gap c.span)) :
      Step r (r.write (c.constructor.writes sizeofLd (r.address i)))
  /-- the whole of `managed_obj_metadata_make_table`, with the blocks of the table and of its two
  bucket arrays -/
  | makeTable {r : Region sizeofLd} (i j k : Nat) (p : TableParts) (c b : Call sizeofLd)
      (hc : c.constructor = .hashtable) (hb : b.constructor = .buckets p.l p.unused)
      (hi : r.tiles[i]? = some (.gap c.span)) (hj : r.tiles[j]? = some (.gap b.span))
      (hk : r.tiles[k]? = some (.gap b.span)) (hij : i ≠ j) (hik : i ≠ k) (hjk : j ≠ k) :
      Step r
        { r.write (makeTable sizeofLd (r.address i) (r.address j) (r.address k) p) with
          tiles := ((r.tiles.set i (.object c none)).set j (.object b none)).set k (.object b none) }
  /-- stores to fields of an object that are not in its header -/
  | assign {r : Region sizeofLd} (i : Nat) (c : Call sizeofLd) (ws : List Write)
      (hi : r.tiles[i]? = some (.object c none))
      (hwithin : ∀ w ∈ ws, w.Within (r.address i) (r.address i + c.span.size))
      (hapart : ∀ w ∈ ws, ∀ f ∈ c.constructor.header (r.address i), w.Apart f) :
      Step r (r.write ws)
  /-- `managed_obj_fwd` on an object that is not yet forwarded -/
  | fwd {r : Region sizeofLd} (i : Nat) (c : Call sizeofLd) (new : Nat) (ws : List Write)
      (hi : r.tiles[i]? = some (.object c none)) (hnew : new < 2 ^ 64)
      (hfwd : fwd sizeofLd r.mem (r.address i) new = .ok ws) :
      Step r (r.change i (.object c (some new)) ws)
  /-- `managed_obj_pad` over a gap -/
  | pad {r : Region sizeofLd} (i : Nat) (s : Span) (ws : List Write)
      (hi : r.tiles[i]? = some (.gap s)) (hpad : pad (r.address i) s.size = .ok ws) :
      Step r (r.change i (.pad s) ws)

end ManagedObject.Format
