import Mathlib.Algebra.Ring.Nat
import Mathlib.Data.List.Basic

/-!
# Byte-addressed memory

A memory with a byte at every address, little-endian loads, and stores as data: a `Write` is the
address, the width and the value of one store, so what code writes can be stated as well as the
memory it leaves. A load reads the bytes of its range and nothing else, so stores apart from the range
do not change it. Code that goes through memory and replaces some of its words is described by
`Rewritten`, which composes.
-/

namespace ManagedObject.Lib

abbrev Memory := Nat → UInt8

/-- The `n` bytes from `a` on, the least significant one first. -/
def Memory.load (m : Memory) (a : Nat) : Nat → Nat
  | 0 => 0
  | n + 1 => (m a).toNat + 256 * m.load (a + 1) n

structure Write where
  addr : Nat
  width : Nat
  value : Nat
  deriving DecidableEq, Repr

namespace Write

/-- All bytes written lie between `low` and `high`. -/
def Within (w : Write) (low high : Nat) : Prop := low ≤ w.addr ∧ w.addr + w.width ≤ high

/-- No byte is written by both. -/
def Apart (w w' : Write) : Prop := w.addr + w.width ≤ w'.addr ∨ w'.addr + w'.width ≤ w.addr

theorem Apart.symm {w w' : Write} (h : w.Apart w') : w'.Apart w := Or.symm h

theorem Within.mono {w : Write} {low high low' high' : Nat} (h : w.Within low high) (hlow : low' ≤ low)
    (hhigh : high ≤ high') : w.Within low' high' :=
  ⟨Nat.le_trans hlow h.1, Nat.le_trans h.2 hhigh⟩

theorem Within.apart {w w' : Write} {low high low' high' : Nat} (h : w.Within low high)
    (h' : w'.Within low' high') (hranges : high ≤ low' ∨ high' ≤ low) : w.Apart w' := by
  obtain ⟨hlow, hhigh⟩ := h
  obtain ⟨hlow', hhigh'⟩ := h'
  rw [Apart]
  omega

end Write

def Memory.store (m : Memory) (w : Write) : Memory := fun a =>
  if w.addr ≤ a ∧ a < w.addr + w.width then UInt8.ofNat (w.value / 256 ^ (a - w.addr)) else m a

/-- The stores in order. -/
def Memory.storeAll (m : Memory) (ws : List Write) : Memory := ws.foldl Memory.store m

/-- The field that `w` stores to holds the value that it stores. -/
def Memory.Holds (m : Memory) (w : Write) : Prop := m.load w.addr w.width = w.value

namespace Memory

variable {m m' : Memory} {w w' : Write} {ws : List Write}

@[simp] theorem storeAll_nil : m.storeAll [] = m := rfl

@[simp] theorem storeAll_cons : m.storeAll (w :: ws) = (m.store w).storeAll ws := rfl

theorem storeAll_append (ws' : List Write) : m.storeAll (ws ++ ws') = (m.storeAll ws).storeAll ws' :=
  List.foldl_append

theorem load_congr {a n : Nat} (h : ∀ b, a ≤ b → b < a + n → m b = m' b) : m.load a n = m'.load a n := by
  induction n generalizing a with
  | zero => rfl
  | succ n ih =>
    have hrest : m.load (a + 1) n = m'.load (a + 1) n := ih fun b hlow hhigh => h b (by omega) (by omega)
    rw [load, load, h a (by omega) (by omega), hrest]

/-- Bytes that were copied load as the same. -/
theorem load_copy {a b n : Nat} (h : ∀ k < n, m' (b + k) = m (a + k)) : m'.load b n = m.load a n := by
  induction n generalizing a b with
  | zero => rfl
  | succ n ih =>
    have hfirst : m' b = m a := h 0 (Nat.succ_pos n)
    have hrest : m'.load (b + 1) n = m.load (a + 1) n := by
      apply ih
      intro k hk
      rw [Nat.add_assoc, Nat.add_assoc, Nat.add_comm 1 k]
      exact h (k + 1) (Nat.succ_lt_succ hk)
    rw [load, load, hfirst, hrest]

/-- Bytes that are the digits of `v` in base 256 load as `v`, cut to the width. -/
theorem load_digits {a n v : Nat}
    (h : ∀ b, a ≤ b → b < a + n → m b = UInt8.ofNat (v / 256 ^ (b - a))) : m.load a n = v % 256 ^ n := by
  induction n generalizing a v with
  | zero => rw [load, Nat.pow_zero, Nat.mod_one]
  | succ n ih =>
    have hfirst : (m a).toNat = v % 256 := by
      rw [h a (by omega) (by omega), Nat.sub_self, Nat.pow_zero, Nat.div_one, UInt8.toNat_ofNat']
    have hrest : m.load (a + 1) n = v / 256 % 256 ^ n := by
      apply ih
      intro b hlow hhigh
      have hdigit : b - a = b - (a + 1) + 1 := by omega
      rw [h b (by omega) (by omega), hdigit, Nat.pow_succ', Nat.div_div_eq_div_mul]
    rw [load, hfirst, hrest, Nat.pow_succ', Nat.mod_mul]

theorem store_outside {a : Nat} (h : a < w.addr ∨ w.addr + w.width ≤ a) : m.store w a = m a := by
  rw [store, if_neg (by omega)]

theorem holds_store (hvalue : w.value < 256 ^ w.width) : (m.store w).Holds w := by
  have hload : (m.store w).load w.addr w.width = w.value % 256 ^ w.width := by
    apply load_digits
    intro b hlow hhigh
    rw [store, if_pos ⟨hlow, hhigh⟩]
  rw [Holds, hload, Nat.mod_eq_of_lt hvalue]

/-- A field apart from everything stored keeps its value. -/
theorem Holds.storeAll (h : m.Holds w) (hapart : ∀ w' ∈ ws, w'.Apart w) : (m.storeAll ws).Holds w := by
  induction ws generalizing m with
  | nil => exact h
  | cons w' ws ih =>
    rw [storeAll_cons]
    apply ih
    · have hfirst := hapart w' List.mem_cons_self
      rw [Write.Apart] at hfirst
      have hload : (m.store w').load w.addr w.width = m.load w.addr w.width := by
        apply load_congr
        intro b hlow hhigh
        exact store_outside (by omega)
      rw [Holds, hload]
      exact h
    · intro w'' hw''
      exact hapart w'' (List.mem_cons_of_mem _ hw'')

/-- After stores that overlap nowhere, a field holds what was stored to it. -/
theorem holds_storeAll (hapart : ws.Pairwise Write.Apart) (hw : w ∈ ws)
    (hvalue : w.value < 256 ^ w.width) : (m.storeAll ws).Holds w := by
  induction ws generalizing m with
  | nil => cases hw
  | cons w' ws ih =>
    rw [List.pairwise_cons] at hapart
    rw [storeAll_cons]
    rcases List.mem_cons.mp hw with hhead | htail
    · subst hhead
      apply Holds.storeAll (holds_store hvalue)
      intro w'' hw''
      exact (hapart.1 w'' hw'').symm
    · exact ih hapart.2 htail

end Memory

/-! ## Fields rewritten in place -/

/-- Each of the fields, which are `n` bytes long, holds the image of what it held, and every other byte
is what it was. -/
structure Rewritten (n : Nat) (f : Nat → Nat) (m m' : Memory) (fields : List Nat) : Prop where
  holds : ∀ a ∈ fields, m'.load a n = f (m.load a n)
  others : ∀ b, (∀ a ∈ fields, b < a ∨ a + n ≤ b) → m' b = m b

namespace Rewritten

variable {n : Nat} {f : Nat → Nat} {m m' m'' : Memory} {fields fields' : List Nat}

theorem nil : Rewritten n f m m [] := ⟨by simp, fun _ _ => rfl⟩

/-- A field whose image is its value need not be stored to. -/
theorem keep {a : Nat} (h : f (m.load a n) = m.load a n) : Rewritten n f m m [a] := by
  refine ⟨?_, fun _ _ => rfl⟩
  intro b hb
  rw [List.mem_singleton.mp hb, h]

theorem store {a : Nat} (h : f (m.load a n) < 256 ^ n) :
    Rewritten n f m (m.store ⟨a, n, f (m.load a n)⟩) [a] := by
  constructor
  · intro b hb
    rw [List.mem_singleton.mp hb]
    exact Memory.holds_store h
  · intro b hb
    exact Memory.store_outside (hb a List.mem_cons_self)

/-- What is apart from the fields loads as before. -/
theorem load_eq {a k : Nat} (h : Rewritten n f m m' fields)
    (hapart : ∀ b ∈ fields, a + k ≤ b ∨ b + n ≤ a) : m'.load a k = m.load a k := by
  apply Memory.load_congr
  intro b hlow hhigh
  apply h.others
  intro c hc
  have hrange := hapart c hc
  omega

/-- Fields apart from each other are rewritten one list after the other. -/
theorem append (h : Rewritten n f m m' fields) (h' : Rewritten n f m' m'' fields')
    (hapart : ∀ a ∈ fields, ∀ b ∈ fields', a + n ≤ b ∨ b + n ≤ a) :
    Rewritten n f m m'' (fields ++ fields') := by
  constructor
  · intro a ha
    rcases List.mem_append.mp ha with hfirst | hsecond
    · rw [h'.load_eq (hapart a hfirst), h.holds a hfirst]
    · have hkept : m'.load a n = m.load a n := by
        apply h.load_eq
        intro b hb
        exact (hapart b hb a hsecond).symm
      rw [h'.holds a hsecond, hkept]
  · intro b hb
    rw [h'.others b fun a ha => hb a (List.mem_append_right _ ha),
      h.others b fun a ha => hb a (List.mem_append_left _ ha)]

end Rewritten

end ManagedObject.Lib
