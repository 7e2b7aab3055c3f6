import ManagedObject.Lib.Run
import ManagedObject.Pages.PageList

/-!
# Clients of a page list

A client stores values with `set` and gives each index back with `unset` at most once. The indices it
holds stay valid as long as no page but the last one is emptied: erasing a page moves the values of all
later pages to other indices.
-/

namespace ManagedObject.Pages

open Outcome Handles Lib

variable {T : Type}

/-- A page list, and the indices that are outstanding with the values they were returned for. -/
structure Client (T : Type) where
  list : PageList T
  held : List (Nat × T)

def Client.new (pageSize : Nat) : Client T := ⟨.new pageSize, []⟩

inductive Op (T : Type)
  | set (value : T)
  | unset (index : Nat)

def Client.set [Inhabited T] (c : Client T) (value : T) : Client T :=
  let (i, l) := c.list.set value
  ⟨l, (i, value) :: c.held⟩

def Client.unset (c : Client T) (index : Nat) : Except Fault (Client T) := do
  let l ← c.list.unset index
  return ⟨l, c.held.filter (·.1 ≠ index)⟩

/-- The client gives back outstanding indices only, and only those that `allowed` admits. -/
inductive Step [Inhabited T] (allowed : PageList T → Nat → Prop) : List (Op T) → Client T → Op T → Client T → Prop
  | set {hist : List (Op T)} {c : Client T} (value : T) : Step allowed hist c (.set value) (c.set value)
  | unset {hist : List (Op T)} {c c' : Client T} {index : Nat} : index ∈ c.held.map Prod.fst →
      allowed c.list index → c.unset index = .ok c' → Step allowed hist c (.unset index) c'

/-- The outstanding indices are distinct, and each leads to the slot of its value. -/
def Client.Valid (c : Client T) : Prop :=
  (c.held.map Prod.fst).Nodup ∧
    ∀ e ∈ c.held, c.list.getChunk e.1 < c.list.chunks ∧ c.list.slot e.1 = some e.2

/-- The slot of the index is cleared, and every other index leads to what it led to before. -/
def Clears (l l' : PageList T) (index : Nat) : Prop :=
  ∀ i, l'.slot i = if i = index then none else l.slot i

/-- The indices in use are those that the client holds. -/
structure Client.Ok (c : Client T) : Prop where
  list : c.list.Ok
  tracks : Tracks c.list.slot c.held

variable {c c' : Client T} {index : Nat} {hist : List (Op T)} {pageSize : Nat}

theorem Client.Ok.valid (hc : c.Ok) : c.Valid := by
  constructor
  · exact hc.tracks.nodup
  · intro e he
    have hslot := (hc.tracks.mem_iff e.1 e.2).mp he
    exact ⟨div_lt_of_lookup hslot, hslot⟩

theorem Client.new_ok (hsize : 1 ≤ pageSize) : (Client.new pageSize : Client T).Ok := by
  constructor
  · exact ⟨hsize, by simp [Client.new, PageList.new]⟩
  · have hslot : (Client.new pageSize : Client T).list.slot = fun _ => none := lookup_nil
    rw [hslot]
    exact Tracks.nil

theorem Client.Ok.set [Inhabited T] (hc : c.Ok) (value : T) : (c.set value).Ok := by
  obtain ⟨i, l, hset, hl, hfree, hslot⟩ := hc.list.set value
  rw [Client.set, hset]
  constructor
  · exact hl
  · dsimp only
    rw [hslot]
    exact hc.tracks.give hfree value

theorem Client.unset_of_ok {l : PageList T} (h : c.list.unset index = .ok l) :
    c.unset index = .ok ⟨l, c.held.filter (·.1 ≠ index)⟩ := by
  rw [Client.unset, h]
  rfl

theorem Client.Ok.exists_slot (hc : c.Ok) (hheld : index ∈ c.held.map Prod.fst) :
    ∃ a, c.list.slot index = some a := hc.tracks.mem_fst_iff.mp hheld

theorem Client.Ok.unset_settled (hc : c.Ok) (hheld : index ∈ c.held.map Prod.fst)
    (hsettled : c.list.Settled index) :
    ∃ c', c.unset index = .ok c' ∧ c'.Ok ∧ Clears c.list c'.list index := by
  obtain ⟨a, hslot⟩ := hc.exists_slot hheld
  obtain ⟨l, hunset, hl, -, hslot'⟩ := hc.list.unset_settled hslot hsettled
  refine ⟨_, unset_of_ok hunset, ?_, ?_⟩
  · constructor
    · exact hl
    · dsimp only
      rw [hslot']
      exact hc.tracks.take index
  · intro i
    dsimp only
    rw [hslot', Function.update_apply]

/-- Otherwise another outstanding index stops leading to its value. -/
theorem Client.Ok.unset_shifted (hc : c.Ok) (hheld : index ∈ c.held.map Prod.fst)
    (hsettled : ¬ c.list.Settled index) :
    ∃ c', c.unset index = .ok c' ∧ ¬ c'.Valid ∧ ¬ Clears c.list c'.list index := by
  obtain ⟨a, hslot⟩ := hc.exists_slot hheld
  obtain ⟨l, i, b, hunset, hi, hb, hnone⟩ := hc.list.unset_shifted hslot hsettled
  refine ⟨_, unset_of_ok hunset, ?_, ?_⟩
  · intro hvalid
    have hmem : (i, b) ∈ c.held.filter (·.1 ≠ index) := by
      rw [List.mem_filter, hc.tracks.mem_iff]
      simp [hb, hi]
    have hstill := (hvalid.2 _ hmem).2
    rw [hnone] at hstill
    cases hstill
  · intro hclears
    have hstill := hclears i
    dsimp only at hstill
    rw [hnone, if_neg hi, hb] at hstill
    cases hstill

/-- Giving back settled indices only keeps every outstanding index valid. -/
theorem Client.run_ok [Inhabited T] (hsize : 1 ≤ pageSize)
    (hrun : Run (Step PageList.Settled) (Client.new pageSize : Client T) hist c) : c.Ok := by
  apply hrun.invariant fun _ c => c.Ok
  · exact new_ok hsize
  · intro hist c op c' hc hstep
    cases hstep with
    | set value => exact hc.set value
    | unset hheld hsettled hunset =>
      obtain ⟨c'', hunset', hok, -⟩ := hc.unset_settled hheld hsettled
      rw [hunset] at hunset'
      cases hunset'
      exact hok

/-- As long as every index that was given back was settled, the outstanding indices are valid; and
giving back the next one succeeds, and keeps them so and clears exactly its slot if and only if it is
settled. -/
theorem handles_valid_iff_settled [Inhabited T] (hsize : 1 ≤ pageSize)
    (hrun : Run (Step PageList.Settled) (Client.new pageSize : Client T) hist c) :
    c.Valid ∧ ∀ index ∈ c.held.map Prod.fst, c.list.getChunk index < c.list.chunks ∧
      ∃ c', c.unset index = .ok c' ∧
        (c'.Valid ∧ Clears c.list c'.list index ↔ c.list.Settled index) := by
  have hc := Client.run_ok hsize hrun
  refine ⟨hc.valid, ?_⟩
  intro index hheld
  obtain ⟨a, hslot⟩ := hc.exists_slot hheld
  refine ⟨div_lt_of_lookup hslot, ?_⟩
  by_cases hsettled : c.list.Settled index
  · obtain ⟨c', hunset, hok, hclears⟩ := hc.unset_settled hheld hsettled
    exact ⟨c', hunset, by simp [hok.valid, hclears, hsettled]⟩
  · obtain ⟨c', hunset, hvalid, hclears⟩ := hc.unset_shifted hheld hsettled
    exact ⟨c', hunset, by simp [hvalid, hsettled]⟩

def pairClient : Client Nat := ((Client.new 2).set 10).set 20

/-- The first index is given back. The other one is still valid, and settled too, as its page is the last. -/
theorem handles_valid_iff_settled_pair : ∃ c : Client Nat,
    Run (Step PageList.Settled) (Client.new 2) [.unset 0, .set 20, .set 10] c ∧ c.held = [(1, 20)] ∧ c.Valid ∧
      ∃ c', c.unset 1 = .ok c' ∧ c'.Valid ∧ Clears c.list c'.list 1 := by
  have hpair : Run (Step PageList.Settled) (Client.new 2) [.set 20, .set 10] pairClient :=
    (Run.start.next (.set 10)).next (.set 20)
  have hsettled : pairClient.list.Settled 0 := by
    intro p hp hused
    cases hp
    cases hused
  have hrun := hpair.next (l := .unset 0) (.unset (by decide) hsettled rfl)
  obtain ⟨hvalid, hnext⟩ := handles_valid_iff_settled (by decide) hrun
  obtain ⟨-, c', hunset, hiff⟩ := hnext 1 (by decide)
  exact ⟨_, hrun, rfl, hvalid, c', hunset, hiff.mpr fun _ _ _ => rfl⟩

/-- With pages of one slot, giving back the first of two indices erases its page: the second index
leads past the end, and giving it back reads there. -/
theorem unset_reads_past_page_list :
    ∃ c : Client Nat,
      Run (Step fun _ _ => True) (Client.new 1) [.unset 0, .set 20, .set 10] c ∧ c.held = [(1, 20)] ∧
      c.list.chunks = 1 ∧ c.list.getChunk 1 = 1 ∧ ¬ c.Valid ∧ c.unset 1 = .error (.outOfRange 1) := by
  have hrun : Run (Step fun _ _ => True) (Client.new 1) [.set 20, .set 10]
      (((Client.new 1).set 10).set 20 : Client Nat) := (Run.start.next (.set 10)).next (.set 20)
  refine ⟨_, hrun.next (.unset (by decide) trivial rfl), rfl, rfl, rfl, ?_, rfl⟩
  intro hvalid
  have hchunk := (hvalid.2 (1, 20) (by decide)).1
  exact absurd hchunk (by decide)

end ManagedObject.Pages
