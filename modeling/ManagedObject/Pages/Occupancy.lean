import ManagedObject.Lib.Run
import ManagedObject.Pages.PageList

/-!
# The slots of a page list

The pages of a list stay where they are allocated while their positions in the list change. Told by the
address of its page, a slot that is set keeps its value until it is unset: `set` takes a free slot, and
`unset` clears one and erases its page when that was the last.
-/

namespace ManagedObject.Pages

open Outcome Handles Lib

variable {T : Type}

/-- A page list, and the addresses of its pages. -/
structure Addressed (T : Type) where
  list : PageList T
  addrs : List Nat

def Addressed.new (pageSize : Nat) : Addressed T := ⟨.new pageSize, []⟩

/-- `set`; a new page is at `addr`. -/
def Addressed.set [Inhabited T] (s : Addressed T) (value : T) (addr : Nat) : Nat × Addressed T :=
  let (i, l) := s.list.set value
  (i, ⟨l, if l.chunks = s.list.chunks then s.addrs else s.addrs ++ [addr]⟩)

def Addressed.unset (s : Addressed T) (index : Nat) : Except Fault (Addressed T) := do
  let l ← s.list.unset index
  return ⟨l, if l.chunks = s.list.chunks then s.addrs else s.addrs.eraseIdx (s.list.getChunk index)⟩

def Addressed.pages (s : Addressed T) : List (Nat × Page T) := s.addrs.zip s.list.pageList

/-- Slot `k` of the page at `addr` is set. -/
def Holds (pages : List (Nat × Page T)) (addr k : Nat) (value : T) : Prop :=
  ∃ p, (addr, p) ∈ pages ∧ p.held k = some value

def Addressed.occupied (s : Addressed T) : Nat := (s.list.pageList.map fun p => p.sets.countP (·.set)).sum

def Addressed.Writes (s s' : Addressed T) (addr k : Nat) (x : Option T) : Prop :=
  ∀ addr' k' value, Holds s'.pages addr' k' value ↔
    if addr' = addr ∧ k' = k then x = some value else Holds s.pages addr' k' value

/-- `page->set` does not return `-1`, and the value is in a slot that was free, where the index leads. -/
def Addressed.Stores [Inhabited T] (s : Addressed T) (value : T) (index : Nat) (s' : Addressed T) : Prop :=
  ∃ addr k, ((target s.list.pageSize s.list.pageList).set value).1 = some k ∧
    (∀ old, ¬ Holds s.pages addr k old) ∧ s.Writes s' addr k (some value) ∧ s'.occupied = s.occupied + 1 ∧
    s'.addrs[s'.list.getChunk index]? = some addr ∧ s'.list.getChunkSubindex index = k

/-- The slot that the index leads to is cleared, or there is nothing to clear. -/
def Addressed.Clears (s : Addressed T) (index : Nat) (s' : Addressed T) : Prop :=
  ∃ addr, s.addrs[s.list.getChunk index]? = some addr ∧
    ((∃ old, Holds s.pages addr (s.list.getChunkSubindex index) old) ∧
        s.Writes s' addr (s.list.getChunkSubindex index) none ∧ s.occupied = s'.occupied + 1 ∨
      (∀ old, ¬ Holds s.pages addr (s.list.getChunkSubindex index) old) ∧ s' = s)

structure Addressed.Ok (s : Addressed T) : Prop where
  list : s.list.Ok
  length : s.addrs.length = s.list.chunks
  nodup : s.addrs.Nodup

variable {s s' : Addressed T} {pages pages' : List (Nat × Page T)} {page page' : Page T}
  {before after : List (Page T)} {addr k index size : Nat} {value : T}

/-! ### The page that changes -/

theorem holds_middle {addr' k' : Nat} : Holds (pages ++ (addr, page) :: pages') addr' k' value ↔
    addr' = addr ∧ page.held k' = some value ∨ Holds (pages ++ pages') addr' k' value := by
  simp only [Holds, List.mem_append, List.mem_cons, Prod.mk.injEq]
  constructor
  · rintro ⟨p, hbefore | ⟨rfl, rfl⟩ | hafter, hp⟩
    · exact .inr ⟨p, .inl hbefore, hp⟩
    · exact .inl ⟨rfl, hp⟩
    · exact .inr ⟨p, .inr hafter, hp⟩
  · rintro (⟨rfl, hp⟩ | ⟨p, hbefore | hafter, hp⟩)
    · exact ⟨page, .inr (.inl ⟨rfl, rfl⟩), hp⟩
    · exact ⟨p, .inl hbefore, hp⟩
    · exact ⟨p, .inr (.inr hafter), hp⟩

theorem not_holds (h : addr ∉ (pages ++ pages').map Prod.fst) : ¬ Holds (pages ++ pages') addr k value :=
  fun ⟨_, hmem, _⟩ => h (List.mem_map_of_mem hmem)

/-- What changes in the page at `addr` changes in the slots of that address. -/
theorem holds_update {x : Option T} (hfst : addr ∉ (pages ++ pages').map Prod.fst)
    (hheld : page'.held = Function.update page.held k x) (addr' k' : Nat) (value : T) :
    Holds (pages ++ (addr, page') :: pages') addr' k' value ↔ if addr' = addr ∧ k' = k then x = some value
      else Holds (pages ++ (addr, page) :: pages') addr' k' value := by
  rw [holds_middle, holds_middle, hheld]
  by_cases haddr : addr' = addr
  · subst haddr
    by_cases hk : k' = k
    · subst hk
      simp [not_holds hfst]
    · simp [hk]
  · simp [haddr]

/-- The addresses of a list of pages around one of them. -/
theorem zip_middle {addrs : List Nat} (hlength : addrs.length = (before ++ page :: after).length) :
    ∃ front addr back, addrs = front ++ addr :: back ∧ front.length = before.length ∧
      ∀ page' : Page T, addrs.zip (before ++ page' :: after) = front.zip before ++ (addr, page') :: back.zip after := by
  have hlt : before.length < addrs.length := by
    rw [hlength, List.length_append, List.length_cons]
    omega
  have hsplit : addrs = addrs.take before.length ++ addrs[before.length] :: addrs.drop (before.length + 1) := by
    rw [List.getElem_cons_drop, List.take_append_drop]
  have hfront : (addrs.take before.length).length = before.length := by
    rw [List.length_take]
    omega
  refine ⟨_, _, _, hsplit, hfront, fun page' => ?_⟩
  conv_lhs => rw [hsplit]
  rw [List.zip_append hfront, List.zip_cons_cons]

theorem map_fst_zip_append {front back : List Nat} (before after : List (Page T))
    (hnodup : (front ++ addr :: back).Nodup) :
    addr ∉ (front.zip before ++ back.zip after).map Prod.fst := by
  rw [List.nodup_middle, List.nodup_cons] at hnodup
  intro hmem
  apply hnodup.1
  rw [List.mem_map] at hmem
  obtain ⟨⟨a, p⟩, hmem, rfl⟩ := hmem
  rcases List.mem_append.mp hmem with hmem | hmem
  · exact List.mem_append_left _ (List.of_mem_zip hmem).1
  · exact List.mem_append_right _ (List.of_mem_zip hmem).1

theorem occupied_middle {addrs : List Nat} : (⟨⟨before ++ page :: after, size⟩, addrs⟩ : Addressed T).occupied =
    page.sets.countP (·.set) + ((before ++ after).map fun p => p.sets.countP (·.set)).sum := by
  simp only [Addressed.occupied, List.map_append, List.map_cons, List.sum_append, List.sum_cons]
  omega

theorem writes_middle {addrs : List Nat} {x : Option T} (size : Nat)
    (hlength : addrs.length = (before ++ page :: after).length)
    (hnodup : addrs.Nodup) (hheld : page'.held = Function.update page.held k x) :
    ∃ addr, addrs[before.length]? = some addr ∧
      (∀ value, Holds (addrs.zip (before ++ page :: after)) addr k value ↔ page.held k = some value) ∧
      (⟨⟨before ++ page :: after, size⟩, addrs⟩ : Addressed T).Writes ⟨⟨before ++ page' :: after, size⟩, addrs⟩
        addr k x := by
  obtain ⟨front, addr, back, rfl, hfront, hzip⟩ := zip_middle hlength
  have hfst := map_fst_zip_append before after hnodup
  refine ⟨addr, ?_, fun value => ?_, fun addr' k' value => ?_⟩
  · rw [← hfront]
    simp
  · rw [hzip, holds_middle]
    simp [not_holds hfst]
  · simp only [Addressed.pages, hzip]
    exact holds_update hfst hheld addr' k' value

/-- A page without set slots makes no difference. -/
theorem holds_zip_concat {addrs : List Nat} {pages : List (Page T)} (hlength : addrs.length = pages.length)
    (hnone : ∀ k, page.held k = none) (addr' k' : Nat) (value : T) :
    Holds ((addrs ++ [addr]).zip (pages ++ [page])) addr' k' value ↔ Holds (addrs.zip pages) addr' k' value := by
  rw [List.zip_append hlength, List.zip_cons_cons, holds_middle, hnone]
  simp

/-! ### The operations -/

/-- `set` writes its target, in a list that has it. -/
theorem stores_of_middle [Inhabited T] {addrs : List Nat} (htarget : page.Ok s.list.pageSize)
    (hset : (target s.list.pageSize s.list.pageList).set value = (some k, page'))
    (hk : k < s.list.pageSize) (hfree : page.held k = none)
    (hok : page'.Ok s.list.pageSize) (hused : page'.used = page.used + 1)
    (hheld : page'.held = Function.update page.held k (some value))
    (hlength : addrs.length = (before ++ page :: after).length) (hnodup : addrs.Nodup)
    (hsame : ∀ addr' k' value, Holds (addrs.zip (before ++ page :: after)) addr' k' value ↔
      Holds s.pages addr' k' value)
    (hoccupied : (⟨⟨before ++ page :: after, s.list.pageSize⟩, addrs⟩ : Addressed T).occupied = s.occupied) :
    s.Stores value (before.length * s.list.pageSize + k)
      ⟨⟨before ++ page' :: after, s.list.pageSize⟩, addrs⟩ := by
  obtain ⟨addr, haddr, hholds, hwrites⟩ := writes_middle s.list.pageSize hlength hnodup hheld
  refine ⟨addr, k, by rw [hset], fun old hold => ?_, fun addr' k' v => ?_, ?_, ?_, mod_of_block hk⟩
  · rw [← hsame, hholds, hfree] at hold
    cases hold
  · rw [hwrites]
    simp only [Addressed.pages, hsame]
  · rw [← hoccupied, occupied_middle, occupied_middle, ← hok.used, ← htarget.used, hused]
    omega
  · exact (congrArg (addrs[·]?) (div_of_block hk)).trans haddr

theorem Addressed.Ok.set [Inhabited T] (h : s.Ok) (hfresh : addr ∉ s.addrs) (value : T) :
    (s.set value addr).2.Ok ∧ s.Stores value (s.set value addr).1 (s.set value addr).2 := by
  obtain ⟨before, page', after, k, hset, hk, hfree, hok, hused, hheld, hloop, hcase⟩ :=
    setLoop_spec value 0 h.list.size h.list.page
  have hlist : s.list.set value =
      (before.length * s.list.pageSize + k, ⟨before ++ page' :: after, s.list.pageSize⟩) := by
    rw [PageList.set, hloop]
    rfl
  obtain ⟨i, l', hl', hlok, -, -⟩ := h.list.set value
  rw [hlist] at hl'
  cases hl'
  have hunfold : s.set value addr = (before.length * s.list.pageSize + k, ⟨⟨before ++ page' :: after, s.list.pageSize⟩,
      if (before ++ page' :: after).length = s.list.chunks then s.addrs else s.addrs ++ [addr]⟩) := by
    rw [Addressed.set, hlist]
    rfl
  rw [hunfold]
  generalize hpage : target s.list.pageSize s.list.pageList = page at hfree hused hheld hcase
  rcases hcase with hpages | ⟨hpages, rfl, rfl⟩
  · -- a page of the list
    have hlength : s.addrs.length = (before ++ page :: after).length := by rw [h.length, PageList.chunks, hpages]
    have hchunks : (before ++ page' :: after).length = s.list.chunks := by
      rw [PageList.chunks, hpages, List.length_append, List.length_append, List.length_cons, List.length_cons]
    have htarget := (h.list.page page (by rw [hpages]; simp)).1
    rw [if_pos hchunks]
    refine ⟨⟨hlok, h.length.trans hchunks.symm, h.nodup⟩, ?_⟩
    refine stores_of_middle htarget hset hk hfree hok hused hheld hlength h.nodup (fun _ _ _ => ?_) ?_
    · rw [← hpages, Addressed.pages]
    · rw [← hpages]
  · -- a new page
    have hnew : (Page.new s.list.pageSize : Page T).Ok s.list.pageSize := Page.new_ok h.list.size
    have hlength : (s.addrs ++ [addr]).length = (before ++ [Page.new s.list.pageSize]).length := by
      rw [List.length_append, List.length_append, h.length, PageList.chunks, hpages]
      rfl
    have hchunks : (before ++ [page']).length ≠ s.list.chunks := by
      rw [PageList.chunks, hpages, List.length_append, List.length_singleton]
      omega
    have hnodup : (s.addrs ++ [addr]).Nodup := by
      rw [List.nodup_append]
      refine ⟨h.nodup, List.nodup_singleton addr, fun a ha b hb => ?_⟩
      rw [List.mem_singleton.mp hb]
      rintro rfl
      exact hfresh ha
    rw [if_neg hchunks]
    refine ⟨⟨hlok, ?_, hnodup⟩, ?_⟩
    · rw [hlength, PageList.chunks, List.length_append, List.length_append, List.length_singleton,
        List.length_singleton]
    refine stores_of_middle hnew hset hk hfree hok hused hheld hlength hnodup (fun _ _ _ => ?_) ?_
    · rw [holds_zip_concat (hpages ▸ h.length) Page.new_held, ← hpages, Addressed.pages]
    · rw [occupied_middle, ← hnew.used, hnew.held_eq_none_iff.mp Page.new_held, List.append_nil, Nat.zero_add,
        ← hpages, Addressed.occupied]

/-- A slot that is not set is left alone. -/
theorem PageList.Ok.unset_free {l : PageList T} (hl : l.Ok) (hchunk : l.getChunk index < l.chunks)
    (hslot : l.slot index = none) : l.unset index = .ok l := by
  have hlt : l.getChunk index < l.pageList.length := hchunk
  have hget : l.pageList[l.getChunk index]? = some l.pageList[l.getChunk index] := List.getElem?_eq_getElem hlt
  obtain ⟨hpage, hused⟩ := hl.page _ (List.getElem_mem hlt)
  have hfree : l.pageList[l.getChunk index].unset (l.getChunkSubindex index) = .ok l.pageList[l.getChunk index] := by
    apply Page.unset_free
    · rw [hpage.max]
      exact Nat.mod_lt _ hl.size
    · rw [PageList.slot, lookup_of_block hget] at hslot
      exact hslot
  have hempty : l.pageList[l.getChunk index].empty = false := by
    by_contra hempty
    rw [Bool.not_eq_false] at hempty
    exact hused (hpage.empty.mp hempty)
  rw [PageList.unset, hget]
  dsimp only
  rw [hfree, ok_bind, hempty, if_neg Bool.false_ne_true, List.set_getElem_self]
  rfl

theorem Addressed.unset_eq {l : PageList T} (hunset : s.list.unset index = .ok l) : s.unset index = .ok
    ⟨l, if l.chunks = s.list.chunks then s.addrs else s.addrs.eraseIdx (s.list.getChunk index)⟩ := by
  rw [Addressed.unset, hunset, ok_bind]
  rfl

/-- A slot that holds nothing stays as it is, with its page. -/
theorem Addressed.Ok.unset_free (h : s.Ok) (hchunk : s.list.getChunk index < s.list.chunks)
    (hslot : s.list.slot index = none) : s.unset index = .ok s ∧ s.Clears index s := by
  have hsame : s.unset index = .ok s := by
    rw [Addressed.unset_eq (h.list.unset_free hchunk hslot), if_pos rfl]
  obtain ⟨before, page, after, hpages, hbefore⟩ := PageList.split hchunk
  have hlength : s.addrs.length = (before ++ page :: after).length := by rw [h.length, PageList.chunks, hpages]
  obtain ⟨addr, haddr, hholds, -⟩ := writes_middle s.list.pageSize hlength h.nodup
    (Function.update_eq_self (s.list.getChunkSubindex index) page.held).symm
  rw [hbefore] at haddr
  refine ⟨hsame, addr, haddr, .inr ⟨fun old hold => ?_, rfl⟩⟩
  rw [Addressed.pages, hpages, hholds, ← slot_middle hpages hbefore, hslot] at hold
  cases hold

/-- `unset` clears a slot of one page, and the page is erased with its last slot. -/
theorem Addressed.Ok.unset (h : s.Ok) (hchunk : s.list.getChunk index < s.list.chunks) :
    ∃ s', s.unset index = .ok s' ∧ s'.Ok ∧ s.Clears index s' := by
  cases hslot : s.list.slot index with
  | none =>
    obtain ⟨hsame, hclears⟩ := h.unset_free hchunk hslot
    exact ⟨s, hsame, h, hclears⟩
  | some value =>
    obtain ⟨before, page, page', after, hpages, hbefore, hok, hused, hheld, hunset⟩ := h.list.unset hslot
    have hlok := h.list.exchange hpages hok
    have hpage := (h.list.page page (by rw [hpages]; simp)).1
    have hlength : s.addrs.length = (before ++ page :: after).length := by rw [h.length, PageList.chunks, hpages]
    have hchunks : s.list.chunks = before.length + (after.length + 1) := by
      rw [PageList.chunks, hpages, List.length_append, List.length_cons]
    have hs : s = ⟨⟨before ++ page :: after, s.list.pageSize⟩, s.addrs⟩ := by rw [← hpages]
    obtain ⟨front, addr, back, haddrs, hfront, hzip⟩ := zip_middle hlength
    have hfst := map_fst_zip_append before after (haddrs ▸ h.nodup)
    have haddr : s.addrs[s.list.getChunk index]? = some addr := by
      rw [haddrs, ← hbefore, ← hfront]
      simp
    have hheld' : page.held (s.list.getChunkSubindex index) = some value := by
      rw [← slot_middle hpages hbefore, hslot]
    have hold : ∃ old, Holds s.pages addr (s.list.getChunkSubindex index) old := by
      refine ⟨value, ?_⟩
      rw [Addressed.pages, hpages, hzip, holds_middle]
      exact .inl ⟨rfl, hheld'⟩
    by_cases hempty : page'.used = 0
    · -- the page is erased
      rw [if_pos hempty] at hunset hlok
      have hnone := hok.held_eq_none_iff.mpr hempty
      have herase : s.addrs.eraseIdx (s.list.getChunk index) = front ++ back := by
        rw [haddrs, ← hbefore, ← hfront, List.eraseIdx_append_of_length_le (Nat.le_refl _), Nat.sub_self,
          List.eraseIdx_cons_zero]
      have hresult : s.unset index = .ok ⟨⟨before ++ after, s.list.pageSize⟩, front ++ back⟩ := by
        have hless : (⟨before ++ after, s.list.pageSize⟩ : PageList T).chunks ≠ s.list.chunks := by
          rw [hchunks, PageList.chunks, List.length_append]
          omega
        rw [Addressed.unset_eq hunset, if_neg hless, herase]
      refine ⟨_, hresult, ⟨hlok, ?_, ?_⟩, addr, haddr, .inl ⟨hold, fun addr' k' value' => ?_, ?_⟩⟩
      · have hback := congrArg List.length haddrs
        rw [hlength, List.length_append, List.length_append, List.length_cons, List.length_cons] at hback
        rw [PageList.chunks, List.length_append, List.length_append]
        omega
      · have hnodup := h.nodup
        rw [haddrs, List.nodup_middle, List.nodup_cons] at hnodup
        exact hnodup.2
      · rw [Addressed.pages, Addressed.pages, hpages, hzip, List.zip_append hfront, ← holds_update hfst hheld,
          holds_middle, hnone]
        simp
      · rw [hs, occupied_middle, ← hpage.used, hused, hempty, Nat.add_comm]
        rfl
    · -- the page stays
      rw [if_neg hempty] at hunset hlok
      have hsame : (⟨before ++ page' :: after, s.list.pageSize⟩ : PageList T).chunks = s.list.chunks := by
        rw [hchunks, PageList.chunks, List.length_append, List.length_cons]
      have hresult : s.unset index = .ok ⟨⟨before ++ page' :: after, s.list.pageSize⟩, s.addrs⟩ := by
        rw [Addressed.unset_eq hunset, if_pos hsame]
      refine ⟨_, hresult, ⟨hlok, h.length.trans hsame.symm, h.nodup⟩, addr, haddr,
        .inl ⟨hold, fun addr' k' value' => ?_, ?_⟩⟩
      · rw [Addressed.pages, Addressed.pages, hpages, hzip, hzip]
        exact holds_update hfst hheld addr' k' value'
      · rw [hs, occupied_middle, occupied_middle, ← hpage.used, ← hok.used, hused]
        omega

/-! ### Runs -/

inductive Addressed.Op (T : Type)
  | set (value : T) (addr : Nat)
  | unset (index : Nat)

/-- A new page is where no other is, and an index leads to one of the pages. -/
inductive Addressed.Step [Inhabited T] : Addressed T → Addressed.Op T → Addressed T → Prop
  | set {s : Addressed T} {value : T} {addr : Nat} : addr ∉ s.addrs →
      Addressed.Step s (.set value addr) (s.set value addr).2
  | unset {s s' : Addressed T} {index : Nat} : s.list.getChunk index < s.list.chunks →
      s.unset index = .ok s' → Addressed.Step s (.unset index) s'

theorem Addressed.Step.ok [Inhabited T] {op : Addressed.Op T} (h : s.Ok) (hstep : s.Step op s') : s'.Ok := by
  cases hstep with
  | set hfresh => exact (h.set hfresh _).1
  | unset hchunk hunset =>
    obtain ⟨s'', hunset', hok, -⟩ := h.unset hchunk
    rw [hunset] at hunset'
    cases hunset'
    exact hok

/-- In every state of a run the pages agree with their counts and flags and none is empty; a `set` stores into
a slot that was free and an `unset` clears the slot it leads to, and no other slot changes. -/
theorem slots_not_overwritten [Inhabited T] {hist : List (Addressed.Op T)} (hsize : 1 ≤ size)
    (hrun : Run (fun _ s op s' => Addressed.Step s op s') (.new size) hist s) :
    s.list.Ok ∧ (∀ value addr, addr ∉ s.addrs → s.Stores value (s.set value addr).1 (s.set value addr).2) ∧
      ∀ index, s.list.getChunk index < s.list.chunks → ∃ s', s.unset index = .ok s' ∧ s.Clears index s' := by
  have h : s.Ok := by
    apply hrun.invariant fun _ s => s.Ok
    · exact ⟨⟨hsize, by simp [Addressed.new, PageList.new]⟩, rfl, List.nodup_nil⟩
    · intro hist s op s' h hstep
      exact hstep.ok h
  refine ⟨h.list, fun value addr hfresh => (h.set hfresh value).2, fun index hchunk => ?_⟩
  obtain ⟨s', hunset, -, hclears⟩ := h.unset hchunk
  exact ⟨s', hunset, hclears⟩

/-- A list with one value in one page of two slots, at 4096. -/
def onePage : Addressed Nat := ⟨⟨[⟨[⟨5, true⟩, ⟨0, false⟩], 1, false, false⟩], 2⟩, [4096]⟩

/-- The page got a second value, and the first one was cleared. -/
def secondOnly : Addressed Nat := ⟨⟨[⟨[⟨5, false⟩, ⟨6, true⟩], 1, false, false⟩], 2⟩, [4096]⟩

theorem slots_not_overwritten_secondOnly :
    secondOnly.list.Ok ∧
      (∀ value addr, addr ∉ secondOnly.addrs →
        secondOnly.Stores value (secondOnly.set value addr).1 (secondOnly.set value addr).2) ∧
      ∀ index, secondOnly.list.getChunk index < secondOnly.list.chunks →
        ∃ s', secondOnly.unset index = .ok s' ∧ secondOnly.Clears index s' := by
  have hfirst : Addressed.Step (.new 2) (.set 5 4096) onePage := Addressed.Step.set List.not_mem_nil
  have hsecond : Addressed.Step onePage (.set 6 8192) (onePage.set 6 8192).2 := Addressed.Step.set (by decide)
  have hunset : Addressed.Step (onePage.set 6 8192).2 (.unset 0) secondOnly :=
    Addressed.Step.unset (by decide) rfl
  exact slots_not_overwritten (by decide : 1 ≤ 2) (((Run.start.next hfirst).next hsecond).next hunset)

end ManagedObject.Pages
