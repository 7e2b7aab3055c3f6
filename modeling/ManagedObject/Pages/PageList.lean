import ManagedObject.Lib.Handles
import ManagedObject.Pages.Page

/-!
# The page list

`ManagedObjectPageList` gives out indices for values. An index is the position of a page times the page
size plus a slot of that page. `set` goes into the first page that is not full and `unset` erases a page
that becomes empty, at whatever position it stands.
-/

namespace ManagedObject.Pages

open Outcome Handles

variable {T : Type}

structure PageList (T : Type) where
  pageList : List (Page T)
  pageSize : Nat

def PageList.new (pageSize : Nat) : PageList T := ⟨[], pageSize⟩

def PageList.chunks (l : PageList T) : Nat := l.pageList.length

def PageList.getChunk (l : PageList T) (index : Nat) : Nat := index / l.pageSize

def PageList.getChunkSubindex (l : PageList T) (index : Nat) : Nat := index % l.pageSize

/-- `page->set(value) + offset`, where `-1 + offset` wraps. -/
def plusOffset (i : Option Nat) (offset : Nat) : Nat :=
  match i with
  | some i => i + offset
  | none => if offset = 0 then 2 ^ 64 - 1 else offset - 1

/-- The loop of `set`, and the new page after it when all pages are full. -/
def setLoop [Inhabited T] (pageSize : Nat) (value : T) : List (Page T) → Nat → Nat × List (Page T)
  | [], offset =>
    let (i, page) := (Page.new pageSize : Page T).set value
    (plusOffset i offset, [page])
  | page :: pages, offset =>
    if page.full then
      let (i, pages) := setLoop pageSize value pages (offset + pageSize)
      (i, page :: pages)
    else
      let (i, page) := page.set value
      (plusOffset i offset, page :: pages)

def PageList.set [Inhabited T] (l : PageList T) (value : T) : Nat × PageList T :=
  let (i, pages) := setLoop l.pageSize value l.pageList 0
  (i, { l with pageList := pages })

def PageList.unset (l : PageList T) (index : Nat) : Except Fault (PageList T) :=
  match l.pageList[l.getChunk index]? with
  | none => .error (.outOfRange (l.getChunk index))
  | some page => do
    let page ← page.unset (l.getChunkSubindex index)
    if page.empty then return { l with pageList := l.pageList.eraseIdx (l.getChunk index) }
    else return { l with pageList := l.pageList.set (l.getChunk index) page }

/-- What `get_chunk` and `get_chunk_subindex` of an index lead to. -/
def PageList.slot (l : PageList T) : Nat → Option T := lookup l.pageSize Page.held l.pageList

/-- Every page agrees with its count and its flags, and none is empty. -/
structure PageList.Ok (l : PageList T) : Prop where
  size : 1 ≤ l.pageSize
  page : ∀ p ∈ l.pageList, p.Ok l.pageSize ∧ p.used ≠ 0

/-- The page of the index holds another value too, or it is the last page. -/
def PageList.Settled (l : PageList T) (index : Nat) : Prop :=
  ∀ p, l.pageList[l.getChunk index]? = some p → p.used = 1 → l.getChunk index + 1 = l.chunks

variable {l l' : PageList T} {size index offset : Nat} {value : T} {pages : List (Page T)}

/-- The page on which `set` calls `page->set`. -/
def target [Inhabited T] (pageSize : Nat) (pages : List (Page T)) : Page T :=
  (pages.find? fun page => !page.full).getD (.new pageSize)

/-- `set` writes one free slot of one page, which may be a new one. -/
theorem setLoop_spec [Inhabited T] (value : T) (offset : Nat) (hsize : 1 ≤ size)
    (hpages : ∀ p ∈ pages, p.Ok size ∧ p.used ≠ 0) :
    ∃ before page' after i, (target size pages).set value = (some i, page') ∧ i < size ∧
      (target size pages).held i = none ∧ page'.Ok size ∧ page'.used = (target size pages).used + 1 ∧
      page'.held = Function.update (target size pages).held i (some value) ∧
      setLoop size value pages offset = (before.length * size + i + offset, before ++ page' :: after) ∧
      (pages = before ++ target size pages :: after ∨
        pages = before ∧ after = [] ∧ target size pages = Page.new size) := by
  induction pages generalizing offset with
  | nil =>
    obtain ⟨i, page', hset, hi, hfree, hok, hused, hheld⟩ :=
      (Page.new_ok (T := T) hsize).set (by rw [Page.new, if_neg (by omega)]) value
    refine ⟨[], page', [], i, hset, hi, hfree, hok, hused, hheld, ?_, .inr ⟨rfl, rfl, rfl⟩⟩
    simp [setLoop, hset, plusOffset]
  | cons page pages ih =>
    have hpage := (hpages page List.mem_cons_self).1
    cases hfull : page.full with
    | true =>
      have htarget : target size (page :: pages) = target size pages := by
        rw [target, List.find?_cons_of_neg (by simp [hfull]), target]
      obtain ⟨before, page', after, i, hset, hi, hfree, hok, hused, hheld, hloop, hcase⟩ :=
        ih (offset + size) fun q hq => hpages q (List.mem_cons_of_mem _ hq)
      rw [htarget]
      refine ⟨page :: before, page', after, i, hset, hi, hfree, hok, hused, hheld, ?_, ?_⟩
      · rw [setLoop, if_pos hfull, hloop, List.length_cons, Nat.succ_mul]
        dsimp only [List.cons_append]
        congr 1
        omega
      · rcases hcase with hpages | ⟨hpages, hafter, hnew⟩
        · exact .inl (congrArg (page :: ·) hpages)
        · exact .inr ⟨congrArg (page :: ·) hpages, hafter, hnew⟩
    | false =>
      have htarget : target size (page :: pages) = page := by
        rw [target, List.find?_cons_of_pos (by simp [hfull]), Option.getD_some]
      obtain ⟨i, page', hset, hi, hfree, hok, hused, hheld⟩ := hpage.set hfull value
      rw [htarget]
      refine ⟨[], page', pages, i, hset, hi, hfree, hok, hused, hheld, ?_, .inl rfl⟩
      simp [setLoop, hfull, hset, plusOffset]

/-- `set` returns a free index and stores the value under it. -/
theorem PageList.Ok.set [Inhabited T] (hl : l.Ok) (value : T) :
    ∃ i l', l.set value = (i, l') ∧ l'.Ok ∧ l.slot i = none ∧
      l'.slot = Function.update l.slot i (some value) := by
  obtain ⟨before, page', after, i, -, hi, hfree, hok, hused, hheld, hloop, hcase⟩ :=
    setLoop_spec value 0 hl.size hl.page
  generalize target l.pageSize l.pageList = page at hfree hused hheld hcase
  have hslot : l.slot = lookup l.pageSize Page.held (before ++ page :: after) := by
    rw [PageList.slot]
    rcases hcase with hpages | ⟨hpages, rfl, rfl⟩
    · rw [hpages]
    · rw [hpages, lookup_concat Page.new_held]
  have hmem : ∀ p ∈ before ++ page' :: after, p = page' ∨ p ∈ l.pageList := by
    intro p hp
    rw [List.mem_append, List.mem_cons] at hp
    rcases hcase with hpages | ⟨hpages, rfl, rfl⟩
    · rw [hpages, List.mem_append, List.mem_cons]
      tauto
    · rw [hpages]
      simpa [or_comm] using hp
  refine ⟨before.length * l.pageSize + i, { l with pageList := before ++ page' :: after }, ?_, ?_, ?_, ?_⟩
  · rw [PageList.set, hloop]
    rfl
  · constructor
    · exact hl.size
    · intro p hp
      rcases hmem p hp with rfl | hp
      · exact ⟨hok, by omega⟩
      · exact hl.page p hp
  · rw [hslot, lookup_middle hi, hfree]
  · rw [hslot]
    exact lookup_exchange hi hheld

theorem PageList.split (hchunk : l.getChunk index < l.chunks) :
    ∃ before page after, l.pageList = before ++ page :: after ∧ before.length = l.getChunk index := by
  have hlt : l.getChunk index < l.pageList.length := hchunk
  refine ⟨l.pageList.take (l.getChunk index), l.pageList[l.getChunk index],
    l.pageList.drop (l.getChunk index + 1), ?_, ?_⟩
  · rw [List.getElem_cons_drop, List.take_append_drop]
  · rw [List.length_take]
    omega

theorem slot_middle {before after : List (Page T)} {page : Page T} (hpages : l.pageList = before ++ page :: after)
    (hbefore : before.length = l.getChunk index) : l.slot index = page.held (l.getChunkSubindex index) := by
  apply lookup_of_block
  rw [hpages, ← PageList.getChunk, ← hbefore]
  simp

theorem PageList.Ok.split (hl : l.Ok) (hslot : l.slot index = some value) :
    ∃ before page after, l.pageList = before ++ page :: after ∧ before.length = l.getChunk index ∧
      page.Ok l.pageSize ∧ page.held (l.getChunkSubindex index) = some value := by
  obtain ⟨before, page, after, hpages, hbefore⟩ := PageList.split (div_lt_of_lookup hslot)
  refine ⟨before, page, after, hpages, hbefore, ?_, ?_⟩
  · exact (hl.page page (by rw [hpages]; simp)).1
  · rwa [← slot_middle hpages hbefore]

/-- `unset` of an index in use, by the page it leads to: the page stays, or it is erased. -/
theorem PageList.Ok.unset (hl : l.Ok) (hslot : l.slot index = some value) :
    ∃ before page page' after, l.pageList = before ++ page :: after ∧
      before.length = l.getChunk index ∧ page'.Ok l.pageSize ∧ page.used = page'.used + 1 ∧
      page'.held = Function.update page.held (l.getChunkSubindex index) none ∧
      l.unset index = .ok { l with
        pageList := if page'.used = 0 then before ++ after else before ++ page' :: after } := by
  obtain ⟨before, page, after, hpages, hbefore, hpage, hheld⟩ := hl.split hslot
  obtain ⟨page', hunset, hok, hused, hheld'⟩ := hpage.unset hheld
  refine ⟨before, page, page', after, hpages, hbefore, hok, hused, hheld', ?_⟩
  have hget : l.pageList[l.getChunk index]? = some page := by
    rw [hpages, ← hbefore]
    simp
  rw [PageList.unset, hget]
  dsimp only
  rw [hunset]
  dsimp only [bind, Except.bind]
  by_cases hempty : page'.used = 0
  · rw [if_pos (hok.empty.mpr hempty), if_pos hempty, hpages, ← hbefore]
    simp [pure, Except.pure, List.eraseIdx_append_of_length_le]
  · rw [if_neg (fun h => hempty (hok.empty.mp h)), if_neg hempty, hpages, ← hbefore]
    simp [pure, Except.pure]

theorem PageList.Ok.exchange {before after : List (Page T)} {page page' : Page T} (hl : l.Ok)
    (hpages : l.pageList = before ++ page :: after) (hok : page'.Ok l.pageSize) : PageList.Ok { l with
      pageList := if page'.used = 0 then before ++ after else before ++ page' :: after } := by
  have hothers : ∀ p ∈ before ++ after, p.Ok l.pageSize ∧ p.used ≠ 0 := by
    intro p hp
    apply hl.page
    rw [hpages]
    simp only [List.mem_append, List.mem_cons] at hp ⊢
    tauto
  constructor
  · exact hl.size
  · by_cases hempty : page'.used = 0
    · rw [if_pos hempty]
      exact hothers
    · rw [if_neg hempty]
      intro p hp
      rcases List.mem_append.mp hp with hp | hp
      · exact hothers p (List.mem_append_left _ hp)
      · rcases List.mem_cons.mp hp with rfl | hp
        · exact ⟨hok, hempty⟩
        · exact hothers p (List.mem_append_right _ hp)

/-- An index whose page stays in place, or is the last one, is cleared and nothing else changes. -/
theorem PageList.Ok.unset_settled (hl : l.Ok) (hslot : l.slot index = some value)
    (hsettled : l.Settled index) :
    ∃ l', l.unset index = .ok l' ∧ l'.Ok ∧ l'.pageSize = l.pageSize ∧
      l'.slot = Function.update l.slot index none := by
  obtain ⟨before, page, page', after, hpages, hbefore, hok, hused, hheld, hunset⟩ := hl.unset hslot
  have hsub : l.getChunkSubindex index < l.pageSize := Nat.mod_lt _ hl.size
  have hindex : before.length * l.pageSize + l.getChunkSubindex index = index := by
    rw [hbefore, Nat.mul_comm]
    exact Nat.div_add_mod index l.pageSize
  have hwrite : lookup l.pageSize Page.held (before ++ page' :: after) =
      Function.update l.slot index none := by
    rw [lookup_exchange hsub hheld, hindex, PageList.slot, hpages]
  refine ⟨_, hunset, hl.exchange hpages hok, rfl, ?_⟩
  rw [← hwrite, PageList.slot]
  by_cases hempty : page'.used = 0
  · -- the page is the last one, so erasing it moves no other
    have hlast : l.getChunk index + 1 = l.chunks := by
      apply hsettled page
      · rw [hpages, ← hbefore]
        simp
      · omega
    have hafter : after = [] := by
      rw [PageList.chunks, hpages, List.length_append, List.length_cons] at hlast
      rw [← List.length_eq_zero_iff]
      omega
    rw [if_pos hempty, hafter, List.append_nil, lookup_concat (hok.held_eq_none_iff.mpr hempty)]
  · rw [if_neg hempty]

/-- Otherwise the later pages move, and an index into the last one leads past the end. -/
theorem PageList.Ok.unset_shifted (hl : l.Ok) (hslot : l.slot index = some value)
    (hsettled : ¬ l.Settled index) :
    ∃ l' i a, l.unset index = .ok l' ∧ i ≠ index ∧ l.slot i = some a ∧ l'.slot i = none := by
  obtain ⟨before, page, page', after, hpages, hbefore, hok, hused, hheld, hunset⟩ := hl.unset hslot
  have hget : l.pageList[l.getChunk index]? = some page := by
    rw [hpages, ← hbefore]
    simp
  have hshift : page'.used = 0 ∧ after ≠ [] := by
    by_contra hnot
    apply hsettled
    intro p hp hone
    rw [hget] at hp
    cases hp
    have hafter : after = [] := by
      by_contra hafter
      exact hnot ⟨by omega, hafter⟩
    rw [PageList.chunks, hpages, hafter, ← hbefore]
    simp
  obtain ⟨hempty, hafter⟩ := hshift
  obtain ⟨r, q, rfl⟩ : ∃ r q, after = r ++ [q] := ⟨_, _, (List.dropLast_append_getLast hafter).symm⟩
  have hq : q ∈ l.pageList := by
    rw [hpages]
    simp
  obtain ⟨k, a, hk, hvalue⟩ := (hl.page q hq).1.exists_held (hl.page q hq).2
  have hslot' : l.slot ((before ++ page :: r).length * l.pageSize + k) = some a := by
    have hsplit : l.pageList = (before ++ page :: r) ++ q :: [] := by
      rw [hpages]
      simp
    rw [PageList.slot, hsplit, lookup_middle hk, hvalue]
  have hchunk : ((before ++ page :: r).length * l.pageSize + k) / l.pageSize = before.length + (r.length + 1) := by
    rw [div_of_block hk]
    simp
  refine ⟨_, _, a, hunset, ?_, hslot', ?_⟩
  · intro hi
    rw [hi] at hchunk
    rw [hbefore, PageList.getChunk] at hchunk
    omega
  · rw [if_pos hempty, PageList.slot, lookup]
    dsimp only
    rw [hchunk, List.getElem?_eq_none (by simp)]
    rfl

end ManagedObject.Pages
