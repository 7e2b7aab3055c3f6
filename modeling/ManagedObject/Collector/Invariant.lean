import ManagedObject.Collector.Mark

/-!
# What every heap satisfies

Between two operations the Memories are gray and unseen, the `indexes` of a Memory are the indexes of
its Infos, and every Info that was ever made is in one place: in a Memory, in the list of what has been
destroyed, or erased. All operations keep this, whatever they do to the objects of the program.
-/

namespace ManagedObject.Collector

open Outcome ManagedObject.Lists

variable {s s' : Heap} {m : MemoryId} {h : HandleId}

def Heap.ids (s : Heap) (m : MemoryId) : List Nat := (s.mem m).memory.map Info.id

def Heap.destroyedHandles (s : Heap) : List HandleId := s.destroyed.filterMap Info.getHeap

theorem isDestroyed_iff : s.isDestroyed h = true ↔ h ∈ s.destroyedHandles := by
  rw [Heap.isDestroyed, List.any_eq_true, Heap.destroyedHandles, List.mem_filterMap]
  simp

/-- The handle was made by the program. -/
def Heap.Known (s : Heap) (h : HandleId) : Prop := h ≠ root ∧ h < s.nextHandle

structure HeapOk (s : Heap) : Prop where
  target : ∀ h, s.target h < s.nextMemory
  indexes : ∀ m, (s.mem m).indexes.Perm ((s.mem m).memory.map Info.index)
  late : ∀ m, Late ((s.mem m).memory.map Info.index)
  unseen : ∀ m, (s.mem m).seen = false
  gray : ∀ m, m ∉ s.destroyedMemory → (s.mem m).color = .gray
  nodup : ∀ m, (s.ids m).Nodup
  owner : ∀ m m', ∀ i ∈ s.ids m, i ∈ s.ids m' → m = m'
  fresh : ∀ m, ∀ i ∈ s.ids m, i < s.nextInfo ∧ i ∉ s.destroyed.map Info.id
  known : ∀ m, ∀ h ∈ s.refs m, s.Known h
  rootLives : (s.handle root).deallocated = false
  rootKnown : root < s.nextHandle
  oldInfo : ∀ i ∈ s.destroyed.map Info.id, i < s.nextInfo
  oldHandle : ∀ h ∈ s.destroyedHandles, s.Known h
  once : (s.destroyed.map Info.id).Nodup
  onceMemory : s.destroyedMemory.Nodup

theorem start_ok : HeapOk .start where
  target _ := Nat.zero_lt_one
  indexes _ := .refl _
  late _ := .nil
  unseen _ := rfl
  gray _ _ := rfl
  nodup _ := List.nodup_nil
  owner _ _ _ hi := by cases hi
  fresh _ _ hi := by cases hi
  known _ _ hh := by cases hh
  rootLives := rfl
  rootKnown := Nat.zero_lt_one
  oldInfo _ hi := by cases hi
  oldHandle _ hh := by cases hh
  once := List.nodup_nil
  onceMemory := List.nodup_nil

theorem ids_setMem (x : Memory) (m' : MemoryId) :
    (s.setMem m x).ids m' = if m' = m then x.memory.map Info.id else s.ids m' := by
  rw [Heap.ids, setMem_mem]
  split <;> rfl

theorem refs_setMem (x : Memory) (m' : MemoryId) :
    (s.setMem m x).refs m' = if m' = m then x.memory.filterMap Info.getHeap else s.refs m' := by
  rw [Heap.refs, setMem_mem]
  split <;> rfl

theorem HeapOk.setHandle (hs : HeapOk s) {x : Handle} (hx : x.memory < s.nextMemory)
    (hroot : h = root → x.deallocated = false) : HeapOk (s.setHandle h x) where
  target h' := by
    rw [Heap.target, Heap.setHandle]
    dsimp only
    split
    · exact hx
    · exact hs.target h'
  indexes := hs.indexes
  late := hs.late
  unseen := hs.unseen
  gray := hs.gray
  nodup := hs.nodup
  owner := hs.owner
  fresh := hs.fresh
  known := hs.known
  rootLives := by
    rw [Heap.setHandle]
    dsimp only
    split
    · rename_i heq
      exact hroot heq.symm
    · exact hs.rootLives
  rootKnown := hs.rootKnown
  oldInfo := hs.oldInfo
  oldHandle := hs.oldHandle
  once := hs.once
  onceMemory := hs.onceMemory

theorem HeapOk.create (hs : HeapOk s) : HeapOk (s.create h) :=
  hs.setHandle (hs.target h) fun heq => heq ▸ hs.rootLives

/-- Names of handles and Memories are taken. -/
theorem HeapOk.grow (hs : HeapOk s) {nextHandle nextMemory : Nat} (hhandle : s.nextHandle ≤ nextHandle)
    (hmemory : s.nextMemory ≤ nextMemory) : HeapOk { s with nextHandle, nextMemory } where
  target h := Nat.lt_of_lt_of_le (hs.target h) hmemory
  indexes := hs.indexes
  late := hs.late
  unseen := hs.unseen
  gray := hs.gray
  nodup := hs.nodup
  owner := hs.owner
  fresh := hs.fresh
  known m h hh := ⟨(hs.known m h hh).1, Nat.lt_of_lt_of_le (hs.known m h hh).2 hhandle⟩
  rootLives := hs.rootLives
  rootKnown := Nat.lt_of_lt_of_le hs.rootKnown hhandle
  oldInfo := hs.oldInfo
  oldHandle h hh := ⟨(hs.oldHandle h hh).1, Nat.lt_of_lt_of_le (hs.oldHandle h hh).2 hhandle⟩
  once := hs.once
  onceMemory := hs.onceMemory

/-- What follows a heap without a collection: nothing is destroyed. -/
structure Next (s s' : Heap) : Prop where
  ok : HeapOk s'
  handles : s.nextHandle ≤ s'.nextHandle
  destroyed : s'.destroyed = s.destroyed
  destroyedMemory : s'.destroyedMemory = s.destroyedMemory

theorem Next.refl (hs : HeapOk s) : Next s s := ⟨hs, Nat.le_refl _, rfl, rfl⟩

theorem Next.trans {s₁ : Heap} (h₁ : Next s s₁) (h₂ : Next s₁ s') : Next s s' where
  ok := h₂.ok
  handles := Nat.le_trans h₁.handles h₂.handles
  destroyed := h₂.destroyed.trans h₁.destroyed
  destroyedMemory := h₂.destroyedMemory.trans h₁.destroyedMemory

theorem Next.known (hnext : Next s s') (hh : s.Known h) : s'.Known h :=
  ⟨hh.1, Nat.lt_of_lt_of_le hh.2 hnext.handles⟩

theorem HeapOk.newHandle (hs : HeapOk s) {x : Handle} (hx : x.memory < s.nextMemory)
    (h' : s.newHandle x = (h, s')) : Next s s' ∧ s'.Known h ∧ s.nextHandle ≤ h := by
  cases h'
  have hne : s.nextHandle ≠ root := Nat.ne_of_gt hs.rootKnown
  have hset := hs.setHandle hx fun heq => absurd heq hne
  exact ⟨⟨hset.grow (Nat.le_succ _) (Nat.le_refl _), Nat.le_succ _, rfl, rfl⟩, ⟨hne, Nat.lt_succ_self _⟩,
    Nat.le_refl _⟩

theorem HeapOk.copyHandle (hs : HeapOk s) {x y : Handle} (hx : x.memory < s.nextMemory)
    (h' : s.copyHandle x = (y, s')) : Next s s' ∧ y.memory < s'.nextMemory := by
  rw [Heap.copyHandle] at h'
  split at h'
  · cases h'
    exact ⟨.refl hs, hx⟩
  · cases h'
    exact ⟨⟨hs.grow (Nat.le_refl _) (Nat.le_succ _), Nat.le_refl _, rfl, rfl⟩, Nat.lt_succ_self _⟩

/-- What holds of every Memory, and of the one that is written, holds of every Memory afterwards. -/
theorem forall_mem_setMem {P : Memory → Prop} {x : Memory} {n : Nat} (hs : ∀ m', P (s.mem m')) (hx : P x)
    (m' : MemoryId) : P (Heap.mem { s.setMem m x with nextInfo := n } m') := by
  rw [show Heap.mem { s.setMem m x with nextInfo := n } m' = _ from setMem_mem x m']
  split
  · exact hx
  · exact hs m'

/-- One Memory changes: it loses Infos, gets new ones, or its counter or the pointers of its Infos
change. -/
theorem HeapOk.setMem (hs : HeapOk s) {x : Memory} {n : Nat}
    (hindexes : x.indexes.Perm (x.memory.map Info.index)) (hlate : Late (x.memory.map Info.index))
    (hnodup : (x.memory.map Info.id).Nodup)
    (hids : ∀ i ∈ x.memory.map Info.id, i ∈ s.ids m ∨ (s.nextInfo ≤ i ∧ i < n)) (hn : s.nextInfo ≤ n)
    (hrefs : ∀ h ∈ x.memory.filterMap Info.getHeap, s.Known h) (hseen : x.seen = false)
    (hcolor : x.color = (s.mem m).color) : HeapOk { s.setMem m x with nextInfo := n } where
  target := hs.target
  indexes :=
    forall_mem_setMem (P := fun cell => cell.indexes.Perm (cell.memory.map Info.index)) hs.indexes hindexes
  late := forall_mem_setMem (P := fun cell => Late (cell.memory.map Info.index)) hs.late hlate
  unseen := forall_mem_setMem (P := fun cell => cell.seen = false) hs.unseen hseen
  gray m' hm' := by
    rw [show Heap.mem { s.setMem m x with nextInfo := n } m' = _ from setMem_mem x m']
    split
    · rename_i heq
      rw [hcolor]
      exact hs.gray m (heq ▸ hm')
    · exact hs.gray m' hm'
  nodup := forall_mem_setMem (P := fun cell => (cell.memory.map Info.id).Nodup) hs.nodup hnodup
  owner m₁ m₂ i h₁ h₂ := by
    rw [show Heap.ids { s.setMem m x with nextInfo := n } m₁ = _ from ids_setMem x m₁] at h₁
    rw [show Heap.ids { s.setMem m x with nextInfo := n } m₂ = _ from ids_setMem x m₂] at h₂
    -- an Info of another Memory is an old one, so it is not new in this one
    have hold : ∀ m', i ∈ s.ids m' → i ∈ x.memory.map Info.id → i ∈ s.ids m := fun m' hi hx =>
      (hids i hx).resolve_right fun hnew => by
        have := (hs.fresh m' i hi).1
        omega
    split at h₁ <;> split at h₂
    · rename_i heq₁ heq₂
      rw [heq₁, heq₂]
    · rename_i heq₁ _
      rw [heq₁]
      exact hs.owner m m₂ i (hold m₂ h₂ h₁) h₂
    · rename_i _ heq₂
      rw [heq₂]
      exact hs.owner m₁ m i h₁ (hold m₁ h₁ h₂)
    · exact hs.owner m₁ m₂ i h₁ h₂
  fresh m' i hi := by
    rw [show Heap.ids { s.setMem m x with nextInfo := n } m' = _ from ids_setMem x m'] at hi
    have hold : ∀ m', i ∈ s.ids m' → i < n ∧ i ∉ s.destroyed.map Info.id := fun m' hi =>
      ⟨by have := (hs.fresh m' i hi).1; omega, (hs.fresh m' i hi).2⟩
    split at hi
    · rcases hids i hi with hi | hnew
      · exact hold m hi
      · refine ⟨hnew.2, fun hdestroyed => ?_⟩
        have := hs.oldInfo i hdestroyed
        omega
    · exact hold m' hi
  known :=
    forall_mem_setMem (P := fun cell => ∀ h ∈ cell.memory.filterMap Info.getHeap, s.Known h) hs.known hrefs
  rootLives := hs.rootLives
  rootKnown := hs.rootKnown
  oldInfo i hi := by
    have := hs.oldInfo i hi
    show i < n
    omega
  oldHandle := hs.oldHandle
  once := hs.once
  onceMemory := hs.onceMemory

/-- A Memory that loses some of its Infos, and their indexes with them. -/
theorem HeapOk.shrink (hs : HeapOk s) {x : Memory} (hindexes : x.indexes.Perm (x.memory.map Info.index))
    (hsub : x.memory.Sublist (s.mem m).memory) (hseen : x.seen = false)
    (hcolor : x.color = (s.mem m).color) : HeapOk (s.setMem m x) :=
  hs.setMem hindexes ((hs.late m).sublist (hsub.map _)) ((hs.nodup m).sublist (hsub.map _))
    (fun _ hi => Or.inl ((hsub.map _).subset hi)) (Nat.le_refl _)
    (fun h hh => hs.known m h ((hsub.filterMap _).subset hh)) hseen hcolor

theorem push_ok {ptr : Ptr} {ptrIsRef : Bool} {r : Nat × Heap} (h' : s.push h ptr ptrIsRef = .ok r) :
    s.check h = .ok () ∧ r.2 = { (s.create h).setMem (s.target h) { s.mem (s.target h) with
      indexes := (s.mem (s.target h)).indexes ++ [(s.mem (s.target h)).memory.length]
      memory := (s.mem (s.target h)).memory ++
        [⟨s.nextInfo, (s.mem (s.target h)).memory.length, ptr, ptrIsRef⟩] } with
      nextInfo := s.nextInfo + 1 } := by
  obtain ⟨⟨m, s₁⟩, hget, hrest⟩ := bind_eq_ok h'
  obtain ⟨hcheck, heq⟩ := getMemory_ok hget
  cases heq
  cases hrest
  exact ⟨hcheck, rfl⟩

theorem HeapOk.push (hs : HeapOk s) {ptr : Ptr} {ptrIsRef : Bool} {r : Nat × Heap}
    (hptr : ∀ h', ptr = .heap h' → s.Known h') (h' : s.push h ptr ptrIsRef = .ok r) : Next s r.2 := by
  obtain ⟨-, hr⟩ := push_ok h'
  rw [hr]
  refine ⟨(hs.create (h := h)).setMem ?_ ?_ ?_ ?_ (Nat.le_succ _) ?_ (hs.unseen _) rfl,
    Nat.le_refl _, rfl, rfl⟩
  · rw [List.map_append]
    exact (hs.indexes _).append (.refl _)
  · rw [List.map_append]
    refine (hs.late _).concat ?_
    exact Nat.le_of_eq (List.length_map _)
  · rw [List.map_append, List.nodup_append]
    refine ⟨hs.nodup _, List.nodup_singleton _, fun i hi j hj => ?_⟩
    have hless := (hs.fresh _ i hi).1
    rw [List.mem_singleton.mp hj]
    exact Nat.ne_of_lt hless
  · intro i hi
    rw [List.map_append] at hi
    rcases List.mem_append.mp hi with hi | hi
    · exact Or.inl hi
    · rw [List.mem_singleton.mp hi]
      exact Or.inr ⟨Nat.le_refl _, Nat.lt_succ_self _⟩
  · intro h₁ hh
    rw [List.filterMap_append] at hh
    rcases List.mem_append.mp hh with hh | hh
    · exact hs.known _ h₁ hh
    · refine hptr h₁ ?_
      obtain ⟨info, hinfo, hget⟩ := List.mem_filterMap.mp hh
      rw [List.mem_singleton.mp hinfo, Info.getHeap] at hget
      split at hget
      · rename_i hptr
        cases hget
        exact hptr
      · cases hget

theorem HeapOk.pushHeap (hs : HeapOk s) {other : HandleId} {r : Nat × Heap} (hother : s.Known other)
    (h' : s.push h (.heap other) true = .ok r) : Next s r.2 := by
  refine hs.push ?_ h'
  intro h₁ heq
  cases heq
  exact hother

/-! ### The operations up to a collection -/

theorem HeapOk.construct (hs : HeapOk s) {r : HandleId × Heap} (h' : construct s = .ok r) :
    Next s r.2 ∧ r.2.Known r.1 ∧ s.nextHandle ≤ r.1 := by
  rw [Collector.construct] at h'
  generalize hnew : Heap.newHandle _ _ = made at h'
  obtain ⟨h₁, s₁⟩ := made
  have hgrow : Next s { s with nextMemory := s.nextMemory + 1 } :=
    ⟨hs.grow (Nat.le_refl _) (Nat.le_succ s.nextMemory), Nat.le_refl _, rfl, rfl⟩
  obtain ⟨hs₁, hknown, hfresh⟩ := hgrow.ok.newHandle (Nat.lt_succ_self _) hnew
  obtain ⟨⟨i, s₂⟩, hpush, hrest⟩ := bind_eq_ok h'
  cases hrest
  have hs₂ := hs₁.ok.pushHeap hknown hpush
  exact ⟨(hgrow.trans hs₁).trans hs₂, hs₂.known hknown, hfresh⟩

theorem HeapOk.copyConstruct (hs : HeapOk s) {r : HandleId × Heap}
    (h' : copyConstruct s h = .ok r) : Next s r.2 ∧ r.2.Known r.1 ∧ s.nextHandle ≤ r.1 := by
  rw [Collector.copyConstruct] at h'
  split at h'
  · cases h'
  · generalize hcopy : Heap.copyHandle _ _ = copied at h'
    obtain ⟨x, s₁⟩ := copied
    obtain ⟨hs₁, hx⟩ := hs.copyHandle (hs.target h) hcopy
    dsimp only at h'
    generalize hnew : Heap.newHandle _ _ = made at h'
    obtain ⟨h₂, s₂⟩ := made
    obtain ⟨hs₂, hknown, hfresh⟩ := hs₁.ok.newHandle hx hnew
    obtain ⟨⟨i, s₃⟩, hpush, hrest⟩ := bind_eq_ok h'
    cases hrest
    have hs₃ := hs₂.ok.pushHeap hknown hpush
    exact ⟨(hs₁.trans hs₂).trans hs₃, hs₃.known hknown, Nat.le_trans hs₁.handles hfresh⟩

theorem HeapOk.unroot (hs : HeapOk s) {s' : Heap} (h' : s.unroot h = .ok s') : Next s s' := by
  obtain ⟨⟨m, s₁⟩, hget, hrest⟩ := bind_eq_ok h'
  obtain ⟨-, heq⟩ := getMemory_ok hget
  cases heq
  dsimp only at hrest
  split at hrest
  · cases hrest
    exact ⟨hs.create, Nat.le_refl _, rfl, rfl⟩
  · rename_i info hfind
    cases hrest
    obtain ⟨l₁, l₂, -, hmem, herase⟩ := eraseLast_of_find? hfind
    refine ⟨(hs.create (h := root)).shrink ?_ eraseLast_sublist (hs.unseen _) rfl,
      Nat.le_refl _, rfl, rfl⟩
    have hperm := hs.indexes (s.target root)
    rw [create_mem] at hmem herase ⊢
    rw [hmem, List.map_append, List.map_cons] at hperm
    rw [herase, List.map_append]
    exact perm_eraseLast_middle hperm

theorem HeapOk.byRef (hs : HeapOk s) {this other : HandleId} (hother : s.Known other)
    (h' : byRef s this other = .ok s') : Next s s' := by
  obtain ⟨⟨i, s₁⟩, hpush, hrest⟩ := bind_eq_ok h'
  have hs₁ := hs.pushHeap hother hpush
  exact hs₁.trans (hs₁.ok.unroot hrest)

theorem HeapOk.pushValue (hs : HeapOk s) {v : Nat} (h' : pushValue s h v = .ok s') : Next s s' := by
  obtain ⟨⟨i, s₁⟩, hpush, hrest⟩ := bind_eq_ok h'
  cases hrest
  refine hs.push ?_ hpush
  intro h₁ heq
  cases heq

theorem HeapOk.getValueAt (hs : HeapOk s) {index : Nat} {r : Ptr × Heap}
    (h' : getValueAt s h index = .ok r) : Next s r.2 := by
  obtain ⟨⟨m, s₁⟩, hget, hrest⟩ := bind_eq_ok h'
  obtain ⟨-, heq⟩ := getMemory_ok hget
  cases heq
  dsimp only at hrest
  split at hrest
  · cases hrest
  · cases hrest
    exact ⟨hs.create, Nat.le_refl _, rfl, rfl⟩

theorem HeapOk.setPtr (hs : HeapOk s) {ptr : Ptr} (hptr : ∀ h, ptr ≠ .heap h) {index : Nat} {info : Info}
    (hinfo : (s.mem m).memory[index]? = some info) : HeapOk (s.setMem m { s.mem m with
      memory := (s.mem m).memory.set index { info with ptr } }) := by
  have hindex := map_set_of_eq (f := Info.index) (b := { info with ptr }) hinfo rfl
  have hid := map_set_of_eq (f := Info.id) (b := { info with ptr }) hinfo rfl
  refine hs.setMem ?_ ?_ ?_ ?_ (Nat.le_refl _) ?_ (hs.unseen _) rfl
  · dsimp only
    rw [hindex]
    exact hs.indexes _
  · dsimp only
    rw [hindex]
    exact hs.late _
  · dsimp only
    rw [hid]
    exact hs.nodup _
  · intro i hi
    dsimp only at hi
    rw [hid] at hi
    exact Or.inl hi
  · intro h₁ hh
    obtain ⟨x, hx, hget⟩ := List.mem_filterMap.mp hh
    rcases List.mem_or_eq_of_mem_set hx with hx | rfl
    · exact hs.known _ h₁ (List.mem_filterMap.mpr ⟨x, hx, hget⟩)
    · rw [Info.getHeap] at hget
      split at hget
      · rename_i heq
        exact absurd heq (hptr _)
      · cases hget

theorem value_ne_heap (v : Nat) : ∀ h, Ptr.value v ≠ .heap h := fun _ heq => Ptr.noConfusion heq

theorem object_ne_heap (other : HandleId) : ∀ h, Ptr.object other ≠ .heap h :=
  fun _ heq => Ptr.noConfusion heq

theorem HeapOk.setValueAt (hs : HeapOk s) {index v : Nat} (h' : setValueAt s h index v = .ok s') :
    Next s s' := by
  obtain ⟨⟨m, s₁⟩, hget, hrest⟩ := bind_eq_ok h'
  obtain ⟨-, heq⟩ := getMemory_ok hget
  cases heq
  dsimp only at hrest
  cases hinfo : ((s.create h).mem (s.target h)).memory[index]? with
  | none =>
    rw [hinfo] at hrest
    cases hrest
  | some info =>
    rw [hinfo] at hrest
    dsimp only at hrest
    split at hrest
    · cases hrest
    · cases hrest
      exact ⟨(hs.create (h := h)).setPtr (value_ne_heap v) hinfo, Nat.le_refl _, rfl, rfl⟩

theorem HeapOk.reroot (hs : HeapOk s) {this other : HandleId} {index : Nat} (hother : s.Known other)
    (h' : reroot s this index other = .ok s') : Next s s' := by
  obtain ⟨⟨m, s₁⟩, hget, hrest⟩ := bind_eq_ok h'
  obtain ⟨-, heq⟩ := getMemory_ok hget
  cases heq
  dsimp only at hrest
  cases hinfo : ((s.create this).mem (s.target this)).memory[index]? with
  | none =>
    rw [hinfo] at hrest
    cases hrest
  | some info =>
    rw [hinfo] at hrest
    dsimp only at hrest
    split at hrest
    · cases hrest
    · obtain ⟨⟨i, s₂⟩, hpush, hrest⟩ := bind_eq_ok hrest
      have hset := (hs.create (h := this)).setPtr (object_ne_heap other) hinfo
      have hs₂ := hset.pushHeap hother hpush
      have hset' : Next s _ := ⟨hset, Nat.le_refl _, rfl, rfl⟩
      exact (hset'.trans hs₂).trans (hs₂.ok.unroot hrest)

theorem HeapOk.release (hs : HeapOk s) {deallocLimit : Nat} {r : Bool × Heap} (hh : h ≠ root)
    (h' : release deallocLimit s h = .ok r) : Next s r.2 := by
  rw [Collector.release] at h'
  split at h'
  · cases h'
  · obtain ⟨⟨m, s₁⟩, hget, hrest⟩ := bind_eq_ok h'
    obtain ⟨-, heq⟩ := getMemory_ok hget
    cases heq
    cases hrest
    have hset : HeapOk (s.setHandle h { s.handle h with deallocated := true }) :=
      hs.setHandle (hs.target h) fun heq => absurd heq hh
    exact ⟨(hset.create (h := root)).shrink (hs.indexes _) (List.Sublist.refl _) (hs.unseen _) rfl,
      Nat.le_refl _, rfl, rfl⟩

theorem HeapOk.reassign (hs : HeapOk s) {this other : HandleId} {r : HandleId × Heap}
    (hthis : this ≠ root) (h' : reassign s this other = .ok r) : Next s r.2 ∧ r.1 ≠ root := by
  rw [Collector.reassign] at h'
  split at h'
  · cases h'
  · generalize hnew : Heap.newHandle _ _ = made at h'
    obtain ⟨old, s₁⟩ := made
    obtain ⟨hs₁, hknown, -⟩ := hs.newHandle (hs.target this) hnew
    obtain ⟨⟨i, s₂⟩, hpush, hrest⟩ := bind_eq_ok h'
    have hs₂ := hs₁.ok.pushHeap hknown hpush
    dsimp only at hrest hs₂
    split at hrest
    · cases hrest
    · generalize hcopy : Heap.copyHandle _ _ = copied at hrest
      obtain ⟨x, s₃⟩ := copied
      obtain ⟨hs₃, hx⟩ := hs₂.ok.copyHandle (hs₂.ok.target other) hcopy
      cases hrest
      have hset : Next s₃ _ :=
        ⟨hs₃.ok.setHandle hx fun heq => absurd heq hthis, Nat.le_refl _, rfl, rfl⟩
      exact ⟨((hs₁.trans hs₂).trans hs₃).trans hset, hknown.1⟩

end ManagedObject.Collector
