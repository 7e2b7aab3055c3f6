import ManagedObject.Collector.Copies
import ManagedObject.Collector.Reclaim

/-!
# Indexes and positions

`push` returns the position of a new Info as its index, and `get_value_at` uses the index as a position.
The two stay the same as long as Infos are only taken from the end of a Memory: by `byRef` and `reroot`
from the root list, and by a collection from a Memory that refers to dead ones.
-/

namespace ManagedObject.Collector

open Outcome Lib ManagedObject.Lists

/-- The Info is a reference to a Memory that a collection takes. -/
def Heap.RefersDead (s : Heap) (info : Info) : Prop := ∃ h, info.getHeap = some h ∧ s.DeadFirst (s.target h)

/-- The Memory is no dead one, and its references to dead ones are its last Infos. -/
structure Heap.DeadLast (s : Heap) (m : MemoryId) : Prop where
  lives : ¬ s.DeadFirst m
  last : ∀ l₁ info l₂, (s.mem m).memory = l₁ ++ info :: l₂ → s.RefersDead info →
    ∀ info' ∈ l₂, s.RefersDead info'

/-- The reference to a handle that is taken off the root list is the last Info there. -/
def Heap.UnrootsLast (s : Heap) (h : HandleId) : Prop := ∀ info,
  (s.mem (s.target root)).memory.reverse.find? (fun info => info.getHeap = some h) = some info →
    (s.mem (s.target root)).memory.getLast? = some info

/-- `byRef` and `reroot` take the last Info off the root list. -/
def Op.UnrootsLast (s : Heap) : Op → Prop
  | .byRef _ other | .reroot _ _ other => s.UnrootsLast other
  | _ => True

/-- What the operation stores in a Memory, after the index. -/
def Op.stored (p : Program) (m : MemoryId) : Op → Option (Nat × Ptr)
  | .pushValue this v =>
    if p.heap.target this = m then some ((p.heap.mem m).memory.length, .value v) else none
  | .setValueAt this index v => if p.heap.target this = m then some (index, .value v) else none
  | .reroot this index other => if p.heap.target this = m then some (index, .object other) else none
  | _ => none

/-- What happens to the Infos of a Memory that keep their positions. -/
structure SlotsKept (written : Nat → Prop) (l l' : List Info) : Prop where
  aligned : Aligned Info.index l → Aligned Info.index l'
  kept : ∀ i info, l[i]? = some info → info.ptrIsRef = false → ¬ written i → l'[i]? = some info

variable {s s' s₁ : Heap} {st : Sweep} {h : HandleId} {m : MemoryId} {written : Nat → Prop}
  {l l' l₁ : List Info} {info : Info} {deallocLimit : Nat}

theorem SlotsKept.refl : SlotsKept written l l := ⟨id, fun _ _ hinfo _ _ => hinfo⟩

theorem SlotsKept.of_eq (heq : l' = l) : SlotsKept written l l' := heq ▸ .refl

theorem SlotsKept.trans (h₁ : SlotsKept written l l₁) (h₂ : SlotsKept written l₁ l') :
    SlotsKept written l l' where
  aligned hl := h₂.aligned (h₁.aligned hl)
  kept i info hinfo hvalue hsame := h₂.kept i info (h₁.kept i info hinfo hvalue hsame) hvalue hsame

theorem SlotsKept.mono {written' : Nat → Prop} (hslots : SlotsKept written l l')
    (h : ∀ i, written i → written' i) : SlotsKept written' l l' where
  aligned := hslots.aligned
  kept i info hinfo hvalue hsame := hslots.kept i info hinfo hvalue fun hi => hsame (h i hi)

/-- References are taken from the end. -/
theorem SlotsKept.first (hfirst : l' <+: l) (hrefs : ∀ info ∈ l, info ∉ l' → info.ptrIsRef = true)
    (hnodup : l.Nodup) : SlotsKept written l l' where
  aligned hl := hl.first hfirst
  kept i info hinfo hvalue _ := by
    obtain ⟨k, rfl⟩ := hfirst
    rw [← hinfo, List.getElem?_append_left]
    by_contra hi
    rw [List.getElem?_append_right (Nat.le_of_not_lt hi)] at hinfo
    have hmem := List.mem_of_getElem? hinfo
    have href := hrefs info (List.mem_append_right _ hmem)
      fun hinfo' => (List.nodup_append.mp hnodup).2.2 info hinfo' info hmem rfl
    rw [hvalue] at href
    cases href

/-! ### The operations up to a collection -/

theorem push_slots {ptr : Ptr} {ptrIsRef : Bool} {r : Nat × Heap} (h' : s.push h ptr ptrIsRef = .ok r) :
    SlotsKept written (s.mem m).memory (r.2.mem m).memory := by
  obtain ⟨-, hr⟩ := push_ok h'
  rw [hr]
  simp only [Heap.setMem, create_mem]
  split
  · rename_i heq
    subst heq
    refine ⟨fun hl => hl.concat rfl, fun i info hinfo _ _ => ?_⟩
    dsimp only
    rw [List.getElem?_append_left]
    · exact hinfo
    · exact (List.getElem?_eq_some_iff.mp hinfo).1
  · exact .refl

theorem push_slots_of_mem {ptr : Ptr} {ptrIsRef : Bool} {r : Nat × Heap}
    (h' : s₁.push h ptr ptrIsRef = .ok r) (hmem : s₁.mem = s.mem) :
    SlotsKept written (s.mem m).memory (r.2.mem m).memory := by
  rw [← hmem]
  exact push_slots h'

theorem unroot_slots (hlast : m = s.target root → s.UnrootsLast h) (h' : s.unroot h = .ok s') :
    SlotsKept written (s.mem m).memory (s'.mem m).memory := by
  obtain ⟨⟨r, s₁⟩, hget, h'⟩ := bind_eq_ok h'
  obtain ⟨-, heq⟩ := getMemory_ok hget
  cases heq
  dsimp only at h'
  split at h'
  · cases h'
    exact .refl
  · rename_i info hfind
    cases h'
    rw [setMem_mem]
    split
    · rename_i heq
      have hget := hlast heq info hfind
      have href : info.getHeap = some h := by simpa using List.find?_some hfind
      rw [heq]
      dsimp only
      rw [create_mem]
      obtain ⟨l, hl⟩ := List.getLast?_eq_some_iff.mp hget
      rw [hl, eraseLast_concat (by simpa using href)]
      refine ⟨fun haligned => haligned.first (List.prefix_append _ _), fun i info' hinfo hvalue _ => ?_⟩
      rcases Nat.lt_or_ge i l.length with hi | hi
      · rw [List.getElem?_append_left hi] at hinfo
        exact hinfo
      · rw [List.getElem?_append_right hi] at hinfo
        obtain rfl : info' = info := List.mem_singleton.mp (List.mem_of_getElem? hinfo)
        rw [getHeap_value hvalue] at href
        cases href
    · exact .refl

theorem setPtr_slots {i : Nat} {ptr : Ptr} (hinfo : l[i]? = some info) :
    SlotsKept (· = i) l (l.set i { info with ptr }) where
  aligned hl := hl.set hinfo rfl
  kept j info' hinfo' _ hne := by
    rw [List.getElem?_set_ne (Ne.symm hne)]
    exact hinfo'

theorem Heap.UnrootsLast.congr (hlast : s.UnrootsLast h) (htarget : s'.target root = s.target root)
    (hmem : s'.mem (s.target root) = s.mem (s.target root)) : s'.UnrootsLast h := by
  rw [Heap.UnrootsLast, htarget, hmem]
  exact hlast

/-- A reference that has just been pushed to the root list is the last Info there. -/
theorem push_unrootsLast {this other : HandleId} {r : Nat × Heap}
    (hlast : s.target this ≠ s.target root → s.UnrootsLast other)
    (h' : s.push this (.heap other) true = .ok r) : r.2.UnrootsLast other := by
  intro info hfind
  rw [(push_steady h').target] at hfind ⊢
  obtain ⟨-, hr⟩ := push_ok h'
  rw [hr] at hfind ⊢
  simp only [Heap.setMem, create_mem] at hfind ⊢
  split at hfind
  · rename_i heq
    rw [if_pos heq]
    rw [List.reverse_concat, List.find?_cons_of_pos (by simp [Info.getHeap])] at hfind
    rw [List.getLast?_concat, hfind]
  · rename_i hne
    rw [if_neg hne]
    exact hlast (Ne.symm hne) info hfind

theorem byRef_slots {this other : HandleId} (hlast : m = s.target root → s.UnrootsLast other)
    (h' : byRef s this other = .ok s') : SlotsKept written (s.mem m).memory (s'.mem m).memory := by
  obtain ⟨r, hpush, h'⟩ := bind_eq_ok h'
  apply (push_slots hpush).trans
  apply unroot_slots _ h'
  intro hroot
  rw [(push_steady hpush).target] at hroot
  exact push_unrootsLast (fun _ => hlast hroot) hpush

theorem setMem_slots {r : MemoryId} {index : Nat} {ptr : Ptr} (hinfo : (s.mem r).memory[index]? = some info) :
    SlotsKept (fun i => r = m ∧ i = index) (s.mem m).memory ((s.setMem r { s.mem r with
      memory := (s.mem r).memory.set index { info with ptr } }).mem m).memory := by
  rw [setMem_mem]
  split
  · rename_i heq
    subst heq
    exact (setPtr_slots hinfo).mono fun i hi => ⟨rfl, hi⟩
  · exact .refl

theorem setMem_stored {r : MemoryId} {index : Nat} {ptr : Ptr} (hinfo : (s.mem r).memory[index]? = some info) :
    ((s.setMem r { s.mem r with
      memory := (s.mem r).memory.set index { info with ptr } }).mem r).memory[index]? =
        some { info with ptr } := by
  rw [setMem_mem_self]
  exact List.getElem?_set_self (List.getElem?_eq_some_iff.mp hinfo).1

/-- `reroot` changes a pointer, and then it pushes a reference and takes another one off the root list. -/
theorem reroot_ok {this other : HandleId} {index : Nat} (hlast : m = s.target root → s.UnrootsLast other)
    (h' : reroot s this index other = .ok s') :
    ∃ info : Info, (s.mem (s.target this)).memory[index]? = some info ∧ info.ptrIsRef = false ∧
      SlotsKept (fun _ => False) (((s.create this).setMem (s.target this) { s.mem (s.target this) with
        memory := (s.mem (s.target this)).memory.set index { info with ptr := .object other } }).mem m).memory
          (s'.mem m).memory := by
  obtain ⟨⟨r, s₁⟩, hget, h'⟩ := bind_eq_ok h'
  obtain ⟨-, heq⟩ := getMemory_ok hget
  cases heq
  dsimp only at h'
  split at h'
  · cases h'
  · rename_i info hinfo
    split at h'
    · cases h'
    · rename_i hvalue
      obtain ⟨r, hpush, hunroot⟩ := bind_eq_ok h'
      refine ⟨info, hinfo, Bool.eq_false_iff.mpr hvalue, (push_slots hpush).trans ?_⟩
      apply unroot_slots _ hunroot
      intro hroot
      rw [(push_steady hpush).target] at hroot
      have htarget : ∀ h, (s.create this).target h = s.target h := Frame.create.target
      apply push_unrootsLast _ hpush
      intro hne
      refine Heap.UnrootsLast.congr (hlast (hroot.trans (htarget root))) ?_ ?_
      · exact htarget root
      · apply setMem_mem_of_ne
        exact fun heq => hne ((htarget this).trans (heq.symm.trans (htarget root).symm))

theorem reroot_slots {this other : HandleId} {index : Nat} (hlast : m = s.target root → s.UnrootsLast other)
    (h' : reroot s this index other = .ok s') :
    SlotsKept (fun i => s.target this = m ∧ i = index) (s.mem m).memory (s'.mem m).memory := by
  obtain ⟨info, hinfo, -, hrest⟩ := reroot_ok hlast h'
  exact (setMem_slots (s := s.create this) hinfo).trans (hrest.mono fun _ => False.elim)

theorem setValueAt_ok {index v : Nat} (h' : setValueAt s h index v = .ok s') :
    ∃ info : Info, (s.mem (s.target h)).memory[index]? = some info ∧ info.ptrIsRef = false ∧
      s' = (s.create h).setMem (s.target h) { s.mem (s.target h) with
        memory := (s.mem (s.target h)).memory.set index { info with ptr := .value v } } := by
  obtain ⟨⟨r, s₁⟩, hget, h'⟩ := bind_eq_ok h'
  obtain ⟨-, heq⟩ := getMemory_ok hget
  cases heq
  dsimp only at h'
  split at h'
  · cases h'
  · rename_i info hinfo
    split at h'
    · cases h'
    · rename_i hvalue
      cases h'
      exact ⟨info, hinfo, Bool.eq_false_iff.mpr hvalue, rfl⟩

theorem setValueAt_slots {index v : Nat} (h' : setValueAt s h index v = .ok s') :
    SlotsKept (fun i => s.target h = m ∧ i = index) (s.mem m).memory (s'.mem m).memory := by
  obtain ⟨info, hinfo, -, rfl⟩ := setValueAt_ok h'
  exact setMem_slots (s := s.create h) hinfo

theorem copyConstruct_slots {other : HandleId} {r : HandleId × Heap} (h' : copyConstruct s other = .ok r) :
    SlotsKept written (s.mem m).memory (r.2.mem m).memory := by
  rw [copyConstruct] at h'
  split at h'
  · cases h'
  · obtain ⟨n, hcopy⟩ := copyHandle_snd (s := s) (x := s.handle other)
    dsimp only at h'
    rw [hcopy] at h'
    obtain ⟨r', hpush, h'⟩ := bind_eq_ok h'
    have hslots : SlotsKept written (s.mem m).memory (r'.2.mem m).memory := push_slots_of_mem hpush rfl
    cases h'
    exact hslots

theorem reassign_slots {this other : HandleId} {r : HandleId × Heap} (h' : reassign s this other = .ok r) :
    SlotsKept written (s.mem m).memory (r.2.mem m).memory := by
  rw [reassign] at h'
  split at h'
  · cases h'
  · obtain ⟨r', hpush, h'⟩ := bind_eq_ok h'
    dsimp only at h'
    split at h'
    · cases h'
    · cases h'
      obtain ⟨n, hcopy⟩ := copyHandle_snd (s := r'.2) (x := r'.2.handle other)
      have hslots : SlotsKept written (s.mem m).memory (r'.2.mem m).memory :=
        push_slots_of_mem hpush rfl
      apply hslots.trans
      rw [hcopy]
      exact .of_eq rfl

theorem getValueAt_memory {index : Nat} {r : Ptr × Heap} (h' : getValueAt s h index = .ok r) :
    (r.2.mem m).memory = (s.mem m).memory := by
  obtain ⟨⟨r, s₁⟩, hget, h'⟩ := bind_eq_ok h'
  obtain ⟨-, heq⟩ := getMemory_ok hget
  cases heq
  dsimp only at h'
  split at h'
  · cases h'
  · cases h'
    rfl

theorem release_memory {r : Bool × Heap} (h' : release deallocLimit s h = .ok r) :
    (r.2.mem m).memory = (s.mem m).memory := by
  obtain ⟨x, hx, hr⟩ := release_ok h'
  rw [hr, setMem_mem]
  split
  · rename_i heq
    rw [heq]
    exact hx
  · rfl

variable {p p' q : Program} {op : Op} {due : Bool}

theorem begin_slots (hlast : m = p.heap.target root → op.UnrootsLast p.heap)
    (h' : p.begin deallocLimit op = .ok (due, q)) :
    SlotsKept (fun i => ∃ ptr, op.stored p m = some (i, ptr)) (p.heap.mem m).memory (q.heap.mem m).memory := by
  cases begins h' with
  | construct hop =>
    obtain ⟨r, hpush, hop⟩ := bind_eq_ok hop
    cases hop
    exact push_slots_of_mem hpush rfl
  | copy hother hop => exact copyConstruct_slots hop
  | assignSelf => exact .refl
  | assign hthis hop hrelease => exact (reassign_slots hop).trans (.of_eq (release_memory hrelease))
  | byRef hother hop => exact byRef_slots hlast hop
  | reroot hother hop =>
    apply (reroot_slots hlast hop).mono
    rintro i ⟨htarget, rfl⟩
    exact ⟨_, if_pos htarget⟩
  | pushValue hop =>
    obtain ⟨r, hpush, hop⟩ := bind_eq_ok hop
    cases hop
    exact push_slots hpush
  | getValueAt hop => exact .of_eq (getValueAt_memory hop)
  | setValueAt hop =>
    apply (setValueAt_slots hop).mono
    rintro i ⟨htarget, rfl⟩
    exact ⟨_, if_pos htarget⟩
  | dealloc hthis hrelease => exact .of_eq (release_memory hrelease)
  | destroy hthis hrelease => exact .of_eq (release_memory hrelease)
  | collect => exact .refl

/-! ### Collections -/

theorem Heap.RefersDead.isRef (hdead : s.RefersDead info) : info.ptrIsRef = true := by
  obtain ⟨h, href, -⟩ := hdead
  rw [← Bool.not_eq_false]
  intro hvalue
  rw [getHeap_value hvalue] at href
  cases href

/-- A live Memory loses its references to dead ones, and nothing else. -/
theorem Gathered.mem_iff (hs : HeapOk s) (hgathered : Gathered s st) (hfirm : s.Firm m)
    (hinfo : info ∈ (s.mem m).memory) : info ∈ (st.heap.mem m).memory ↔ ¬ s.RefersDead info := by
  have hlives := hgathered.firm_lives hfirm
  constructor
  · rintro hmem ⟨h, href, hdead⟩
    exact hgathered.clean _ hdead m (hfirm.reachableOutside _) hlives info hmem h href rfl
  · intro hlive
    refine (hgathered.swept.kept m info hinfo).resolve_right fun hqueued => ?_
    obtain ⟨m', -, horig, -, hreleased⟩ := hgathered.swept.queued info hqueued
    obtain ⟨rfl, -⟩ := hs.info_eq hinfo horig rfl
    rcases hreleased with hfreed | hreleased
    · exact hlives ((hgathered.freed m).mp hfreed)
    · cases href : info.getHeap with
      | none =>
        rw [href] at hreleased
        exact hlives hreleased
      | some h =>
        rw [href] at hreleased
        exact hlive ⟨h, href, (hgathered.freed _).mp hreleased⟩

/-- The Infos that a collection leaves in a live Memory are the first ones exactly when the references to
dead Memories are the last. -/
theorem Gathered.first_iff (hs : HeapOk s) (hgathered : Gathered s st) (hfirm : s.Firm m) :
    (st.heap.mem m).memory <+: (s.mem m).memory ↔ ∀ l₁ info l₂, (s.mem m).memory = l₁ ++ info :: l₂ →
      s.RefersDead info → ∀ info' ∈ l₂, s.RefersDead info' := by
  rw [prefix_iff_of_sublist (hgathered.swept.cell m).sub (hs.nodup m).of_map]
  have hgone : ∀ {info}, info ∈ (s.mem m).memory → (info ∉ (st.heap.mem m).memory ↔ s.RefersDead info) :=
    fun hinfo => by rw [hgathered.mem_iff hs hfirm hinfo, not_not]
  apply forall_congr'
  intro l₁
  apply forall_congr'
  intro info
  apply forall_congr'
  intro l₂
  apply forall_congr'
  intro hl
  apply imp_congr
  · exact hgone (by simp [hl])
  · apply forall_congr'
    intro info'
    apply imp_congr_right
    intro hinfo'
    exact hgone (by simp [hl, hinfo'])

/-- A collection leaves the Infos of a sweep; it returns at once when nothing but the root list is live. -/
theorem collect_cases (hs : HeapOk s) (h' : collect s = .ok s') (hlive : s'.Live m)
    (hlives : ¬ s.DeadFirst m) : (s.mem m).memory = [] ∧ (s'.mem m).memory = [] ∨
      ∃ st, Gathered s st ∧ s.Firm m ∧ (s'.mem m).memory = (st.heap.mem m).memory := by
  obtain ⟨hempty, rfl⟩ | ⟨st, hgather, rfl⟩ := collect_ok h'
  · have hroot : (s.create root).refs ((s.create root).target root) = [] := by
      rw [Frame.create.target, Heap.refs, create_mem, hempty]
      rfl
    have hm : m = s.target root := (eq_root_of_empty hroot hlive.reachable).trans (Frame.create.target root)
    rw [← hm] at hempty
    exact Or.inl ⟨hempty, hempty⟩
  · have hgathered := gather_ok hs hgather
    have hfirm : s.Firm m ∨ s.DeadFirst m := by
      apply Left.firm_of_live hgathered _ hlive
      apply hgathered.left
      rfl
    refine Or.inr ⟨st, hgathered, hfirm.resolve_right hlives, ?_⟩
    rw [setMem_mem]
    split
    · rename_i heq
      rw [heq]
    · rfl

/-- For a live Memory whose indexes are the positions the condition is exact. -/
theorem collect_aligned_iff (hs : HeapOk s) (h' : collect s = .ok s') (hlive : s'.Live m)
    (hlives : ¬ s.DeadFirst m) (haligned : Aligned Info.index (s.mem m).memory) :
    Aligned Info.index (s'.mem m).memory ↔ s.DeadLast m := by
  obtain ⟨hempty, hempty'⟩ | ⟨st, hgathered, hfirm, hmemory⟩ := collect_cases hs h' hlive hlives
  · rw [hempty']
    refine iff_of_true .nil ⟨hlives, fun l₁ info l₂ hl => ?_⟩
    rw [hempty] at hl
    exact absurd hl.symm (by simp)
  · rw [hmemory, haligned.sublist_iff (hgathered.swept.cell m).sub, hgathered.first_iff hs hfirm]
    exact ⟨fun hlast => ⟨hlives, hlast⟩, fun hgood => hgood.last⟩

theorem collect_slots (hs : HeapOk s) (h' : collect s = .ok s') (hlive : s'.Live m) (hgood : s.DeadLast m) :
    SlotsKept written (s.mem m).memory (s'.mem m).memory := by
  obtain ⟨hempty, hempty'⟩ | ⟨st, hgathered, hfirm, hmemory⟩ := collect_cases hs h' hlive hgood.lives
  · exact .of_eq (hempty'.trans hempty.symm)
  · rw [hmemory]
    apply SlotsKept.first ((hgathered.first_iff hs hfirm).mpr hgood.last) _ (hs.nodup m).of_map
    intro info hinfo hgone
    rw [hgathered.mem_iff hs hfirm hinfo, not_not] at hgone
    exact hgone.isRef

/-! ### Runs -/

/-- A step after which the Memory is still live, if there was a collection and the Memory held something.
A collection starts with the references to dead Memories at the end, and only the last Info of the root
list is taken off it. -/
structure SlotStep (deallocLimit : Nat) (m : MemoryId) (p : Program) (op : Op) (p' : Program) : Prop where
  step : p.step deallocLimit op = .ok p'
  live : ∀ q, p.begin deallocLimit op = .ok (true, q) → (q.heap.mem m).memory ≠ [] → p'.heap.Live m
  deadLast : ∀ q, p.begin deallocLimit op = .ok (true, q) → (q.heap.mem m).memory ≠ [] → q.heap.DeadLast m
  unrootsLast : m = p.heap.target root → op.UnrootsLast p.heap

/-- Such a step that stores nothing under the index `k`. -/
def OtherStep (deallocLimit : Nat) (m : MemoryId) (k : Nat) (p : Program) (op : Op) (p' : Program) : Prop :=
  SlotStep deallocLimit m p op p' ∧ ∀ ptr, op.stored p m ≠ some (k, ptr)

theorem collect_empty (hs : HeapOk s) (h' : collect s = .ok s') (hempty : (s.mem m).memory = []) :
    (s'.mem m).memory = [] := by
  obtain ⟨-, rfl⟩ | ⟨st, hgather, rfl⟩ := collect_ok h'
  · exact hempty
  · have hsub := ((gather_ok hs hgather).swept.cell m).sub
    rw [hempty, List.sublist_nil] at hsub
    rw [setMem_mem]
    split
    · rename_i heq
      rw [← hsub, heq]
    · exact hsub

theorem SlotStep.kept (hp : ProgramOk p) (hstep : SlotStep deallocLimit m p op p') : ProgramOk p' ∧
    SlotsKept (fun i => ∃ ptr, op.stored p m = some (i, ptr)) (p.heap.mem m).memory
      (p'.heap.mem m).memory := by
  have hplain : Step deallocLimit (fun _ => True) p op p' := ⟨hstep.step, fun _ _ => trivial⟩
  obtain ⟨due, hbegin⟩ | ⟨q, hbegin, -, hend⟩ := step_ok hplain
  · exact ⟨(begin_ok hp hbegin).ok, begin_slots hstep.unrootsLast hbegin⟩
  · have hq := (begin_ok hp hbegin).ok
    refine ⟨(hq.collect hend).1, (begin_slots hstep.unrootsLast hbegin).trans ?_⟩
    obtain ⟨s', hcollect, hend⟩ := bind_eq_ok hend
    cases hend
    by_cases hempty : (q.heap.mem m).memory = []
    · exact .of_eq ((collect_empty hq.heap hcollect hempty).trans hempty.symm)
    · exact collect_slots hq.heap hcollect (hstep.live q hbegin hempty) (hstep.deadLast q hbegin hempty)

/-- What an operation stores is at the index under which it is stored. -/
theorem stored_ok {k : Nat} {ptr : Ptr} (hlast : m = p.heap.target root → op.UnrootsLast p.heap)
    (hstored : op.stored p m = some (k, ptr)) (h' : p.step deallocLimit op = .ok p') :
    ∃ info, (p'.heap.mem m).memory[k]? = some info ∧ info.ptr = ptr ∧ info.ptrIsRef = false := by
  cases op with
  | pushValue this v =>
    rw [Op.stored] at hstored
    split at hstored
    · rename_i htarget
      cases hstored
      obtain ⟨_, -, h'⟩ := bind_eq_ok h'
      obtain ⟨s, hop, h'⟩ := bind_eq_ok h'
      obtain ⟨r, hpush, hop⟩ := bind_eq_ok hop
      cases hop
      cases h'
      obtain ⟨-, hr⟩ := push_ok hpush
      dsimp only
      rw [hr, ← htarget]
      simp [Heap.setMem]
    · cases hstored
  | setValueAt this index v =>
    rw [Op.stored] at hstored
    split at hstored
    · rename_i htarget
      cases hstored
      obtain ⟨_, -, h'⟩ := bind_eq_ok h'
      obtain ⟨s, hop, h'⟩ := bind_eq_ok h'
      cases h'
      obtain ⟨info, hinfo, hvalue, rfl⟩ := setValueAt_ok hop
      rw [htarget] at hinfo ⊢
      exact ⟨{ info with ptr := .value v }, setMem_stored (s := p.heap.create this) hinfo, rfl, hvalue⟩
    · cases hstored
  | reroot this index other =>
    rw [Op.stored] at hstored
    split at hstored
    · rename_i htarget
      cases hstored
      obtain ⟨_, -, h'⟩ := bind_eq_ok h'
      obtain ⟨_, -, h'⟩ := bind_eq_ok h'
      obtain ⟨s, hop, h'⟩ := bind_eq_ok h'
      cases h'
      obtain ⟨info, hinfo, hvalue, hrest⟩ := reroot_ok hlast hop
      rw [htarget] at hinfo hrest
      have hset : _ = some { info with ptr := .object other } := setMem_stored (s := p.heap.create this) hinfo
      exact ⟨_, hrest.kept k _ hset hvalue id, rfl, hvalue⟩
    · cases hstored
  | _ => cases hstored

/-- The Infos of a Memory have their positions as indexes, and what is stored under an index is found there
until something else is stored under it, in every run whose collections take nothing in front of an Info
that stays. -/
theorem slots_stay_valid {hist : List Op} (hrun : Run (fun _ => SlotStep deallocLimit m) .start hist p) :
    (p.heap.mem m).memory.map Info.index = List.range (p.heap.mem m).memory.length ∧
    ∀ op p₁ k ptr, SlotStep deallocLimit m p op p₁ → op.stored p m = some (k, ptr) →
      ∀ hist q, Run (fun _ => OtherStep deallocLimit m k) p₁ hist q →
      ∃ info, (p₁.heap.mem m).memory[k]? = some info ∧ (q.heap.mem m).memory[k]? = some info ∧
        info.ptr = ptr ∧ info.ptrIsRef = false ∧ ∀ h, q.heap.target h = m → q.heap.check h = .ok () →
          getValueAt q.heap h k = .ok (ptr, q.heap.create h) := by
  have hinv : ProgramOk p ∧ Aligned Info.index (p.heap.mem m).memory := by
    apply Run.invariant (fun _ p => ProgramOk p ∧ Aligned Info.index (p.heap.mem m).memory) hrun
    · exact ⟨⟨start_ok, fun _ hh => by cases hh⟩, .nil⟩
    · intro hist p op p' hp hstep
      obtain ⟨hp', hslots⟩ := hstep.kept hp.1
      exact ⟨hp', hslots.aligned hp.2⟩
  refine ⟨hinv.2, fun op p₁ k ptr hstep hstored hist q hrest => ?_⟩
  obtain ⟨info, hinfo, hptr, hvalue⟩ := stored_ok hstep.unrootsLast hstored hstep.step
  have hkept : ProgramOk q ∧ (q.heap.mem m).memory[k]? = some info := by
    apply Run.invariant (fun _ q => ProgramOk q ∧ (q.heap.mem m).memory[k]? = some info) hrest
    · exact ⟨(hstep.kept hinv.1).1, hinfo⟩
    · intro hist q op q' hq hstep
      obtain ⟨hq', hslots⟩ := hstep.1.kept hq.1
      exact ⟨hq', hslots.kept k info hq.2 hvalue fun ⟨ptr, hptr⟩ => hstep.2 ptr hptr⟩
  refine ⟨info, hinfo, hkept.2, hptr, hvalue, fun h htarget hcheck => ?_⟩
  rw [getValueAt_eq hcheck, htarget, hkept.2, ← hptr]

def Program.stage (hist : List Op) : Program := (Program.after 0 hist).toOption.getD .start

theorem slotStep_of_limit_zero (hop : op ≠ .collect) (hm : m ≠ p.heap.target root)
    (h' : p.step 0 op = .ok p') : SlotStep 0 m p op p' where
  step := h'
  live _ hq := absurd hq (not_due_of_limit_zero hop)
  deadLast _ hq := absurd hq (not_due_of_limit_zero hop)
  unrootsLast heq := absurd heq hm

/-- An object with a value and, behind it, a reference to an object that dies. -/
def lastDropped : Program := .stage [.dealloc 2, .byRef 1 2, .pushValue 1 7, .construct, .construct]

theorem lastDropped_deadLast : lastDropped.heap.DeadLast 1 := by
  constructor
  · intro hdead
    obtain ⟨p, hp, heq, hnull⟩ := deadFirst_of_search rfl hdead
    have hfound : ∀ p ∈ [(2, 2), (1, 1), (0, 0)],
        (lastDropped.heap.handle p.2).deallocated = true → p.1 = 2 := by decide
    rw [hfound p hp hnull] at heq
    cases heq
  · intro l₁ info l₂ hl hdead info' hinfo'
    have hmemory : (lastDropped.heap.mem 1).memory =
        [⟨2, 0, .value 7, false⟩, ⟨3, 1, .heap 2, true⟩] := rfl
    rw [hmemory] at hl
    match l₁, hl with
    | [], hl =>
      cases hl
      cases hdead.isRef
    | [_], hl =>
      cases hl
      cases hinfo'
    | _ :: _ :: l₁, hl => simp at hl

/-- The value stays when the reference behind it goes. -/
theorem slots_stay_valid_lastDropped : ∃ q, lastDropped.step 0 .collect = .ok q ∧
    getValueAt q.heap 1 0 = .ok (.value 7, q.heap.create 1) := by
  have h₁ : SlotStep 0 1 .start .construct (.stage [.construct]) :=
    slotStep_of_limit_zero (by decide) (by decide) rfl
  have h₂ : SlotStep 0 1 (.stage [.construct]) .construct (.stage [.construct, .construct]) :=
    slotStep_of_limit_zero (by decide) (by decide) rfl
  have h₃ : SlotStep 0 1 (.stage [.construct, .construct]) (.pushValue 1 7)
      (.stage [.pushValue 1 7, .construct, .construct]) :=
    slotStep_of_limit_zero (by decide) (by decide) rfl
  have h₄ : SlotStep 0 1 (.stage [.pushValue 1 7, .construct, .construct]) (.byRef 1 2)
      (.stage [.byRef 1 2, .pushValue 1 7, .construct, .construct]) :=
    slotStep_of_limit_zero (by decide) (by decide) rfl
  have h₅ : SlotStep 0 1 (.stage [.byRef 1 2, .pushValue 1 7, .construct, .construct]) (.dealloc 2)
      lastDropped := slotStep_of_limit_zero (by decide) (by decide) rfl
  obtain ⟨q, hstep, hlive, hcheck, htarget⟩ : ∃ q, lastDropped.step 0 .collect = .ok q ∧ q.heap.Live 1 ∧
      q.heap.check 1 = .ok () ∧ q.heap.target 1 = 1 :=
    ⟨_, rfl, .single ⟨1, by decide, rfl, rfl⟩, rfl, rfl⟩
  have h₆ : SlotStep 0 1 lastDropped .collect q := by
    refine ⟨hstep, fun _ _ _ => hlive, fun q' hq _ => ?_, fun heq => absurd heq (by decide)⟩
    cases hq
    exact lastDropped_deadLast
  have hrest : Run (fun _ => OtherStep 0 1 0) _ _ q :=
    ((Run.start.next ⟨h₄, fun _ => nofun⟩).next ⟨h₅, fun _ => nofun⟩).next ⟨h₆, fun _ => nofun⟩
  obtain ⟨info, -, -, -, -, hget⟩ := (slots_stay_valid ((Run.start.next h₁).next h₂)).2 _ _ 0 (.value 7) h₃ rfl
    _ q hrest
  exact ⟨q, hstep, hget 1 htarget hcheck⟩

/-- A reference to an object that dies is followed by a value. -/
def lastPushed : List Op := [.collect, .dealloc 2, .pushValue 1 7, .byRef 1 2, .construct, .construct]

/-- The value is no longer at its index, and the next value gets the same index. -/
theorem slots_shift : ∃ p q, ProgramRun 10 (fun _ => True) lastPushed p ∧ p.heap.Live 1 ∧
    getValueAt p.heap 1 1 = .error .outOfRange ∧ p.step 10 (.pushValue 1 8) = .ok q ∧
    (q.heap.mem 1).memory.map Info.index = [1, 1] := by
  refine ⟨_, _, run_of_after rfl, .single ⟨1, by decide, rfl, rfl⟩, rfl, rfl, rfl⟩

end ManagedObject.Collector
