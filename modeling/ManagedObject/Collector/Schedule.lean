import ManagedObject.Collector.Exact

/-!
# When collections come

The counter of `dealloc` counts the scopes that have ended since the last collection, and a collection comes when
it reaches its limit. Where every object has one owner, it is the number of the objects that wait for the next
collection, so these are always fewer than the limit.
-/

namespace ManagedObject.Collector

open Lib

variable {s s' : Heap} {h this : HandleId} {deallocLimit : Nat} {p p' q : Program} {op : Op} {due : Bool}
  {hist : List Op}

/-- The objects that wait for a collection. -/
def Heap.floating (s : Heap) : List HandleId :=
  (List.range s.nextHandle).filter fun h => h ≠ root ∧ (s.handle h).deallocated ∧ !s.isDestroyed h

theorem mem_floating : h ∈ s.floating ↔ s.Floating h := by
  rw [Heap.floating, List.mem_filter, List.mem_range, decide_eq_true_iff]
  rw [Bool.not_eq_true', ← Bool.not_eq_true, isDestroyed_iff]
  exact ⟨fun ⟨hless, hne, hdead, hpresent⟩ => ⟨⟨hne, hless⟩, hpresent, hdead⟩,
    fun hh => ⟨hh.known.2, hh.known.1, hh.dead, hh.present⟩⟩

theorem floating_nodup : s.floating.Nodup := List.nodup_range.filter _

/-- Every handle is that of the root list, or of a variable in scope, or destroyed, or waits. -/
theorem Program.Tidy.perm_range (hp : p.Tidy) :
    (root :: (p.scope ++ (p.heap.destroyedHandles ++ p.heap.floating))).Perm (List.range p.heap.nextHandle) := by
  have hs := hp.owned
  have hdead : ∀ h ∈ p.scope, (p.heap.handle h).deallocated = false := fun h hh => ((hp.scope h).mp hh).live
  refine (List.perm_ext_iff_of_nodup ?_ List.nodup_range).mpr fun h => ?_
  · rw [List.nodup_cons, List.nodup_append, List.nodup_append]
    refine ⟨fun hmem => ?_, hp.nodup, ⟨hs.once, floating_nodup, ?_⟩, ?_⟩
    · rcases List.mem_append.mp hmem with hh | hh
      · exact ((hp.scope root).mp hh).known.1 rfl
      · rcases List.mem_append.mp hh with hh | hh
        · exact (hs.ok.oldHandle root hh).1 rfl
        · exact (mem_floating.mp hh).known.1 rfl
    · rintro h hh h' hh' rfl
      exact (mem_floating.mp hh').present hh
    · rintro h hh h' hh' rfl
      have hlive := hdead h hh
      rcases List.mem_append.mp hh' with hh' | hh'
      · rw [hs.dead h hh'] at hlive
        cases hlive
      · rw [(mem_floating.mp hh').dead] at hlive
        cases hlive
  · rw [List.mem_cons, List.mem_append, List.mem_append, List.mem_range, mem_floating, hp.scope]
    constructor
    · rintro (rfl | hh | hh | hh)
      · exact hs.ok.rootKnown
      · exact hh.known.2
      · exact (hs.ok.oldHandle h hh).2
      · exact hh.known.2
    · intro hless
      by_cases hroot : h = root
      · exact .inl hroot
      · cases hlive : (p.heap.handle h).deallocated with
        | false => exact .inr (.inl ⟨⟨hroot, hless⟩, hlive⟩)
        | true =>
          by_cases hpresent : h ∈ p.heap.destroyedHandles
          · exact .inr (.inr (.inl hpresent))
          · exact .inr (.inr (.inr ⟨⟨hroot, hless⟩, hpresent, hlive⟩))

theorem Program.Tidy.length_eq (hp : p.Tidy) :
    p.scope.length + (p.heap.destroyedHandles.length + p.heap.floating.length) + 1 = p.heap.nextHandle := by
  have hlength := hp.perm_range.length_eq
  rwa [List.length_range, List.length_cons, List.length_append, List.length_append] at hlength

/-- The counter is the number of the objects that wait, and has not reached the limit. -/
structure Counted (deallocLimit : Nat) (p : Program) : Prop where
  deallocCount : p.heap.floating.length = p.heap.deallocCount
  below : p.heap.deallocCount < deallocLimit

theorem Advances.floating (hp : p.Tidy) (hq : q.Tidy) (h : Advances deallocLimit p op due q)
    (hcounted : Counted deallocLimit p) (hbyte : deallocLimit < 256) :
    q.heap.floating.length = q.heap.deallocCount ∧ (due = false → q.heap.deallocCount < deallocLimit) := by
  have hbefore := hp.length_eq
  have hafter := hq.length_eq
  obtain ⟨hcount, hbelow⟩ := hcounted
  cases h with
  | makes hmade hscope =>
    have hlength := congrArg List.length hscope
    have hnext : q.heap.nextHandle = p.heap.nextHandle + 1 := hmade.same.nextHandle
    have hdestroyed : q.heap.destroyedHandles = p.heap.destroyedHandles := hmade.same.destroyedHandles
    have hcount' : q.heap.deallocCount = p.heap.deallocCount := by
      refine hmade.same.deallocCount.trans ?_
      rw [Heap.deallocCount, made_target_of_lt hp.owned.ok.rootKnown]
      rfl
    rw [List.length_cons] at hlength
    rw [hdestroyed, hnext] at hafter
    rw [hcount']
    omega
  | uses hop hsame hscope =>
    have hlength := congrArg List.length hscope
    rw [hsame.destroyedHandles, hsame.nextHandle] at hafter
    rw [hsame.deallocCount]
    omega
  | ends hthis hended hscope =>
    have hlength := congrArg List.length hscope
    rw [List.length_erase_of_mem hthis] at hlength
    have hpos := List.length_pos_of_mem hthis
    have hdestroyed : q.heap.destroyedHandles = p.heap.destroyedHandles := by
      rw [Heap.destroyedHandles, hended.destroyed, Heap.destroyedHandles]
    rw [hdestroyed, hended.nextHandle] at hafter
    have hcount' := hended.deallocCount
    rw [Nat.mod_eq_of_lt (by omega)] at hcount'
    refine ⟨by omega, fun hquiet => ?_⟩
    simp only [Bool.and_eq_false_iff, decide_eq_false_iff_not] at hquiet
    omega
  | collects => exact ⟨hcount, fun hfalse => by cases hfalse⟩

theorem Cleaned.floating (hcleaned : Cleaned s p.heap) : p.heap.floating = [] := by
  rw [List.eq_nil_iff_forall_not_mem]
  intro h hh
  have hfloating := mem_floating.mp hh
  refine hfloating.present ((hcleaned.destroyed h).mpr ⟨⟨hfloating.known.1, ?_⟩, ?_⟩)
  · exact hcleaned.nextHandle ▸ hfloating.known.2
  · exact (hcleaned.deallocated h).symm.trans hfloating.dead

theorem Counted.step (hp : p.Tidy) (hcounted : Counted deallocLimit p) (hbyte : deallocLimit < 256)
    (hlimit : 0 < deallocLimit) (h : Steps deallocLimit p op p') : Counted deallocLimit p' := by
  cases h with
  | quiet hq hadvances =>
    obtain ⟨hcount, hbelow⟩ := hadvances.floating hp hq hcounted hbyte
    exact ⟨hcount, hbelow rfl⟩
  | @collects q p' hq hadvances hcleaned hscope =>
    obtain ⟨hcount, -⟩ := hadvances.floating hp hq hcounted hbyte
    have hzero : p'.heap.deallocCount = 0 := by
      rcases hcleaned.deallocCount with hzero | ⟨hsame, hnone⟩
      · exact hzero
      · have hempty : q.heap.floating = [] :=
          List.eq_nil_iff_forall_not_mem.mpr fun h hh => hnone h (mem_floating.mp hh)
        rw [hsame, ← hcount, hempty]
        rfl
    rw [← hzero] at hlimit
    exact ⟨by rw [hcleaned.floating, hzero]; rfl, hlimit⟩

end ManagedObject.Collector
