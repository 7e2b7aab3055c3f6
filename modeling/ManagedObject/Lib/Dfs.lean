import Mathlib.Data.List.Nodup
import Mathlib.Logic.Relation
import ManagedObject.Lib.Outcome

/-!
# Depth-first search with discovering edges

A depth-first search over a graph whose nodes have lists of outgoing edges. The result records, for
each node that is found, the edge through which it was found first. Every edge is checked before it
is followed, and the search stops at an edge that fails the check or when it runs into a bound on its
depth; a bound above the number of nodes is never reached.
-/

namespace ManagedObject.Dfs

open Outcome

variable {ν ε φ : Type} [DecidableEq ν] (tgt : ε → ν) (succ : ν → List ε)
  (check : ε → Except φ Unit) (tooDeep : φ)

/-- The nodes that have been found, the newest first. -/
def nodes (acc : List (ν × ε)) : List ν := acc.map Prod.fst

def visit : Nat → List (ν × ε) → ε → Except φ (List (ν × ε))
  | 0, _, _ => .error tooDeep
  | depth + 1, acc, e => do
    check e
    if tgt e ∈ nodes acc then return acc
    (succ (tgt e)).foldlM (visit depth) ((tgt e, e) :: acc)

/-- The edge through which a node was found. -/
def discovery (acc : List (ν × ε)) (n : ν) : Option ε := (acc.find? fun p => p.1 = n).map Prod.snd

def Edge (a b : ν) : Prop := ∃ e ∈ succ a, tgt e = b

variable {tgt succ check tooDeep} {depth : Nat} {acc acc' : List (ν × ε)} {e : ε} {n : ν}

theorem discovery_cons_self : discovery ((n, e) :: acc) n = some e := by
  simp [discovery]

theorem discovery_cons_of_ne {n' : ν} (h : n' ≠ n) : discovery ((n, e) :: acc) n' = discovery acc n' := by
  simp [discovery, Ne.symm h]

theorem discovery_isSome : (discovery acc n).isSome ↔ n ∈ nodes acc := by
  rw [discovery, Option.isSome_map, List.find?_isSome, nodes, List.mem_map]
  simp

theorem mem_of_discovery (h : discovery acc n = some e) : (n, e) ∈ acc := by
  rw [discovery, Option.map_eq_some_iff] at h
  obtain ⟨p, hp, rfl⟩ := h
  have hn : p.1 = n := by simpa using List.find?_some hp
  exact hn ▸ List.mem_of_find?_eq_some hp

/-- A visit checks the edge, and then finds its target or knows it already. -/
theorem visit_cases (h : visit tgt succ check tooDeep (depth + 1) acc e = .ok acc') :
    check e = .ok () ∧ ((tgt e ∈ nodes acc ∧ acc' = acc) ∨ (tgt e ∉ nodes acc ∧
      (succ (tgt e)).foldlM (visit tgt succ check tooDeep depth) ((tgt e, e) :: acc) = .ok acc')) := by
  rw [visit] at h
  obtain ⟨⟨⟩, hcheck, h⟩ := bind_eq_ok h
  refine ⟨hcheck, ?_⟩
  split at h
  · rename_i hmem
    cases h
    exact Or.inl ⟨hmem, rfl⟩
  · rename_i hnew
    exact Or.inr ⟨hnew, h⟩

theorem visit_suffix : ∀ {depth acc acc' e}, visit tgt succ check tooDeep depth acc e = .ok acc' →
    acc <:+ acc' := by
  intro depth
  induction depth with
  | zero =>
    intro acc acc' e h
    cases h
  | succ depth ih =>
    intro acc acc' e h
    obtain ⟨-, ⟨-, rfl⟩ | ⟨-, h⟩⟩ := visit_cases h
    · exact List.suffix_rfl
    · refine (List.suffix_cons (tgt e, e) acc).trans ?_
      exact foldlM_rule (fun acc' => (tgt e, e) :: acc <:+ acc')
        (fun _ _ _ _ hsuffix hvisit => hsuffix.trans (ih hvisit)) List.suffix_rfl h

theorem foldlM_suffix {es : List ε}
    (h : es.foldlM (visit tgt succ check tooDeep depth) acc = .ok acc') : acc <:+ acc' :=
  foldlM_rule (fun acc' => acc <:+ acc')
    (fun _ _ _ _ hsuffix hvisit => hsuffix.trans (visit_suffix hvisit)) List.suffix_rfl h

omit [DecidableEq ν] in
theorem nodes_subset (h : acc <:+ acc') : nodes acc ⊆ nodes acc' := by
  intro n hn
  obtain ⟨p, hp, rfl⟩ := List.mem_map.mp hn
  exact List.mem_map_of_mem (h.subset hp)

/-- The visited edge has passed the check, and its target has been found. -/
theorem mem_visit (h : visit tgt succ check tooDeep depth acc e = .ok acc') :
    check e = .ok () ∧ tgt e ∈ nodes acc' := by
  cases depth with
  | zero => cases h
  | succ depth =>
    obtain ⟨hcheck, ⟨hmem, rfl⟩ | ⟨-, h⟩⟩ := visit_cases h
    · exact ⟨hcheck, hmem⟩
    · exact ⟨hcheck, nodes_subset (foldlM_suffix h) List.mem_cons_self⟩

theorem mem_foldlM {es : List ε} (he : e ∈ es) : ∀ {acc acc'},
    es.foldlM (visit tgt succ check tooDeep depth) acc = .ok acc' →
      check e = .ok () ∧ tgt e ∈ nodes acc' := by
  induction es with
  | nil => cases he
  | cons e' es ih =>
    intro acc acc' h
    obtain ⟨mid, hmid, hrest⟩ := bind_eq_ok h
    rcases List.mem_cons.mp he with rfl | he
    · exact ⟨(mem_visit hmid).1, nodes_subset (foldlM_suffix hrest) (mem_visit hmid).2⟩
    · exact ih he hrest

/-- No node is found twice, and each is the target of its edge. -/
structure Sound (tgt : ε → ν) (acc : List (ν × ε)) : Prop where
  nodup : (nodes acc).Nodup
  tgt : ∀ p ∈ acc, tgt p.2 = p.1

theorem visit_sound : ∀ {depth acc acc' e}, Sound tgt acc →
    visit tgt succ check tooDeep depth acc e = .ok acc' → Sound tgt acc' := by
  intro depth
  induction depth with
  | zero =>
    intro acc acc' e _ h
    cases h
  | succ depth ih =>
    intro acc acc' e hsound h
    obtain ⟨-, ⟨-, rfl⟩ | ⟨hnew, h⟩⟩ := visit_cases h
    · exact hsound
    · refine foldlM_rule (Sound tgt) (fun _ _ _ _ => ih) ?_ h
      refine ⟨List.nodup_cons.mpr ⟨hnew, hsound.nodup⟩, fun p hp => ?_⟩
      rcases List.mem_cons.mp hp with rfl | hp
      · rfl
      · exact hsound.tgt p hp

omit [DecidableEq ν] in
theorem Sound.nil : Sound tgt ([] : List (ν × ε)) where
  nodup := List.nodup_nil
  tgt p hp := by cases hp

theorem discovery_of_mem (hsound : Sound tgt acc) (hp : (n, e) ∈ acc) :
    discovery acc n = some e := by
  induction acc with
  | nil => cases hp
  | cons p acc ih =>
    obtain ⟨n', e'⟩ := p
    obtain ⟨hnew, hnodup⟩ := List.nodup_cons.mp hsound.nodup
    rcases List.mem_cons.mp hp with heq | hp
    · cases heq
      exact discovery_cons_self
    · have hne : n ≠ n' := fun heq => hnew (List.mem_map.mpr ⟨(n, e), hp, heq⟩)
      rw [discovery_cons_of_ne hne]
      exact ih ⟨hnodup, fun p hp => hsound.tgt p (List.mem_cons_of_mem _ hp)⟩ hp

/-- What is found is reachable. -/
theorem visit_reach {start : ν} : ∀ {depth acc acc' e},
    (∀ n ∈ nodes acc, Relation.ReflTransGen (Edge tgt succ) start n) →
      Relation.ReflTransGen (Edge tgt succ) start (tgt e) →
        visit tgt succ check tooDeep depth acc e = .ok acc' →
          ∀ n ∈ nodes acc', Relation.ReflTransGen (Edge tgt succ) start n := by
  intro depth
  induction depth with
  | zero =>
    intro acc acc' e _ _ h
    cases h
  | succ depth ih =>
    intro acc acc' e hacc he h
    obtain ⟨-, ⟨-, rfl⟩ | ⟨-, h⟩⟩ := visit_cases h
    · exact hacc
    · refine foldlM_rule (fun acc => ∀ n ∈ nodes acc,
        Relation.ReflTransGen (Edge tgt succ) start n) ?_ ?_ h
      · intro acc₁ acc₂ e' he' hacc₁ hvisit
        exact ih hacc₁ (he.tail ⟨e', he', rfl⟩) hvisit
      · intro n hn
        rcases List.mem_cons.mp hn with rfl | hn
        · exact he
        · exact hacc n hn

/-- Nodes are found through edges that the search follows. -/
theorem visit_follows {follows : ε → Prop} (hfollows : ∀ e, follows e → ∀ e' ∈ succ (tgt e), follows e') :
    ∀ {depth acc acc' e}, (∀ p ∈ acc, follows p.2) → follows e →
      visit tgt succ check tooDeep depth acc e = .ok acc' → ∀ p ∈ acc', follows p.2 := by
  intro depth
  induction depth with
  | zero =>
    intro acc acc' e _ _ h
    cases h
  | succ depth ih =>
    intro acc acc' e hacc he h
    obtain ⟨-, ⟨-, rfl⟩ | ⟨-, h⟩⟩ := visit_cases h
    · exact hacc
    · refine foldlM_rule (fun acc => ∀ p ∈ acc, follows p.2) ?_ ?_ h
      · exact fun acc₁ acc₂ e' he' hacc₁ hvisit => ih hacc₁ (hfollows e he e' he') hvisit
      · intro p hp
        rcases List.mem_cons.mp hp with rfl | hp
        · exact he
        · exact hacc p hp

/-- The edges of a found node have passed the check and their targets are found, unless the node is
still open. -/
def Closed (tgt : ε → ν) (succ : ν → List ε) (check : ε → Except φ Unit) (isOpen : ν → Prop)
    (acc : List (ν × ε)) : Prop :=
  ∀ n ∈ nodes acc, isOpen n ∨ ∀ e ∈ succ n, check e = .ok () ∧ tgt e ∈ nodes acc

theorem visit_closed : ∀ {depth acc acc' e} {isOpen : ν → Prop}, Closed tgt succ check isOpen acc →
    visit tgt succ check tooDeep depth acc e = .ok acc' → Closed tgt succ check isOpen acc' := by
  intro depth
  induction depth with
  | zero =>
    intro acc acc' e isOpen _ h
    cases h
  | succ depth ih =>
    intro acc acc' e isOpen hclosed h
    obtain ⟨-, ⟨-, rfl⟩ | ⟨-, h⟩⟩ := visit_cases h
    · exact hclosed
    · -- while its edges are visited, the new node is open as well
      have hmore : Closed tgt succ check (fun n => n = tgt e ∨ isOpen n) acc' := by
        refine foldlM_rule (Closed tgt succ check fun n => n = tgt e ∨ isOpen n)
          (fun _ _ _ _ => ih) ?_ h
        intro n hn
        rcases List.mem_cons.mp hn with rfl | hn
        · exact Or.inl (Or.inl rfl)
        · rcases hclosed n hn with hopen | hdone
          · exact Or.inl (Or.inr hopen)
          · exact Or.inr fun e' he' => ⟨(hdone e' he').1, List.mem_cons_of_mem _ (hdone e' he').2⟩
      intro n hn
      rcases hmore n hn with (rfl | hopen) | hdone
      · exact Or.inr fun e' he' => mem_foldlM he' h
      · exact Or.inl hopen
      · exact Or.inr hdone

/-! ### The bound on the depth -/

/-- How many of the nodes are left to be found. -/
def left (all found : List ν) : Nat := all.countP fun n => n ∉ found

theorem left_mono {all found found' : List ν} (h : found ⊆ found') : left all found' ≤ left all found := by
  refine List.countP_mono_left fun n _ hn => ?_
  rw [decide_eq_true_eq] at hn ⊢
  exact fun hmem => hn (h hmem)

theorem left_cons {all found : List ν} (hn : n ∈ all) (hnew : n ∉ found) :
    left all (n :: found) < left all found := by
  induction all with
  | nil => cases hn
  | cons n' all ih =>
    have htail : left all (n :: found) ≤ left all found := left_mono (List.subset_cons_self _ _)
    simp only [left, List.countP_cons, List.mem_cons] at ih htail ⊢
    rcases List.mem_cons.mp hn with rfl | hn
    · simp only [hnew, true_or, not_true_eq_false, decide_false, not_false_eq_true, decide_true,
        Bool.false_eq_true, if_false, if_true]
      omega
    · have hless := ih hn
      by_cases heq : n' = n
      · subst heq
        simp only [hnew, true_or, not_true_eq_false, decide_false, not_false_eq_true, decide_true,
          Bool.false_eq_true, if_false, if_true]
        omega
      · simp only [heq, false_or]
        omega

/-- A search whose depth bound exceeds the number of nodes left does not reach it. -/
theorem visit_not_tooDeep {all : List ν} (hcheck : ∀ e, check e ≠ .error tooDeep)
    (hall : ∀ n ∈ all, ∀ e ∈ succ n, tgt e ∈ all) :
    ∀ {depth acc e}, tgt e ∈ all → left all (nodes acc) < depth →
      visit tgt succ check tooDeep depth acc e ≠ .error tooDeep := by
  intro depth
  induction depth with
  | zero =>
    intro acc e _ h
    omega
  | succ depth ih =>
    intro acc e he hdepth herror
    rw [visit] at herror
    cases hc : check e with
    | error f =>
      rw [hc] at herror
      cases herror
      exact hcheck e hc
    | ok _ =>
      simp only [hc, bind, Except.bind] at herror
      split at herror
      · cases herror
      · rename_i hnew
        have hless : left all (nodes ((tgt e, e) :: acc)) < depth := by
          have hcons : left all (tgt e :: nodes acc) < left all (nodes acc) := left_cons he hnew
          exact Nat.lt_of_lt_of_le hcons (Nat.le_of_lt_succ hdepth)
        have hfold : ∀ (es : List ε) acc, (∀ e' ∈ es, tgt e' ∈ all) → left all (nodes acc) < depth →
            es.foldlM (visit tgt succ check tooDeep depth) acc ≠ .error tooDeep := by
          intro es
          induction es with
          | nil => exact fun _ _ _ => nofun
          | cons e' es ih' =>
            intro acc hes hacc herror
            rw [List.foldlM_cons] at herror
            cases hmid : visit tgt succ check tooDeep depth acc e' with
            | error f =>
              rw [hmid] at herror
              cases herror
              exact ih (hes e' List.mem_cons_self) hacc hmid
            | ok mid =>
              rw [hmid] at herror
              have hmono : left all (nodes mid) ≤ left all (nodes acc) :=
                left_mono (nodes_subset (visit_suffix hmid))
              exact ih' mid (fun e'' he'' => hes e'' (List.mem_cons_of_mem _ he'')) (by omega) herror
        exact hfold _ _ (fun e' he' => hall _ he e' he') hless herror

/-- What stops a search is a failed check of an edge that it follows, or its depth bound. -/
theorem visit_meets {follows : ε → Prop} (hfollows : ∀ e, follows e → ∀ e' ∈ succ (tgt e), follows e') :
    ∀ {depth acc e}, follows e → Meets (visit tgt succ check tooDeep depth acc e)
      (fun f => f = tooDeep ∨ ∃ e', follows e' ∧ check e' = .error f) fun _ => True := by
  intro depth
  induction depth with
  | zero => exact fun _ => Or.inl rfl
  | succ depth ih =>
    intro acc e he
    rw [visit]
    cases hcheck : check e with
    | error f => exact Or.inr ⟨e, he, hcheck⟩
    | ok _ =>
      dsimp only [bind, Except.bind]
      split
      · exact trivial
      · exact Meets.foldlM trivial fun e' he' _ _ => ih (hfollows e he e' he')

/-! ### The path of a node

A search that does not check its edges and records, for each node, the nodes that were open when it was
found. -/

section Trail

variable (tgt succ) in
/-- `path` holds the open nodes, the innermost first. -/
def trail : Nat → List ν → List (ν × List ν) → ε → List (ν × List ν)
  | 0, _, acc, _ => acc
  | depth + 1, path, acc, e =>
    if tgt e ∈ nodes acc then acc
    else (succ (tgt e)).foldl (trail depth (tgt e :: path)) ((tgt e, path) :: acc)

variable {path : List ν} {acc : List (ν × List ν)} {es : List ε}

theorem trail_of_mem (h : tgt e ∈ nodes acc) : trail tgt succ depth path acc e = acc := by
  cases depth with
  | zero => rfl
  | succ depth => rw [trail, if_pos h]

theorem trail_succ (h : tgt e ∉ nodes acc) : trail tgt succ (depth + 1) path acc e =
    (succ (tgt e)).foldl (trail tgt succ depth (tgt e :: path)) ((tgt e, path) :: acc) := by
  rw [trail, if_neg h]

omit [DecidableEq ν] in
theorem foldl_suffix {f : List (ν × List ν) → ε → List (ν × List ν)} (hf : ∀ acc e, acc <:+ f acc e) :
    ∀ acc, acc <:+ es.foldl f acc := by
  induction es with
  | nil => exact fun _ => List.suffix_rfl
  | cons e es ih => exact fun acc => (hf acc e).trans (ih _)

theorem trail_suffix : ∀ {depth path} acc e, acc <:+ trail tgt succ depth path acc e := by
  intro depth
  induction depth with
  | zero => exact fun _ _ => List.suffix_rfl
  | succ depth ih =>
    intro path acc e
    rw [trail]
    split
    · exact List.suffix_rfl
    · exact (List.suffix_cons _ _).trans (foldl_suffix ih _)

/-- A node is found once it has been visited. -/
theorem mem_trail : tgt e ∈ nodes (trail tgt succ (depth + 1) path acc e) := by
  by_cases h : tgt e ∈ nodes acc
  · rwa [trail_of_mem h]
  · rw [trail_succ h]
    exact nodes_subset (foldl_suffix trail_suffix _) List.mem_cons_self

theorem mem_foldl_trail {e : ε} (he : e ∈ es) : ∀ {acc},
    tgt e ∈ nodes (es.foldl (trail tgt succ (depth + 1) path) acc) := by
  induction es with
  | nil => cases he
  | cons e' es ih =>
    intro acc
    rw [List.foldl_cons]
    rcases List.mem_cons.mp he with rfl | he
    · exact nodes_subset (foldl_suffix trail_suffix _) mem_trail
    · exact ih he

theorem foldl_trail_of_mem (h : ∀ e ∈ es, tgt e ∈ nodes acc) :
    es.foldl (trail tgt succ depth path) acc = acc := by
  induction es with
  | nil => rfl
  | cons e es ih =>
    rw [List.foldl_cons, trail_of_mem (h e List.mem_cons_self)]
    exact ih fun e' he' => h e' (List.mem_cons_of_mem _ he')

theorem path_mem_trail (h : tgt e ∉ nodes acc) :
    (tgt e, path) ∈ trail tgt succ (depth + 1) path acc e := by
  rw [trail_succ h]
  exact (foldl_suffix trail_suffix _).subset List.mem_cons_self

/-- The nodes on a path lead to its node. -/
theorem trail_leads : ∀ {depth path acc e},
    (∀ p ∈ acc, ∀ n ∈ p.2, Relation.TransGen (Edge tgt succ) n p.1) →
      (∀ n ∈ path, Relation.TransGen (Edge tgt succ) n (tgt e)) →
        ∀ p ∈ trail tgt succ depth path acc e, ∀ n ∈ p.2, Relation.TransGen (Edge tgt succ) n p.1 := by
  intro depth
  induction depth with
  | zero => exact fun hacc _ => hacc
  | succ depth ih =>
    intro path acc e hacc hpath
    rw [trail]
    split
    · exact hacc
    · have hstart : ∀ p ∈ (tgt e, path) :: acc, ∀ n ∈ p.2, Relation.TransGen (Edge tgt succ) n p.1 := by
        intro p hp
        rcases List.mem_cons.mp hp with rfl | hp
        · exact hpath
        · exact hacc p hp
      have hfold : ∀ es : List ε, (∀ e' ∈ es, e' ∈ succ (tgt e)) → ∀ acc : List (ν × List ν),
          (∀ p ∈ acc, ∀ n ∈ p.2, Relation.TransGen (Edge tgt succ) n p.1) →
            ∀ p ∈ es.foldl (trail tgt succ depth (tgt e :: path)) acc, ∀ n ∈ p.2,
              Relation.TransGen (Edge tgt succ) n p.1 := by
        intro es
        induction es with
        | nil => exact fun _ _ hacc => hacc
        | cons e' es ih' =>
          intro hes acc hacc
          have hedge : Edge tgt succ (tgt e) (tgt e') := ⟨e', hes e' List.mem_cons_self, rfl⟩
          refine ih' (fun e'' he'' => hes e'' (List.mem_cons_of_mem _ he'')) _ (ih hacc fun n hn => ?_)
          rcases List.mem_cons.mp hn with rfl | hn
          · exact .single hedge
          · exact (hpath n hn).tail hedge
      exact hfold _ (fun _ he' => he') _ hstart

end Trail

end ManagedObject.Dfs
