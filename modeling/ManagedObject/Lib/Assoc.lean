import Mathlib.Data.List.Perm.Basic

/-!
# Finite maps up to a comparison

A finite map as the list of its entries, where keys are compared by a Boolean function rather than
by equality. Entries under different keys are never the same for the comparison, so the order of
the list does not matter, and the length of the list is the number of keys of the map.
-/

namespace ManagedObject.Assoc

variable {κ ν : Type}

/-- Keys are compared by an equivalence. -/
structure Comparison (same : κ → κ → Bool) : Prop where
  refl : ∀ a, same a a = true
  symm : ∀ a b, same a b = true → same b a = true
  trans : ∀ a b c, same a b = true → same b c = true → same a c = true

def Distinct (same : κ → κ → Bool) (es : List (κ × ν)) : Prop :=
  es.Pairwise fun p q => same p.1 q.1 = false

def get (same : κ → κ → Bool) (es : List (κ × ν)) (key : κ) : Option ν :=
  (es.find? fun p => same p.1 key).map Prod.snd

variable {same : κ → κ → Bool} {es es' : List (κ × ν)} {key key' : κ} {v : ν} {p : κ × ν}

theorem Comparison.comm (h : Comparison same) (a b : κ) : same a b = same b a := by
  cases hab : same a b with
  | true => exact (h.symm a b hab).symm
  | false =>
    cases hba : same b a with
    | true => rw [h.symm b a hba] at hab; cases hab
    | false => rfl

theorem Comparison.congr (h : Comparison same) {a b : κ} (hab : same a b = true) (c : κ) :
    same a c = same b c := by
  cases hbc : same b c with
  | true => exact h.trans a b c hab hbc
  | false =>
    cases hac : same a c with
    | true => rw [h.trans b a c (h.symm a b hab) hac] at hbc; cases hbc
    | false => rfl

/-- Lists that hold the same keys, each once. -/
theorem Comparison.map_perm {β : Type} (h : Comparison same) {g : κ → β} (hg : ∀ a b, same a b = true → g a = g b)
    {l l' : List κ} (hd : l.Pairwise fun a b => same a b = false) (hd' : l'.Pairwise fun a b => same a b = false)
    (hsub : ∀ a ∈ l, ∃ b ∈ l', same a b = true) (hsub' : ∀ b ∈ l', ∃ a ∈ l, same a b = true) :
    (l.map g).Perm (l'.map g) := by
  induction l generalizing l' with
  | nil =>
    cases l' with
    | nil => exact .refl _
    | cons b l' =>
      obtain ⟨a, ha, -⟩ := hsub' b List.mem_cons_self
      cases ha
  | cons a l ih =>
    obtain ⟨b, hb, hab⟩ := hsub a List.mem_cons_self
    obtain ⟨l₁, l₂, rfl⟩ := List.append_of_mem hb
    have hmiddle : (l₁ ++ b :: l₂).Perm (b :: (l₁ ++ l₂)) := List.perm_middle
    obtain ⟨hfirst, hd⟩ := List.pairwise_cons.mp hd
    obtain ⟨hfirst', hd'⟩ := List.pairwise_cons.mp (hmiddle.pairwise hd' fun {x y} hxy => by rwa [h.comm])
    have hrest : (l.map g).Perm ((l₁ ++ l₂).map g) := by
      refine ih hd hd' (fun x hx => ?_) fun y hy => ?_
      · obtain ⟨y, hy, hxy⟩ := hsub x (List.mem_cons_of_mem a hx)
        refine ⟨y, ?_, hxy⟩
        rcases List.mem_cons.mp (hmiddle.mem_iff.mp hy) with rfl | hy
        · -- `a` and `x` would be the same
          have hsame := h.trans a y x hab (h.symm x y hxy)
          rw [hfirst x hx] at hsame
          cases hsame
        · exact hy
      · obtain ⟨x, hx, hxy⟩ := hsub' y (hmiddle.mem_iff.mpr (List.mem_cons_of_mem b hy))
        refine ⟨x, ?_, hxy⟩
        rcases List.mem_cons.mp hx with rfl | hx
        · have hsame := h.trans b x y (h.symm x b hab) hxy
          rw [hfirst' y hy] at hsame
          cases hsame
        · exact hx
    calc ((a :: l).map g).Perm (b :: (l₁ ++ l₂) |>.map g) := by
          rw [List.map_cons, List.map_cons, hg a b hab]
          exact hrest.cons _
      List.Perm _ ((l₁ ++ b :: l₂).map g) := (hmiddle.map g).symm

theorem Distinct.perm (h : Comparison same) (hd : Distinct same es) (hp : es.Perm es') :
    Distinct same es' :=
  hp.pairwise hd fun {a b} hab => by rw [h.comm]; exact hab

theorem get_cons : get same (p :: es) key = if same p.1 key then some p.2 else get same es key := by
  rw [get, List.find?_cons]
  cases hp : same p.1 key <;> simp [get]

/-- Nothing is stored under a key that no entry has. -/
theorem get_eq_none (h : ∀ p ∈ es, same p.1 key = false) : get same es key = none := by
  rw [get, Option.map_eq_none_iff, List.find?_eq_none]
  intro p hp
  rw [h p hp]
  exact Bool.false_ne_true

theorem get_of_mem (h : Comparison same) (hd : Distinct same es) (hp : p ∈ es)
    (hkey : same p.1 key = true) : get same es key = some p.2 := by
  induction es with
  | nil => cases hp
  | cons q rest ih =>
    rw [get_cons]
    rcases List.mem_cons.mp hp with rfl | hp
    · rw [if_pos hkey]
    · have hqp : same q.1 p.1 = false := List.rel_of_pairwise_cons hd hp
      have hq : same q.1 key = false := by
        cases hq : same q.1 key with
        | false => rfl
        | true => rw [h.trans q.1 key p.1 hq (h.symm _ _ hkey)] at hqp; cases hqp
      rw [hq, if_neg Bool.false_ne_true]
      exact ih (List.Pairwise.of_cons hd) hp

theorem exists_mem_of_get (hget : get same es key = some v) : ∃ p ∈ es, same p.1 key = true ∧ p.2 = v := by
  rw [get, Option.map_eq_some_iff] at hget
  obtain ⟨p, hp, rfl⟩ := hget
  exact ⟨p, List.mem_of_find?_eq_some hp, by simpa using List.find?_some hp, rfl⟩

/-- The order of the entries does not matter. -/
theorem get_perm (h : Comparison same) (hd : Distinct same es) (hp : es.Perm es') :
    get same es key = get same es' key := by
  cases hget : get same es key with
  | some v =>
    obtain ⟨p, hmem, hkey, rfl⟩ := exists_mem_of_get hget
    exact (get_of_mem h (hd.perm h hp) (hp.mem_iff.mp hmem) hkey).symm
  | none =>
    rw [get, Option.map_eq_none_iff, List.find?_eq_none] at hget
    exact (get_eq_none fun p hp' => by simpa using hget p (hp.mem_iff.mpr hp')).symm

/-- Writing under a key: what every other key reads is unchanged. -/
def update (same : κ → κ → Bool) (f : κ → Option ν) (key : κ) (v : Option ν) : κ → Option ν :=
  fun k => if same key k then v else f k

def Writes (same : κ → κ → Bool) (es : List (κ × ν)) (key : κ) (v : Option ν)
    (es' : List (κ × ν)) : Prop :=
  ∀ k, get same es' k = update same (get same es) key v k

/-- A new entry under a key that was absent. -/
theorem writes_cons (h : Comparison same) (hkey : same key key' = true) :
    Writes same es key (some v) ((key', v) :: es) := by
  intro k
  rw [get_cons, update, h.congr hkey k]

theorem writes_replace (h : Comparison same) {old : ν} (hkey : same key key' = true) :
    Writes same ((key', old) :: es) key (some v) ((key', v) :: es) := by
  intro k
  rw [get_cons, update, get_cons, h.congr hkey k]
  cases same key' k <;> simp

theorem writes_tail (h : Comparison same) (hkey : same key key' = true)
    (hd : Distinct same ((key', v) :: es)) : Writes same ((key', v) :: es) key none es := by
  intro k
  rw [update, get_cons, h.congr hkey k]
  cases hk : same key' k with
  | false => simp
  | true =>
    rw [if_pos rfl]
    refine get_eq_none fun p hp => ?_
    have hne : same key' p.1 = false := List.rel_of_pairwise_cons hd hp
    rw [h.comm, ← h.congr hk]
    exact hne

theorem writes_none (h : Comparison same) (habsent : ∀ p ∈ es, same p.1 key = false) :
    Writes same es key none es := by
  intro k
  rw [update]
  cases hk : same key k with
  | false => rw [if_neg Bool.false_ne_true]
  | true =>
    rw [if_pos rfl]
    refine get_eq_none fun p hp => ?_
    rw [h.comm, ← h.congr hk, h.comm]
    exact habsent p hp

theorem Writes.perm (h : Comparison same) {v : Option ν} {es₁ es₁' : List (κ × ν)}
    (hw : Writes same es key v es') (hd : Distinct same es₁) (hd' : Distinct same es₁')
    (hp : es₁.Perm es) (hp' : es₁'.Perm es') : Writes same es₁ key v es₁' := by
  intro k
  rw [get_perm h hd' hp', hw k, update, update, get_perm h hd hp]

/-- The keys of a map, one for each class of the comparison. -/
def Keys (same : κ → κ → Bool) (f : κ → Option ν) (keys : List κ) : Prop :=
  keys.Pairwise (fun a b => same a b = false) ∧ ∀ k, (f k).isSome ↔ ∃ k' ∈ keys, same k' k = true

theorem keys_get (h : Comparison same) (hd : Distinct same es) :
    Keys same (get same es) (es.map Prod.fst) := by
  refine ⟨List.pairwise_map.mpr hd, fun k => ?_⟩
  constructor
  · intro hsome
    obtain ⟨v, hv⟩ := Option.isSome_iff_exists.mp hsome
    obtain ⟨p, hp, hkey, -⟩ := exists_mem_of_get hv
    exact ⟨p.1, List.mem_map_of_mem hp, hkey⟩
  · rintro ⟨k', hk', hkey⟩
    obtain ⟨p, hp, rfl⟩ := List.mem_map.mp hk'
    rw [get_of_mem h hd hp hkey]
    rfl

end ManagedObject.Assoc
