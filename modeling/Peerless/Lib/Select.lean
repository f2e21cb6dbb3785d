import Mathlib.Data.Int.Notation
import Mathlib.Data.List.Basic

/-!
# Choosing from a list

One scan that keeps or replaces the best element so far; the two standard selections differ in what they
do with ties.

* `Follows.choose_perm`, `maxBy_perm`, `minBy_perm` — under a total order in which only equal
  elements tie, the choice depends on the elements alone, not on their order or on the treatment of ties.
-/

namespace Select

variable {α β : Type*}

/-- A scan: `keep best x` keeps the best element so far against `x`. -/
def choose (keep : α → α → Bool) : List α → Option α
  | [] => none
  | a :: l => some (l.foldl (fun best x => if keep best x then best else x) a)

/-- The last of the largest elements. -/
def maxBy (cmp : α → α → Ordering) (l : List α) : Option α := choose (fun best x => (cmp best x).isGT) l

/-- The first of the smallest elements. -/
def minBy (cmp : α → α → Ordering) (l : List α) : Option α := choose (fun best x => (cmp best x).isLE) l

/-- The scan follows a total order in which only equal elements tie. -/
structure Follows (keep : α → α → Bool) (le : α → α → Prop) : Prop where
  refl : ∀ a, le a a
  trans : ∀ {a b c}, le a b → le b c → le a c
  antisymm : ∀ {a b}, le a b → le b a → a = b
  keeps : ∀ {a b}, keep a b = true → le b a
  drops : ∀ {a b}, keep a b = false → le a b

variable {l : List α}

theorem choose_eq_none_iff {keep : α → α → Bool} : choose keep l = none ↔ l = [] := by
  cases l with
  | nil => simp [choose]
  | cons a l => simp [choose]

theorem foldl_mem (keep : α → α → Bool) : ∀ (l : List α) (a : α),
    l.foldl (fun best x => if keep best x then best else x) a ∈ a :: l := by
  intro l
  induction l with
  | nil => simp
  | cons b l ih =>
    intro a
    rw [List.foldl_cons]
    have hmem := ih (if keep a b then a else b)
    split at hmem
    · rename_i hkeep
      rw [if_pos hkeep]
      rcases List.mem_cons.mp hmem with heq | hmem
      · rw [heq]
        exact List.mem_cons_self
      · exact List.mem_cons_of_mem _ (List.mem_cons_of_mem _ hmem)
    · rename_i hkeep
      rw [if_neg hkeep]
      exact List.mem_cons_of_mem _ hmem

theorem choose_mem {keep : α → α → Bool} {m : α} (h : choose keep l = some m) : m ∈ l := by
  cases l with
  | nil => cases h
  | cons a l =>
    rw [← Option.some.inj h]
    exact foldl_mem keep l a

section Order

variable {keep : α → α → Bool} {le : α → α → Prop}

/-- The scan only improves, and passes nothing better over. -/
theorem Follows.foldl_le (hk : Follows keep le) : ∀ (l : List α) (a : α),
    ∀ x ∈ a :: l, le x (l.foldl (fun best x => if keep best x then best else x) a) := by
  intro l
  induction l with
  | nil =>
    intro a x hx
    rw [List.mem_singleton.mp hx]
    exact hk.refl a
  | cons b l ih =>
    intro a x hx
    rw [List.foldl_cons]
    have hbest := ih (if keep a b then a else b) _ List.mem_cons_self
    have hstep : le a (if keep a b then a else b) ∧ le b (if keep a b then a else b) := by
      split
      · rename_i hkeep
        exact ⟨hk.refl a, hk.keeps hkeep⟩
      · rename_i hkeep
        exact ⟨hk.drops (Bool.eq_false_iff.mpr hkeep), hk.refl b⟩
    rcases List.mem_cons.mp hx with rfl | hx
    · exact hk.trans hstep.1 hbest
    · rcases List.mem_cons.mp hx with rfl | hx
      · exact hk.trans hstep.2 hbest
      · exact ih _ x (List.mem_cons_of_mem _ hx)

theorem Follows.choose_le (hk : Follows keep le) {m : α} (h : choose keep l = some m) :
    ∀ x ∈ l, le x m := by
  cases l with
  | nil => cases h
  | cons a l =>
    rw [← Option.some.inj h]
    exact hk.foldl_le l a

/-- **The choice does not depend on the order of the list.** -/
theorem Follows.choose_perm (hk : Follows keep le) {l' : List α} (h : l.Perm l') :
    choose keep l = choose keep l' := by
  cases hl : choose keep l with
  | none =>
    rw [choose_eq_none_iff] at hl
    rw [hl] at h
    rw [← h.nil_eq]
    rfl
  | some m =>
    cases hl' : choose keep l' with
    | none =>
      rw [choose_eq_none_iff] at hl'
      rw [hl'] at h
      rw [h.eq_nil] at hl
      cases hl
    | some m' =>
      have hle := hk.choose_le hl' m (h.subset (choose_mem hl))
      have hge := hk.choose_le hl m' (h.symm.subset (choose_mem hl'))
      rw [hk.antisymm hle hge]

end Order

/-! ### Comparisons -/

section Comparison

variable {cmp : α → α → Ordering} [Std.TransCmp cmp]

theorem isLE_of_not {a b : α} (h : (cmp a b).isLE = false) : (cmp b a).isLE = true := by
  have hswap : cmp b a = (cmp a b).swap := Std.OrientedCmp.eq_swap
  rw [hswap]
  cases hc : cmp a b <;> simp [hc] at h ⊢

variable [Std.LawfulEqCmp cmp]

omit [Std.TransCmp cmp] in
theorem isLE_refl (a : α) : (cmp a a).isLE = true := by
  have hself : cmp a a = .eq := Std.ReflCmp.compare_self
  rw [hself]
  rfl

theorem eq_of_isLE {a b : α} (hab : (cmp a b).isLE = true) (hba : (cmp b a).isLE = true) : a = b := by
  have hswap : cmp b a = (cmp a b).swap := Std.OrientedCmp.eq_swap
  have htie : cmp a b = .eq := by
    rw [hswap] at hba
    cases hc : cmp a b <;> simp [hc] at hab hba ⊢
  exact Std.LawfulEqCmp.eq_of_compare htie

theorem follows_maxBy : Follows (fun best x => (cmp best x).isGT) fun a b => (cmp a b).isLE = true where
  refl := isLE_refl
  trans := Std.TransCmp.isLE_trans
  antisymm := eq_of_isLE
  keeps := by
    intro a b h
    refine isLE_of_not ?_
    cases hc : cmp a b <;> simp [hc] at h ⊢
  drops := by
    intro a b h
    cases hc : cmp a b <;> simp [hc] at h ⊢

theorem follows_minBy : Follows (fun best x => (cmp best x).isLE) fun a b => (cmp b a).isLE = true where
  refl := isLE_refl
  trans hab hbc := Std.TransCmp.isLE_trans hbc hab
  antisymm hab hba := eq_of_isLE hba hab
  keeps h := h
  drops := isLE_of_not

theorem maxBy_perm {l' : List α} (h : l.Perm l') : maxBy cmp l = maxBy cmp l' :=
  follows_maxBy.choose_perm h

theorem minBy_perm {l' : List α} (h : l.Perm l') : minBy cmp l = minBy cmp l' :=
  follows_minBy.choose_perm h

end Comparison

theorem transCmp_on {cmp : β → β → Ordering} [Std.TransCmp cmp] (f : α → β) :
    Std.TransCmp fun a b => cmp (f a) (f b) where
  eq_swap := Std.OrientedCmp.eq_swap
  isLE_trans := Std.TransCmp.isLE_trans

/-- Comparison of integers. -/
def threeWay (a b : ℤ) : Ordering := if a < b then .lt else if a = b then .eq else .gt

theorem threeWay_isLE {a b : ℤ} : (threeWay a b).isLE = true ↔ a ≤ b := by
  unfold threeWay
  split
  · simp
    omega
  · split
    · simp
      omega
    · simp
      omega

theorem threeWay_eq_iff {a b : ℤ} : threeWay a b = .eq ↔ a = b := by
  unfold threeWay
  split
  · simp
    omega
  · split
    · simpa
    · simpa

instance threeWay_trans : Std.TransCmp threeWay where
  eq_swap := by
    intro a b
    unfold threeWay
    rcases Int.lt_trichotomy a b with h | h | h
    · rw [if_pos h, if_neg (by omega), if_neg (by omega)]
      rfl
    · rw [if_neg (by omega), if_pos h, if_neg (by omega), if_pos h.symm]
      rfl
    · rw [if_neg (by omega), if_neg (by omega), if_pos h]
      rfl
  isLE_trans := by
    intro a b c
    rw [threeWay_isLE, threeWay_isLE, threeWay_isLE]
    omega

end Select
