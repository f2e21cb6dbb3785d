import Mathlib.Data.List.Basic
import Mathlib.Data.Nat.Log
import Mathlib.Algebra.Group.Nat.Defs
import Mathlib.Tactic.Common

/-!
# Pairing a list up to one root

The level-by-level reduction behind a hash tree, over an arbitrary combining function: while a level
has more than one element, an odd level repeats its last element (`padOdd`) and neighbours are
combined (`pairUp`).

* `digest_injective` — **a hash tree commits to its free tree**: without a collision among the
  strings hashed, equal roots come from equal trees.

So what a root commits to is exactly `padded l` — the list up to the repetition of its last blocks —
and, for lists of one length, the list itself (`eq_of_padded_eq`).
-/

namespace PairTree

variable {α β γ : Type*}

/-! ### The reduction -/

/-- An odd level repeats its last element. -/
def padOdd (l : List α) : List α := if l.length % 2 = 1 then l ++ l.getLast?.toList else l

/-- Combine neighbours. -/
def pairUp (f : α → α → α) : List α → List α
  | a :: b :: l => f a b :: pairUp f l
  | _ => []

def parents (f : α → α → α) (l : List α) : List α := pairUp f (padOdd l)

/-- The loop, for at most `fuel` levels. -/
def collapse (f : α → α → α) : ℕ → List α → List α
  | 0, l => l
  | fuel + 1, l => if l.length ≤ 1 then l else collapse f fuel (parents f l)

/-- The root of a list, absent for the empty list.  A list of `n` elements needs fewer than `n`
levels, so the fuel never runs out (`collapse_length`). -/
def root (f : α → α → α) (l : List α) : Option α := (collapse f l.length l).head?

theorem padOdd_length (l : List α) : (padOdd l).length = 2 * ((l.length + 1) / 2) := by
  unfold padOdd
  split
  · rename_i hodd
    have hne : l ≠ [] := by
      rintro rfl
      simp at hodd
    rw [List.length_append, List.getLast?_eq_some_getLast hne]
    simp only [Option.toList_some, List.length_singleton]
    omega
  · omega

theorem prefix_padOdd (l : List α) : l <+: padOdd l := by
  unfold padOdd
  split
  · exact List.prefix_append _ _
  · exact List.prefix_refl _

variable {l : List α} {a : α}

theorem mem_of_mem_padOdd (h : a ∈ padOdd l) : a ∈ l := by
  unfold padOdd at h
  split at h
  · rcases List.mem_append.mp h with h | h
    · exact h
    · exact List.mem_of_getLast? (Option.mem_toList.mp h)
  · exact h

theorem pairUp_length (f : α → α → α) : ∀ l : List α, (pairUp f l).length = l.length / 2
  | [] => by simp [pairUp]
  | [_] => by simp [pairUp]
  | _ :: _ :: l => by
    simp only [pairUp, List.length_cons, pairUp_length f l]
    omega

theorem parents_length (f : α → α → α) (l : List α) :
    (parents f l).length = (l.length + 1) / 2 := by
  rw [parents, pairUp_length, padOdd_length]
  omega

theorem collapse_length (f : α → α → α) : ∀ (fuel : ℕ) (l : List α), l.length ≤ fuel + 1 →
    (collapse f fuel l).length = min 1 l.length := by
  intro fuel
  induction fuel with
  | zero =>
    intro l hl
    rw [collapse]
    omega
  | succ fuel ih =>
    intro l hl
    rw [collapse]
    split
    · omega
    · rw [ih (parents f l) (by rw [parents_length]; omega), parents_length]
      omega

variable {f : α → α → α}

theorem root_isSome (hl : l ≠ []) : (root f l).isSome := by
  have hpos : 0 < l.length := List.length_pos_of_ne_nil hl
  have hlen := collapse_length f l.length l (by omega)
  cases hc : collapse f l.length l with
  | nil =>
    rw [hc, List.length_nil] at hlen
    omega
  | cons a as => rw [root, hc]; rfl

/-! ### Naturality -/

theorem padOdd_map (φ : α → β) (l : List α) : padOdd (l.map φ) = (padOdd l).map φ := by
  unfold padOdd
  rw [List.length_map]
  split
  · rw [List.map_append, List.getLast?_map]
    cases l.getLast? <;> rfl
  · rfl

variable {g : β → β → β} {φ : α → β}

theorem pairUp_map (hφ : ∀ a b, φ (f a b) = g (φ a) (φ b)) :
    ∀ l : List α, pairUp g (l.map φ) = (pairUp f l).map φ
  | [] => rfl
  | [_] => rfl
  | a :: b :: l => by
    simp only [List.map_cons, pairUp, pairUp_map hφ l, hφ]

theorem collapse_map (hφ : ∀ a b, φ (f a b) = g (φ a) (φ b)) : ∀ (fuel : ℕ) (l : List α),
    collapse g fuel (l.map φ) = (collapse f fuel l).map φ := by
  intro fuel
  induction fuel with
  | zero => intro l; rfl
  | succ fuel ih =>
    intro l
    rw [collapse, collapse, List.length_map]
    split
    · rfl
    · rw [parents, padOdd_map, pairUp_map hφ]
      exact ih (parents f l)

/-- **The reduction commutes with homomorphisms.** -/
theorem root_map (hφ : ∀ a b, φ (f a b) = g (φ a) (φ b)) (l : List α) :
    root g (l.map φ) = (root f l).map φ := by
  rw [root, List.length_map, collapse_map hφ, List.head?_map]
  rfl

/-- A property of every element that combining keeps holds of the root. -/
theorem root_property {Q : α → Prop} (hf : ∀ a b, Q a → Q b → Q (f a b)) (hl : ∀ a ∈ l, Q a)
    (ha : root f l = some a) : Q a := by
  have hpair : ∀ m : List α, (∀ a ∈ m, Q a) → ∀ a ∈ pairUp f m, Q a := by
    intro m
    induction m using pairUp.induct with
    | case1 x y m ih =>
      intro hm a ha
      simp only [pairUp, List.mem_cons] at ha
      rcases ha with rfl | ha
      · exact hf x y (hm x (by simp)) (hm y (by simp))
      · exact ih (fun b hb => hm b (by simp [hb])) a ha
    | case2 m hm =>
      intro _ a ha
      rw [pairUp.eq_2 f m hm] at ha
      exact absurd ha List.not_mem_nil
  have hcollapse : ∀ (fuel : ℕ) (m : List α), (∀ a ∈ m, Q a) → ∀ a ∈ collapse f fuel m, Q a := by
    intro fuel
    induction fuel with
    | zero => intro m hm; exact hm
    | succ fuel ih =>
      intro m hm
      rw [collapse]
      split
      · exact hm
      · exact ih _ (hpair _ fun b hb => hm b (mem_of_mem_padOdd hb))
  have hmem : a ∈ (collapse f l.length l).head? := ha
  exact hcollapse _ l hl a (List.mem_of_mem_head? hmem)

/-! ### Free trees -/

inductive Tree (α : Type*) where
  | leaf (a : α)
  | node (l r : Tree α)

/-- The free run: the shape the reduction gives a list. -/
def tree (l : List α) : Option (Tree α) := root Tree.node (l.map Tree.leaf)

def Tree.eval (f : β → β → β) (g : α → β) : Tree α → β
  | .leaf a => g a
  | .node l r => f (l.eval f g) (r.eval f g)

theorem root_eq_eval (f : β → β → β) (g : α → β) (l : List α) :
    root f (l.map g) = (tree l).map (Tree.eval f g) := by
  rw [tree, ← root_map (g := f) (φ := Tree.eval f g) fun _ _ => rfl, List.map_map]
  rfl

def Tree.leaves : Tree α → List α := Tree.eval (· ++ ·) fun a => [a]

theorem Tree.leaves_ne_nil (t : Tree α) : t.leaves ≠ [] := by
  induction t with
  | leaf a => exact List.cons_ne_nil _ _
  | node l r ihl _ =>
    show l.leaves ++ r.leaves ≠ []
    simp [ihl]

/-- The list with the blocks that padding repeats written out. -/
def padded (l : List α) : List α := (root (· ++ ·) (l.map fun a => [a])).getD []

theorem padded_eq_leaves (l : List α) : padded l = ((tree l).map Tree.leaves).getD [] := by
  rw [padded, root_eq_eval]
  rfl

@[simp] theorem padded_nil : padded ([] : List α) = [] := rfl

theorem tree_isSome (hl : l ≠ []) : (tree l).isSome :=
  root_isSome (by simpa using hl)

theorem exists_tree (hl : l ≠ []) : ∃ t, tree l = some t ∧ padded l = t.leaves := by
  obtain ⟨t, ht⟩ := Option.isSome_iff_exists.mp (tree_isSome hl)
  exact ⟨t, ht, by rw [padded_eq_leaves, ht]; rfl⟩

theorem padded_ne_nil (hl : l ≠ []) : padded l ≠ [] := by
  obtain ⟨t, _, hp⟩ := exists_tree hl
  rw [hp]
  exact t.leaves_ne_nil

theorem mem_of_mem_padded (h : a ∈ padded l) : a ∈ l := by
  rw [padded] at h
  cases hr : root (· ++ ·) (l.map fun a => [a]) with
  | none =>
    rw [hr] at h
    exact absurd h List.not_mem_nil
  | some m =>
    rw [hr] at h
    refine root_property (Q := fun m => ∀ a ∈ m, a ∈ l) ?_ ?_ hr a h
    · intro x y hx hy b hb
      rcases List.mem_append.mp hb with hb | hb
      · exact hx b hb
      · exact hy b hb
    · intro m hm b hb
      obtain ⟨c, hc, rfl⟩ := List.mem_map.mp hm
      rw [List.mem_singleton.mp hb]
      exact hc

theorem flatten_pairUp_append : ∀ l : List (List α), l.length % 2 = 0 →
    (pairUp (· ++ ·) l).flatten = l.flatten
  | [], _ => rfl
  | [_], h => by simp at h
  | a :: b :: l, h => by
    have hl : l.length % 2 = 0 := by
      simp only [List.length_cons] at h
      omega
    simp only [pairUp, List.flatten_cons, List.append_assoc]
    rw [flatten_pairUp_append l hl]

theorem flatten_collapse_prefix : ∀ (fuel : ℕ) (l : List (List α)),
    l.flatten <+: (collapse (· ++ ·) fuel l).flatten := by
  intro fuel
  induction fuel with
  | zero => intro l; exact List.prefix_refl _
  | succ fuel ih =>
    intro l
    rw [collapse]
    split
    · exact List.prefix_refl _
    · refine List.IsPrefix.trans ?_ (ih (parents (· ++ ·) l))
      rw [parents, flatten_pairUp_append _ (by rw [padOdd_length]; omega)]
      obtain ⟨s, hs⟩ := prefix_padOdd l
      rw [← hs, List.flatten_append]
      exact List.prefix_append _ _

theorem prefix_padded (l : List α) : l <+: padded l := by
  have hpre := flatten_collapse_prefix (l.map fun a => [a]).length (l.map fun a => [a])
  rw [show (l.map fun a => [a]).flatten = l from List.flatMap_singleton' l] at hpre
  have hlen := collapse_length (· ++ ·) (l.map fun a => [a]).length (l.map fun a => [a]) (by omega)
  unfold padded root
  cases hc : collapse (· ++ ·) (l.map fun a => [a]).length (l.map fun a => [a]) with
  | nil => rw [hc] at hpre; exact hpre
  | cons m ms =>
    rw [hc, List.length_cons] at hlen
    have hms : ms = [] := List.length_eq_zero_iff.mp (by omega)
    rw [hc, hms] at hpre
    simpa using hpre

/-- **Lists of one length are determined by their padded forms.** -/
theorem eq_of_padded_eq {m : List α} (hlen : l.length = m.length) (h : padded l = padded m) : l = m := by
  have hl := List.prefix_iff_eq_take.mp (prefix_padded l)
  have hm := List.prefix_iff_eq_take.mp (prefix_padded m)
  rw [hl, h, hlen, ← hm]

/-! ### Padding gives perfect trees -/

/-- Every leaf at depth `d`. -/
inductive Perfect : ℕ → Tree α → Prop
  | leaf {a : α} : Perfect 0 (.leaf a)
  | node {d : ℕ} {l r : Tree α} : Perfect d l → Perfect d r → Perfect (d + 1) (.node l r)

variable {d : ℕ} {t : Tree α}

theorem Perfect.leaves_length (h : Perfect d t) : t.leaves.length = 2 ^ d := by
  induction h with
  | leaf => rfl
  | @node d l r _ _ ihl ihr =>
    show (l.leaves ++ r.leaves).length = 2 ^ (d + 1)
    rw [List.length_append, ihl, ihr, Nat.pow_succ]
    omega

theorem perfect_pairUp : ∀ l : List (Tree α), (∀ t ∈ l, Perfect d t) →
    ∀ t ∈ pairUp Tree.node l, Perfect (d + 1) t
  | [], _, t, ht => absurd ht List.not_mem_nil
  | [_], _, t, ht => absurd ht List.not_mem_nil
  | a :: b :: l, h, t, ht => by
    simp only [pairUp, List.mem_cons] at ht
    rcases ht with rfl | ht
    · exact Perfect.node (h a (by simp)) (h b (by simp))
    · exact perfect_pairUp l (fun u hu => h u (by simp [hu])) t ht

theorem perfect_collapse : ∀ (fuel d : ℕ) (l : List (Tree α)), (∀ t ∈ l, Perfect d t) →
    ∃ d', ∀ t ∈ collapse Tree.node fuel l, Perfect d' t := by
  intro fuel
  induction fuel with
  | zero => intro d l h; exact ⟨d, h⟩
  | succ fuel ih =>
    intro d l h
    rw [collapse]
    split
    · exact ⟨d, h⟩
    · exact ih (d + 1) _ (perfect_pairUp _ fun t ht => h t (mem_of_mem_padOdd ht))

theorem perfect_tree (h : tree l = some t) : ∃ d, Perfect d t := by
  obtain ⟨d, hd⟩ := perfect_collapse (l.map Tree.leaf).length 0 (l.map Tree.leaf) (by
    intro u hu
    obtain ⟨a, _, rfl⟩ := List.mem_map.mp hu
    exact Perfect.leaf)
  have hmem : t ∈ (collapse Tree.node (l.map Tree.leaf).length (l.map Tree.leaf)).head? := h
  exact ⟨d, hd t (List.mem_of_mem_head? hmem)⟩

theorem Perfect.eq_of_leaves {u : Tree α} (ht : Perfect d t) (hu : Perfect d u) (h : t.leaves = u.leaves) :
    t = u := by
  induction ht generalizing u with
  | leaf =>
    cases hu
    have hab := List.cons.inj h
    rw [hab.1]
  | @node d l r hl hr ihl ihr =>
    cases hu with
    | @node _ l' r' hl' hr' =>
      have hlen : l.leaves.length = l'.leaves.length := by
        rw [hl.leaves_length, hl'.leaves_length]
      obtain ⟨h1, h2⟩ := List.append_inj (show l.leaves ++ r.leaves = l'.leaves ++ r'.leaves from h) hlen
      rw [ihl hl' h1, ihr hr' h2]

/-- **The padded list and the tree carry the same information.** -/
theorem tree_eq_iff_padded_eq {m : List α} : tree l = tree m ↔ padded l = padded m := by
  constructor
  · intro h
    rw [padded_eq_leaves, padded_eq_leaves, h]
  · intro h
    by_cases hl : l = []
    · by_cases hm : m = []
      · rw [hl, hm]
      · rw [hl, padded_nil] at h
        exact absurd h.symm (padded_ne_nil hm)
    · by_cases hm : m = []
      · rw [hm, padded_nil] at h
        exact absurd h (padded_ne_nil hl)
      · obtain ⟨t, ht, hpt⟩ := exists_tree hl
        obtain ⟨u, hu, hpu⟩ := exists_tree hm
        obtain ⟨d, hd⟩ := perfect_tree ht
        obtain ⟨d', hd'⟩ := perfect_tree hu
        rw [hpt, hpu] at h
        have hpow : 2 ^ d = 2 ^ d' := by rw [← hd.leaves_length, ← hd'.leaves_length, h]
        have hdd : d = d' := Nat.pow_right_injective (le_refl 2) hpow
        rw [ht, hu, hd.eq_of_leaves (hdd ▸ hd') h]

/-! ### Hash trees

`h` hashes strings of type `ι`; a leaf is hashed through its encoding `e`, a pair of digests through
`c`.  The encodings are injective and no leaf encoding is a pair encoding. -/

section Hashing

variable {ι : Type*} (h : ι → β) (e : α → ι) (c : β → β → ι)

def digest : Tree α → β := Tree.eval (fun a b => h (c a b)) fun a => h (e a)

/-- The strings hashed on the way to the digest of a tree, its own first. -/
def inputs : Tree α → List ι
  | .leaf a => [e a]
  | .node l r => c (digest h e c l) (digest h e c r) :: (inputs l ++ inputs r)

/-- No two different strings of the list collide. -/
def CollisionFree (l : List ι) : Prop := ∀ x ∈ l, ∀ y ∈ l, h x = h y → x = y

variable {h e c}

theorem CollisionFree.mono {l m : List ι} (hm : CollisionFree h m) (hsub : l ⊆ m) :
    CollisionFree h l := fun x hx y hy hxy => hm x (hsub hx) y (hsub hy) hxy

theorem CollisionFree.left_right {x y : ι} {a b a' b' : List ι}
    (hcf : CollisionFree h (x :: (a ++ b) ++ y :: (a' ++ b'))) :
    CollisionFree h (a ++ a') ∧ CollisionFree h (b ++ b') := by
  refine ⟨hcf.mono ?_, hcf.mono ?_⟩
  · intro z hz
    rcases List.mem_append.mp hz with hz | hz <;> simp [hz]
  · intro z hz
    rcases List.mem_append.mp hz with hz | hz <;> simp [hz]

theorem digest_injective (he : ∀ a b, e a = e b → a = b)
    (hc : ∀ a b a' b', c a b = c a' b' → a = a' ∧ b = b') (hec : ∀ a x y, e a ≠ c x y) :
    ∀ t u : Tree α, CollisionFree h (inputs h e c t ++ inputs h e c u) →
      digest h e c t = digest h e c u → t = u := by
  intro t
  induction t with
  | leaf a =>
    intro u hcf hd
    cases u with
    | leaf b =>
      have hab := hcf (e a) (by simp [inputs]) (e b) (by simp [inputs]) hd
      rw [he a b hab]
    | node l r =>
      have hpair : e a = c (digest h e c l) (digest h e c r) :=
        hcf _ (by simp [inputs]) _ (by simp [inputs]) hd
      exact absurd hpair (hec _ _ _)
  | node l r ihl ihr =>
    intro u hcf hd
    cases u with
    | leaf b =>
      have hpair : c (digest h e c l) (digest h e c r) = e b :=
        hcf _ (by simp [inputs]) _ (by simp [inputs]) hd
      exact absurd hpair.symm (hec _ _ _)
    | node l' r' =>
      have hpair : c (digest h e c l) (digest h e c r) = c (digest h e c l') (digest h e c r') :=
        hcf _ (by simp [inputs]) _ (by simp [inputs]) hd
      obtain ⟨hl, hr⟩ := hc _ _ _ _ hpair
      simp only [inputs] at hcf
      obtain ⟨hcl, hcr⟩ := hcf.left_right
      rw [ihl l' hcl hl, ihr r' hcr hr]

end Hashing

end PairTree
