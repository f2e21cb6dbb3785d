import Peerless.Lib.PairTree
import Mathlib.Data.List.Induction

/-!
# Paths from a leaf to the root of a hash tree

A path is a position and the siblings from the leaf upwards; the bits of the position say on which side
each sibling stands.  Nothing in it says how long it has to be.

* `climb_sound` — without a collision, a path that reaches the digest of a perfect tree has
  the depth of the tree as its length and starts at the leaf its position names.
-/

namespace PairTree

variable {α β ι : Type*}

/-- The value reached from `x` at position `i`. -/
def climb (f : β → β → β) : β → ℕ → List β → β
  | x, _, [] => x
  | x, i, s :: ss => climb f (if i % 2 = 0 then f x s else f s x) (i / 2) ss

theorem climb_concat (f : β → β → β) (s : β) : ∀ (ss : List β) (x : β) (i : ℕ),
    climb f x i (ss ++ [s]) =
      if i / 2 ^ ss.length % 2 = 0 then f (climb f x i ss) s else f s (climb f x i ss) := by
  intro ss
  induction ss with
  | nil =>
    intro x i
    rw [List.nil_append, List.length_nil, Nat.pow_zero, Nat.div_one]
    rfl
  | cons t ss ih =>
    intro x i
    show climb f _ (i / 2) (ss ++ [s]) = _
    rw [ih, Nat.div_div_eq_div_mul, List.length_cons, Nat.pow_succ, Nat.mul_comm (2 ^ ss.length) 2]
    rfl

/-! ### The path of a position -/

/-- The siblings on the way from position `i` of a level upwards, for at most `fuel` levels; absent if one
of them is. -/
def siblings (f : β → β → β) : ℕ → List β → ℕ → Option (List β)
  | 0, _, _ => some []
  | fuel + 1, l, i =>
    if l.length ≤ 1 then some []
    else (padOdd l)[i ^^^ 1]?.bind fun s => (siblings f fuel (parents f l) (i / 2)).map (s :: ·)

/-- The neighbour of a position: the other one of its pair. -/
theorem neighbour (i : ℕ) : i ^^^ 1 = if i % 2 = 0 then i + 1 else i - 1 := by
  have hdiv : (i ^^^ 1) / 2 = i / 2 := by
    rw [Nat.xor_div_two]
    exact Nat.xor_zero _
  have hmod : (i ^^^ 1) % 2 = 1 ↔ ¬ (i % 2 = 1 ↔ 1 % 2 = 1) := Nat.xor_mod_two_eq_one
  split <;> omega

theorem pairUp_getElem? (f : β → β → β) : ∀ (l : List β) (k : ℕ) {a b : β}, l[2 * k]? = some a →
    l[2 * k + 1]? = some b → (pairUp f l)[k]? = some (f a b) := by
  intro l
  induction l using pairUp.induct with
  | case1 x y l ih =>
    intro k a b ha hb
    cases k with
    | zero =>
      obtain rfl : x = a := Option.some.inj ha
      obtain rfl : y = b := Option.some.inj hb
      rfl
    | succ k => exact ih k ha hb
  | case2 l hl =>
    intro k a b ha hb
    have hlong : 2 ≤ l.length := by
      have hlt := (List.getElem?_eq_some_iff.mp hb).1
      omega
    rcases l with _ | ⟨x, _ | ⟨y, l⟩⟩
    · simp at hlong
    · simp at hlong
    · exact absurd rfl (hl x y l)

/-- A position and its neighbour make the parent. -/
theorem parents_getElem? (f : β → β → β) {l : List β} {i : ℕ} {x s : β} (hx : l[i]? = some x)
    (hs : (padOdd l)[i ^^^ 1]? = some s) :
    (parents f l)[i / 2]? = some (if i % 2 = 0 then f x s else f s x) := by
  have hpadded : (padOdd l)[i]? = some x := by
    obtain ⟨rest, hrest⟩ := prefix_padOdd l
    rw [← hrest, List.getElem?_append_left (List.getElem?_eq_some_iff.mp hx).1, hx]
  rw [neighbour] at hs
  rw [parents]
  split
  · rename_i heven
    rw [if_pos heven] at hs
    refine pairUp_getElem? f _ (i / 2) ?_ ?_
    · rw [show 2 * (i / 2) = i by omega, hpadded]
    · rw [show 2 * (i / 2) + 1 = i + 1 by omega, hs]
  · rename_i hodd
    rw [if_neg hodd] at hs
    refine pairUp_getElem? f _ (i / 2) ?_ ?_
    · rw [show 2 * (i / 2) = i - 1 by omega, hs]
    · rw [show 2 * (i / 2) + 1 = i by omega, hpadded]

/-- Every position of a level has a neighbour on the padded level. -/
theorem exists_neighbour {l : List β} {i : ℕ} (hi : i < l.length) : ∃ s, (padOdd l)[i ^^^ 1]? = some s := by
  have hlt : i ^^^ 1 < (padOdd l).length := by
    rw [neighbour, padOdd_length]
    split <;> omega
  exact ⟨_, List.getElem?_eq_getElem hlt⟩

/-- **Every position has a path**, with one sibling per level, and it climbs to the root. -/
theorem siblings_spec (f : β → β → β) : ∀ (fuel : ℕ) (l : List β) (i : ℕ) {x : β},
    l.length ≤ fuel + 1 → l[i]? = some x →
      ∃ ss, siblings f fuel l i = some ss ∧ ss.length = Nat.clog 2 l.length ∧
        (collapse f fuel l).head? = some (climb f x i ss) := by
  -- a level of at most one element is the root; otherwise the parents carry the rest of the path
  have hroot : ∀ (l : List β) (i : ℕ) {x : β}, l.length ≤ 1 → l[i]? = some x →
      Nat.clog 2 l.length = 0 ∧ l.head? = some x := by
    intro l i x hl hx
    have hi := (List.getElem?_eq_some_iff.mp hx).1
    refine ⟨Nat.clog_of_right_le_one hl 2, ?_⟩
    rw [List.head?_eq_getElem?, show 0 = i by omega, hx]
  intro fuel
  induction fuel with
  | zero =>
    intro l i x hl hx
    obtain ⟨hclog, hhead⟩ := hroot l i hl hx
    exact ⟨[], rfl, hclog.symm, hhead⟩
  | succ fuel ih =>
    intro l i x hl hx
    rw [siblings, collapse]
    by_cases hone : l.length ≤ 1
    · obtain ⟨hclog, hhead⟩ := hroot l i hone hx
      rw [if_pos hone, if_pos hone]
      exact ⟨[], rfl, hclog.symm, hhead⟩
    · obtain ⟨s, hs⟩ := exists_neighbour (List.getElem?_eq_some_iff.mp hx).1
      obtain ⟨ss, hss, hlength, hclimb⟩ := ih (parents f l) (i / 2)
        (by rw [parents_length]; omega) (parents_getElem? f hx hs)
      rw [if_neg hone, if_neg hone, hs, Option.bind_some, hss]
      refine ⟨s :: ss, rfl, ?_, hclimb⟩
      have hlevel : Nat.clog 2 l.length = Nat.clog 2 ((l.length + 1) / 2) + 1 :=
        Nat.clog_of_two_le (by decide) (by omega)
      rw [List.length_cons, hlength, parents_length, hlevel]

section Hashing

variable (h : ι → β) (e : α → ι) (c : β → β → ι)

/-- The strings hashed while climbing from `x`. -/
def climbInputs : β → ℕ → List β → List ι
  | _, _, [] => []
  | x, i, s :: ss =>
    (if i % 2 = 0 then c x s else c s x) ::
      climbInputs (if i % 2 = 0 then h (c x s) else h (c s x)) (i / 2) ss

/-- The strings hashed for a path from a leaf. -/
def pathInputs (a : α) (i : ℕ) (ss : List β) : List ι := e a :: climbInputs h c (h (e a)) i ss

/-- The value a path from a leaf reaches. -/
def pathRoot (a : α) (i : ℕ) (ss : List β) : β := climb (fun x y => h (c x y)) (h (e a)) i ss

variable {h e c}

theorem climbInputs_concat (s : β) : ∀ (ss : List β) (x : β) (i : ℕ),
    climbInputs h c x i (ss ++ [s]) = climbInputs h c x i ss ++
      [if i / 2 ^ ss.length % 2 = 0 then c (climb (fun x y => h (c x y)) x i ss) s
        else c s (climb (fun x y => h (c x y)) x i ss)] := by
  intro ss
  induction ss with
  | nil =>
    intro x i
    rw [List.nil_append, List.length_nil, Nat.pow_zero, Nat.div_one]
    rfl
  | cons t ss ih =>
    intro x i
    show _ :: climbInputs h c _ (i / 2) (ss ++ [s]) = _
    rw [ih, Nat.div_div_eq_div_mul, List.length_cons, Nat.pow_succ, Nat.mul_comm (2 ^ ss.length) 2]
    rfl

theorem pathRoot_concat (a : α) (i : ℕ) (ss : List β) (s : β) :
    ∃ z, z ∈ pathInputs h e c a i (ss ++ [s]) ∧ pathRoot h e c a i (ss ++ [s]) = h z ∧
      (i / 2 ^ ss.length % 2 = 0 ∧ z = c (pathRoot h e c a i ss) s ∨
        i / 2 ^ ss.length % 2 = 1 ∧ z = c s (pathRoot h e c a i ss)) := by
  refine ⟨_, List.mem_cons_of_mem _ (by rw [climbInputs_concat]; exact List.mem_concat_self), ?_, ?_⟩
  · show climb _ _ i (ss ++ [s]) = _
    rw [climb_concat, apply_ite h]
  · rcases Nat.mod_two_eq_zero_or_one (i / 2 ^ ss.length) with hbit | hbit
    · rw [if_pos hbit]
      exact Or.inl ⟨hbit, rfl⟩
    · rw [if_neg (by omega)]
      exact Or.inr ⟨hbit, rfl⟩

theorem pathInputs_subset (a : α) (i : ℕ) (ss : List β) (s : β) :
    pathInputs h e c a i ss ⊆ pathInputs h e c a i (ss ++ [s]) := by
  intro z hz
  rcases List.mem_cons.mp hz with rfl | hz
  · exact List.mem_cons_self
  · apply List.mem_cons_of_mem
    rw [climbInputs_concat]
    exact List.mem_append_left _ hz

/-- What a path reaches is the hash of a leaf or of a pair. -/
theorem pathRoot_eq_hash (a : α) (i : ℕ) (ss : List β) :
    ∃ z ∈ pathInputs h e c a i ss, pathRoot h e c a i ss = h z ∧ (z = e a ∨ ∃ x y, z = c x y) := by
  induction ss using List.reverseRecOn with
  | nil => exact ⟨e a, List.mem_cons_self, rfl, Or.inl rfl⟩
  | append_singleton ss s _ =>
    obtain ⟨z, hz, hroot, hside⟩ := pathRoot_concat (h := h) (e := e) (c := c) a i ss s
    rcases hside with ⟨_, rfl⟩ | ⟨_, rfl⟩
    · exact ⟨_, hz, hroot, Or.inr ⟨_, _, rfl⟩⟩
    · exact ⟨_, hz, hroot, Or.inr ⟨_, _, rfl⟩⟩

theorem climb_sound (he : ∀ a b, e a = e b → a = b)
    (hc : ∀ a b a' b', c a b = c a' b' → a = a' ∧ b = b') (hec : ∀ a x y, e a ≠ c x y)
    (a : α) (i : ℕ) : ∀ (ss : List β) (d : ℕ) (t : Tree α), Perfect d t →
      CollisionFree h (pathInputs h e c a i ss ++ inputs h e c t) →
      pathRoot h e c a i ss = digest h e c t →
      ss.length = d ∧ t.leaves[i % 2 ^ d]? = some a := by
  -- the path is read from the root downwards, so the induction removes its last sibling
  intro ss
  induction ss using List.reverseRecOn with
  | nil =>
    intro d t hperfect hcf hroot
    cases hperfect with
    | @leaf b =>
      have hab : e a = e b :=
        hcf _ (List.mem_append_left _ List.mem_cons_self) _ (List.mem_append_right _ List.mem_cons_self)
          hroot
      rw [he a b hab, Nat.pow_zero, Nat.mod_one]
      exact ⟨rfl, rfl⟩
    | @node d l r _ _ =>
      have hpair : e a = c (digest h e c l) (digest h e c r) :=
        hcf _ (List.mem_append_left _ List.mem_cons_self) _ (List.mem_append_right _ List.mem_cons_self)
          hroot
      exact absurd hpair (hec _ _ _)
  | append_singleton ss s ih =>
    intro d t hperfect hcf hroot
    obtain ⟨z, hz, hzroot, hside⟩ := pathRoot_concat (h := h) (e := e) (c := c) a i ss s
    cases hperfect with
    | @leaf b =>
      have hzb : z = e b :=
        hcf _ (List.mem_append_left _ hz) _ (List.mem_append_right _ List.mem_cons_self)
          (hzroot.symm.trans hroot)
      rcases hside with ⟨_, rfl⟩ | ⟨_, rfl⟩
      · exact absurd hzb.symm (hec _ _ _)
      · exact absurd hzb.symm (hec _ _ _)
    | @node d l r hl hr =>
      have hzpair : z = c (digest h e c l) (digest h e c r) :=
        hcf _ (List.mem_append_left _ hz) _ (List.mem_append_right _ List.mem_cons_self)
          (hzroot.symm.trans hroot)
      have hmono : ∀ u, inputs h e c u ⊆ inputs h e c (.node l r) →
          CollisionFree h (pathInputs h e c a i ss ++ inputs h e c u) := fun u hu =>
        hcf.mono (List.append_subset.mpr
          ⟨List.Subset.trans (pathInputs_subset a i ss s) (List.subset_append_left _ _),
            List.Subset.trans hu (List.subset_append_right _ _)⟩)
      have hpow : i % 2 ^ (d + 1) = 2 ^ d * (i / 2 ^ d % 2) + i % 2 ^ d := by
        rw [Nat.pow_succ, Nat.mod_mul, Nat.add_comm]
      show _ ∧ (l.leaves ++ r.leaves)[i % 2 ^ (d + 1)]? = some a
      rw [List.length_append, List.length_singleton]
      rcases hside with ⟨hbit, rfl⟩ | ⟨hbit, rfl⟩
      · obtain ⟨hlength, hleaf⟩ := ih d l hl (hmono l (by intro x hx; simp [inputs, hx]))
          (hc _ _ _ _ hzpair).1
        rw [hlength] at hbit ⊢
        rw [hpow, hbit, Nat.mul_zero, Nat.zero_add]
        refine ⟨rfl, ?_⟩
        rw [List.getElem?_append_left (by rw [hl.leaves_length]; exact Nat.mod_lt _ (Nat.two_pow_pos d))]
        exact hleaf
      · obtain ⟨hlength, hleaf⟩ := ih d r hr (hmono r (by intro x hx; simp [inputs, hx]))
          (hc _ _ _ _ hzpair).2
        rw [hlength] at hbit ⊢
        rw [hpow, hbit, Nat.mul_one]
        refine ⟨rfl, ?_⟩
        rw [List.getElem?_append_right (by rw [hl.leaves_length]; omega), hl.leaves_length,
          Nat.add_sub_cancel_left]
        exact hleaf

end Hashing

end PairTree
