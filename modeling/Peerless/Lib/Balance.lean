import Mathlib.Algebra.Order.BigOperators.Group.List
import Mathlib.Algebra.Order.Group.Nat
import Mathlib.Algebra.Group.Nat.Defs
import Mathlib.Algebra.GroupWithZero.Nat
import Mathlib.Algebra.Ring.Nat
import Mathlib.Algebra.Group.Action.Defs
import Mathlib.Tactic.Linarith

/-!
# Choosing the least loaded

Loads `c : ι → ℕ` over a list of places.  Every pick goes to a place of least load and raises its load by
one.

* `share_of_within` — loads that differ by one at most are the total divided by the number of
  places, rounded down or up.
-/

namespace Balance

variable {ι : Type*}

/-- The largest value minus the smallest. -/
def spread (values : List ℕ) : ℕ := values.max?.getD 0 - values.min?.getD 0

/-- How far the values are below a ceiling, all together. -/
def room (top : ℕ) (values : List ℕ) : ℕ := (values.map fun v => top - v).sum

/-- The loads differ by `d` at most. -/
def Within (d : ℕ) (places : List ι) (c : ι → ℕ) : Prop := ∀ i ∈ places, ∀ j ∈ places, c i ≤ c j + d

/-- A place of least load. -/
structure Least (places : List ι) (c : ι → ℕ) (i : ι) : Prop where
  mem : i ∈ places
  le : ∀ j ∈ places, c i ≤ c j

variable {places : List ι} {c : ι → ℕ} {d : ℕ}

theorem spread_le_iff : spread (places.map c) ≤ d ↔ Within d places c := by
  unfold spread
  cases hmax : (places.map c).max? with
  | none =>
    have hnil : places = [] := List.map_eq_nil_iff.mp (List.max?_eq_none_iff.mp hmax)
    subst hnil
    simp [Within]
  | some a =>
    obtain ⟨ha, hle⟩ := List.max?_eq_some_iff.mp hmax
    cases hmin : (places.map c).min? with
    | none =>
      rw [List.min?_eq_none_iff.mp hmin] at ha
      cases ha
    | some b =>
      obtain ⟨hb, hge⟩ := List.min?_eq_some_iff.mp hmin
      rw [Option.getD_some, Option.getD_some]
      constructor
      · intro hd i hi j hj
        have hia := hle (c i) (List.mem_map_of_mem hi)
        have hjb := hge (c j) (List.mem_map_of_mem hj)
        omega
      · intro hw
        obtain ⟨i, hi, rfl⟩ := List.mem_map.mp ha
        obtain ⟨j, hj, rfl⟩ := List.mem_map.mp hb
        have hij := hw i hi j hj
        omega

theorem spread_of_length_le_one : ∀ {values : List ℕ}, values.length ≤ 1 → spread values = 0
  | [], _ => rfl
  | [v], _ => Nat.sub_self v

variable [DecidableEq ι]

/-- One more at a place. -/
def raise (c : ι → ℕ) (i : ι) : ι → ℕ := Function.update c i (c i + 1)

theorem raise_apply (c : ι → ℕ) (i j : ι) : raise c i j = c j + if j = i then 1 else 0 := by
  unfold raise
  by_cases h : j = i
  · subst h
    simp
  · simp [h]

/-! ### The spread -/

variable {i : ι}

/-- **A pick of a least place** does not widen loads that differ by one or more. -/
theorem Within.raise (hw : Within d places c) (hd : 1 ≤ d) (hi : Least places c i) :
    Within d places (raise c i) := by
  intro j hj k hk
  rw [raise_apply, raise_apply]
  have hjk := hw j hj k hk
  by_cases hji : j = i
  · subst hji
    have hle := hi.le k hk
    split <;> split <;> omega
  · rw [if_neg hji]
    split <;> omega

/-- Every pick is of a least place, at its turn. -/
def Levels (places : List ι) : (ι → ℕ) → List ι → Prop
  | _, [] => True
  | c, i :: picks => Least places c i ∧ Levels places (raise c i) picks

/-- The loads after some picks. -/
def raised (c : ι → ℕ) (picks : List ι) : ι → ℕ := picks.foldl raise c

theorem raised_apply : ∀ (picks : List ι) (c : ι → ℕ) (i : ι), raised c picks i = c i + picks.count i := by
  intro picks
  induction picks with
  | nil => intro c i; rfl
  | cons j picks ih =>
    intro c i
    show raised (Balance.raise c j) picks i = _
    rw [ih, raise_apply, List.count_cons]
    by_cases h : i = j
    · subst h
      simp
      omega
    · simp [h, Ne.symm h]

/-- **Picks of least places never widen the loads** beyond what they were, or one. -/
theorem Levels.within (hd : 1 ≤ d) : ∀ (picks : List ι) (c : ι → ℕ),
    Levels places c picks → Within d places c → Within d places (raised c picks) := by
  intro picks
  induction picks with
  | nil => intro c _ hw; exact hw
  | cons i picks ih =>
    intro c hl hw
    exact ih (Balance.raise c i) hl.2 (hw.raise hd hl.1)

/-! ### The share of each place -/

theorem sum_ge {a v : ℕ} {values : List ℕ} (h : ∀ x ∈ values, a ≤ x) (hv : v ∈ values) :
    values.length * a + v ≤ values.sum + a := by
  have hperm := List.perm_cons_erase hv
  have hle := List.card_nsmul_le_sum (values.erase v) a fun x hx => h x (List.mem_of_mem_erase hx)
  rw [hperm.sum_eq, hperm.length_eq, List.sum_cons, List.length_cons]
  rw [smul_eq_mul] at hle
  linarith

theorem sum_le {b v : ℕ} {values : List ℕ} (h : ∀ x ∈ values, x ≤ b) (hv : v ∈ values) :
    values.sum + b ≤ values.length * b + v := by
  have hperm := List.perm_cons_erase hv
  have hle := List.sum_le_card_nsmul (values.erase v) b fun x hx => h x (List.mem_of_mem_erase hx)
  rw [hperm.sum_eq, hperm.length_eq, List.sum_cons, List.length_cons]
  rw [smul_eq_mul] at hle
  linarith

omit [DecidableEq ι] in
/-- **An even share**: loads that differ by one at most are the total divided by the number of places,
rounded down or up. -/
theorem share_of_within (hw : Within 1 places c) (hi : i ∈ places) :
    c i = (places.map c).sum / places.length ∨
      c i = ((places.map c).sum + places.length - 1) / places.length := by
  have hpos : 0 < places.length := List.length_pos_of_mem hi
  have hmem : c i ∈ places.map c := List.mem_map_of_mem hi
  by_cases hlow : ∀ j ∈ places, c i ≤ c j
  · -- nobody has less: the others have at most one more
    left
    have hge := sum_ge (fun x hx => by
      obtain ⟨j, hj, rfl⟩ := List.mem_map.mp hx
      exact hlow j hj) hmem
    have hle := sum_le (fun x hx => by
      obtain ⟨j, hj, rfl⟩ := List.mem_map.mp hx
      exact hw j hj i hi) hmem
    rw [List.length_map] at hge hle
    refine (Nat.div_eq_of_lt_le ?_ ?_).symm
    · linarith
    · linarith
  · -- somebody has one less: nobody has more
    right
    push Not at hlow
    obtain ⟨j, hj, hlt⟩ := hlow
    have hij := hw i hi j hj
    have hge := sum_ge (a := c j) (fun x hx => by
      obtain ⟨k, hk, rfl⟩ := List.mem_map.mp hx
      have := hw i hi k hk
      omega) hmem
    have hle := sum_le (b := c i) (fun x hx => by
      obtain ⟨k, hk, rfl⟩ := List.mem_map.mp hx
      have := hw k hk j hj
      omega) hmem
    rw [List.length_map] at hge hle
    obtain hv : c i = c j + 1 := by omega
    have htotal : places.length * c j + 1 ≤ (places.map c).sum := by omega
    refine (Nat.div_eq_of_lt_le ?_ ?_).symm
    · rw [hv, Nat.add_mul]
      have hcomm := Nat.mul_comm places.length (c j)
      omega
    · have hsum : (places.map c).sum ≤ c i * places.length := by linarith
      rw [Nat.add_mul]
      omega

/-! ### Totals -/

theorem sum_map_update {f : ι → ℕ} (y : ℕ) (hnodup : places.Nodup) (hi : i ∈ places) :
    (places.map (Function.update f i y)).sum + f i = (places.map f).sum + y := by
  have hperm := List.perm_cons_erase hi
  have hrest : (places.erase i).map (Function.update f i y) = (places.erase i).map f := by
    apply List.map_congr_left
    intro j hj
    exact Function.update_of_ne (hnodup.mem_erase_iff.mp hj).1 _ _
  rw [(hperm.map _).sum_eq, (hperm.map f).sum_eq, List.map_cons, List.map_cons, hrest, List.sum_cons,
    List.sum_cons, Function.update_self]
  omega

theorem sum_raised (hnodup : places.Nodup) : ∀ (picks : List ι) (c : ι → ℕ),
    Levels places c picks → (places.map (raised c picks)).sum = (places.map c).sum + picks.length := by
  intro picks
  induction picks with
  | nil => intro c _; rfl
  | cons i picks ih =>
    intro c hl
    have hone : (places.map (raise c i)).sum + c i = (places.map c).sum + (c i + 1) :=
      sum_map_update (c i + 1) hnodup hl.1.mem
    have hrest := ih (raise c i) hl.2
    show (places.map (raised (raise c i) picks)).sum = _
    rw [hrest, List.length_cons]
    omega

/-- **Every share after picks of least places**, if nothing was there before. -/
theorem Levels.share {picks : List ι} (hnodup : places.Nodup) (hl : Levels places (fun _ => 0) picks)
    (hi : i ∈ places) :
    picks.count i = picks.length / places.length ∨
      picks.count i = (picks.length + places.length - 1) / places.length := by
  have hw : Within 1 places (raised (fun _ => 0) picks) :=
    hl.within (le_refl 1) picks _ fun _ _ _ _ => Nat.zero_le _
  have hshare := share_of_within hw hi
  have hzero : (places.map fun _ => 0).sum = 0 := by simp
  rwa [sum_raised hnodup picks _ hl, hzero, raised_apply, Nat.zero_add, Nat.zero_add] at hshare

omit [DecidableEq ι] in
/-- As long as there is room, the least place is below the ceiling. -/
theorem Least.lt_of_room {top : ℕ} (hi : Least places c i) (hroom : 0 < room top (places.map c)) :
    c i < top := by
  by_contra hfull
  have hnone : room top (places.map c) = 0 := by
    apply List.sum_eq_zero
    intro x hx
    rw [List.map_map] at hx
    obtain ⟨j, hj, rfl⟩ := List.mem_map.mp hx
    have hle := hi.le j hj
    show top - c j = 0
    omega
  omega

/-- A pick below the ceiling takes one from the room. -/
theorem room_raise {top : ℕ} (hnodup : places.Nodup) (hi : i ∈ places) (hlt : c i < top) :
    room top (places.map (raise c i)) + 1 = room top (places.map c) := by
  have hupdate : ((fun v => top - v) ∘ raise c i) =
      Function.update ((fun v => top - v) ∘ c) i (top - (c i + 1)) :=
    Function.comp_update _ _ _ _
  have hsum := sum_map_update (f := (fun v => top - v) ∘ c) (top - (c i + 1)) hnodup hi
  unfold room
  rw [List.map_map, List.map_map, hupdate]
  have hvalue : ((fun v => top - v) ∘ c) i = top - c i := rfl
  omega

end Balance
