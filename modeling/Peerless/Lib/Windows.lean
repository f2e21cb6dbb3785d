import Peerless.Lib.Mealy

/-!
# Accounts cleared by time

A machine whose inputs carry times charges its grants to an account.  The account belongs to a window: an
input that comes `width` or more after the window's start clears it and starts the next window.  Nothing
else is said about where windows lie, so an interval of time may touch the end of one and the start of the
next.

* `Rationed.granted_iff` — a machine that grants what its account allows grants all inputs exactly
  if no window has more of them than the budget.
-/

namespace Windows

open Mealy

variable {σ α β : Type*}

/-- Inputs with times, grants, the start of the current window and what has been charged in it. -/
structure Windowed (step : σ → α → σ × β) (time : α → ℕ) (grant : α × β → Bool) (start spent : σ → ℕ)
    (I : σ → Prop) (width budget : ℕ) : Prop where
  inv : ∀ s a, I s → I (step s a).1
  bound : ∀ s, I s → spent s ≤ budget
  stays : ∀ s a, I s → time a - start s < width → start (step s a).1 = start s ∧
    spent (step s a).1 = spent s + (if grant (a, (step s a).2) then 1 else 0)
  rolls : ∀ s a, I s → width ≤ time a - start s → start (step s a).1 = time a ∧
    spent (step s a).1 = if grant (a, (step s a).2) then 1 else 0

variable {step : σ → α → σ × β} {time : α → ℕ} {grant : α × β → Bool} {start spent : σ → ℕ}
  {I : σ → Prop} {width budget lo hi : ℕ}

/-- Grants up to a time. -/
def upTo (time : α → ℕ) (grant : α × β → Bool) (hi : ℕ) (entry : α × β) : Bool :=
  grant entry && decide (time entry.1 ≤ hi)

/-- Grants in an interval. -/
def inside (time : α → ℕ) (grant : α × β → Bool) (lo hi : ℕ) (entry : α × β) : Bool :=
  decide (lo ≤ time entry.1) && upTo time grant hi entry

/-- The window lasts beyond the interval, so the account is not cleared before its end. -/
theorem Windowed.countP_within (h : Windowed step time grant start spent I width budget)
    (hshort : hi - lo < width) (as : List α) (s : σ) (hs : I s)
    (hstart : lo ≤ start s) (hsorted : as.Pairwise fun a b => time a ≤ time b) :
    (trace step s as).countP (upTo time grant hi) + spent s ≤ budget := by
  refine countP_trace_le (I := fun s => I s ∧ lo ≤ start s) (upTo time grant hi) spent
    (fun a => hi < time a) ?_ (fun s hs => h.bound s hs.1) ?_ ?_ as s ⟨hs, hstart⟩ ?_
  · intro s a hs
    refine ⟨h.inv s a hs.1, ?_⟩
    by_cases hroll : width ≤ time a - start s
    · rw [(h.rolls s a hs.1 hroll).1]
      omega
    · rw [(h.stays s a hs.1 (by omega)).1]
      exact hs.2
  · intro s a hs hlate
    rw [(h.stays s a hs.1 (by omega)).2]
    unfold upTo
    cases grant (a, (step s a).2) with
    | false => simp
    | true =>
      simp only [Bool.true_and, if_true]
      split <;> omega
  · intro s a hlate
    unfold upTo
    rw [decide_eq_false (Nat.not_le.mpr hlate), Bool.and_false]
  · exact hsorted.imp fun hab hlate => Nat.lt_of_lt_of_le hlate hab

/-- From the start of an interval on: at most one window follows the current one. -/
theorem Windowed.countP_from (h : Windowed step time grant start spent I width budget)
    (hshort : hi - lo < width) : ∀ (as : List α) (s : σ), I s →
    as.Pairwise (fun a b => time a ≤ time b) → (∀ a ∈ as, lo ≤ time a) →
      (trace step s as).countP (upTo time grant hi) + spent s ≤ 2 * budget := by
  intro as
  induction as with
  | nil =>
    intro s hs _ _
    have hbound := h.bound s hs
    rw [trace, List.countP_nil]
    omega
  | cons a as ih =>
    intro s hs hsorted hlater
    obtain ⟨_, htail⟩ := List.pairwise_cons.mp hsorted
    have hone : (if upTo time grant hi (a, (step s a).2) = true then 1 else 0) ≤
        if grant (a, (step s a).2) = true then 1 else 0 := by
      unfold upTo
      cases grant (a, (step s a).2) with
      | false => simp
      | true =>
        simp only [Bool.true_and, if_true]
        split <;> omega
    rw [trace, List.countP_cons]
    by_cases hroll : width ≤ time a - start s
    · -- the next window starts inside the interval, and outlasts it
      obtain ⟨hnew, hspent⟩ := h.rolls s a hs hroll
      have hrest := h.countP_within hshort as (step s a).1 (h.inv s a hs)
        (by rw [hnew]; exact hlater a List.mem_cons_self) htail
      have hbound := h.bound s hs
      omega
    · obtain ⟨_, hspent⟩ := h.stays s a hs (by omega)
      have hrest := ih (step s a).1 (h.inv s a hs) htail fun b hb => hlater b (List.mem_cons_of_mem _ hb)
      omega

theorem Windowed.countP_interval_le (h : Windowed step time grant start spent I width budget)
    (hshort : hi - lo < width) : ∀ (as : List α) (s : σ), I s →
    as.Pairwise (fun a b => time a ≤ time b) →
      (trace step s as).countP (inside time grant lo hi) ≤ 2 * budget := by
  intro as
  induction as with
  | nil =>
    intro s _ _
    rw [trace, List.countP_nil]
    exact Nat.zero_le _
  | cons a as ih =>
    intro s hs hsorted
    obtain ⟨hhead, htail⟩ := List.pairwise_cons.mp hsorted
    by_cases hearly : lo ≤ time a
    · have hfrom := h.countP_from hshort (a :: as) s hs hsorted (by
        intro b hb
        rcases List.mem_cons.mp hb with rfl | hb
        · exact hearly
        · exact Nat.le_trans hearly (hhead b hb))
      have hless : (trace step s (a :: as)).countP (inside time grant lo hi) ≤
          (trace step s (a :: as)).countP (upTo time grant hi) := by
        refine List.countP_mono_left fun entry _ hentry => ?_
        exact (Bool.and_eq_true_iff.mp hentry).2
      omega
    · have hout : inside time grant lo hi (a, (step s a).2) = false := by
        unfold inside
        rw [decide_eq_false hearly, Bool.false_and]
      have hrest := ih (step s a).1 (h.inv s a hs) htail
      rw [trace, List.countP_cons, hout]
      simpa using hrest

/-! ### The windows of a sequence of times -/

/-- The window an input falls into: the current one, or a new one if that has run out. -/
def roll (width start now : ℕ) : ℕ := if width ≤ now - start then now else start

/-- The start of the window of the input `k`. -/
def windowOf (width opened : ℕ) (times : ℕ → ℕ) : ℕ → ℕ
  | 0 => roll width opened (times 0)
  | k + 1 => roll width (windowOf width opened times k) (times (k + 1))

/-- The place of the input `k` in its window, from one on. -/
def placeOf (width opened : ℕ) (times : ℕ → ℕ) : ℕ → ℕ
  | 0 => 1
  | k + 1 =>
    if width ≤ times (k + 1) - windowOf width opened times k then 1
    else placeOf width opened times k + 1

section Places

variable {opened : ℕ} {times : ℕ → ℕ}

theorem windowOf_mono (hwidth : 0 < width) (j : ℕ) :
    ∀ d, windowOf width opened times j ≤ windowOf width opened times (j + d) := by
  intro d
  induction d with
  | zero => exact Nat.le_refl _
  | succ d ih =>
    rw [← Nat.add_assoc, windowOf, roll]
    split
    · omega
    · exact ih

/-- **The place of an input**: so many inputs back, the window was the same. -/
theorem lt_placeOf_iff (hwidth : 0 < width) : ∀ k m, m < placeOf width opened times k ↔
    m ≤ k ∧ windowOf width opened times (k - m) = windowOf width opened times k := by
  intro k
  induction k with
  | zero =>
    intro m
    rw [placeOf, Nat.zero_sub]
    omega
  | succ k ih =>
    intro m
    cases m with
    | zero =>
      rw [placeOf, Nat.sub_zero]
      split <;> simp
    | succ m =>
      rw [placeOf, windowOf, roll, Nat.add_sub_add_right]
      by_cases hroll : width ≤ times (k + 1) - windowOf width opened times k
      · rw [if_pos hroll, if_pos hroll]
        -- every earlier window started before this one
        have hearlier : m ≤ k → windowOf width opened times (k - m) ≤ windowOf width opened times k := by
          intro hm
          have hmono : windowOf width opened times (k - m) ≤ windowOf width opened times (k - m + m) :=
            windowOf_mono hwidth (k - m) m
          rwa [Nat.sub_add_cancel hm] at hmono
        omega
      · rw [if_neg hroll, if_neg hroll, Nat.add_lt_add_iff_right, ih m, Nat.add_le_add_iff_right]

end Places

/-- A machine that grants an input exactly if its window has room for it. -/
structure Rationed (step : σ → α → σ × Bool) (time : α → ℕ) (start spent : σ → ℕ) (I : σ → Prop)
    (width budget : ℕ) : Prop where
  rolls : ∀ s a, I s → width ≤ time a - start s → (step s a).2 = true ∧ I (step s a).1 ∧
    start (step s a).1 = time a ∧ spent (step s a).1 = 1
  stays : ∀ s a, I s → time a - start s < width → spent s < budget → (step s a).2 = true ∧
    I (step s a).1 ∧ start (step s a).1 = start s ∧ spent (step s a).1 = spent s + 1
  full : ∀ s a, I s → time a - start s < width → budget ≤ spent s → (step s a).2 = false

section Rations

variable {step : σ → α → σ × Bool} {time : α → ℕ} {start spent : σ → ℕ} {I : σ → Prop}

variable {s : σ}

/-- One input, in a window with `spent s` inputs before it. -/
theorem Rationed.step_iff (h : Rationed step time start spent I width budget) (hbudget : 0 < budget)
    (hs : I s) (a : α) {place : ℕ} (hplace : place = if width ≤ time a - start s then 1 else spent s + 1) :
    ((step s a).2 = true ↔ place ≤ budget) ∧
      (place ≤ budget → I (step s a).1 ∧ start (step s a).1 = roll width (start s) (time a) ∧
        spent (step s a).1 = place) := by
  unfold roll
  by_cases hroll : width ≤ time a - start s
  · rw [if_pos hroll] at hplace ⊢
    obtain ⟨hgrant, hkept, hstart, hspent⟩ := h.rolls s a hs hroll
    rw [hgrant, hplace]
    exact ⟨⟨fun _ => hbudget, fun _ => rfl⟩, fun _ => ⟨hkept, hstart, hspent⟩⟩
  · rw [if_neg hroll] at hplace ⊢
    by_cases hroom : spent s < budget
    · obtain ⟨hgrant, hkept, hstart, hspent⟩ := h.stays s a hs (by omega) hroom
      rw [hgrant, hplace]
      exact ⟨⟨fun _ => hroom, fun _ => rfl⟩, fun _ => ⟨hkept, hstart, hspent⟩⟩
    · rw [h.full s a hs (by omega) (by omega)]
      refine ⟨⟨fun hfalse => ?_, fun hle => ?_⟩, fun hle => ?_⟩
      · cases hfalse
      · omega
      · omega

/-- The state after the first inputs, all of them granted. -/
theorem Rationed.after_granted (h : Rationed step time start spent I width budget) (hbudget : 0 < budget)
    (hs : I s) (hspent : spent s = 0) (inputs : ℕ → α) : ∀ n,
    (∀ k < n, placeOf width (start s) (time ∘ inputs) k ≤ budget) →
      let reached := after step s ((List.range n).map inputs)
      I reached ∧ placeOf width (start s) (time ∘ inputs) n =
          (if width ≤ time (inputs n) - start reached then 1 else spent reached + 1) ∧
        windowOf width (start s) (time ∘ inputs) n = roll width (start reached) (time (inputs n)) := by
  intro n
  induction n with
  | zero =>
    intro _ reached
    refine ⟨hs, ?_, rfl⟩
    show 1 = if _ then 1 else spent s + 1
    rw [hspent, ite_self]
  | succ n ih =>
    intro hplaces
    obtain ⟨hkept, hplace, hwindow⟩ := ih fun k hk => hplaces k (by omega)
    have hstep := (h.step_iff hbudget hkept (inputs n) hplace).2 (hplaces n (by omega))
    rw [List.range_succ, List.map_append, List.map_singleton, after_concat]
    refine ⟨hstep.1, ?_, ?_⟩
    · rw [hstep.2.2, hstep.2.1, ← hwindow, placeOf]
      rfl
    · rw [hstep.2.1, ← hwindow, windowOf]
      rfl

/-- **All inputs are granted exactly if no window has more of them than the budget.** -/
theorem Rationed.granted_iff (h : Rationed step time start spent I width budget) (hwidth : 0 < width)
    (hbudget : 0 < budget) (hs : I s) (hspent : spent s = 0) (inputs : ℕ → α) (n : ℕ) :
    (∀ entry ∈ trace step s ((List.range n).map inputs), entry.2 = true) ↔
      ∀ k, k + budget < n → windowOf width (start s) (time ∘ inputs) (k + budget) ≠
        windowOf width (start s) (time ∘ inputs) k := by
  have hplaces : ∀ n, (∀ entry ∈ trace step s ((List.range n).map inputs), entry.2 = true) ↔
      ∀ k < n, placeOf width (start s) (time ∘ inputs) k ≤ budget := by
    intro n
    induction n with
    | zero => simp [trace]
    | succ n ih =>
      rw [List.range_succ, List.map_append, List.map_singleton, trace_concat, List.forall_mem_append,
        List.forall_mem_singleton, ih, Nat.forall_lt_succ_right]
      refine and_congr_right fun hbefore => ?_
      obtain ⟨hkept, hplace, _⟩ := h.after_granted hbudget hs hspent inputs n hbefore
      exact (h.step_iff hbudget hkept (inputs n) hplace).1
  rw [hplaces]
  constructor
  · intro hall k hk hsame
    have hlate := (lt_placeOf_iff hwidth (k + budget) budget).mpr
      ⟨by omega, by rw [Nat.add_sub_cancel]; exact hsame.symm⟩
    have hle := hall (k + budget) hk
    omega
  · intro hall k hk
    by_contra hlate
    obtain ⟨hle, hsame⟩ := (lt_placeOf_iff hwidth k budget).mp (Nat.lt_of_not_le hlate)
    refine hall (k - budget) (by omega) ?_
    rw [Nat.sub_add_cancel hle]
    exact hsame.symm

end Rations

end Windows
