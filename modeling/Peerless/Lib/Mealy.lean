import Mathlib.Tactic.Common
import Mathlib.Data.List.Basic

/-!
# Machines that answer every input

A machine is a step function `step : σ → α → σ × β`: an input changes the state and gets an answer.

* `countP_trace_le` — **the budget rule**: what every grant is charged to bounds the grants, as long as
  the account is not cleared before the last of them.
-/

namespace Mealy

variable {σ α β : Type*}

/-- The state after the inputs. -/
def after (step : σ → α → σ × β) : σ → List α → σ
  | s, [] => s
  | s, a :: as => after step (step s a).1 as

/-- The inputs, each with its answer. -/
def trace (step : σ → α → σ × β) : σ → List α → List (α × β)
  | _, [] => []
  | s, a :: as => (a, (step s a).2) :: trace step (step s a).1 as

variable {step : σ → α → σ × β}

variable {I : σ → Prop}

theorem after_invariant (hinv : ∀ s a, I s → I (step s a).1) :
    ∀ (as : List α) (s : σ), I s → I (after step s as) := by
  intro as
  induction as with
  | nil => intro s hs; exact hs
  | cons a as ih => intro s hs; exact ih _ (hinv s a hs)

theorem after_concat (a : α) : ∀ (as : List α) (s : σ),
    after step s (as ++ [a]) = (step (after step s as) a).1 := by
  intro as
  induction as with
  | nil => intro s; rfl
  | cons b as ih => intro s; exact ih _

theorem trace_concat (a : α) : ∀ (as : List α) (s : σ),
    trace step s (as ++ [a]) = trace step s as ++ [(a, (step (after step s as) a).2)] := by
  intro as
  induction as with
  | nil => intro s; rfl
  | cons b as ih =>
    intro s
    rw [List.cons_append, trace, ih, trace, List.cons_append]
    rfl

theorem forall_mem_trace {P : α × β → Prop} (hinv : ∀ s a, I s → I (step s a).1)
    (hstep : ∀ s a, I s → P (a, (step s a).2)) :
    ∀ (as : List α) (s : σ), I s → ∀ entry ∈ trace step s as, P entry := by
  intro as
  induction as with
  | nil => intro s _ entry h; exact absurd h List.not_mem_nil
  | cons a as ih =>
    intro s hs entry h
    rw [trace] at h
    rcases List.mem_cons.mp h with rfl | h
    · exact hstep s a hs
    · exact ih _ (hinv s a hs) entry h

/-! ### Leaving inputs out -/

/-- **Unwinding.**  Two states with one view: the first gets all inputs, the second only those kept.
The inputs left out do not touch the view, so the kept ones are answered alike. -/
theorem trace_filter {τ : Type*} (view : σ → τ) (keep : α → Bool) (dropped : α → β → Prop)
    (hkeep : ∀ s s' a, keep a = true → view s = view s' →
      (step s a).2 = (step s' a).2 ∧ view (step s a).1 = view (step s' a).1)
    (hdrop : ∀ s a, keep a = false → dropped a (step s a).2 → view (step s a).1 = view s) :
    ∀ (as : List α) (s s' : σ), view s = view s' →
      (∀ entry ∈ trace step s as, keep entry.1 = false → dropped entry.1 entry.2) →
      (trace step s as).filter (fun entry => keep entry.1) = trace step s' (as.filter keep) ∧
        view (after step s as) = view (after step s' (as.filter keep)) := by
  intro as
  induction as with
  | nil => intro s s' hview _; exact ⟨rfl, hview⟩
  | cons a as ih =>
    intro s s' hview hdropped
    rw [trace] at hdropped
    have hrest := fun entry h => hdropped entry (List.mem_cons_of_mem _ h)
    cases ha : keep a with
    | true =>
      obtain ⟨hanswer, hnext⟩ := hkeep s s' a ha hview
      obtain ⟨htrace, hafter⟩ := ih _ _ hnext hrest
      rw [trace, List.filter_cons_of_pos (by exact ha), List.filter_cons_of_pos ha, trace, after, after,
        htrace, hanswer]
      exact ⟨rfl, hafter⟩
    | false =>
      have hsame := hdrop s a ha (hdropped (a, (step s a).2) List.mem_cons_self ha)
      obtain ⟨htrace, hafter⟩ := ih _ _ (hsame.trans hview) hrest
      rw [trace, List.filter_cons_of_neg (by simp [ha]), List.filter_cons_of_neg (by simp [ha]), after]
      exact ⟨htrace, hafter⟩

/-! ### Numbered answers -/

section Tickets

variable {ι : Type*} (counter : ι → σ → ℕ) (ticket : β → Option (ι × ℕ))

theorem ticket_ge (hmono : ∀ s a i, counter i s ≤ counter i (step s a).1)
    (hticket : ∀ s a i n, ticket (step s a).2 = some (i, n) →
      counter i s ≤ n ∧ n < counter i (step s a).1) :
    ∀ (as : List α) (s : σ), ∀ entry ∈ trace step s as, ∀ i n, ticket entry.2 = some (i, n) →
      counter i s ≤ n := by
  intro as
  induction as with
  | nil => intro s entry h; exact absurd h List.not_mem_nil
  | cons a as ih =>
    intro s entry h i n hn
    rw [trace] at h
    rcases List.mem_cons.mp h with rfl | h
    · exact (hticket s a i n hn).1
    · exact Nat.le_trans (hmono s a i) (ih _ entry h i n hn)

/-- **Numbered answers.**  A counter never goes back and has passed the number it gave out, so the
numbers of one counter increase along a trace. -/
theorem trace_increasing (hmono : ∀ s a i, counter i s ≤ counter i (step s a).1)
    (hticket : ∀ s a i n, ticket (step s a).2 = some (i, n) →
      counter i s ≤ n ∧ n < counter i (step s a).1) :
    ∀ (as : List α) (s : σ), (trace step s as).Pairwise fun x y =>
      ∀ i n m, ticket x.2 = some (i, n) → ticket y.2 = some (i, m) → n < m := by
  intro as
  induction as with
  | nil => intro s; exact List.Pairwise.nil
  | cons a as ih =>
    intro s
    rw [trace]
    refine List.Pairwise.cons ?_ (ih _)
    intro entry h i n m hn hm
    exact Nat.lt_of_lt_of_le (hticket s a i n hn).2
      (ticket_ge counter ticket hmono hticket as _ entry h i m hm)

end Tickets

/-! ### Budgets -/

theorem no_grant {grant : α × β → Bool} {late : α → Prop}
    (hlate : ∀ s a, late a → grant (a, (step s a).2) = false) :
    ∀ (as : List α) (s : σ), (∀ a ∈ as, late a) → ∀ entry ∈ trace step s as, ¬grant entry = true := by
  intro as
  induction as with
  | nil => intro s _ entry h; exact absurd h List.not_mem_nil
  | cons a as ih =>
    intro s hall entry h
    rw [trace] at h
    rcases List.mem_cons.mp h with rfl | h
    · rw [hlate s a (hall a List.mem_cons_self)]
      exact Bool.false_ne_true
    · exact ih _ (fun b hb => hall b (List.mem_cons_of_mem _ hb)) entry h

/-- **Budgets.**  Inputs that are not late charge every grant to the account, which never exceeds the
budget; late inputs, which may clear it, get no grant, and only late inputs follow them. -/
theorem countP_trace_le (grant : α × β → Bool) (spent : σ → ℕ) (late : α → Prop) {budget : ℕ}
    (hinv : ∀ s a, I s → I (step s a).1) (hbudget : ∀ s, I s → spent s ≤ budget)
    (hcharge : ∀ s a, I s → ¬late a →
      spent s + (if grant (a, (step s a).2) then 1 else 0) ≤ spent (step s a).1)
    (hlate : ∀ s a, late a → grant (a, (step s a).2) = false) :
    ∀ (as : List α) (s : σ), I s → as.Pairwise (fun a b => late a → late b) →
      (trace step s as).countP grant + spent s ≤ budget := by
  intro as
  induction as with
  | nil =>
    intro s hs _
    rw [trace, List.countP_nil, Nat.zero_add]
    exact hbudget s hs
  | cons a as ih =>
    intro s hs hsorted
    obtain ⟨hhead, htail⟩ := List.pairwise_cons.mp hsorted
    by_cases ha : late a
    · have hnone : (trace step s (a :: as)).countP grant = 0 := by
        rw [List.countP_eq_zero]
        exact no_grant hlate (a :: as) s fun b hb => by
          rcases List.mem_cons.mp hb with rfl | hb
          · exact ha
          · exact hhead b hb ha
      rw [hnone, Nat.zero_add]
      exact hbudget s hs
    · have hrest := ih _ (hinv s a hs) htail
      have hone := hcharge s a hs ha
      rw [trace, List.countP_cons]
      omega

end Mealy
