import Mathlib.Tactic.Common

/-!
# Queues in a row

Stations stand in a row and hand items down a chain of FIFO queues: station `i` puts into queue `i` and
takes from queue `i + 1`, and the consumer takes from queue `0`.  What a station has emitted and the
consumer has not seen yet lies in the queues `0` to `i`, and comes out in that order.

* `flow_pass` — handing an item from one queue to the next changes nothing for the stations
  behind.
-/

namespace Pipeline

variable {β : Type*}

/-- The contents of the queues `0` to `i`. -/
def flow (q : ℕ → List β) : ℕ → List β
  | 0 => q 0
  | i + 1 => flow q i ++ q (i + 1)

variable {q r : ℕ → List β}

theorem flow_congr : ∀ {i : ℕ}, (∀ m, m ≤ i → q m = r m) → flow q i = flow r i := by
  intro i
  induction i with
  | zero => exact fun h => h 0 (Nat.le_refl 0)
  | succ i ih =>
    intro h
    rw [flow, flow, ih fun m hm => h m (Nat.le_succ_of_le hm), h (i + 1) (Nat.le_refl _)]

theorem flow_concat {i : ℕ} {items : List β} (hsame : ∀ m, m < i → r m = q m) (hlast : r i = q i ++ items) :
    flow r i = flow q i ++ items := by
  cases i with
  | zero => exact hlast
  | succ i =>
    rw [flow, flow, hlast, flow_congr fun m hm => hsame m (Nat.lt_succ_of_le hm), List.append_assoc]

theorem flow_cons {items : List β} (hfirst : q 0 = items ++ r 0) (hsame : ∀ m, 0 < m → q m = r m) :
    ∀ i, flow q i = items ++ flow r i := by
  intro i
  induction i with
  | zero => exact hfirst
  | succ i ih => rw [flow, flow, ih, hsame (i + 1) (Nat.succ_pos i), List.append_assoc]

/-- **Passing an item on.**  Two neighbouring queues keep their joint contents. -/
theorem flow_pass {h : ℕ} (hpair : q h ++ q (h + 1) = r h ++ r (h + 1))
    (hsame : ∀ m, m ≠ h → m ≠ h + 1 → q m = r m) : ∀ {i : ℕ}, h < i → flow q i = flow r i := by
  intro i
  induction i with
  | zero => exact fun hi => absurd hi (Nat.not_lt_zero h)
  | succ i ih =>
    intro hi
    rcases Nat.lt_or_eq_of_le (Nat.le_of_lt_succ hi) with hlt | rfl
    · rw [flow, flow, ih hlt, hsame (i + 1) (by omega) (by omega)]
    · -- the two queues are the last ones
      cases h with
      | zero => exact hpair
      | succ h =>
        have hbelow : flow q h = flow r h :=
          flow_congr fun m hm => hsame m (by omega) (by omega)
        show (flow q h ++ q (h + 1)) ++ q (h + 1 + 1) = (flow r h ++ r (h + 1)) ++ r (h + 1 + 1)
        rw [List.append_assoc, List.append_assoc, hpair, hbelow]

/-! ### Consecutive numbers -/

/-- The numbers from `a` up to, not including, `b`. -/
def Counted : ℕ → List ℕ → ℕ → Prop
  | a, [], b => a = b
  | a, x :: xs, b => x = a ∧ Counted (a + 1) xs b

theorem Counted.concat : ∀ {xs : List ℕ} {a b : ℕ}, Counted a xs b → Counted a (xs ++ [b]) (b + 1) := by
  intro xs
  induction xs with
  | nil =>
    intro a b h
    exact ⟨h.symm, congrArg (· + 1) h⟩
  | cons x xs ih =>
    intro a b h
    exact ⟨h.1, ih h.2⟩

end Pipeline
