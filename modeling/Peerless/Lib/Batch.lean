import Mathlib.Tactic.Common

/-!
# Batches that stop at the first error

A loop over a batch of messages whose body fails, or goes on and says whether it took the message; the
first failure ends the loop and the rest of the batch is gone.  Against it stands what should become of
each message at its turn, `settle`: the state in which everything due before it has been done.

* `drained_iff` — the loop takes every due message exactly if the batch is clear.
-/

namespace Batch

variable {σ μ ε : Type*}

/-- A message, its position and the state at its turn. -/
structure Turn (σ μ : Type*) where
  pos : ℕ
  state : σ
  message : μ

/-- The loop: the state it ends in, the positions it took, and the failure that ended it. -/
def drain (body : ℕ → σ → μ → Except ε (σ × Bool)) : ℕ → σ → List μ → σ × List ℕ × Option ε
  | _, s, [] => (s, [], none)
  | n, s, m :: ms =>
    match body n s m with
    | .error err => (s, [], some err)
    | .ok (s', true) =>
      let rest := drain body (n + 1) s' ms
      (rest.1, n :: rest.2.1, rest.2.2)
    | .ok (s', false) => drain body (n + 1) s' ms

/-- The messages with the states at their turns. -/
def turns (settle : ℕ → σ → μ → σ × Bool) : ℕ → σ → List μ → List (Turn σ μ)
  | _, _, [] => []
  | n, s, m :: ms => ⟨n, s, m⟩ :: turns settle (n + 1) (settle n s m).1 ms

/-- The state when every message has had its turn. -/
def ideal (settle : ℕ → σ → μ → σ × Bool) : ℕ → σ → List μ → σ
  | _, s, [] => s
  | n, s, m :: ms => ideal settle (n + 1) (settle n s m).1 ms

def Takes (body : ℕ → σ → μ → Except ε (σ × Bool)) (t : Turn σ μ) : Prop :=
  ∃ s', body t.pos t.state t.message = .ok (s', true)

def Fails (body : ℕ → σ → μ → Except ε (σ × Bool)) (t : Turn σ μ) : Prop :=
  ∃ err, body t.pos t.state t.message = .error err

/-- **Nothing due is out of reach**: the body takes it, and fails on nothing before it. -/
def Clear (body : ℕ → σ → μ → Except ε (σ × Bool)) (due : Turn σ μ → Prop) (l : List (Turn σ μ)) :
    Prop :=
  ∀ t ∈ l, due t → Takes body t ∧ ∀ u ∈ l, u.pos < t.pos → ¬ Fails body u

/-- The body does no more than `settle`, and what `settle` does is due. -/
structure Agrees (body : ℕ → σ → μ → Except ε (σ × Bool)) (settle : ℕ → σ → μ → σ × Bool)
    (due : Turn σ μ → Prop) : Prop where
  takes : ∀ n s m s', body n s m = .ok (s', true) → settle n s m = (s', true)
  skips : ∀ n s m s', body n s m = .ok (s', false) → s' = s
  keeps : ∀ n s m, (settle n s m).2 = false → (settle n s m).1 = s
  due : ∀ n s m, (settle n s m).2 = true → due ⟨n, s, m⟩

variable {body : ℕ → σ → μ → Except ε (σ × Bool)} {settle : ℕ → σ → μ → σ × Bool}
  {due : Turn σ μ → Prop}

/-! ### Positions -/

theorem le_pos_of_mem_turns : ∀ (ms : List μ) (n : ℕ) (s : σ), ∀ t ∈ turns settle n s ms, n ≤ t.pos := by
  intro ms
  induction ms with
  | nil => intro n s t ht; cases ht
  | cons m ms ih =>
    intro n s t ht
    rcases List.mem_cons.mp ht with rfl | ht
    · exact Nat.le_refl n
    · exact Nat.le_of_succ_le (ih (n + 1) _ t ht)

theorem le_of_mem_drain : ∀ (ms : List μ) (n : ℕ) (s : σ), ∀ p ∈ (drain body n s ms).2.1, n ≤ p := by
  intro ms
  induction ms with
  | nil => intro n s p hp; cases hp
  | cons m ms ih =>
    intro n s p hp
    rw [drain] at hp
    split at hp
    · cases hp
    · rcases List.mem_cons.mp hp with rfl | hp
      · exact Nat.le_refl p
      · exact Nat.le_of_succ_le (ih (n + 1) _ p hp)
    · exact Nat.le_of_succ_le (ih (n + 1) _ p hp)

/-! ### The loop against the ideal -/

theorem clear_cons {t : Turn σ μ} {l : List (Turn σ μ)} (hlater : ∀ u ∈ l, t.pos < u.pos)
    (hfails : ¬ Fails body t) :
    Clear body due (t :: l) ↔ (due t → Takes body t) ∧ Clear body due l := by
  constructor
  · intro h
    refine ⟨fun ht => (h t List.mem_cons_self ht).1, fun u hu hdue => ?_⟩
    obtain ⟨htakes, hbefore⟩ := h u (List.mem_cons_of_mem _ hu) hdue
    exact ⟨htakes, fun v hv => hbefore v (List.mem_cons_of_mem _ hv)⟩
  · rintro ⟨hhead, htail⟩ u hu hdue
    rcases List.mem_cons.mp hu with rfl | hu
    · refine ⟨hhead hdue, fun v hv hlt => ?_⟩
      rcases List.mem_cons.mp hv with rfl | hv
      · exact absurd hlt (Nat.lt_irrefl _)
      · exact absurd (Nat.lt_trans (hlater v hv) hlt) (Nat.lt_irrefl _)
    · obtain ⟨htakes, hbefore⟩ := htail u hu hdue
      refine ⟨htakes, fun v hv hlt => ?_⟩
      rcases List.mem_cons.mp hv with rfl | hv
      · exact hfails
      · exact hbefore v hv hlt

/-- After a failure at the head a clear batch has nothing due. -/
theorem not_due_of_fails {t : Turn σ μ} {l : List (Turn σ μ)} (hlater : ∀ u ∈ l, t.pos < u.pos)
    (hfails : Fails body t) (h : Clear body due (t :: l)) : ∀ u ∈ t :: l, ¬ due u := by
  intro u hu hdue
  obtain ⟨⟨s', htakes⟩, hbefore⟩ := h u hu hdue
  rcases List.mem_cons.mp hu with rfl | hmem
  · obtain ⟨err, herr⟩ := hfails
    rw [herr] at htakes
    cases htakes
  · exact hbefore t List.mem_cons_self (hlater u hmem) hfails

/-- **The loop takes everything due exactly if the batch is clear.** -/
theorem drained_iff (h : Agrees body settle due) : ∀ (ms : List μ) (n : ℕ) (s : σ),
    (∀ t ∈ turns settle n s ms, due t → t.pos ∈ (drain body n s ms).2.1) ↔
      Clear body due (turns settle n s ms) := by
  intro ms
  induction ms with
  | nil =>
    intro n s
    exact ⟨fun _ t ht => (by cases ht), fun _ t ht => (by cases ht)⟩
  | cons m ms ih =>
    intro n s
    have hlater : ∀ u ∈ turns settle (n + 1) (settle n s m).1 ms, n < u.pos :=
      fun u hu => le_pos_of_mem_turns ms (n + 1) _ u hu
    rw [turns, drain]
    cases hbody : body n s m with
    | error err =>
      have hfails : Fails body ⟨n, s, m⟩ := ⟨err, hbody⟩
      constructor
      · intro htaken t ht hdue
        exact absurd (htaken t ht hdue) (by simp)
      · intro hclear t ht hdue
        exact absurd hdue (not_due_of_fails hlater hfails hclear t ht)
    | ok r =>
      obtain ⟨s', taken⟩ := r
      have hfails : ¬ Fails body ⟨n, s, m⟩ := by
        rintro ⟨err, herr⟩
        rw [hbody] at herr
        cases herr
      rw [clear_cons hlater hfails]
      cases taken with
      | true =>
        rw [h.takes n s m s' hbody] at hlater ⊢
        rw [← ih (n + 1) s']
        constructor
        · intro htaken
          refine ⟨fun _ => ⟨s', hbody⟩, fun t ht hdue => ?_⟩
          rcases List.mem_cons.mp (htaken t (List.mem_cons_of_mem _ ht) hdue) with heq | hmem
          · exact absurd heq (Nat.ne_of_gt (hlater t ht))
          · exact hmem
        · rintro ⟨_, htail⟩ t ht hdue
          rcases List.mem_cons.mp ht with rfl | ht
          · exact List.mem_cons_self
          · exact List.mem_cons_of_mem _ (htail t ht hdue)
      | false =>
        obtain rfl := h.skips n s m s' hbody
        have hhead : ¬ Takes body ⟨n, s', m⟩ := by
          rintro ⟨s'', htakes⟩
          rw [hbody] at htakes
          cases htakes
        have habsent : n ∉ (drain body (n + 1) s' ms).2.1 :=
          fun hmem => absurd (le_of_mem_drain ms (n + 1) s' n hmem) (by omega)
        by_cases hdue : due ⟨n, s', m⟩
        · constructor
          · intro htaken
            exact absurd (htaken _ List.mem_cons_self hdue) habsent
          · rintro ⟨htakes, _⟩
            exact absurd (htakes hdue) hhead
        · have hsettle : (settle n s' m).1 = s' := by
            refine h.keeps n s' m (Bool.eq_false_iff.mpr fun htrue => ?_)
            exact hdue (h.due n s' m htrue)
          rw [hsettle, ← ih (n + 1) s']
          constructor
          · intro htaken
            exact ⟨fun hd => absurd hd hdue, fun t ht => htaken t (List.mem_cons_of_mem _ ht)⟩
          · rintro ⟨_, htail⟩ t ht hd
            rcases List.mem_cons.mp ht with rfl | ht
            · exact absurd hd hdue
            · exact htail t ht hd

theorem ideal_of_not_due (h : Agrees body settle due) : ∀ (ms : List μ) (n : ℕ) (s : σ),
    (∀ t ∈ turns settle n s ms, ¬ due t) → ideal settle n s ms = s := by
  intro ms
  induction ms with
  | nil => intro n s _; rfl
  | cons m ms ih =>
    intro n s hnone
    have hsettle : (settle n s m).1 = s := by
      refine h.keeps n s m (Bool.eq_false_iff.mpr fun htrue => ?_)
      exact hnone _ List.mem_cons_self (h.due n s m htrue)
    rw [ideal, hsettle]
    refine ih (n + 1) s fun t ht => hnone t ?_
    rw [turns, hsettle]
    exact List.mem_cons_of_mem _ ht

/-- **On a clear batch the loop ends in the ideal state.** -/
theorem drain_eq_ideal (h : Agrees body settle due) : ∀ (ms : List μ) (n : ℕ) (s : σ),
    Clear body due (turns settle n s ms) → (drain body n s ms).1 = ideal settle n s ms := by
  intro ms
  induction ms with
  | nil => intro n s _; rfl
  | cons m ms ih =>
    intro n s hclear
    have hlater : ∀ u ∈ turns settle (n + 1) (settle n s m).1 ms, n < u.pos :=
      fun u hu => le_pos_of_mem_turns ms (n + 1) _ u hu
    rw [drain]
    cases hbody : body n s m with
    | error err =>
      have hnone := not_due_of_fails hlater ⟨err, hbody⟩ hclear
      exact (ideal_of_not_due h (m :: ms) n s hnone).symm
    | ok r =>
      obtain ⟨s', taken⟩ := r
      have hfails : ¬ Fails body ⟨n, s, m⟩ := by
        rintro ⟨err, herr⟩
        rw [hbody] at herr
        cases herr
      obtain ⟨hhead, htail⟩ := (clear_cons hlater hfails).mp hclear
      have hsettle : (settle n s m).1 = s' := by
        cases taken with
        | true => rw [h.takes n s m s' hbody]
        | false =>
          obtain rfl := h.skips n s m s' hbody
          refine h.keeps n s' m (Bool.eq_false_iff.mpr fun htrue => ?_)
          obtain ⟨s'', htakes⟩ := hhead (h.due n s' m htrue)
          rw [hbody] at htakes
          cases htakes
      rw [hsettle] at htail
      rw [ideal, hsettle]
      cases taken with
      | true => exact ih (n + 1) s' htail
      | false => exact ih (n + 1) s' htail

/-- What a message leaves behind when it is taken, and nothing later removes, is there in the end. -/
theorem ideal_of_turn {Q : Turn σ μ → σ → Prop}
    (hleaves : ∀ n s m, (settle n s m).2 = true → Q ⟨n, s, m⟩ (settle n s m).1)
    (hstays : ∀ t n s m, Q t s → Q t (settle n s m).1) : ∀ (ms : List μ) (n : ℕ) (s : σ),
    ∀ t ∈ turns settle n s ms, (settle t.pos t.state t.message).2 = true →
      Q t (ideal settle n s ms) := by
  have hlast : ∀ (ms : List μ) (n : ℕ) (s : σ) t, Q t s → Q t (ideal settle n s ms) := by
    intro ms
    induction ms with
    | nil => intro n s t ht; exact ht
    | cons m ms ih => intro n s t ht; exact ih (n + 1) _ t (hstays t n s m ht)
  intro ms
  induction ms with
  | nil => intro n s t ht; cases ht
  | cons m ms ih =>
    intro n s t ht htaken
    rcases List.mem_cons.mp ht with rfl | ht
    · exact hlast ms (n + 1) _ _ (hleaves n s m htaken)
    · exact ih (n + 1) _ t ht htaken

end Batch
