import Mathlib.Tactic.Common

/-!
# Runs of a step function

A system is a partial step function `step : σ → α → Option σ`: the label `α` carries every choice
the environment makes, `none` means that the labelled step is not possible in the state.

* `run_invariant` — **the one induction over runs**: what a step that meets the condition keeps,
  every run whose steps meet it keeps.
-/

namespace Runs

variable {σ α : Type*}

/-- The state after the labels, if every step is possible. -/
def run (step : σ → α → Option σ) : σ → List α → Option σ
  | s, [] => some s
  | s, a :: as =>
    match step s a with
    | none => none
    | some s' => run step s' as

/-- Every step taken along the labels meets `ok` in the state before it. -/
def Meets (step : σ → α → Option σ) (ok : σ → α → Prop) : σ → List α → Prop
  | _, [] => True
  | s, a :: as => ok s a ∧ ∀ s', step s a = some s' → Meets step ok s' as

variable {step : σ → α → Option σ} {ok : σ → α → Prop}

variable {s : σ} {as : List α}

theorem run_cons {t : σ} {a : α} (h : run step s (a :: as) = some t) :
    ∃ s', step s a = some s' ∧ run step s' as = some t := by
  rw [run] at h
  cases hs : step s a with
  | none => rw [hs] at h; simp at h
  | some s' => rw [hs] at h; exact ⟨s', rfl, h⟩

theorem run_of_step {s' : σ} {a : α} (h : step s a = some s') :
    run step s (a :: as) = run step s' as := by
  rw [run, h]

theorem run_append : ∀ (as bs : List α) (s t u : σ), run step s as = some t →
    run step t bs = some u → run step s (as ++ bs) = some u := by
  intro as
  induction as with
  | nil =>
    intro bs s t u hs ht
    rw [run, Option.some.injEq] at hs
    rw [hs]
    exact ht
  | cons a as ih =>
    intro bs s t u hs ht
    obtain ⟨s', hstep, hrest⟩ := run_cons hs
    rw [List.cons_append, run, hstep]
    exact ih bs s' t u hrest ht

theorem run_invariant {I : σ → Prop}
    (hstep : ∀ s a s', I s → ok s a → step s a = some s' → I s') :
    ∀ (as : List α) (s t : σ), I s → Meets step ok s as → run step s as = some t → I t := by
  intro as
  induction as with
  | nil =>
    intro s t hinv _ hrun
    rw [run, Option.some.injEq] at hrun
    rwa [← hrun]
  | cons a as ih =>
    intro s t hinv hmeets hrun
    obtain ⟨s', hs, hrest⟩ := run_cons hrun
    exact ih s' t (hstep s a s' hinv hmeets.1 hs) (hmeets.2 s' hs) hrest

/-- The steps that meet a computable condition. -/
def guarded (step : σ → α → Option σ) (ok : σ → α → Bool) (s : σ) (a : α) : Option σ :=
  if ok s a then step s a else none

/-- **A guarded run is a run whose steps meet the condition**, so both can be had from one
evaluation. -/
theorem run_guarded {ok : σ → α → Bool} : ∀ (as : List α) (s t : σ),
    run (guarded step ok) s as = some t →
      Meets step (fun s a => ok s a = true) s as ∧ run step s as = some t := by
  intro as
  induction as with
  | nil => intro s t h; exact ⟨trivial, h⟩
  | cons a as ih =>
    intro s t h
    obtain ⟨s', hstep, hrest⟩ := run_cons h
    unfold guarded at hstep
    split at hstep
    · rename_i hok
      obtain ⟨hmeets, hrun⟩ := ih s' t hrest
      refine ⟨⟨hok, ?_⟩, by rw [run_of_step hstep, hrun]⟩
      intro s'' hs''
      rw [hstep] at hs''
      rw [← Option.some.inj hs'']
      exact hmeets
    · cases hstep

theorem Meets.and_forall {Q : α → Prop} : ∀ (as : List α) (s : σ), Meets step ok s as →
    (∀ a ∈ as, Q a) → Meets step (fun s a => ok s a ∧ Q a) s as := by
  intro as
  induction as with
  | nil => intro s _ _; trivial
  | cons a as ih =>
    intro s hmeets hall
    refine ⟨⟨hmeets.1, hall a List.mem_cons_self⟩, fun s' hs' => ?_⟩
    exact ih s' (hmeets.2 s' hs') fun x hx => hall x (List.mem_cons_of_mem _ hx)

theorem meets_true : ∀ (as : List α) (s : σ), Meets step (fun _ _ => True) s as := by
  intro as
  induction as with
  | nil => intro s; trivial
  | cons a as ih => intro s; exact ⟨trivial, fun s' _ => ih s'⟩

/-- Whether the steps meet a computable condition can be computed. -/
instance Meets.decidable [∀ s a, Decidable (ok s a)] :
    ∀ (s : σ) (as : List α), Decidable (Meets step ok s as)
  | _, [] => .isTrue trivial
  | s, a :: as =>
    match h : step s a with
    | none => decidable_of_iff (ok s a) ⟨fun hok => ⟨hok, fun s' hs' => (by rw [h] at hs'; cases hs')⟩,
        And.left⟩
    | some s' =>
      have : Decidable (Meets step ok s' as) := Meets.decidable s' as
      decidable_of_iff (ok s a ∧ Meets step ok s' as) ⟨fun hmeets => ⟨hmeets.1, fun s'' hs'' => (by
        rw [h] at hs''; rw [← Option.some.inj hs'']; exact hmeets.2)⟩,
        fun hmeets => ⟨hmeets.1, hmeets.2 s' h⟩⟩

/-- The invariant rule without a condition on the steps. -/
theorem run_invariant' {I : σ → Prop} (hstep : ∀ s a s', I s → step s a = some s' → I s') {t : σ}
    (hinv : I s) (hrun : run step s as = some t) : I t :=
  run_invariant (fun s a s' h _ hs => hstep s a s' h hs) as s t hinv (meets_true as s) hrun

end Runs
