import Peerless.Lib.Runs
import Mathlib.Data.List.Pairwise
import Mathlib.Data.Set.Insert

/-!
# Interleavings of threads over a shared state

A pool is a shared state and the threads started so far, each at its own program point.  A step starts
a thread for a request or lets one thread take its next atomic section; the label names the thread and
carries what the environment answers, so a list of labels is a schedule.

* `inv_step` — **the rule for interleavings**: it is enough that the thread that moves keeps its own
  part and disturbs no other thread.
-/

namespace Threads

variable {σ τ ρ ε κ : Type*}

structure Pool (σ τ : Type*) where
  shared : σ
  threads : List τ

inductive Act (ρ ε : Type*) where
  | arrive (request : ρ)
  | advance (i : ℕ) (env : ε)

variable (start : ρ → τ) (next : ε → σ → τ → Option (σ × τ))

/-- One step of a schedule.  A thread whose `next` is `none` has returned. -/
def step (p : Pool σ τ) : Act ρ ε → Option (Pool σ τ)
  | .arrive request => some ⟨p.shared, p.threads ++ [start request]⟩
  | .advance i env =>
    match p.threads[i]? with
    | none => none
    | some t => (next env p.shared t).map fun r => ⟨r.1, p.threads.set i r.2⟩

variable {start next}

variable {p : Pool σ τ}

theorem step_cases {p' : Pool σ τ} {a : Act ρ ε} (h : step start next p a = some p') :
    (∃ request, a = .arrive request ∧ p' = ⟨p.shared, p.threads ++ [start request]⟩) ∨
    (∃ (i : ℕ) (env : ε) (t : τ) (s' : σ) (t' : τ), a = .advance i env ∧ p.threads[i]? = some t ∧
      next env p.shared t = some (s', t') ∧ p' = ⟨s', p.threads.set i t'⟩) := by
  cases a with
  | arrive request => exact .inl ⟨request, rfl, (Option.some.inj h).symm⟩
  | advance i env =>
    rw [step] at h
    cases ht : p.threads[i]? with
    | none => rw [ht] at h; simp at h
    | some t =>
      rw [ht] at h
      obtain ⟨r, hr, hp⟩ := Option.map_eq_some_iff.mp h
      exact .inr ⟨i, env, t, r.1, r.2, rfl, ht.symm ▸ rfl, hr, hp.symm⟩

/-! ### Threads after a step -/

variable {ts : List τ} {t : τ}

theorem getElem?_arrive {u : τ} {j : ℕ} (h : (ts ++ [t])[j]? = some u) :
    ts[j]? = some u ∨ (j = ts.length ∧ u = t) := by
  rcases Nat.lt_or_ge j ts.length with hj | hj
  · rw [List.getElem?_append_left hj] at h
    exact .inl h
  · rw [List.getElem?_append_right hj, List.getElem?_singleton] at h
    split at h
    · exact .inr ⟨by omega, (Option.some.inj h).symm⟩
    · cases h

variable {i : ℕ}

theorem getElem?_advance {u : τ} {j : ℕ} (h : (ts.set i t)[j]? = some u) :
    (j = i ∧ u = t) ∨ (j ≠ i ∧ ts[j]? = some u) := by
  by_cases hij : i = j
  · subst hij
    rw [List.getElem?_set_self'] at h
    obtain ⟨_, _, hu⟩ := Option.map_eq_some_iff.mp h
    exact .inl ⟨rfl, hu.symm⟩
  · rw [List.getElem?_set_ne hij] at h
    exact .inr ⟨fun h' => hij h'.symm, h⟩

/-- The thread that moves, between the threads before it and those after it. -/
theorem exists_split (h : ts[i]? = some t) :
    ∃ before later, ts = before ++ t :: later ∧ ∀ u, ts.set i u = before ++ u :: later := by
  obtain ⟨hi, rfl⟩ := List.getElem?_eq_some_iff.mp h
  refine ⟨ts.take i, ts.drop (i + 1), ?_, fun u => List.set_eq_take_append_cons_drop.trans (if_pos hi)⟩
  rw [← List.drop_eq_getElem_cons hi, List.take_append_drop]

/-! ### The invariant rule -/

/-- An invariant of a pool: of the shared state, of each thread, and of each pair of threads. -/
structure Inv (J : σ → Prop) (K : σ → τ → Prop) (D : τ → τ → Prop) (p : Pool σ τ) : Prop where
  shared : J p.shared
  each : ∀ (i : ℕ) t, p.threads[i]? = some t → K p.shared t
  apart : ∀ (i j : ℕ) t u, i ≠ j → p.threads[i]? = some t → p.threads[j]? = some u → D t u

variable {J : σ → Prop} {K : σ → τ → Prop} {D : τ → τ → Prop}

/-- A condition on the thread that moves, the shared state and the answers it meets. -/
def locally (ok : ε → σ → τ → Bool) (p : Pool σ τ) : Act ρ ε → Bool
  | .arrive _ => true
  | .advance i env => p.threads[i]?.all (ok env p.shared)

theorem ok_of_locally {ok : ε → σ → τ → Bool} {env : ε}
    (h : locally ok p (.advance i env : Act ρ ε) = true) (ht : p.threads[i]? = some t) :
    ok env p.shared t = true := by
  rw [locally, ht] at h
  exact h

theorem locally_mono {ok ok' : ε → σ → τ → Bool} (h : ∀ env s t, ok env s t = true → ok' env s t = true)
    {a : Act ρ ε} (ha : locally ok p a = true) : locally ok' p a = true := by
  cases a with
  | arrive request => rfl
  | advance i env =>
    rw [locally] at ha ⊢
    cases ht : p.threads[i]? with
    | none => rfl
    | some t =>
      rw [ht] at ha
      exact h env p.shared t ha

theorem inv_nil {s : σ} (h : J s) : Inv J K D ⟨s, []⟩ :=
  ⟨h, fun _ _ ht => by simp at ht, fun _ _ _ _ _ ht => by simp at ht⟩

/-- **The rule for interleavings.**  A new thread is compatible with every thread; the thread that
moves keeps the shared part and its own, and leaves every other thread's part intact. -/
theorem inv_step (ok : Pool σ τ → Act ρ ε → Prop) (hsymm : ∀ t u, D t u → D u t)
    (hnew : ∀ s request, J s → K s (start request)) (hapart : ∀ request u, D (start request) u)
    (hmove : ∀ p i env t s' t', Inv J K D p → ok p (.advance i env) → p.threads[i]? = some t →
      next env p.shared t = some (s', t') → J s' ∧ K s' t' ∧
        ∀ j u, j ≠ i → p.threads[j]? = some u → K s' u ∧ D t' u) {p' : Pool σ τ} {a : Act ρ ε}
    (hp : Inv J K D p) (hok : ok p a) (hstep : step start next p a = some p') : Inv J K D p' := by
  rcases step_cases hstep with ⟨request, rfl, rfl⟩ | ⟨i, env, t, s', t', rfl, ht, hnext, rfl⟩
  · refine ⟨hp.shared, ?_, ?_⟩
    · intro j u hu
      rcases getElem?_arrive hu with hu | ⟨_, rfl⟩
      · exact hp.each j u hu
      · exact hnew _ _ hp.shared
    · intro j k u v hjk hu hv
      rcases getElem?_arrive hu with hu | ⟨rfl, rfl⟩
      · rcases getElem?_arrive hv with hv | ⟨_, rfl⟩
        · exact hp.apart j k u v hjk hu hv
        · exact hsymm _ _ (hapart _ _)
      · exact hapart _ _
  · obtain ⟨hJ, hK, hother⟩ := hmove p i env t s' t' hp hok ht hnext
    refine ⟨hJ, ?_, ?_⟩
    · intro j u hu
      rcases getElem?_advance hu with ⟨_, rfl⟩ | ⟨hj, hu⟩
      · exact hK
      · exact (hother j u hj hu).1
    · intro j k u v hjk hu hv
      rcases getElem?_advance hu with ⟨rfl, rfl⟩ | ⟨hj, huOld⟩
      · rcases getElem?_advance hv with ⟨rfl, _⟩ | ⟨hk, hvOld⟩
        · exact absurd rfl hjk
        · exact (hother k v hk hvOld).2
      · rcases getElem?_advance hv with ⟨rfl, rfl⟩ | ⟨_, hvOld⟩
        · exact hsymm _ _ (hother j u hj huOld).2
        · exact hp.apart j k u v hjk huOld hvOld

/-- **Threads that hold different keys hold no key twice.** -/
theorem nodup_filterMap {f : τ → Option κ}
    (h : ∀ (i j : ℕ) t u, i ≠ j → ts[i]? = some t → ts[j]? = some u →
      ∀ k, f t = some k → f u ≠ some k) : (ts.filterMap f).Nodup := by
  refine List.pairwise_filterMap.mpr (List.pairwise_iff_getElem.mpr ?_)
  intro i j hi hj hij k hk l hl hkl
  subst hkl
  exact h i j _ _ (by omega) (List.getElem?_eq_getElem hi) (List.getElem?_eq_getElem hj) k hk hl

/-! ### What the threads hold between them -/

section Held

variable {α : Type*} {f : τ → List α}

/-- What some thread holds. -/
def Held (f : τ → List α) (ts : List τ) : Set α := {a | ∃ t ∈ ts, a ∈ f t}

theorem held_nil : Held f ([] : List τ) = ∅ := by
  refine Set.eq_empty_of_forall_notMem ?_
  rintro a ⟨t, ht, _⟩
  cases ht

theorem held_arrive (h : f t = []) : Held f (ts ++ [t]) = Held f ts := by
  ext a
  constructor
  · rintro ⟨u, hu, ha⟩
    rcases List.mem_append.mp hu with hu | hu
    · exact ⟨u, hu, ha⟩
    · rw [List.mem_singleton.mp hu, h] at ha
      cases ha
  · rintro ⟨u, hu, ha⟩
    exact ⟨u, List.mem_append_left _ hu, ha⟩

variable {a : α}

theorem mem_held (ht : ts[i]? = some t) (ha : a ∈ f t) :
    a ∈ Held f ts :=
  ⟨t, List.mem_of_getElem? ht, ha⟩

variable {t' : τ}

/-- A thread that moves adds what it holds after the step. -/
theorem held_of_advance (h : a ∈ Held f (ts.set i t')) : a ∈ Held f ts ∨ a ∈ f t' := by
  obtain ⟨u, hu, ha⟩ := h
  rcases List.mem_or_eq_of_mem_set hu with hu | rfl
  · exact Or.inl ⟨u, hu, ha⟩
  · exact Or.inr ha

theorem held_advance (ht : ts[i]? = some t) (h : a ∈ Held f ts) : a ∈ Held f (ts.set i t') ∨ a ∈ f t := by
  obtain ⟨u, hu, ha⟩ := h
  obtain ⟨before, later, hts, hset⟩ := exists_split ht
  rw [hts] at hu
  rw [hset]
  rcases List.mem_append.mp hu with hu | hu
  · exact Or.inl ⟨u, List.mem_append_left _ hu, ha⟩
  · rcases List.mem_cons.mp hu with rfl | hu
    · exact Or.inr ha
    · exact Or.inl ⟨u, List.mem_append_right _ (List.mem_cons_of_mem _ hu), ha⟩

theorem held_advance_new (ht : ts[i]? = some t) (h : a ∈ f t') : a ∈ Held f (ts.set i t') := by
  obtain ⟨before, later, _, hset⟩ := exists_split ht
  rw [hset]
  exact ⟨t', List.mem_append_right _ List.mem_cons_self, h⟩

theorem held_advance_eq (ht : ts[i]? = some t) (h : f t' = f t) : Held f (ts.set i t') = Held f ts := by
  ext a
  constructor
  · intro ha
    rcases held_of_advance ha with ha | ha
    · exact ha
    · rw [h] at ha
      exact mem_held ht ha
  · intro ha
    have hkept : a ∈ Held f (ts.set i t') ∨ a ∈ f t := held_advance ht ha
    rcases hkept with ha | ha
    · exact ha
    · rw [← h] at ha
      exact held_advance_new ht ha

end Held

end Threads
