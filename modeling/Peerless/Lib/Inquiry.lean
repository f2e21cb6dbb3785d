import Mathlib.Data.List.Nodup

/-!
# Asking a world for answers

A program that asks a world it knows nothing about: every answer may depend on everything asked before.
A computation that fails has still asked, so the world is kept next to the failure.

* `gather` — a loop that asks one party after the other until it has enough answers, and keeps the
  answers whose key is new.
-/

namespace Inquiry

variable {ε σ α β κ π : Type}

/-! ### Computations that ask -/

abbrev Talk (ε σ α : Type) := ExceptT ε (StateM σ) α

/-- What a computation returns in a world, and the world it leaves. -/
def answer (x : Talk ε σ α) (s : σ) : Except ε α × σ := x.run.run s

theorem answer_bind_ok {x : Talk ε σ α} {f : α → Talk ε σ β} {b : β} {s s' : σ} :
    answer (x >>= f) s = (.ok b, s') ↔
      ∃ a s₁, answer x s = (.ok a, s₁) ∧ answer (f a) s₁ = (.ok b, s') := by
  have hbind : answer (x >>= f) s = match answer x s with
      | (.ok a, s₁) => answer (f a) s₁
      | (.error err, s₁) => (.error err, s₁) := by
    show ((ExceptT.bindCont f (x.run.run s).1).run (x.run.run s).2) = _
    unfold answer
    rcases x.run.run s with ⟨_ | a, s₁⟩
    · rfl
    · rfl
  rw [hbind]
  rcases answer x s with ⟨_ | a, s₁⟩
  · constructor
    · intro h
      cases h
    · rintro ⟨_, _, h, _⟩
      cases h
  · constructor
    · intro h
      exact ⟨a, s₁, rfl, h⟩
    · rintro ⟨_, _, h, hrest⟩
      cases h
      exact hrest

theorem ok_of_map {x : Except ε α × σ} {f : α → β} {b : β} (h : x.1.toOption.map f = some b) :
    ∃ a s', x = (.ok a, s') ∧ f a = b := by
  obtain ⟨_ | a, s'⟩ := x
  · cases h
  · exact ⟨a, s', rfl, Option.some.inj h⟩

/-- Of answers with different names, a party whose answers all have one name gave one at most. -/
theorem count_le_one [DecidableEq π] {name : π × α → κ} {p : π} {n : κ} : ∀ l : List (π × α),
    (l.map name).Nodup → (∀ x ∈ l, x.1 = p → name x = n) → (l.map Prod.fst).count p ≤ 1 := by
  intro l
  induction l with
  | nil => intro _ _; exact Nat.zero_le 1
  | cons x l ih =>
    intro hnodup hnamed
    rw [List.map_cons, List.nodup_cons] at hnodup
    by_cases hx : x.1 = p
    · have hrest : p ∉ l.map Prod.fst := by
        intro hp
        obtain ⟨y, hy, hyp⟩ := List.mem_map.mp hp
        apply hnodup.1
        rw [hnamed x List.mem_cons_self hx, ← hnamed y (List.mem_cons_of_mem x hy) hyp]
        exact List.mem_map_of_mem hy
      have hone : List.count p ((x :: l).map Prod.fst) = 1 := by
        rw [List.map_cons, hx, List.count_cons_self, List.count_eq_zero_of_not_mem hrest]
      exact Nat.le_of_eq hone
    · rw [List.map_cons, List.count_cons_of_ne hx]
      exact ih hnodup.2 fun y hy => hnamed y (List.mem_cons_of_mem x hy)

/-! ### Gathering answers with different keys -/

variable [DecidableEq κ] (ask : π → σ → Option α × σ) (key : α → κ) (required : ℕ)

/-- The loop, with the answers kept so far next to the parties that gave them. -/
def gather : List π → List (π × α) → σ → List (π × α) × σ
  | [], kept, s => (kept, s)
  | p :: ps, kept, s =>
    if kept.length ≥ required then (kept, s)
    else
      match ask p s with
      | (none, s') => gather ps kept s'
      | (some a, s') =>
        if key a ∈ kept.map (fun x => key x.2) then gather ps kept s'
        else gather ps (kept ++ [(p, a)]) s'

theorem gather_cons (p : π) (ps : List π) (kept : List (π × α)) (s : σ) :
    gather ask key required (p :: ps) kept s = (kept, s) ∨
    (∃ s', gather ask key required (p :: ps) kept s = gather ask key required ps kept s') ∨
    ∃ a s', (ask p s).1 = some a ∧ key a ∉ kept.map (fun x => key x.2) ∧
      gather ask key required (p :: ps) kept s = gather ask key required ps (kept ++ [(p, a)]) s' := by
  rw [gather]
  by_cases hfull : kept.length ≥ required
  · rw [if_pos hfull]
    exact Or.inl rfl
  · rw [if_neg hfull]
    rcases ask p s with ⟨_ | a, s'⟩
    · exact Or.inr (Or.inl ⟨s', rfl⟩)
    · dsimp only
      by_cases hseen : key a ∈ kept.map fun x => key x.2
      · rw [if_pos hseen]
        exact Or.inr (Or.inl ⟨s', rfl⟩)
      · rw [if_neg hseen]
        exact Or.inr (Or.inr ⟨a, s', rfl, hseen, rfl⟩)

theorem keys_nodup : ∀ (ps : List π) (kept : List (π × α)) (s : σ),
    (kept.map fun x => key x.2).Nodup →
      ((gather ask key required ps kept s).1.map fun x => key x.2).Nodup := by
  intro ps
  induction ps with
  | nil => intro kept s hkept; exact hkept
  | cons p ps ih =>
    intro kept s hkept
    rcases gather_cons ask key required p ps kept s with
      hgather | ⟨s', hgather⟩ | ⟨a, s', _, hnew, hgather⟩
    · rw [hgather]
      exact hkept
    · rw [hgather]
      exact ih kept s' hkept
    · rw [hgather]
      apply ih
      rw [List.map_append, List.map_singleton]
      exact List.Nodup.append hkept (List.nodup_singleton _)
        (List.disjoint_singleton.mpr hnew)

/-- Every party that is kept was asked, in the order of the list. -/
theorem parties_sublist : ∀ (ps : List π) (kept : List (π × α)) (s : σ), ∃ asked,
    (gather ask key required ps kept s).1.map Prod.fst = kept.map Prod.fst ++ asked ∧
      asked.Sublist ps := by
  intro ps
  induction ps with
  | nil => intro kept s; exact ⟨[], (List.append_nil _).symm, List.Sublist.refl []⟩
  | cons p ps ih =>
    intro kept s
    rcases gather_cons ask key required p ps kept s with
      hgather | ⟨s', hgather⟩ | ⟨a, s', _, _, hgather⟩
    · rw [hgather]
      exact ⟨[], (List.append_nil _).symm, List.nil_sublist _⟩
    · rw [hgather]
      obtain ⟨asked, hasked, hsub⟩ := ih kept s'
      exact ⟨asked, hasked, hsub.cons p⟩
    · rw [hgather]
      obtain ⟨asked, hasked, hsub⟩ := ih (kept ++ [(p, a)]) s'
      refine ⟨p :: asked, ?_, hsub.cons_cons p⟩
      rw [hasked, List.map_append, List.append_assoc]
      rfl

/-- **Everything kept is an answer**, or was kept before. -/
theorem gathered_answers : ∀ (ps : List π) (kept : List (π × α)) (s : σ),
    ∀ x ∈ (gather ask key required ps kept s).1, x ∈ kept ∨ ∃ s', (ask x.1 s').1 = some x.2 := by
  intro ps
  induction ps with
  | nil => intro kept s x hx; exact Or.inl hx
  | cons p ps ih =>
    intro kept s x hx
    rcases gather_cons ask key required p ps kept s with
      hgather | ⟨s', hgather⟩ | ⟨a, s', hask, _, hgather⟩
    · rw [hgather] at hx
      exact Or.inl hx
    · rw [hgather] at hx
      exact ih kept s' x hx
    · rw [hgather] at hx
      rcases ih _ s' x hx with hkept | hanswered
      · rcases List.mem_append.mp hkept with hold | hnew
        · exact Or.inl hold
        · obtain rfl := List.mem_singleton.mp hnew
          exact Or.inr ⟨s, hask⟩
      · exact Or.inr hanswered

end Inquiry
