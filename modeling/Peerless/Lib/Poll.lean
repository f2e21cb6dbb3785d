import Mathlib.Data.List.Nodup
import Mathlib.Data.Finset.Card

/-!
# Asking one party after the other

A loop asks parties whether they agree, one after the other, and keeps account of those that do; it may
pass over a party, and it stops as soon as the account is full.  An answer may depend on everything that
was asked before.

* `poll_eq` — the account is that of the parties that agreed, in their order.
-/

namespace Poll

variable {σ π κ : Type}

section Loop

variable (agree : π → σ → Bool × σ) (full : κ → Bool) (skip : κ → π → Bool) (add : κ → π → κ)

/-- The loop. -/
def poll : List π → κ → σ → κ × σ
  | [], kept, s => (kept, s)
  | p :: ps, kept, s =>
    if full kept then (kept, s)
    else if skip kept p then poll ps kept s
    else
      match agree p s with
      | (true, s') => poll ps (add kept p) s'
      | (false, s') => poll ps kept s'

/-- The parties that are asked, with their answers. -/
def asked : List π → κ → σ → List (π × Bool)
  | [], _, _ => []
  | p :: ps, kept, s =>
    if full kept then []
    else if skip kept p then asked ps kept s
    else
      match agree p s with
      | (true, s') => (p, true) :: asked ps (add kept p) s'
      | (false, s') => (p, false) :: asked ps kept s'

/-- Those that agreed. -/
def agreed (answers : List (π × Bool)) : List π := (answers.filter Prod.snd).map Prod.fst

theorem mem_agreed {answers : List (π × Bool)} {p : π} : p ∈ agreed answers ↔ (p, true) ∈ answers := by
  unfold agreed
  simp only [List.mem_map, List.mem_filter]
  constructor
  · rintro ⟨⟨q, answer⟩, ⟨hmem, rfl⟩, rfl⟩
    exact hmem
  · intro hmem
    exact ⟨(p, true), ⟨hmem, rfl⟩, rfl⟩

theorem turn (p : π) (ps : List π) (kept : κ) (s : σ) :
    (full kept = true ∧ poll agree full skip add (p :: ps) kept s = (kept, s) ∧
      asked agree full skip add (p :: ps) kept s = []) ∨
    (full kept = false ∧ skip kept p = true ∧
      poll agree full skip add (p :: ps) kept s = poll agree full skip add ps kept s ∧
      asked agree full skip add (p :: ps) kept s = asked agree full skip add ps kept s) ∨
    (full kept = false ∧ skip kept p = false ∧ (agree p s).1 = true ∧
      poll agree full skip add (p :: ps) kept s =
        poll agree full skip add ps (add kept p) (agree p s).2 ∧
      asked agree full skip add (p :: ps) kept s =
        (p, true) :: asked agree full skip add ps (add kept p) (agree p s).2) ∨
    (full kept = false ∧ skip kept p = false ∧ (agree p s).1 = false ∧
      poll agree full skip add (p :: ps) kept s = poll agree full skip add ps kept (agree p s).2 ∧
      asked agree full skip add (p :: ps) kept s =
        (p, false) :: asked agree full skip add ps kept (agree p s).2) := by
  rw [poll, asked]
  cases full kept with
  | true => exact Or.inl ⟨rfl, rfl, rfl⟩
  | false =>
    cases skip kept p with
    | true => exact Or.inr (Or.inl ⟨rfl, rfl, rfl, rfl⟩)
    | false =>
      rcases agree p s with ⟨_ | _, s'⟩
      · exact Or.inr (Or.inr (Or.inr ⟨rfl, rfl, rfl, rfl, rfl⟩))
      · exact Or.inr (Or.inr (Or.inl ⟨rfl, rfl, rfl, rfl, rfl⟩))

/-- **The account is that of the parties that agreed.** -/
theorem poll_eq : ∀ (ps : List π) (kept : κ) (s : σ),
    (poll agree full skip add ps kept s).1 =
      (agreed (asked agree full skip add ps kept s)).foldl add kept := by
  intro ps
  induction ps with
  | nil => intro kept s; rfl
  | cons p ps ih =>
    intro kept s
    rcases turn agree full skip add p ps kept s with ⟨_, hpoll, hasked⟩ | ⟨_, _, hpoll, hasked⟩ |
      ⟨_, _, _, hpoll, hasked⟩ | ⟨_, _, _, hpoll, hasked⟩
    all_goals rw [hpoll, hasked]
    · rfl
    · exact ih kept s
    · exact ih (add kept p) _
    · exact ih kept _

/-- **Those that agreed are a sublist of the candidates.** -/
theorem agreed_sublist : ∀ (ps : List π) (kept : κ) (s : σ),
    (agreed (asked agree full skip add ps kept s)).Sublist ps := by
  intro ps
  induction ps with
  | nil => intro kept s; exact List.Sublist.refl []
  | cons p ps ih =>
    intro kept s
    rcases turn agree full skip add p ps kept s with ⟨_, _, hasked⟩ | ⟨_, _, _, hasked⟩ |
      ⟨_, _, _, _, hasked⟩ | ⟨_, _, _, _, hasked⟩
    all_goals rw [hasked]
    · exact List.nil_sublist _
    · exact (ih kept s).cons p
    · exact (ih (add kept p) _).cons_cons p
    · exact (ih kept _).cons p

theorem poll_invariant {I : κ → Prop}
    (hadd : ∀ kept p, I kept → full kept = false → skip kept p = false → I (add kept p)) :
    ∀ (ps : List π) (kept : κ) (s : σ), I kept → I (poll agree full skip add ps kept s).1 := by
  intro ps
  induction ps with
  | nil => intro kept s h; exact h
  | cons p ps ih =>
    intro kept s h
    rcases turn agree full skip add p ps kept s with ⟨_, hpoll, _⟩ | ⟨_, _, hpoll, _⟩ |
      ⟨hfull, hskip, _, hpoll, _⟩ | ⟨_, _, _, hpoll, _⟩
    all_goals rw [hpoll]
    · exact h
    · exact ih kept s h
    · exact ih (add kept p) _ (hadd kept p h hfull hskip)
    · exact ih kept _ h

theorem answer_of_asked : ∀ (ps : List π) (kept : κ) (s : σ) (p : π) (answer : Bool),
    (p, answer) ∈ asked agree full skip add ps kept s → ∃ s', (agree p s').1 = answer := by
  intro ps
  induction ps with
  | nil => intro kept s p answer h; cases h
  | cons q ps ih =>
    intro kept s p answer h
    rcases turn agree full skip add q ps kept s with ⟨_, _, hasked⟩ | ⟨_, _, _, hasked⟩ |
      ⟨_, _, hanswer, _, hasked⟩ | ⟨_, _, hanswer, _, hasked⟩
    all_goals rw [hasked] at h
    · cases h
    · exact ih kept s p answer h
    · rcases List.mem_cons.mp h with heq | h
      · obtain ⟨rfl, rfl⟩ := Prod.mk.inj heq
        exact ⟨s, hanswer⟩
      · exact ih _ _ p answer h
    · rcases List.mem_cons.mp h with heq | h
      · obtain ⟨rfl, rfl⟩ := Prod.mk.inj heq
        exact ⟨s, hanswer⟩
      · exact ih _ _ p answer h

end Loop

/-! ### Accounts that are lists -/

/-- The loop that lists those that agree, up to a number of them. -/
abbrev pollList (agree : π → σ → Bool × σ) (room : ℕ) (ps : List π) (s : σ) : List π × σ :=
  poll agree (fun kept : List π => decide (kept.length ≥ room)) (fun _ _ => false)
    (fun kept p => kept ++ [p]) ps [] s

/-- Whom it asks. -/
abbrev askedList (agree : π → σ → Bool × σ) (room : ℕ) (ps : List π) (s : σ) : List (π × Bool) :=
  asked agree (fun kept : List π => decide (kept.length ≥ room)) (fun _ _ => false)
    (fun kept p => kept ++ [p]) ps [] s

theorem foldl_concat (kept : List π) : ∀ l : List π, l.foldl (fun kept p => kept ++ [p]) kept = kept ++ l := by
  intro l
  induction l generalizing kept with
  | nil => exact (List.append_nil kept).symm
  | cons p l ih => rw [List.foldl_cons, ih, List.append_assoc]; rfl

variable {agree : π → σ → Bool × σ} {room : ℕ} {ps : List π} {s : σ}

theorem pollList_eq : (pollList agree room ps s).1 = agreed (askedList agree room ps s) := by
  rw [pollList, poll_eq, foldl_concat]
  rfl

theorem pollList_length : (pollList agree room ps s).1.length ≤ room := by
  refine poll_invariant agree _ _ _ (I := fun kept : List π => kept.length ≤ room) ?_ ps [] s
    (Nat.zero_le room)
  intro kept p _ hfull _
  rw [decide_eq_false_iff_not] at hfull
  rw [List.length_append, List.length_singleton]
  omega

theorem pollList_sublist : (pollList agree room ps s).1.Sublist ps := by
  rw [pollList_eq]
  exact agreed_sublist agree _ _ _ ps [] s

/-! ### Every pattern of answers -/

/-- The next answer of a script; one party never agrees. -/
def scripted [DecidableEq π] (mute : π) (p : π) (script : List Bool) : Bool × List Bool :=
  if p = mute then (false, script) else (script.headD false, script.tail)

/-- **Any few of the candidates may be those that agree.** -/
theorem exists_script [DecidableEq π] (mute : π) : ∀ (ps kept chosen : List π),
    chosen.Sublist (ps.filter fun p => p ≠ mute) → kept.length + chosen.length ≤ room →
    ∃ script, (poll (scripted mute) (fun kept : List π => decide (kept.length ≥ room))
      (fun _ _ => false) (fun kept p => kept ++ [p]) ps kept script).1 = kept ++ chosen := by
  intro ps
  induction ps with
  | nil =>
    intro kept chosen hchosen _
    rw [List.sublist_nil.mp hchosen, List.append_nil]
    exact ⟨[], rfl⟩
  | cons p ps ih =>
    intro kept chosen hchosen hroom
    by_cases hfull : kept.length ≥ room
    · -- nobody is asked, and nobody was chosen
      have hnone : chosen = [] := List.eq_nil_of_length_eq_zero (by omega)
      refine ⟨[], ?_⟩
      rw [poll, if_pos (decide_eq_true hfull), hnone, List.append_nil]
    · have hopen : ¬decide (kept.length ≥ room) = true := by
        rw [decide_eq_true_eq]
        exact hfull
      by_cases hmute : p = mute
      · rw [List.filter_cons_of_neg (by simpa using hmute)] at hchosen
        obtain ⟨script, hscript⟩ := ih kept chosen hchosen hroom
        refine ⟨script, ?_⟩
        rw [poll, if_neg hopen, if_neg Bool.false_ne_true, scripted, if_pos hmute]
        exact hscript
      · rw [List.filter_cons_of_pos (by simpa using hmute)] at hchosen
        rcases List.sublist_cons_iff.mp hchosen with hrest | ⟨rest, rfl, hrest⟩
        · obtain ⟨script, hscript⟩ := ih kept chosen hrest hroom
          refine ⟨false :: script, ?_⟩
          rw [poll, if_neg hopen, if_neg Bool.false_ne_true, scripted, if_neg hmute]
          exact hscript
        · rw [List.length_cons] at hroom
          obtain ⟨script, hscript⟩ := ih (kept ++ [p]) rest hrest
            (by rw [List.length_append, List.length_singleton]; omega)
          refine ⟨true :: script, ?_⟩
          rw [poll, if_neg hopen, if_neg Bool.false_ne_true, scripted, if_neg hmute]
          rw [List.append_assoc] at hscript
          exact hscript

/-- Between a list and a sublist of it there are lists of every length. -/
theorem exists_between {front back : List π} (h : front.Sublist back) : ∀ n, front.length ≤ n →
    n ≤ back.length → ∃ middle, front.Sublist middle ∧ middle.Sublist back ∧ middle.length = n := by
  induction h with
  | slnil => intro n _ hn; exact ⟨[], List.Sublist.refl [], List.Sublist.refl [], by simp at hn ⊢; omega⟩
  | @cons front back p h ih =>
    intro n hlow hhigh
    by_cases hn : n ≤ back.length
    · obtain ⟨middle, hfront, hback, hlength⟩ := ih n hlow hn
      exact ⟨middle, hfront, hback.cons p, hlength⟩
    · refine ⟨p :: back, h.cons p, List.Sublist.refl _, ?_⟩
      rw [List.length_cons] at hhigh ⊢
      omega
  | @cons_cons front back p h ih =>
    intro n hlow hhigh
    rw [List.length_cons] at hlow hhigh
    obtain ⟨middle, hfront, hback, hlength⟩ := ih (n - 1) (by omega) (by omega)
    refine ⟨p :: middle, hfront.cons_cons p, hback.cons_cons p, ?_⟩
    rw [List.length_cons]
    omega

/-- **Few distinct parties may be counted as many** if a candidate is listed twice. -/
theorem exists_repeated [DecidableEq π] {ps : List π} (hrepeated : ¬ps.Nodup) {n : ℕ} (hn : 2 ≤ n)
    (hlength : n ≤ ps.length) :
    ∃ chosen : List π, chosen.Sublist ps ∧ chosen.length = n ∧ chosen.toFinset.card < n := by
  have hpair : ∃ p, [p, p].Sublist ps := by
    by_contra hnone
    exact hrepeated (List.nodup_iff_sublist.mpr fun p hp => hnone ⟨p, hp⟩)
  obtain ⟨p, hp⟩ := hpair
  obtain ⟨chosen, hsub, hchosen, hlen⟩ := exists_between hp n hn hlength
  refine ⟨chosen, hchosen, hlen, ?_⟩
  refine lt_of_le_of_ne (hlen ▸ List.toFinset_card_le chosen) fun hcard => ?_
  have hnodup : chosen.Nodup :=
    Multiset.coe_nodup.mp (Multiset.toFinset_card_eq_card_iff_nodup.mp (hcard.trans hlen.symm))
  exact List.nodup_iff_sublist.mp hnodup p hsub

end Poll
