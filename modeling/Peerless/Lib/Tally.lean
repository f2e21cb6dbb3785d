import Peerless.Lib.HashMap
import Mathlib.Data.List.Count

/-!
# Tallies

How often each value of a list occurs, and the value a search for the largest count returns.  A tally is
a hash map, so the search meets its entries in an order that is not fixed; among equal counts the last
one met wins.

* `winner_eq_none_iff` — there is no winner exactly if no value reaches the threshold;
* `leads_of_winner`, `winner_lastOf` — the values that win under some order are those that lead.
-/

namespace Tally

open HashMap

variable {α : Type*}

/-! ### The last of the largest -/

def lastLargest (key : α → ℕ) (l : List α) : Option α :=
  l.foldl (fun best a => best.elim (some a) fun b => if key b ≤ key a then some a else some b) none

theorem lastLargest_concat (key : α → ℕ) (l : List α) (a : α) :
    lastLargest key (l ++ [a]) =
      (lastLargest key l).elim (some a) fun b => if key b ≤ key a then some a else some b := by
  rw [lastLargest, List.foldl_append]
  rfl

theorem lastLargest_cases (key : α → ℕ) (l : List α) :
    (l = [] ∧ lastLargest key l = none) ∨
      ∃ a ∈ l, lastLargest key l = some a ∧ ∀ b ∈ l, key b ≤ key a := by
  -- the fold is over prefixes, so the induction takes the last element off
  induction l using List.reverseRecOn with
  | nil => exact Or.inl ⟨rfl, rfl⟩
  | append_singleton l x ih =>
    right
    rw [lastLargest_concat]
    rcases ih with ⟨rfl, hnone⟩ | ⟨a, ha, hsome, hmax⟩
    · refine ⟨x, List.mem_singleton.mpr rfl, by rw [hnone]; rfl, ?_⟩
      intro b hb
      rw [List.mem_singleton.mp hb]
    · rw [hsome]
      show ∃ c ∈ l ++ [x], (if key a ≤ key x then some x else some a) = some c ∧ _
      by_cases hle : key a ≤ key x
      · refine ⟨x, by simp, if_pos hle, ?_⟩
        intro b hb
        rcases List.mem_append.mp hb with hb | hb
        · exact (hmax b hb).trans hle
        · rw [List.mem_singleton.mp hb]
      · refine ⟨a, List.mem_append_left _ ha, if_neg hle, ?_⟩
        intro b hb
        rcases List.mem_append.mp hb with hb | hb
        · exact hmax b hb
        · rw [List.mem_singleton.mp hb]
          omega

variable {l : List α}

theorem lastLargest_eq_none_iff {key : α → ℕ} : lastLargest key l = none ↔ l = [] := by
  rcases lastLargest_cases key l with ⟨hl, hnone⟩ | ⟨a, ha, hsome, _⟩
  · exact ⟨fun _ => hl, fun _ => hnone⟩
  · rw [hsome]
    constructor
    · intro h
      cases h
    · intro h
      rw [h] at ha
      cases ha

variable {a : α}

theorem lastLargest_some {key : α → ℕ} (h : lastLargest key l = some a) :
    a ∈ l ∧ ∀ b ∈ l, key b ≤ key a := by
  rcases lastLargest_cases key l with ⟨_, hnone⟩ | ⟨b, hb, hsome, hmax⟩
  · rw [hnone] at h
    cases h
  · obtain rfl := Option.some.inj (h.symm.trans hsome)
    exact ⟨hb, hmax⟩

/-- A largest element that comes last is the one returned. -/
theorem lastLargest_concat_of_le {key : α → ℕ} (h : ∀ b ∈ l, key b ≤ key a) :
    lastLargest key (l ++ [a]) = some a := by
  rw [lastLargest_concat]
  rcases lastLargest_cases key l with ⟨_, hnone⟩ | ⟨b, hb, hsome, _⟩
  · rw [hnone]
    rfl
  · rw [hsome]
    exact if_pos (h b hb)

/-! ### Counts -/

variable [DecidableEq α]

/-- How often each value occurs. -/
def tally (l : List α) : Map α ℕ :=
  l.foldl (fun counts a => counts.insert a ((counts.lookup a).getD 0 + 1)) ∅

theorem tally_concat (l : List α) (a : α) :
    tally (l ++ [a]) = (tally l).insert a (((tally l).lookup a).getD 0 + 1) := by
  rw [tally, List.foldl_append]
  rfl

theorem lookup_tally (l : List α) (a : α) :
    (tally l).lookup a = if a ∈ l then some (l.count a) else none := by
  induction l using List.reverseRecOn with
  | nil => rfl
  | append_singleton l x ih =>
    rw [tally_concat]
    by_cases hax : a = x
    · subst hax
      have hmem : a ∈ l ++ [a] := List.mem_append_right l (List.mem_singleton.mpr rfl)
      rw [AList.lookup_insert, ih, if_pos hmem, List.count_append, List.count_singleton_self]
      by_cases ha : a ∈ l
      · rw [if_pos ha]
        rfl
      · rw [if_neg ha, List.count_eq_zero_of_not_mem ha]
        rfl
    · rw [AList.lookup_insert_ne hax, ih, List.count_append,
        List.count_eq_zero_of_not_mem (fun h => hax (List.mem_singleton.mp h)), Nat.add_zero]
      simp [hax]

theorem mem_tally {n : ℕ} :
    (⟨a, n⟩ : Sigma fun _ : α => ℕ) ∈ (tally l).entries ↔ a ∈ l ∧ n = l.count a := by
  rw [mem_entries_iff, lookup_tally]
  by_cases ha : a ∈ l
  · simp [ha, eq_comm]
  · simp [ha]

/-! ### The winner -/

/-- An order in which the entries are met. -/
def IsOrder (order : List (Sigma fun _ : α => ℕ) → List (Sigma fun _ : α => ℕ)) : Prop :=
  ∀ es, (order es).Perm es

/-- The value with the largest count among those that reach the threshold. -/
def winner (order : List (Sigma fun _ : α => ℕ) → List (Sigma fun _ : α => ℕ)) (threshold : ℕ)
    (l : List α) : Option α :=
  (lastLargest Sigma.snd ((order (tally l).entries).filter fun e => e.2 ≥ threshold)).map Sigma.fst

/-- The value reaches the threshold, and no other one occurs more often. -/
def Leads (threshold : ℕ) (l : List α) (a : α) : Prop :=
  threshold ≤ l.count a ∧ ∀ b, l.count b ≤ l.count a

variable {order : List (Sigma fun _ : α => ℕ) → List (Sigma fun _ : α => ℕ)} {threshold : ℕ} {l : List α}

theorem mem_candidates (horder : IsOrder order) (hpos : 0 < threshold) {n : ℕ} :
    (⟨a, n⟩ : Sigma fun _ : α => ℕ) ∈ (order (tally l).entries).filter (fun e => e.2 ≥ threshold) ↔
      threshold ≤ l.count a ∧ n = l.count a := by
  rw [List.mem_filter, (horder _).mem_iff, mem_tally]
  simp only [ge_iff_le, decide_eq_true_eq]
  constructor
  · rintro ⟨⟨_, rfl⟩, hn⟩
    exact ⟨hn, rfl⟩
  · rintro ⟨hn, rfl⟩
    exact ⟨⟨List.count_pos_iff.mp (by omega), rfl⟩, hn⟩

/-- **There is no winner exactly if no value reaches the threshold.** -/
theorem winner_eq_none_iff (horder : IsOrder order) (hpos : 0 < threshold) :
    winner order threshold l = none ↔ ∀ a, l.count a < threshold := by
  rw [winner, Option.map_eq_none_iff, lastLargest_eq_none_iff, List.eq_nil_iff_forall_not_mem]
  constructor
  · intro h a
    by_contra hge
    exact h ⟨a, l.count a⟩ ((mem_candidates horder hpos).mpr ⟨not_lt.mp hge, rfl⟩)
  · rintro h ⟨a, n⟩ hmem
    exact absurd ((mem_candidates horder hpos).mp hmem).1 (not_le.mpr (h a))

theorem leads_of_winner (horder : IsOrder order) (hpos : 0 < threshold)
    (h : winner order threshold l = some a) : Leads threshold l a := by
  obtain ⟨⟨a', n⟩, hlargest, rfl⟩ := Option.map_eq_some_iff.mp h
  obtain ⟨hmem, hmax⟩ := lastLargest_some hlargest
  obtain ⟨hreach, rfl⟩ := (mem_candidates horder hpos).mp hmem
  refine ⟨hreach, fun b => ?_⟩
  by_cases hb : threshold ≤ l.count b
  · exact hmax ⟨b, l.count b⟩ ((mem_candidates horder hpos).mpr ⟨hb, rfl⟩)
  · exact (not_le.mp hb).le.trans hreach

/-- The order that meets one entry last. -/
def lastOf (e : Sigma fun _ : α => ℕ) (es : List (Sigma fun _ : α => ℕ)) :
    List (Sigma fun _ : α => ℕ) :=
  if e ∈ es then es.erase e ++ [e] else es

theorem isOrder_lastOf (e : Sigma fun _ : α => ℕ) : IsOrder (lastOf e) := by
  intro es
  rw [lastOf]
  by_cases he : e ∈ es
  · rw [if_pos he]
    exact (List.perm_append_singleton e _).trans (List.perm_cons_erase he).symm
  · rw [if_neg he]

/-- A leading value wins if its entry is met last. -/
theorem winner_lastOf (hpos : 0 < threshold) (h : Leads threshold l a) :
    winner (lastOf ⟨a, l.count a⟩) threshold l = some a := by
  have hmem : (⟨a, l.count a⟩ : Sigma fun _ : α => ℕ) ∈ (tally l).entries :=
    mem_tally.mpr ⟨List.count_pos_iff.mp (Nat.lt_of_lt_of_le hpos h.1), rfl⟩
  rw [winner, lastOf, if_pos hmem, List.filter_append,
    show [(⟨a, l.count a⟩ : Sigma fun _ : α => ℕ)].filter (fun e => e.2 ≥ threshold) =
      [⟨a, l.count a⟩] from List.filter_cons_of_pos (by simpa using h.1),
    lastLargest_concat_of_le]
  · rfl
  · rintro ⟨b, n⟩ hb
    obtain ⟨_, rfl⟩ := mem_tally.mp (List.mem_of_mem_erase (List.mem_filter.mp hb).1)
    exact h.2 b

theorem count_add_count_le {b : α} (hab : a ≠ b) (l : List α) : l.count a + l.count b ≤ l.length := by
  induction l with
  | nil => simp
  | cons x l ih =>
    rw [List.count_cons, List.count_cons, List.length_cons]
    by_cases hxa : x = a
    · subst hxa
      simp only [beq_self_eq_true, if_true, beq_iff_eq, if_neg hab]
      omega
    · simp only [beq_iff_eq, if_neg hxa]
      split <;> omega

/-- **A threshold of more than half the list leaves one leader.** -/
theorem Leads.eq_of_majority (hmajority : l.length < 2 * threshold) {b : α} (ha : Leads threshold l a)
    (hb : Leads threshold l b) : a = b := by
  by_contra hab
  have hle := count_add_count_le hab l
  have hreach := ha.1
  have hreach' := hb.1
  omega

theorem Leads.perm {l' : List α} (hl : l'.Perm l) : Leads threshold l' a ↔ Leads threshold l a := by
  unfold Leads
  rw [hl.count_eq a]
  constructor
  · rintro ⟨hreach, hmax⟩
    exact ⟨hreach, fun b => (hl.count_eq b) ▸ hmax b⟩
  · rintro ⟨hreach, hmax⟩
    exact ⟨hreach, fun b => (hl.count_eq b).symm ▸ hmax b⟩

end Tally
