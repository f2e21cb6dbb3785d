import Mathlib.Data.List.AList
import Mathlib.Data.List.Nodup
import Mathlib.Data.Finset.Card
import Mathlib.Algebra.GroupWithZero.Nat

/-!
# Finite maps

A hash map is modelled by an association list without repeated keys (`AList`).  `AList` brings
lookup, insertion and removal with their laws; this file adds `retain`, the number and the list of the
values, sums over them, and the bag of a map of lists.
-/

namespace HashMap

variable {κ ν α : Type*}

abbrev Map (κ ν : Type*) := AList fun _ : κ => ν

def size (m : Map κ ν) : ℕ := m.entries.length

def vals (m : Map κ ν) : List ν := m.entries.map Sigma.snd

/-- Keep the entries whose key and value pass `p`. -/
def retain (p : κ → ν → Bool) (m : Map κ ν) : Map κ ν where
  entries := m.entries.filter fun e => p e.1 e.2
  nodupKeys := m.nodupKeys.sublist List.filter_sublist

theorem size_retain_le (p : κ → ν → Bool) (m : Map κ ν) : size (retain p m) ≤ size m :=
  List.length_filter_le _ _

variable [DecidableEq κ]

variable {m : Map κ ν} {k : κ} {v : ν}

theorem mem_entries_iff :
    (⟨k, v⟩ : Sigma fun _ : κ => ν) ∈ m.entries ↔ m.lookup k = some v :=
  (AList.mem_lookup_iff).symm

theorem mem_vals_of_lookup (h : m.lookup k = some v) :
    v ∈ vals m :=
  List.mem_map.mpr ⟨⟨k, v⟩, mem_entries_iff.mpr h, rfl⟩

/-- **Taking entries out one after the other** keeps what taking one out keeps, if each is there. -/
theorem foldl_erase_invariant {σ β : Type*} {I : σ → Prop} {drop : σ → κ × β → σ} (view : σ → Map κ ν)
    (tag : ν → β) (herase : ∀ s e, view (drop s e) = (view s).erase e.1)
    (hdrop : ∀ s k v, I s → (view s).lookup k = some v → I (drop s (k, tag v))) :
    ∀ (entries : List (κ × β)) (s : σ), I s → (entries.map Prod.fst).Nodup →
      (∀ e ∈ entries, ∃ v, (view s).lookup e.1 = some v ∧ tag v = e.2) → I (entries.foldl drop s) := by
  intro entries
  induction entries with
  | nil => intro s hs _ _; exact hs
  | cons e entries ih =>
    intro s hs hnodup hstored
    obtain ⟨v, hv, htag⟩ := hstored e List.mem_cons_self
    obtain ⟨k, b⟩ := e
    obtain rfl : tag v = b := htag
    rw [List.map_cons, List.nodup_cons] at hnodup
    refine ih _ (hdrop s k v hs hv) hnodup.2 fun e' he' => ?_
    obtain ⟨v', hv', htag'⟩ := hstored e' (List.mem_cons_of_mem _ he')
    refine ⟨v', ?_, htag'⟩
    rw [herase, AList.lookup_erase_ne, hv']
    intro heq
    exact hnodup.1 (List.mem_map.mpr ⟨e', he', heq⟩)

theorem lookup_retain (p : κ → ν → Bool) (m : Map κ ν) (k : κ) :
    (retain p m).lookup k = (m.lookup k).filter (p k) := by
  ext v
  rw [← mem_entries_iff, Option.filter_eq_some_iff, ← mem_entries_iff]
  simp [retain, List.mem_filter]

theorem lookup_retain_of_pos {p : κ → ν → Bool} (h : m.lookup k = some v) (hp : p k v = true) :
    (retain p m).lookup k = some v := by
  rw [lookup_retain, h, Option.filter_some_pos hp]

theorem lookup_of_retain {p : κ → ν → Bool} (h : (retain p m).lookup k = some v) :
    m.lookup k = some v ∧ p k v = true := by
  rw [lookup_retain, Option.filter_eq_some_iff] at h
  exact h

theorem lookup_of_erase {l : κ} (h : (m.erase k).lookup l = some v) : m.lookup l = some v := by
  by_cases hl : l = k
  · subst hl
    rw [AList.lookup_erase] at h
    cases h
  · rwa [AList.lookup_erase_ne hl] at h

theorem size_erase_le (k : κ) (m : Map κ ν) : size (m.erase k) ≤ size m :=
  (List.kerase_sublist k m.entries).length_le

theorem size_insert_of_none (v : ν) (h : m.lookup k = none) : size (m.insert k v) = size m + 1 := by
  rw [size, AList.entries_insert_of_notMem (AList.lookup_eq_none.mp h)]
  rfl

theorem size_insert_of_some {w : ν} (v : ν) (h : m.lookup k = some w) : size (m.insert k v) = size m := by
  have hk : k ∈ m.keys := AList.mem_keys.mp (AList.lookup_isSome.mp (by rw [h]; rfl))
  have hlen := congrArg List.length (AList.keys_insert (a := k) (b := v) m)
  rw [List.length_cons, List.length_erase_of_mem hk] at hlen
  have hpos : 0 < m.keys.length := List.length_pos_of_mem hk
  have hm : ∀ m' : Map κ ν, m'.keys.length = size m' := fun m' => List.length_map _
  rw [hm, hm] at hlen
  rw [hm] at hpos
  omega

/-- **Distinct keys with entries are at most as many as the entries.** -/
theorem length_le_size {ks : List κ} (hnd : ks.Nodup) (h : ∀ k ∈ ks, (m.lookup k).isSome) :
    ks.length ≤ size m := by
  have hsub : ks ⊆ m.keys := fun k hk => AList.mem_keys.mp (AList.lookup_isSome.mp (h k hk))
  have hle := (List.subperm_of_subset hnd hsub).length_le
  rwa [show m.keys.length = size m from List.length_map _] at hle

theorem perm_erase (h : m.lookup k = some v) : m.entries.Perm (⟨k, v⟩ :: (m.erase k).entries) := by
  have hk : k ∈ m.entries.keys := AList.lookup_isSome.mp (by rw [h]; rfl)
  obtain ⟨w, l₁, l₂, _, hm, herase⟩ := List.exists_of_kerase hk
  have hw : m.lookup k = some w := mem_entries_iff.mp (by rw [hm]; simp)
  obtain rfl : v = w := Option.some.inj (h.symm.trans hw)
  have hentries : (m.erase k).entries = l₁ ++ l₂ := herase
  rw [hentries, hm]
  exact List.perm_middle

theorem vals_perm_erase (h : m.lookup k = some v) : (vals m).Perm (v :: vals (m.erase k)) := by
  have hperm := (perm_erase h).map (Sigma.snd : (Sigma fun _ : κ => ν) → ν)
  exact hperm

theorem vals_insert_of_none (v : ν) (h : m.lookup k = none) : vals (m.insert k v) = v :: vals m := by
  rw [vals, AList.entries_insert_of_notMem (AList.lookup_eq_none.mp h)]
  rfl

theorem vals_insert (m : Map κ ν) (k : κ) (v : ν) : vals (m.insert k v) = v :: vals (m.erase k) := rfl

theorem erase_of_none (h : m.lookup k = none) : m.erase k = m :=
  AList.ext (List.kerase_of_notMem_keys (AList.lookup_eq_none.mp h))

theorem mem_vals_erase (h : v ∈ vals (m.erase k)) : v ∈ vals m :=
  ((List.kerase_sublist k m.entries).map Sigma.snd).subset h

theorem vals_retain_ne (m : Map κ ν) (k : κ) :
    (vals (retain (fun l _ => l ≠ k) m)).Perm (vals (m.erase k)) := by
  refine (List.lookup_ext (retain _ m).nodupKeys (m.erase k).nodupKeys fun l v => ?_).map Sigma.snd
  show v ∈ (retain _ m).lookup l ↔ v ∈ (m.erase k).lookup l
  rw [lookup_retain]
  by_cases hl : l = k
  · rw [hl, AList.lookup_erase]
    simp
  · rw [AList.lookup_erase_ne hl]
    simp [hl]

/-- A weight summed over the values, with the value of one key split off. -/
theorem sum_map_erase (f : ν → ℕ) (m : Map κ ν) (k : κ) :
    ((vals m).map f).sum = ((m.lookup k).map f).getD 0 + ((vals (m.erase k)).map f).sum := by
  cases h : m.lookup k with
  | none => rw [erase_of_none h, Option.map_none, Option.getD_none, Nat.zero_add]
  | some v => rw [((vals_perm_erase h).map f).sum_nat, List.map_cons, List.sum_cons]; rfl

/-- The sum over the entries, with one entry split off. -/
theorem sum_erase (f : ν → Option ℕ) (h : m.lookup k = some v) :
    ((vals m).filterMap f).sum = (f v).getD 0 + ((vals (m.erase k)).filterMap f).sum := by
  rw [((vals_perm_erase h).filterMap f).sum_nat, List.filterMap_cons]
  cases f v <;> simp

/-- **What distinct keys account for is at most what the map accounts for.** -/
theorem sum_le_vals {f : ν → Option ℕ} {key : α → κ} {g : α → Option ℕ} :
    ∀ (xs : List α) (m : Map κ ν), (xs.map key).Nodup →
      (∀ x ∈ xs, ∃ v, m.lookup (key x) = some v ∧ f v = g x) →
      (xs.filterMap g).sum ≤ ((vals m).filterMap f).sum := by
  intro xs
  induction xs with
  | nil => intro m _ _; simp
  | cons x xs ih =>
    intro m hnd h
    rw [List.map_cons, List.nodup_cons] at hnd
    obtain ⟨v, hv, hfv⟩ := h x List.mem_cons_self
    have hrest : ∀ y ∈ xs, ∃ v, (m.erase (key x)).lookup (key y) = some v ∧ f v = g y := by
      intro y hy
      obtain ⟨w, hw, hfw⟩ := h y (List.mem_cons_of_mem x hy)
      have hne : key y ≠ key x := fun he => hnd.1 (he ▸ List.mem_map_of_mem hy)
      exact ⟨w, by rw [AList.lookup_erase_ne hne, hw], hfw⟩
    have hle := ih (m.erase (key x)) hnd.2 hrest
    rw [sum_erase f hv, hfv]
    cases hg : g x <;> simp [hg] <;> omega

/-! ### Maps of lists -/

section Lists

variable {β : Type*}

/-- All values of a map of lists, each with the key it is filed under. -/
def bag (m : Map κ (List β)) : List (κ × β) := m.entries.flatMap fun e => e.2.map (Prod.mk e.1)

/-- `entry(k).or_default().push(b)`. -/
def push (m : Map κ (List β)) (k : κ) (b : β) : Map κ (List β) :=
  m.insert k ((m.lookup k).getD [] ++ [b])

/-- Keep the values under `k` that pass `keep`; an empty list loses its entry. -/
def retainAt (m : Map κ (List β)) (k : κ) (keep : β → Bool) : Map κ (List β) :=
  match m.lookup k with
  | none => m
  | some values =>
    let kept := values.filter keep
    if kept.isEmpty then m.erase k else m.insert k kept

theorem mem_bag {m : Map κ (List β)} {x : κ × β} :
    x ∈ bag m ↔ ∃ values, m.lookup x.1 = some values ∧ x.2 ∈ values := by
  simp only [bag, List.mem_flatMap, List.mem_map]
  constructor
  · rintro ⟨⟨k, values⟩, hentry, b, hb, rfl⟩
    exact ⟨values, mem_entries_iff.mp hentry, hb⟩
  · rintro ⟨values, hlookup, hb⟩
    exact ⟨⟨x.1, values⟩, mem_entries_iff.mpr hlookup, x.2, hb, rfl⟩

theorem bag_perm_erase {m : Map κ (List β)} {values : List β} (h : m.lookup k = some values) :
    (bag m).Perm (values.map (Prod.mk k) ++ bag (m.erase k)) := by
  have hperm := (perm_erase h).flatMap_right fun e => e.2.map (Prod.mk e.1)
  exact hperm

theorem entries_insert (m : Map κ ν) (k : κ) (v : ν) :
    (m.insert k v).entries = ⟨k, v⟩ :: (m.erase k).entries := rfl

theorem bag_insert (m : Map κ (List β)) (k : κ) (values : List β) :
    bag (m.insert k values) = values.map (Prod.mk k) ++ bag (m.erase k) := by
  rw [bag, entries_insert, List.flatMap_cons]
  rfl

theorem bag_push (m : Map κ (List β)) (k : κ) (b : β) :
    (bag (push m k b)).Perm ((k, b) :: bag m) := by
  rw [push, bag_insert]
  cases h : m.lookup k with
  | none =>
    rw [erase_of_none h]
    exact List.Perm.refl _
  | some values =>
    rw [Option.getD_some, List.map_append, List.append_assoc]
    refine List.perm_middle.trans ?_
    exact List.Perm.cons _ (bag_perm_erase h).symm

theorem bag_retainAt (m : Map κ (List β)) (k : κ) (keep : β → Bool) :
    (bag (retainAt m k keep)).Perm ((bag m).filter fun x => x.1 ≠ k || keep x.2) := by
  have hother : ∀ m' : Map κ (List β), m'.lookup k = none →
      (bag m').filter (fun x => x.1 ≠ k || keep x.2) = bag m' := by
    intro m' hnone
    refine List.filter_eq_self.mpr fun x hx => ?_
    obtain ⟨values, hlookup, _⟩ := mem_bag.mp hx
    have hne : x.1 ≠ k := by
      intro heq
      rw [heq, hnone] at hlookup
      cases hlookup
    simp [hne]
  unfold retainAt
  cases h : m.lookup k with
  | none => rw [hother m h]
  | some values =>
    have hsplit := (bag_perm_erase h).filter fun x => x.1 ≠ k || keep x.2
    rw [List.filter_append, hother _ (AList.lookup_erase k m), List.filter_map] at hsplit
    have hkept : values.filter ((fun x : κ × β => decide (x.1 ≠ k) || keep x.2) ∘ Prod.mk k) =
        values.filter keep := by
      congr 1
      funext b
      simp
    rw [hkept] at hsplit
    refine List.Perm.trans ?_ hsplit.symm
    simp only
    split
    · rename_i hempty
      rw [List.isEmpty_iff.mp hempty]
      exact List.Perm.refl _
    · rw [bag_insert]

end Lists

end HashMap
