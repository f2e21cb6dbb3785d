import Mathlib.Data.Finset.Card
import Mathlib.Tactic.Common

/-!
# Quorum intersection

Counting facts about subsets of a finite set of members, over an arbitrary type.

* `exists_common_outside` — two quorums of `2f + 1` among at most `3f + 1` members share a member
  outside any set of `f`;
* `exists_weakly_meeting` — **the bound is tight**: among more than `3f + 1` members there are two
  sets of `2f + 1` that meet in at most `f`.
-/

namespace Quorum

variable {α : Type*} [DecidableEq α]

variable {M : Finset α}

theorem card_inter_ge {A B : Finset α} (hA : A ⊆ M) (hB : B ⊆ M) :
    A.card + B.card ≤ M.card + (A ∩ B).card := by
  have hu : (A ∪ B).card ≤ M.card := Finset.card_le_card (Finset.union_subset hA hB)
  have h := Finset.card_union_add_card_inter A B
  omega

theorem exists_common_outside {A B F : Finset α} {f : ℕ} (hM : M.card ≤ 3 * f + 1) (hA : A ⊆ M)
    (hB : B ⊆ M) (hAc : 2 * f + 1 ≤ A.card) (hBc : 2 * f + 1 ≤ B.card) (hF : F.card ≤ f) :
    ∃ x, x ∈ A ∧ x ∈ B ∧ x ∉ F := by
  have hint := card_inter_ge hA hB
  have hlt : F.card < (A ∩ B).card := by omega
  obtain ⟨x, hx, hxF⟩ := Finset.exists_mem_notMem_of_card_lt_card hlt
  exact ⟨x, (Finset.mem_inter.mp hx).1, (Finset.mem_inter.mp hx).2, hxF⟩

theorem exists_weakly_meeting {f : ℕ} (hM : 3 * f + 2 ≤ M.card) :
    ∃ A B, A ⊆ M ∧ B ⊆ M ∧ A.card = 2 * f + 1 ∧ B.card = 2 * f + 1 ∧ (A ∩ B).card ≤ f := by
  obtain ⟨A, hA, hAc⟩ := Finset.exists_subset_card_eq (show 2 * f + 1 ≤ M.card by omega)
  obtain ⟨F, hF, hFc⟩ := Finset.exists_subset_card_eq (show f ≤ A.card by omega)
  have hrest : f + 1 ≤ (M \ A).card := by
    rw [Finset.card_sdiff_of_subset hA]
    omega
  obtain ⟨C, hC, hCc⟩ := Finset.exists_subset_card_eq hrest
  have hdisj : Disjoint A C :=
    Finset.disjoint_of_subset_right hC Finset.disjoint_sdiff
  refine ⟨A, F ∪ C, hA, Finset.union_subset (hF.trans hA) (hC.trans Finset.sdiff_subset), hAc, ?_, ?_⟩
  · rw [Finset.card_union_of_disjoint (Finset.disjoint_of_subset_left hF hdisj), hFc, hCc]
    omega
  · have hinter : A ∩ (F ∪ C) = F := by
      rw [Finset.inter_union_distrib_left, Finset.inter_eq_right.mpr hF,
        Finset.disjoint_iff_inter_eq_empty.mp hdisj, Finset.union_empty]
    rw [hinter, hFc]

end Quorum
