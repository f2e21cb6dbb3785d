import Peerless.Ledger.Commitment
import Peerless.Lib.TreePath

/-!
# Inclusion proofs

`MerkleProof::verify` folds the siblings into the hash of an event and compares the result with a root.
It is given neither the depth of the tree nor a tag that tells leaves from pairs; that no other length
and no inner node passes follows from the lengths of the strings that are hashed.

* `inclusion_sound` — without a collision among the strings hashed for the proof and for the
  event list, an accepted proof is about one of the events, and about the one at its index if there is
  one.
-/

namespace Peerless.Chain

open Text Peerless.Core Identity Sample

variable {P : Primitives}

structure MerkleProof where
  index : ℕ
  siblings : List Digest
  deriving DecidableEq

variable (P)

def MerkleProof.verify (p : MerkleProof) (leaf root : Digest) : Bool :=
  PairTree.climb (pairHash P) leaf p.index p.siblings = root

/-- The strings hashed to check the proof of an event. -/
def proofStrings (p : MerkleProof) (e : SignedEvent) : List Bytes :=
  PairTree.pathInputs P.sha256 SignedEvent.encode pairBytes e p.index p.siblings

variable {P}

theorem encode_ne_nil (e : SignedEvent) : e.encode ≠ [] := by
  intro h
  have hlen := e.encode_length
  rw [h, List.length_nil] at hlen
  omega

theorem pairBytes_ne_nil (a b : Digest) : pairBytes a b ≠ [] := by
  intro h
  have hlen := pairBytes_length a b
  rw [h, List.length_nil] at hlen
  omega

/-- No proof is accepted for the root of the empty list. -/
theorem not_verify_empty {e : SignedEvent} {p : MerkleProof}
    (hcf : PairTree.CollisionFree P.sha256 (proofStrings P p e ++ hashedStrings P [])) :
    PairTree.pathRoot P.sha256 SignedEvent.encode pairBytes e p.index p.siblings ≠ eventsRoot P [] := by
  intro hroot
  obtain ⟨z, hz, hhash, hshape⟩ :=
    PairTree.pathRoot_eq_hash (h := P.sha256) (e := SignedEvent.encode) (c := pairBytes) e p.index
      p.siblings
  have hempty : z = [] :=
    hcf z (List.mem_append_left _ hz) [] (List.mem_append_right _ List.mem_cons_self)
      (hhash.symm.trans hroot)
  rcases hshape with rfl | ⟨x, y, rfl⟩
  · exact encode_ne_nil e hempty
  · exact pairBytes_ne_nil x y hempty

/-- **Inclusion proofs are sound.** -/
theorem inclusion_sound {events : List SignedEvent} {e : SignedEvent} {p : MerkleProof}
    (hcf : PairTree.CollisionFree P.sha256 (proofStrings P p e ++ hashedStrings P events))
    (hverify : p.verify P (e.hash P) (eventsRoot P events) = true) :
    e ∈ events ∧ (p.index < events.length → events[p.index]? = some e) := by
  have hroot : PairTree.pathRoot P.sha256 SignedEvent.encode pairBytes e p.index p.siblings =
      eventsRoot P events := of_decide_eq_true hverify
  by_cases hne : events = []
  · subst hne
    exact absurd hroot (not_verify_empty hcf)
  · obtain ⟨t, ht, hpadded⟩ := PairTree.exists_tree hne
    obtain ⟨d, hperfect⟩ := PairTree.perfect_tree ht
    have hdigest : eventsRoot P events =
        PairTree.digest P.sha256 SignedEvent.encode pairBytes t := by
      rw [eventsRoot_eq_digest, ht]
      rfl
    have hsub : proofStrings P p e ++ treeStrings P t ⊆ proofStrings P p e ++ hashedStrings P events :=
      List.append_subset.mpr ⟨List.subset_append_left _ _,
        List.Subset.trans (treeStrings_subset ht) (List.subset_append_right _ _)⟩
    obtain ⟨_, hleaf⟩ := PairTree.climb_sound (fun _ _ => SignedEvent.encode_injective)
      (fun _ _ _ _ => pairBytes_injective) encode_ne_pairBytes e p.index p.siblings d t hperfect
      (hcf.mono hsub) (hroot.trans hdigest)
    rw [← hpadded] at hleaf
    refine ⟨PairTree.mem_of_mem_padded (List.mem_of_getElem? hleaf), fun hindex => ?_⟩
    -- the events are the first leaves, and there are no more of them than leaves
    obtain ⟨rest, hrest⟩ := PairTree.prefix_padded events
    have hcount : events.length ≤ 2 ^ d := by
      rw [← hperfect.leaves_length, ← hpadded, ← hrest, List.length_append]
      exact Nat.le_add_right _ _
    rw [Nat.mod_eq_of_lt (by omega), ← hrest, List.getElem?_append_left hindex] at hleaf
    exact hleaf

/-- The proof of the last of three events: it is its own sibling on the odd level. -/
def lastProof : MerkleProof where
  index := 2
  siblings := [(sampleEvent "c").hash primitives,
    pairHash primitives ((sampleEvent "a").hash primitives) ((sampleEvent "b").hash primitives)]

/-- The proof of the last of three events shows it at its index. -/
theorem lastProof_sound :
    lastProof.verify primitives ((sampleEvent "c").hash primitives)
      (eventsRoot primitives threeEvents.events) = true ∧
    threeEvents.events[lastProof.index]? = some (sampleEvent "c") := by
  have hcf : PairTree.CollisionFree primitives.sha256
      (proofStrings primitives lastProof (sampleEvent "c") ++
        hashedStrings primitives threeEvents.events) := by
    unfold PairTree.CollisionFree
    decide +kernel
  have hverify : lastProof.verify primitives ((sampleEvent "c").hash primitives)
      (eventsRoot primitives threeEvents.events) = true := by
    decide +kernel
  exact ⟨hverify, (inclusion_sound hcf hverify).2 (by decide +kernel)⟩

end Peerless.Chain
