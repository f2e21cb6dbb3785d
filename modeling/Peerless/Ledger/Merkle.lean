import Peerless.Ledger.Block
import Peerless.Lib.PairTree

/-!
# Hashes, signed events and the events root

`SignedEvent::seal`, `verify` and `hash`, `Block::hash` and `merkle_root`.  The root is a run of the
pairing reduction on the event hashes, so the facts about it are instances of the hash-tree library.
-/

namespace Peerless.Chain

open Text JsonText Peerless.Core Identity

variable {P : Primitives}

/-! ### Signed events -/

def SignedEvent.seal (event : LedgerEvent) (identity : NodeIdentity P) :
    Except LedgerError SignedEvent :=
  match identity.sign (write event.toJson) with
  | .error err => .error (.identity err)
  | .ok signature =>
    .ok { event, signer := identity.nodeId, publicKey := identity.publicKeyDer, signature }

variable (P)

def SignedEvent.verify (e : SignedEvent) : Except LedgerError Bool :=
  if NodeId.derive P e.publicKey = e.signer then
    (Identity.verify P e.publicKey (write e.event.toJson) e.signature).mapError .identity
  else .ok false

def SignedEvent.hash (e : SignedEvent) : Digest := P.sha256 e.encode

def Block.hash (b : Block) : Digest := P.sha256 b.encode

/-! ### The root -/

/-- The string hashed for a pair of digests. -/
def pairBytes (left right : Digest) : Bytes := left.bytes ++ right.bytes

def pairHash (left right : Digest) : Digest := P.sha256 (pairBytes left right)

/-- `merkle_root`: the empty list has the hash of the empty string. -/
def merkleRoot (leaves : List Digest) : Digest :=
  (PairTree.root (pairHash P) leaves).getD (P.sha256 [])

/-- The root of the hashes of an event list. -/
def eventsRoot (events : List SignedEvent) : Digest :=
  merkleRoot P (events.map (SignedEvent.hash P))

/-- The strings hashed for one tree of events. -/
def treeStrings : PairTree.Tree SignedEvent → List Bytes :=
  PairTree.inputs P.sha256 SignedEvent.encode pairBytes

/-- The strings hashed on the way to the root of an event list. -/
def hashedStrings (events : List SignedEvent) : List Bytes :=
  [] :: ((PairTree.tree events).map (treeStrings P)).getD []

variable {P}

theorem SignedEvent.verify_seal (hP : P.Lawful) (event : LedgerEvent) (identity : NodeIdentity P) :
    ∃ e, SignedEvent.seal event identity = .ok e ∧ e.event = event ∧ e.verify P = .ok true := by
  obtain ⟨g, hg, hv⟩ := verify_sign hP identity (write event.toJson)
  refine ⟨⟨event, identity.nodeId, identity.publicKeyDer, g⟩, ?_, rfl, ?_⟩
  · rw [SignedEvent.seal, hg]
  · rw [SignedEvent.verify, if_pos identity.nodeId_eq.symm, hv]
    rfl

theorem pairBytes_injective {a b a' b' : Digest} (h : pairBytes a b = pairBytes a' b') :
    a = a' ∧ b = b' := by
  obtain ⟨h1, h2⟩ := List.append_inj h (by rw [a.size, a'.size])
  exact ⟨Digest.ext_bytes h1, Digest.ext_bytes h2⟩

theorem pairBytes_length (a b : Digest) : (pairBytes a b).length = 64 := by
  rw [pairBytes, List.length_append, a.size, b.size]

theorem encode_ne_pairBytes (e : SignedEvent) (a b : Digest) : e.encode ≠ pairBytes a b := by
  intro h
  have hlen := e.encode_length
  rw [h, pairBytes_length] at hlen
  omega

theorem eventsRoot_eq_digest (events : List SignedEvent) : eventsRoot P events =
    ((PairTree.tree events).map (PairTree.digest P.sha256 SignedEvent.encode pairBytes)).getD
      (P.sha256 []) := by
  show (PairTree.root (pairHash P) (events.map (SignedEvent.hash P))).getD _ = _
  rw [PairTree.root_eq_eval]
  rfl

/-- The digest of a tree is the hash of a non-empty string among those hashed. -/
theorem digest_eq_hash (t : PairTree.Tree SignedEvent) : ∃ x ∈ treeStrings P t, x ≠ [] ∧
    PairTree.digest P.sha256 SignedEvent.encode pairBytes t = P.sha256 x := by
  cases t with
  | leaf e =>
    refine ⟨e.encode, by simp [treeStrings, PairTree.inputs], ?_, rfl⟩
    intro h
    have hlen := e.encode_length
    rw [h, List.length_nil] at hlen
    omega
  | node l r =>
    refine ⟨_, List.mem_cons_self, ?_, rfl⟩
    intro h
    have hlen := pairBytes_length (PairTree.digest P.sha256 SignedEvent.encode pairBytes l)
      (PairTree.digest P.sha256 SignedEvent.encode pairBytes r)
    rw [h, List.length_nil] at hlen
    omega

theorem treeStrings_subset {events : List SignedEvent} {t : PairTree.Tree SignedEvent}
    (ht : PairTree.tree events = some t) : treeStrings P t ⊆ hashedStrings P events := by
  intro x hx
  rw [hashedStrings, ht]
  exact List.mem_cons_of_mem _ hx

/-- No non-empty list shares the root of the empty list. -/
theorem eventsRoot_ne_empty {events : List SignedEvent} (hne : events ≠ [])
    (hcf : PairTree.CollisionFree P.sha256 (hashedStrings P events)) :
    eventsRoot P events ≠ eventsRoot P [] := by
  obtain ⟨t, ht, _⟩ := PairTree.exists_tree hne
  obtain ⟨x, hx, hxne, hd⟩ := digest_eq_hash (P := P) t
  rw [eventsRoot_eq_digest, ht]
  intro h
  exact hxne (hcf x (treeStrings_subset ht hx) [] List.mem_cons_self (hd.symm.trans h))

theorem eventsRoot_eq_iff {es₁ es₂ : List SignedEvent}
    (hcf : PairTree.CollisionFree P.sha256 (hashedStrings P es₁ ++ hashedStrings P es₂)) :
    eventsRoot P es₁ = eventsRoot P es₂ ↔ PairTree.padded es₁ = PairTree.padded es₂ := by
  rw [← PairTree.tree_eq_iff_padded_eq]
  constructor
  · intro h
    by_cases h1 : es₁ = []
    · by_cases h2 : es₂ = []
      · rw [h1, h2]
      · rw [h1] at h
        exact absurd h.symm (eventsRoot_ne_empty h2 (hcf.mono (List.subset_append_right _ _)))
    · by_cases h2 : es₂ = []
      · rw [h2] at h
        exact absurd h (eventsRoot_ne_empty h1 (hcf.mono (List.subset_append_left _ _)))
      · obtain ⟨t, ht, _⟩ := PairTree.exists_tree h1
        obtain ⟨u, hu, _⟩ := PairTree.exists_tree h2
        rw [eventsRoot_eq_digest, eventsRoot_eq_digest, ht, hu] at h
        have hsub : treeStrings P t ++ treeStrings P u ⊆ hashedStrings P es₁ ++ hashedStrings P es₂ :=
          List.append_subset.mpr
            ⟨List.Subset.trans (treeStrings_subset ht) (List.subset_append_left _ _),
              List.Subset.trans (treeStrings_subset hu) (List.subset_append_right _ _)⟩
        rw [ht, hu, PairTree.digest_injective (fun _ _ => SignedEvent.encode_injective)
          (fun _ _ _ _ => pairBytes_injective) encode_ne_pairBytes t u (hcf.mono hsub) h]
  · intro h
    rw [eventsRoot_eq_digest, eventsRoot_eq_digest, h]

end Peerless.Chain
