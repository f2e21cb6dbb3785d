import Peerless.Onion.SetupWire
import Peerless.Onion.RoundTrip

/-!
# The key exchange with a relay

`InitiatorSetup::start`, `RelaySetup::accept` and `InitiatorSetup::finish`.  Both sides run the same key
schedule over what they know of the exchange (`Exchange`), and the response carries a tag over it.
X25519, SHA-256, HKDF and the cipher are parameters.

* `handshake_agreement` — an undisturbed exchange succeeds with equal keys exactly within the
  hop limit, and whatever was delivered, a success under the relay's tag was undisturbed.
-/

namespace Peerless.Onion

open Text Wire

/-- X25519, SHA-256, HKDF with 104 bytes of output, and ChaCha20-Poly1305. -/
structure SetupPrimitives where
  Secret : Type
  publicKey : Secret → Octets 32
  diffieHellman : Secret → Octets 32 → Octets 32
  wasContributory : Octets 32 → Bool
  sha256 : Bytes → Octets 32
  hkdfExpand : Octets 32 → Bytes → Bytes → Option (Octets 104)
  aead : Aead

/-- What their documentation promises. -/
structure SetupPrimitives.Lawful (S : SetupPrimitives) : Prop where
  commutes : ∀ a b, S.diffieHellman a (S.publicKey b) = S.diffieHellman b (S.publicKey a)
  expands : ∀ salt ikm info, ∃ out, S.hkdfExpand salt ikm info = some out
  aead : S.aead.Correct

variable (S : SetupPrimitives)

/-! ### The key schedule -/

/-- `derive_keys`: the keys of the hop and the confirmation key. -/
def deriveKeys (shared transcript : Bytes) (c : SetupContext) :
    Except OnionError (HopKeys × Octets 32) :=
  match S.hkdfExpand (S.sha256 transcript) shared (utf8 "peerless/onion/hop-keys/v1") with
  | none => .error .keyAgreementFailed
  | some output => .ok
    ({ circuitId := c.circuitId
       hop := c.hop
       epoch := c.epoch
       expiresAt := c.expiresAt
       forwardKey := ⟨slice output.bytes 0 32, slice_length (by rw [output.size]; decide)⟩
       reverseKey := ⟨slice output.bytes 32 64, slice_length (by rw [output.size]; decide)⟩
       forwardNoncePrefix := ⟨slice output.bytes 64 68, slice_length (by rw [output.size]; decide)⟩
       reverseNoncePrefix := ⟨slice output.bytes 68 72, slice_length (by rw [output.size]; decide)⟩ },
     ⟨slice output.bytes 72 104, slice_length (by rw [output.size])⟩)

def confirmationTag (key : Octets 32) (transcript : Bytes) : Except OnionError (Octets 16) :=
  match S.aead.encrypt key ⟨List.replicate 12 0, rfl⟩ transcript [] with
  | none => .error .authenticationFailed
  | some (_, tag) => .ok tag

/-- What a side knows before it derives the keys. -/
structure Exchange where
  context : SetupContext
  initiatorPublic : Octets 32
  responderPublic : Octets 32
  relayPublic : Octets 32
  staticShared : Octets 32
  ephemeralShared : Octets 32
  deriving DecidableEq

def Exchange.transcript (x : Exchange) : Bytes :=
  setupTranscript x.context x.initiatorPublic x.responderPublic x.relayPublic

/-- The keys and the confirmation key of an exchange. -/
def Exchange.keys (x : Exchange) : Except OnionError (HopKeys × Octets 32) :=
  deriveKeys S (x.staticShared.bytes ++ x.ephemeralShared.bytes) x.transcript x.context

/-- The keys and the confirmation tag, as `accept` and `finish` compute them. -/
def Exchange.confirm (x : Exchange) : Except OnionError (HopKeys × Octets 16) :=
  match x.keys S with
  | .error err => .error err
  | .ok (keys, confirmationKey) =>
    match confirmationTag S confirmationKey x.transcript with
    | .error err => .error err
    | .ok tag => .ok (keys, tag)

/-! ### The three calls -/

structure PendingSetup where
  context : SetupContext
  secret : S.Secret
  initiatorPublic : Octets 32
  relayPublic : Octets 32

/-- `InitiatorSetup::start`, with the secret it draws. -/
def InitiatorSetup.start (context : SetupContext) (relayPublic : Octets 32) (now : UInt64)
    (secret : S.Secret) : Except OnionError (SetupRequest × PendingSetup S) :=
  match context.validate now with
  | .error err => .error err
  | .ok () =>
    let initiatorPublic := S.publicKey secret
    .ok (⟨encodeSetupRequest context initiatorPublic relayPublic⟩,
      ⟨context, secret, initiatorPublic, relayPublic⟩)

/-- The first part of `accept`: what the relay knows. -/
def RelaySetup.exchange (request : SetupRequest) (relaySecret : S.Secret) (now : UInt64)
    (secret : S.Secret) : Except OnionError Exchange :=
  match parseSetupRequest request.octets with
  | .error err => .error err
  | .ok parsed =>
    match parsed.context.validate now with
    | .error err => .error err
    | .ok () =>
      if parsed.relayPublic ≠ S.publicKey relaySecret then .error .wrongScope
      else
        let staticShared := S.diffieHellman relaySecret parsed.initiatorPublic
        let ephemeralShared := S.diffieHellman secret parsed.initiatorPublic
        if S.wasContributory staticShared = false ∨ S.wasContributory ephemeralShared = false then
          .error .keyAgreementFailed
        else .ok ⟨parsed.context, parsed.initiatorPublic, S.publicKey secret, parsed.relayPublic,
          staticShared, ephemeralShared⟩

/-- `RelaySetup::accept`, with the ephemeral secret it draws. -/
def RelaySetup.accept (request : SetupRequest) (relaySecret : S.Secret) (now : UInt64)
    (secret : S.Secret) : Except OnionError (SetupResponse × HopKeys) :=
  match RelaySetup.exchange S request relaySecret now secret with
  | .error err => .error err
  | .ok x =>
    match x.confirm S with
    | .error err => .error err
    | .ok (keys, confirmation) =>
      .ok (⟨encodeSetupResponse x.context x.initiatorPublic x.responderPublic x.relayPublic
        confirmation⟩, keys)

variable {S}

/-- The first part of `finish`: what the initiator knows. -/
def PendingSetup.exchange (pending : PendingSetup S) (response : SetupResponse) (now : UInt64) :
    Except OnionError (Exchange × Octets 16) :=
  match parseSetupResponse response.octets with
  | .error err => .error err
  | .ok parsed =>
    match pending.context.validate now with
    | .error err => .error err
    | .ok () =>
      if parsed.context ≠ pending.context ∨ parsed.initiatorPublic ≠ pending.initiatorPublic ∨
          parsed.relayPublic ≠ pending.relayPublic then .error .transcriptMismatch
      else
        let staticShared := S.diffieHellman pending.secret parsed.relayPublic
        let ephemeralShared := S.diffieHellman pending.secret parsed.responderPublic
        if S.wasContributory staticShared = false ∨ S.wasContributory ephemeralShared = false then
          .error .keyAgreementFailed
        else .ok (⟨pending.context, pending.initiatorPublic, parsed.responderPublic, parsed.relayPublic,
          staticShared, ephemeralShared⟩, parsed.confirmation)

def InitiatorSetup.finish (pending : PendingSetup S) (response : SetupResponse) (now : UInt64) :
    Except OnionError HopKeys :=
  match pending.exchange response now with
  | .error err => .error err
  | .ok (x, confirmation) =>
    match x.confirm S with
    | .error err => .error err
    | .ok (keys, expected) => if expected ≠ confirmation then .error .transcriptMismatch else .ok keys

/-! ### What the calls have checked -/

variable {c : SetupContext} {secret : S.Secret}

theorem start_ok_iff {relayPublic : Octets 32} {now : UInt64} {request : SetupRequest}
    {pending : PendingSetup S} :
    InitiatorSetup.start S c relayPublic now secret = .ok (request, pending) ↔
      (c.hop.toNat < maxHops ∧ now < c.expiresAt) ∧
      request = ⟨encodeSetupRequest c (S.publicKey secret) relayPublic⟩ ∧
      pending = ⟨c, secret, S.publicKey secret, relayPublic⟩ := by
  rw [InitiatorSetup.start, ← SetupContext.validate_ok_iff]
  cases c.validate now with
  | error err => simp
  | ok u =>
    simp only [Except.ok.injEq, Prod.mk.injEq, true_and]
    exact and_congr eq_comm eq_comm

variable {relaySecret : S.Secret} {x : Exchange}

/-- **What the relay knows** when it goes on to derive keys. -/
theorem relayExchange_ok_iff {request : SetupRequest} {now : UInt64} :
    RelaySetup.exchange S request relaySecret now secret = .ok x ↔
      request.octets = encodeSetupRequest x.context x.initiatorPublic x.relayPublic ∧
      (x.context.hop.toNat < maxHops ∧ now < x.context.expiresAt) ∧
      x.relayPublic = S.publicKey relaySecret ∧ x.responderPublic = S.publicKey secret ∧
      x.staticShared = S.diffieHellman relaySecret x.initiatorPublic ∧
      x.ephemeralShared = S.diffieHellman secret x.initiatorPublic ∧
      S.wasContributory x.staticShared = true ∧ S.wasContributory x.ephemeralShared = true := by
  rw [RelaySetup.exchange]
  constructor
  · intro h
    split at h
    · cases h
    rename_i parsed hparse
    split at h
    · cases h
    rename_i hvalid
    split at h
    · cases h
    rename_i hrelay
    dsimp only at h
    split at h
    · cases h
    rename_i hcontributory
    simp only [not_or, Bool.not_eq_false] at hcontributory
    cases h
    exact ⟨parseSetupRequest_ok_iff.mp hparse, SetupContext.validate_ok_iff.mp hvalid,
      not_not.mp hrelay, rfl, rfl, rfl, hcontributory.1, hcontributory.2⟩
  · rintro ⟨hrequest, hvalid, hrelay, hresponder, hstatic, hephemeral, hcontributory, hcontributory'⟩
    have hparse : parseSetupRequest request.octets =
        .ok ⟨x.context, x.initiatorPublic, x.relayPublic⟩ := parseSetupRequest_ok_iff.mpr hrequest
    rw [hparse]
    simp only [SetupContext.validate_ok_iff.mpr hvalid, ← hstatic, ← hephemeral, ← hresponder]
    rw [if_neg (not_not.mpr hrelay), if_neg]
    simp [hcontributory, hcontributory']

variable {response : SetupResponse}

/-- **What the initiator knows** when it goes on to derive keys, and the tag it was sent. -/
theorem initiatorExchange_ok_iff {pending : PendingSetup S} {now : UInt64} {tag : Octets 16} :
    pending.exchange response now = .ok (x, tag) ↔
      response.octets = encodeSetupResponse x.context x.initiatorPublic x.responderPublic x.relayPublic
        tag ∧
      (x.context.hop.toNat < maxHops ∧ now < x.context.expiresAt) ∧
      x.context = pending.context ∧ x.initiatorPublic = pending.initiatorPublic ∧
      x.relayPublic = pending.relayPublic ∧
      x.staticShared = S.diffieHellman pending.secret x.relayPublic ∧
      x.ephemeralShared = S.diffieHellman pending.secret x.responderPublic ∧
      S.wasContributory x.staticShared = true ∧ S.wasContributory x.ephemeralShared = true := by
  rw [PendingSetup.exchange]
  constructor
  · intro h
    split at h
    · cases h
    rename_i parsed hparse
    split at h
    · cases h
    rename_i hvalid
    split at h
    · cases h
    rename_i hsame
    dsimp only at h
    split at h
    · cases h
    rename_i hcontributory
    simp only [ne_eq, not_or, not_not, Bool.not_eq_false] at hcontributory hsame
    cases h
    have hresponse := parseSetupResponse_ok_iff.mp hparse
    rw [hsame.1, hsame.2.1] at hresponse
    exact ⟨hresponse, SetupContext.validate_ok_iff.mp hvalid, rfl, rfl, hsame.2.2, rfl, rfl,
      hcontributory.1, hcontributory.2⟩
  · rintro ⟨hresponse, hvalid, hcontext, hinitiator, hrelay, hstatic, hephemeral, hcontributory,
      hcontributory'⟩
    have hparse : parseSetupResponse response.octets =
        .ok ⟨x.context, x.initiatorPublic, x.responderPublic, x.relayPublic, tag⟩ :=
      parseSetupResponse_ok_iff.mpr hresponse
    rw [hparse]
    simp only [← hcontext, ← hinitiator, ← hrelay, ← hstatic, ← hephemeral,
      SetupContext.validate_ok_iff.mpr hvalid]
    rw [if_neg (by simp), if_neg]
    simp [hcontributory, hcontributory']

theorem accept_ok_iff {request : SetupRequest} {now : UInt64} {keys : HopKeys} :
    RelaySetup.accept S request relaySecret now secret = .ok (response, keys) ↔
      ∃ x tag, RelaySetup.exchange S request relaySecret now secret = .ok x ∧
        x.confirm S = .ok (keys, tag) ∧
        response = ⟨encodeSetupResponse x.context x.initiatorPublic x.responderPublic x.relayPublic
          tag⟩ := by
  rw [RelaySetup.accept]
  cases RelaySetup.exchange S request relaySecret now secret with
  | error err => simp
  | ok x =>
    simp only [Except.ok.injEq, exists_and_left, exists_eq_left']
    cases x.confirm S with
    | error err => simp
    | ok confirmed =>
      obtain ⟨derived, tag⟩ := confirmed
      simp only [Except.ok.injEq, Prod.mk.injEq]
      constructor
      · rintro ⟨rfl, rfl⟩
        exact ⟨tag, ⟨rfl, rfl⟩, rfl⟩
      · rintro ⟨_, ⟨rfl, rfl⟩, rfl⟩
        exact ⟨rfl, rfl⟩

theorem finish_ok_iff {pending : PendingSetup S} {now : UInt64} {keys : HopKeys} :
    InitiatorSetup.finish pending response now = .ok keys ↔
      ∃ x tag, pending.exchange response now = .ok (x, tag) ∧ x.confirm S = .ok (keys, tag) := by
  rw [InitiatorSetup.finish]
  cases pending.exchange response now with
  | error err => simp
  | ok known =>
    obtain ⟨x, confirmation⟩ := known
    simp only [Except.ok.injEq, Prod.mk.injEq]
    cases hconfirm : x.confirm S with
    | error err =>
      simp only [reduceCtorEq, false_iff, not_exists, not_and]
      rintro y tag ⟨rfl, rfl⟩
      rw [hconfirm]
      simp
    | ok confirmed =>
      obtain ⟨derived, expected⟩ := confirmed
      simp only
      split
      · rename_i hne
        simp only [reduceCtorEq, false_iff, not_exists, not_and]
        rintro y tag ⟨rfl, rfl⟩ h
        rw [hconfirm] at h
        cases h
        exact hne rfl
      · rename_i heq
        rw [not_not] at heq
        subst heq
        constructor
        · intro h
          cases h
          exact ⟨x, expected, ⟨rfl, rfl⟩, hconfirm⟩
        · rintro ⟨y, tag, ⟨rfl, rfl⟩, h⟩
          rw [hconfirm] at h
          cases h
          rfl

/-! ### Agreement -/

theorem confirm_succeeds (hS : S.Lawful) (x : Exchange) : ∃ keys tag, x.confirm S = .ok (keys, tag) := by
  obtain ⟨out, hout⟩ := hS.expands (S.sha256 x.transcript)
    (x.staticShared.bytes ++ x.ephemeralShared.bytes) (utf8 "peerless/onion/hop-keys/v1")
  rw [Exchange.confirm, Exchange.keys, deriveKeys, hout]
  simp only [confirmationTag]
  obtain ⟨c, t, henc⟩ := hS.aead.encrypts ⟨slice out.bytes 72 104, slice_length (by rw [out.size])⟩
    ⟨List.replicate 12 0, rfl⟩ x.transcript [] (Nat.zero_le _)
  rw [henc]
  exact ⟨_, _, rfl⟩

variable {initiatorSecret : S.Secret}

/-- Two exchanges with the same fields and honest secrets share their secrets. -/
theorem shared_eq (hS : S.Lawful) {y : Exchange}
    (hpublic : x.context = y.context ∧ x.initiatorPublic = y.initiatorPublic ∧
      x.responderPublic = y.responderPublic ∧ x.relayPublic = y.relayPublic)
    (hinitiator : y.initiatorPublic = S.publicKey initiatorSecret)
    (hrelay : x.relayPublic = S.publicKey relaySecret)
    (hresponder : x.responderPublic = S.publicKey secret)
    (hstatic : x.staticShared = S.diffieHellman relaySecret x.initiatorPublic)
    (hephemeral : x.ephemeralShared = S.diffieHellman secret x.initiatorPublic)
    (hstatic' : y.staticShared = S.diffieHellman initiatorSecret y.relayPublic)
    (hephemeral' : y.ephemeralShared = S.diffieHellman initiatorSecret y.responderPublic) : x = y := by
  obtain ⟨hcontext, hi, hr, hs⟩ := hpublic
  have hstatics : x.staticShared = y.staticShared := by
    rw [hstatic, hstatic', hi, hinitiator, ← hs, hrelay, hS.commutes]
  have hephemerals : x.ephemeralShared = y.ephemeralShared := by
    rw [hephemeral, hephemeral', hi, hinitiator, ← hr, hresponder, hS.commutes]
  cases x
  cases y
  rw [Exchange.mk.injEq]
  exact ⟨hcontext, hi, hr, hs, hstatics, hephemerals⟩

variable (S)

/-- What the confirmation tag is computed from. -/
def Exchange.tagInput (x : Exchange) : Except OnionError (Octets 32 × Bytes) :=
  (x.keys S).map fun derived => (derived.2, x.transcript)

/-- The tag is injective on the inputs of two exchanges. -/
def Exchange.TagsApart (x y : Exchange) : Prop :=
  (x.confirm S).map Prod.snd = (y.confirm S).map Prod.snd → x.tagInput S = y.tagInput S

variable {S}

theorem tagInput_of_confirm {keys : HopKeys} {tag : Octets 16} (h : x.confirm S = .ok (keys, tag)) :
    ∃ key, x.tagInput S = .ok (key, x.transcript) := by
  rw [Exchange.confirm] at h
  rw [Exchange.tagInput]
  cases hkeys : x.keys S with
  | error err =>
    rw [hkeys] at h
    cases h
  | ok derived => exact ⟨derived.2, rfl⟩

theorem fields_eq_of_tags {y : Exchange} {keys keys' : HopKeys} {tag : Octets 16}
    (hx : x.confirm S = .ok (keys, tag)) (hy : y.confirm S = .ok (keys', tag)) (hapart : x.TagsApart S y) :
    x.context = y.context ∧ x.initiatorPublic = y.initiatorPublic ∧
      x.responderPublic = y.responderPublic ∧ x.relayPublic = y.relayPublic := by
  have hinput := hapart (by rw [hx, hy]; rfl)
  obtain ⟨key, hkey⟩ := tagInput_of_confirm hx
  obtain ⟨key', hkey'⟩ := tagInput_of_confirm hy
  rw [hkey, hkey', Except.ok.injEq, Prod.mk.injEq] at hinput
  exact setupTranscript_injective hinput.2

/-- The tag of a response. -/
def SetupResponse.tag (r : SetupResponse) : Bytes := slice r.octets.bytes 136 152

theorem tag_of_encoded {r : SetupResponse} {i s p : Octets 32} {tag : Octets 16}
    (h : r.octets = encodeSetupResponse c i s p tag) : r.tag = tag.bytes := by
  have hparse : parseSetupResponse r.octets = .ok ⟨c, i, s, p, tag⟩ := parseSetupResponse_ok_iff.mpr h
  rw [parseSetupResponse] at hparse
  split at hparse
  · cases hparse
  · rw [Except.ok.injEq, ParsedSetupResponse.mk.injEq] at hparse
    exact congrArg Octets.bytes hparse.2.2.2.2

/-- **The undisturbed exchange** succeeds within the hop limit and before the expiry, with equal keys. -/
theorem undisturbed (hS : S.Lawful) (c : SetupContext)
    (hstatic : S.wasContributory (S.diffieHellman initiatorSecret (S.publicKey relaySecret)) = true)
    (hephemeral : S.wasContributory (S.diffieHellman initiatorSecret (S.publicKey secret)) = true)
    {started accepted finished : UInt64} (hhop : c.hop.toNat < maxHops) (hstarted : started < c.expiresAt)
    (haccepted : accepted < c.expiresAt) (hfinished : finished < c.expiresAt) :
    ∃ request pending response keys,
      InitiatorSetup.start S c (S.publicKey relaySecret) started initiatorSecret = .ok (request, pending) ∧
      RelaySetup.accept S request relaySecret accepted secret = .ok (response, keys) ∧
      InitiatorSetup.finish pending response finished = .ok keys := by
  let x : Exchange := ⟨c, S.publicKey initiatorSecret, S.publicKey secret, S.publicKey relaySecret,
    S.diffieHellman initiatorSecret (S.publicKey relaySecret),
    S.diffieHellman initiatorSecret (S.publicKey secret)⟩
  obtain ⟨keys, tag, hconfirm⟩ := confirm_succeeds hS x
  refine ⟨_, _, _, keys, start_ok_iff.mpr ⟨⟨hhop, hstarted⟩, rfl, rfl⟩,
    accept_ok_iff.mpr ⟨x, tag, ?_, hconfirm, rfl⟩, finish_ok_iff.mpr ⟨x, tag, ?_, hconfirm⟩⟩
  · exact relayExchange_ok_iff.mpr ⟨rfl, ⟨hhop, haccepted⟩, rfl, rfl, hS.commutes _ _, hS.commutes _ _,
      hstatic, hephemeral⟩
  · exact initiatorExchange_ok_iff.mpr ⟨rfl, ⟨hhop, hfinished⟩, rfl, rfl, rfl, rfl, rfl, hstatic,
      hephemeral⟩

/-- **A success under the relay's tag was undisturbed.** -/
theorem delivered_unchanged (hS : S.Lawful) {relayPublic : Octets 32} {started accepted finished : UInt64}
    {request delivered : SetupRequest} {pending : PendingSetup S} {received : SetupResponse}
    {relayKeys keys : HopKeys}
    (hstart : InitiatorSetup.start S c relayPublic started initiatorSecret = .ok (request, pending))
    (haccept : RelaySetup.accept S delivered relaySecret accepted secret = .ok (response, relayKeys))
    (hfinish : InitiatorSetup.finish pending received finished = .ok keys)
    (htag : received.tag = response.tag)
    (hapart : ∀ x y tag, RelaySetup.exchange S delivered relaySecret accepted secret = .ok x →
      pending.exchange received finished = .ok (y, tag) → x.TagsApart S y) :
    delivered = request ∧ received = response ∧ keys = relayKeys := by
  obtain ⟨_, rfl, rfl⟩ := start_ok_iff.mp hstart
  obtain ⟨x, tag, hx, hconfirm, rfl⟩ := accept_ok_iff.mp haccept
  obtain ⟨y, tag', hy, hconfirm'⟩ := finish_ok_iff.mp hfinish
  have hxy := hapart x y tag' hx hy
  obtain ⟨hdelivered, _, hrelay, hresponder, hstatic, hephemeral, _⟩ := relayExchange_ok_iff.mp hx
  obtain ⟨hreceived, _, hcontext, hinitiator, hpeer, hstatic', hephemeral', _⟩ :=
    initiatorExchange_ok_iff.mp hy
  have htags : tag' = tag := by
    rw [tag_of_encoded hreceived] at htag
    exact Octets.ext_bytes (htag.trans (tag_of_encoded rfl))
  subst htags
  have hfields := fields_eq_of_tags hconfirm hconfirm' hxy
  obtain rfl : x = y := shared_eq hS hfields hinitiator hrelay hresponder hstatic hephemeral hstatic'
    hephemeral'
  rw [hconfirm, Except.ok.injEq, Prod.mk.injEq] at hconfirm'
  refine ⟨?_, ?_, hconfirm'.1.symm⟩
  · rw [hcontext, hinitiator, hpeer] at hdelivered
    exact congrArg SetupRequest.mk hdelivered
  · exact congrArg SetupResponse.mk hreceived

/-! ### A sample exchange -/

/-- The first bytes of a string, filled up with zeros. -/
def filled (n : ℕ) (l : Bytes) : Octets n where
  bytes := (l ++ List.replicate n 0).take n
  size := by
    rw [List.length_take, List.length_append, List.length_replicate]
    omega

/-- A checksum of one byte. -/
def checksum (l : Bytes) : Octets 16 := filled 16 [l.foldl (fun sum b => 3 * sum + b) 0]

/-- A cipher that hides nothing; its tag is a checksum of the associated data. -/
def checksummed : Aead where
  encrypt _ _ associated plaintext := some (plaintext, checksum associated)
  decrypt _ _ associated ciphertext tag := if tag = (checksum associated).bytes then some ciphertext else none

theorem checksummed_correct : checksummed.Correct where
  encrypts _ _ _ p _ := ⟨p, _, rfl⟩
  length h := by
    simp only [checksummed, Option.some.injEq, Prod.mk.injEq] at h
    rw [h.1]
  decrypts h := by
    simp only [checksummed, Option.some.injEq, Prod.mk.injEq] at h ⊢
    rw [if_pos (congrArg Octets.bytes h.2.symm), h.1]

/-- Secrets that are their own public keys and are added up byte by byte. -/
def sampleSetup : SetupPrimitives where
  Secret := Octets 32
  publicKey := id
  diffieHellman a b := ⟨List.zipWith (· + ·) a.bytes b.bytes, by simp⟩
  wasContributory shared := shared.bytes ≠ List.replicate 32 0
  sha256 := filled 32
  hkdfExpand salt ikm info := some (filled 104 (ikm ++ salt.bytes ++ info))
  aead := checksummed

theorem sampleSetup_lawful : sampleSetup.Lawful where
  commutes a b := by
    refine Octets.ext_bytes ?_
    show List.zipWith (· + ·) _ _ = List.zipWith (· + ·) _ _
    rw [List.zipWith_comm]
    refine congrArg (fun f => List.zipWith f _ _) ?_
    funext x y
    exact UInt8.add_comm y x
  expands salt ikm info := ⟨_, rfl⟩
  aead := checksummed_correct

/-- A context that expires at 100. -/
def sampleContext (hop : UInt8) : SetupContext := ⟨filled 16 [9], hop, 1, 100⟩

/-! ### Both directions -/

/-- **Handshake agreement.**  With contributory secrets and before the expiry, the undisturbed exchange
succeeds with equal keys exactly if the hop is within the limit.  Whatever request and response are
delivered, if both calls succeed and the response carries the relay's tag, then nothing was changed and
the keys are equal. -/
theorem handshake_agreement (hS : S.Lawful) (c : SetupContext)
    (relaySecret initiatorSecret secret : S.Secret) (started accepted finished : UInt64) :
    (S.wasContributory (S.diffieHellman initiatorSecret (S.publicKey relaySecret)) = true →
      S.wasContributory (S.diffieHellman initiatorSecret (S.publicKey secret)) = true →
      started < c.expiresAt → accepted < c.expiresAt → finished < c.expiresAt →
      ((∃ request pending response keys,
        InitiatorSetup.start S c (S.publicKey relaySecret) started initiatorSecret =
          .ok (request, pending) ∧
        RelaySetup.accept S request relaySecret accepted secret = .ok (response, keys) ∧
        InitiatorSetup.finish pending response finished = .ok keys) ↔ c.hop.toNat < maxHops)) ∧
    ∀ (relayPublic : Octets 32) (request delivered : SetupRequest) (pending : PendingSetup S)
      (response received : SetupResponse) (relayKeys keys : HopKeys),
      InitiatorSetup.start S c relayPublic started initiatorSecret = .ok (request, pending) →
      RelaySetup.accept S delivered relaySecret accepted secret = .ok (response, relayKeys) →
      InitiatorSetup.finish pending received finished = .ok keys →
      received.tag = response.tag →
      (∀ x y tag, RelaySetup.exchange S delivered relaySecret accepted secret = .ok x →
        pending.exchange received finished = .ok (y, tag) → x.TagsApart S y) →
      delivered = request ∧ received = response ∧ keys = relayKeys := by
  constructor
  · intro hstatic hephemeral hstarted haccepted hfinished
    constructor
    · rintro ⟨request, pending, _, _, hstart, _, _⟩
      exact (start_ok_iff.mp hstart).1.1
    · intro hhop
      exact undisturbed hS c hstatic hephemeral hhop hstarted haccepted hfinished
  · intro relayPublic request delivered pending response received relayKeys keys hstart haccept hfinish
      htag hapart
    exact delivered_unchanged hS hstart haccept hfinish htag hapart

/-- What both sides know of the exchange for a hop. -/
def sampleKnown (hop : UInt8) : Exchange :=
  ⟨sampleContext hop, filled 32 [2], filled 32 [3], filled 32 [1], filled 32 [3], filled 32 [5]⟩

/-- The request for the second hop, changed on its way into one for the third. -/
def movedRequest : SetupRequest := ⟨encodeSetupRequest (sampleContext 2) (filled 32 [2]) (filled 32 [1])⟩

/-- The response for a hop, under the tag of the relay's answer to that request. -/
def movedResponse (hop : UInt8) : SetupResponse :=
  ⟨encodeSetupResponse (sampleContext hop) (filled 32 [2]) (filled 32 [3]) (filled 32 [1])
    (checksum (sampleKnown 2).transcript)⟩

/-- The second hop is set up.  If its request is changed into one for the third, the relay accepts, and the
initiator takes no response with the relay's tag. -/
theorem second_hop_agrees :
    (∃ request pending response keys,
      InitiatorSetup.start sampleSetup (sampleContext 1) (filled 32 [1]) 10 (filled 32 [2]) =
        .ok (request, pending) ∧
      RelaySetup.accept sampleSetup request (filled 32 [1]) 20 (filled 32 [3]) = .ok (response, keys) ∧
      InitiatorSetup.finish pending response 30 = .ok keys) ∧
    ∃ request pending relayKeys,
      InitiatorSetup.start sampleSetup (sampleContext 1) (filled 32 [1]) 10 (filled 32 [2]) =
        .ok (request, pending) ∧
      RelaySetup.accept sampleSetup movedRequest (filled 32 [1]) 20 (filled 32 [3]) =
        .ok (movedResponse 2, relayKeys) ∧
      (movedResponse 1).tag = (movedResponse 2).tag ∧
      ∀ keys, InitiatorSetup.finish pending (movedResponse 1) 30 ≠ .ok keys := by
  obtain ⟨hundisturbed, hdelivered⟩ := handshake_agreement sampleSetup_lawful (sampleContext 1)
    (filled 32 [1]) (filled 32 [2]) (filled 32 [3]) 10 20 30
  refine ⟨(hundisturbed (by decide) (by decide) (by decide) (by decide) (by decide)).mpr (by decide), ?_⟩
  have hstart : InitiatorSetup.start sampleSetup (sampleContext 1) (filled 32 [1]) 10 (filled 32 [2]) =
      .ok (⟨encodeSetupRequest (sampleContext 1) (filled 32 [2]) (filled 32 [1])⟩,
        ⟨sampleContext 1, filled 32 [2], filled 32 [2], filled 32 [1]⟩) := rfl
  have hrelay : RelaySetup.exchange sampleSetup movedRequest (filled 32 [1]) 20 (filled 32 [3]) =
      .ok (sampleKnown 2) := by decide +kernel
  have haccept := accept_ok_iff.mpr ⟨sampleKnown 2, _, hrelay, rfl, rfl⟩
  have htag : (movedResponse 1).tag = (movedResponse 2).tag :=
    (tag_of_encoded rfl).trans (tag_of_encoded (r := movedResponse 2) rfl).symm
  refine ⟨_, _, _, hstart, haccept, htag, fun keys hfinish => ?_⟩
  have hsame := (hdelivered _ _ _ _ _ _ _ _ hstart haccept hfinish htag ?_).1
  · exact absurd hsame (by decide +kernel)
  · intro x y tag hx hy htags
    have hinitiator : PendingSetup.exchange (S := sampleSetup)
        ⟨sampleContext 1, filled 32 [2], filled 32 [2], filled 32 [1]⟩ (movedResponse 1) 30 =
        .ok (sampleKnown 1, checksum (sampleKnown 2).transcript) := by decide +kernel
    obtain rfl := Except.ok.inj (hx.symm.trans hrelay)
    obtain rfl := congrArg Prod.fst (Except.ok.inj (hy.symm.trans hinitiator))
    exact absurd htags (by decide +kernel)

/-- A context for a fourth hop is refused at the start, long before it expires. -/
theorem fourth_hop_refused :
    sampleSetup.Lawful ∧
    sampleSetup.wasContributory (sampleSetup.diffieHellman (filled 32 [2]) (filled 32 [1])) = true ∧
    sampleSetup.wasContributory (sampleSetup.diffieHellman (filled 32 [2]) (filled 32 [3])) = true ∧
    (10 : UInt64) < (sampleContext 3).expiresAt ∧
    ∀ request pending, InitiatorSetup.start sampleSetup (sampleContext 3) (filled 32 [1]) 10
      (filled 32 [2]) ≠ .ok (request, pending) := by
  refine ⟨sampleSetup_lawful, by decide, by decide, by decide, fun request pending h => ?_⟩
  exact absurd (start_ok_iff.mp h).1.1 (by decide)

end Peerless.Onion
