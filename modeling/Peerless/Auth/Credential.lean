import Peerless.Auth.Issuance
import Peerless.Auth.SingleUse

/-!
# From a challenge to a redemption

The client of `peerless-anonymous-auth`, and the way of one credential: the client blinds a token for a
challenge, the issuer signs the blinded message, the client unblinds the signature, and a verifier redeems
the token.  Every party checks lengths, key ids, digests and epochs of its own.

* `Correct` — **the assumption on `privacypass`**: a request can be made for every key, and once signed it
  unblinds to a token of the key;
* `credential_redeems` — no check of one party stands against another's, so the credential is redeemed in
  its epoch.
-/

namespace Peerless.Auth

open Text JsonText HashMap Peerless.Core Identity Chain AnonymousIssuer

def maxResponseBytes : ℕ := 512

/-- The client's side of the token scheme; `Seed` is what is drawn, and a `TokenChallenge` is its issuer's
name and its origins. -/
structure ClientPrimitives extends GeneratorPrimitives where
  Seed : Type
  TokenRequest : Type
  TokenState : Type
  TokenResponse : Type
  newRequest : Seed → PublicKey → String → List Bytes → Option (TokenRequest × TokenState)
  serializeRequest : TokenRequest → Option Bytes
  deserializeResponse : Bytes → Option (TokenResponse × Bytes)
  issueToken : TokenResponse → TokenState → Option PublicToken
  serializeToken : PublicToken → Option Bytes

/-- The origins of a scope's token challenge. -/
def AuthorizationScope.origins (s : AuthorizationScope) : List Bytes := [(write s.toJson).flatMap hexByte]

def AuthorizationScope.challenge (s : AuthorizationScope) : Except AnonymousAuthError (List Bytes) :=
  match s.validate with
  | .error err => .error err
  | .ok () => .ok s.origins

def decodeExact {α : Type} (read : Bytes → Option (α × Bytes)) (bytes : Bytes) (maximum : ℕ) :
    Except AnonymousAuthError α :=
  if bytes.isEmpty ∨ bytes.length > maximum then .error .invalidEncoding
  else
    match read bytes with
    | some (value, []) => .ok value
    | _ => .error .invalidEncoding

structure PendingCredential (T : ClientPrimitives) where
  scope : AuthorizationScope
  state : T.TokenState

namespace AnonymousCredentialClient

variable {T : ClientPrimitives} (P : Primitives)

def begin (seed : T.Seed) (challenge : AnonymousChallenge) :
    Except AnonymousAuthError (BlindCredentialRequest × PendingCredential T) :=
  match challenge.scope.validate with
  | .error err => .error err
  | .ok () =>
    match keyId P challenge.issuerPublicKey with
    | .error err => .error err
    | .ok id =>
      if id ≠ challenge.scope.issuerKeyId then .error .invalidScope
      else
        match T.fromSpki challenge.issuerPublicKey with
        | none => .error .invalidEncoding
        | some publicKey =>
          match challenge.scope.challenge with
          | .error err => .error err
          | .ok origins =>
            match T.newRequest seed publicKey issuerName origins with
            | none => .error .verificationFailed
            | some (request, state) =>
              match T.serializeRequest request with
              | none => .error .invalidEncoding
              | some request => .ok (⟨challenge.scope, request⟩, ⟨challenge.scope, state⟩)

def finish (pending : PendingCredential T) (response : Bytes) :
    Except AnonymousAuthError AnonymousPresentation :=
  if response.length > maxResponseBytes then .error .invalidEncoding
  else
    match decodeExact T.deserializeResponse response maxResponseBytes with
    | .error err => .error err
    | .ok read =>
      match T.issueToken read pending.state with
      | none => .error .verificationFailed
      | some token =>
        match T.serializeToken token with
        | none => .error .invalidEncoding
        | some token => .ok ⟨pending.scope, token⟩

end AnonymousCredentialClient

open AnonymousCredentialClient

section

variable (T : ClientPrimitives) (P : Primitives)

/-- A response that unblinds to a token for the key and the challenge. -/
structure Unblinds (key : T.PublicKey) (origins : List Bytes) (state : T.TokenState) (response : Bytes)
    (token : PublicToken) (wire : Bytes) : Prop where
  size : response.length = publicResponseBytes
  read : ∃ value, T.deserializeResponse response = some (value, []) ∧ T.issueToken value state = some token
  wire : T.serializeToken token = some wire ∧ wire.length = publicTokenBytes ∧
    T.tlsDeserialize wire = some (token, [])
  digest : T.challengeDigest issuerName origins = some token.challengeDigest
  keyId : ∀ der, T.serializePublicKey key = some der → token.tokenKeyId = P.sha256 der
  filed : T.truncatedTokenKeyId key = some (T.truncateTokenKeyId token.tokenKeyId)
  verifies : T.verifyToken key token = true

/-- **Blind signatures**: a key has at most 1024 bytes and a request can be made for it; the request names
the key, and what the private key makes of its 256 bytes unblinds. -/
structure ClientPrimitives.Correct : Prop where
  reads : T.Lawful
  short : ∀ key der, T.serializePublicKey key = some der → der.length ≤ 1024
  requests : ∀ seed key origins, ∃ made state bytes,
    T.newRequest seed key issuerName origins = some (made, state) ∧ T.serializeRequest made = some bytes
  signature : ∀ privateKey seed key origins made state bytes, T.publicKeyOf privateKey = some key →
    T.newRequest seed key issuerName origins = some (made, state) →
    T.serializeRequest made = some bytes → ∃ blinded response token wire,
      bytes = tokenTypePublic ++ T.truncateTokenKeyId token.tokenKeyId :: blinded ∧ blinded.length = 256 ∧
      T.privateDecrypt privateKey blinded = some response ∧
      Unblinds T P key origins state response token wire

end

variable {T : ClientPrimitives} {P : Primitives} {d : ScopeKeyDescriptor} {now : ℕ}

/-! ### What an issuer stores -/

section

variable {G : GeneratorPrimitives} {s : AnonymousIssuer G.toIssuerPrimitives}

theorem prune_stored {scope : AuthorizationScope}
    (h : (s.prune now).descriptors.lookup scope = some d) : s.descriptors.lookup scope = some d := by
  have hdropped : ∀ (entries : List (AuthorizationScope × Bytes)) (s : AnonymousIssuer G.toIssuerPrimitives),
      (entries.foldl dropScope s).descriptors.lookup scope = some d → s.descriptors.lookup scope = some d := by
    intro entries
    induction entries with
    | nil => intro s h; exact h
    | cons e entries ih =>
      intro s h
      have hone := ih (s.dropScope e) h
      rw [dropScope_descriptors] at hone
      exact lookup_of_erase hone
  rw [AnonymousIssuer.prune, (dropCounts_fields _ now).2.1] at h
  exact hdropped _ s h

/-- **Every stored descriptor is described**: its scope is valid and names its key. -/
theorem described_step (hG : G.Lawful) (call : IssuerCall G P)
    (h : ∀ scope d, s.descriptors.lookup scope = some d → d.Described P) :
    ∀ scope d, (issuerStep s call).1.descriptors.lookup scope = some d → d.Described P := by
  intro scope d hd
  cases call with
  | challenge issuer networkId permission now draws =>
    replace hd : (s.challenge issuer networkId permission now draws).1.descriptors.lookup scope = some d := hd
    rcases challenge_cases hG s issuer networkId permission now draws with
      hsame | hpruned | ⟨_, id, der, key, _, _, _, hkey | ⟨d', _, hnew, hdescribed⟩⟩
    · rw [hsame] at hd
      exact h scope d hd
    · rw [hpruned] at hd
      exact h scope d (prune_stored hd)
    · rw [hkey] at hd
      exact h scope d (prune_stored hd)
    · rw [hdescribed] at hd
      replace hd : ((s.prune now).descriptors.insert d'.scope d').lookup scope = some d := hd
      by_cases hscope : scope = d'.scope
      · rw [hscope, AList.lookup_insert] at hd
        rw [← Option.some.inj hd]
        exact hnew
      · rw [AList.lookup_insert_ne hscope] at hd
        exact h scope d (prune_stored hd)
  | issue m trusted revoked request now =>
    refine h scope d ?_
    rw [← (issue_fields (P := P) s m trusted revoked request now).2.1]
    exact hd
  | prune now => exact h scope d (prune_stored hd)

end

/-- A descriptor that an issuer serves: the client's checks pass, and the private key is at hand. -/
structure Serves (P : Primitives) (s : AnonymousIssuer T.toIssuerPrimitives) (d : ScopeKeyDescriptor)
    (slot : UInt8) (privateKey : T.PrivateKey) (key : T.PublicKey) : Prop where
  stored : s.descriptors.lookup d.scope = some d
  valid : d.scope.validate = .ok ()
  named : keyId P d.publicKey = .ok d.scope.issuerKeyId
  spki : T.fromSpki d.publicKey = some key
  slotOf : truncatedOf T.toTokenPrimitives d.publicKey = some slot
  filed : s.keys.lookup slot = some privateKey
  half : T.publicKeyOf privateKey = some key

/-- **Whatever an issuer was asked, it serves the descriptors it stores.** -/
theorem serves_after (hT : T.Correct P) {policy : CredentialPolicy}
    {s₀ : AnonymousIssuer T.toIssuerPrimitives} (hnew : AnonymousIssuer.new policy = .ok s₀)
    (calls : List (IssuerCall T.toGeneratorPrimitives P))
    (hd : (Mealy.after issuerStep s₀ calls).descriptors.lookup d.scope = some d) :
    ∃ slot privateKey key, Serves P (Mealy.after issuerStep s₀ calls) d slot privateKey key := by
  have hkept := kept_after hT.reads calls s₀ (kept_new hnew)
  have hdescribed : ∀ scope d, (Mealy.after issuerStep s₀ calls).descriptors.lookup scope = some d →
      d.Described P := by
    refine Mealy.after_invariant (I := fun s : AnonymousIssuer T.toIssuerPrimitives =>
      ∀ scope d, s.descriptors.lookup scope = some d → d.Described P)
      (fun _ call h => described_step hT.reads call h) calls s₀ ?_
    intro scope d hlookup
    rw [new_ok hnew] at hlookup
    cases hlookup
  -- the key in the slot of the descriptor is the descriptor's own
  obtain ⟨slot, privateKey, hslot, hfiled, hder⟩ :=
    Slots.Safe.owned hkept.filed.matched hd (Set.notMem_empty _)
  obtain ⟨key, hhalf, hserialize⟩ := Option.bind_eq_some_iff.mp hder
  obtain ⟨hvalid, hid⟩ := hdescribed d.scope d hd
  refine ⟨slot, privateKey, key, hd, hvalid, ?_, hT.reads key d.publicKey hserialize, hslot, hfiled, hhalf⟩
  rw [keyId, if_neg (not_lt.mpr (hT.short key d.publicKey hserialize)), hid]

/-! ### The way of a credential -/

section

variable {s : AnonymousIssuer T.toIssuerPrimitives} {slot : UInt8} {privateKey : T.PrivateKey}
  {key : T.PublicKey} (hs : Serves P s d slot privateKey key) {seed : T.Seed} {made : T.TokenRequest}
  {state : T.TokenState} {bytes : Bytes}
  (hmade : T.newRequest seed key issuerName d.scope.origins = some (made, state))
  (hbytes : T.serializeRequest made = some bytes)

include hs

include hmade hbytes in
/-- **The client begins** with a challenge of the descriptor. -/
theorem begin_serves : begin P seed d.asChallenge = .ok (⟨d.scope, bytes⟩, ⟨d.scope, state⟩) := by
  simp [AnonymousCredentialClient.begin, ScopeKeyDescriptor.asChallenge, AuthorizationScope.challenge,
    hs.valid, hs.named, hs.spki, hmade, hbytes]

include hmade hbytes in
/-- **The issuer signs** for an authorised member within the limit. -/
theorem issue_serves (hT : T.Correct P) {m : Membership} {trusted revoked : Finset NodeId}
    (hepoch : s.policy.epoch now = .ok (d.scope.epoch, d.scope.expiresAt))
    (hauth : authorise P m trusted revoked d.scope now = .ok ())
    (hroom : s.issued m.member now < s.policy.maxIssuesPerMemberEpoch) :
    ∃ response token wire, (s.issue P m trusted revoked ⟨d.scope, bytes⟩ now).2 = .ok response ∧
      Unblinds T P key d.scope.origins state response token wire := by
  obtain ⟨blinded, response, token, wire, hform, hlength, hdecrypt, hunblinds⟩ :=
    hT.signature privateKey _ _ _ _ _ _ hs.half hmade hbytes
  have htruncated : (T.fromSpki d.publicKey).bind T.truncatedTokenKeyId =
      some (T.truncateTokenKeyId token.tokenKeyId) := by
    rw [hs.spki]
    exact hunblinds.filed
  obtain rfl := Option.some.inj (htruncated.symm.trans hs.slotOf)
  refine ⟨response, token, wire, ?_, hunblinds⟩
  have hchecked : s.checked P m trusted revoked ⟨d.scope, bytes⟩ now =
      .ok (d.scope.epoch, T.truncateTokenKeyId token.tokenKeyId) := by
    simp [AnonymousIssuer.checked, hs.valid, hauth, AnonymousIssuer.envelope, hepoch, hs.stored, hs.named,
      hform, hlength, htruncated, tokenTypePublic, publicRequestBytes, maxRequestBytes]
  rcases issue_cases (P := P) s m trusted revoked ⟨d.scope, bytes⟩ now with
    ⟨_, herror, _⟩ | ⟨_, hchecked', ⟨hlimit, _⟩ | ⟨_, hissue⟩⟩
  · cases hchecked.symm.trans herror
  · exact absurd hlimit (not_le.mpr hroom)
  · obtain ⟨_, rfl⟩ := Prod.mk.inj (Except.ok.inj (hchecked.symm.trans hchecked'))
    rw [hissue]
    simp [AnonymousIssuer.blindSign, hs.filed, hform, tokenTypePublic, hdecrypt, hunblinds.size]

variable {response wire : Bytes} {token : PublicToken}
  (h : Unblinds T P key d.scope.origins state response token wire)

include h

omit hs in
theorem finish_unblinds (scope : AuthorizationScope) :
    finish ⟨scope, state⟩ response = .ok ⟨scope, wire⟩ := by
  obtain ⟨value, hvalue, htoken⟩ := h.read
  have hnonempty : response ≠ [] := by
    rintro rfl
    cases h.size
  simp [finish, decodeExact, h.size, publicResponseBytes, maxResponseBytes, hnonempty, hvalue, htoken, h.wire.1]

/-- **The verifier redeems** a token of a descriptor it holds. -/
theorem redeem_unblinds {v : AnonymousVerifier T.toTokenPrimitives} {clock : ℕ} (hv : Mirror v)
    (hheld : v.descriptors.lookup d.scope = some d)
    (hepoch : v.policy.epoch now = .ok (d.scope.epoch, d.scope.expiresAt))
    (hfresh : (v.nonces.reserve token.nonce clock).2 = true) :
    (v.redeem P ⟨⟨d.scope, wire⟩, d.scope.networkId, d.scope.permission⟩ now clock).2 = .ok () := by
  have hpruned : (v.prune now).descriptors.lookup d.scope = some d := by
    rw [prune_lookup, if_pos (CredentialPolicy.epoch_contains hepoch).2]
    exact hheld
  have hentry : keyEntry T.toTokenPrimitives d = some (T.truncateTokenKeyId token.tokenKeyId, key) := by
    rw [keyEntry, hs.spki, Option.bind_some, h.filed]
    rfl
  have hkeyId : token.tokenKeyId = d.scope.issuerKeyId := by
    obtain ⟨e, he, hserialize⟩ := hv.entry d.scope d hheld
    obtain rfl := Option.some.inj (hentry.symm.trans he)
    rw [h.keyId _ hserialize]
    have hid := hs.named
    unfold keyId at hid
    split at hid
    · cases hid
    · exact Except.ok.inj hid
  have htoken : Redeem.checkToken P T.toTokenPrimitives
      ⟨⟨d.scope, wire⟩, d.scope.networkId, d.scope.permission⟩ (v.prune now).descriptors = .ok token := by
    have hnonempty : wire ≠ [] := by
      rintro rfl
      cases h.wire.2.1
    have hdigest := h.digest
    rw [AuthorizationScope.origins] at hdigest
    simp [Redeem.checkToken, decodeToken, h.wire.2.1, h.wire.2.2, hnonempty, hpruned, hs.named, hkeyId,
      AuthorizationScope.challengeDigest, hs.valid, hdigest]
  have hverifies : (v.prune now).keys.verifies token = true := by
    have hmem := (mirror_prune hv now).filed.mem_iff.mpr
      (List.mem_filterMap.mpr ⟨d, mem_vals_of_lookup hpruned, hentry⟩)
    obtain ⟨keys, hkeys, hkey⟩ := mem_bag.mp hmem
    rw [OriginKeys.verifies, hkeys]
    exact List.any_eq_true.mpr ⟨key, hkey, h.verifies⟩
  have hreserve : (v.prune now).nonces.reserve token.nonce clock =
      ((v.nonces.reserve token.nonce clock).1, true) := by
    rw [show (v.prune now).nonces = v.nonces from (removeScopes_nonces _ v).1, ← hfresh]
  simp [AnonymousVerifier.redeem, Redeem.checkScope, hs.valid, hepoch, htoken, hreserve, hverifies]

end

/-- **A credential is redeemed.**  Whatever an issuer was asked before, from the challenge of a descriptor it
stores `begin` makes a request; the issuer signs it for an authorised member within the limit, and `finish`
makes a presentation of the challenge's scope.  A verifier that holds the descriptor, and in whose run no two
live descriptors shared a key, redeems it in its epoch if the nonce is new to it and there is room. -/
theorem credential_redeems (hT : T.Correct P) {policy : CredentialPolicy}
    {s₀ : AnonymousIssuer T.toIssuerPrimitives} (hnew : AnonymousIssuer.new policy = .ok s₀)
    (calls : List (IssuerCall T.toGeneratorPrimitives P))
    (hd : (Mealy.after issuerStep s₀ calls).descriptors.lookup d.scope = some d) (seed : T.Seed)
    {m : Membership} {trusted revoked : Finset NodeId}
    (hepoch : policy.epoch now = .ok (d.scope.epoch, d.scope.expiresAt))
    (hauth : authorise P m trusted revoked d.scope now = .ok ())
    (hroom : (Mealy.after issuerStep s₀ calls).issued m.member now < policy.maxIssuesPerMemberEpoch) :
    ∃ request, ∃ pending : PendingCredential T, ∃ (response wire : Bytes) (token : PublicToken),
      begin P seed d.asChallenge = .ok (request, pending) ∧
      ((Mealy.after issuerStep s₀ calls).issue P m trusted revoked request now).2 = .ok response ∧
      finish pending response = .ok ⟨d.scope, wire⟩ ∧ T.tlsDeserialize wire = some (token, []) ∧
      ∀ (limits : CredentialPolicy) (v₀ v : AnonymousVerifier T.toTokenPrimitives)
        (history : List VerifierCall) (time clock : ℕ), AnonymousVerifier.new limits = .ok v₀ →
        Runs.Meets (verifierStep P) OwnKey v₀ history →
        Runs.run (verifierStep P) v₀ history = some v → v.descriptors.lookup d.scope = some d →
        v.policy.epoch time = .ok (d.scope.epoch, d.scope.expiresAt) →
        (v.nonces.reserve token.nonce clock).2 = true →
        (v.redeem P ⟨⟨d.scope, wire⟩, d.scope.networkId, d.scope.permission⟩ time clock).2 = .ok () := by
  obtain ⟨slot, privateKey, key, hs⟩ := serves_after hT hnew calls hd
  obtain ⟨made, state, bytes, hmade, hbytes⟩ := hT.requests seed key d.scope.origins
  rw [← (kept_after hT.reads calls s₀ (kept_new hnew)).same] at hepoch hroom
  obtain ⟨response, token, wire, hissue, hunblinds⟩ := issue_serves hs hmade hbytes hT hepoch hauth hroom
  refine ⟨⟨d.scope, bytes⟩, ⟨d.scope, state⟩, response, wire, token, begin_serves hs hmade hbytes, hissue,
    finish_unblinds hunblinds d.scope, hunblinds.wire.2.2, ?_⟩
  intro limits v₀ v history time clock hfirst hmeets hrun hheld htime hfresh
  have hv := Runs.run_invariant (fun v c v' hv hok hstep => mirror_step hv hok hstep) history v₀ v
    (mirror_new hfirst) hmeets hrun
  exact redeem_unblinds hs hunblinds hv hheld htime hfresh

/-! ### A sample -/

open Sample

def unitToken : PublicToken := ⟨lowBytes 1, lowBytes 2, primitives.sha256 [7], []⟩

/-- A scheme with one key and one token. -/
def unitScheme : ClientPrimitives where
  PublicKey := Unit
  fromSpki _ := some ()
  serializePublicKey _ := some [7]
  truncatedTokenKeyId _ := some 3
  truncateTokenKeyId _ := 3
  tlsDeserialize _ := some (unitToken, [])
  challengeDigest _ _ := some (lowBytes 2)
  verifyToken _ _ := true
  PrivateKey := Unit
  privateDecrypt _ m := some m
  publicKeyOf := some
  Seed := Unit
  TokenRequest := Unit
  TokenState := Unit
  TokenResponse := Unit
  newRequest _ _ _ _ := some ((), ())
  serializeRequest _ := some ([0, 2, 3] ++ List.replicate 256 0)
  deserializeResponse _ := some ((), [])
  issueToken _ _ := some unitToken
  serializeToken _ := some (List.replicate 354 0)

theorem unitScheme_correct : unitScheme.Correct primitives where
  reads _ _ _ := rfl
  short := by
    intro _ der h
    rw [← Option.some.inj h]
    decide
  requests _ _ _ := ⟨(), (), _, rfl, rfl⟩
  signature := by
    intro _ _ _ origins made state bytes _ _ hbytes
    refine ⟨_, _, _, _, (Option.some.inj hbytes).symm, List.length_replicate, rfl, List.length_replicate,
      ⟨(), rfl, rfl⟩, ⟨rfl, List.length_replicate, rfl⟩, rfl, ?_, rfl, rfl⟩
    intro der h
    rw [← Option.some.inj h]
    rfl

def storageDescriptor : ScopeKeyDescriptor :=
  (describe (identity [1]) "net" "storage" 0 300 [7]).toOption.getD ⟨storageScope "", [], member [], [], []⟩

/-- A verifier gets the descriptor. -/
def storageHistory : List VerifierCall := [.add storageDescriptor {member [1]} 5]

def storageVerifier : AnonymousVerifier unitScheme.toTokenPrimitives := ⟨onePolicy, ∅, ∅, .new 8 300⟩

/-- A member asks for storage and is redeemed. -/
theorem storage_credential_redeems : ∃ v presentation,
    Runs.run (verifierStep primitives) storageVerifier storageHistory = some v ∧
    (v.redeem primitives ⟨presentation, "net", "storage"⟩ 7 8).2 = .ok () := by
  have heval : ((Runs.run (Runs.guarded (verifierStep primitives) fun v c => decide (OwnKey v c))
      storageVerifier storageHistory).map fun v => decide (
        v.descriptors.lookup storageDescriptor.scope = some storageDescriptor ∧
        v.policy.epoch 7 = .ok (storageDescriptor.scope.epoch, storageDescriptor.scope.expiresAt) ∧
        (v.nonces.reserve unitToken.nonce 8).2 = true)) = some true := by
    decide +kernel
  obtain ⟨v, hrun, hv⟩ := Option.map_eq_some_iff.mp heval
  obtain ⟨hmeets, hrun⟩ := Runs.run_guarded _ _ v hrun
  simp only [decide_eq_true_eq] at hmeets
  obtain ⟨hheld, htime, hfresh⟩ := of_decide_eq_true hv
  obtain ⟨_, _, _, _, _, _, _, _, htoken, hredeems⟩ := @credential_redeems unitScheme primitives storageDescriptor 6
    unitScheme_correct onePolicy ⟨onePolicy, ∅, ∅, ∅⟩ rfl
    [.challenge (identity [1]) "net" "storage" 5 fun _ => some ()] (by decide +kernel) ()
    (storageCertificate ["storage"]) {member [1]} ∅ (by decide +kernel) (by decide +kernel) (by decide +kernel)
  obtain ⟨rfl, _⟩ := Prod.mk.inj (Option.some.inj htoken)
  exact ⟨v, _, hrun, hredeems onePolicy _ v storageHistory 7 8 rfl hmeets hrun hheld htime hfresh⟩

end Peerless.Auth
