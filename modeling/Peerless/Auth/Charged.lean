import Peerless.Auth.Challenge

/-!
# What a refused issuance costs

`AnonymousIssuer::issue` counts an issuance once the request's envelope is checked, and only then looks
up the private key and signs.  What fails after the count is charged to the member.

* `refused_costless_iff` — a refusal leaves the member's count exactly if a request that is
  counted can be signed: the key is there and the blinded message is below its modulus.
-/

namespace Peerless.Auth

open Text HashMap Wire Peerless.Core Identity Chain

variable {T : IssuerPrimitives} {P : Primitives}

/-- **Raw RSA, as OpenSSL documents it**: without padding the private operation on 256 bytes fails
exactly if they are, read big endian, not below the modulus, and it writes 256 bytes. -/
structure IssuerPrimitives.RawRsa (T : IssuerPrimitives) (modulus : T.PrivateKey → ℕ) : Prop where
  fails_iff : ∀ key m, m.length = 256 → (T.privateDecrypt key m = none ↔ modulus key ≤ ofBe m)
  size : ∀ key m response, T.privateDecrypt key m = some response → response.length = 256

/-- The issuances recorded for a member in the epoch of a time. -/
def AnonymousIssuer.issued (s : AnonymousIssuer T) (member : NodeId) (now : ℕ) : ℕ :=
  (s.issuance.lookup (member, now / s.policy.epochSeconds)).getD 0

variable {s : AnonymousIssuer T} {m : Membership} {trusted revoked : Finset NodeId}
  {request : BlindCredentialRequest} {now : ℕ}

/-! ### The envelope -/

variable {truncated : UInt8}

/-- **What the envelope checks**: the scope is of the current epoch, its descriptor is stored, and the
request names the key of that descriptor. -/
theorem envelope_ok {epoch : ℕ} (h : s.envelope P request now = .ok (epoch, truncated)) :
    s.policy.epoch now = .ok (epoch, request.scope.expiresAt) ∧ request.scope.epoch = epoch ∧
      request.request.length = publicRequestBytes ∧
      ∃ d, s.descriptors.lookup request.scope = some d ∧
        truncatedOf T.toTokenPrimitives d.publicKey = some truncated := by
  unfold AnonymousIssuer.envelope at h
  split at h
  · cases h
  · rename_i expectedEpoch expectedExpiry hepoch
    split at h
    · cases h
    · rename_i hscope
      split at h
      · cases h
      · split at h
        · cases h
        · rename_i d hd
          split at h
          · cases h
          · split at h
            · cases h
            · split at h
              · cases h
              · rename_i hform
                split at h
                · cases h
                · rename_i expectedTruncated htruncated
                  split at h
                  · cases h
                  · simp only [Except.ok.injEq, Prod.mk.injEq] at h
                    obtain ⟨rfl, rfl⟩ := h
                    push Not at hscope hform
                    refine ⟨?_, hscope.1, hform.1, d, hd, htruncated⟩
                    rw [hepoch, hscope.2]

theorem checked_ok {epoch : ℕ} (h : s.checked P m trusted revoked request now = .ok (epoch, truncated)) :
    s.envelope P request now = .ok (epoch, truncated) := by
  unfold AnonymousIssuer.checked at h
  split at h
  · cases h
  · split at h
    · cases h
    · exact h

theorem checked_epoch {epoch : ℕ} (h : s.checked P m trusted revoked request now = .ok (epoch, truncated)) :
    epoch = now / s.policy.epochSeconds :=
  (CredentialPolicy.epoch_ok (envelope_ok (checked_ok h)).1).2.1

/-! ### The count -/

/-- The counters after one of them is set: those of earlier epochs are gone. -/
def AnonymousIssuer.recount (s : AnonymousIssuer T) (member : NodeId) (epoch count : ℕ) :
    AnonymousIssuer T :=
  { s with
    issuance := (retain (fun key _ => key.2 ≥ epoch) s.issuance).insert (member, epoch) count }

theorem recount_lookup (s : AnonymousIssuer T) (member : NodeId) (epoch count : ℕ) (key : NodeId × ℕ) :
    ((s.recount member epoch count).issuance.lookup key).getD 0 =
      if key = (member, epoch) then count
      else if epoch ≤ key.2 then (s.issuance.lookup key).getD 0 else 0 := by
  show (((retain _ s.issuance).insert (member, epoch) count).lookup key).getD 0 = _
  by_cases hkey : key = (member, epoch)
  · rw [hkey, AList.lookup_insert, if_pos rfl]
    rfl
  · rw [AList.lookup_insert_ne hkey, if_neg hkey, lookup_retain]
    cases s.issuance.lookup key with
    | none => simp
    | some n =>
      by_cases hepoch : epoch ≤ key.2
      · rw [if_pos hepoch, Option.filter_some_pos (by simpa using hepoch)]
      · rw [if_neg hepoch, Option.filter_some_neg (by simpa using hepoch)]
        rfl

theorem issued_recount (s : AnonymousIssuer T) (member : NodeId) (now count : ℕ) :
    (s.recount member (now / s.policy.epochSeconds) count).issued member now = count := by
  show ((s.recount member (now / s.policy.epochSeconds) count).issuance.lookup _).getD 0 = count
  rw [recount_lookup]
  exact if_pos rfl

/-- **What the count does**: at the limit the counter stays, below it the counter advances. -/
theorem countIssue_cases (s : AnonymousIssuer T) (member : NodeId) (now : ℕ) :
    (s.policy.maxIssuesPerMemberEpoch ≤ s.issued member now ∧
      s.countIssue member (now / s.policy.epochSeconds) =
        (s.recount member (now / s.policy.epochSeconds) (s.issued member now),
          .error .issuanceLimit)) ∨
    (s.issued member now < s.policy.maxIssuesPerMemberEpoch ∧
      s.countIssue member (now / s.policy.epochSeconds) =
        (s.recount member (now / s.policy.epochSeconds) (s.issued member now + 1), .ok ())) := by
  have hkept : ((retain (fun key _ => decide (key.2 ≥ now / s.policy.epochSeconds)) s.issuance).lookup
      (member, now / s.policy.epochSeconds)).getD 0 = s.issued member now := by
    rw [AnonymousIssuer.issued]
    cases hlookup : s.issuance.lookup (member, now / s.policy.epochSeconds) with
    | none => rw [lookup_retain, hlookup]; rfl
    | some count => rw [lookup_retain_of_pos hlookup (decide_eq_true (le_refl _))]
  unfold AnonymousIssuer.countIssue
  dsimp only
  rw [hkept]
  by_cases hlimit : s.issued member now ≥ s.policy.maxIssuesPerMemberEpoch
  · rw [if_pos hlimit]
    exact Or.inl ⟨hlimit, rfl⟩
  · rw [if_neg hlimit]
    exact Or.inr ⟨not_le.mp hlimit, rfl⟩

/-- **What `issue` does**: it refuses and leaves the issuer alone, it reaches the limit, or it counts and
then signs. -/
theorem issue_cases (s : AnonymousIssuer T) (m : Membership) (trusted revoked : Finset NodeId)
    (request : BlindCredentialRequest) (now : ℕ) :
    (∃ err, s.checked P m trusted revoked request now = .error err ∧
      s.issue P m trusted revoked request now = (s, .error err)) ∨
    ∃ truncated, s.checked P m trusted revoked request now =
        .ok (now / s.policy.epochSeconds, truncated) ∧
      ((s.policy.maxIssuesPerMemberEpoch ≤ s.issued m.member now ∧
          s.issue P m trusted revoked request now =
            (s.recount m.member (now / s.policy.epochSeconds) (s.issued m.member now),
              .error .issuanceLimit)) ∨
        (s.issued m.member now < s.policy.maxIssuesPerMemberEpoch ∧
          s.issue P m trusted revoked request now =
            (s.recount m.member (now / s.policy.epochSeconds) (s.issued m.member now + 1),
              s.blindSign truncated (request.request.drop 3)))) := by
  rw [AnonymousIssuer.issue]
  cases hchecked : s.checked P m trusted revoked request now with
  | error err => exact Or.inl ⟨err, rfl, rfl⟩
  | ok passed =>
    obtain ⟨epoch, truncated⟩ := passed
    obtain rfl := checked_epoch hchecked
    right
    refine ⟨truncated, rfl, ?_⟩
    dsimp only
    rcases countIssue_cases s m.member now with ⟨hlimit, hcount⟩ | ⟨hroom, hcount⟩
    · rw [hcount]
      exact Or.inl ⟨hlimit, rfl⟩
    · rw [hcount]
      exact Or.inr ⟨hroom, rfl⟩

/-! ### The signature -/

theorem blindSign_error_iff {modulus : T.PrivateKey → ℕ} (hrsa : T.RawRsa modulus) {blinded : Bytes}
    (hlength : blinded.length = 256) :
    (∃ err, s.blindSign truncated blinded = .error err) ↔
      ¬∃ key, s.keys.lookup truncated = some key ∧ ofBe blinded < modulus key := by
  rw [AnonymousIssuer.blindSign]
  cases hlookup : s.keys.lookup truncated with
  | none => simp
  | some key =>
    have hfails := hrsa.fails_iff key blinded hlength
    simp only [Option.some.injEq, exists_eq_left']
    cases hdecrypt : T.privateDecrypt key blinded with
    | none => simpa using hfails.mp hdecrypt
    | some response =>
      have hsize : response.length = publicResponseBytes := hrsa.size key blinded response hdecrypt
      have hbelow : ¬modulus key ≤ ofBe blinded := fun hle => by
        rw [hdecrypt] at hfails
        exact absurd (hfails.mpr hle) (by simp)
      simp [hsize, not_le.mp hbelow]

/-- A request that is counted can be signed: the key is there, and the blinded message is below its
modulus. -/
def Signable (modulus : T.PrivateKey → ℕ) (s : AnonymousIssuer T) (truncated : UInt8)
    (request : BlindCredentialRequest) : Prop :=
  ∃ key, s.keys.lookup truncated = some key ∧ ofBe (request.request.drop 3) < modulus key

/-- **A refusal costs nothing exactly if what is counted can be signed.** -/
theorem refused_costless_iff {modulus : T.PrivateKey → ℕ} (hrsa : T.RawRsa modulus)
    (s : AnonymousIssuer T) (m : Membership) (trusted revoked : Finset NodeId)
    (request : BlindCredentialRequest) (now : ℕ) :
    (∀ err, (s.issue P m trusted revoked request now).2 = .error err →
      (s.issue P m trusted revoked request now).1.issued m.member now = s.issued m.member now) ↔
    ∀ epoch truncated, s.checked P m trusted revoked request now = .ok (epoch, truncated) →
      s.issued m.member now < s.policy.maxIssuesPerMemberEpoch → Signable modulus s truncated request := by
  rcases issue_cases (P := P) s m trusted revoked request now with
    ⟨err, hchecked, hissue⟩ | ⟨truncated, hchecked, ⟨hlimit, hissue⟩ | ⟨hroom, hissue⟩⟩
  · rw [hissue, hchecked]
    constructor
    · intro _ epoch truncated h
      cases h
    · intro _ _ _
      rfl
  · rw [hissue]
    constructor
    · intro _ _ _ _ hroom
      exact absurd hlimit (not_le.mpr hroom)
    · intro _ _ _
      exact issued_recount s m.member now _
  · have hform := (envelope_ok (checked_ok hchecked)).2.2.1
    have hlength : (request.request.drop 3).length = 256 := by
      rw [List.length_drop, hform]
      rfl
    have hsign : (∃ err, s.blindSign truncated (request.request.drop 3) = .error err) ↔
        ¬Signable modulus s truncated request := blindSign_error_iff hrsa hlength
    rw [hissue, hchecked]
    dsimp only
    rw [issued_recount]
    constructor
    · intro h epoch' truncated' heq _
      obtain ⟨rfl, rfl⟩ := Prod.mk.inj (Except.ok.inj heq)
      by_contra hnot
      obtain ⟨err, herr⟩ := hsign.mpr hnot
      exact absurd (h err herr) (Nat.succ_ne_self _)
    · intro h err herr
      exact absurd (h _ _ rfl hroom) (hsign.mp ⟨err, herr⟩)

/-! ### Samples -/

open Sample

theorem sampleKeys_rawRsa : sampleKeys.RawRsa sampleModulus := by
  refine ⟨?_, ?_⟩
  · intro (key : UInt8) m hlength
    show (if m.length = 256 ∧ ofBe m < sampleModulus key then some m else none) = none ↔ _
    by_cases hbelow : ofBe m < sampleModulus key
    · rw [if_pos ⟨hlength, hbelow⟩]
      simpa using hbelow
    · rw [if_neg fun h => hbelow h.2]
      simpa using not_lt.mp hbelow
  · intro (key : UInt8) m response h
    have heq : (if m.length = 256 ∧ ofBe m < sampleModulus key then some m else none) =
        some response := h
    split at heq
    · rename_i hm
      rw [← Option.some.inj heq]
      exact hm.1
    · cases heq

/-- An issuer of one issuance per member, with the key 6 for storage in the first epoch. -/
def oneIssue : AnonymousIssuer sampleKeys.toIssuerPrimitives :=
  let scope : AuthorizationScope := ⟨1, "net", "storage", 0, 300, primitives.sha256 [6]⟩
  { policy := ⟨300, 1, 4, 8⟩
    keys := AList.insert 2 (6 : UInt8) ∅
    descriptors := (∅ : Map AuthorizationScope ScopeKeyDescriptor).insert scope
      ⟨scope, [6], member [1], [1], []⟩
    issuance := ∅ }

/-- A request for that scope with every byte of the blinded message equal. -/
def uniformRequest (blinded : UInt8) : BlindCredentialRequest :=
  ⟨⟨1, "net", "storage", 0, 300, primitives.sha256 [6]⟩, [0, 2, 2] ++ List.replicate 256 blinded⟩

/-- A small blinded message is counted and signed. -/
theorem small_request_signed :
    oneIssue.checked primitives (storageCertificate ["storage"]) {member [1]} ∅ (uniformRequest 1) 5 =
        .ok (0, 2) ∧
      ∀ err, (oneIssue.issue primitives (storageCertificate ["storage"]) {member [1]} ∅
          (uniformRequest 1) 5).2 = .error err →
        (oneIssue.issue primitives (storageCertificate ["storage"]) {member [1]} ∅
          (uniformRequest 1) 5).1.issued (storageCertificate ["storage"]).member 5 =
        oneIssue.issued (storageCertificate ["storage"]).member 5 := by
  have hchecked : oneIssue.checked primitives (storageCertificate ["storage"]) {member [1]} ∅
      (uniformRequest 1) 5 = .ok (0, 2) := by
    decide +kernel
  refine ⟨hchecked, (refused_costless_iff sampleKeys_rawRsa _ _ _ _ _ _).mpr ?_⟩
  intro epoch truncated h _
  obtain ⟨rfl, rfl⟩ := Prod.mk.inj (Except.ok.inj (hchecked.symm.trans h))
  exact ⟨(6 : UInt8), rfl, by decide +kernel⟩

/-- **A blinded message above the modulus spends the allowance.**  The member, with one issuance per
epoch, is refused, and the count goes from zero to one. -/
theorem oversized_request_charged :
    (oneIssue.issue primitives (storageCertificate ["storage"]) {member [1]} ∅
        (uniformRequest 255) 5).2 = .error .verificationFailed ∧
      oneIssue.issued (storageCertificate ["storage"]).member 5 = 0 ∧
      (oneIssue.issue primitives (storageCertificate ["storage"]) {member [1]} ∅
        (uniformRequest 255) 5).1.issued (storageCertificate ["storage"]).member 5 = 1 := by
  decide +kernel

end Peerless.Auth
