import Peerless.Auth.Verifier
import Peerless.Lib.Runs
import Peerless.Sample

/-!
# The key store and the descriptors

The verifier keeps descriptors by scope and public keys by one byte of their id; `add_descriptor` and
`prune` update the two maps by separate statements, and `prune` removes keys by their bytes.

* `keys_mirror_descriptors` — in every run in which no two live scopes share a key and keys are
  written in their own serialization, the key store holds the keys of the stored descriptors, each under
  its own truncated id.
-/

namespace Peerless.Auth

open Text HashMap Peerless.Core Identity Sample

variable {T : TokenPrimitives} {P : Primitives}

/-- The key of a descriptor with the id it is filed under. -/
def keyEntry (T : TokenPrimitives) (d : ScopeKeyDescriptor) : Option (UInt8 × T.PublicKey) :=
  (T.fromSpki d.publicKey).bind fun key => (T.truncatedTokenKeyId key).map fun id => (id, key)

/-- The keys of the stored descriptors. -/
def AnonymousVerifier.descriptorKeys (v : AnonymousVerifier T) : List (UInt8 × T.PublicKey) :=
  (vals v.descriptors).filterMap (keyEntry T)

/-! ### The mirror -/

/-- The key store mirrors the descriptors: every stored descriptor has a key, written in its own
serialization; no two share one; and the filed keys are theirs. -/
structure Mirror (v : AnonymousVerifier T) : Prop where
  entry : ∀ scope d, v.descriptors.lookup scope = some d →
    ∃ e, keyEntry T d = some e ∧ T.serializePublicKey e.2 = some d.publicKey
  apart : ∀ scope scope' d d', v.descriptors.lookup scope = some d →
    v.descriptors.lookup scope' = some d' → scope ≠ scope' → d.publicKey ≠ d'.publicKey
  filed : (bag v.keys).Perm v.descriptorKeys

variable {d : ScopeKeyDescriptor} {e : UInt8 × T.PublicKey}

theorem keyEntry_eq_some (h : keyEntry T d = some e) :
    T.fromSpki d.publicKey = some e.2 ∧ T.truncatedTokenKeyId e.2 = some e.1 := by
  obtain ⟨key, hkey, hid⟩ := Option.bind_eq_some_iff.mp h
  obtain ⟨id, htruncated, rfl⟩ := Option.map_eq_some_iff.mp hid
  exact ⟨hkey, htruncated⟩

variable {v : AnonymousVerifier T}

/-- **One round of `prune`** takes a descriptor and exactly its key. -/
theorem mirror_removeScope (hv : Mirror v) {scope : AuthorizationScope}
    (hd : v.descriptors.lookup scope = some d) : Mirror (v.removeScope (scope, d.publicKey)) := by
  obtain ⟨⟨id, key⟩, hkey, hserialize⟩ := hv.entry scope d hd
  obtain ⟨hspki, htruncated⟩ := keyEntry_eq_some hkey
  refine ⟨fun s d' h => hv.entry s d' (lookup_of_erase h),
    fun s s' d₁ d₂ h₁ h₂ => hv.apart s s' d₁ d₂ (lookup_of_erase h₁) (lookup_of_erase h₂), ?_⟩
  have hunfile : (v.removeScope (scope, d.publicKey)).keys =
      retainAt v.keys id fun key => T.serializePublicKey key ≠ some d.publicKey := by
    show v.keys.unfile d.publicKey = _
    simp only [OriginKeys.unfile, hspki, htruncated]
    rfl
  -- the descriptors split into the removed one and the others, whose keys have other bytes
  have hsplit : v.descriptorKeys.Perm
      ((id, key) :: (v.removeScope (scope, d.publicKey)).descriptorKeys) := by
    have hperm := (vals_perm_erase hd).filterMap (keyEntry T)
    rw [List.filterMap_cons_some hkey] at hperm
    exact hperm
  have hothers : (v.removeScope (scope, d.publicKey)).descriptorKeys.filter
      (fun x => x.1 ≠ id || T.serializePublicKey x.2 ≠ some d.publicKey) =
        (v.removeScope (scope, d.publicKey)).descriptorKeys := by
    refine List.filter_eq_self.mpr fun x hx => ?_
    obtain ⟨d', hd', hx⟩ := List.mem_filterMap.mp hx
    obtain ⟨⟨scope', d''⟩, hmem, rfl⟩ := List.mem_map.mp hd'
    have hlookup := mem_entries_iff.mp hmem
    have hold := lookup_of_erase hlookup
    obtain ⟨e, he, hbytes⟩ := hv.entry scope' d'' hold
    obtain rfl : e = x := Option.some.inj (he.symm.trans hx)
    have hscope : scope' ≠ scope := by
      intro heq
      rw [heq] at hlookup
      exact absurd (hlookup.symm.trans (AList.lookup_erase scope v.descriptors)) (by simp)
    have hne := hv.apart scope' scope d'' d hold hd hscope
    simp [hbytes, hne]
  rw [hunfile]
  refine (bag_retainAt _ _ _).trans ?_
  refine ((hv.filed.trans hsplit).filter _).trans ?_
  rw [List.filter_cons_of_neg (by simp [hserialize]), hothers]

theorem mirror_prune (hv : Mirror v) (now : ℕ) : Mirror (v.prune now) :=
  foldl_erase_invariant AnonymousVerifier.descriptors ScopeKeyDescriptor.publicKey (fun _ _ => rfl)
    (fun _ _ _ hv hd => mirror_removeScope hv hd) _ v hv (nodup_expired v.descriptors now)
    fun _ he => (mem_expired.mp he).2

theorem mirror_insert (hv : Mirror v) (hnew : v.descriptors.lookup d.scope = none)
    (he : keyEntry T d = some e) (hserialize : T.serializePublicKey e.2 = some d.publicKey)
    (hown : ∀ scope d', v.descriptors.lookup scope = some d' → d'.publicKey ≠ d.publicKey) :
    Mirror { v with descriptors := v.descriptors.insert d.scope d, keys := push v.keys e.1 e.2 } := by
  have hlookup : ∀ scope d', (v.descriptors.insert d.scope d).lookup scope = some d' →
      (scope = d.scope ∧ d' = d) ∨ v.descriptors.lookup scope = some d' := by
    intro scope d' h
    by_cases hscope : scope = d.scope
    · rw [hscope, AList.lookup_insert] at h
      exact Or.inl ⟨hscope, (Option.some.inj h).symm⟩
    · rw [AList.lookup_insert_ne hscope] at h
      exact Or.inr h
  refine ⟨?_, ?_, ?_⟩
  · intro scope d' h
    rcases hlookup scope d' h with ⟨_, rfl⟩ | hold
    · exact ⟨e, he, hserialize⟩
    · exact hv.entry scope d' hold
  · intro scope scope' d₁ d₂ h₁ h₂ hne
    rcases hlookup scope d₁ h₁ with ⟨rfl, rfl⟩ | hold₁
    · rcases hlookup scope' d₂ h₂ with ⟨rfl, rfl⟩ | hold₂
      · exact absurd rfl hne
      · exact (hown scope' d₂ hold₂).symm
    · rcases hlookup scope' d₂ h₂ with ⟨rfl, rfl⟩ | hold₂
      · exact hown scope d₁ hold₁
      · exact hv.apart scope scope' d₁ d₂ hold₁ hold₂ hne
  · refine (bag_push _ _ _).trans ?_
    show List.Perm _ ((vals (v.descriptors.insert d.scope d)).filterMap (keyEntry T))
    rw [vals_insert_of_none d hnew, List.filterMap_cons_some he]
    exact List.Perm.cons _ hv.filed

/-! ### Calls -/

inductive VerifierCall where
  | add (descriptor : ScopeKeyDescriptor) (trustedIssuers : Finset NodeId) (now : ℕ)
  | prune (now : ℕ)
  | redeem (call : Redeem) (now clock : ℕ)

variable (P) in
def verifierStep (v : AnonymousVerifier T) : VerifierCall → Option (AnonymousVerifier T)
  | .add d trustedIssuers now => some (v.addDescriptor P d trustedIssuers now).1
  | .prune now => some (v.prune now)
  | .redeem call now clock => some (v.redeem P call now clock).1

/-- **The condition.**  A descriptor that is added carries the serialization of its own key, and no
other scope that is live at that time has the same key. -/
def OwnKey (v : AnonymousVerifier T) : VerifierCall → Prop
  | .add d _ now => (∀ key ∈ T.fromSpki d.publicKey, T.serializePublicKey key = some d.publicKey) ∧
      ∀ e ∈ v.descriptors.entries, now < e.1.expiresAt → e.1 ≠ d.scope → e.2.publicKey ≠ d.publicKey
  | _ => True

instance (v : AnonymousVerifier T) (c : VerifierCall) : Decidable (OwnKey v c) :=
  match c with
  | .add d _ _ => inferInstanceAs (Decidable
      ((∀ key ∈ T.fromSpki d.publicKey, T.serializePublicKey key = some d.publicKey) ∧ _))
  | .prune _ => isTrue trivial
  | .redeem _ _ _ => isTrue trivial

theorem checkDescriptor_keyEntry {trustedIssuers : Finset NodeId} {now : ℕ}
    (h : v.checkDescriptor P d trustedIssuers now = .ok e) : keyEntry T d = some e := by
  unfold AnonymousVerifier.checkDescriptor at h
  split at h
  · cases h
  · cases h
  split at h
  · cases h
  split at h
  · cases h
  split at h
  · cases h
  · cases h
  split at h
  · cases h
  split at h
  · cases h
  split at h
  · cases h
  rename_i key hkey
  split at h
  · cases h
  rename_i id hid
  rw [keyEntry, hkey, Option.bind_some, hid, ← Except.ok.inj h]
  rfl

theorem mirror_add (hv : Mirror v) {trustedIssuers : Finset NodeId} {now : ℕ}
    (hok : OwnKey v (.add d trustedIssuers now)) : Mirror (v.addDescriptor P d trustedIssuers now).1 := by
  unfold AnonymousVerifier.addDescriptor
  split
  · exact hv
  · rename_i truncated publicKey hcheck
    have hkey := checkDescriptor_keyEntry hcheck
    have hpruned := mirror_prune hv now
    dsimp only
    split
    · exact hpruned
    · rename_i hnew
      split
      · exact hpruned
      · refine mirror_insert hpruned hnew hkey (hok.1 publicKey (keyEntry_eq_some hkey).1) ?_
        intro scope d' hd'
        have hother : scope ≠ d.scope := by
          rintro rfl
          exact absurd (hnew.symm.trans hd') (by simp)
        rw [prune_lookup] at hd'
        split at hd'
        · exact hok.2 ⟨scope, d'⟩ (mem_entries_iff.mpr hd') ‹_› hother
        · exact absurd hd' (by simp)

theorem mirror_congr {w : AnonymousVerifier T} (hv : Mirror v) (hkeys : w.keys = v.keys)
    (hdescriptors : w.descriptors = v.descriptors) : Mirror w := by
  refine ⟨?_, ?_, ?_⟩
  · rw [hdescriptors]; exact hv.entry
  · rw [hdescriptors]; exact hv.apart
  · rw [AnonymousVerifier.descriptorKeys, hkeys, hdescriptors]; exact hv.filed

theorem mirror_redeem (hv : Mirror v) (c : Redeem) (now clock : ℕ) :
    Mirror (v.redeem P c now clock).1 := by
  have hpruned := mirror_prune hv now
  unfold AnonymousVerifier.redeem
  split
  · exact hv
  dsimp only
  split
  · exact hpruned
  split
  · exact mirror_congr hpruned rfl rfl
  split
  · exact mirror_congr hpruned rfl rfl
  · exact mirror_congr hpruned rfl rfl

theorem mirror_step {v' : AnonymousVerifier T} {c : VerifierCall} (hv : Mirror v) (hok : OwnKey v c)
    (hstep : verifierStep P v c = some v') : Mirror v' := by
  cases c with
  | add d trustedIssuers now =>
    rw [← Option.some.inj hstep]
    exact mirror_add hv hok
  | prune now =>
    rw [← Option.some.inj hstep]
    exact mirror_prune hv now
  | redeem c now clock =>
    rw [← Option.some.inj hstep]
    exact mirror_redeem hv c now clock

theorem mirror_new {policy : CredentialPolicy} (h : AnonymousVerifier.new policy = .ok v) : Mirror v := by
  unfold AnonymousVerifier.new at h
  split at h
  · cases h
  · rw [← Except.ok.inj h]
    exact ⟨fun scope d hd => absurd hd (by simp), fun _ _ _ _ hd => absurd hd (by simp), List.Perm.refl _⟩

/-- **The key store mirrors the descriptors** in every run that meets the condition: the filed keys are
those of the stored descriptors, none left out, each under its own truncated id; no key serves two
scopes; and `prune` spares every live descriptor and its key. -/
theorem keys_mirror_descriptors {policy : CredentialPolicy} {v₀ v : AnonymousVerifier T}
    (hnew : AnonymousVerifier.new policy = .ok v₀) {calls : List VerifierCall}
    (hmeets : Runs.Meets (verifierStep P) OwnKey v₀ calls)
    (hrun : Runs.run (verifierStep P) v₀ calls = some v) :
    (bag v.keys).Perm v.descriptorKeys ∧ v.descriptorKeys.length = size v.descriptors ∧
    (∀ scope scope' d d', v.descriptors.lookup scope = some d →
      v.descriptors.lookup scope' = some d' → T.fromSpki d.publicKey = T.fromSpki d'.publicKey →
      scope = scope') ∧
    ∀ now scope d, v.descriptors.lookup scope = some d → now < scope.expiresAt →
      (v.prune now).descriptors.lookup scope = some d ∧
      ∃ e, keyEntry T d = some e ∧ e ∈ bag (v.prune now).keys := by
  have hv := Runs.run_invariant (fun v c v' hv hok hstep => mirror_step hv hok hstep) calls v₀ v
    (mirror_new hnew) hmeets hrun
  refine ⟨hv.filed, ?_, ?_, ?_⟩
  · rw [AnonymousVerifier.descriptorKeys, List.length_filterMap_eq_countP, List.countP_eq_length.mpr]
    · exact List.length_map _
    · intro d hd
      obtain ⟨⟨scope, d⟩, hmem, rfl⟩ := List.mem_map.mp hd
      obtain ⟨e, he, _⟩ := hv.entry scope d (mem_entries_iff.mp hmem)
      rw [he]
      rfl
  · intro scope scope' d d' hd hd' hsame
    by_contra hne
    obtain ⟨e, he, hbytes⟩ := hv.entry scope d hd
    obtain ⟨e', he', hbytes'⟩ := hv.entry scope' d' hd'
    have hkey : e.2 = e'.2 := by
      rw [(keyEntry_eq_some he).1, (keyEntry_eq_some he').1] at hsame
      exact Option.some.inj hsame
    rw [hkey, hbytes'] at hbytes
    exact hv.apart scope scope' d d' hd hd' hne (Option.some.inj hbytes).symm
  · intro now scope d hd hlive
    have hkept : (v.prune now).descriptors.lookup scope = some d := by
      rw [prune_lookup, if_pos hlive, hd]
    have hpruned := mirror_prune hv now
    obtain ⟨e, he, _⟩ := hpruned.entry scope d hkept
    refine ⟨hkept, e, he, hpruned.filed.mem_iff.mpr ?_⟩
    exact List.mem_filterMap.mpr ⟨d, mem_vals_of_lookup hkept, he⟩

/-! ### Sample runs

Keys are byte strings, and every token verifies. -/

/-- A token: nonce, challenge digest and key id of 32 bytes each, and the authenticator. -/
def readToken (bytes : Bytes) : Option (PublicToken × Bytes) :=
  if h : 96 ≤ bytes.length then
    some (⟨⟨bytes.take 32, by rw [List.length_take]; omega⟩,
      ⟨(bytes.drop 32).take 32, by rw [List.length_take, List.length_drop]; omega⟩,
      ⟨(bytes.drop 64).take 32, by rw [List.length_take, List.length_drop]; omega⟩, bytes.drop 96⟩, [])
  else none

def sampleTokens : TokenPrimitives where
  PublicKey := Bytes
  fromSpki := some
  serializePublicKey := some
  truncatedTokenKeyId key := some ((compact.sha256 key).bytes.headD 0)
  truncateTokenKeyId id := id.bytes.headD 0
  tlsDeserialize := readToken
  challengeDigest _ origins := some (compact.sha256 origins.flatten)
  verifyToken _ _ := true

/-- Epochs of ten seconds. -/
def samplePolicy : CredentialPolicy := ⟨10, 32, 16, 8⟩

def sampleScope (epoch : ℕ) (publicKey : Bytes) : AuthorizationScope :=
  ⟨1, "mesh", "run", epoch, (epoch + 1) * 10, compact.sha256 publicKey⟩

/-- A descriptor signed by the issuer with key `[1]`. -/
def sampleDescriptor (epoch : ℕ) (publicKey : Bytes) : ScopeKeyDescriptor :=
  (ScopeKeyDescriptor.issue (P := compact) (sampleScope epoch publicKey) publicKey
    (NodeIdentity.ofKeypair [1])).toOption.getD
      ⟨sampleScope epoch publicKey, publicKey, ⟨[]⟩, [], []⟩

/-- Descriptors of two epochs, with their keys, and a `prune` between their expiries. -/
def twoEpochs (first second : Bytes) : List VerifierCall :=
  [.add (sampleDescriptor 0 first) {NodeId.derive compact [1]} 0,
    .add (sampleDescriptor 1 second) {NodeId.derive compact [1]} 5, .prune 10]

def sampleVerifier : AnonymousVerifier sampleTokens := ⟨samplePolicy, ∅, ∅, .new 8 10⟩

/-- Two keys: the second is still there when the first scope is gone. -/
theorem own_key_survives_prune : ∃ v : AnonymousVerifier sampleTokens,
    AnonymousVerifier.new samplePolicy = .ok sampleVerifier ∧
    Runs.Meets (verifierStep compact) OwnKey sampleVerifier (twoEpochs [7] [8]) ∧
    Runs.run (verifierStep compact) sampleVerifier (twoEpochs [7] [8]) = some v ∧
    (vals v.descriptors).map (fun d => d.publicKey) = [[8]] ∧
    (bag v.keys).Perm v.descriptorKeys := by
  have hnew : AnonymousVerifier.new samplePolicy = .ok sampleVerifier := rfl
  have heval : ((Runs.run (Runs.guarded (verifierStep compact) fun v c => decide (OwnKey v c))
      sampleVerifier (twoEpochs [7] [8])).map fun v => (vals v.descriptors).map fun d => d.publicKey) =
        some [[8]] := by
    decide +kernel
  obtain ⟨v, hrun, hv⟩ := Option.map_eq_some_iff.mp heval
  obtain ⟨hmeets, hrun'⟩ := Runs.run_guarded _ _ v hrun
  simp only [decide_eq_true_eq] at hmeets
  exact ⟨v, hnew, hmeets, hrun', hv, (keys_mirror_descriptors hnew hmeets hrun').1⟩

/-- **One key for two epochs**: the verifier files it twice, and when the first scope expires at 10 it
drops both copies; the second scope is stored, live until 20, and has no key. -/
theorem shared_key_removed : ∃ v : AnonymousVerifier sampleTokens,
    AnonymousVerifier.new samplePolicy = .ok sampleVerifier ∧
    Runs.run (verifierStep compact) sampleVerifier (twoEpochs [7] [7]) = some v ∧
    v.descriptors.lookup (sampleScope 1 [7]) = some (sampleDescriptor 1 [7]) ∧
    (10 < (sampleScope 1 [7]).expiresAt) ∧ bag v.keys = [] ∧
    ¬ (bag v.keys).Perm v.descriptorKeys := by
  have hnew : AnonymousVerifier.new samplePolicy = .ok sampleVerifier := rfl
  have heval : ((Runs.run (verifierStep compact) sampleVerifier (twoEpochs [7] [7])).map fun v =>
      (v.descriptors.lookup (sampleScope 1 [7]), (bag v.keys).length, v.descriptorKeys.length)) =
        some (some (sampleDescriptor 1 [7]), 0, 1) := by
    decide +kernel
  obtain ⟨v, hrun, hv⟩ := Option.map_eq_some_iff.mp heval
  simp only [Prod.mk.injEq] at hv
  obtain ⟨hlookup, hempty, hone⟩ := hv
  refine ⟨v, hnew, hrun, hlookup, by decide, List.length_eq_zero_iff.mp hempty, fun hperm => ?_⟩
  have hlen := hperm.length_eq
  rw [hempty, hone] at hlen
  exact absurd hlen (by decide)

end Peerless.Auth
