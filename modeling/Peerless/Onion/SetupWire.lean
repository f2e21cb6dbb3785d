import Peerless.Onion.Cell

/-!
# The messages of the key exchange

The two fixed-size messages that set up one hop, the transcript both sides hash, and the parsers.  Request
and response start with the same fields (`contextFields`), read by one parser.
-/

namespace Peerless.Onion

open Text Wire

def setupRequestSize : ℕ := 128

def setupResponseSize : ℕ := 160

/-- `SETUP_MAGIC`, the bytes of `PLS1`. -/
def setupMagic : Bytes := [0x50, 0x4c, 0x53, 0x31]

/-- `RESPONSE_MAGIC`, the bytes of `PLR1`. -/
def responseMagic : Bytes := [0x50, 0x4c, 0x52, 0x31]

def setupFieldsSize : ℕ := 104

def responseFieldsSize : ℕ := 152

structure SetupContext where
  circuitId : Octets 16
  hop : UInt8
  epoch : UInt64
  expiresAt : UInt64
  deriving DecidableEq

def SetupContext.validate (c : SetupContext) (now : UInt64) : Except OnionError Unit :=
  if c.hop.toNat ≥ maxHops ∨ c.expiresAt ≤ now then
    .error (if c.expiresAt ≤ now then .expired else .hopLimit)
  else .ok ()

variable {c : SetupContext}

theorem SetupContext.validate_ok_iff {now : UInt64} :
    c.validate now = .ok () ↔ c.hop.toNat < maxHops ∧ now < c.expiresAt := by
  rw [SetupContext.validate]
  split
  · rename_i h
    simp only [reduceCtorEq, false_iff, not_and, UInt64.not_lt]
    intro hhop
    rcases h with h | h
    · exact absurd hhop (Nat.not_lt.mpr h)
    · exact h
  · rename_i h
    simp only [ge_iff_le, not_or, not_le] at h
    simpa using h

/-! ### Encoding -/

/-- What both messages start with. -/
def contextFields (magic : Bytes) (c : SetupContext) : List Bytes :=
  [magic, toBe 2 protocolVersion, [c.hop], [0], c.circuitId.bytes, toBe 8 c.epoch.toNat,
    toBe 8 c.expiresAt.toNat]

/-- The fields of a request, with the zero bytes at its end. -/
def requestFields (c : SetupContext) (initiatorPublic relayPublic : Octets 32) : List Bytes :=
  contextFields setupMagic c ++
    [initiatorPublic.bytes, relayPublic.bytes, List.replicate (setupRequestSize - setupFieldsSize) 0]

/-- The fields of a response, with the zero bytes at its end. -/
def responseFields (c : SetupContext) (initiatorPublic responderPublic relayPublic : Octets 32)
    (confirmation : Octets 16) : List Bytes :=
  contextFields responseMagic c ++
    [initiatorPublic.bytes, responderPublic.bytes, relayPublic.bytes, confirmation.bytes,
      List.replicate (setupResponseSize - responseFieldsSize) 0]

theorem requestFields_lengths (c : SetupContext) (initiatorPublic relayPublic : Octets 32) :
    (requestFields c initiatorPublic relayPublic).map List.length = [4, 2, 1, 1, 16, 8, 8, 32, 32, 24] := by
  simp [requestFields, contextFields, setupMagic, setupRequestSize, setupFieldsSize]

theorem responseFields_lengths (c : SetupContext) (initiatorPublic responderPublic relayPublic : Octets 32)
    (confirmation : Octets 16) :
    (responseFields c initiatorPublic responderPublic relayPublic confirmation).map List.length =
      [4, 2, 1, 1, 16, 8, 8, 32, 32, 32, 16, 8] := by
  simp [responseFields, contextFields, responseMagic, setupResponseSize, responseFieldsSize]

def encodeSetupRequest (c : SetupContext) (initiatorPublic relayPublic : Octets 32) :
    Octets setupRequestSize where
  bytes := (requestFields c initiatorPublic relayPublic).flatten
  size := by
    rw [List.length_flatten, requestFields_lengths]
    rfl

def encodeSetupResponse (c : SetupContext) (initiatorPublic responderPublic relayPublic : Octets 32)
    (confirmation : Octets 16) : Octets setupResponseSize where
  bytes := (responseFields c initiatorPublic responderPublic relayPublic confirmation).flatten
  size := by
    rw [List.length_flatten, responseFields_lengths]
    rfl

/-! ### Parsing -/

/-- The checks and the context at the start of both parsers. -/
def parseContext {n : ℕ} (hn : 40 ≤ n) (magic : Bytes) (fieldsSize : ℕ) (message : Octets n) :
    Except OnionError SetupContext :=
  let bytes := message.bytes
  if slice bytes 0 4 ≠ magic ∨ bytes.getD 7 0 ≠ 0 ∨ (bytes.drop fieldsSize).any (· ≠ 0) then
    .error .invalidEncoding
  else if ofBe (slice bytes 4 6) ≠ protocolVersion then .error .unsupportedVersion
  else .ok
    { circuitId := ⟨slice bytes 8 24, slice_length (by rw [message.size]; omega)⟩
      hop := bytes.getD 6 0
      epoch := UInt64.ofNat (ofBe (slice bytes 24 32))
      expiresAt := UInt64.ofNat (ofBe (slice bytes 32 40)) }

structure ParsedSetupRequest where
  context : SetupContext
  initiatorPublic : Octets 32
  relayPublic : Octets 32
  deriving DecidableEq

structure ParsedSetupResponse where
  context : SetupContext
  initiatorPublic : Octets 32
  responderPublic : Octets 32
  relayPublic : Octets 32
  confirmation : Octets 16
  deriving DecidableEq

def parseSetupRequest (m : Octets setupRequestSize) : Except OnionError ParsedSetupRequest :=
  match parseContext (by decide) setupMagic setupFieldsSize m with
  | .error err => .error err
  | .ok context => .ok
    { context
      initiatorPublic := ⟨slice m.bytes 40 72, slice_length (by rw [m.size]; decide)⟩
      relayPublic := ⟨slice m.bytes 72 104, slice_length (by rw [m.size]; decide)⟩ }

def parseSetupResponse (m : Octets setupResponseSize) : Except OnionError ParsedSetupResponse :=
  match parseContext (by decide) responseMagic responseFieldsSize m with
  | .error err => .error err
  | .ok context => .ok
    { context
      initiatorPublic := ⟨slice m.bytes 40 72, slice_length (by rw [m.size]; decide)⟩
      responderPublic := ⟨slice m.bytes 72 104, slice_length (by rw [m.size]; decide)⟩
      relayPublic := ⟨slice m.bytes 104 136, slice_length (by rw [m.size]; decide)⟩
      confirmation := ⟨slice m.bytes 136 152, slice_length (by rw [m.size]; decide)⟩ }

/-- `SetupRequest`: 128 bytes, checked by `from_bytes` when they come from the network. -/
structure SetupRequest where
  octets : Octets setupRequestSize
  deriving DecidableEq

structure SetupResponse where
  octets : Octets setupResponseSize
  deriving DecidableEq

def SetupRequest.fromBytes (bytes : Bytes) : Except OnionError SetupRequest :=
  if h : bytes.length = setupRequestSize then
    match parseSetupRequest ⟨bytes, h⟩ with
    | .error err => .error err
    | .ok _ => .ok ⟨⟨bytes, h⟩⟩
  else .error .invalidEncoding

def SetupResponse.fromBytes (bytes : Bytes) : Except OnionError SetupResponse :=
  if h : bytes.length = setupResponseSize then
    match parseSetupResponse ⟨bytes, h⟩ with
    | .error err => .error err
    | .ok _ => .ok ⟨⟨bytes, h⟩⟩
  else .error .invalidEncoding

/-! ### What the parsers accept -/

theorem any_ne_zero_eq_false_iff {l : Bytes} : l.any (· ≠ 0) = false ↔ l = List.replicate l.length 0 := by
  rw [List.eq_replicate_iff]
  simp

variable {magic : Bytes}

/-- **The context of a message** is what its first fields spell. -/
theorem parseContext_ok_iff {n : ℕ} (hn : 40 ≤ n) {fieldsSize : ℕ} {m : Octets n} :
    parseContext hn magic fieldsSize m = .ok c ↔
      cuts m.bytes 0 [4, 2, 1, 1, 16, 8, 8] = contextFields magic c ∧
        m.bytes.drop fieldsSize = List.replicate (m.bytes.drop fieldsSize).length 0 := by
  have hsize := m.size
  have hcuts : cuts m.bytes 0 [4, 2, 1, 1, 16, 8, 8] = [slice m.bytes 0 4, slice m.bytes 4 6,
      slice m.bytes 6 7, slice m.bytes 7 8, slice m.bytes 8 24, slice m.bytes 24 32,
      slice m.bytes 32 40] := rfl
  have hversion : slice m.bytes 4 6 = toBe 2 protocolVersion ↔ ofBe (slice m.bytes 4 6) = protocolVersion :=
    (ofBe_eq_iff (slice_length (by omega)) (by decide)).symm
  have hhop : slice m.bytes 6 7 = [c.hop] ↔ m.bytes.getD 6 0 = c.hop := slice_one_eq_iff (by omega)
  have hzero : slice m.bytes 7 8 = [0] ↔ m.bytes.getD 7 0 = 0 := slice_one_eq_iff (by omega)
  have hepoch : slice m.bytes 24 32 = toBe 8 c.epoch.toNat ↔
      UInt64.ofNat (ofBe (slice m.bytes 24 32)) = c.epoch :=
    (ofNat_ofBe_eq_iff (slice_length (by omega))).symm
  have hexpiry : slice m.bytes 32 40 = toBe 8 c.expiresAt.toNat ↔
      UInt64.ofNat (ofBe (slice m.bytes 32 40)) = c.expiresAt :=
    (ofNat_ofBe_eq_iff (slice_length (by omega))).symm
  rw [hcuts, contextFields, ← any_ne_zero_eq_false_iff]
  simp only [List.cons.injEq, and_true, hversion, hhop, hzero, hepoch, hexpiry]
  rw [parseContext]
  constructor
  · intro h
    split at h
    · cases h
    rename_i hframe
    split at h
    · cases h
    rename_i hproto
    simp only [ne_eq, not_or, not_not, Bool.not_eq_true] at hframe hproto
    cases h
    exact ⟨⟨hframe.1, hproto, rfl, hframe.2.1, rfl, rfl, rfl⟩, hframe.2.2⟩
  · rintro ⟨⟨hmagic, hproto, hhop, hpad, hcircuit, hepoch, hexpiry⟩, hzeros⟩
    rw [if_neg (by simp only [ne_eq, not_or, not_not, Bool.not_eq_true]; exact ⟨hmagic, hpad, hzeros⟩),
      if_neg (not_not.mpr hproto)]
    refine congrArg Except.ok ?_
    rw [SetupContext.mk.injEq, Octets.eq_iff]
    exact ⟨hcircuit, hhop, hepoch, hexpiry⟩

/-- The fields of a message behind its context are told apart by their place. -/
theorem contextFields_append_iff {m : Bytes} {xs ys : List Bytes} :
    cuts m 0 [4, 2, 1, 1, 16, 8, 8] ++ xs = contextFields magic c ++ ys ↔
      cuts m 0 [4, 2, 1, 1, 16, 8, 8] = contextFields magic c ∧ xs = ys := by
  constructor
  · intro h
    exact List.append_inj h rfl
  · rintro ⟨hcontext, rfl⟩
    rw [hcontext]

/-- **A message is an encoding** exactly if its context parses and the fields behind it are in their
places. -/
theorem eq_fields_iff {n : ℕ} (hn : 40 ≤ n) {fieldsSize : ℕ} {m : Octets n} {widths : List ℕ}
    {xs ys : List Bytes}
    (hlengths : (contextFields magic c ++ (ys ++ [List.replicate (n - fieldsSize) 0])).map List.length =
      [4, 2, 1, 1, 16, 8, 8] ++ widths)
    (hcuts : cuts m.bytes 0 ([4, 2, 1, 1, 16, 8, 8] ++ widths) =
      cuts m.bytes 0 [4, 2, 1, 1, 16, 8, 8] ++ (xs ++ [m.bytes.drop fieldsSize]))
    (htotal : ([4, 2, 1, 1, 16, 8, 8] ++ widths).sum = n) :
    m.bytes = (contextFields magic c ++ (ys ++ [List.replicate (n - fieldsSize) 0])).flatten ↔
      parseContext hn magic fieldsSize m = .ok c ∧ xs = ys := by
  have hlength : (m.bytes.drop fieldsSize).length = n - fieldsSize := by
    rw [List.length_drop, m.size]
  have htail : xs ++ [m.bytes.drop fieldsSize] = ys ++ [List.replicate (n - fieldsSize) 0] ↔
      xs = ys ∧ m.bytes.drop fieldsSize = List.replicate (n - fieldsSize) 0 := by
    constructor
    · intro h
      obtain ⟨hfields, hzeros⟩ := List.append_inj' h rfl
      exact ⟨hfields, List.singleton_injective hzeros⟩
    · rintro ⟨rfl, hzeros⟩
      rw [hzeros]
  rw [eq_flatten_iff hlengths (m.size.trans htotal.symm), hcuts, contextFields_append_iff, htail,
    parseContext_ok_iff hn, hlength, and_assoc, and_comm (a := xs = ys)]

/-- **A request is accepted exactly if it is an encoding**, and parses to what was encoded. -/
theorem parseSetupRequest_ok_iff {m : Octets setupRequestSize} {p : ParsedSetupRequest} :
    parseSetupRequest m = .ok p ↔ m = encodeSetupRequest p.context p.initiatorPublic p.relayPublic := by
  have hpad : slice m.bytes 104 128 = m.bytes.drop setupFieldsSize := slice_to_end m.size
  have hcuts : cuts m.bytes 0 [4, 2, 1, 1, 16, 8, 8, 32, 32, 24] =
      cuts m.bytes 0 [4, 2, 1, 1, 16, 8, 8] ++
        ([slice m.bytes 40 72, slice m.bytes 72 104] ++ [m.bytes.drop setupFieldsSize]) := by
    rw [← hpad]
    rfl
  have hlengths : (contextFields setupMagic p.context ++
      ([p.initiatorPublic.bytes, p.relayPublic.bytes] ++
        [List.replicate (setupRequestSize - setupFieldsSize) 0])).map List.length =
      [4, 2, 1, 1, 16, 8, 8] ++ [32, 32, 24] := requestFields_lengths _ _ _
  rw [Octets.eq_iff]
  refine Iff.trans ?_ (eq_fields_iff (by decide) hlengths hcuts rfl).symm
  rw [parseSetupRequest]
  obtain ⟨context, initiatorPublic, relayPublic⟩ := p
  cases parseContext (by decide) setupMagic setupFieldsSize m with
  | error err => simp
  | ok c => simp [Octets.eq_iff]

/-- **A response is accepted exactly if it is an encoding.** -/
theorem parseSetupResponse_ok_iff {m : Octets setupResponseSize} {p : ParsedSetupResponse} :
    parseSetupResponse m = .ok p ↔ m = encodeSetupResponse p.context p.initiatorPublic p.responderPublic
      p.relayPublic p.confirmation := by
  have hpad : slice m.bytes 152 160 = m.bytes.drop responseFieldsSize := slice_to_end m.size
  have hcuts : cuts m.bytes 0 [4, 2, 1, 1, 16, 8, 8, 32, 32, 32, 16, 8] =
      cuts m.bytes 0 [4, 2, 1, 1, 16, 8, 8] ++
        ([slice m.bytes 40 72, slice m.bytes 72 104, slice m.bytes 104 136, slice m.bytes 136 152] ++
          [m.bytes.drop responseFieldsSize]) := by
    rw [← hpad]
    rfl
  have hlengths : (contextFields responseMagic p.context ++
      ([p.initiatorPublic.bytes, p.responderPublic.bytes, p.relayPublic.bytes, p.confirmation.bytes] ++
        [List.replicate (setupResponseSize - responseFieldsSize) 0])).map List.length =
      [4, 2, 1, 1, 16, 8, 8] ++ [32, 32, 32, 16, 8] := responseFields_lengths _ _ _ _ _
  rw [Octets.eq_iff]
  refine Iff.trans ?_ (eq_fields_iff (by decide) hlengths hcuts rfl).symm
  rw [parseSetupResponse]
  obtain ⟨context, initiatorPublic, responderPublic, relayPublic, confirmation⟩ := p
  cases parseContext (by decide) responseMagic responseFieldsSize m with
  | error err => simp
  | ok c => simp [Octets.eq_iff]

/-! ### The transcript -/

/-- The fields of the transcript. -/
def transcriptFields (c : SetupContext) (initiatorPublic responderPublic relayPublic : Octets 32) :
    List Bytes :=
  [utf8 "peerless/onion/setup/v1", toBe 2 protocolVersion, c.circuitId.bytes, [c.hop],
    toBe 8 c.epoch.toNat, toBe 8 c.expiresAt.toNat, initiatorPublic.bytes, responderPublic.bytes,
    relayPublic.bytes]

def setupTranscript (c : SetupContext) (initiatorPublic responderPublic relayPublic : Octets 32) : Bytes :=
  (transcriptFields c initiatorPublic responderPublic relayPublic).flatten

/-- **A transcript determines what it was made of.** -/
theorem setupTranscript_injective {c' : SetupContext} {i i' r r' s s' : Octets 32}
    (h : setupTranscript c i r s = setupTranscript c' i' r' s') : c = c' ∧ i = i' ∧ r = r' ∧ s = s' := by
  have hwidths : (transcriptFields c i r s).map List.length =
      (transcriptFields c' i' r' s').map List.length := by
    simp [transcriptFields]
  have hfields := List.eq_iff_flatten_eq.mpr ⟨h, hwidths⟩
  simp only [transcriptFields, List.cons.injEq, true_and, and_true] at hfields
  obtain ⟨hcircuit, hhop, hepoch, hexpiry, hi, hr, hs⟩ := hfields
  refine ⟨?_, Octets.ext_bytes hi, Octets.ext_bytes hr, Octets.ext_bytes hs⟩
  cases c
  cases c'
  rw [SetupContext.mk.injEq]
  exact ⟨Octets.ext_bytes hcircuit, hhop, toBe_uint64_injective hepoch, toBe_uint64_injective hexpiry⟩

end Peerless.Onion
