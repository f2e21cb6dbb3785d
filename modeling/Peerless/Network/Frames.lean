import Peerless.Lib.JsonSize
import Peerless.Lib.Wire
import Peerless.Protocol

/-!
# Frames

The length-delimited transport of `peerless-network`: an envelope is written as JSON behind its length in
four bytes, and a frame of more than 64 MiB is refused on both sides.
-/

namespace Peerless.Network

open Text Wire JsonText Peerless.Core Peerless.Protocol

def maxFrame : ℕ := 64 * 1024 * 1024

inductive NetworkError where
  | io
  | json
  | frameTooLarge
  deriving DecidableEq

/-- The envelope as `serde_json` writes it. -/
def envelopeJson (e : SignedEnvelope) : Json :=
  .obj [("version", natJson e.version), ("signer", e.signer.toJson),
    ("public_key", JsonText.bytes e.publicKey), ("payload", JsonText.bytes e.payload),
    ("signature", JsonText.bytes e.signature)]

/-- `write_frame`, to a stream that takes all bytes. -/
def writeFrame (stream : Bytes) (envelope : SignedEnvelope) : Except NetworkError Bytes :=
  let bytes := write (envelopeJson envelope)
  if bytes.length > maxFrame then .error .frameTooLarge
  else .ok (stream ++ toBe 4 (bytes.length % 2 ^ 32) ++ bytes)

/-- `read_exact`: the bytes, and the rest of the stream. -/
def readExact (n : ℕ) (stream : Bytes) : Except NetworkError (Bytes × Bytes) :=
  if stream.length < n then .error .io else .ok (stream.take n, stream.drop n)

/-- `read_frame`, with the rest of the stream. -/
def readFrame (parse : Bytes → Option SignedEnvelope) (stream : Bytes) :
    Except NetworkError (SignedEnvelope × Bytes) :=
  match readExact 4 stream with
  | .error err => .error err
  | .ok (size, stream) =>
    if ofBe size > maxFrame then .error .frameTooLarge
    else
      match readExact (ofBe size) stream with
      | .error err => .error err
      | .ok (bytes, rest) =>
        match parse bytes with
        | none => .error .json
        | some envelope => .ok (envelope, rest)

variable {parse : Bytes → Option SignedEnvelope} {envelope : SignedEnvelope}

/-- **A frame is written exactly if the text fits.** -/
theorem writeFrame_ok {stream frame : Bytes} : writeFrame stream envelope = .ok frame ↔
    (write (envelopeJson envelope)).length ≤ maxFrame ∧
      frame = stream ++ toBe 4 (write (envelopeJson envelope)).length ++ write (envelopeJson envelope) := by
  have hlimit : maxFrame < 2 ^ 32 := by decide
  unfold writeFrame
  dsimp only
  constructor
  · intro h
    split at h
    · cases h
    · rename_i hsize
      rw [Nat.mod_eq_of_lt (by omega)] at h
      exact ⟨by omega, (Except.ok.inj h).symm⟩
  · rintro ⟨hsize, rfl⟩
    rw [if_neg (by omega), Nat.mod_eq_of_lt (by omega)]

theorem readExact_append {n : ℕ} {taken : Bytes} (h : taken.length = n) (rest : Bytes) :
    readExact n (taken ++ rest) = .ok (taken, rest) := by
  unfold readExact
  rw [if_neg (by rw [List.length_append]; omega), List.take_left' h, List.drop_left' h]

/-- **What was written is read**, and nothing beyond it. -/
theorem readFrame_of_writeFrame {frame : Bytes} (rest : Bytes)
    (hparse : parse (write (envelopeJson envelope)) = some envelope)
    (hwrite : writeFrame [] envelope = .ok frame) :
    readFrame parse (frame ++ rest) = .ok (envelope, rest) := by
  obtain ⟨hsize, rfl⟩ := writeFrame_ok.mp hwrite
  have hlimit : maxFrame < 256 ^ 4 := by decide
  have hlength : ofBe (toBe 4 (write (envelopeJson envelope)).length) =
      (write (envelopeJson envelope)).length := ofBe_toBe_of_lt (by omega)
  unfold readFrame
  rw [List.nil_append, List.append_assoc, readExact_append (toBe_length _ _)]
  simp only [hlength]
  rw [if_neg (by omega), readExact_append rfl]
  simp only [hparse]

/-- **An envelope whose text fits goes through.** -/
theorem frame_of_fits (hparse : parse (write (envelopeJson envelope)) = some envelope)
    (hsize : (write (envelopeJson envelope)).length ≤ maxFrame) :
    ∃ frame, writeFrame [] envelope = .ok frame ∧ readFrame parse frame = .ok (envelope, []) := by
  obtain ⟨frame, hwrite⟩ : ∃ frame, writeFrame [] envelope = .ok frame :=
    ⟨_, writeFrame_ok.mpr ⟨hsize, rfl⟩⟩
  have hread := readFrame_of_writeFrame [] hparse hwrite
  rw [List.append_nil] at hread
  exact ⟨frame, hwrite, hread⟩

/-! ### The length of an envelope -/

/-- **The length of the text of an envelope** of the current version. -/
theorem envelope_length (signer : NodeId) (publicKey payload signature : Bytes) :
    (write (envelopeJson ⟨protocolVersion, signer, publicKey, payload, signature⟩)).length =
      arrayLength signer.bytes + arrayLength publicKey + arrayLength payload + arrayLength signature +
        61 := by
  have hversion : (writeStr "version").length = 9 := by decide
  have hsigner : (writeStr "signer").length = 8 := by decide
  have hpublic : (writeStr "public_key").length = 12 := by decide
  have hpayload : (writeStr "payload").length = 9 := by decide
  have hsignature : (writeStr "signature").length = 11 := by decide
  have hone : (write (natJson protocolVersion)).length = 1 := by decide
  simp only [envelopeJson, write, writeFields, List.length_cons, List.length_append, List.length_nil,
    NodeId.toJson, write_bytes_length, hversion, hsigner, hpublic, hpayload, hsignature, hone]
  omega

end Peerless.Network
