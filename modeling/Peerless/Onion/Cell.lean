import Peerless.Lib.Wire

/-!
# Onion cells

The wire format of `peerless-onion-protocol`: hop keys, the cell header, the sealing of one layer and
the fixed-size cell.  ChaCha20-Poly1305 is a parameter; `Aead.Correct` is what its documentation
promises: it encrypts every message of a permitted length to one of the same length, and decryption
under the same key, nonce and associated data undoes it.
-/

namespace Peerless.Onion

open Text Wire

/-! ### Constants -/

def protocolVersion : ℕ := 1

def cellSize : ℕ := 1024

def maxHops : ℕ := 3

/-- `CELL_MAGIC`, the bytes of `PLC1`. -/
def cellMagic : Bytes := [0x50, 0x4c, 0x43, 0x31]

def cellHeaderSize : ℕ := 50

def tagSize : ℕ := 16

def layerHeaderSize : ℕ := 3

def maxLayerData : ℕ := cellSize - cellHeaderSize - tagSize - layerHeaderSize

inductive OnionError where
  | unsupportedVersion
  | invalidEncoding
  | expired
  | transcriptMismatch
  | keyAgreementFailed
  | authenticationFailed
  | wrongScope
  | replay
  | outOfWindow
  | hopLimit
  | payloadTooLarge
  | fragmentCapacity
  deriving DecidableEq

def maxPayloadForHops (hops : ℕ) : Except OnionError ℕ :=
  if hops = 0 ∨ hops > maxHops then .error .hopLimit
  else
    let layerOverhead := cellHeaderSize + tagSize + layerHeaderSize
    if (hops - 1) * layerOverhead > maxLayerData then .error .payloadTooLarge
    else .ok (maxLayerData - (hops - 1) * layerOverhead)

example : maxPayloadForHops 1 = .ok 955 ∧ maxPayloadForHops 2 = .ok 886 ∧
    maxPayloadForHops 3 = .ok 817 := by decide

/-- A circuit's bound: what its outer layers leave of one layer. -/
theorem maxPayloadForHops_eq {hops : ℕ} (hpos : 0 < hops) (hmax : hops ≤ maxHops) :
    maxPayloadForHops hops =
        .ok (maxLayerData - (hops - 1) * (cellHeaderSize + tagSize + layerHeaderSize)) ∧
      (hops - 1) * (cellHeaderSize + tagSize + layerHeaderSize) ≤ maxLayerData := by
  have hcases : hops = 1 ∨ hops = 2 ∨ hops = 3 := by
    simp only [maxHops] at hmax
    omega
  rcases hcases with rfl | rfl | rfl <;> decide

inductive Direction where
  | forward
  | reverse
  deriving DecidableEq

/-- `direction as u8`. -/
def Direction.toByte : Direction → UInt8
  | .forward => 1
  | .reverse => 2

/-- `Direction::try_from`. -/
def Direction.ofByte (value : UInt8) : Except OnionError Direction :=
  if value = 1 then .ok .forward
  else if value = 2 then .ok .reverse
  else .error .invalidEncoding

inductive CellType where
  | setup
  | data
  | padding
  | response
  | rotation
  | teardown
  deriving DecidableEq

/-- `cell_type as u8`. -/
def CellType.toByte : CellType → UInt8
  | .setup => 1
  | .data => 2
  | .padding => 3
  | .response => 4
  | .rotation => 5
  | .teardown => 6

/-- `CellType::try_from`. -/
def CellType.ofByte (value : UInt8) : Except OnionError CellType :=
  if value = 1 then .ok .setup
  else if value = 2 then .ok .data
  else if value = 3 then .ok .padding
  else if value = 4 then .ok .response
  else if value = 5 then .ok .rotation
  else if value = 6 then .ok .teardown
  else .error .invalidEncoding

theorem Direction.ofByte_toByte (d : Direction) : Direction.ofByte d.toByte = .ok d := by
  cases d <;> rfl

theorem CellType.ofByte_toByte (t : CellType) : CellType.ofByte t.toByte = .ok t := by
  cases t <;> rfl

theorem CellType.toByte_ne_zero (t : CellType) : t.toByte ≠ 0 := by
  cases t <;> decide

/-! ### Keys -/

structure HopKeys where
  circuitId : Octets 16
  hop : UInt8
  epoch : UInt64
  expiresAt : UInt64
  forwardKey : Octets 32
  reverseKey : Octets 32
  forwardNoncePrefix : Octets 4
  reverseNoncePrefix : Octets 4
  deriving DecidableEq

/-- The key of a direction, the first part of `HopKeys::key_and_nonce`. -/
def HopKeys.key (k : HopKeys) : Direction → Octets 32
  | .forward => k.forwardKey
  | .reverse => k.reverseKey

/-- The nonce prefix of a direction. -/
def HopKeys.noncePrefix (k : HopKeys) : Direction → Octets 4
  | .forward => k.forwardNoncePrefix
  | .reverse => k.reverseNoncePrefix

/-- The nonce of a direction and a sequence number, the second part of `HopKeys::key_and_nonce`. -/
def HopKeys.nonce (k : HopKeys) (d : Direction) (sequence : UInt64) : Octets 12 where
  bytes := (k.noncePrefix d).bytes ++ toBe 8 sequence.toNat
  size := by simp

variable {k : HopKeys} {d : Direction} {q : UInt64}

/-- A nonce determines its sequence number, whoever's prefix it starts with. -/
theorem HopKeys.sequence_of_nonce {k' : HopKeys} {d' : Direction} {q' : UInt64}
    (h : k.nonce d q = k'.nonce d' q') : q = q' := by
  have hbytes := congrArg Octets.bytes h
  have hlen : ((k.noncePrefix d).bytes).length = ((k'.noncePrefix d').bytes).length := by
    rw [Octets.size, Octets.size]
  exact toBe_uint64_injective (List.append_inj_right hbytes hlen)

/-! ### Authenticated encryption -/

/-- ChaCha20-Poly1305 with a detached tag: key, nonce, associated data and text. -/
structure Aead where
  encrypt : Octets 32 → Octets 12 → Bytes → Bytes → Option (Bytes × Octets 16)
  decrypt : Octets 32 → Octets 12 → Bytes → Bytes → Bytes → Option Bytes

/-- The longest message of ChaCha20-Poly1305: 32 bits of block counter, one block for the tag key. -/
def maxMessage : ℕ := 64 * (2 ^ 32 - 1)

/-- What decryption and encryption promise each other. -/
structure Aead.Correct (A : Aead) : Prop where
  encrypts : ∀ k n ad p, p.length ≤ maxMessage → ∃ c t, A.encrypt k n ad p = some (c, t)
  length : ∀ {k n ad p c t}, A.encrypt k n ad p = some (c, t) → c.length = p.length
  decrypts : ∀ {k n ad p c t}, A.encrypt k n ad p = some (c, t) → A.decrypt k n ad c t.bytes = some p

/-! ### The cell header -/

structure CellHeader where
  direction : Direction
  circuitId : Octets 16
  epoch : UInt64
  expiresAt : UInt64
  sequence : UInt64
  ciphertextLen : ℕ
  deriving DecidableEq

/-- The fields of a header, in order: magic, version, the generic layer mark, direction, circuit,
epoch, expiry, sequence number and ciphertext length. -/
def headerFields (k : HopKeys) (d : Direction) (sequence : UInt64) (ciphertextLen : ℕ) : List Bytes :=
  [cellMagic, toBe 2 protocolVersion, [1], [d.toByte], k.circuitId.bytes, toBe 8 k.epoch.toNat,
    toBe 8 k.expiresAt.toNat, toBe 8 sequence.toNat, toBe 2 ciphertextLen]

def encodeCellHeader (k : HopKeys) (d : Direction) (sequence : UInt64) (ciphertextLen : ℕ) : Bytes :=
  (headerFields k d sequence ciphertextLen).flatten

def parseCellHeader (cell : Octets cellSize) : Except OnionError CellHeader :=
  let bytes := cell.bytes
  if slice bytes 0 4 ≠ cellMagic ∨ bytes.getD 6 0 ≠ 1 then .error .invalidEncoding
  else if ofBe (slice bytes 4 6) ≠ protocolVersion then .error .unsupportedVersion
  else
    let ciphertextLen := ofBe (slice bytes 48 50)
    let compactLen := cellHeaderSize + ciphertextLen
    if ciphertextLen < tagSize + layerHeaderSize ∨ compactLen > cellSize ∨
        (bytes.drop compactLen).any (· ≠ 0) then .error .invalidEncoding
    else
      match Direction.ofByte (bytes.getD 7 0) with
      | .error err => .error err
      | .ok direction => .ok
        { direction
          circuitId := ⟨slice bytes 8 24, slice_length (by rw [cell.size]; decide)⟩
          epoch := UInt64.ofNat (ofBe (slice bytes 24 32))
          expiresAt := UInt64.ofNat (ofBe (slice bytes 32 40))
          sequence := UInt64.ofNat (ofBe (slice bytes 40 48))
          ciphertextLen }

theorem headerFields_lengths (k : HopKeys) (d : Direction) (q : UInt64) (len : ℕ) :
    (headerFields k d q len).map List.length = [4, 2, 1, 1, 16, 8, 8, 8, 2] := by
  simp [headerFields, cellMagic]

@[simp] theorem encodeCellHeader_length (k : HopKeys) (d : Direction) (q : UInt64) (len : ℕ) :
    (encodeCellHeader k d q len).length = cellHeaderSize := by
  rw [encodeCellHeader, List.length_flatten, headerFields_lengths]
  rfl

/-- The bytes of a header field, by its number and offsets. -/
theorem slice_header {len n i j : ℕ} {f : Bytes} (rest : Bytes)
    (hf : (headerFields k d q len)[n]? = some f)
    (hi : (([4, 2, 1, 1, 16, 8, 8, 8, 2] : List ℕ).take n).sum = i) (hj : i + f.length = j) :
    slice (encodeCellHeader k d q len ++ rest) i j = f :=
  slice_flatten _ rest hf (by rw [headerFields_lengths]; exact hi) hj

/-- **The parser reads a header back**, in front of any ciphertext of the declared length and zero
padding. -/
theorem parseCellHeader_encode {body padding : Bytes} (hlow : tagSize + layerHeaderSize ≤ body.length)
    (hhigh : cellHeaderSize + body.length ≤ cellSize) (hpadding : ∀ b ∈ padding, b = 0)
    {cell : Octets cellSize}
    (hcell : cell.bytes = encodeCellHeader k d q body.length ++ (body ++ padding)) :
    parseCellHeader cell = .ok ⟨d, k.circuitId, k.epoch, k.expiresAt, q, body.length⟩ := by
  have hmagic : slice cell.bytes 0 4 = cellMagic := by
    rw [hcell]
    exact slice_header (n := 0) _ rfl rfl rfl
  have hversion : slice cell.bytes 4 6 = toBe 2 protocolVersion := by
    rw [hcell]
    exact slice_header (n := 1) _ rfl rfl rfl
  have hmark : cell.bytes.getD 6 0 = 1 := by
    rw [hcell]
    exact getD_of_slice (slice_header (n := 2) _ rfl rfl rfl)
  have hdirection : cell.bytes.getD 7 0 = d.toByte := by
    rw [hcell]
    exact getD_of_slice (slice_header (n := 3) _ rfl rfl rfl)
  have hcircuit : slice cell.bytes 8 24 = k.circuitId.bytes := by
    rw [hcell]
    exact slice_header (n := 4) _ rfl rfl (by rw [Octets.size])
  have hepoch : slice cell.bytes 24 32 = toBe 8 k.epoch.toNat := by
    rw [hcell]
    exact slice_header (n := 5) _ rfl rfl (by rw [toBe_length])
  have hexpiry : slice cell.bytes 32 40 = toBe 8 k.expiresAt.toNat := by
    rw [hcell]
    exact slice_header (n := 6) _ rfl rfl (by rw [toBe_length])
  have hsequence : slice cell.bytes 40 48 = toBe 8 q.toNat := by
    rw [hcell]
    exact slice_header (n := 7) _ rfl rfl (by rw [toBe_length])
  have hsmall : body.length < 256 ^ 2 := by
    simp only [cellSize, cellHeaderSize] at hhigh
    omega
  have hlen : ofBe (slice cell.bytes 48 50) = body.length := by
    rw [hcell, show slice _ 48 50 = toBe 2 body.length from
      slice_header (n := 8) _ rfl rfl (by rw [toBe_length]), ofBe_toBe_of_lt hsmall]
  have hrest : cell.bytes.drop (cellHeaderSize + body.length) = padding := by
    rw [hcell, ← List.drop_drop, List.drop_left' (encodeCellHeader_length k d q _), List.drop_left]
  have hzero : ¬ (padding.any (· ≠ 0)) = true := by
    simpa using hpadding
  unfold parseCellHeader
  simp only [hmagic, hmark, hversion, hlen, hrest, hdirection, Direction.ofByte_toByte]
  rw [if_neg (by simp), if_neg (by decide), if_neg]
  · simp only [hepoch, hexpiry, hsequence, ofBe_toBe_uint64, Except.ok.injEq, CellHeader.mk.injEq,
      true_and, and_true]
    exact Octets.ext_bytes hcircuit
  · simp only [not_or, not_lt]
    exact ⟨hlow, hhigh, hzero⟩

/-! ### Cells -/

/-- `WireCell`: only byte strings whose header parses become one. -/
structure WireCell where
  octets : Octets cellSize
  parses : ∃ header, parseCellHeader octets = .ok header

theorem WireCell.ext_bytes {a b : WireCell} (h : a.octets.bytes = b.octets.bytes) : a = b := by
  cases a
  cases b
  simp only [WireCell.mk.injEq]
  exact Octets.ext_bytes h

instance : DecidableEq WireCell := fun a b =>
  decidable_of_iff (a.octets.bytes = b.octets.bytes) ⟨WireCell.ext_bytes, fun h => by rw [h]⟩

/-- A byte string of the size of a cell, if its header parses. -/
def WireCell.ofOctets (octets : Octets cellSize) : Except OnionError WireCell :=
  match h : parseCellHeader octets with
  | .error err => .error err
  | .ok header => .ok ⟨octets, header, h⟩

def WireCell.fromBytes (bytes : Bytes) : Except OnionError WireCell :=
  if h : bytes.length = cellSize then WireCell.ofOctets ⟨bytes, h⟩ else .error .invalidEncoding

/-- Zero bytes up to the size of a cell. -/
def padded (compact : Bytes) : Bytes := compact ++ List.replicate (cellSize - compact.length) 0

theorem padded_length {compact : Bytes} (h : compact.length ≤ cellSize) :
    (padded compact).length = cellSize := by
  rw [padded, List.length_append, List.length_replicate]
  omega

def WireCell.fromCompact (compact : Bytes) : Except OnionError WireCell :=
  if h : compact.length > cellSize ∨
      compact.length < cellHeaderSize + tagSize + layerHeaderSize then .error .invalidEncoding
  else WireCell.ofOctets ⟨padded compact, padded_length (by omega)⟩

def WireCell.compact (cell : WireCell) : Except OnionError Bytes :=
  match parseCellHeader cell.octets with
  | .error err => .error err
  | .ok header => .ok (cell.octets.bytes.take (cellHeaderSize + header.ciphertextLen))

variable {octets : Octets cellSize} {header : CellHeader}

theorem WireCell.ofOctets_of_parse (h : parseCellHeader octets = .ok header) :
    ∃ cell, WireCell.ofOctets octets = .ok cell ∧ cell.octets = octets := by
  unfold WireCell.ofOctets
  split
  · rename_i err herr
    exact absurd (h.symm.trans herr) (by simp)
  · exact ⟨_, rfl, rfl⟩

variable {cell : WireCell}

theorem WireCell.ofOctets_octets (h : WireCell.ofOctets octets = .ok cell) : cell.octets = octets := by
  unfold WireCell.ofOctets at h
  split at h
  · cases h
  · rw [← Except.ok.inj h]

theorem fromCompact_bytes {compact : Bytes} (h : WireCell.fromCompact compact = .ok cell) :
    cell.octets.bytes = padded compact := by
  unfold WireCell.fromCompact at h
  split at h
  · cases h
  · rw [WireCell.ofOctets_octets h]

/-! ### Sealing one layer -/

/-- The plaintext of a layer: type, length and data. -/
def layerPlaintext (layerType : UInt8) (data : Bytes) : Bytes :=
  layerType :: (toBe 2 data.length ++ data)

@[simp] theorem layerPlaintext_length (layerType : UInt8) (data : Bytes) :
    (layerPlaintext layerType data).length = layerHeaderSize + data.length := by
  simp only [layerPlaintext, List.length_cons, List.length_append, toBe_length, layerHeaderSize]
  omega

/-- The header of a sealed layer. -/
def layerHeader (k : HopKeys) (d : Direction) (sequence : UInt64) (data : Bytes) : Bytes :=
  encodeCellHeader k d sequence (layerHeaderSize + data.length + tagSize)

/-- The associated data of a sealed layer: its header and the padding that will follow it. -/
def layerAad (k : HopKeys) (d : Direction) (sequence : UInt64) (data : Bytes) : Bytes :=
  layerHeader k d sequence data ++ List.replicate
    (cellSize - (cellHeaderSize + (layerHeaderSize + data.length + tagSize))) 0

variable (A : Aead)

def sealCompact (k : HopKeys) (d : Direction) (sequence : UInt64) (layerType : UInt8) (data : Bytes) :
    Except OnionError Bytes :=
  if data.length > maxLayerData then .error .payloadTooLarge
  else
    match A.encrypt (k.key d) (k.nonce d sequence) (layerAad k d sequence data)
        (layerPlaintext layerType data) with
    | none => .error .authenticationFailed
    | some (ciphertext, tag) => .ok (layerHeader k d sequence data ++ (ciphertext ++ tag.bytes))

variable {A}

variable {layerType : UInt8}

theorem sealCompact_ok {data compact : Bytes} (h : sealCompact A k d q layerType data = .ok compact) :
    data.length ≤ maxLayerData ∧ ∃ c t, A.encrypt (k.key d) (k.nonce d q) (layerAad k d q data)
        (layerPlaintext layerType data) = some (c, t) ∧
      compact = layerHeader k d q data ++ (c ++ t.bytes) := by
  unfold sealCompact at h
  split at h
  · cases h
  rename_i hsize
  split at h
  · cases h
  rename_i c t henc
  exact ⟨not_lt.mp hsize, c, t, henc, (Except.ok.inj h).symm⟩

/-- **Sealing succeeds exactly when the data fits into a layer.** -/
theorem sealCompact_ok_iff (hA : A.Correct) {data : Bytes} :
    (∃ compact, sealCompact A k d q layerType data = .ok compact) ↔ data.length ≤ maxLayerData := by
  constructor
  · intro ⟨compact, h⟩
    exact (sealCompact_ok h).1
  · intro hsize
    have hmessage : (layerPlaintext layerType data).length ≤ maxMessage := by
      rw [layerPlaintext_length]
      simp only [maxLayerData, cellSize, cellHeaderSize, tagSize, layerHeaderSize, maxMessage] at hsize ⊢
      omega
    obtain ⟨c, t, henc⟩ := hA.encrypts (k.key d) (k.nonce d q) (layerAad k d q data) _ hmessage
    unfold sealCompact
    rw [if_neg (not_lt.mpr hsize), henc]
    exact ⟨_, rfl⟩

@[simp] theorem layerHeader_length (k : HopKeys) (d : Direction) (q : UInt64) (data : Bytes) :
    (layerHeader k d q data).length = cellHeaderSize := encodeCellHeader_length _ _ _ _

variable {c : Bytes} {t : Octets 16}

theorem compact_length (hA : A.Correct) {data : Bytes}
    (henc : A.encrypt (k.key d) (k.nonce d q) (layerAad k d q data) (layerPlaintext layerType data) =
      some (c, t)) :
    (layerHeader k d q data ++ (c ++ t.bytes)).length =
      cellHeaderSize + (layerHeaderSize + data.length + tagSize) := by
  rw [List.length_append, List.length_append, layerHeader_length, hA.length henc,
    layerPlaintext_length, t.size]
  rfl

theorem sealCompact_length (hA : A.Correct) {data compact : Bytes}
    (h : sealCompact A k d q layerType data = .ok compact) :
    compact.length = cellHeaderSize + tagSize + layerHeaderSize + data.length := by
  obtain ⟨_, c, t, henc, rfl⟩ := sealCompact_ok h
  rw [compact_length hA henc]
  omega

/-- **A sealed layer makes a cell**, with the layer's own header. -/
theorem fromCompact_sealed (hA : A.Correct) {data compact : Bytes}
    (h : sealCompact A k d q layerType data = .ok compact) :
    ∃ cell, WireCell.fromCompact compact = .ok cell ∧ cell.octets.bytes = padded compact ∧
      parseCellHeader cell.octets = .ok ⟨d, k.circuitId, k.epoch, k.expiresAt, q,
        layerHeaderSize + data.length + tagSize⟩ := by
  have hlen := sealCompact_length hA h
  obtain ⟨hsize, c, t, henc, rfl⟩ := sealCompact_ok h
  have hbody : (c ++ t.bytes).length = layerHeaderSize + data.length + tagSize := by
    rw [List.length_append, Octets.size, hA.length henc, layerPlaintext_length]
    rfl
  simp only [maxLayerData, cellSize, cellHeaderSize, tagSize, layerHeaderSize] at hsize hlen hbody
  have hfits : ¬ ((layerHeader k d q data ++ (c ++ t.bytes)).length > cellSize ∨
      (layerHeader k d q data ++ (c ++ t.bytes)).length < cellHeaderSize + tagSize + layerHeaderSize) := by
    simp only [cellSize, cellHeaderSize, tagSize, layerHeaderSize]
    omega
  let octets : Octets cellSize := ⟨padded (layerHeader k d q data ++ (c ++ t.bytes)),
    padded_length (by omega)⟩
  have hoctets : octets.bytes = encodeCellHeader k d q (c ++ t.bytes).length ++ ((c ++ t.bytes) ++
      List.replicate (cellSize - (layerHeader k d q data ++ (c ++ t.bytes)).length) 0) := by
    rw [hbody, ← List.append_assoc]
    rfl
  have hparse := parseCellHeader_encode
    (by simp only [tagSize, layerHeaderSize]; omega)
    (by simp only [cellHeaderSize, cellSize]; omega)
    (fun b hb => List.eq_of_mem_replicate hb) hoctets
  obtain ⟨cell, hcell, heq⟩ := WireCell.ofOctets_of_parse hparse
  refine ⟨cell, ?_, by rw [heq], ?_⟩
  · rw [WireCell.fromCompact, dif_neg hfits, hcell]
  · rw [heq, hparse, hbody]
    rfl

/-! ### Reading a cell -/

/-- The ciphertext of a cell. -/
def WireCell.ciphertext (cell : WireCell) (ciphertextLen : ℕ) : Bytes :=
  slice cell.octets.bytes cellHeaderSize (cellHeaderSize + ciphertextLen - tagSize)

/-- The tag of a cell. -/
def WireCell.tag (cell : WireCell) (ciphertextLen : ℕ) : Bytes :=
  slice cell.octets.bytes (cellHeaderSize + ciphertextLen - tagSize) (cellHeaderSize + ciphertextLen)

/-- The associated data of a cell: header and padding. -/
def WireCell.aad (cell : WireCell) (ciphertextLen : ℕ) : Bytes :=
  cell.octets.bytes.take cellHeaderSize ++ cell.octets.bytes.drop (cellHeaderSize + ciphertextLen)

theorem parseCellHeader_bounds (h : parseCellHeader octets = .ok header) :
    tagSize + layerHeaderSize ≤ header.ciphertextLen ∧
      cellHeaderSize + header.ciphertextLen ≤ cellSize := by
  unfold parseCellHeader at h
  dsimp only at h
  split at h
  · cases h
  split at h
  · cases h
  split at h
  · cases h
  rename_i hlen
  split at h
  · cases h
  rw [← Except.ok.inj h]
  simp only [not_or, not_lt] at hlen
  exact ⟨hlen.1, hlen.2.1⟩

theorem sealed_parts (hA : A.Correct) {data : Bytes}
    (henc : A.encrypt (k.key d) (k.nonce d q) (layerAad k d q data) (layerPlaintext layerType data) =
      some (c, t)) (hcell : cell.octets.bytes = padded (layerHeader k d q data ++ (c ++ t.bytes))) :
    cell.ciphertext (layerHeaderSize + data.length + tagSize) = c ∧
    cell.tag (layerHeaderSize + data.length + tagSize) = t.bytes ∧
    cell.aad (layerHeaderSize + data.length + tagSize) = layerAad k d q data := by
  have hc := hA.length henc
  rw [layerPlaintext_length] at hc
  have hheader := layerHeader_length k d q data
  have htag := t.size
  unfold WireCell.ciphertext WireCell.tag WireCell.aad
  rw [hcell, padded, List.append_assoc, List.append_assoc]
  refine ⟨?_, ?_, ?_⟩
  · rw [slice_skip (by omega), hheader, Nat.sub_self]
    exact slice_prefix (by simp only [tagSize]; omega)
  · rw [slice_skip (by simp only [tagSize]; omega), slice_skip (by simp only [tagSize]; omega), hheader,
      hc, show cellHeaderSize + (layerHeaderSize + data.length + tagSize) - tagSize - cellHeaderSize -
        (layerHeaderSize + data.length) = 0 by simp only [tagSize]; omega]
    exact slice_prefix (by simp only [tagSize]; omega)
  · rw [List.take_left' hheader, ← List.drop_drop, List.drop_left' hheader, ← List.append_assoc,
      List.drop_left' (by rw [List.length_append, hc, htag]; rfl), layerAad,
      compact_length hA henc]

/-- **What carries the ciphertext, tag and associated data of a sealed layer is its cell.** -/
theorem eq_of_sealed (hA : A.Correct) {data : Bytes}
    (henc : A.encrypt (k.key d) (k.nonce d q) (layerAad k d q data) (layerPlaintext layerType data) =
      some (c, t)) (hparse : parseCellHeader cell.octets = .ok header)
    (hciphertext : cell.ciphertext header.ciphertextLen = c)
    (htag : cell.tag header.ciphertextLen = t.bytes)
    (haad : cell.aad header.ciphertextLen = layerAad k d q data) :
    cell.octets.bytes = padded (layerHeader k d q data ++ (c ++ t.bytes)) := by
  obtain ⟨hlow, hhigh⟩ := parseCellHeader_bounds hparse
  have htake : (cell.octets.bytes.take cellHeaderSize).length = (layerHeader k d q data).length := by
    rw [List.length_take, cell.octets.size, layerHeader_length]
    rfl
  obtain ⟨hfront, hback⟩ := List.append_inj haad htake
  have hsplit := take_slices_drop (l := cell.octets.bytes) (i := cellHeaderSize)
    (j := cellHeaderSize + header.ciphertextLen - tagSize)
    (k := cellHeaderSize + header.ciphertextLen) (by omega) (by omega)
  unfold WireCell.ciphertext at hciphertext
  unfold WireCell.tag at htag
  rw [hfront, hciphertext, htag, hback] at hsplit
  rw [← hsplit, padded, compact_length hA henc]

end Peerless.Onion
