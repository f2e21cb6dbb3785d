import Peerless.Lib.Buffer
import Peerless.Onion.Handshake
import Peerless.Onion.ReplayExact

/-!
# The fixed layouts, offset by offset

The source writes its messages into zeroed buffers, field by field at written-out offsets, and reads them
back by slices.  Here the writes stand as the source has them (`requestWrites`, `responseWrites`,
`headerWrites`), and the functions that read and seal cells are repeated with every slice, index and
subtraction checked.

* `setup_messages_canonical` — parsing and encoding setup messages are inverse to each other,
  and the transcript determines what it was made of;
* `cells_compact_exactly` — every cell survives being compacted and expanded.
-/

namespace Peerless.Onion

open Text Wire Buffer

/-! ### Setup messages -/

/-- The writes both setup encoders start with.  Byte 7 is never written. -/
def contextWrites (magic : Bytes) (c : SetupContext) : List (ℕ × ℕ × Bytes) :=
  [(0, 4, magic), (4, 6, toBe 2 protocolVersion), (6, 7, [c.hop]), (8, 24, c.circuitId.bytes),
    (24, 32, toBe 8 c.epoch.toNat), (32, 40, toBe 8 c.expiresAt.toNat)]

/-- The writes of `encode_setup_request`. -/
def requestWrites (c : SetupContext) (initiatorPublic relayPublic : Octets 32) : List (ℕ × ℕ × Bytes) :=
  contextWrites setupMagic c ++ [(40, 72, initiatorPublic.bytes), (72, 104, relayPublic.bytes)]

/-- The writes of `encode_setup_response`. -/
def responseWrites (c : SetupContext) (initiatorPublic responderPublic relayPublic : Octets 32)
    (confirmation : Octets 16) : List (ℕ × ℕ × Bytes) :=
  contextWrites responseMagic c ++
    [(40, 72, initiatorPublic.bytes), (72, 104, responderPublic.bytes), (104, 136, relayPublic.bytes),
      (136, 152, confirmation.bytes)]

/-- **The writes of a request leave its encoding.** -/
theorem encodeSetupRequest_written (c : SetupContext) (i r : Octets 32) :
    writeAll (List.replicate setupRequestSize 0) (requestWrites c i r) =
      some (encodeSetupRequest c i r).bytes := by
  have hascends : Ascends setupRequestSize 0 (requestWrites c i r) := by
    simp [Ascends, requestWrites, contextWrites, setupMagic, setupRequestSize]
  rw [writeAll_zeros hascends]
  simp [spread, requestWrites, contextWrites, encodeSetupRequest, requestFields, contextFields,
    setupRequestSize, setupFieldsSize]

/-- **The writes of a response leave its encoding.** -/
theorem encodeSetupResponse_written (c : SetupContext) (i s r : Octets 32) (t : Octets 16) :
    writeAll (List.replicate setupResponseSize 0) (responseWrites c i s r t) =
      some (encodeSetupResponse c i s r t).bytes := by
  have hascends : Ascends setupResponseSize 0 (responseWrites c i s r t) := by
    simp [Ascends, responseWrites, contextWrites, responseMagic, setupResponseSize]
  rw [writeAll_zeros hascends]
  simp [spread, responseWrites, contextWrites, encodeSetupResponse, responseFields, contextFields,
    setupResponseSize, responseFieldsSize]

theorem SetupRequest.fromBytes_ok {bytes : Bytes} {request : SetupRequest}
    (h : SetupRequest.fromBytes bytes = .ok request) :
    request.octets.bytes = bytes ∧ ∃ p, parseSetupRequest request.octets = .ok p := by
  unfold SetupRequest.fromBytes at h
  split at h
  · split at h
    · cases h
    · rename_i p hparse
      cases h
      exact ⟨rfl, p, hparse⟩
  · cases h

theorem SetupResponse.fromBytes_ok {bytes : Bytes} {response : SetupResponse}
    (h : SetupResponse.fromBytes bytes = .ok response) :
    response.octets.bytes = bytes ∧ ∃ p, parseSetupResponse response.octets = .ok p := by
  unfold SetupResponse.fromBytes at h
  split at h
  · split at h
    · cases h
    · rename_i p hparse
      cases h
      exact ⟨rfl, p, hparse⟩
  · cases h

/-- **Setup messages are canonical.**  Both parsers return exactly the encoded fields; what `from_bytes`
accepts is the encoding of what is parsed from it; and a transcript determines its context and keys. -/
theorem setup_messages_canonical :
    (∀ (c : SetupContext) (i r : Octets 32), parseSetupRequest (encodeSetupRequest c i r) = .ok ⟨c, i, r⟩) ∧
      (∀ (c : SetupContext) (i s r : Octets 32) (t : Octets 16),
        parseSetupResponse (encodeSetupResponse c i s r t) = .ok ⟨c, i, s, r, t⟩) ∧
      (∀ (bytes : Bytes) (request : SetupRequest), SetupRequest.fromBytes bytes = .ok request →
        ∃ p, parseSetupRequest request.octets = .ok p ∧
          (encodeSetupRequest p.context p.initiatorPublic p.relayPublic).bytes = bytes) ∧
      (∀ (bytes : Bytes) (response : SetupResponse), SetupResponse.fromBytes bytes = .ok response →
        ∃ p, parseSetupResponse response.octets = .ok p ∧
          (encodeSetupResponse p.context p.initiatorPublic p.responderPublic p.relayPublic
            p.confirmation).bytes = bytes) ∧
      ∀ (c c' : SetupContext) (i i' s s' r r' : Octets 32),
        setupTranscript c i s r = setupTranscript c' i' s' r' → c = c' ∧ i = i' ∧ s = s' ∧ r = r' := by
  refine ⟨?_, ?_, ?_, ?_, ?_⟩
  · intro c i r
    exact parseSetupRequest_ok_iff.mpr rfl
  · intro c i s r t
    exact parseSetupResponse_ok_iff.mpr rfl
  · intro bytes request h
    obtain ⟨hbytes, p, hparse⟩ := SetupRequest.fromBytes_ok h
    refine ⟨p, hparse, ?_⟩
    rw [← parseSetupRequest_ok_iff.mp hparse, hbytes]
  · intro bytes response h
    obtain ⟨hbytes, p, hparse⟩ := SetupResponse.fromBytes_ok h
    refine ⟨p, hparse, ?_⟩
    rw [← parseSetupResponse_ok_iff.mp hparse, hbytes]
  · intro c c' i i' s s' r r' h
    exact setupTranscript_injective h

/-- Both messages and the transcript of one context. -/
theorem setup_messages_canonical_sample :
    (∃ p, parseSetupRequest (encodeSetupRequest (sampleContext 1) (filled 32 [1]) (filled 32 [3])) = .ok p ∧
        (encodeSetupRequest p.context p.initiatorPublic p.relayPublic).bytes =
          (encodeSetupRequest (sampleContext 1) (filled 32 [1]) (filled 32 [3])).bytes) ∧
      (∃ p, parseSetupResponse (encodeSetupResponse (sampleContext 1) (filled 32 [1]) (filled 32 [2])
            (filled 32 [3]) (filled 16 [4])) = .ok p ∧
        (encodeSetupResponse p.context p.initiatorPublic p.responderPublic p.relayPublic
            p.confirmation).bytes =
          (encodeSetupResponse (sampleContext 1) (filled 32 [1]) (filled 32 [2]) (filled 32 [3])
            (filled 16 [4])).bytes) ∧
      (setupTranscript (sampleContext 1) (filled 32 [1]) (filled 32 [2]) (filled 32 [3]) ≠
        setupTranscript (sampleContext 2) (filled 32 [1]) (filled 32 [2]) (filled 32 [3])) :=
  ⟨setup_messages_canonical.2.2.1 _
      ⟨encodeSetupRequest (sampleContext 1) (filled 32 [1]) (filled 32 [3])⟩ (by decide +kernel),
    setup_messages_canonical.2.2.2.1 _
      ⟨encodeSetupResponse (sampleContext 1) (filled 32 [1]) (filled 32 [2]) (filled 32 [3]) (filled 16 [4])⟩
      (by decide +kernel),
    fun h => absurd (setup_messages_canonical.2.2.2.2 _ _ _ _ _ _ _ _ h).1 (by decide)⟩

/-! ### The header of a cell -/

/-- The writes of `encode_cell_header`; the length is cut to 16 bits. -/
def headerWrites (k : HopKeys) (d : Direction) (sequence : UInt64) (ciphertextLen : ℕ) :
    List (ℕ × ℕ × Bytes) :=
  [(0, 4, cellMagic), (4, 6, toBe 2 protocolVersion), (6, 7, [1]), (7, 8, [d.toByte]),
    (8, 24, k.circuitId.bytes), (24, 32, toBe 8 k.epoch.toNat), (32, 40, toBe 8 k.expiresAt.toNat),
    (40, 48, toBe 8 sequence.toNat), (48, 50, toBe 2 (ciphertextLen % 2 ^ 16))]

/-- **The writes of a header leave its encoding.** -/
theorem encodeCellHeader_written (k : HopKeys) (d : Direction) (q : UInt64) (len : ℕ) :
    writeAll (List.replicate cellHeaderSize 0) (headerWrites k d q len) =
      some (encodeCellHeader k d q len) := by
  have hascends : Ascends cellHeaderSize 0 (headerWrites k d q len) := by
    simp [Ascends, headerWrites, cellMagic, cellHeaderSize]
  have hcut : toBe 2 (len % 2 ^ 16) = toBe 2 len := by
    have hsplit := toBe_mul_add 2 (len % 2 ^ 16) (len / 2 ^ 16)
    rw [show (256 : ℕ) ^ 2 = 2 ^ 16 from rfl, Nat.div_add_mod' len (2 ^ 16)] at hsplit
    exact hsplit.symm
  rw [writeAll_zeros hascends, headerWrites, hcut]
  simp [spread, encodeCellHeader, headerFields, cellHeaderSize]

/-- `parse_cell_header` with every access checked; a chain of `||` stops at the first test that holds. -/
def checkedParseCellHeader (cell : Octets cellSize) : Option (Except OnionError CellHeader) :=
  let bytes := cell.bytes
  (read bytes 0 4).bind fun magic =>
  if magic ≠ cellMagic then some (.error .invalidEncoding)
  else (byte bytes 6).bind fun mark =>
  if mark ≠ 1 then some (.error .invalidEncoding)
  else (byte bytes 4).bind fun high => (byte bytes 5).bind fun low =>
  if ofBe [high, low] ≠ protocolVersion then some (.error .unsupportedVersion)
  else (byte bytes 48).bind fun high => (byte bytes 49).bind fun low =>
    let ciphertextLen := ofBe [high, low]
    let compactLen := cellHeaderSize + ciphertextLen
    if ciphertextLen < tagSize + layerHeaderSize then some (.error .invalidEncoding)
    else if compactLen > cellSize then some (.error .invalidEncoding)
    else (read bytes compactLen cellSize).bind fun rest =>
    if rest.any (· ≠ 0) then some (.error .invalidEncoding)
    else (byte bytes 7).bind fun direction =>
      match Direction.ofByte direction with
      | .error err => some (.error err)
      | .ok direction =>
        ((read bytes 8 24).bind (sized 16)).bind fun circuitId =>
        ((read bytes 24 32).bind (sized 8)).bind fun epoch =>
        ((read bytes 32 40).bind (sized 8)).bind fun expiresAt =>
        ((read bytes 40 48).bind (sized 8)).bind fun sequence =>
        some (.ok
          { direction
            circuitId
            epoch := UInt64.ofNat (ofBe epoch.bytes)
            expiresAt := UInt64.ofNat (ofBe expiresAt.bytes)
            sequence := UInt64.ofNat (ofBe sequence.bytes)
            ciphertextLen })

theorem read_octets (cell : Octets cellSize) {i j n : ℕ} (hn : i + n = j) (hj : j ≤ cellSize) :
    (read cell.bytes i j).bind (sized n) =
      some ⟨slice cell.bytes i j, (slice_length (by rw [cell.size]; exact hj)).trans (by omega)⟩ := by
  rw [read_eq (by omega) (by rw [cell.size]; exact hj), Option.bind_some]
  exact sized_eq _

/-- **No access of the parser leaves the cell**, whatever its 1024 bytes are. -/
theorem checkedParseCellHeader_eq (cell : Octets cellSize) :
    checkedParseCellHeader cell = some (parseCellHeader cell) := by
  have hsize : cell.bytes.length = 1024 := cell.size
  have hbyte : ∀ i, i < 1024 → byte cell.bytes i = some (cell.bytes.getD i 0) := by
    intro i hi
    exact byte_eq (by omega)
  have hversion := slice_two (l := cell.bytes) (i := 4) (by omega)
  have hlen := slice_two (l := cell.bytes) (i := 48) (by omega)
  unfold checkedParseCellHeader parseCellHeader
  dsimp only at hversion hlen ⊢
  rw [read_eq (by omega) (by omega), hversion, hlen, hbyte 4 (by omega), hbyte 5 (by omega),
    hbyte 6 (by omega), hbyte 7 (by omega), hbyte 48 (by omega), hbyte 49 (by omega)]
  simp only [Option.bind_some]
  generalize ofBe [cell.bytes.getD 48 0, cell.bytes.getD 49 0] = len
  by_cases hmagic : slice cell.bytes 0 4 ≠ cellMagic
  · rw [if_pos hmagic, if_pos (Or.inl hmagic)]
  rw [if_neg hmagic]
  by_cases hmark : cell.bytes.getD 6 0 ≠ 1
  · rw [if_pos hmark, if_pos (Or.inr hmark)]
  rw [if_neg hmark, if_neg (not_or.mpr ⟨hmagic, hmark⟩)]
  by_cases hproto : ofBe [cell.bytes.getD 4 0, cell.bytes.getD 5 0] ≠ protocolVersion
  · rw [if_pos hproto, if_pos hproto]
  rw [if_neg hproto, if_neg hproto]
  by_cases hshort : len < tagSize + layerHeaderSize
  · rw [if_pos hshort, if_pos (Or.inl hshort)]
  rw [if_neg hshort]
  by_cases hlong : cellHeaderSize + len > cellSize
  · rw [if_pos hlong, if_pos (Or.inr (Or.inl hlong))]
  rw [if_neg hlong, read_to_end (not_lt.mp hlong) cell.size, Option.bind_some]
  by_cases hrest : (cell.bytes.drop (cellHeaderSize + len)).any (· ≠ 0) = true
  · rw [if_pos hrest, if_pos (Or.inr (Or.inr hrest))]
  rw [if_neg hrest, if_neg (not_or.mpr ⟨hshort, not_or.mpr ⟨hlong, hrest⟩⟩)]
  cases Direction.ofByte (cell.bytes.getD 7 0) with
  | error err => rfl
  | ok direction =>
    simp only
    rw [read_octets cell (i := 8) (j := 24) (n := 16) rfl (by decide),
      read_octets cell (i := 24) (j := 32) (n := 8) rfl (by decide),
      read_octets cell (i := 32) (j := 40) (n := 8) rfl (by decide),
      read_octets cell (i := 40) (j := 48) (n := 8) rfl (by decide)]
    rfl

/-! ### Compact cells -/

/-- `WireCell::from_compact` with every access checked. -/
def WireCell.checkedFromCompact (compact : Bytes) : Option (Except OnionError WireCell) :=
  if compact.length > cellSize ∨ compact.length < cellHeaderSize + tagSize + layerHeaderSize then
    some (.error .invalidEncoding)
  else (write (List.replicate cellSize 0) 0 compact.length compact).bind fun bytes =>
    (sized cellSize bytes).bind fun cell =>
    (checkedParseCellHeader cell).map fun _ => WireCell.ofOctets cell

/-- `WireCell::compact` with every access checked. -/
def WireCell.checkedCompact (cell : WireCell) : Option (Except OnionError Bytes) :=
  (checkedParseCellHeader cell.octets).bind fun parsed =>
    match parsed with
    | .error err => some (.error err)
    | .ok header => (read cell.octets.bytes 0 (cellHeaderSize + header.ciphertextLen)).map .ok

theorem WireCell.checkedFromCompact_eq (compact : Bytes) :
    WireCell.checkedFromCompact compact = some (WireCell.fromCompact compact) := by
  unfold WireCell.checkedFromCompact WireCell.fromCompact
  split
  · rfl
  · rename_i hsize
    have hle : compact.length ≤ cellSize := by omega
    have hwrite : write (List.replicate cellSize 0) 0 compact.length compact = some (padded compact) :=
      write_zeros [] (Nat.le_refl 0) (Nat.zero_add _) hle
    rw [hwrite, Option.bind_some, sized_eq (padded_length hle), Option.bind_some,
      checkedParseCellHeader_eq]
    rfl

theorem WireCell.checkedCompact_eq (cell : WireCell) : cell.checkedCompact = some cell.compact := by
  unfold WireCell.checkedCompact WireCell.compact
  rw [checkedParseCellHeader_eq, Option.bind_some]
  cases hparse : parseCellHeader cell.octets with
  | error err => rfl
  | ok header =>
    have hbounds := parseCellHeader_bounds hparse
    simp only
    rw [read_eq (Nat.zero_le _) (by rw [cell.octets.size]; exact hbounds.2)]
    rfl

theorem parseCellHeader_padding {cell : Octets cellSize} {header : CellHeader}
    (h : parseCellHeader cell = .ok header) :
    cell.bytes.drop (cellHeaderSize + header.ciphertextLen) =
      List.replicate (cellSize - (cellHeaderSize + header.ciphertextLen)) 0 := by
  unfold parseCellHeader at h
  dsimp only at h
  split at h
  · cases h
  split at h
  · cases h
  split at h
  · cases h
  rename_i hlen
  split at h
  · cases h
  rw [← Except.ok.inj h]
  simp only [not_or, Bool.not_eq_true] at hlen
  have hzero := any_ne_zero_eq_false_iff.mp hlen.2.2
  rwa [List.length_drop, cell.size] at hzero

theorem WireCell.fromCompact_compact (cell : WireCell) :
    ∃ compact, cell.compact = .ok compact ∧ cellHeaderSize + tagSize + layerHeaderSize ≤ compact.length ∧
      compact.length ≤ cellSize ∧ WireCell.fromCompact compact = .ok cell := by
  obtain ⟨header, hparse⟩ := cell.parses
  have hbounds := parseCellHeader_bounds hparse
  have hlength : (cell.octets.bytes.take (cellHeaderSize + header.ciphertextLen)).length =
      cellHeaderSize + header.ciphertextLen := by
    rw [List.length_take, cell.octets.size]
    omega
  have hpadded : padded (cell.octets.bytes.take (cellHeaderSize + header.ciphertextLen)) =
      cell.octets.bytes := by
    rw [padded, hlength, ← parseCellHeader_padding hparse, List.take_append_drop]
  refine ⟨cell.octets.bytes.take (cellHeaderSize + header.ciphertextLen), ?_, by omega, by omega, ?_⟩
  · rw [WireCell.compact, hparse]
  · have hoctets : (⟨padded (cell.octets.bytes.take (cellHeaderSize + header.ciphertextLen)),
        padded_length (by omega)⟩ : Octets cellSize) = cell.octets := Octets.ext_bytes hpadded
    obtain ⟨made, hmade, heq⟩ := WireCell.ofOctets_of_parse hparse
    rw [WireCell.fromCompact, dif_neg (by omega), hoctets, hmade]
    exact congrArg Except.ok (WireCell.ext_bytes (by rw [heq]))

/-! ### Sealing and opening -/

variable (A : Aead)

/-- `seal_compact` with every access checked. -/
def checkedSealCompact (k : HopKeys) (d : Direction) (sequence : UInt64) (layerType : UInt8) (data : Bytes) :
    Option (Except OnionError Bytes) :=
  if data.length > maxLayerData then some (.error .payloadTooLarge)
  else
    let plaintext := layerPlaintext layerType data
    let ciphertextLen := plaintext.length + tagSize
    (writeAll (List.replicate cellHeaderSize 0) (headerWrites k d sequence ciphertextLen)).bind fun header =>
    (minus cellSize (cellHeaderSize + ciphertextLen)).bind fun padding =>
    match A.encrypt (k.key d) (k.nonce d sequence) (header ++ List.replicate padding 0) plaintext with
    | none => some (.error .authenticationFailed)
    | some (ciphertext, tag) => some (.ok (header ++ (ciphertext ++ tag.bytes)))

/-- The part of `open_layer` that reads the decrypted layer, with every access checked. -/
def checkedReadLayer (plaintext : Bytes) : Option (Except OnionError OpenedLayer) :=
  if plaintext.length < layerHeaderSize then some (.error .invalidEncoding)
  else (byte plaintext 1).bind fun high => (byte plaintext 2).bind fun low =>
  (minus plaintext.length layerHeaderSize).bind fun rest =>
  if ofBe [high, low] ≠ rest then some (.error .invalidEncoding)
  else (read plaintext layerHeaderSize plaintext.length).bind fun data =>
  (byte plaintext 0).bind fun kind =>
  if kind = 0 then
    (WireCell.checkedFromCompact data).map fun made =>
      match made with
      | .error err => .error err
      | .ok cell => .ok (.forward cell)
  else
    match CellType.ofByte kind with
    | .error err => some (.error err)
    | .ok cellType => some (.ok (.terminal cellType data))

/-- `open_layer` with every access checked, those of the replay window included. -/
def checkedOpenLayer (k : HopKeys) (replay : ReplayWindow) (cell : WireCell)
    (expectedDirection : Direction) (now : UInt64) :
    Option (ReplayWindow × Except OnionError OpenedLayer) :=
  let bytes := cell.octets.bytes
  (checkedParseCellHeader cell.octets).bind fun parsed =>
  match parsed with
  | .error err => some (replay, .error err)
  | .ok header =>
    if header.direction ≠ expectedDirection ∨ header.circuitId ≠ k.circuitId ∨
        header.epoch ≠ k.epoch ∨ header.expiresAt ≠ k.expiresAt then some (replay, .error .wrongScope)
    else if header.expiresAt ≤ now then some (replay, .error .expired)
    else (replay.checkedCheck header.sequence).bind fun checked =>
      match checked with
      | .error err => some (replay, .error err)
      | .ok () =>
        let ciphertextEnd := cellHeaderSize + header.ciphertextLen
        (minus ciphertextEnd tagSize).bind fun tagStart =>
        (read bytes cellHeaderSize tagStart).bind fun ciphertext =>
        ((read bytes tagStart ciphertextEnd).bind (sized tagSize)).bind fun tag =>
        -- the capacity of the associated data
        (minus (cellHeaderSize + cellSize) ciphertextEnd).bind fun _ =>
        (read bytes 0 cellHeaderSize).bind fun front =>
        (read bytes ciphertextEnd cellSize).bind fun back =>
        match A.decrypt (k.key header.direction) (k.nonce header.direction header.sequence)
            (front ++ back) ciphertext tag.bytes with
        | none => some (replay, .error .authenticationFailed)
        | some plaintext => (checkedReadLayer plaintext).bind fun opened =>
          match opened with
          | .error err => some (replay, .error err)
          | .ok opened => (replay.checkedCommit header.sequence).map fun committed => (committed, .ok opened)

variable {A}

theorem checkedSealCompact_eq (k : HopKeys) (d : Direction) (q : UInt64) (layerType : UInt8) (data : Bytes) :
    checkedSealCompact A k d q layerType data = some (sealCompact A k d q layerType data) := by
  unfold checkedSealCompact sealCompact
  split
  · rfl
  · rename_i hsize
    have hfits : cellHeaderSize + ((layerPlaintext layerType data).length + tagSize) ≤ cellSize := by
      rw [layerPlaintext_length]
      simp only [maxLayerData, cellSize, cellHeaderSize, tagSize, layerHeaderSize] at hsize ⊢
      omega
    simp only
    rw [encodeCellHeader_written, Option.bind_some, minus_eq hfits, Option.bind_some,
      layerPlaintext_length, ← layerHeader, ← layerAad]
    cases A.encrypt (k.key d) (k.nonce d q) (layerAad k d q data) (layerPlaintext layerType data) with
    | none => rfl
    | some made => rfl

theorem checkedReadLayer_eq (plaintext : Bytes) :
    checkedReadLayer plaintext = some (readLayer plaintext) := by
  unfold checkedReadLayer readLayer
  split
  · rfl
  · rename_i hshort
    have hlong : 3 ≤ plaintext.length := not_lt.mp hshort
    have hdeclared := slice_two (l := plaintext) (i := 1) hlong
    dsimp only at hdeclared ⊢
    rw [byte_eq (by omega), byte_eq (by omega), byte_eq (by omega), minus_eq (not_lt.mp hshort), hdeclared]
    simp only [Option.bind_some]
    split
    · rfl
    · rw [read_to_end (not_lt.mp hshort) rfl, Option.bind_some, WireCell.checkedFromCompact_eq]
      split
      · rfl
      · cases CellType.ofByte (plaintext.getD 0 0) with
        | error err => rfl
        | ok cellType => rfl

/-- **No access of `open_layer` leaves its range**, for any cell, keys, window and clock. -/
theorem checkedOpenLayer_eq (k : HopKeys) (w : ReplayWindow) (cell : WireCell) (d : Direction)
    (now : UInt64) : checkedOpenLayer A k w cell d now = some (openLayer A k w cell d now) := by
  unfold checkedOpenLayer openLayer
  dsimp only
  rw [checkedParseCellHeader_eq, Option.bind_some]
  cases hparse : parseCellHeader cell.octets with
  | error err => rfl
  | ok header =>
    obtain ⟨hlow, hhigh⟩ := parseCellHeader_bounds hparse
    have hsize := cell.octets.size
    simp only
    split
    · rfl
    split
    · rfl
    rw [ReplayWindow.checkedCheck_eq, Option.bind_some]
    cases hcheck : w.check header.sequence with
    | error err => rfl
    | ok _ =>
      have htag := read_octets cell.octets (i := cellHeaderSize + header.ciphertextLen - tagSize)
        (j := cellHeaderSize + header.ciphertextLen) (n := tagSize) (by omega) hhigh
      simp only
      rw [minus_eq (by omega), Option.bind_some, read_eq (by omega) (by omega), Option.bind_some, htag,
        Option.bind_some, minus_eq (by omega), Option.bind_some,
        read_eq (Nat.zero_le _) (by rw [hsize]; decide), Option.bind_some, read_to_end hhigh hsize,
        Option.bind_some]
      simp only
      rw [show slice cell.octets.bytes 0 cellHeaderSize = cell.octets.bytes.take cellHeaderSize from rfl,
        ← WireCell.aad, ← WireCell.ciphertext, ← WireCell.tag, ← WireCell.decrypt]
      cases cell.decrypt A k header with
      | none => rfl
      | some plaintext =>
        simp only
        rw [checkedReadLayer_eq, Option.bind_some, ReplayWindow.checkedCommit_eq hcheck]
        cases readLayer plaintext with
        | error err => rfl
        | ok opened => rfl

/-! ### Cells survive -/

/-- **Compacting and expanding loses nothing.**  Every cell compacts to at least 69 bytes and back to
itself; the parser returns what `encode_cell_header` was given, in front of a body of the declared length
that has room for a tag and a layer header; and no access of the four functions leaves its range. -/
theorem cells_compact_exactly (A : Aead) :
    (∀ cell : WireCell, ∃ compact, cell.compact = .ok compact ∧ 69 ≤ compact.length ∧
        compact.length ≤ cellSize ∧ WireCell.fromCompact compact = .ok cell) ∧
      (∀ (k : HopKeys) (d : Direction) (q : UInt64) (body padding : Bytes) (cell : Octets cellSize),
        tagSize + layerHeaderSize ≤ body.length → (∀ b ∈ padding, b = 0) →
        cell.bytes = encodeCellHeader k d q body.length ++ (body ++ padding) →
        parseCellHeader cell = .ok ⟨d, k.circuitId, k.epoch, k.expiresAt, q, body.length⟩) ∧
      (∀ cell, checkedParseCellHeader cell = some (parseCellHeader cell)) ∧
      (∀ cell : WireCell, cell.checkedCompact = some cell.compact) ∧
      (∀ (k : HopKeys) (d : Direction) (q : UInt64) (layerType : UInt8) (data : Bytes),
        checkedSealCompact A k d q layerType data = some (sealCompact A k d q layerType data)) ∧
      ∀ (k : HopKeys) (w : ReplayWindow) (cell : WireCell) (d : Direction) (now : UInt64),
        checkedOpenLayer A k w cell d now = some (openLayer A k w cell d now) := by
  refine ⟨WireCell.fromCompact_compact, ?_, checkedParseCellHeader_eq, WireCell.checkedCompact_eq,
    checkedSealCompact_eq, checkedOpenLayer_eq⟩
  intro k d q body padding cell hlow hpadding hcell
  have hsize := congrArg List.length hcell
  rw [cell.size, List.length_append, encodeCellHeader_length, List.length_append] at hsize
  exact parseCellHeader_encode hlow (by omega) hpadding hcell

/-- A cell whose declared length is that of its empty body. -/
def hollow : Octets cellSize :=
  ⟨padded (encodeCellHeader (sampleKeys 0) .forward 3 0), padded_length (by simp [cellHeaderSize, cellSize])⟩

/-- The parser refuses a header in front of a body that cannot hold a tag and a layer header. -/
theorem hollow_refused :
    ∃ (k : HopKeys) (d : Direction) (q : UInt64) (body padding : Bytes) (cell : Octets cellSize),
      (∀ b ∈ padding, b = 0) ∧ cell.bytes = encodeCellHeader k d q body.length ++ (body ++ padding) ∧
        parseCellHeader cell = .error .invalidEncoding :=
  ⟨sampleKeys 0, .forward, 3, [], List.replicate 974 0, hollow,
    fun _ hb => List.eq_of_mem_replicate hb, by decide +kernel, by decide +kernel⟩

/-- The smallest body, 19 bytes, behind a header. -/
theorem cells_compact_exactly_least : ∃ cell : Octets cellSize,
    cell.bytes = encodeCellHeader (sampleKeys 0) .forward 3 19 ++
        (List.replicate 19 5 ++ List.replicate 955 0) ∧
      parseCellHeader cell = .ok ⟨.forward, (sampleKeys 0).circuitId, (sampleKeys 0).epoch,
        (sampleKeys 0).expiresAt, 3, 19⟩ :=
  ⟨⟨encodeCellHeader (sampleKeys 0) .forward 3 19 ++ (List.replicate 19 5 ++ List.replicate 955 0),
      by decide +kernel⟩, rfl,
    (cells_compact_exactly transparent).2.1 _ _ _ (List.replicate 19 5) (List.replicate 955 0) _
      (by decide) (fun _ hb => List.eq_of_mem_replicate hb) rfl⟩

end Peerless.Onion
