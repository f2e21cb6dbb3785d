import Peerless.Onion.Replay

/-!
# Circuits

A sender wraps a payload into one layer per hop, innermost first; each hop takes one layer off.
-/

namespace Peerless.Onion

open Text Wire

/-! ### Opening a layer -/

inductive OpenedLayer where
  | forward (cell : WireCell)
  | terminal (cellType : CellType) (payload : Bytes)
  deriving DecidableEq

/-- The part of `open_layer` that reads the decrypted layer. -/
def readLayer (plaintext : Bytes) : Except OnionError OpenedLayer :=
  if plaintext.length < layerHeaderSize then .error .invalidEncoding
  else
    let declared := ofBe (slice plaintext 1 3)
    if declared ≠ plaintext.length - layerHeaderSize then .error .invalidEncoding
    else
      let data := plaintext.drop layerHeaderSize
      if plaintext.getD 0 0 = 0 then
        match WireCell.fromCompact data with
        | .error err => .error err
        | .ok cell => .ok (.forward cell)
      else
        match CellType.ofByte (plaintext.getD 0 0) with
        | .error err => .error err
        | .ok cellType => .ok (.terminal cellType data)

variable (A : Aead)

/-- The decryption a hop tries under the header it parsed. -/
def WireCell.decrypt (cell : WireCell) (k : HopKeys) (header : CellHeader) : Option Bytes :=
  A.decrypt (k.key header.direction) (k.nonce header.direction header.sequence)
    (cell.aad header.ciphertextLen) (cell.ciphertext header.ciphertextLen)
    (cell.tag header.ciphertextLen)

def openLayer (k : HopKeys) (replay : ReplayWindow) (cell : WireCell) (expectedDirection : Direction)
    (now : UInt64) : ReplayWindow × Except OnionError OpenedLayer :=
  match parseCellHeader cell.octets with
  | .error err => (replay, .error err)
  | .ok header =>
    if header.direction ≠ expectedDirection ∨ header.circuitId ≠ k.circuitId ∨
        header.epoch ≠ k.epoch ∨ header.expiresAt ≠ k.expiresAt then (replay, .error .wrongScope)
    else if header.expiresAt ≤ now then (replay, .error .expired)
    else
      match replay.check header.sequence with
      | .error err => (replay, .error err)
      | .ok () =>
        match cell.decrypt A k header with
        | none => (replay, .error .authenticationFailed)
        | some plaintext =>
          match readLayer plaintext with
          | .error err => (replay, .error err)
          | .ok opened => (replay.commit header.sequence, .ok opened)

variable {A}

variable {k : HopKeys} {w : ReplayWindow} {cell : WireCell} {d : Direction}

/-- **What a successful `open_layer` has checked.** -/
theorem openLayer_ok_iff {w' : ReplayWindow} {now : UInt64} {opened : OpenedLayer} :
    openLayer A k w cell d now = (w', .ok opened) ↔ ∃ q len plaintext,
      parseCellHeader cell.octets = .ok ⟨d, k.circuitId, k.epoch, k.expiresAt, q, len⟩ ∧
      now < k.expiresAt ∧ w.check q = .ok () ∧
      cell.decrypt A k ⟨d, k.circuitId, k.epoch, k.expiresAt, q, len⟩ = some plaintext ∧
      readLayer plaintext = .ok opened ∧ w' = w.commit q := by
  constructor
  · intro h
    unfold openLayer at h
    split at h
    · exact absurd (congrArg Prod.snd h) (by simp)
    rename_i header hparse
    split at h
    · exact absurd (congrArg Prod.snd h) (by simp)
    rename_i hscope
    simp only [ne_eq, not_or, not_not] at hscope
    split at h
    · exact absurd (congrArg Prod.snd h) (by simp)
    rename_i hexpiry
    split at h
    · exact absurd (congrArg Prod.snd h) (by simp)
    rename_i hcheck
    split at h
    · exact absurd (congrArg Prod.snd h) (by simp)
    rename_i plaintext hdecrypt
    split at h
    · exact absurd (congrArg Prod.snd h) (by simp)
    rename_i out hread
    simp only [Prod.mk.injEq, Except.ok.injEq] at h
    obtain ⟨direction, circuitId, epoch, expiresAt, q, len⟩ := header
    obtain ⟨rfl, rfl, rfl, rfl⟩ := hscope
    exact ⟨q, len, plaintext, hparse, by simpa using hexpiry, hcheck, hdecrypt, by rw [hread, h.2],
      h.1.symm⟩
  · rintro ⟨q, len, plaintext, hparse, hexpiry, hcheck, hdecrypt, hread, rfl⟩
    unfold openLayer
    rw [hparse]
    simp only
    rw [if_neg (by simp), if_neg (by simpa using hexpiry), hcheck]
    simp only
    rw [hdecrypt]
    simp only
    rw [hread]

/-- A layer that does not open leaves the window as it was. -/
theorem openLayer_error {w' : ReplayWindow} {now : UInt64} {err : OnionError}
    (h : openLayer A k w cell d now = (w', .error err)) : w' = w := by
  unfold openLayer at h
  split at h
  · exact (congrArg Prod.fst h).symm
  split at h
  · exact (congrArg Prod.fst h).symm
  split at h
  · exact (congrArg Prod.fst h).symm
  split at h
  · exact (congrArg Prod.fst h).symm
  split at h
  · exact (congrArg Prod.fst h).symm
  split at h
  · exact (congrArg Prod.fst h).symm
  · exact absurd (congrArg Prod.snd h) (by simp)

/-- What a hop reads in a layer it decrypted: a cell to forward, or a typed payload. -/
theorem readLayer_layerPlaintext {data : Bytes} (hsize : data.length ≤ maxLayerData)
    (layerType : UInt8) :
    readLayer (layerPlaintext layerType data) =
      if layerType = 0 then
        match WireCell.fromCompact data with
        | .error err => .error err
        | .ok cell => .ok (.forward cell)
      else
        match CellType.ofByte layerType with
        | .error err => .error err
        | .ok cellType => .ok (.terminal cellType data) := by
  have hlen := layerPlaintext_length layerType data
  have hsmall : data.length < 256 ^ 2 := by
    simp only [maxLayerData, cellSize, cellHeaderSize, tagSize, layerHeaderSize] at hsize
    omega
  have hsplit : layerPlaintext layerType data = ([layerType] ++ toBe 2 data.length) ++ data := rfl
  have hdeclared : ofBe (slice (layerPlaintext layerType data) 1 3) = data.length := by
    rw [layerPlaintext, ← List.singleton_append, slice_skip (by simp), List.length_singleton,
      slice_prefix (by simp), ofBe_toBe_of_lt hsmall]
  have hdata : (layerPlaintext layerType data).drop layerHeaderSize = data := by
    rw [hsplit, List.drop_left' (by simp [layerHeaderSize])]
  have hfirst : (layerPlaintext layerType data).getD 0 0 = layerType := rfl
  unfold readLayer
  rw [if_neg (by omega)]
  simp only [hdeclared, hdata, hfirst]
  rw [if_neg (by omega)]

/-- **A hop opens what was sealed for it** when its window lets the number pass. -/
theorem openLayer_sealed (hA : A.Correct) {q : UInt64} {layerType : UInt8} {data compact : Bytes}
    (hseal : sealCompact A k d q layerType data = .ok compact)
    (hcell : WireCell.fromCompact compact = .ok cell) (hcheck : w.check q = .ok ()) {now : UInt64}
    (hnow : now < k.expiresAt) {opened : OpenedLayer}
    (hread : readLayer (layerPlaintext layerType data) = .ok opened) :
    openLayer A k w cell d now = (w.commit q, .ok opened) := by
  obtain ⟨made, hmade, hbytes, hparse⟩ := fromCompact_sealed hA hseal
  obtain rfl : cell = made := Except.ok.inj (hcell.symm.trans hmade)
  obtain ⟨_, c, t, henc, rfl⟩ := sealCompact_ok hseal
  obtain ⟨hc, ht, had⟩ := sealed_parts hA henc hbytes
  refine openLayer_ok_iff.mpr ⟨q, _, _, hparse, hnow, hcheck, ?_, hread, rfl⟩
  show A.decrypt _ _ _ _ _ = _
  rw [hc, ht, had]
  exact hA.decrypts henc

/-! ### Hops -/

structure HopReceiver where
  keys : HopKeys
  expectedDirection : Direction
  replay : ReplayWindow

def HopReceiver.new (keys : HopKeys) (expectedDirection : Direction) : HopReceiver :=
  ⟨keys, expectedDirection, .empty⟩

variable (A)

def HopReceiver.open (r : HopReceiver) (cell : WireCell) (now : UInt64) :
    HopReceiver × Except OnionError OpenedLayer :=
  let opened := openLayer A r.keys r.replay cell r.expectedDirection now
  ({ r with replay := opened.1 }, opened.2)

/-! ### The sender -/

/-- The fields every key of a circuit shares. -/
def HopKeys.scope (k : HopKeys) : Octets 16 × UInt64 × UInt64 := (k.circuitId, k.epoch, k.expiresAt)

/-- `CircuitSender`: the keys in traversal order, checked by `new`. -/
structure CircuitSender where
  traversalKeys : List HopKeys
  direction : Direction
  nextSequence : UInt64
  nonempty : traversalKeys ≠ []
  hops : traversalKeys.length ≤ maxHops
  scope : ∀ k ∈ traversalKeys, k.scope = (traversalKeys.head nonempty).scope

def CircuitSender.new (traversalKeys : List HopKeys) (direction : Direction) :
    Except OnionError CircuitSender :=
  if h : traversalKeys = [] ∨ traversalKeys.length > maxHops then .error .hopLimit
  else
    let first := traversalKeys.head (fun hnil => h (Or.inl hnil))
    if hscope : ∃ k ∈ traversalKeys, k.circuitId ≠ first.circuitId ∨ k.epoch ≠ first.epoch ∨
        k.expiresAt ≠ first.expiresAt then .error .wrongScope
    else .ok
      { traversalKeys, direction
        nextSequence := 0
        nonempty := fun hnil => h (Or.inl hnil)
        hops := by omega
        scope := by
          intro k hk
          simp only [ne_eq, not_exists, not_and, not_or, not_not] at hscope
          obtain ⟨hcircuit, hepoch, hexpiry⟩ := hscope k hk
          rw [HopKeys.scope, hcircuit, hepoch, hexpiry]
          rfl }

/-- The loop of `CircuitSender::seal`: the innermost layer for the last hop, then one layer around it
for every hop before, last to first. -/
def sealLayers (keys : List HopKeys) (h : keys ≠ []) (d : Direction) (sequence : UInt64)
    (cellType : CellType) (payload : Bytes) : Except OnionError Bytes :=
  (sealCompact A (keys.getLast h) d sequence cellType.toByte payload).bind fun compact =>
    keys.dropLast.reverse.foldlM (fun compact key => sealCompact A key d sequence 0 compact) compact

def CircuitSender.seal (s : CircuitSender) (cellType : CellType) (payload : Bytes) :
    CircuitSender × Except OnionError WireCell :=
  match sealLayers A s.traversalKeys s.nonempty s.direction s.nextSequence cellType payload with
  | .error err => (s, .error err)
  | .ok compact =>
    match WireCell.fromCompact compact with
    | .error err => (s, .error err)
    | .ok cell =>
      if s.nextSequence.toNat + 1 < UInt64.size then
        ({ s with nextSequence := s.nextSequence + 1 }, .ok cell)
      else (s, .error .outOfWindow)

/-! ### The onion of a call -/

/-- What one call of `seal` wraps. -/
structure Sealing where
  sequence : UInt64
  cellType : CellType
  payload : Bytes
  deriving DecidableEq

/-- The onion for the remaining hops, first hop outermost. -/
def onion (d : Direction) (x : Sealing) : List HopKeys → Except OnionError Bytes
  | [] => .error .hopLimit
  | [k] => sealCompact A k d x.sequence x.cellType.toByte x.payload
  | k :: k' :: ks => (onion d x (k' :: ks)).bind fun inner => sealCompact A k d x.sequence 0 inner

/-- The cell on the link to the first of the remaining hops. -/
def linkCell (d : Direction) (x : Sealing) (keys : List HopKeys) : Except OnionError WireCell :=
  (onion A d x keys).bind WireCell.fromCompact

variable {A}

theorem sealLayers_eq_onion (d : Direction) (q : UInt64) (t : CellType) (payload : Bytes) :
    ∀ (keys : List HopKeys) (h : keys ≠ []),
      sealLayers A keys h d q t payload = onion A d ⟨q, t, payload⟩ keys := by
  intro keys
  induction keys with
  | nil => intro h; exact absurd rfl h
  | cons k keys ih =>
    intro h
    cases keys with
    | nil =>
      show (sealCompact A k d q t.toByte payload).bind _ = sealCompact A k d q t.toByte payload
      cases sealCompact A k d q t.toByte payload <;> rfl
    | cons k' ks =>
      have hinner := ih (List.cons_ne_nil k' ks)
      rw [onion, ← hinner, sealLayers, sealLayers, List.getLast_cons (List.cons_ne_nil k' ks),
        List.dropLast_cons_cons, List.reverse_cons]
      cases sealCompact A ((k' :: ks).getLast (List.cons_ne_nil k' ks)) d q t.toByte payload with
      | error err => rfl
      | ok compact =>
        show List.foldlM _ compact ((k' :: ks).dropLast.reverse ++ [k]) =
          Except.bind (List.foldlM _ compact (k' :: ks).dropLast.reverse) _
        rw [List.foldlM_append]
        show Except.bind _ _ = Except.bind _ _
        congr 1
        funext inner
        show Except.bind (sealCompact A k d q 0 inner) Except.ok = sealCompact A k d q 0 inner
        cases sealCompact A k d q 0 inner <;> rfl

variable {x : Sealing}

/-- An onion of several layers: the inner onion, sealed for the first hop. -/
theorem onion_cons_cons_ok {k' : HopKeys} {ks : List HopKeys} {compact : Bytes}
    (h : onion A d x (k :: k' :: ks) = .ok compact) :
    ∃ inner, onion A d x (k' :: ks) = .ok inner ∧ sealCompact A k d x.sequence 0 inner = .ok compact := by
  rw [onion] at h
  cases hinner : onion A d x (k' :: ks) with
  | error err =>
    rw [hinner] at h
    exact absurd h (by simp [Except.bind])
  | ok inner =>
    rw [hinner] at h
    exact ⟨inner, rfl, h⟩

/-- Every layer costs its header, its tag and its three bytes of layer header. -/
theorem onion_length (hA : A.Correct) :
    ∀ {keys : List HopKeys} {compact : Bytes}, onion A d x keys = .ok compact →
      compact.length = keys.length * (cellHeaderSize + tagSize + layerHeaderSize) + x.payload.length := by
  intro keys
  induction keys with
  | nil => intro compact h; exact absurd h (by simp [onion])
  | cons k keys ih =>
    intro compact h
    cases keys with
    | nil =>
      rw [sealCompact_length hA h, List.length_singleton, Nat.one_mul]
    | cons k' ks =>
      obtain ⟨inner, hinner, hseal⟩ := onion_cons_cons_ok h
      rw [sealCompact_length hA hseal, ih hinner]
      simp only [List.length_cons]
      ring

/-- **The payloads that fit.**  The innermost layer and each layer around it have to fit into one. -/
theorem onion_ok_iff_length (hA : A.Correct) :
    ∀ {keys : List HopKeys}, keys ≠ [] → ((∃ compact, onion A d x keys = .ok compact) ↔
      (keys.length - 1) * (cellHeaderSize + tagSize + layerHeaderSize) + x.payload.length ≤
        maxLayerData) := by
  intro keys
  induction keys with
  | nil => intro h; exact absurd rfl h
  | cons k keys ih =>
    intro _
    cases keys with
    | nil =>
      rw [List.length_singleton, Nat.sub_self, Nat.zero_mul, Nat.zero_add]
      exact sealCompact_ok_iff hA
    | cons k' ks =>
      rw [List.length_cons, Nat.add_sub_cancel]
      constructor
      · intro ⟨compact, h⟩
        obtain ⟨inner, hinner, hseal⟩ := onion_cons_cons_ok h
        rw [← onion_length hA hinner]
        exact (sealCompact_ok hseal).1
      · intro hsize
        have hsmaller : ((k' :: ks).length - 1) * (cellHeaderSize + tagSize + layerHeaderSize) ≤
            (k' :: ks).length * (cellHeaderSize + tagSize + layerHeaderSize) :=
          Nat.mul_le_mul_right _ (Nat.sub_le _ 1)
        obtain ⟨inner, hinner⟩ := (ih (List.cons_ne_nil k' ks)).mpr (by omega)
        obtain ⟨compact, hcompact⟩ := (sealCompact_ok_iff hA (k := k) (d := d) (q := x.sequence)).mpr
          (by rw [onion_length hA hinner]; exact hsize)
        exact ⟨compact, by rw [onion, hinner]; exact hcompact⟩

/-- The bound in the words of `max_payload_for_hops`. -/
theorem onion_ok_iff (hA : A.Correct) {keys : List HopKeys} (hne : keys ≠ [])
    (hhops : keys.length ≤ maxHops) :
    (∃ compact, onion A d x keys = .ok compact) ↔
      ∃ bound, maxPayloadForHops keys.length = .ok bound ∧ x.payload.length ≤ bound := by
  have hfits := maxPayloadForHops_eq (List.length_pos_iff.mpr hne) hhops
  rw [onion_ok_iff_length hA hne, hfits.1]
  simp only [Except.ok.injEq, exists_eq_left']
  have := hfits.2
  omega

theorem linkCell_of_onion (hA : A.Correct) {keys : List HopKeys} {compact : Bytes}
    (h : onion A d x keys = .ok compact) : ∃ cell, linkCell A d x keys = .ok cell := by
  obtain ⟨k, layerType, data, hseal⟩ : ∃ k layerType data,
      sealCompact A k d x.sequence layerType data = .ok compact := by
    match keys, h with
    | [k], h => exact ⟨k, _, _, h⟩
    | k :: k' :: ks, h =>
      obtain ⟨inner, _, hseal⟩ := onion_cons_cons_ok h
      exact ⟨k, 0, inner, hseal⟩
  obtain ⟨cell, hcell, _⟩ := fromCompact_sealed hA hseal
  exact ⟨cell, by rw [linkCell, h]; exact hcell⟩

theorem linkCell_ok {keys : List HopKeys} (h : linkCell A d x keys = .ok cell) :
    ∃ compact, onion A d x keys = .ok compact ∧ WireCell.fromCompact compact = .ok cell := by
  rw [linkCell] at h
  cases honion : onion A d x keys with
  | error err =>
    rw [honion] at h
    exact absurd h (by simp [Except.bind])
  | ok compact =>
    rw [honion] at h
    exact ⟨compact, rfl, h⟩

/-! ### Calls of the sender -/

/-- The sender after a successful call. -/
def CircuitSender.advanced (s : CircuitSender) : CircuitSender :=
  { s with nextSequence := s.nextSequence + 1 }

/-- **A successful call** sends the onion of its payload under the next number. -/
theorem CircuitSender.seal_ok_iff {s s' : CircuitSender} {t : CellType} {payload : Bytes} :
    s.seal A t payload = (s', .ok cell) ↔
      linkCell A s.direction ⟨s.nextSequence, t, payload⟩ s.traversalKeys = .ok cell ∧
        s.nextSequence.toNat + 1 < UInt64.size ∧ s' = s.advanced := by
  unfold CircuitSender.seal linkCell
  rw [sealLayers_eq_onion]
  cases onion A s.direction ⟨s.nextSequence, t, payload⟩ s.traversalKeys with
  | error err => simp [Except.bind]
  | ok compact =>
    show (match WireCell.fromCompact compact with | .error err => _ | .ok cell => _) = _ ↔
      WireCell.fromCompact compact = .ok cell ∧ _
    cases WireCell.fromCompact compact with
    | error err => simp
    | ok made =>
      simp only
      split
      · rename_i hnext
        simp only [Prod.mk.injEq, Except.ok.injEq, hnext, true_and]
        exact ⟨fun h => ⟨h.2, h.1.symm⟩, fun h => ⟨h.2.symm, h.1⟩⟩
      · rename_i hnext
        simp [hnext]

/-- A failed call sends nothing and keeps the number. -/
theorem CircuitSender.seal_error {s s' : CircuitSender} {t : CellType} {payload : Bytes}
    {err : OnionError} (h : s.seal A t payload = (s', .error err)) : s' = s := by
  unfold CircuitSender.seal at h
  split at h
  · exact (congrArg Prod.fst h).symm
  split at h
  · exact (congrArg Prod.fst h).symm
  split at h
  · exact absurd (congrArg Prod.snd h) (by simp)
  · exact (congrArg Prod.fst h).symm

end Peerless.Onion
