import Peerless.Onion.Circuit

/-!
# Relays with two directions

`HopDuplex` is what a relay keeps of a circuit: its own keys, a replay window and a counter for each
direction.  It opens the cells that reach it, starts cells of its own and wraps the cells of the relay
behind it, all under its own key.
-/

namespace Peerless.Onion

open Text Wire

structure HopDuplex where
  keys : HopKeys
  forwardReplay : ReplayWindow
  reverseReplay : ReplayWindow
  nextForwardSequence : UInt64
  nextReverseSequence : UInt64

def HopDuplex.new (keys : HopKeys) : HopDuplex := ⟨keys, .empty, .empty, 0, 0⟩

/-- The counter of a direction. -/
def HopDuplex.nextSequence (h : HopDuplex) : Direction → UInt64
  | .forward => h.nextForwardSequence
  | .reverse => h.nextReverseSequence

/-- The counter of a direction, moved on by one. -/
def HopDuplex.advanced (h : HopDuplex) : Direction → HopDuplex
  | .forward => { h with nextForwardSequence := h.nextForwardSequence + 1 }
  | .reverse => { h with nextReverseSequence := h.nextReverseSequence + 1 }

variable (A : Aead)

def HopDuplex.open (h : HopDuplex) (cell : WireCell) (direction : Direction) (now : UInt64) :
    HopDuplex × Except OnionError OpenedLayer :=
  match direction with
  | .forward =>
    let opened := openLayer A h.keys h.forwardReplay cell .forward now
    ({ h with forwardReplay := opened.1 }, opened.2)
  | .reverse =>
    let opened := openLayer A h.keys h.reverseReplay cell .reverse now
    ({ h with reverseReplay := opened.1 }, opened.2)

def HopDuplex.sealLayer (h : HopDuplex) (direction : Direction) (layerType : UInt8) (payload : Bytes) :
    HopDuplex × Except OnionError WireCell :=
  match sealCompact A h.keys direction (h.nextSequence direction) layerType payload with
  | .error err => (h, .error err)
  | .ok compact =>
    match WireCell.fromCompact compact with
    | .error err => (h, .error err)
    | .ok cell =>
      if (h.nextSequence direction).toNat + 1 < UInt64.size then (h.advanced direction, .ok cell)
      else (h, .error .outOfWindow)

def HopDuplex.sealTerminal (h : HopDuplex) (direction : Direction) (cellType : CellType)
    (payload : Bytes) : HopDuplex × Except OnionError WireCell :=
  h.sealLayer A direction cellType.toByte payload

def HopDuplex.wrap (h : HopDuplex) (direction : Direction) (inner : WireCell) :
    HopDuplex × Except OnionError WireCell :=
  match inner.compact with
  | .error err => (h, .error err)
  | .ok compact => h.sealLayer A direction 0 compact

variable {A}

/-- **A successful seal** emits one layer under the next number. -/
theorem HopDuplex.sealLayer_ok_iff {h h' : HopDuplex} {d : Direction} {layerType : UInt8}
    {payload : Bytes} {cell : WireCell} : h.sealLayer A d layerType payload = (h', .ok cell) ↔
      (∃ compact, sealCompact A h.keys d (h.nextSequence d) layerType payload = .ok compact ∧
        WireCell.fromCompact compact = .ok cell) ∧
      (h.nextSequence d).toNat + 1 < UInt64.size ∧ h' = h.advanced d := by
  rw [HopDuplex.sealLayer]
  cases sealCompact A h.keys d (h.nextSequence d) layerType payload with
  | error err => simp
  | ok compact =>
    simp only [Except.ok.injEq, exists_eq_left']
    cases WireCell.fromCompact compact with
    | error err => simp
    | ok made =>
      simp only [Except.ok.injEq]
      split
      · rename_i hnext
        simp only [Prod.mk.injEq, Except.ok.injEq, hnext, true_and]
        exact ⟨fun h => ⟨h.2, h.1.symm⟩, fun h => ⟨h.2.symm, h.1⟩⟩
      · rename_i hnext
        simp [hnext]

/-- **A cell gives back the layer it was made of.** -/
theorem compact_of_fromCompact (hA : A.Correct) {k : HopKeys} {d : Direction} {q : UInt64}
    {layerType : UInt8} {data compact : Bytes}
    (hseal : sealCompact A k d q layerType data = .ok compact) {cell : WireCell}
    (hcell : WireCell.fromCompact compact = .ok cell) : cell.compact = .ok compact := by
  obtain ⟨made, hmade, hbytes, hparse⟩ := fromCompact_sealed hA hseal
  obtain rfl : cell = made := Except.ok.inj (hcell.symm.trans hmade)
  have hlen : compact.length = cellHeaderSize + (layerHeaderSize + data.length + tagSize) := by
    rw [sealCompact_length hA hseal]
    omega
  rw [WireCell.compact, hparse]
  show Except.ok (cell.octets.bytes.take (cellHeaderSize + (layerHeaderSize + data.length + tagSize))) =
    .ok compact
  rw [hbytes, ← hlen, padded, List.take_left]

/-! ### Layers with numbers of their own -/

/-- What a relay sends back. -/
structure Response where
  origin : ℕ
  cellType : CellType
  payload : Bytes
  deriving DecidableEq

variable (A) (keys : ℕ → HopKeys)

/-- The response as the relay `hop` emits it: its own layer outermost, the origin's innermost, each under
the number its relay gave it. -/
def layered (x : Response) : ℕ → List UInt64 → Except OnionError Bytes
  | _, [] => .error .hopLimit
  | hop, [q] => sealCompact A (keys hop) .reverse q x.cellType.toByte x.payload
  | hop, q :: q' :: qs =>
    (layered x (hop + 1) (q' :: qs)).bind fun inner => sealCompact A (keys hop) .reverse q 0 inner

/-- A cell that carries the response on the link in front of a relay. -/
def Carries (x : Response) (hop : ℕ) (numbers : List UInt64) (cell : WireCell) : Prop :=
  ∃ compact, layered A keys x hop numbers = .ok compact ∧ WireCell.fromCompact compact = .ok cell

variable {A} {keys}

theorem layered_cons_cons {x : Response} {hop : ℕ} {q q' : UInt64} {qs : List UInt64} {compact : Bytes} :
    layered A keys x hop (q :: q' :: qs) = .ok compact ↔
      ∃ inner, layered A keys x (hop + 1) (q' :: qs) = .ok inner ∧
        sealCompact A (keys hop) .reverse q 0 inner = .ok compact := by
  rw [layered]
  cases layered A keys x (hop + 1) (q' :: qs) with
  | error err => simp [Except.bind]
  | ok inner => simp [Except.bind]

theorem layered_sealed {x : Response} {hop : ℕ} {q : UInt64} {qs : List UInt64} {compact : Bytes}
    (h : layered A keys x hop (q :: qs) = .ok compact) :
    ∃ layerType data, sealCompact A (keys hop) .reverse q layerType data = .ok compact := by
  cases qs with
  | nil => exact ⟨_, _, h⟩
  | cons q' qs =>
    obtain ⟨inner, _, hseal⟩ := layered_cons_cons.mp h
    exact ⟨0, inner, hseal⟩

theorem Carries.wrap (hA : A.Correct) {x : Response} {hop : ℕ} {q : UInt64} {qs : List UInt64}
    {cell : WireCell} (hcell : Carries A keys x (hop + 1) (q :: qs) cell) {h h' : HopDuplex}
    (hkeys : h.keys = keys hop) {wrapped : WireCell}
    (hwrap : h.wrap A .reverse cell = (h', .ok wrapped)) :
    Carries A keys x hop (h.nextReverseSequence :: q :: qs) wrapped ∧
      h.nextReverseSequence.toNat + 1 < UInt64.size ∧ h' = h.advanced .reverse := by
  obtain ⟨inner, hinner, hcompact⟩ := hcell
  obtain ⟨layerType, data, hseal⟩ := layered_sealed hinner
  rw [HopDuplex.wrap, compact_of_fromCompact hA hseal hcompact] at hwrap
  obtain ⟨⟨compact, hsealed, hfrom⟩, hnext, hafter⟩ := HopDuplex.sealLayer_ok_iff.mp hwrap
  rw [hkeys] at hsealed
  exact ⟨⟨compact, layered_cons_cons.mpr ⟨inner, hinner, hsealed⟩, hfrom⟩, hnext, hafter⟩

/-- **A receiver takes the outermost layer off**: the response itself, or the cell of the relay behind. -/
theorem open_layered (hA : A.Correct) {x : Response} {hop : ℕ} {q : UInt64} {qs : List UInt64}
    {cell : WireCell} (hcell : Carries A keys x hop (q :: qs) cell) {w : ReplayWindow}
    (hcheck : w.check q = .ok ()) {now : UInt64} (hnow : now < (keys hop).expiresAt) :
    ∃ opened, openLayer A (keys hop) w cell .reverse now = (w.commit q, .ok opened) ∧
      match qs with
      | [] => opened = .terminal x.cellType x.payload
      | q' :: qs => ∃ inner, opened = .forward inner ∧ Carries A keys x (hop + 1) (q' :: qs) inner := by
  obtain ⟨compact, hlayered, hfrom⟩ := hcell
  cases qs with
  | nil =>
    have hseal : sealCompact A (keys hop) .reverse q x.cellType.toByte x.payload = .ok compact := hlayered
    refine ⟨_, openLayer_sealed hA hseal hfrom hcheck hnow ?_, rfl⟩
    rw [readLayer_layerPlaintext (sealCompact_ok hseal).1, if_neg x.cellType.toByte_ne_zero,
      CellType.ofByte_toByte]
  | cons q' qs =>
    obtain ⟨data, hinner, hseal⟩ := layered_cons_cons.mp hlayered
    obtain ⟨layerType, deeper, hdeeper⟩ := layered_sealed hinner
    obtain ⟨inner, hmade, _⟩ := fromCompact_sealed hA hdeeper
    refine ⟨.forward inner, openLayer_sealed hA hseal hfrom hcheck hnow ?_, inner, rfl, data, hinner,
      hmade⟩
    rw [readLayer_layerPlaintext (sealCompact_ok hseal).1, if_pos rfl, hmade]

end Peerless.Onion
