import Peerless.Lib.Mealy
import Peerless.Onion.Duplex
import Peerless.Onion.RoundTrip

/-!
# Rejected cells and the two directions of a relay

A cell is rejected at one of about ten places, before or after it is decrypted, and a relay serves two
directions with one record.  Both questions are about two runs: one with the cells in question and one
without them.

* `rejected_cells_leave_no_trace` — cells that are rejected may be left out of any run of a
  receiver or a relay, and the calls of one direction out of the other direction's run.
-/

namespace Peerless.Onion

open Text Wire

/-! ### The calls of a relay -/

/-- A call of a method of `HopDuplex`. -/
inductive DuplexCall where
  | openCell (cell : WireCell) (direction : Direction) (now : UInt64)
  | sealTerminal (direction : Direction) (cellType : CellType) (payload : Bytes)
  | wrap (direction : Direction) (inner : WireCell)

/-- What a call returns. -/
inductive DuplexResult where
  | opened (result : Except OnionError OpenedLayer)
  | emitted (result : Except OnionError WireCell)

def DuplexCall.direction : DuplexCall → Direction
  | .openCell _ direction _ => direction
  | .sealTerminal direction _ _ => direction
  | .wrap direction _ => direction

variable (A : Aead)

def HopDuplex.call (h : HopDuplex) : DuplexCall → HopDuplex × DuplexResult
  | .openCell cell direction now =>
    ((h.open A cell direction now).1, .opened (h.open A cell direction now).2)
  | .sealTerminal direction cellType payload =>
    ((h.sealTerminal A direction cellType payload).1,
      .emitted (h.sealTerminal A direction cellType payload).2)
  | .wrap direction inner =>
    ((h.wrap A direction inner).1, .emitted (h.wrap A direction inner).2)

/-- The replay window of a direction. -/
def HopDuplex.window (h : HopDuplex) : Direction → ReplayWindow
  | .forward => h.forwardReplay
  | .reverse => h.reverseReplay

/-- What a relay keeps for one direction. -/
def HopDuplex.side (h : HopDuplex) (d : Direction) : HopKeys × ReplayWindow × UInt64 :=
  (h.keys, h.window d, h.nextSequence d)

variable {A}

/-! ### Rejected cells -/

theorem HopReceiver.open_rejected {r : HopReceiver} {cell : WireCell} {now : UInt64} {err : OnionError}
    (h : (r.open A cell now).2 = .error err) : (r.open A cell now).1 = r := by
  have hsame := openLayer_error (Prod.ext rfl h : openLayer A r.keys r.replay cell r.expectedDirection
    now = (_, .error err))
  exact congrArg (fun w => { r with replay := w }) hsame

variable {h : HopDuplex} {d : Direction}

theorem HopDuplex.open_rejected {cell : WireCell} {now : UInt64} {err : OnionError}
    (hrejected : (h.open A cell d now).2 = .error err) : (h.open A cell d now).1 = h := by
  cases d with
  | forward =>
    have hsame := openLayer_error (Prod.ext rfl hrejected :
      openLayer A h.keys h.forwardReplay cell .forward now = (_, .error err))
    exact congrArg (fun w => { h with forwardReplay := w }) hsame
  | reverse =>
    have hsame := openLayer_error (Prod.ext rfl hrejected :
      openLayer A h.keys h.reverseReplay cell .reverse now = (_, .error err))
    exact congrArg (fun w => { h with reverseReplay := w }) hsame

/-! ### The two sides -/

theorem HopDuplex.open_snd (h : HopDuplex) (cell : WireCell) (d : Direction) (now : UInt64) :
    (h.open A cell d now).2 = (openLayer A h.keys (h.window d) cell d now).2 := by
  cases d <;> rfl

theorem HopDuplex.open_side (h : HopDuplex) (cell : WireCell) (d : Direction) (now : UInt64) :
    (h.open A cell d now).1.side d =
      (h.keys, (openLayer A h.keys (h.window d) cell d now).1, h.nextSequence d) := by
  cases d <;> rfl

variable {d' : Direction}

theorem HopDuplex.open_other_side (h : HopDuplex) (cell : WireCell) (hne : d ≠ d') (now : UInt64) :
    (h.open A cell d now).1.side d' = h.side d' := by
  cases d <;> cases d' <;> first | rfl | exact absurd rfl hne

theorem HopDuplex.advanced_side (h : HopDuplex) (d : Direction) :
    (h.advanced d).side d = (h.keys, h.window d, h.nextSequence d + 1) := by
  cases d <;> rfl

theorem HopDuplex.advanced_other_side (h : HopDuplex) (hne : d ≠ d') :
    (h.advanced d).side d' = h.side d' := by
  cases d <;> cases d' <;> first | rfl | exact absurd rfl hne

/-- A seal leaves the relay alone or moves the counter of its direction. -/
theorem HopDuplex.sealLayer_cases (h : HopDuplex) (d : Direction) (layerType : UInt8) (payload : Bytes) :
    ((h.sealLayer A d layerType payload).1 = h ∧
        ∃ err, (h.sealLayer A d layerType payload).2 = .error err) ∨
      ((h.sealLayer A d layerType payload).1 = h.advanced d ∧
        ∃ cell, (h.sealLayer A d layerType payload).2 = .ok cell) := by
  unfold HopDuplex.sealLayer
  cases sealCompact A h.keys d (h.nextSequence d) layerType payload with
  | error err => exact Or.inl ⟨rfl, err, rfl⟩
  | ok compact =>
    dsimp only
    cases WireCell.fromCompact compact with
    | error err => exact Or.inl ⟨rfl, err, rfl⟩
    | ok cell =>
      dsimp only
      split
      · exact Or.inr ⟨rfl, cell, rfl⟩
      · exact Or.inl ⟨rfl, _, rfl⟩

theorem HopDuplex.sealLayer_other_side (h : HopDuplex) (hne : d ≠ d') (layerType : UInt8)
    (payload : Bytes) : (h.sealLayer A d layerType payload).1.side d' = h.side d' := by
  rcases h.sealLayer_cases (A := A) d layerType payload with ⟨hsame, _⟩ | ⟨hmoved, _⟩
  · rw [hsame]
  · rw [hmoved, h.advanced_other_side hne]

/-- Two relays with one side seal alike in its direction. -/
theorem HopDuplex.sealLayer_side {h' : HopDuplex} (hside : h.side d = h'.side d) (layerType : UInt8)
    (payload : Bytes) :
    (h.sealLayer A d layerType payload).2 = (h'.sealLayer A d layerType payload).2 ∧
      (h.sealLayer A d layerType payload).1.side d = (h'.sealLayer A d layerType payload).1.side d := by
  have hadvanced : (h.advanced d).side d = (h'.advanced d).side d := by
    simp only [HopDuplex.side, Prod.mk.injEq] at hside
    rw [h.advanced_side, h'.advanced_side, hside.1, hside.2.1, hside.2.2]
  have hkeys : h.keys = h'.keys := congrArg Prod.fst hside
  have hnext : h.nextSequence d = h'.nextSequence d := congrArg (fun side => side.2.2) hside
  unfold HopDuplex.sealLayer
  rw [hkeys, hnext]
  cases sealCompact A h'.keys d (h'.nextSequence d) layerType payload with
  | error err => exact ⟨rfl, hside⟩
  | ok compact =>
    dsimp only
    cases WireCell.fromCompact compact with
    | error err => exact ⟨rfl, hside⟩
    | ok cell =>
      dsimp only
      split
      · exact ⟨rfl, hadvanced⟩
      · exact ⟨rfl, hside⟩

theorem HopDuplex.call_other_side (h : HopDuplex) {c : DuplexCall} (hne : c.direction ≠ d) :
    (h.call A c).1.side d = h.side d := by
  cases c with
  | openCell cell direction now => exact h.open_other_side cell hne now
  | sealTerminal direction cellType payload => exact h.sealLayer_other_side hne cellType.toByte payload
  | wrap direction inner =>
    show (h.wrap A direction inner).1.side d = h.side d
    unfold HopDuplex.wrap
    cases inner.compact with
    | error err => rfl
    | ok compact => exact h.sealLayer_other_side hne 0 compact

theorem HopDuplex.call_side {h' : HopDuplex} {c : DuplexCall} (hd : c.direction = d)
    (hside : h.side d = h'.side d) :
    (h.call A c).2 = (h'.call A c).2 ∧ (h.call A c).1.side d = (h'.call A c).1.side d := by
  subst hd
  cases c with
  | openCell cell direction now =>
    simp only [HopDuplex.side, Prod.mk.injEq] at hside
    refine ⟨congrArg DuplexResult.opened ?_, ?_⟩
    · show (h.open A cell direction now).2 = (h'.open A cell direction now).2
      rw [h.open_snd, h'.open_snd, hside.1]
      exact congrArg (fun w => (openLayer A h'.keys w cell direction now).2) hside.2.1
    · show (h.open A cell direction now).1.side direction = (h'.open A cell direction now).1.side direction
      rw [h.open_side, h'.open_side, hside.1]
      exact Prod.ext rfl (Prod.ext
        (congrArg (fun w => (openLayer A h'.keys w cell direction now).1) hside.2.1) hside.2.2)
  | sealTerminal direction cellType payload =>
    obtain ⟨hresult, hafter⟩ := HopDuplex.sealLayer_side (A := A) hside cellType.toByte payload
    exact ⟨congrArg DuplexResult.emitted hresult, hafter⟩
  | wrap direction inner =>
    have hwrap : (h.wrap A direction inner).2 = (h'.wrap A direction inner).2 ∧
        (h.wrap A direction inner).1.side direction = (h'.wrap A direction inner).1.side direction := by
      unfold HopDuplex.wrap
      cases inner.compact with
      | error err => exact ⟨rfl, hside⟩
      | ok compact => exact HopDuplex.sealLayer_side hside 0 compact
    exact ⟨congrArg DuplexResult.emitted hwrap.1, hwrap.2⟩

/-! ### Two runs -/

/-- A receiver opens a cell; the mark, which it does not see, says whether the cell belongs to the run
(`true`) or was inserted. -/
def HopReceiver.openMarked (A : Aead) (r : HopReceiver) (x : Bool × WireCell × UInt64) :
    HopReceiver × Except OnionError OpenedLayer :=
  r.open A x.2.1 x.2.2

/-- A relay serves a call that belongs to the run (`true`) or was inserted. -/
def HopDuplex.callMarked (A : Aead) (h : HopDuplex) (x : Bool × DuplexCall) : HopDuplex × DuplexResult :=
  h.call A x.2

/-- **Rejected cells leave no trace.**  A receiver, or a relay whose other calls open, seal and wrap in
both directions, answers the cells of the run as if the inserted ones had never come, and ends in the
same state, if every inserted cell is rejected when it comes.  A relay answers the calls of one direction
as if there had been no calls of the other. -/
theorem rejected_cells_leave_no_trace (A : Aead) :
    (∀ (r : HopReceiver) (cells : List (Bool × WireCell × UInt64)),
      (∀ entry ∈ Mealy.trace (HopReceiver.openMarked A) r cells, entry.1.1 = false →
        ∃ err, entry.2 = .error err) →
      (Mealy.trace (HopReceiver.openMarked A) r cells).filter (fun entry => entry.1.1) =
          Mealy.trace (HopReceiver.openMarked A) r (cells.filter fun x => x.1) ∧
        Mealy.after (HopReceiver.openMarked A) r cells =
          Mealy.after (HopReceiver.openMarked A) r (cells.filter fun x => x.1)) ∧
    (∀ (h : HopDuplex) (calls : List (Bool × DuplexCall)),
      (∀ entry ∈ Mealy.trace (HopDuplex.callMarked A) h calls, entry.1.1 = false →
        ∃ err, entry.2 = .opened (.error err)) →
      (Mealy.trace (HopDuplex.callMarked A) h calls).filter (fun entry => entry.1.1) =
          Mealy.trace (HopDuplex.callMarked A) h (calls.filter fun x => x.1) ∧
        Mealy.after (HopDuplex.callMarked A) h calls =
          Mealy.after (HopDuplex.callMarked A) h (calls.filter fun x => x.1)) ∧
    ∀ (h : HopDuplex) (d : Direction) (calls : List DuplexCall),
      (Mealy.trace (HopDuplex.call A) h calls).filter (fun entry => decide (entry.1.direction = d)) =
        Mealy.trace (HopDuplex.call A) h (calls.filter fun c => decide (c.direction = d)) := by
  refine ⟨?_, ?_, ?_⟩
  · intro r cells hrejected
    refine Mealy.trace_filter id (fun x => x.1) (fun _ result => ∃ err, result = Except.error err)
      ?_ ?_ cells r r rfl hrejected
    · intro r r' x _ hsame
      obtain rfl : r = r' := hsame
      exact ⟨rfl, rfl⟩
    · rintro r x _ ⟨err, herr⟩
      exact HopReceiver.open_rejected herr
  · intro h calls hrejected
    refine Mealy.trace_filter id (fun x => x.1) (fun _ result => ∃ err,
      result = DuplexResult.opened (.error err)) ?_ ?_ calls h h rfl hrejected
    · intro h h' x _ hsame
      obtain rfl : h = h' := hsame
      exact ⟨rfl, rfl⟩
    · rintro h ⟨_, c⟩ _ ⟨err, herr⟩
      cases c with
      | openCell cell direction now => exact HopDuplex.open_rejected (DuplexResult.opened.inj herr)
      | sealTerminal direction cellType payload => cases herr
      | wrap direction inner => cases herr
  · intro h d calls
    refine (Mealy.trace_filter (fun h => h.side d) (fun c => decide (c.direction = d)) (fun _ _ => True)
      ?_ ?_ calls h h rfl fun _ _ _ => trivial).1
    · intro h h' c hc hside
      exact HopDuplex.call_side (of_decide_eq_true hc) hside
    · intro h c hc _
      exact h.call_other_side (of_decide_eq_false hc)

/-- A cell of the run, inserted once more after it was opened, and a cell of the other direction. -/
def replayInserted : Option (List (Bool × WireCell × UInt64)) :=
  (linkCell transparent .forward ⟨0, .data, [7]⟩ [sampleKeys 0]).toOption.bind fun cell =>
    (linkCell transparent .reverse ⟨0, .data, [7]⟩ [sampleKeys 0]).toOption.map fun other =>
      [(false, other, 49), (true, cell, 50), (false, cell, 51)]

/-- The hop opens the cell of the run and rejects the two others. -/
theorem replayInserted_leaves_no_trace : ∃ cells,
    (Mealy.trace (HopReceiver.openMarked transparent) (.new (sampleKeys 0) .forward) cells).map
      (fun entry => (entry.1.1, entry.2.toOption)) =
        [(false, none), (true, some (.terminal .data [7])), (false, none)] ∧
    Mealy.after (HopReceiver.openMarked transparent) (.new (sampleKeys 0) .forward) cells =
      Mealy.after (HopReceiver.openMarked transparent) (.new (sampleKeys 0) .forward)
        (cells.filter fun x => x.1) := by
  have heval : (replayInserted.map fun cells => (Mealy.trace (HopReceiver.openMarked transparent)
      (.new (sampleKeys 0) .forward) cells).map fun entry => (entry.1.1, entry.2.toOption)) =
        some [(false, none), (true, some (.terminal .data [7])), (false, none)] := by
    decide +kernel
  obtain ⟨cells, _, hcells⟩ := Option.map_eq_some_iff.mp heval
  refine ⟨cells, hcells, ((rejected_cells_leave_no_trace transparent).1 _ cells ?_).2⟩
  intro entry hentry hinserted
  have hmem : (entry.1.1, entry.2.toOption) ∈ [(false, none), (true, some (.terminal .data [7])),
      (false, none)] := hcells ▸ List.mem_map_of_mem hentry
  cases hresult : entry.2 with
  | error err => exact ⟨err, rfl⟩
  | ok opened =>
    rw [hresult, hinserted] at hmem
    simp [Except.toOption] at hmem

end Peerless.Onion
