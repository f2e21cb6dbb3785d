import Peerless.Onion.Reassembly
import Peerless.Onion.RoundTrip

/-!
# Messages over circuits

A message is cut into fragments, each fragment sealed as the payload of a cell, the cells carried
through the hops, the payloads decoded and reassembled.

* `message_crosses_iff` — a message crosses a circuit exactly when the circuit has one hop
  or the message fits into one cell of it: fragments are cut for one layer, not for the circuit.
-/

namespace Peerless.Onion

open Text Wire

/-! ### Cells through all hops -/

variable (A : Aead)

/-- The cells among the results of a hop. -/
def forwarded (results : List (Except OnionError OpenedLayer)) : List WireCell :=
  results.filterMap fun
    | .ok (.forward cell) => some cell
    | _ => none

/-- The payloads among the results of a hop. -/
def handedOut (results : List (Except OnionError OpenedLayer)) : List (CellType × Bytes) :=
  results.filterMap fun
    | .ok (.terminal cellType payload) => some (cellType, payload)
    | _ => none

/-- Fresh hops that pass cells on in order; hop `j` opens its `i`-th cell at `clock j i`. -/
def transit (d : Direction) (clock : ℕ → ℕ → UInt64) :
    ℕ → List HopKeys → List WireCell → List (CellType × Bytes)
  | _, [], _ => []
  | j, [k], cells => handedOut ((HopReceiver.new k d).openAll A
      (cells.zip ((List.range cells.length).map (clock j)))).2
  | j, k :: k' :: ks, cells => transit d clock (j + 1) (k' :: ks)
      (forwarded ((HopReceiver.new k d).openAll A
        (cells.zip ((List.range cells.length).map (clock j)))).2)

variable {A}

theorem forwarded_forwards (cells : List WireCell) :
    forwarded (cells.map fun cell => .ok (.forward cell)) = cells := by
  rw [forwarded, List.filterMap_map, Function.comp_def, List.filterMap_some]

theorem handedOut_terminals (log : List Sealing) :
    handedOut (log.map fun x => .ok (.terminal x.cellType x.payload)) =
      log.map fun x => (x.cellType, x.payload) := by
  rw [handedOut, List.filterMap_map, ← List.filterMap_eq_map]
  rfl

theorem transit_onLink (hA : A.Correct) {d : Direction} {clock : ℕ → ℕ → UInt64} {log : List Sealing}
    (hlog : Consecutive 0 log) : ∀ (keys : List HopKeys) (j : ℕ), keys ≠ [] →
      (∀ k ∈ keys, ∀ j i, clock j i < k.expiresAt) →
      (∀ x ∈ log, ∃ cell, linkCell A d x keys = .ok cell) →
      transit A d clock j keys (onLink A d keys log) = log.map fun x => (x.cellType, x.payload) := by
  intro keys
  induction keys with
  | nil => intro j h; exact absurd rfl h
  | cons k keys ih =>
    intro j _ hclock hsealed
    have hbefore : ∀ n, ∀ now ∈ (List.range n).map (clock j), now < k.expiresAt := by
      intro n now hnow
      obtain ⟨i, _, rfl⟩ := List.mem_map.mp hnow
      exact hclock k (List.mem_cons_self ..) j i
    have hopen := openAll_new hA hlog hsealed
      (List.length_map (clock j) |>.trans List.length_range) (hbefore _)
    cases keys with
    | nil =>
      rw [transit, hopen]
      exact handedOut_terminals log
    | cons k' ks =>
      have hinner : ∀ x ∈ log, ∃ cell, linkCell A d x (k' :: ks) = .ok cell := fun x hx =>
        linkCell_drop hA (j := 1) (by simp) (hsealed x hx)
      rw [transit, hopen, behind_onLink log hinner, forwarded_forwards]
      exact ih (j + 1) (List.cons_ne_nil k' ks) (fun k hk => hclock k (List.mem_cons_of_mem _ hk)) hinner

theorem sealAll_accepts (hA : A.Correct) {bound : ℕ} : ∀ (calls : List (CellType × Bytes))
    (s : CircuitSender), maxPayloadForHops s.traversalKeys.length = .ok bound →
      s.nextSequence.toNat + calls.length < UInt64.size - 1 →
      (∀ call ∈ calls, call.2.length ≤ bound) →
      (s.sealAll A calls).2.map (fun x => (x.1.cellType, x.1.payload)) = calls := by
  intro calls
  induction calls with
  | nil => intro s _ _ _; rfl
  | cons call calls ih =>
    intro s hbound hroom hsize
    obtain ⟨t, payload⟩ := call
    rw [List.length_cons] at hroom
    obtain ⟨cell, hcell⟩ := (CircuitSender.seal_succeeds_iff hA s (by omega) t payload).mpr
      ⟨bound, hbound, hsize _ (List.mem_cons_self ..)⟩
    have hseal : s.seal A t payload = (s.advanced, .ok cell) := by
      have hok := CircuitSender.seal_ok_iff.mp (Prod.ext (rfl : (s.seal A t payload).1 = _) hcell)
      exact CircuitSender.seal_ok_iff.mpr ⟨hok.1, hok.2.1, rfl⟩
    have hsucc : s.advanced.nextSequence.toNat = s.nextSequence.toNat + 1 := by
      show (s.nextSequence + 1).toNat = _
      rw [UInt64.toNat_add]
      exact Nat.mod_eq_of_lt (show s.nextSequence.toNat + 1 < UInt64.size by omega)
    rw [CircuitSender.sealAll, hseal, List.map_cons]
    refine congrArg (_ :: ·) ?_
    exact ih s.advanced hbound (by omega) fun c hc => hsize c (List.mem_cons_of_mem _ hc)

/-! ### Messages -/

/-- What should hold of a message on a circuit: it has fragments, they encode, every encoding is
accepted by the sender, and what the last hop hands out decodes to fragments that reassemble to the
message. -/
def Crosses (A : Aead) (sender : CircuitSender) (cellType : CellType) (clock : ℕ → ℕ → UInt64)
    (messageId : Octets 16) (message : Bytes) : Prop :=
  ∃ fragments payloads, fragmentMessage messageId message = .ok fragments ∧
    List.Forall₂ (fun f payload => f.encode = .ok payload) fragments payloads ∧
    (sender.sealAll A (payloads.map fun payload => (cellType, payload))).2.map
      (fun x => (x.1.cellType, x.1.payload)) = payloads.map (fun payload => (cellType, payload)) ∧
    ∃ received, List.Forall₂ (fun out f => Fragment.decode out.2 = .ok f)
        (transit A sender.direction clock 0 sender.traversalKeys
          ((sender.sealAll A (payloads.map fun payload => (cellType, payload))).2.map Prod.snd))
        received ∧
      (Reassembler.empty.pushAll received).2 =
        List.replicate (received.length - 1) (.ok none) ++ [.ok (some message)]

/-- The payloads of a message's fragments. -/
def payloadsOf (messageId : Octets 16) (message : Bytes) : List Bytes :=
  (List.range (fragmentCount message)).map fun i => (fragmentAt messageId message i).fields.flatten

theorem encode_fragments (messageId : Octets 16) {message : Bytes}
    (h : message.length ≤ maxMessageSize) :
    List.Forall₂ (fun f payload => f.encode = .ok payload)
      ((List.range (fragmentCount message)).map (fragmentAt messageId message))
      (payloadsOf messageId message) := by
  rw [payloadsOf, List.forall₂_map_left_iff, List.forall₂_map_right_iff, List.forall₂_same]
  intro i hi
  exact Fragment.encode_ok_iff.mpr ⟨fragmentAt_valid messageId h (List.mem_range.mp hi), rfl⟩

/-- The longest payload of a message is its first. -/
theorem payloads_fit_iff (messageId : Octets 16) {message : Bytes}
    (h : message.length ≤ maxMessageSize) (bound : ℕ) :
    (∀ payload ∈ payloadsOf messageId message, payload.length ≤ bound) ↔
      fragmentHeaderSize + min Fragment.maxBytes message.length ≤ bound := by
  have hlength : ∀ i, ((fragmentAt messageId message i).fields.flatten).length =
      fragmentHeaderSize + min Fragment.maxBytes (message.length - i * Fragment.maxBytes) := by
    intro i
    rw [Fragment.fields_flatten_length]
    exact congrArg (fragmentHeaderSize + ·) (chunkAt_length _ _ _)
  obtain ⟨hpos, _, _, _⟩ := fragmentCount_bounds h
  constructor
  · intro hall
    have hfirst := hall _ (List.mem_map.mpr ⟨0, List.mem_range.mpr hpos, rfl⟩)
    rw [hlength, Nat.zero_mul, Nat.sub_zero] at hfirst
    exact hfirst
  · intro hfits payload hpayload
    obtain ⟨i, _, rfl⟩ := List.mem_map.mp hpayload
    rw [hlength]
    omega

/-- The bound on the first payload in terms of the circuit: one hop takes any fragment, more hops only
a message that fits into one cell. -/
theorem first_payload_fits_iff {hops length : ℕ} (hpos : 0 < hops) (hmax : hops ≤ maxHops) :
    (∃ bound, maxPayloadForHops hops = .ok bound ∧
        fragmentHeaderSize + min Fragment.maxBytes length ≤ bound) ↔
      hops = 1 ∨ ∃ bound, maxPayloadForHops hops = .ok bound ∧ length + fragmentHeaderSize ≤ bound := by
  rw [(maxPayloadForHops_eq hpos hmax).1]
  simp only [Except.ok.injEq, exists_eq_left', maxHops, Fragment.maxBytes, fragmentHeaderSize,
    maxLayerData, cellSize, cellHeaderSize, tagSize, layerHeaderSize] at hmax ⊢
  omega

theorem accepted_fits {A : Aead} (hA : A.Correct) {sender : CircuitSender}
    {calls : List (CellType × Bytes)}
    (haccepted : (sender.sealAll A calls).2.map (fun x => (x.1.cellType, x.1.payload)) = calls)
    {bound : ℕ} (hbound : maxPayloadForHops sender.traversalKeys.length = .ok bound) :
    ∀ call ∈ calls, call.2.length ≤ bound := by
  intro call hcall
  rw [← haccepted] at hcall
  obtain ⟨x, hx, rfl⟩ := List.mem_map.mp hcall
  obtain ⟨_, _, _, hcells⟩ := sealAll_spec (A := A) calls sender
  obtain ⟨compact, honion, _⟩ := linkCell_ok (hcells x hx)
  obtain ⟨bound', hbound', hle⟩ := (onion_ok_iff hA sender.nonempty sender.hops).mp ⟨compact, honion⟩
  rw [hbound] at hbound'
  rw [Except.ok.inj hbound']
  exact hle

theorem transit_sealed {A : Aead} (hA : A.Correct) {keys : List HopKeys} {d : Direction}
    {sender : CircuitSender} (hnew : CircuitSender.new keys d = .ok sender)
    {clock : ℕ → ℕ → UInt64} (hclock : ∀ k ∈ keys, ∀ j i, clock j i < k.expiresAt)
    (calls : List (CellType × Bytes)) :
    transit A d clock 0 keys ((sender.sealAll A calls).2.map Prod.snd) =
      (sender.sealAll A calls).2.map fun x => (x.1.cellType, x.1.payload) := by
  obtain ⟨rfl, rfl, hstart⟩ := CircuitSender.new_ok hnew
  obtain ⟨_, _, hcount, hcells⟩ := sealAll_spec (A := A) calls sender
  rw [hstart] at hcount
  rw [← onLink_log _ hcells, transit_onLink hA hcount _ 0 sender.nonempty hclock, List.map_map]
  · rfl
  · intro x hx
    obtain ⟨y, hy, rfl⟩ := List.mem_map.mp hx
    exact ⟨y.2, hcells y hy⟩

/-- **The messages that cross.**  With `clock` before expiry, a message of admissible size crosses a
fresh circuit exactly when the circuit has a single hop or the message, with one fragment header, fits
into one cell of the circuit. -/
theorem message_crosses_iff {A : Aead} (hA : A.Correct) {keys : List HopKeys} {d : Direction}
    {sender : CircuitSender} (hnew : CircuitSender.new keys d = .ok sender) (cellType : CellType)
    {clock : ℕ → ℕ → UInt64} (hclock : ∀ k ∈ keys, ∀ j i, clock j i < k.expiresAt)
    (messageId : Octets 16) {message : Bytes} (hsize : message.length ≤ maxMessageSize) :
    Crosses A sender cellType clock messageId message ↔
      keys.length = 1 ∨ ∃ bound, maxPayloadForHops keys.length = .ok bound ∧
        message.length + fragmentHeaderSize ≤ bound := by
  obtain ⟨hkeys, hdirection, hstart⟩ := CircuitSender.new_ok hnew
  have hpos : 0 < keys.length := by
    rw [← hkeys]
    exact List.length_pos_iff.mpr sender.nonempty
  have hmax : keys.length ≤ maxHops := by
    rw [← hkeys]
    exact sender.hops
  obtain ⟨hcountPos, hcount, _, _⟩ := fragmentCount_bounds hsize
  have hencode := encode_fragments messageId hsize
  rw [← first_payload_fits_iff hpos hmax]
  simp only [← payloads_fit_iff messageId hsize]
  constructor
  · rintro ⟨fragments, payloads, hfragments, hpayloads, haccepted, _⟩
    obtain rfl := Except.ok.inj ((fragmentMessage_eq messageId hsize).symm.trans hfragments)
    obtain rfl : payloadsOf messageId message = payloads :=
      List.right_unique_forall₂' (fun f p q hp hq => Except.ok.inj (hp.symm.trans hq)) hencode hpayloads
    have hbound := (maxPayloadForHops_eq hpos hmax).1
    refine ⟨_, hbound, fun payload hpayload => ?_⟩
    exact accepted_fits hA haccepted (by rw [hkeys, hbound]) (cellType, payload)
      (List.mem_map.mpr ⟨payload, hpayload, rfl⟩)
  · rintro ⟨bound, hbound, hfits⟩
    have haccepted := sealAll_accepts hA ((payloadsOf messageId message).map fun p => (cellType, p))
      sender (by rw [hkeys, hbound])
      (by rw [hstart, List.length_map, payloadsOf, List.length_map, List.length_range]
          exact Nat.lt_of_le_of_lt (Nat.add_le_add_left hcount _) (by decide))
      (by
        intro call hcall
        obtain ⟨payload, hpayload, rfl⟩ := List.mem_map.mp hcall
        exact hfits payload hpayload)
    refine ⟨_, _, fragmentMessage_eq messageId hsize, hencode, haccepted,
      (List.range (fragmentCount message)).map (fragmentAt messageId message), ?_, ?_⟩
    · rw [hkeys, hdirection, transit_sealed hA hnew hclock, haccepted, List.forall₂_map_left_iff]
      exact hencode.flip.imp fun payload f hf => Fragment.decode_encode hf
    · obtain ⟨k, hk⟩ : ∃ k, fragmentCount message = k + 1 := ⟨fragmentCount message - 1, by omega⟩
      rw [List.length_map, List.length_range, List.range_eq_range', hk, Nat.add_sub_cancel]
      exact pushAll_fragments hsize k 0 Reassembler.empty [] (by omega) (by simp)
        ⟨rfl, fun _ => by decide, List.nodup_nil, fun i hi => absurd hi (by simp)⟩

/-- A message id. -/
def sampleId : Octets 16 := ⟨List.replicate 16 5, rfl⟩

/-- A short message over two hops. -/
theorem short_message_crosses :
    Crosses transparent twoHops .data (fun _ _ => 50) sampleId [1, 2, 3] := by
  have hnew : CircuitSender.new [sampleKeys 0, sampleKeys 1] .forward = .ok twoHops := rfl
  have hclock : ∀ k ∈ [sampleKeys 0, sampleKeys 1], ∀ _ _ : ℕ, (50 : UInt64) < k.expiresAt := by
    intro k hk _ _
    rcases List.mem_cons.mp hk with rfl | hk
    · decide
    · rw [List.mem_singleton.mp hk]
      decide
  exact (message_crosses_iff transparent_correct hnew .data hclock sampleId (by decide)).mpr
    (Or.inr ⟨886, by decide, by decide⟩)

/-- A message of 859 bytes over two hops: its only fragment encodes to 887 bytes, one more than the
circuit takes. -/
theorem full_fragment_refused :
    (∃ f payload, fragmentMessage sampleId (List.replicate 859 0) = .ok [f] ∧
      f.encode = .ok payload ∧ payload.length = 887 ∧
      (twoHops.seal transparent .data payload).2 = .error .payloadTooLarge) ∧
    ¬ Crosses transparent twoHops .data (fun _ _ => 50) sampleId (List.replicate 859 0) := by
  have hfragments : fragmentMessage sampleId (List.replicate 859 0) =
      .ok [fragmentAt sampleId (List.replicate 859 0) 0] := by
    decide +kernel
  have hencode : (fragmentAt sampleId (List.replicate 859 0) 0).encode =
      .ok (fragmentAt sampleId (List.replicate 859 0) 0).fields.flatten := by
    decide +kernel
  have hrefused : (twoHops.seal transparent .data
      (fragmentAt sampleId (List.replicate 859 0) 0).fields.flatten).2 = .error .payloadTooLarge := by
    decide +kernel
  refine ⟨⟨_, _, hfragments, hencode, by decide +kernel, hrefused⟩, ?_⟩
  rintro ⟨fragments, payloads, hfragments', hpayloads, haccepted, _⟩
  obtain rfl := Except.ok.inj (hfragments.symm.trans hfragments')
  cases hpayloads with
  | cons hpayload hrest =>
    cases hrest
    obtain rfl := Except.ok.inj (hencode.symm.trans hpayload)
    rw [List.map_singleton, CircuitSender.sealAll] at haccepted
    rcases hseal : twoHops.seal transparent .data
        (fragmentAt sampleId (List.replicate 859 0) 0).fields.flatten with ⟨s', err | cell⟩
    · rw [hseal] at haccepted
      exact List.cons_ne_nil _ _ haccepted.symm
    · rw [hseal] at hrefused
      cases hrefused

end Peerless.Onion
