import Peerless.Onion.Circuit

/-!
# Round trips through a circuit

Cells are sealed by one sender and delivered in order, hop by hop.

* `layered_round_trip` — a call succeeds exactly when `max_payload_for_hops` admits its
  payload; every intermediate hop forwards, the last one hands out type and payload.
-/

namespace Peerless.Onion

open Text Wire

variable (A : Aead)

/-- Calls of one sender, and the successful ones with the cells they returned. -/
def CircuitSender.sealAll (s : CircuitSender) :
    List (CellType × Bytes) → CircuitSender × List (Sealing × WireCell)
  | [] => (s, [])
  | (cellType, payload) :: calls =>
    match s.seal A cellType payload with
    | (s', .error _) => s'.sealAll calls
    | (s', .ok cell) =>
      let rest := s'.sealAll calls
      (rest.1, (⟨s.nextSequence, cellType, payload⟩, cell) :: rest.2)

/-- Cells that reach one hop, each with the time it is opened at. -/
def HopReceiver.openAll (r : HopReceiver) :
    List (WireCell × UInt64) → HopReceiver × List (Except OnionError OpenedLayer)
  | [] => (r, [])
  | (cell, now) :: cells =>
    let opened := r.open A cell now
    let rest := opened.1.openAll cells
    (rest.1, opened.2 :: rest.2)

/-- The cells of a log on the link to the first of the given hops. -/
def onLink (d : Direction) (keys : List HopKeys) (log : List Sealing) : List WireCell :=
  log.filterMap fun x => (linkCell A d x keys).toOption

/-- What is left of an onion behind its first hop. -/
def behind (d : Direction) (x : Sealing) : List HopKeys → Except OnionError OpenedLayer
  | [] => .ok (.terminal x.cellType x.payload)
  | k :: ks => (linkCell A d x (k :: ks)).map .forward

variable {A}

variable {d : Direction} {x : Sealing}

theorem onLink_cons {keys : List HopKeys} {cell : WireCell} (h : linkCell A d x keys = .ok cell)
    (log : List Sealing) : onLink A d keys (x :: log) = cell :: onLink A d keys log := by
  rw [onLink, List.filterMap_cons, h]
  rfl

/-! ### One cell -/

variable {k : HopKeys} {ks : List HopKeys}

theorem open_linkCell (hA : A.Correct) {cell : WireCell} (hcell : linkCell A d x (k :: ks) = .ok cell)
    {w : ReplayWindow} (hcheck : w.check x.sequence = .ok ()) {now : UInt64} (hnow : now < k.expiresAt) :
    openLayer A k w cell d now = (w.commit x.sequence, behind A d x ks) := by
  obtain ⟨compact, honion, hcompact⟩ := linkCell_ok hcell
  cases ks with
  | nil =>
    refine openLayer_sealed hA honion hcompact hcheck hnow ?_
    rw [readLayer_layerPlaintext (sealCompact_ok honion).1, if_neg x.cellType.toByte_ne_zero,
      CellType.ofByte_toByte]
  | cons k' ks =>
    obtain ⟨inner, hinner, hseal⟩ := onion_cons_cons_ok honion
    obtain ⟨next, hnext⟩ := linkCell_of_onion hA hinner
    have hfrom : WireCell.fromCompact inner = .ok next := by
      rw [linkCell, hinner] at hnext
      exact hnext
    rw [behind, hnext]
    refine openLayer_sealed hA hseal hcompact hcheck hnow ?_
    rw [readLayer_layerPlaintext (sealCompact_ok hseal).1, if_pos rfl, hfrom]

/-- What was sealed for all hops was sealed for the later ones. -/
theorem linkCell_drop (hA : A.Correct) :
    ∀ {keys : List HopKeys} {j : ℕ}, j < keys.length → (∃ cell, linkCell A d x keys = .ok cell) →
      ∃ cell, linkCell A d x (keys.drop j) = .ok cell := by
  intro keys
  induction keys with
  | nil => intro j hj; cases hj
  | cons k keys ih =>
    intro j hj ⟨cell, hcell⟩
    cases j with
    | zero => exact ⟨cell, hcell⟩
    | succ j =>
      cases keys with
      | nil => exact absurd hj (by simp)
      | cons k' ks =>
        obtain ⟨compact, honion, _⟩ := linkCell_ok hcell
        obtain ⟨inner, hinner, _⟩ := onion_cons_cons_ok honion
        exact ih (Nat.lt_of_succ_lt_succ hj) (linkCell_of_onion hA hinner)

theorem WireCell.fromBytes_bytes (cell : WireCell) :
    cell.octets.bytes.length = cellSize ∧ WireCell.fromBytes cell.octets.bytes = .ok cell := by
  obtain ⟨header, hparse⟩ := cell.parses
  obtain ⟨read, hread, heq⟩ := WireCell.ofOctets_of_parse hparse
  refine ⟨cell.octets.size, ?_⟩
  rw [WireCell.fromBytes, dif_pos cell.octets.size]
  show WireCell.ofOctets cell.octets = .ok cell
  rw [hread]
  exact congrArg Except.ok (WireCell.ext_bytes (congrArg Octets.bytes heq))

/-! ### The calls of a sender -/

/-- Sealings whose numbers count up from `n`. -/
def Consecutive : ℕ → List Sealing → Prop
  | _, [] => True
  | n, x :: xs => x.sequence.toNat = n ∧ Consecutive (n + 1) xs

/-- **The calls of a sender.**  Its keys stay; successful calls count up and send their onions. -/
theorem sealAll_spec : ∀ (calls : List (CellType × Bytes)) (s : CircuitSender),
    (s.sealAll A calls).1.traversalKeys = s.traversalKeys ∧
    (s.sealAll A calls).1.direction = s.direction ∧
    Consecutive s.nextSequence.toNat ((s.sealAll A calls).2.map Prod.fst) ∧
    ∀ x ∈ (s.sealAll A calls).2, linkCell A s.direction x.1 s.traversalKeys = .ok x.2 := by
  intro calls
  induction calls with
  | nil => intro s; exact ⟨rfl, rfl, trivial, fun x hx => absurd hx (by simp [CircuitSender.sealAll])⟩
  | cons call calls ih =>
    intro s
    obtain ⟨t, payload⟩ := call
    rw [CircuitSender.sealAll]
    rcases hseal : s.seal A t payload with ⟨s', err | cell⟩
    · obtain rfl := CircuitSender.seal_error hseal
      exact ih s'
    · obtain ⟨hcell, hnext, rfl⟩ := CircuitSender.seal_ok_iff.mp hseal
      obtain ⟨hkeys, hdirection, hcount, hcells⟩ := ih s.advanced
      have hsucc : s.advanced.nextSequence.toNat = s.nextSequence.toNat + 1 := by
        show (s.nextSequence + 1).toNat = _
        rw [UInt64.toNat_add]
        exact Nat.mod_eq_of_lt hnext
      rw [hsucc] at hcount
      refine ⟨hkeys, hdirection, ⟨rfl, hcount⟩, ?_⟩
      intro x hx
      rcases List.mem_cons.mp hx with rfl | hx
      · exact hcell
      · exact hcells x hx

/-! ### Cells in order -/

theorem openAll_onLink (hA : A.Correct) :
    ∀ (log : List Sealing) (n : ℕ) (r : HopReceiver) (times : List UInt64),
      r.keys = k → r.expectedDirection = d → r.replay.Awaits n → Consecutive n log →
      (∀ x ∈ log, ∃ cell, linkCell A d x (k :: ks) = .ok cell) →
      times.length = log.length → (∀ now ∈ times, now < k.expiresAt) →
      (r.openAll A ((onLink A d (k :: ks) log).zip times)).2 = log.map fun x => behind A d x ks := by
  intro log
  induction log with
  | nil => intro n r times _ _ _ _ _ _ _; rfl
  | cons x log ih =>
    intro n r times hkeys hdirection hwindow hlog hcells htimes hbefore
    cases times with
    | nil => cases htimes
    | cons now times =>
      obtain ⟨cell, hcell⟩ := hcells x (List.mem_cons_self ..)
      obtain ⟨rfl, hrest⟩ := hlog
      have hopen := open_linkCell hA hcell hwindow.check (hbefore now (List.mem_cons_self ..))
      have hresult : r.open A cell now =
          ({ r with replay := r.replay.commit x.sequence }, behind A d x ks) := by
        rw [HopReceiver.open, hkeys, hdirection, hopen]
      rw [onLink_cons hcell, List.zip_cons_cons, HopReceiver.openAll, hresult, List.map_cons]
      refine congrArg (_ :: ·) ?_
      exact ih _ _ times hkeys hdirection hwindow.commit hrest
        (fun y hy => hcells y (List.mem_cons_of_mem _ hy)) (Nat.succ.inj htimes)
        (fun t ht => hbefore t (List.mem_cons_of_mem _ ht))

theorem onLink_length {keys : List HopKeys} {log : List Sealing}
    (h : ∀ x ∈ log, ∃ cell, linkCell A d x keys = .ok cell) :
    (onLink A d keys log).length = log.length := by
  rw [onLink, List.length_filterMap_eq_countP, List.countP_eq_length]
  intro x hx
  obtain ⟨cell, hcell⟩ := h x hx
  rw [hcell]
  rfl

/-- A fresh hop opens a log that counts up from zero. -/
theorem openAll_new (hA : A.Correct) {log : List Sealing} (hlog : Consecutive 0 log)
    (hcells : ∀ x ∈ log, ∃ cell, linkCell A d x (k :: ks) = .ok cell) {times : List UInt64}
    (htimes : times.length = (onLink A d (k :: ks) log).length)
    (hbefore : ∀ now ∈ times, now < k.expiresAt) :
    ((HopReceiver.new k d).openAll A ((onLink A d (k :: ks) log).zip times)).2 =
      log.map fun x => behind A d x ks :=
  openAll_onLink hA log 0 (HopReceiver.new k d) times rfl rfl ReplayWindow.awaits_empty hlog hcells
    (htimes.trans (onLink_length hcells)) hbefore

/-- The cells of a log are those its calls returned. -/
theorem onLink_log {keys : List HopKeys} :
    ∀ (log : List (Sealing × WireCell)), (∀ x ∈ log, linkCell A d x.1 keys = .ok x.2) →
      onLink A d keys (log.map Prod.fst) = log.map Prod.snd := by
  intro log
  induction log with
  | nil => intro _; rfl
  | cons x log ih =>
    intro h
    rw [List.map_cons, List.map_cons, ← ih fun y hy => h y (List.mem_cons_of_mem _ hy),
      onLink_cons (h x (List.mem_cons_self ..))]

/-- What an intermediate hop leaves is what the next link carries. -/
theorem behind_onLink :
    ∀ (log : List Sealing), (∀ x ∈ log, ∃ cell, linkCell A d x (k :: ks) = .ok cell) →
      log.map (fun x => behind A d x (k :: ks)) =
        (onLink A d (k :: ks) log).map fun cell => .ok (.forward cell) := by
  intro log
  induction log with
  | nil => intro _; rfl
  | cons x log ih =>
    intro h
    obtain ⟨cell, hcell⟩ := h x (List.mem_cons_self ..)
    rw [List.map_cons, ih fun y hy => h y (List.mem_cons_of_mem _ hy), onLink_cons hcell,
      List.map_cons, behind, hcell]
    rfl

/-! ### The round trip -/

theorem CircuitSender.new_ok {keys : List HopKeys} {s : CircuitSender}
    (h : CircuitSender.new keys d = .ok s) :
    s.traversalKeys = keys ∧ s.direction = d ∧ s.nextSequence = 0 := by
  unfold CircuitSender.new at h
  split at h
  · cases h
  dsimp only at h
  split at h
  · cases h
  rw [← Except.ok.inj h]
  exact ⟨rfl, rfl, rfl⟩

/-- The bound of one call, in any state of a sender. -/
theorem CircuitSender.seal_succeeds_iff (hA : A.Correct) (s : CircuitSender)
    (hcounter : s.nextSequence.toNat < UInt64.size - 1) (t : CellType) (payload : Bytes) :
    (∃ cell, (s.seal A t payload).2 = .ok cell) ↔
      ∃ bound, maxPayloadForHops s.traversalKeys.length = .ok bound ∧ payload.length ≤ bound := by
  rw [← onion_ok_iff hA (d := s.direction) (x := ⟨s.nextSequence, t, payload⟩) s.nonempty s.hops]
  constructor
  · intro ⟨cell, hcell⟩
    obtain ⟨hlink, _⟩ := CircuitSender.seal_ok_iff.mp (Prod.ext rfl hcell)
    obtain ⟨compact, honion, _⟩ := linkCell_ok hlink
    exact ⟨compact, honion⟩
  · intro ⟨compact, honion⟩
    obtain ⟨cell, hcell⟩ := linkCell_of_onion hA honion
    exact ⟨cell, congrArg Prod.snd (CircuitSender.seal_ok_iff.mpr ⟨hcell, by omega, rfl⟩)⟩

/-! ### The round trip of a circuit

The sample cipher leaves the text as it is; the sample keys of a circuit differ in their first byte. -/

/-- A cipher that hides nothing and has a constant tag. -/
def transparent : Aead where
  encrypt _ _ _ plaintext := some (plaintext, ⟨List.replicate 16 0, rfl⟩)
  decrypt _ _ _ ciphertext _ := some ciphertext

theorem transparent_correct : transparent.Correct where
  encrypts _ _ _ p _ := ⟨p, _, rfl⟩
  length h := by
    simp only [transparent, Option.some.injEq, Prod.mk.injEq] at h
    rw [h.1]
  decrypts h := by
    simp only [transparent, Option.some.injEq, Prod.mk.injEq] at h ⊢
    exact h.1.symm

/-- The keys of a hop in a circuit that expires at 100. -/
def sampleKeys (hop : UInt8) : HopKeys where
  circuitId := ⟨List.replicate 16 9, rfl⟩
  hop
  epoch := 1
  expiresAt := 100
  forwardKey := ⟨hop :: List.replicate 31 0, rfl⟩
  reverseKey := ⟨hop :: List.replicate 31 1, rfl⟩
  forwardNoncePrefix := ⟨List.replicate 4 0, rfl⟩
  reverseNoncePrefix := ⟨List.replicate 4 1, rfl⟩

/-- A fresh sender of a circuit of two hops. -/
def twoHops : CircuitSender where
  traversalKeys := [sampleKeys 0, sampleKeys 1]
  direction := .forward
  nextSequence := 0
  nonempty := List.cons_ne_nil _ _
  hops := by decide
  scope := by decide

/-- **The round trip.**  After any calls of a sender, the next call succeeds exactly when the payload
is within the bound of its number of hops.  The cells of the successful calls, delivered in order and
before expiry, are well formed on every link; every intermediate hop forwards the cells of the next
link, and the last hop returns the types and payloads of the calls. -/
theorem layered_round_trip (hA : A.Correct) {keys : List HopKeys} {d : Direction}
    {sender : CircuitSender} (hnew : CircuitSender.new keys d = .ok sender)
    (calls : List (CellType × Bytes)) :
    ((sender.sealAll A calls).1.nextSequence.toNat < UInt64.size - 1 → ∀ t payload,
      (∃ cell, ((sender.sealAll A calls).1.seal A t payload).2 = .ok cell) ↔
        ∃ bound, maxPayloadForHops keys.length = .ok bound ∧ payload.length ≤ bound) ∧
    ∃ links : ℕ → List WireCell, links 0 = (sender.sealAll A calls).2.map Prod.snd ∧
      ∀ j k, keys[j]? = some k →
        (∀ cell ∈ links j, cell.octets.bytes.length = cellSize ∧
          WireCell.fromBytes cell.octets.bytes = .ok cell) ∧
        ∀ times : List UInt64, times.length = (links j).length → (∀ now ∈ times, now < k.expiresAt) →
          ((HopReceiver.new k d).openAll A ((links j).zip times)).2 =
            if j + 1 < keys.length then (links (j + 1)).map fun cell => .ok (.forward cell)
            else (sender.sealAll A calls).2.map fun x => .ok (.terminal x.1.cellType x.1.payload) := by
  obtain ⟨hkeys, hdirection, hstart⟩ := CircuitSender.new_ok hnew
  obtain ⟨hkeys', _, hcount, hcells⟩ := sealAll_spec (A := A) calls sender
  rw [hstart] at hcount
  rw [hkeys, hdirection] at hcells
  refine ⟨fun hcounter t payload => ?_, ?_⟩
  · rw [CircuitSender.seal_succeeds_iff hA _ hcounter, hkeys', hkeys]
  -- the log of the calls, and its cells on each link
  set log := (sender.sealAll A calls).2.map Prod.fst with hlog
  have hsealed : ∀ j, j < keys.length → ∀ x ∈ log,
      ∃ cell, linkCell A d x (keys.drop j) = .ok cell := by
    intro j hj x hx
    obtain ⟨y, hy, rfl⟩ := List.mem_map.mp hx
    exact linkCell_drop hA hj ⟨y.2, hcells y hy⟩
  refine ⟨fun j => onLink A d (keys.drop j) log, onLink_log _ hcells, ?_⟩
  intro j k hk
  obtain ⟨hj, rfl⟩ := List.getElem?_eq_some_iff.mp hk
  refine ⟨fun cell _ => cell.fromBytes_bytes, ?_⟩
  intro times htimes hbefore
  have hdrop : keys.drop j = keys[j] :: keys.drop (j + 1) := List.drop_eq_getElem_cons hj
  have hopen := openAll_new hA hcount (hdrop ▸ hsealed j hj) (by rw [htimes, ← hdrop]) hbefore
  show (HopReceiver.openAll A _ ((onLink A d (keys.drop j) log).zip times)).2 = _
  rw [hdrop, hopen]
  split
  · rename_i hnext
    have hdrop' : keys.drop (j + 1) = keys[j + 1] :: keys.drop (j + 2) := List.drop_eq_getElem_cons hnext
    show _ = List.map _ (onLink A d (keys.drop (j + 1)) log)
    rw [hdrop']
    exact behind_onLink log (hdrop' ▸ hsealed (j + 1) hnext)
  · rename_i hlast
    rw [List.drop_eq_nil_of_le (by omega), hlog, List.map_map]
    rfl

/-- Over two hops: of a short and an overlong payload the short one is sent, forwarded by the first hop
and handed out by the second. -/
theorem two_hops_round_trip :
    CircuitSender.new [sampleKeys 0, sampleKeys 1] .forward = .ok twoHops ∧
    ∃ links : ℕ → List WireCell,
      ((HopReceiver.new (sampleKeys 0) .forward).openAll transparent
        ((links 0).zip (List.replicate (links 0).length 99))).2 =
          (links 1).map (fun cell => .ok (.forward cell)) ∧
      ((HopReceiver.new (sampleKeys 1) .forward).openAll transparent
        ((links 1).zip (List.replicate (links 1).length 99))).2 = [.ok (.terminal .data [7])] := by
  have hnew : CircuitSender.new [sampleKeys 0, sampleKeys 1] .forward = .ok twoHops := rfl
  have hsent : (twoHops.sealAll transparent [(.data, [7]), (.data, List.replicate 887 0)]).2.map
      Prod.fst = [⟨0, .data, [7]⟩] := by
    decide +kernel
  obtain ⟨_, links, _, hhops⟩ := layered_round_trip transparent_correct hnew
    [(.data, [7]), (.data, List.replicate 887 0)]
  have hbefore : ∀ n, ∀ now ∈ List.replicate n (99 : UInt64), now < 100 := by
    intro n now hnow
    rw [List.eq_of_mem_replicate hnow]
    decide
  refine ⟨hnew, links, ?_, ?_⟩
  · exact (hhops 0 (sampleKeys 0) rfl).2 _ List.length_replicate (hbefore _)
  · rw [(hhops 1 (sampleKeys 1) rfl).2 _ List.length_replicate (hbefore _), if_neg (by simp)]
    have hmap := congrArg (List.map fun x : Sealing =>
      (.ok (.terminal x.cellType x.payload) : Except OnionError OpenedLayer)) hsent
    rw [List.map_map] at hmap
    exact hmap

end Peerless.Onion
