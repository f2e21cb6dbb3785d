import Peerless.Lib.Runs
import Peerless.Onion.RoundTrip
import Mathlib.Data.List.Nodup

/-!
# Delivery over a hostile network

One sender, one receiver per hop, and a network that hands any cell to any hop at any time: cells it
kept, repeated, changed or made up.  The cipher is ideal in the sense of ciphertext integrity: what a
hop decrypts was produced, under the same key, nonce and associated data, for a cell that left the
sender (`Ideal`).

* `delivered_at_most_once` — **PROVED**: over every schedule, the payloads handed out belong to distinct
  calls, unmodified, and so do the cells each intermediate hop forwards.
-/

namespace Peerless.Onion

open Text Wire

/-! ### What the sender encrypts -/

/-- One use of the cipher. -/
structure Encryption where
  key : Octets 32
  nonce : Octets 12
  aad : Bytes
  plaintext : Bytes
  ciphertext : Bytes
  tag : Octets 16

variable (A : Aead)

/-- What the layer in front of the given hops wraps: the typed payload, or the onion for them. -/
def layerData (d : Direction) (x : Sealing) : List HopKeys → Except OnionError (UInt8 × Bytes)
  | [] => .ok (x.cellType.toByte, x.payload)
  | k :: ks => (onion A d x (k :: ks)).map fun inner => (0, inner)

/-- The encryption `seal_compact` makes, if the data fits. -/
def encryptionOf (k : HopKeys) (d : Direction) (sequence : UInt64) (layerType : UInt8) (data : Bytes) :
    Option Encryption :=
  if data.length > maxLayerData then none
  else
    (A.encrypt (k.key d) (k.nonce d sequence) (layerAad k d sequence data)
      (layerPlaintext layerType data)).map fun made =>
        ⟨k.key d, k.nonce d sequence, layerAad k d sequence data, layerPlaintext layerType data,
          made.1, made.2⟩

/-- The encryptions of a call, one for each hop. -/
def encryptions (d : Direction) (x : Sealing) : List HopKeys → List Encryption
  | [] => []
  | k :: ks =>
    match layerData A d x ks with
    | .error _ => encryptions d x ks
    | .ok layer => (encryptionOf A k d x.sequence layer.1 layer.2).toList ++ encryptions d x ks

/-! ### The network -/

/-- A hop and what it has opened so far. -/
structure Hop where
  receiver : HopReceiver
  opened : List (WireCell × OpenedLayer)

/-- The payloads a hop handed out. -/
def Hop.terminals (h : Hop) : List (CellType × Bytes) :=
  h.opened.filterMap fun entry =>
    match entry.2 with
    | .forward _ => none
    | .terminal cellType payload => some (cellType, payload)

/-- The cells a hop forwarded. -/
def Hop.forwards (h : Hop) : List WireCell :=
  h.opened.filterMap fun entry =>
    match entry.2 with
    | .forward cell => some cell
    | .terminal _ _ => none

/-- The sender, the calls that succeeded, and the hops. -/
structure Network where
  sender : CircuitSender
  sealed : List Sealing
  hops : List Hop

/-- A fresh receiver for every hop of the sender. -/
def Network.start (sender : CircuitSender) : Network where
  sender
  sealed := []
  hops := sender.traversalKeys.map fun k => ⟨.new k sender.direction, []⟩

/-- A call of the sender, or any cell delivered to any hop. -/
inductive Act where
  | sealCell (cellType : CellType) (payload : Bytes)
  | deliver (hop : ℕ) (cell : WireCell) (now : UInt64)

def Network.step (n : Network) : Act → Option Network
  | .sealCell cellType payload =>
    match n.sender.seal A cellType payload with
    | (sender, .error _) => some { n with sender }
    | (sender, .ok _) => some
      { n with sender, sealed := n.sealed ++ [⟨n.sender.nextSequence, cellType, payload⟩] }
  | .deliver j cell now =>
    match n.hops[j]? with
    | none => none
    | some hop =>
      match hop.receiver.open A cell now with
      | (receiver, .error _) => some { n with hops := n.hops.set j ⟨receiver, hop.opened⟩ }
      | (receiver, .ok layer) => some
        { n with hops := n.hops.set j ⟨receiver, hop.opened ++ [(cell, layer)]⟩ }

/-- The cell carries what an encryption for a cell that left the sender produced, under the key and
nonce the hop would use. -/
def Produced (n : Network) (cell : WireCell) (k : HopKeys) (header : CellHeader) : Prop :=
  ∃ x ∈ n.sealed, ∃ e ∈ encryptions A n.sender.direction x n.sender.traversalKeys,
    e.key = k.key header.direction ∧ e.nonce = k.nonce header.direction header.sequence ∧
    e.aad = cell.aad header.ciphertextLen ∧ e.ciphertext = cell.ciphertext header.ciphertextLen ∧
    e.tag.bytes = cell.tag header.ciphertextLen

/-- **Ciphertext integrity.**  What the hop decrypts was encrypted under the same key, nonce and
associated data for a cell that left the sender.  (A failed call returns no cell, so the network has
no ciphertext of it.) -/
def Ideal (n : Network) : Act → Prop
  | .sealCell _ _ => True
  | .deliver j cell _ => ∀ hop ∈ n.hops[j]?, ∀ header ∈ (parseCellHeader cell.octets).toOption,
      (cell.decrypt A hop.receiver.keys header).isSome = true →
        Produced A n cell hop.receiver.keys header

instance (n : Network) (cell : WireCell) (k : HopKeys) (header : CellHeader) :
    Decidable (Produced A n cell k header) :=
  inferInstanceAs (Decidable (∃ x ∈ n.sealed, _))

instance (n : Network) (a : Act) : Decidable (Ideal A n a) :=
  match a with
  | .sealCell _ _ => isTrue trivial
  | .deliver j _ _ => inferInstanceAs (Decidable (∀ hop ∈ n.hops[j]?, _))

variable {A}

/-! ### What an ideal cipher lets a hop open -/

/-- Hops `j` and `m` hold the same key, as one and the same hop does. -/
def SameKey (keys : List HopKeys) (d : Direction) (j m : ℕ) : Prop :=
  ∃ k k', keys[j]? = some k ∧ keys[m]? = some k' ∧ k'.key d = k.key d

variable {d : Direction} {j : ℕ}

theorem SameKey.eq_of_nodup {keys : List HopKeys} {m : ℕ} (h : SameKey keys d j m)
    (hnodup : (keys.map fun k => k.key d).Nodup) : m = j := by
  obtain ⟨k, k', hj, hm, hkey⟩ := h
  obtain ⟨hlt, rfl⟩ := List.getElem?_eq_some_iff.mp hm
  obtain ⟨hlt', rfl⟩ := List.getElem?_eq_some_iff.mp hj
  refine (List.getElem?_inj (l := keys.map fun k => k.key d) (by simpa using hlt) hnodup).mp ?_
  rw [List.getElem?_map, List.getElem?_map, hm, hj, Option.map_some, Option.map_some, hkey]

variable {x : Sealing}

theorem onion_cons (k : HopKeys) (ks : List HopKeys) :
    onion A d x (k :: ks) = (layerData A d x ks).bind fun layer =>
      sealCompact A k d x.sequence layer.1 layer.2 := by
  cases ks with
  | nil => rfl
  | cons k' ks =>
    rw [onion, layerData]
    cases onion A d x (k' :: ks) <;> rfl

theorem encryptionOf_eq_some {k : HopKeys} {q : UInt64} {layerType : UInt8} {data : Bytes}
    {e : Encryption} (h : encryptionOf A k d q layerType data = some e) :
    data.length ≤ maxLayerData ∧ e.key = k.key d ∧ e.nonce = k.nonce d q ∧ e.aad = layerAad k d q data ∧
      A.encrypt (k.key d) (k.nonce d q) (layerAad k d q data) (layerPlaintext layerType data) =
        some (e.ciphertext, e.tag) := by
  unfold encryptionOf at h
  split at h
  · cases h
  rename_i hsize
  obtain ⟨made, hmade, rfl⟩ := Option.map_eq_some_iff.mp h
  exact ⟨not_lt.mp hsize, rfl, rfl, rfl, hmade⟩

/-- An encryption of a call belongs to the layer of one hop. -/
theorem mem_encryptions {e : Encryption} :
    ∀ {keys : List HopKeys}, e ∈ encryptions A d x keys → ∃ m k layerType data,
      keys[m]? = some k ∧ layerData A d x (keys.drop (m + 1)) = .ok (layerType, data) ∧
      encryptionOf A k d x.sequence layerType data = some e := by
  intro keys
  induction keys with
  | nil => intro h; exact absurd h (by simp [encryptions])
  | cons k ks ih =>
    intro h
    have hlater : e ∈ encryptions A d x ks → ∃ m k' layerType data,
        (k :: ks)[m]? = some k' ∧ layerData A d x ((k :: ks).drop (m + 1)) = .ok (layerType, data) ∧
        encryptionOf A k' d x.sequence layerType data = some e := by
      intro hmem
      obtain ⟨m, k', layerType, data, hk', hdata, he⟩ := ih hmem
      exact ⟨m + 1, k', layerType, data, hk', hdata, he⟩
    rw [encryptions] at h
    split at h
    · exact hlater h
    · rename_i layer hlayer
      rcases List.mem_append.mp h with hmem | hmem
      · exact ⟨0, k, layer.1, layer.2, rfl, hlayer, Option.mem_toList.mp hmem⟩
      · exact hlater hmem

/-- What a hop reads in a layer of a call is what the call put behind it. -/
theorem behind_of_read {ks : List HopKeys} {layerType : UInt8} {data : Bytes}
    (hlayer : layerData A d x ks = .ok (layerType, data)) (hsize : data.length ≤ maxLayerData)
    {layer : OpenedLayer} (hread : readLayer (layerPlaintext layerType data) = .ok layer) :
    behind A d x ks = .ok layer := by
  rw [readLayer_layerPlaintext hsize] at hread
  cases ks with
  | nil =>
    simp only [layerData, Except.ok.injEq, Prod.mk.injEq] at hlayer
    obtain ⟨rfl, rfl⟩ := hlayer
    rw [if_neg x.cellType.toByte_ne_zero, CellType.ofByte_toByte] at hread
    exact hread
  | cons k ks =>
    rw [layerData] at hlayer
    cases honion : onion A d x (k :: ks) with
    | error err =>
      rw [honion] at hlayer
      exact absurd hlayer (by simp [Except.map])
    | ok inner =>
      rw [honion] at hlayer
      simp only [Except.map, Except.ok.injEq, Prod.mk.injEq] at hlayer
      obtain ⟨rfl, rfl⟩ := hlayer
      rw [if_pos rfl] at hread
      rw [behind, linkCell, honion]
      show Except.map OpenedLayer.forward (WireCell.fromCompact inner) = .ok layer
      cases hfrom : WireCell.fromCompact inner with
      | error err =>
        rw [hfrom] at hread
        cases hread
      | ok cell =>
        rw [hfrom] at hread
        exact hread

/-- The hop opened this cell of the call: the cell is the layer of a hop `m` that holds the same key,
and the hop got what lies behind that layer. -/
def OpenedFrom (A : Aead) (d : Direction) (keys : List HopKeys) (j : ℕ) (x : Sealing)
    (entry : WireCell × OpenedLayer) : Prop :=
  ∃ m, SameKey keys d j m ∧ linkCell A d x (keys.drop m) = .ok entry.1 ∧
    behind A d x (keys.drop (m + 1)) = .ok entry.2

variable {n : Network} {hop : Hop}

theorem opened_of_ideal (hA : A.Correct) {k : HopKeys} {w w' : ReplayWindow} {cell : WireCell}
    {now : UInt64} {layer : OpenedLayer} (hideal : Ideal A n (.deliver j cell now))
    (hhop : n.hops[j]? = some hop) (hkeys : hop.receiver.keys = k)
    (hkey : n.sender.traversalKeys[j]? = some k) (hdirection : n.sender.direction = d)
    (hopen : openLayer A k w cell d now = (w', .ok layer)) :
    ∃ x ∈ n.sealed, w.check x.sequence = .ok () ∧ w' = w.commit x.sequence ∧
      OpenedFrom A d n.sender.traversalKeys j x (cell, layer) := by
  obtain ⟨q, len, plaintext, hparse, _, hcheck, hdecrypt, hread, rfl⟩ := openLayer_ok_iff.mp hopen
  obtain ⟨x, hx, e, he, hekey, henonce, heaad, hec, het⟩ := hideal hop hhop _
    (by rw [hparse]; rfl) (by rw [hkeys, hdecrypt]; rfl)
  rw [hkeys] at hekey henonce
  rw [hdirection] at he
  obtain ⟨m, k', layerType, data, hm, hlayer, henc⟩ := mem_encryptions he
  obtain ⟨hsize, hkey', hnonce', haad', hmade⟩ := encryptionOf_eq_some henc
  -- the nonce names the call
  obtain rfl : x.sequence = q := HopKeys.sequence_of_nonce (hnonce'.symm.trans henonce)
  have hplain : plaintext = layerPlaintext layerType data := by
    have hopened := hA.decrypts hmade
    rw [← hkey', ← hnonce', ← haad', hekey, henonce, heaad, hec, het] at hopened
    exact Option.some.inj (hdecrypt.symm.trans hopened)
  rw [hplain] at hread
  -- the cell is the layer of hop m
  obtain ⟨hlt, rfl⟩ := List.getElem?_eq_some_iff.mp hm
  have honion : onion A d x (n.sender.traversalKeys.drop m) = .ok (layerHeader
      n.sender.traversalKeys[m] d x.sequence data ++ (e.ciphertext ++ e.tag.bytes)) := by
    rw [List.drop_eq_getElem_cons hlt, onion_cons, hlayer]
    show sealCompact A _ d x.sequence layerType data = _
    rw [sealCompact, if_neg (not_lt.mpr hsize), hmade]
  have hbytes := eq_of_sealed hA hmade hparse hec.symm het.symm (heaad.symm.trans haad')
  obtain ⟨made, hcell⟩ := linkCell_of_onion hA honion
  refine ⟨x, hx, hcheck, rfl, m, ⟨k, _, hkey, hm, hkey'.symm.trans hekey⟩, ?_,
    behind_of_read hlayer hsize hread⟩
  rw [hcell]
  obtain ⟨compact, hcompact, hfrom⟩ := linkCell_ok hcell
  obtain rfl := Except.ok.inj (honion.symm.trans hcompact)
  exact congrArg Except.ok (WireCell.ext_bytes ((fromCompact_bytes hfrom).trans hbytes.symm))

/-! ### Every schedule -/

/-- The calls behind what hop `j` opened: as many, in order, with different numbers that its window
remembers. -/
def Accounted (A : Aead) (d : Direction) (keys : List HopKeys) (sealed : List Sealing) (j : ℕ)
    (hop : Hop) : Prop :=
  ∃ xs : List Sealing, List.Forall₂ (OpenedFrom A d keys j) xs hop.opened ∧
    (∀ x ∈ xs, x ∈ sealed ∧ hop.receiver.replay.Seen x.sequence) ∧
    (xs.map Sealing.sequence).Nodup

structure DeliveryInv (A : Aead) (d : Direction) (keys : List HopKeys) (n : Network) : Prop where
  traversal : n.sender.traversalKeys = keys
  heading : n.sender.direction = d
  length : n.hops.length = keys.length
  receiver : ∀ (j : ℕ) hop, n.hops[j]? = some hop →
    keys[j]? = some hop.receiver.keys ∧ hop.receiver.expectedDirection = d
  accounted : ∀ (j : ℕ) hop, n.hops[j]? = some hop → Accounted A d keys n.sealed j hop

theorem inv_start {keys : List HopKeys} {sender : CircuitSender}
    (h : CircuitSender.new keys d = .ok sender) : DeliveryInv A d keys (.start sender) := by
  obtain ⟨rfl, rfl, _⟩ := CircuitSender.new_ok h
  have hhop : ∀ (j : ℕ) hop, (Network.start sender).hops[j]? = some hop → ∃ k,
      sender.traversalKeys[j]? = some k ∧ hop = ⟨.new k sender.direction, []⟩ := by
    intro j hop hj
    rw [Network.start, List.getElem?_map] at hj
    obtain ⟨k, hk, rfl⟩ := Option.map_eq_some_iff.mp hj
    exact ⟨k, hk, rfl⟩
  refine ⟨rfl, rfl, List.length_map _, ?_, ?_⟩
  · intro j hop hj
    obtain ⟨k, hk, rfl⟩ := hhop j hop hj
    exact ⟨hk, rfl⟩
  · intro j hop hj
    obtain ⟨k, hk, rfl⟩ := hhop j hop hj
    exact ⟨[], List.Forall₂.nil, fun x hx => absurd hx (by simp), List.nodup_nil⟩

variable {sealed : List Sealing}

theorem Accounted.mono {keys : List HopKeys} {more : List Sealing} (h : Accounted A d keys sealed j hop) :
    Accounted A d keys (sealed ++ more) j hop := by
  obtain ⟨xs, hopened, hxs, hnodup⟩ := h
  exact ⟨xs, hopened, fun x hx => ⟨List.mem_append_left _ (hxs x hx).1, (hxs x hx).2⟩, hnodup⟩

/-- A call whose number passes the check was not opened before. -/
theorem Accounted.open {keys : List HopKeys} (h : Accounted A d keys sealed j hop) (hx : x ∈ sealed)
    (hcheck : hop.receiver.replay.check x.sequence = .ok ()) {entry : WireCell × OpenedLayer}
    (hentry : OpenedFrom A d keys j x entry) {receiver : HopReceiver}
    (hreplay : receiver.replay = hop.receiver.replay.commit x.sequence) :
    Accounted A d keys sealed j ⟨receiver, hop.opened ++ [entry]⟩ := by
  obtain ⟨xs, hopened, hxs, hnodup⟩ := h
  refine ⟨xs ++ [x], List.rel_append hopened (List.Forall₂.cons hentry List.Forall₂.nil), ?_, ?_⟩
  · intro y hy
    rw [hreplay]
    rcases List.mem_append.mp hy with hy | hy
    · exact ⟨(hxs y hy).1, (hxs y hy).2.commit x.sequence⟩
    · rw [List.mem_singleton.mp hy]
      exact ⟨hx, hop.receiver.replay.seen_commit_self x.sequence⟩
  · rw [List.map_append, List.nodup_append]
    refine ⟨hnodup, List.nodup_singleton _, ?_⟩
    intro q hq q' hq' heq
    obtain ⟨y, hy, rfl⟩ := List.mem_map.mp hq
    obtain rfl := List.mem_singleton.mp hq'
    exact ReplayWindow.check_not_seen hcheck (heq ▸ (hxs y hy).2)

theorem DeliveryInv.set_hop {keys : List HopKeys} (hn : DeliveryInv A d keys n) {hop' : Hop}
    (hhop : n.hops[j]? = some hop) (hkeys : hop'.receiver.keys = hop.receiver.keys)
    (hdirection : hop'.receiver.expectedDirection = hop.receiver.expectedDirection)
    (haccounted : Accounted A d keys n.sealed j hop') :
    DeliveryInv A d keys { n with hops := n.hops.set j hop' } := by
  have hcases : ∀ (i : ℕ) h, (n.hops.set j hop')[i]? = some h →
      (i = j ∧ h = hop') ∨ n.hops[i]? = some h := by
    intro i h hi
    rw [List.getElem?_set] at hi
    split at hi
    · rename_i hji
      split at hi
      · exact Or.inl ⟨hji.symm, (Option.some.inj hi).symm⟩
      · cases hi
    · exact Or.inr hi
  refine ⟨hn.traversal, hn.heading, by rw [List.length_set]; exact hn.length, ?_, ?_⟩
  · intro i h hi
    rcases hcases i h hi with ⟨rfl, rfl⟩ | hold
    · rw [hkeys, hdirection]
      exact hn.receiver i hop hhop
    · exact hn.receiver i h hold
  · intro i h hi
    rcases hcases i h hi with ⟨rfl, rfl⟩ | hold
    · exact haccounted
    · exact hn.accounted i h hold

/-- **One step**, of the sender or of the network. -/
theorem inv_step (hA : A.Correct) {keys : List HopKeys} {n' : Network} {a : Act}
    (hn : DeliveryInv A d keys n) (hideal : Ideal A n a) (hstep : n.step A a = some n') :
    DeliveryInv A d keys n' := by
  cases a with
  | sealCell t payload =>
    rw [Network.step] at hstep
    rcases hseal : n.sender.seal A t payload with ⟨sender, err | cell⟩
    · rw [hseal] at hstep
      obtain rfl := CircuitSender.seal_error hseal
      rw [← Option.some.inj hstep]
      exact hn
    · rw [hseal] at hstep
      obtain ⟨_, _, rfl⟩ := CircuitSender.seal_ok_iff.mp hseal
      rw [← Option.some.inj hstep]
      exact ⟨hn.traversal, hn.heading, hn.length, hn.receiver,
        fun j hop hj => (hn.accounted j hop hj).mono⟩
  | deliver j cell now =>
    rw [Network.step] at hstep
    cases hhop : n.hops[j]? with
    | none => rw [hhop] at hstep; cases hstep
    | some hop =>
      rw [hhop] at hstep
      obtain ⟨hkey, hdirection⟩ := hn.receiver j hop hhop
      have haccounted := hn.accounted j hop hhop
      rcases hopen : openLayer A hop.receiver.keys hop.receiver.replay cell
          hop.receiver.expectedDirection now with ⟨w, err | layer⟩
      · have hw := openLayer_error hopen
        simp only [HopReceiver.open, hopen, Option.some.injEq] at hstep
        rw [← hstep]
        refine hn.set_hop hhop rfl rfl ?_
        rw [hw]
        exact haccounted
      · simp only [HopReceiver.open, hopen, Option.some.injEq] at hstep
        rw [← hstep]
        refine hn.set_hop hhop rfl rfl ?_
        rw [hdirection] at hopen
        obtain ⟨x, hx, hcheck, hw, hfrom⟩ := opened_of_ideal hA hideal hhop rfl
          (by rw [hn.traversal]; exact hkey) hn.heading hopen
        rw [hn.traversal] at hfrom
        exact haccounted.open hx hcheck hfrom hw

/-! ### The outputs of a hop -/

/-- The entries that `f` keeps come from a part of the calls. -/
theorem forall₂_filterMap {α β γ : Type*} {R : α → β → Prop} {S : α → γ → Prop} {f : β → Option γ}
    (hf : ∀ a b c, R a b → f b = some c → S a c) {l : List α} {l' : List β}
    (h : List.Forall₂ R l l') : ∃ xs, xs.Sublist l ∧ List.Forall₂ S xs (l'.filterMap f) := by
  induction h with
  | nil => exact ⟨[], List.Sublist.refl _, List.Forall₂.nil⟩
  | @cons a b l l' hab _ ih =>
    obtain ⟨xs, hsub, hall⟩ := ih
    cases hb : f b with
    | none =>
      refine ⟨xs, hsub.cons a, ?_⟩
      rw [List.filterMap_cons_none hb]
      exact hall
    | some c =>
      refine ⟨a :: xs, hsub.cons_cons a, ?_⟩
      rw [List.filterMap_cons_some hb]
      exact List.Forall₂.cons (hf a b c hab hb) hall

/-- **Whatever part of its outputs one looks at, a hop owes them to distinct calls.** -/
theorem Accounted.matched {keys : List HopKeys} (h : Accounted A d keys sealed j hop) {γ : Type*}
    {f : WireCell × OpenedLayer → Option γ} {S : Sealing → γ → Prop}
    (hf : ∀ x entry c, OpenedFrom A d keys j x entry → f entry = some c → S x c) :
    ∃ xs : List Sealing, xs.Subperm sealed ∧ List.Forall₂ S xs (hop.opened.filterMap f) := by
  obtain ⟨xs, hopened, hxs, hnodup⟩ := h
  obtain ⟨ys, hsub, hall⟩ := forall₂_filterMap hf hopened
  refine ⟨ys, hsub.subperm.trans ?_, hall⟩
  exact List.subperm_of_subset hnodup.of_map fun x hx => (hxs x hx).1

theorem behind_eq_terminal {t : CellType} {payload : Bytes} :
    ∀ {ks : List HopKeys}, behind A d x ks = .ok (.terminal t payload) →
      (x.cellType, x.payload) = (t, payload) := by
  intro ks h
  cases ks with
  | nil =>
    rw [behind] at h
    simp only [Except.ok.injEq, OpenedLayer.terminal.injEq] at h
    rw [h.1, h.2]
  | cons k ks =>
    rw [behind] at h
    cases hcell : linkCell A d x (k :: ks) with
    | error err => rw [hcell] at h; exact absurd h (by simp [Except.map])
    | ok cell => rw [hcell] at h; exact absurd h (by simp [Except.map])

theorem behind_eq_forward {cell : WireCell} :
    ∀ {ks : List HopKeys}, behind A d x ks = .ok (.forward cell) →
      linkCell A d x ks = .ok cell := by
  intro ks h
  cases ks with
  | nil => exact absurd h (by simp [behind])
  | cons k ks =>
    rw [behind] at h
    cases hcell : linkCell A d x (k :: ks) with
    | error err => rw [hcell] at h; exact absurd h (by simp [Except.map])
    | ok made =>
      rw [hcell] at h
      simp only [Except.map, Except.ok.injEq, OpenedLayer.forward.injEq] at h
      rw [h]

theorem Accounted.terminals {keys : List HopKeys} (h : Accounted A d keys sealed j hop) :
    ∃ xs : List Sealing, xs.Subperm sealed ∧
      hop.terminals = xs.map fun x => (x.cellType, x.payload) := by
  obtain ⟨xs, hsub, hall⟩ := h.matched (S := fun x out => (x.cellType, x.payload) = out)
    (f := fun entry =>
      match entry.2 with
      | .forward _ => none
      | .terminal cellType payload => some (cellType, payload)) (by
    rintro x ⟨cell, next | ⟨t, payload⟩⟩ out ⟨m, _, _, hbehind⟩ hout
    · cases hout
    · exact (behind_eq_terminal hbehind).trans (Option.some.inj hout))
  refine ⟨xs, hsub, ?_⟩
  have heq := List.forall₂_map_left_iff.mpr hall
  rw [List.forall₂_eq_eq_eq] at heq
  exact heq.symm

theorem Accounted.forwards {keys : List HopKeys} (h : Accounted A d keys sealed j hop) :
    ∃ xs : List Sealing, xs.Subperm sealed ∧
      List.Forall₂ (fun x cell => ∃ m, SameKey keys d j m ∧
        ((keys.map fun k => k.key d).Nodup → m = j) ∧
        linkCell A d x (keys.drop (m + 1)) = .ok cell) xs hop.forwards := by
  refine h.matched ?_
  rintro x ⟨cell, next | ⟨t, payload⟩⟩ out ⟨m, hsame, _, hbehind⟩ hout
  · obtain rfl := Option.some.inj hout
    exact ⟨m, hsame, hsame.eq_of_nodup, behind_eq_forward hbehind⟩
  · cases hout

/-- **At most once, unmodified.**  Over every schedule of calls and deliveries the terminal outputs of
the last hop are the types and payloads of distinct successful calls, and the cells an intermediate hop
forwards belong to distinct calls, each being the next inner layer: the layer behind the hop itself,
or, if the circuit was built with one key for several hops, behind a hop with the same key. -/
theorem delivered_at_most_once (hA : A.Correct) {keys : List HopKeys} {d : Direction}
    {sender : CircuitSender} (hnew : CircuitSender.new keys d = .ok sender) {acts : List Act}
    {n : Network} (hideal : Runs.Meets (Network.step A) (Ideal A) (.start sender) acts)
    (hrun : Runs.run (Network.step A) (.start sender) acts = some n) :
    (∃ last, n.hops.getLast? = some last ∧ ∃ xs : List Sealing, xs.Subperm n.sealed ∧
      last.terminals = xs.map fun x => (x.cellType, x.payload)) ∧
    ∀ (j : ℕ) hop, j + 1 < keys.length → n.hops[j]? = some hop →
      ∃ xs : List Sealing, xs.Subperm n.sealed ∧
        List.Forall₂ (fun x cell => ∃ m, SameKey keys d j m ∧
          ((keys.map fun k => k.key d).Nodup → m = j) ∧
          linkCell A d x (keys.drop (m + 1)) = .ok cell) xs hop.forwards := by
  have hinv := Runs.run_invariant (fun s a s' hs ha hstep => inv_step hA hs ha hstep) acts _ n
    (inv_start (A := A) hnew) hideal hrun
  refine ⟨?_, fun j hop _ hhop => (hinv.accounted j hop hhop).forwards⟩
  have hne : n.hops ≠ [] := by
    rw [← List.length_pos_iff, hinv.length, List.length_pos_iff, ← hinv.traversal]
    exact n.sender.nonempty
  have hget : n.hops[n.hops.length - 1]? = some (n.hops.getLast hne) := by
    rw [← List.getLast?_eq_getElem?, List.getLast?_eq_some_getLast hne]
  exact ⟨n.hops.getLast hne, List.getLast?_eq_some_getLast hne, (hinv.accounted _ _ hget).terminals⟩

/-- The cells of the first call on both links of the sample circuit, each delivered twice. -/
def replayedActs : Option (List Act) :=
  (linkCell transparent .forward ⟨0, .data, [7]⟩ [sampleKeys 0, sampleKeys 1]).toOption.bind fun outer =>
    (linkCell transparent .forward ⟨0, .data, [7]⟩ [sampleKeys 1]).toOption.map fun inner =>
      [.sealCell .data [7], .deliver 0 outer 50, .deliver 1 inner 50, .deliver 0 outer 51,
        .deliver 1 inner 51]

/-- Over two hops and a network that repeats every cell, one payload is handed out. -/
theorem repeated_cells_delivered_once : ∃ acts n,
    Runs.Meets (Network.step transparent) (Ideal transparent) (.start twoHops) acts ∧
    Runs.run (Network.step transparent) (.start twoHops) acts = some n ∧
    n.sealed = [⟨0, .data, [7]⟩] ∧ n.hops.map Hop.terminals = [[], [(.data, [7])]] ∧
    ∃ last, n.hops.getLast? = some last ∧ ∃ xs : List Sealing, xs.Subperm n.sealed ∧
      last.terminals = xs.map fun x => (x.cellType, x.payload) := by
  have heval : (replayedActs.bind fun acts => (Runs.run (Runs.guarded (Network.step transparent)
      fun n a => decide (Ideal transparent n a)) (.start twoHops) acts).map fun n =>
        (n.sealed, n.hops.map Hop.terminals)) = some ([⟨0, .data, [7]⟩], [[], [(.data, [7])]]) := by
    decide +kernel
  obtain ⟨acts, _, hacts⟩ := Option.bind_eq_some_iff.mp heval
  obtain ⟨n, hrun, hn⟩ := Option.map_eq_some_iff.mp hacts
  obtain ⟨hmeets, hrun'⟩ := Runs.run_guarded acts _ n hrun
  simp only [decide_eq_true_eq] at hmeets
  have hnew : CircuitSender.new [sampleKeys 0, sampleKeys 1] .forward = .ok twoHops := rfl
  have hdelivered := delivered_at_most_once transparent_correct hnew hmeets hrun'
  simp only [Prod.mk.injEq] at hn
  exact ⟨acts, n, hmeets, hrun', hn.1, hn.2, hdelivered.1⟩

end Peerless.Onion
