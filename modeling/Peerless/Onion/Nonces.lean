import Peerless.Onion.Delivery
import Peerless.Onion.Isolation
import Mathlib.Data.List.Chain

/-!
# No nonce is used twice

A key encrypts many layers, so no two of them may share a nonce.  A call reads its direction's counter,
encrypts one layer or one for each hop, and moves the counter only at its end; it can fail before the
first layer, between two of them, or because the counter is exhausted.

* `nonces_never_repeat` — over any calls, successful and failed, of a sender and of a relay.
-/

namespace Peerless.Onion

open Text Wire

/-! ### Cells with their layers -/

/-- The layer an encryption makes: the header, which the associated data starts with, the ciphertext and
the tag. -/
def Encryption.compact (e : Encryption) : Bytes :=
  e.aad.take cellHeaderSize ++ (e.ciphertext ++ e.tag.bytes)

/-- A cell that left a sender or a relay, with the direction and number of the call and the encryptions
it made, outermost first. -/
structure Emission where
  direction : Direction
  sequence : UInt64
  cell : WireCell
  layers : List Encryption

/-- The layers are what the cell consists of: the cipher made each of them, the cell is the outermost
one, and each holds the one behind it. -/
structure Emission.Layered (A : Aead) (x : Emission) : Prop where
  made : ∀ e ∈ x.layers, A.encrypt e.key e.nonce e.aad e.plaintext = some (e.ciphertext, e.tag)
  outer : ∃ e, x.layers.head? = some e ∧ WireCell.fromCompact e.compact = .ok x.cell
  inner : x.layers.IsChain fun e e' => e.plaintext = layerPlaintext 0 e'.compact

/-- The layers are encrypted under the given keys, all with the number of the call. -/
structure Emission.Numbered (x : Emission) (keys : List (Octets 32)) : Prop where
  keys : x.layers.map Encryption.key = keys
  nonces : ∀ e ∈ x.layers, ∃ k : HopKeys, e.nonce = k.nonce x.direction x.sequence

variable {A : Aead}

variable {d : Direction}

/-- What a successful `seal_compact` has encrypted. -/
theorem encryptionOf_of_sealCompact {k : HopKeys} {q : UInt64} {layerType : UInt8} {data compact : Bytes}
    (h : sealCompact A k d q layerType data = .ok compact) :
    ∃ e, encryptionOf A k d q layerType data = some e ∧ e.compact = compact ∧ e.key = k.key d ∧
      e.nonce = k.nonce d q ∧ e.plaintext = layerPlaintext layerType data ∧
      A.encrypt e.key e.nonce e.aad e.plaintext = some (e.ciphertext, e.tag) := by
  obtain ⟨hsize, c, t, henc, rfl⟩ := sealCompact_ok h
  refine ⟨⟨k.key d, k.nonce d q, layerAad k d q data, layerPlaintext layerType data, c, t⟩, ?_, ?_, rfl,
    rfl, rfl, henc⟩
  · rw [encryptionOf, if_neg (not_lt.mpr hsize), henc]
    rfl
  · show (layerAad k d q data).take cellHeaderSize ++ (c ++ t.bytes) = _
    rw [layerAad, List.take_left' (layerHeader_length k d q data)]

/-- **One encryption for each hop**, the first one's layer being the onion. -/
theorem encryptions_of_onion {x : Sealing} :
    ∀ {keys : List HopKeys} {compact : Bytes}, onion A d x keys = .ok compact →
      (∃ e, (encryptions A d x keys).head? = some e ∧ e.compact = compact) ∧
      (encryptions A d x keys).map Encryption.key = keys.map (fun k => k.key d) ∧
      (∀ e ∈ encryptions A d x keys, (∃ k : HopKeys, e.nonce = k.nonce d x.sequence) ∧
        A.encrypt e.key e.nonce e.aad e.plaintext = some (e.ciphertext, e.tag)) ∧
      (encryptions A d x keys).IsChain fun e e' => e.plaintext = layerPlaintext 0 e'.compact := by
  intro keys
  induction keys with
  | nil => intro compact h; exact absurd h (by simp [onion])
  | cons k ks ih =>
    intro compact h
    rw [onion_cons] at h
    cases hdata : layerData A d x ks with
    | error err =>
      rw [hdata] at h
      exact absurd h (by simp [Except.bind])
    | ok layer =>
      rw [hdata] at h
      obtain ⟨e, he, hcompact, hkey, hnonce, hplain, hmade⟩ := encryptionOf_of_sealCompact h
      rw [encryptions, hdata]
      simp only [he, Option.toList_some, List.singleton_append]
      refine ⟨⟨e, rfl, hcompact⟩, ?_⟩
      cases ks with
      | nil =>
        refine ⟨by simp [encryptions, hkey], ?_, .singleton e⟩
        intro e' he'
        obtain rfl : e' = e := by simpa [encryptions] using he'
        exact ⟨⟨k, hnonce⟩, hmade⟩
      | cons k' ks =>
        -- the layer data of a hop in front of others is the onion for them
        obtain ⟨inner, hinner, hlayer⟩ : ∃ inner, onion A d x (k' :: ks) = .ok inner ∧
            (0, inner) = layer := by
          rw [layerData] at hdata
          cases hinner : onion A d x (k' :: ks) with
          | error err => rw [hinner] at hdata; cases hdata
          | ok inner => rw [hinner] at hdata; exact ⟨inner, rfl, Except.ok.inj hdata⟩
        obtain ⟨⟨e', hhead, hinside⟩, hkeys, hall, hchain⟩ := ih hinner
        refine ⟨by rw [List.map_cons, List.map_cons, hkey, hkeys], ?_, ?_⟩
        · intro e'' he''
          rcases List.mem_cons.mp he'' with rfl | he''
          · exact ⟨⟨k, hnonce⟩, hmade⟩
          · exact hall e'' he''
        · refine List.isChain_cons.mpr ⟨?_, hchain⟩
          intro e'' he''
          rw [hhead] at he''
          obtain rfl := Option.some.inj he''
          rw [hplain, ← hlayer, hinside]

/-- **Different numbers or different keys.**  Cells whose calls had different numbers, or whose layers
have different keys, share no pair of key and nonce. -/
theorem nodup_layers {l : List Emission}
    (hnumbered : ∀ x ∈ l, ∃ keys, keys.Nodup ∧ x.Numbered keys)
    (hapart : l.Pairwise fun x y => x.sequence ≠ y.sequence ∨
      ∀ e ∈ x.layers, ∀ e' ∈ y.layers, e.key ≠ e'.key) :
    ((l.flatMap Emission.layers).map fun e => (e.key, e.nonce)).Nodup := by
  rw [List.map_flatMap, List.nodup_flatMap]
  constructor
  · intro x hx
    obtain ⟨keys, hnodup, hkeys⟩ := hnumbered x hx
    rw [← hkeys.keys] at hnodup
    exact List.Nodup.of_map Prod.fst (by rw [List.map_map]; exact hnodup)
  · refine List.Pairwise.imp_of_mem ?_ hapart
    intro x y hx hy hxy pair hpx hpy
    obtain ⟨e, he, rfl⟩ := List.mem_map.mp hpx
    obtain ⟨e', he', heq⟩ := List.mem_map.mp hpy
    obtain ⟨hkey, hnonce⟩ := Prod.mk.inj heq
    rcases hxy with hne | hne
    · obtain ⟨_, _, hx⟩ := hnumbered x hx
      obtain ⟨_, _, hy⟩ := hnumbered y hy
      obtain ⟨k, hk⟩ := hx.nonces e he
      obtain ⟨k', hk'⟩ := hy.nonces e' he'
      exact hne (HopKeys.sequence_of_nonce (hk.symm.trans (hnonce.symm.trans hk')))
    · exact hne e he e' he' hkey.symm

/-! ### The sender -/

variable (A) in
/-- A call of `CircuitSender::seal`: the sender afterwards and the cell it emits, if it succeeds. -/
def CircuitSender.emit (s : CircuitSender) (call : CellType × Bytes) : CircuitSender × Option Emission :=
  match s.seal A call.1 call.2 with
  | (s', .error _) => (s', none)
  | (s', .ok cell) => (s', some ⟨s.direction, s.nextSequence, cell,
      encryptions A s.direction ⟨s.nextSequence, call.1, call.2⟩ s.traversalKeys⟩)

/-- A call fails and changes nothing, or emits one layer for each hop under the next number. -/
theorem CircuitSender.emit_cases (s : CircuitSender) (call : CellType × Bytes) :
    s.emit A call = (s, none) ∨
      ∃ x, s.emit A call = (s.advanced, some x) ∧ s.nextSequence.toNat + 1 < UInt64.size ∧
        x.direction = s.direction ∧ x.sequence = s.nextSequence ∧ x.Layered A ∧
        x.Numbered (s.traversalKeys.map fun k => k.key s.direction) := by
  unfold CircuitSender.emit
  rcases hseal : s.seal A call.1 call.2 with ⟨s', err | cell⟩
  · rw [CircuitSender.seal_error hseal]
    exact Or.inl rfl
  · obtain ⟨hlink, hnext, rfl⟩ := CircuitSender.seal_ok_iff.mp hseal
    obtain ⟨compact, honion, hcell⟩ := linkCell_ok hlink
    obtain ⟨⟨e, hhead, hcompact⟩, hkeys, hall, hchain⟩ := encryptions_of_onion honion
    exact Or.inr ⟨_, rfl, hnext, rfl, rfl,
      ⟨fun e he => (hall e he).2, ⟨e, hhead, hcompact ▸ hcell⟩, hchain⟩,
      ⟨hkeys, fun e he => (hall e he).1⟩⟩

/-! ### The relay -/

/-- What a call asks the relay to seal: the layer type and the data. -/
def DuplexCall.data : DuplexCall → Option (UInt8 × Bytes)
  | .openCell _ _ _ => none
  | .sealTerminal _ cellType payload => some (cellType.toByte, payload)
  | .wrap _ inner => inner.compact.toOption.map fun compact => (0, compact)

variable (A) in
/-- The encryption a call of the relay makes. -/
def HopDuplex.layer (h : HopDuplex) (c : DuplexCall) : List Encryption :=
  (c.data.bind fun data =>
    encryptionOf A h.keys c.direction (h.nextSequence c.direction) data.1 data.2).toList

variable (A) in
/-- A call of the relay: the relay afterwards and the cell it emits, if it seals one. -/
def HopDuplex.emit (h : HopDuplex) (c : DuplexCall) : HopDuplex × Option Emission :=
  match h.call A c with
  | (h', .emitted (.ok cell)) =>
    (h', some ⟨c.direction, h.nextSequence c.direction, cell, h.layer A c⟩)
  | (h', _) => (h', none)

/-- A call that seals fails and changes nothing, or emits one layer under the number of its direction. -/
theorem HopDuplex.emit_sealed {h : HopDuplex} {c : DuplexCall} {layerType : UInt8} {data : Bytes}
    (hdata : c.data = some (layerType, data))
    (hcall : h.call A c = ((h.sealLayer A c.direction layerType data).1,
      .emitted (h.sealLayer A c.direction layerType data).2)) :
    h.emit A c = (h, none) ∨
      ∃ x, h.emit A c = (h.advanced c.direction, some x) ∧
        (h.nextSequence c.direction).toNat + 1 < UInt64.size ∧ x.direction = c.direction ∧
        x.sequence = h.nextSequence c.direction ∧ x.Layered A ∧
        x.Numbered [h.keys.key c.direction] := by
  unfold HopDuplex.emit
  rw [hcall]
  rcases hseal : h.sealLayer A c.direction layerType data with ⟨h', err | cell⟩
  · rcases h.sealLayer_cases (A := A) c.direction layerType data with ⟨hsame, _⟩ | ⟨_, cell, hok⟩
    · rw [hseal] at hsame
      obtain rfl : h' = h := hsame
      exact Or.inl rfl
    · rw [hseal] at hok
      cases hok
  · obtain ⟨⟨compact, hsealed, hcell⟩, hnext, rfl⟩ := HopDuplex.sealLayer_ok_iff.mp hseal
    obtain ⟨e, he, hcompact, hkey, hnonce, _, hmade⟩ := encryptionOf_of_sealCompact hsealed
    have hlayer : h.layer A c = [e] := by
      rw [HopDuplex.layer, hdata, Option.bind_some, he]
      rfl
    dsimp only
    rw [hlayer]
    refine Or.inr ⟨_, rfl, hnext, rfl, rfl, ⟨?_, ⟨e, rfl, hcompact ▸ hcell⟩, .singleton e⟩,
      ⟨by rw [List.map_singleton, hkey], ?_⟩⟩
    · intro e' he'
      rw [List.mem_singleton.mp he']
      exact hmade
    · intro e' he'
      rw [List.mem_singleton.mp he']
      exact ⟨h.keys, hnonce⟩

/-- **What a call does.**  It emits nothing and leaves keys and counters alone, or emits one layer under
the number of its direction and moves that counter. -/
theorem HopDuplex.emit_cases (h : HopDuplex) (c : DuplexCall) :
    ((h.emit A c).2 = none ∧ (h.emit A c).1.keys = h.keys ∧
        ∀ d, (h.emit A c).1.nextSequence d = h.nextSequence d) ∨
      ∃ x, h.emit A c = (h.advanced c.direction, some x) ∧
        (h.nextSequence c.direction).toNat + 1 < UInt64.size ∧ x.direction = c.direction ∧
        x.sequence = h.nextSequence c.direction ∧ x.Layered A ∧
        x.Numbered [h.keys.key c.direction] := by
  have hnothing : h.emit A c = (h, none) → (h.emit A c).2 = none ∧ (h.emit A c).1.keys = h.keys ∧
      ∀ d, (h.emit A c).1.nextSequence d = h.nextSequence d := by
    intro hemit
    rw [hemit]
    exact ⟨rfl, rfl, fun _ => rfl⟩
  cases c with
  | openCell cell direction now =>
    refine Or.inl ⟨rfl, ?_, fun d => ?_⟩
    · show (h.open A cell direction now).1.keys = h.keys
      cases direction <;> rfl
    · show (h.open A cell direction now).1.nextSequence d = h.nextSequence d
      cases direction <;> cases d <;> rfl
  | sealTerminal direction cellType payload =>
    exact (HopDuplex.emit_sealed (c := .sealTerminal direction cellType payload) rfl rfl).imp_left
      hnothing
  | wrap direction inner =>
    cases hcompact : inner.compact with
    | error err =>
      have hcall : h.call A (.wrap direction inner) = (h, .emitted (.error err)) := by
        rw [HopDuplex.call, HopDuplex.wrap, hcompact]
      refine Or.inl (hnothing ?_)
      rw [HopDuplex.emit, hcall]
    | ok compact =>
      have hdata : (DuplexCall.wrap direction inner).data = some (0, compact) := by
        rw [DuplexCall.data, hcompact]
        rfl
      refine (HopDuplex.emit_sealed hdata ?_).imp_left hnothing
      rw [HopDuplex.call, HopDuplex.wrap, hcompact]
      rfl

/-- Different keys for the two directions name the direction. -/
theorem HopKeys.key_injective (k : HopKeys) (h : k.forwardKey ≠ k.reverseKey) {d' : Direction}
    (hkey : k.key d = k.key d') : d = d' := by
  cases d <;> cases d' <;> first | rfl | exact absurd hkey h | exact absurd hkey.symm h

/-! ### Runs -/

/-- The cells emitted along a run. -/
def emissions {σ α : Type} (step : σ → α → σ × Option Emission) (s : σ) (calls : List α) :
    List Emission :=
  (Mealy.trace step s calls).filterMap Prod.snd

/-- What every step emits holds of all that is emitted. -/
theorem forall_mem_emissions {σ α : Type} {step : σ → α → σ × Option Emission} {P : Emission → Prop}
    {I : σ → Prop} (hinv : ∀ s a, I s → I (step s a).1)
    (hstep : ∀ s a x, I s → (step s a).2 = some x → P x) {s : σ} (hs : I s) (calls : List α) :
    ∀ x ∈ emissions step s calls, P x := by
  intro x hx
  obtain ⟨entry, hentry, hsnd⟩ := List.mem_filterMap.mp hx
  exact Mealy.forall_mem_trace (P := fun entry => ∀ x, entry.2 = some x → P x) hinv
    (fun s a hs x => hstep s a x hs) calls s hs entry hentry x hsnd

/-- The ticket of an emitted cell: the counter it was numbered by and its number. -/
def ticket {ι : Type} (counter : Direction → ι) (x : Option Emission) : Option (ι × ℕ) :=
  x.map fun x => (counter x.direction, x.sequence.toNat)

/-- Cells numbered by one counter carry different numbers. -/
theorem emissions_increasing {σ α ι : Type} {step : σ → α → σ × Option Emission}
    (counter : Direction → ι) (value : ι → σ → ℕ)
    (hmono : ∀ s a i, value i s ≤ value i (step s a).1)
    (hticket : ∀ s a x, (step s a).2 = some x → value (counter x.direction) s = x.sequence.toNat ∧
      x.sequence.toNat < value (counter x.direction) (step s a).1) (s : σ) (calls : List α) :
    (emissions step s calls).Pairwise fun x y =>
      counter x.direction = counter y.direction → x.sequence ≠ y.sequence := by
  refine List.Pairwise.filterMap _ ?_ (Mealy.trace_increasing value (ticket counter) hmono ?_ calls s)
  · intro a b hab x hx y hy hcounter heq
    have hlt := hab (counter x.direction) x.sequence.toNat y.sequence.toNat
      (by rw [ticket, hx]; rfl) (by rw [ticket, hy, hcounter]; rfl)
    rw [heq] at hlt
    omega
  · intro s a i n hn
    obtain ⟨x, hx, hin⟩ := Option.map_eq_some_iff.mp hn
    obtain ⟨rfl, rfl⟩ := Prod.mk.inj hin
    obtain ⟨hvalue, hlt⟩ := hticket s a x hx
    exact ⟨hvalue.le, hlt⟩

theorem toNat_succ {q : UInt64} (h : q.toNat + 1 < UInt64.size) : (q + 1).toNat = q.toNat + 1 := by
  rw [UInt64.toNat_add]
  exact Nat.mod_eq_of_lt h

theorem CircuitSender.emissions_facts (s : CircuitSender) (calls : List (CellType × Bytes)) :
    ∀ x ∈ emissions (CircuitSender.emit A) s calls, x.Layered A ∧
      x.Numbered (s.traversalKeys.map fun k => k.key s.direction) := by
  refine forall_mem_emissions (I := fun t : CircuitSender => t.traversalKeys = s.traversalKeys ∧
    t.direction = s.direction) ?_ ?_ ⟨rfl, rfl⟩ calls
  · intro t call ht
    rcases t.emit_cases (A := A) call with hnone | ⟨x, hsome, _⟩
    · rw [hnone]
      exact ht
    · rw [hsome]
      exact ht
  · intro t call x ht hx
    rcases t.emit_cases (A := A) call with hnone | ⟨y, hsome, _, _, _, hlayered, hnumbered⟩
    · rw [hnone] at hx
      cases hx
    · rw [hsome] at hx
      obtain rfl : y = x := Option.some.inj hx
      rw [ht.1, ht.2] at hnumbered
      exact ⟨hlayered, hnumbered⟩

theorem HopDuplex.emissions_facts (h : HopDuplex) (calls : List DuplexCall) :
    ∀ x ∈ emissions (HopDuplex.emit A) h calls, x.Layered A ∧ x.Numbered [h.keys.key x.direction] := by
  refine forall_mem_emissions (I := fun t : HopDuplex => t.keys = h.keys) ?_ ?_ rfl calls
  · intro t c ht
    rcases t.emit_cases (A := A) c with ⟨_, hkeys, _⟩ | ⟨x, hsome, _⟩
    · exact hkeys.trans ht
    · rw [hsome, ← ht]
      cases c.direction <;> rfl
  · intro t c x ht hx
    rcases t.emit_cases (A := A) c with ⟨hnone, _⟩ | ⟨y, hsome, _, hdirection, _, hlayered, hnumbered⟩
    · rw [hnone] at hx
      cases hx
    · rw [hsome] at hx
      obtain rfl : y = x := Option.some.inj hx
      rw [ht, ← hdirection] at hnumbered
      exact ⟨hlayered, hnumbered⟩

theorem CircuitSender.emissions_apart (s : CircuitSender) (calls : List (CellType × Bytes)) :
    (emissions (CircuitSender.emit A) s calls).Pairwise fun x y => x.sequence ≠ y.sequence := by
  refine (emissions_increasing (fun _ => ()) (fun _ s => s.nextSequence.toNat) ?_ ?_ s calls).imp
    fun h => h rfl
  · intro t call _
    rcases t.emit_cases (A := A) call with hnone | ⟨x, hsome, hnext, _⟩
    · rw [hnone]
    · rw [hsome]
      exact (Nat.le_succ _).trans (toNat_succ hnext).ge
  · intro t call x hx
    rcases t.emit_cases (A := A) call with hnone | ⟨y, hsome, hnext, _, hsequence, _⟩
    · rw [hnone] at hx
      cases hx
    · rw [hsome] at hx ⊢
      obtain rfl : y = x := Option.some.inj hx
      rw [hsequence]
      exact ⟨rfl, (Nat.lt_succ_self _).trans_le (toNat_succ hnext).ge⟩

theorem HopDuplex.nextSequence_advanced (h : HopDuplex) (d d' : Direction) :
    (h.advanced d).nextSequence d' = if d = d' then h.nextSequence d + 1 else h.nextSequence d' := by
  cases d <;> cases d' <;> rfl

theorem HopDuplex.emissions_apart (h : HopDuplex) (calls : List DuplexCall) :
    (emissions (HopDuplex.emit A) h calls).Pairwise fun x y =>
      x.direction = y.direction → x.sequence ≠ y.sequence := by
  refine emissions_increasing id (fun d h => (h.nextSequence d).toNat) ?_ ?_ h calls
  · intro t c d
    rcases t.emit_cases (A := A) c with ⟨_, _, hcounters⟩ | ⟨x, hsome, hnext, _⟩
    · rw [hcounters]
    · rw [hsome, t.nextSequence_advanced]
      split
      · rename_i hd
        rw [← hd, toNat_succ hnext]
        exact Nat.le_succ _
      · exact Nat.le_refl _
  · intro t c x hx
    rcases t.emit_cases (A := A) c with ⟨hnone, _⟩ | ⟨y, hsome, hnext, hdirection, hsequence, _⟩
    · rw [hnone] at hx
      cases hx
    · rw [hsome] at hx ⊢
      obtain rfl : y = x := Option.some.inj hx
      rw [id, hdirection, hsequence, t.nextSequence_advanced, if_pos rfl, toNat_succ hnext]
      exact ⟨rfl, Nat.lt_succ_self _⟩

/-- **Emitted nonces never repeat.**  Over any calls of a sender, or of a relay in both directions, some
of which fail, no two layers of the cells returned are encrypted under the same key with the same nonce,
if the keys of the hops, respectively of the two directions, are distinct.  The layers of a cell are the
encryptions its call made: one for each hop, respectively one. -/
theorem nonces_never_repeat (A : Aead) :
    (∀ (s : CircuitSender) (calls : List (CellType × Bytes)),
      (s.traversalKeys.map fun k => k.key s.direction).Nodup →
      (((emissions (CircuitSender.emit A) s calls).flatMap Emission.layers).map fun e =>
        (e.key, e.nonce)).Nodup ∧
      ∀ x ∈ emissions (CircuitSender.emit A) s calls, x.Layered A ∧
        x.layers.length = s.traversalKeys.length) ∧
    ∀ (h : HopDuplex) (calls : List DuplexCall), h.keys.forwardKey ≠ h.keys.reverseKey →
      (((emissions (HopDuplex.emit A) h calls).flatMap Emission.layers).map fun e =>
        (e.key, e.nonce)).Nodup ∧
      ∀ x ∈ emissions (HopDuplex.emit A) h calls, x.Layered A ∧ x.layers.length = 1 := by
  constructor
  · intro s calls hkeys
    have hfacts := s.emissions_facts (A := A) calls
    refine ⟨nodup_layers (fun x hx => ⟨_, hkeys, (hfacts x hx).2⟩)
      ((s.emissions_apart calls).imp Or.inl), fun x hx => ⟨(hfacts x hx).1, ?_⟩⟩
    have hlength := congrArg List.length (hfacts x hx).2.keys
    rw [List.length_map, List.length_map] at hlength
    exact hlength
  · intro h calls hkeys
    have hfacts := h.emissions_facts (A := A) calls
    refine ⟨nodup_layers (fun x hx => ⟨_, List.nodup_singleton _, (hfacts x hx).2⟩) ?_,
      fun x hx => ⟨(hfacts x hx).1, ?_⟩⟩
    · refine (h.emissions_apart calls).imp_of_mem ?_
      intro x y hx hy hapart
      by_cases hd : x.direction = y.direction
      · exact Or.inl (hapart hd)
      · refine Or.inr fun e he e' he' heq => hd ?_
        have hone : e.key ∈ [h.keys.key x.direction] :=
          (hfacts x hx).2.keys ▸ List.mem_map_of_mem he
        have htwo : e'.key ∈ [h.keys.key y.direction] :=
          (hfacts y hy).2.keys ▸ List.mem_map_of_mem he'
        rw [List.mem_singleton] at hone htwo
        exact h.keys.key_injective hkeys (hone.symm.trans (heq.trans htwo))
    · have hlength := congrArg List.length (hfacts x hx).2.keys
      rw [List.length_map] at hlength
      exact hlength

/-- Three calls of a sender over two hops; the payload of the second is too large. -/
theorem twoHops_nonces :
    (emissions (CircuitSender.emit transparent) twoHops
      [(.data, [7]), (.data, List.replicate 1024 0), (.data, [8])]).map
        (fun x => (x.sequence, x.layers.length)) = [(0, 2), (1, 2)] ∧
    (((emissions (CircuitSender.emit transparent) twoHops
      [(.data, [7]), (.data, List.replicate 1024 0), (.data, [8])]).flatMap Emission.layers).map
        fun e => (e.key, e.nonce)).Nodup :=
  ⟨by decide +kernel, ((nonces_never_repeat transparent).1 twoHops _ (by decide)).1⟩

end Peerless.Onion
