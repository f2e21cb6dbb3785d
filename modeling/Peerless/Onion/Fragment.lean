import Peerless.Onion.Cell

/-!
# Message fragments

A message longer than one cell is cut into fragments that fit into one layer.

* `fragment_codec_exact` — `encode` and `decode` are inverse to each other between the valid
  fragments and the byte strings `decode` accepts.
-/

namespace Peerless.Onion

open Text Wire

def maxFragmentCount : UInt32 := 1024

def maxMessageSize : ℕ := 512 * 1024

def fragmentHeaderSize : ℕ := 16 + 4 + 4 + 4

structure Fragment where
  messageId : Octets 16
  index : UInt32
  count : UInt32
  totalLen : UInt32
  bytes : Bytes
  deriving DecidableEq

def Fragment.maxBytes : ℕ := maxLayerData - fragmentHeaderSize

def Fragment.validate (f : Fragment) : Except OnionError Unit :=
  if f.count = 0 ∨ f.count > maxFragmentCount ∨ f.index ≥ f.count ∨
      f.totalLen.toNat > maxMessageSize ∨ f.bytes.length > Fragment.maxBytes ∨
      (f.totalLen = 0 ∧ (f.count ≠ 1 ∨ ¬ f.bytes.isEmpty)) ∨
      (f.totalLen > 0 ∧ f.bytes.isEmpty) then .error .invalidEncoding
  else .ok ()

/-- The fields of an encoded fragment. -/
def Fragment.fields (f : Fragment) : List Bytes :=
  [f.messageId.bytes, toBe 4 f.index.toNat, toBe 4 f.count.toNat, toBe 4 f.totalLen.toNat, f.bytes]

def Fragment.encode (f : Fragment) : Except OnionError Bytes :=
  match f.validate with
  | .error err => .error err
  | .ok () => .ok f.fields.flatten

def Fragment.decode (bytes : Bytes) : Except OnionError Fragment :=
  if h : bytes.length < fragmentHeaderSize ∨ bytes.length > maxLayerData then .error .invalidEncoding
  else
    let fragment : Fragment :=
      { messageId := ⟨slice bytes 0 16, slice_length (by simp only [fragmentHeaderSize] at h; omega)⟩
        index := UInt32.ofNat (ofBe (slice bytes 16 20))
        count := UInt32.ofNat (ofBe (slice bytes 20 24))
        totalLen := UInt32.ofNat (ofBe (slice bytes 24 28))
        bytes := bytes.drop 28 }
    match fragment.validate with
    | .error err => .error err
    | .ok () => .ok fragment

def fragmentMessage (messageId : Octets 16) (bytes : Bytes) : Except OnionError (List Fragment) :=
  if bytes.length > maxMessageSize then .error .payloadTooLarge
  else if bytes.isEmpty then .ok [⟨messageId, 0, 1, 0, []⟩]
  else
    let count := divCeil bytes.length Fragment.maxBytes
    if count > maxFragmentCount.toNat then .error .payloadTooLarge
    else .ok ((List.range count).map fun index =>
      { messageId
        index := UInt32.ofNat index
        count := UInt32.ofNat count
        totalLen := UInt32.ofNat bytes.length
        bytes := chunkAt Fragment.maxBytes bytes index })

/-! ### The format -/

/-- What `validate` accepts. -/
structure Fragment.Valid (f : Fragment) : Prop where
  count_pos : 0 < f.count.toNat
  count_le : f.count.toNat ≤ 1024
  index_lt : f.index.toNat < f.count.toNat
  total_le : f.totalLen.toNat ≤ maxMessageSize
  bytes_le : f.bytes.length ≤ Fragment.maxBytes
  empty : f.totalLen.toNat = 0 → f.count.toNat = 1 ∧ f.bytes = []
  filled : 0 < f.totalLen.toNat → f.bytes ≠ []

theorem Fragment.validate_ok_iff (f : Fragment) : f.validate = .ok () ↔ f.Valid := by
  have hzero : ∀ x : UInt32, x = 0 ↔ x.toNat = 0 := fun x => UInt32.toNat_inj.symm
  have hone : ∀ x : UInt32, x = 1 ↔ x.toNat = 1 := fun x => UInt32.toNat_inj.symm
  unfold Fragment.validate
  simp only [hzero, hone, gt_iff_lt, ge_iff_le, UInt32.lt_iff_toNat_lt, UInt32.le_iff_toNat_le,
    List.isEmpty_iff, ne_eq]
  constructor
  · intro h
    split at h
    · cases h
    rename_i hvalid
    simp only [not_or, not_and, not_lt, not_le, not_not] at hvalid
    obtain ⟨hcount, hmax, hindex, htotal, hbytes, hempty, hfilled⟩ := hvalid
    exact ⟨Nat.pos_of_ne_zero hcount, hmax, hindex, htotal, hbytes, hempty, hfilled⟩
  · intro h
    rw [if_neg]
    simp only [not_or, not_and, not_lt, not_le, not_not]
    exact ⟨Nat.pos_iff_ne_zero.mp h.count_pos, h.count_le, h.index_lt, h.total_le, h.bytes_le, h.empty,
      h.filled⟩

variable {f : Fragment}

theorem Fragment.encode_ok_iff {encoded : Bytes} :
    f.encode = .ok encoded ↔ f.Valid ∧ encoded = f.fields.flatten := by
  unfold Fragment.encode
  rw [← Fragment.validate_ok_iff]
  rcases f.validate with err | ⟨⟩
  · simp
  · simp only [Except.ok.injEq, true_and]
    exact eq_comm

theorem Fragment.fields_flatten_length (f : Fragment) :
    f.fields.flatten.length = fragmentHeaderSize + f.bytes.length := by
  simp only [Fragment.fields, List.length_flatten, List.map_cons, List.map_nil, List.sum_cons,
    List.sum_nil, Octets.size, toBe_length, fragmentHeaderSize]
  omega

theorem ofBe_toBe_uint32 (x : UInt32) : UInt32.ofNat (ofBe (toBe 4 x.toNat)) = x := by
  rw [ofBe_toBe_of_lt x.toNat_lt, UInt32.ofNat_toNat]

theorem Fragment.decode_encode {encoded : Bytes} (h : f.encode = .ok encoded) :
    Fragment.decode encoded = .ok f := by
  obtain ⟨hvalid, rfl⟩ := Fragment.encode_ok_iff.mp h
  have hlength := f.fields_flatten_length
  have hbytes := hvalid.bytes_le
  have hfield : ∀ {n : ℕ} {field : Bytes} {i j : ℕ}, f.fields[n]? = some field →
      ((f.fields.map List.length).take n).sum = i → i + field.length = j →
      slice f.fields.flatten i j = field := by
    intro n field i j hn hi hj
    rw [← List.append_nil f.fields.flatten]
    exact slice_flatten f.fields [] hn hi hj
  have hwidths : f.fields.map List.length = [16, 4, 4, 4, f.bytes.length] := by
    simp [Fragment.fields]
  rw [hwidths] at hfield
  have hid : slice f.fields.flatten 0 16 = f.messageId.bytes := hfield (n := 0) rfl rfl (by simp)
  have hindex : slice f.fields.flatten 16 20 = toBe 4 f.index.toNat := hfield (n := 1) rfl rfl (by simp)
  have hcount : slice f.fields.flatten 20 24 = toBe 4 f.count.toNat := hfield (n := 2) rfl rfl (by simp)
  have htotal : slice f.fields.flatten 24 28 = toBe 4 f.totalLen.toNat :=
    hfield (n := 3) rfl rfl (by simp)
  have hrest : f.fields.flatten.drop 28 = f.bytes := by
    have hsplit : f.fields.flatten = (f.fields.take 4).flatten ++ f.bytes := by
      simp [Fragment.fields]
    rw [hsplit]
    exact List.drop_left' (by simp [Fragment.fields])
  have hfits : ¬ (f.fields.flatten.length < fragmentHeaderSize ∨
      f.fields.flatten.length > maxLayerData) := by
    simp only [Fragment.maxBytes, maxLayerData, cellSize, cellHeaderSize, tagSize, layerHeaderSize,
      fragmentHeaderSize] at hlength hbytes ⊢
    omega
  have hread : (⟨⟨slice f.fields.flatten 0 16, by rw [hid, Octets.size]⟩,
      UInt32.ofNat (ofBe (slice f.fields.flatten 16 20)),
      UInt32.ofNat (ofBe (slice f.fields.flatten 20 24)),
      UInt32.ofNat (ofBe (slice f.fields.flatten 24 28)), f.fields.flatten.drop 28⟩ : Fragment) = f := by
    simp only [hid, hindex, hcount, htotal, hrest, ofBe_toBe_uint32]
  unfold Fragment.decode
  rw [dif_neg hfits]
  simp only [hread]
  rw [(Fragment.validate_ok_iff f).mpr hvalid]

theorem toBe_ofBe_uint32 {l : Bytes} (h : l.length = 4) :
    toBe 4 (UInt32.ofNat (ofBe l)).toNat = l := by
  have hsmall : ofBe l < 2 ^ 32 := by
    rw [← toBe_ofBe l, ofBe_toBe, h]
    exact Nat.mod_lt _ (by decide)
  rw [UInt32.toNat_ofNat', Nat.mod_eq_of_lt hsmall, ← h, toBe_ofBe]

/-- **Encoding undoes decoding**: no byte of an accepted string is left out of the fields. -/
theorem Fragment.encode_decode {bytes : Bytes} (h : Fragment.decode bytes = .ok f) :
    f.encode = .ok bytes := by
  unfold Fragment.decode at h
  split at h
  · cases h
  rename_i hsize
  have hlong : 28 ≤ bytes.length := by
    simp only [fragmentHeaderSize, not_or, not_lt] at hsize
    omega
  simp only at h
  split at h
  · cases h
  rename_i hvalid
  rw [Except.ok.injEq] at h
  rw [h] at hvalid
  refine Fragment.encode_ok_iff.mpr ⟨(Fragment.validate_ok_iff f).mp hvalid, ?_⟩
  have hfields : f.fields = cuts bytes 0 [16, 4, 4, 4] ++ [bytes.drop 28] := by
    rw [← h]
    simp only [Fragment.fields, cuts, List.cons_append, List.nil_append]
    rw [toBe_ofBe_uint32 (slice_length (by omega)), toBe_ofBe_uint32 (slice_length (by omega)),
      toBe_ofBe_uint32 (slice_length (by omega))]
  rw [hfields, List.flatten_append, flatten_cuts]
  simp [slice]

/-! ### The fragments of a message -/

/-- How many fragments a message has. -/
def fragmentCount (message : Bytes) : ℕ := max 1 (divCeil message.length Fragment.maxBytes)

/-- The fragment of a message at an index. -/
def fragmentAt (messageId : Octets 16) (message : Bytes) (index : ℕ) : Fragment where
  messageId
  index := UInt32.ofNat index
  count := UInt32.ofNat (fragmentCount message)
  totalLen := UInt32.ofNat message.length
  bytes := chunkAt Fragment.maxBytes message index

variable {message : Bytes}

theorem fragmentCount_bounds (h : message.length ≤ maxMessageSize) :
    0 < fragmentCount message ∧ fragmentCount message ≤ 566 ∧
      message.length ≤ fragmentCount message * Fragment.maxBytes ∧
      ∀ i, i < fragmentCount message → 0 < message.length → i * Fragment.maxBytes < message.length := by
  have hcover := le_divCeil_mul (a := message.length) (b := Fragment.maxBytes) (by decide)
  have hinside : ∀ i, i < divCeil message.length Fragment.maxBytes →
      i * Fragment.maxBytes < message.length := fun i hi => mul_lt_of_lt_divCeil hi
  have hmax : Fragment.maxBytes = 927 := rfl
  unfold fragmentCount
  generalize divCeil message.length Fragment.maxBytes = count at hcover hinside ⊢
  simp only [hmax, maxMessageSize] at h hcover hinside ⊢
  have hcount : count ≤ 566 := by
    by_contra hlarge
    have hlt := hinside 566 (not_le.mp hlarge)
    omega
  refine ⟨by omega, by omega,
    hcover.trans (Nat.mul_le_mul_right 927 (Nat.le_max_right 1 count)), ?_⟩
  intro i hi hpos
  rcases Nat.lt_or_ge i count with hlt | hge
  · exact hinside i hlt
  · omega

theorem fragmentMessage_eq (messageId : Octets 16) (h : message.length ≤ maxMessageSize) :
    fragmentMessage messageId message =
      .ok ((List.range (fragmentCount message)).map (fragmentAt messageId message)) := by
  obtain ⟨_, hcount, _, _⟩ := fragmentCount_bounds h
  unfold fragmentMessage
  rw [if_neg (by omega)]
  split
  · rename_i hempty
    rw [List.isEmpty_iff] at hempty
    subst hempty
    rfl
  · rename_i hne
    have hpos : 0 < divCeil message.length Fragment.maxBytes := by
      have hcover := le_divCeil_mul (a := message.length) (b := Fragment.maxBytes) (by decide)
      have hlen : 0 < message.length := List.length_pos_iff.mpr (by simpa using hne)
      exact Nat.pos_of_mul_pos_right (Nat.lt_of_lt_of_le hlen hcover)
    have heq : fragmentCount message = divCeil message.length Fragment.maxBytes := by
      unfold fragmentCount
      omega
    simp only
    rw [if_neg (by rw [← heq]; show ¬ 1024 < _; omega), ← heq]
    rfl

theorem toNat_ofNat_uint32 {n : ℕ} (h : n < 2 ^ 32) : (UInt32.ofNat n).toNat = n := by
  rw [UInt32.toNat_ofNat']
  exact Nat.mod_eq_of_lt h

/-- Every fragment of an admissible message passes its own check. -/
theorem fragmentAt_valid (messageId : Octets 16) (h : message.length ≤ maxMessageSize) {i : ℕ}
    (hi : i < fragmentCount message) : (fragmentAt messageId message i).Valid := by
  obtain ⟨hpos, hcount, hcover, hinside⟩ := fragmentCount_bounds h
  have hmax : Fragment.maxBytes = 927 := rfl
  have hindexNat : (fragmentAt messageId message i).index.toNat = i := toNat_ofNat_uint32 (by omega)
  have hcountNat : (fragmentAt messageId message i).count.toNat = fragmentCount message :=
    toNat_ofNat_uint32 (by omega)
  have htotalNat : (fragmentAt messageId message i).totalLen.toNat = message.length :=
    toNat_ofNat_uint32 (by simp only [maxMessageSize] at h; omega)
  have hbytes : (fragmentAt messageId message i).bytes.length =
      min Fragment.maxBytes (message.length - i * Fragment.maxBytes) := chunkAt_length _ _ _
  refine ⟨by omega, by omega, by omega, by omega, by omega, ?_, ?_⟩
  · intro hzero
    rw [htotalNat] at hzero
    constructor
    · rw [hcountNat, fragmentCount, hzero]
      rfl
    · rw [← List.length_eq_zero_iff, hbytes]
      omega
  · intro hlen
    rw [htotalNat] at hlen
    rw [← List.length_pos_iff, hbytes]
    have := hinside i hi hlen
    omega

/-- **The codec is exact.**  `encode` succeeds on the fragments `validate` passes, `decode` on their
encodings, each undoes the other, and cutting a message up yields only fragments that encode: whatever the
message, its number of fragments never trips the count check. -/
theorem fragment_codec_exact :
    (∀ f : Fragment, (∃ bytes, f.encode = .ok bytes) ↔ f.validate = .ok ()) ∧
      (∀ (f : Fragment) (bytes : Bytes), f.encode = .ok bytes → Fragment.decode bytes = .ok f) ∧
      (∀ bytes : Bytes, (∃ f, Fragment.decode bytes = .ok f) ↔ ∃ f : Fragment, f.encode = .ok bytes) ∧
      (∀ (bytes : Bytes) (f : Fragment), Fragment.decode bytes = .ok f → f.encode = .ok bytes) ∧
      ∀ (messageId : Octets 16) (message : Bytes), message.length ≤ maxMessageSize →
        ∃ fragments, fragmentMessage messageId message = .ok fragments ∧
          ∀ f ∈ fragments, f.validate = .ok () := by
  refine ⟨?_, fun f bytes => Fragment.decode_encode, ?_, fun bytes f => Fragment.encode_decode, ?_⟩
  · intro f
    rw [Fragment.validate_ok_iff]
    constructor
    · intro h
      exact (Fragment.encode_ok_iff.mp h.choose_spec).1
    · intro h
      exact ⟨_, Fragment.encode_ok_iff.mpr ⟨h, rfl⟩⟩
  · intro bytes
    constructor
    · intro h
      exact ⟨h.choose, Fragment.encode_decode h.choose_spec⟩
    · intro h
      exact ⟨h.choose, Fragment.decode_encode h.choose_spec⟩
  · intro messageId message h
    refine ⟨_, fragmentMessage_eq messageId h, ?_⟩
    intro f hf
    obtain ⟨i, hi, rfl⟩ := List.mem_map.mp hf
    exact (Fragment.validate_ok_iff _).mpr (fragmentAt_valid messageId h (List.mem_range.mp hi))

/-- One byte, cut into its only fragment, encoded and decoded again. -/
theorem fragment_codec_exact_byte :
    Fragment.decode ((List.replicate 16 0 ++ [0, 0, 0, 0, 0, 0, 0, 1, 0, 0, 0, 1, 7] : Bytes)) =
        .ok ⟨⟨List.replicate 16 0, rfl⟩, 0, 1, 1, [7]⟩ ∧
      ∃ fragments, fragmentMessage ⟨List.replicate 16 0, rfl⟩ [7] = .ok fragments ∧
        ∀ f ∈ fragments, f.validate = .ok () :=
  ⟨fragment_codec_exact.2.1 _ _ (by decide +kernel), fragment_codec_exact.2.2.2.2 _ [7] (by decide)⟩

end Peerless.Onion
