import Peerless.Lib.Text
import Mathlib.Algebra.BigOperators.Group.List.Basic

/-!
# Fixed-width fields in byte strings

The pieces of a binary record format:

* `slice_flatten` — **the field lemma**: in a record laid out field after field, the bytes at the
  offset of a field are that field, whatever follows the record.
-/

namespace Wire

open Text

/-- A byte string of a fixed size. -/
structure Octets (n : ℕ) where
  bytes : Bytes
  size : bytes.length = n
  deriving DecidableEq

variable {n : ℕ}

theorem Octets.ext_bytes {a b : Octets n} (h : a.bytes = b.bytes) : a = b := by
  cases a
  cases b
  simp only [Octets.mk.injEq]
  exact h

theorem Octets.eq_iff {a b : Octets n} : a = b ↔ a.bytes = b.bytes :=
  ⟨congrArg Octets.bytes, Octets.ext_bytes⟩

attribute [simp] Octets.size

/-! ### Checked 64-bit arithmetic -/

/-- `u64::checked_add`. -/
def checkedAdd (a b : ℕ) : Option ℕ := if a + b < 2 ^ 64 then some (a + b) else none

/-- `u64::checked_mul`. -/
def checkedMul (a b : ℕ) : Option ℕ := if a * b < 2 ^ 64 then some (a * b) else none

theorem foldlM_checkedAdd : ∀ (sizes : List ℕ) (total : ℕ), total + sizes.sum < 2 ^ 64 →
    sizes.foldlM checkedAdd total = some (total + sizes.sum) := by
  intro sizes
  induction sizes with
  | nil => intro total _; rfl
  | cons size sizes ih =>
    intro total h
    rw [List.sum_cons, ← Nat.add_assoc] at h ⊢
    have hadd : checkedAdd total size = some (total + size) := if_pos (by omega)
    rw [List.foldlM_cons, hadd]
    exact ih (total + size) h

/-! ### Big-endian numbers -/

/-- The low `width` bytes of a number, most significant first. -/
def toBe : ℕ → ℕ → Bytes
  | 0, _ => []
  | width + 1, n => UInt8.ofNat (n / 256 ^ width) :: toBe width n

/-- The number a byte string spells. -/
def ofBe (l : Bytes) : ℕ := l.foldl (fun acc b => acc * 256 + b.toNat) 0

@[simp] theorem toBe_length (width n : ℕ) : (toBe width n).length = width := by
  induction width with
  | zero => rfl
  | succ width ih => rw [toBe, List.length_cons, ih]

theorem ofBe_foldl (l : Bytes) (acc : ℕ) :
    l.foldl (fun acc b => acc * 256 + b.toNat) acc = acc * 256 ^ l.length + ofBe l := by
  induction l generalizing acc with
  | nil => simp [ofBe]
  | cons b l ih =>
    have hb : ofBe (b :: l) = (0 * 256 + b.toNat) * 256 ^ l.length + ofBe l := by
      rw [ofBe, List.foldl_cons, ih]
    rw [List.foldl_cons, ih, hb, List.length_cons]
    ring

theorem ofBe_cons (b : UInt8) (l : Bytes) : ofBe (b :: l) = b.toNat * 256 ^ l.length + ofBe l := by
  rw [ofBe, List.foldl_cons, ofBe_foldl, Nat.zero_mul, Nat.zero_add]

/-- **Reading a number back** gives its low bytes. -/
theorem ofBe_toBe (width n : ℕ) : ofBe (toBe width n) = n % 256 ^ width := by
  induction width with
  | zero => rw [pow_zero, Nat.mod_one]; rfl
  | succ width ih =>
    have hdigit : (UInt8.ofNat (n / 256 ^ width)).toNat = n / 256 ^ width % 256 :=
      UInt8.toNat_ofNat
    rw [toBe, ofBe_cons, toBe_length, ih, hdigit, pow_succ, Nat.mod_mul, Nat.mul_comm]
    exact Nat.add_comm _ _

theorem ofBe_toBe_of_lt {width : ℕ} (h : n < 256 ^ width) : ofBe (toBe width n) = n := by
  rw [ofBe_toBe, Nat.mod_eq_of_lt h]

theorem ofBe_toBe_uint64 (x : UInt64) : UInt64.ofNat (ofBe (toBe 8 x.toNat)) = x := by
  rw [ofBe_toBe_of_lt x.toNat_lt, UInt64.ofNat_toNat]

theorem toBe_mul_add : ∀ (width n a : ℕ), toBe width (a * 256 ^ width + n) = toBe width n := by
  intro width
  induction width with
  | zero => exact fun n a => rfl
  | succ width ih =>
    intro n a
    have hsplit : a * 256 ^ (width + 1) + n = a * 256 * 256 ^ width + n := by
      rw [pow_succ]
      ring
    have hdigit : UInt8.ofNat ((a * 256 * 256 ^ width + n) / 256 ^ width) =
        UInt8.ofNat (n / 256 ^ width) := by
      rw [Nat.add_comm, Nat.add_mul_div_right _ _ (Nat.pow_pos (by decide))]
      refine UInt8.toNat_inj.mp ?_
      rw [UInt8.toNat_ofNat', UInt8.toNat_ofNat']
      exact Nat.add_mul_mod_self_right _ _ _
    rw [hsplit, toBe, toBe, ih, hdigit]

/-- **Writing a number back** gives the bytes it was read from. -/
theorem toBe_ofBe (l : Bytes) : toBe l.length (ofBe l) = l := by
  induction l with
  | nil => rfl
  | cons b l ih =>
    have hsmall : ofBe l < 256 ^ l.length := by
      rw [← ih, ofBe_toBe, toBe_length]
      exact Nat.mod_lt _ (Nat.pow_pos (by decide))
    rw [List.length_cons, toBe, ofBe_cons, toBe_mul_add, ih, Nat.add_comm,
      Nat.add_mul_div_right _ _ (Nat.pow_pos (by decide)), Nat.div_eq_of_lt hsmall, Nat.zero_add,
      UInt8.ofNat_toNat]

variable {l : Bytes}

/-- A field holds a number exactly if its bytes are the number's. -/
theorem ofBe_eq_iff {width : ℕ} (hl : l.length = width) (hn : n < 256 ^ width) :
    ofBe l = n ↔ l = toBe width n := by
  constructor
  · intro h
    rw [← h, ← hl, toBe_ofBe]
  · intro h
    rw [h, ofBe_toBe_of_lt hn]

theorem ofNat_ofBe_eq_iff {x : UInt64} (hl : l.length = 8) :
    UInt64.ofNat (ofBe l) = x ↔ l = toBe 8 x.toNat := by
  constructor
  · intro h
    have hsmall : ofBe l < 256 ^ 8 := by
      rw [← toBe_ofBe l, ofBe_toBe, hl]
      exact Nat.mod_lt _ (by decide)
    rw [← h, UInt64.toNat_ofNat', Nat.mod_eq_of_lt (show ofBe l < 2 ^ 64 from hsmall), ← hl, toBe_ofBe]
  · intro h
    rw [h, ofBe_toBe_uint64]

/-- Numbers of one width are told apart by their bytes. -/
theorem toBe_uint64_injective {x y : UInt64} (h : toBe 8 x.toNat = toBe 8 y.toNat) : x = y := by
  rw [← ofBe_toBe_uint64 x, h, ofBe_toBe_uint64]

/-! ### Slices -/

/-- The bytes from offset `i` up to offset `j`. -/
def slice (l : Bytes) (i j : ℕ) : Bytes := (l.drop i).take (j - i)

variable {i j : ℕ}

theorem slice_length (h : j ≤ l.length) : (slice l i j).length = j - i := by
  rw [slice, List.length_take, List.length_drop]
  omega

theorem slice_to_end (h : l.length = j) : slice l i j = l.drop i := by
  rw [slice, List.take_of_length_le]
  rw [List.length_drop]
  omega

/-- The first `j` bytes of a string that starts with them. -/
theorem slice_prefix {a r : Bytes} (h : a.length = j) : slice (a ++ r) 0 j = a := by
  rw [slice, List.drop_zero, Nat.sub_zero, ← h, List.take_left]

theorem slice_skip {a r : Bytes} (h : a.length ≤ i) :
    slice (a ++ r) i j = slice r (i - a.length) (j - a.length) := by
  have hdrop : (a ++ r).drop i = r.drop (i - a.length) := by
    rw [List.drop_append, List.drop_eq_nil_of_le h, List.nil_append]
  rw [slice, slice, hdrop, show j - a.length - (i - a.length) = j - i by omega]

theorem take_slices_drop {k : ℕ} (hij : i ≤ j) (hjk : j ≤ k) :
    l.take i ++ (slice l i j ++ slice l j k) ++ l.drop k = l := by
  have hmid : slice l i j ++ slice l j k = slice l i k := by
    unfold slice
    rw [show k - i = (j - i) + (k - j) by omega, List.take_add, List.drop_drop,
      show i + (j - i) = j by omega]
  have hfront : l.take i ++ slice l i k = l.take k := by
    unfold slice
    rw [show k = i + (k - i) by omega, List.take_add, Nat.add_sub_cancel_left]
  rw [hmid, hfront, List.take_append_drop]

theorem getD_of_slice {x : UInt8} (h : slice l i (i + 1) = [x]) : l.getD i 0 = x := by
  unfold slice at h
  rw [Nat.add_sub_cancel_left] at h
  have hget : l[i]? = some x := by
    have hhead := congrArg List.head? h
    rwa [List.head?_take, if_neg (by omega), List.head?_drop] at hhead
  rw [List.getD_eq_getElem?_getD, hget, Option.getD_some]

/-- **The field lemma.**  The offset of a field is the width of the fields before it. -/
theorem slice_flatten : ∀ (fields : List Bytes) {k : ℕ} {f : Bytes} {i j : ℕ} (rest : Bytes),
    fields[k]? = some f → ((fields.map List.length).take k).sum = i → i + f.length = j →
      slice (fields.flatten ++ rest) i j = f := by
  intro fields
  induction fields with
  | nil => intro k f i j rest h; cases h
  | cons g fields ih =>
    intro k f i j rest h hi hj
    rw [List.flatten_cons, List.append_assoc]
    cases k with
    | zero =>
      obtain rfl : g = f := Option.some.inj h
      obtain rfl : 0 = i := hi
      exact slice_prefix (by omega)
    | succ k =>
      rw [List.map_cons, List.take_succ_cons, List.sum_cons] at hi
      rw [slice_skip (by omega)]
      exact ih rest h (by omega) (by omega)

/-! ### Records -/

/-- The bytes from offset `i` on, cut into pieces of the given widths. -/
def cuts (l : Bytes) : ℕ → List ℕ → List Bytes
  | _, [] => []
  | i, w :: ws => slice l i (i + w) :: cuts l (i + w) ws

theorem flatten_cuts (l : Bytes) : ∀ (ws : List ℕ) (i : ℕ),
    (cuts l i ws).flatten = slice l i (i + ws.sum) := by
  intro ws
  induction ws with
  | nil => intro i; simp [cuts, slice]
  | cons w ws ih =>
    intro i
    rw [cuts, List.flatten_cons, ih, List.sum_cons]
    unfold slice
    rw [show i + (w + ws.sum) - i = (i + w - i) + (i + w + ws.sum - (i + w)) by omega, List.take_add,
      List.drop_drop, show i + (i + w - i) = i + w by omega]

theorem cuts_lengths : ∀ (ws : List ℕ) (i : ℕ), i + ws.sum ≤ l.length →
    (cuts l i ws).map List.length = ws := by
  intro ws
  induction ws with
  | nil => exact fun i _ => rfl
  | cons w ws ih =>
    intro i h
    rw [List.sum_cons] at h
    rw [cuts, List.map_cons, slice_length (by omega), ih (i + w) (by omega), Nat.add_sub_cancel_left]

theorem eq_flatten_iff {fields : List Bytes} {ws : List ℕ} (hwidths : fields.map List.length = ws)
    (hlength : l.length = ws.sum) : l = fields.flatten ↔ cuts l 0 ws = fields := by
  have hflat : (cuts l 0 ws).flatten = l := by
    rw [flatten_cuts, Nat.zero_add, ← hlength, slice, List.drop_zero, Nat.sub_zero, List.take_length]
  rw [List.eq_iff_flatten_eq, hflat, cuts_lengths ws 0 (by omega), hwidths]
  simp

theorem slice_one_eq_iff {x : UInt8} (h : i < l.length) : slice l i (i + 1) = [x] ↔ l.getD i 0 = x := by
  refine ⟨getD_of_slice, fun hx => ?_⟩
  rw [List.getD_eq_getElem?_getD, List.getElem?_eq_getElem h, Option.getD_some] at hx
  rw [slice, Nat.add_sub_cancel_left, List.drop_eq_getElem_cons h, List.take_succ_cons, List.take_zero,
    hx]

/-! ### Pieces of one size -/

section Chunks

variable {α : Type*}

/-- The `i`-th piece of `n` elements; the last one may be shorter. -/
def chunkAt (n : ℕ) (l : List α) (i : ℕ) : List α := (l.drop (i * n)).take n

/-- Division rounded up. -/
def divCeil (a b : ℕ) : ℕ := if a % b > 0 then a / b + 1 else a / b

theorem le_divCeil_mul {a b : ℕ} (hb : 0 < b) : a ≤ divCeil a b * b := by
  have hdiv := Nat.div_add_mod a b
  have hlt := Nat.mod_lt a hb
  rw [Nat.mul_comm] at hdiv
  unfold divCeil
  split
  · rw [Nat.add_mul, Nat.one_mul]
    omega
  · omega

theorem mul_lt_of_lt_divCeil {a b : ℕ} (h : i < divCeil a b) : i * b < a := by
  have hdiv := Nat.div_add_mod a b
  rw [Nat.mul_comm] at hdiv
  unfold divCeil at h
  split at h
  · have hle : i * b ≤ a / b * b := Nat.mul_le_mul_right b (by omega)
    omega
  · have hle : (i + 1) * b ≤ a / b * b := Nat.mul_le_mul_right b h
    rw [Nat.add_mul, Nat.one_mul] at hle
    rcases Nat.eq_zero_or_pos b with rfl | hb
    · simp at h
    · omega

@[simp] theorem chunkAt_length (n : ℕ) (l : List α) (i : ℕ) :
    (chunkAt n l i).length = min n (l.length - i * n) := by
  rw [chunkAt, List.length_take, List.length_drop]

theorem flatten_chunkAt (n : ℕ) (l : List α) (m : ℕ) :
    ((List.range m).map (chunkAt n l)).flatten = l.take (m * n) := by
  induction m with
  | zero => simp
  | succ m ih =>
    rw [List.range_succ, List.map_append, List.flatten_append, ih, Nat.succ_mul, List.take_add]
    simp [chunkAt]

end Chunks

end Wire
