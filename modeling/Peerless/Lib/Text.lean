import Mathlib.Data.List.Lex
import Mathlib.Data.List.TakeWhile
import Mathlib.Order.Basic
import Mathlib.Tactic.Ring

/-!
# Bytes, decimal numerals and hexadecimal digits

The textual fabric under every encoding of the development, over plain byte lists:

* `decimal` / `zeroPadded` — decimal numerals, bare and left-padded with zeros.  Both are injective,
  and padding to a fixed width turns the numeric order into the lexicographic one
  (`zeroPadded_lt`), which is what makes sorting file names sort by number.

Nothing here mentions a particular program.
-/

namespace Text

abbrev Bytes := List UInt8

instance linearOrderUInt8 : LinearOrder UInt8 where
  le_refl := fun _ => UInt8.le_refl _
  le_trans := fun _ _ _ => UInt8.le_trans
  le_antisymm := fun _ _ => UInt8.le_antisymm
  le_total := UInt8.le_total
  lt_iff_le_not_ge := fun a b => by
    rw [UInt8.lt_iff_toNat_lt, UInt8.le_iff_toNat_le, UInt8.le_iff_toNat_le]
    omega
  toDecidableLE := inferInstance
  toDecidableLT := inferInstance
  toDecidableEq := inferInstance

/-- The UTF-8 bytes of a string. -/
def utf8 (s : String) : Bytes := s.toByteArray.data.toList

theorem utf8_injective {s t : String} (h : utf8 s = utf8 t) : s = t := by
  unfold utf8 at h
  have hd : s.toByteArray.data = t.toByteArray.data := Array.toList_inj.mp h
  have hb : s.toByteArray = t.toByteArray := ByteArray.ext hd
  exact String.toByteArray_inj.mp hb

/-- The bytes are well-formed UTF-8. -/
def isUtf8 (b : Bytes) : Bool := ByteArray.validateUTF8 b.toByteArray

theorem utf8EncodeChar_ascii : ∀ n, n < 128 →
    String.utf8EncodeChar (Char.ofNat n) = [UInt8.ofNat n] := by decide

theorem isUtf8_of_ascii (b : Bytes) (hb : ∀ x ∈ b, x.toNat < 128) : isUtf8 b = true := by
  refine ByteArray.validateUTF8_eq_true_iff.mpr ⟨b.map fun x => Char.ofNat x.toNat, ?_⟩
  refine congrArg List.toByteArray ?_
  induction b with
  | nil => rfl
  | cons x b ih =>
    rw [List.map_cons, List.flatMap_cons, utf8EncodeChar_ascii _ (hb x List.mem_cons_self),
      UInt8.ofNat_toNat, ← ih fun y hy => hb y (List.mem_cons_of_mem _ hy)]
    rfl

/-! ### Decimal numerals -/

/-- An ASCII decimal digit. -/
def isDigit (b : UInt8) : Bool := 48 ≤ b && b ≤ 57

/-- The shortest decimal numeral of `n`, as ASCII bytes. -/
def decimal (n : ℕ) : Bytes := (Nat.toDigits 10 n).map fun c => UInt8.ofNat c.toNat

theorem decimal_ne_nil (n : ℕ) : decimal n ≠ [] := by
  intro h
  exact Nat.toDigits_ne_nil (List.map_eq_nil_iff.mp h)

theorem digitChar_toNat {c : Char} (hc : c.isDigit) : 48 ≤ c.toNat ∧ c.toNat ≤ 57 := by
  simp only [Char.isDigit, Bool.and_eq_true, decide_eq_true_eq, UInt32.le_iff_toNat_le] at hc
  exact hc

theorem decimal_isDigit (n : ℕ) : ∀ b ∈ decimal n, isDigit b = true := by
  intro b hb
  obtain ⟨c, hc, rfl⟩ := List.mem_map.mp hb
  obtain ⟨hlo, hhi⟩ := digitChar_toNat (Nat.isDigit_of_mem_toDigits (by decide) (by decide) hc)
  have hn : (UInt8.ofNat c.toNat).toNat = c.toNat := UInt8.toNat_ofNat_of_lt' (by
    change c.toNat < 256; omega)
  simp only [isDigit, Bool.and_eq_true, decide_eq_true_eq, UInt8.le_iff_toNat_le, hn]
  exact ⟨hlo, hhi⟩

/-- The value read off a digit string, most significant digit first. -/
def digitsValue (l : Bytes) : ℕ := l.foldl (fun acc b => 10 * acc + (b.toNat - 48)) 0

theorem digitsValue_foldl (l : Bytes) (acc : ℕ) :
    l.foldl (fun acc b => 10 * acc + (b.toNat - 48)) acc = 10 ^ l.length * acc + digitsValue l := by
  induction l generalizing acc with
  | nil => simp [digitsValue]
  | cons b l ih =>
    have hb : digitsValue (b :: l) = 10 ^ l.length * (10 * 0 + (b.toNat - 48)) + digitsValue l := by
      rw [digitsValue, List.foldl_cons, ih]
    rw [List.foldl_cons, ih, hb, List.length_cons]
    ring

theorem digitsValue_cons (b : UInt8) (l : Bytes) :
    digitsValue (b :: l) = 10 ^ l.length * (b.toNat - 48) + digitsValue l := by
  rw [digitsValue, List.foldl_cons, digitsValue_foldl]
  simp

theorem digitsValue_decimal (n : ℕ) : digitsValue (decimal n) = n := by
  have key : ∀ (l : List Char) (acc : ℕ), (∀ c ∈ l, c.isDigit) →
      (l.map fun c => UInt8.ofNat c.toNat).foldl (fun acc b => 10 * acc + (b.toNat - 48)) acc
        = Nat.ofDigitChars 10 l acc := by
    intro l
    induction l with
    | nil => intro acc _; rfl
    | cons c l ih =>
      intro acc hl
      obtain ⟨hlo, hhi⟩ := digitChar_toNat (hl c List.mem_cons_self)
      have hn : (UInt8.ofNat c.toNat).toNat = c.toNat := UInt8.toNat_ofNat_of_lt' (by
        change c.toNat < 256; omega)
      rw [List.map_cons, List.foldl_cons, hn, ih _ (fun c' hc' => hl c' (List.mem_cons_of_mem _ hc'))]
      rfl
  rw [digitsValue, decimal, key _ 0 fun c hc => Nat.isDigit_of_mem_toDigits (by decide) (by decide) hc]
  exact Nat.ofDigitChars_ten_toDigits

variable {n : ℕ}

theorem decimal_injective {m : ℕ} (h : decimal n = decimal m) : n = m := by
  rw [← digitsValue_decimal n, h, digitsValue_decimal]

theorem decimal_length_le {k : ℕ} (hk : 0 < k) (h : n < 10 ^ k) : (decimal n).length ≤ k := by
  rw [decimal, List.length_map]
  exact (Nat.length_toDigits_le_iff (by decide) hk).mpr h

/-! ### Fixed-width numerals -/

/-- `n` in decimal, left-padded with zeros to at least `width` digits. -/
def zeroPadded (width n : ℕ) : Bytes :=
  List.replicate (width - (decimal n).length) 48 ++ decimal n

theorem zeroPadded_isDigit (width n : ℕ) : ∀ b ∈ zeroPadded width n, isDigit b = true := by
  intro b hb
  rcases List.mem_append.mp hb with h | h
  · rw [List.eq_of_mem_replicate h]
    decide
  · exact decimal_isDigit n b h

theorem zeroPadded_length {width : ℕ} (hw : 0 < width) (h : n < 10 ^ width) :
    (zeroPadded width n).length = width := by
  have hl := decimal_length_le hw h
  rw [zeroPadded, List.length_append, List.length_replicate]
  omega

theorem digitsValue_zeroPadded (width n : ℕ) : digitsValue (zeroPadded width n) = n := by
  have hz : ∀ k l, digitsValue (List.replicate k 48 ++ l) = digitsValue l := by
    intro k l
    induction k with
    | zero => rfl
    | succ k ih => rw [List.replicate_succ, List.cons_append, digitsValue_cons, ih]; simp
  rw [zeroPadded, hz, digitsValue_decimal]

theorem digitsValue_lt (l : Bytes) (hl : ∀ b ∈ l, isDigit b = true) :
    digitsValue l < 10 ^ l.length := by
  induction l with
  | nil => simp [digitsValue]
  | cons b l ih =>
    have ht := ih fun c hc => hl c (List.mem_cons_of_mem _ hc)
    have hb := hl b List.mem_cons_self
    simp only [isDigit, Bool.and_eq_true, decide_eq_true_eq, UInt8.le_iff_toNat_le] at hb
    have h9 : b.toNat - 48 ≤ 9 := by
      have := hb.2
      change b.toNat ≤ 57 at this
      omega
    rw [digitsValue_cons, List.length_cons, pow_succ]
    have hmul := Nat.mul_le_mul_left (10 ^ l.length) h9
    omega

/-- Digit strings of one length are ordered lexicographically as their values are. -/
theorem lt_of_digitsValue_lt : ∀ (x y : Bytes), x.length = y.length →
    (∀ b ∈ x, isDigit b = true) → (∀ b ∈ y, isDigit b = true) →
    digitsValue x < digitsValue y → x < y := by
  intro x
  induction x with
  | nil =>
    intro y hlen _ _ hlt
    rw [List.length_eq_zero_iff.mp hlen.symm] at hlt
    exact absurd hlt (Nat.lt_irrefl _)
  | cons a x ih =>
    intro y hlen hx hy hlt
    cases y with
    | nil => simp at hlen
    | cons b y =>
      have hlen' : x.length = y.length := by simpa using hlen
      have hx' : ∀ c ∈ x, isDigit c = true := fun c hc => hx c (List.mem_cons_of_mem _ hc)
      have hy' : ∀ c ∈ y, isDigit c = true := fun c hc => hy c (List.mem_cons_of_mem _ hc)
      rw [digitsValue_cons, digitsValue_cons, hlen'] at hlt
      rw [List.cons_lt_cons_iff]
      rcases lt_trichotomy a b with hab | rfl | hab
      · exact Or.inl hab
      · exact Or.inr ⟨rfl, ih y hlen' hx' hy' (by omega)⟩
      · -- a larger leading digit outweighs everything the tail can hold
        exfalso
        have hb := hy b List.mem_cons_self
        simp only [isDigit, Bool.and_eq_true, decide_eq_true_eq, UInt8.le_iff_toNat_le] at hb
        have hb48 : 48 ≤ b.toNat := hb.1
        rw [UInt8.lt_iff_toNat_lt] at hab
        have hle : b.toNat - 48 + 1 ≤ a.toNat - 48 := by omega
        have hmul := Nat.mul_le_mul_left (10 ^ y.length) hle
        have hty := digitsValue_lt y hy'
        rw [Nat.mul_add, Nat.mul_one] at hmul
        omega

/-- **Fixed width turns numeric order into lexicographic order.** -/
theorem zeroPadded_lt {width m : ℕ} (hw : 0 < width) (hm : m < 10 ^ width) (h : n < m) :
    zeroPadded width n < zeroPadded width m := by
  apply lt_of_digitsValue_lt _ _ _ (zeroPadded_isDigit _ _) (zeroPadded_isDigit _ _)
  · rw [digitsValue_zeroPadded, digitsValue_zeroPadded]
    exact h
  · rw [zeroPadded_length hw (h.trans hm), zeroPadded_length hw hm]

/-- A strict lexicographic inequality between lists of one length survives any suffixes. -/
theorem append_lt_append : ∀ (x y s t : Bytes), x.length = y.length → x < y → x ++ s < y ++ t := by
  intro x
  induction x with
  | nil =>
    intro y s t hlen hlt
    rw [List.length_eq_zero_iff.mp hlen.symm] at hlt
    exact absurd hlt (lt_irrefl _)
  | cons a x ih =>
    intro y s t hlen hlt
    cases y with
    | nil => simp at hlen
    | cons b y =>
      rw [List.cons_lt_cons_iff] at hlt
      rw [List.cons_append, List.cons_append, List.cons_lt_cons_iff]
      rcases hlt with hab | ⟨rfl, hxy⟩
      · exact Or.inl hab
      · exact Or.inr ⟨rfl, ih y s t (by simpa using hlen) hxy⟩

/-! ### Codes -/

section Codes

variable {α β : Type*} {code : α → List β}

/-- Every code word can be told from what follows it. -/
def Decodes (code : α → List β) : Prop :=
  ∀ ⦃a b : α⦄ ⦃r r' : List β⦄, code a ++ r = code b ++ r' → a = b ∧ r = r'

/-- No code word starts here. -/
def Stops (code : α → List β) (t : List β) : Prop := ∀ a r, code a ++ r ≠ t

theorem stops_nil (h : ∀ a, code a ≠ []) : Stops code [] := by
  intro a r hnil
  exact h a (List.append_eq_nil_iff.mp hnil).1

/-- **Code words one after the other, up to where they stop, can be read in one way only.** -/
theorem Decodes.unique (h : Decodes code) : ∀ {x y : List α} {t t' : List β}, Stops code t → Stops code t' →
    x.flatMap code ++ t = y.flatMap code ++ t' → x = y ∧ t = t' := by
  intro x
  induction x with
  | nil =>
    intro y t t' ht _ heq
    cases y with
    | nil => exact ⟨rfl, heq⟩
    | cons b y =>
      rw [List.flatMap_cons, List.append_assoc] at heq
      exact absurd heq.symm (ht b _)
  | cons a x ih =>
    intro y t t' ht ht' heq
    cases y with
    | nil =>
      rw [List.flatMap_cons, List.append_assoc] at heq
      exact absurd heq (ht' a _)
    | cons b y =>
      rw [List.flatMap_cons, List.flatMap_cons, List.append_assoc, List.append_assoc] at heq
      obtain ⟨hab, hrest⟩ := h heq
      obtain ⟨hxy, htt⟩ := ih ht ht' hrest
      exact ⟨by rw [hab, hxy], htt⟩

theorem Decodes.flatMap_injective (h : Decodes code) (hne : ∀ a, code a ≠ []) {x y : List α}
    (heq : x.flatMap code = y.flatMap code) : x = y := by
  refine (h.unique (stops_nil hne) (stops_nil hne) ?_).1
  rw [List.append_nil, List.append_nil]
  exact heq

end Codes

/-! ### Hexadecimal -/

/-- The lower-case hexadecimal digit of a nibble. -/
def hexDigit (n : ℕ) : UInt8 := if n < 10 then UInt8.ofNat (48 + n) else UInt8.ofNat (87 + n)

/-- The nibble of a lower-case hexadecimal digit. -/
def unhex (b : UInt8) : ℕ := if b ≤ 57 then b.toNat - 48 else b.toNat - 87

theorem unhex_hexDigit : ∀ n, n < 16 → unhex (hexDigit n) = n := by decide

/-- Two hexadecimal digits of a byte, most significant first. -/
def hexByte (b : UInt8) : Bytes := [hexDigit (b.toNat / 16), hexDigit (b.toNat % 16)]

theorem hexByte_injective {a b : UInt8} (h : hexByte a = hexByte b) : a = b := by
  have hhigh := congrArg unhex (List.cons.inj h).1
  have hlow := congrArg unhex (List.cons.inj (List.cons.inj h).2).1
  have ha := a.toNat_lt
  have hb := b.toNat_lt
  rw [unhex_hexDigit _ (by omega), unhex_hexDigit _ (by omega)] at hhigh hlow
  exact UInt8.toNat_inj.mp (by omega)

theorem hexByte_decodes : Decodes hexByte := by
  intro a b r r' h
  obtain ⟨hhead, hrest⟩ := List.append_inj h rfl
  exact ⟨hexByte_injective hhead, hrest⟩

theorem flatMap_hexByte_injective (a b : Bytes) (h : a.flatMap hexByte = b.flatMap hexByte) : a = b :=
  hexByte_decodes.flatMap_injective (fun _ => List.cons_ne_nil _ _) h

theorem hexDigit_ge : ∀ n, n < 16 → 48 ≤ (hexDigit n).toNat := by decide

theorem hex_ge {b : Bytes} {x : UInt8} (h : x ∈ b.flatMap hexByte) : 48 ≤ x.toNat := by
  obtain ⟨y, _, hx⟩ := List.mem_flatMap.mp h
  have hy := y.toNat_lt
  rcases List.mem_cons.mp hx with rfl | hx
  · exact hexDigit_ge _ (by omega)
  · rw [List.mem_singleton.mp hx]
    exact hexDigit_ge _ (by omega)

end Text
