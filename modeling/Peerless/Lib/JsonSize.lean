import Peerless.Lib.Json

/-!
# The size of byte strings in JSON

A byte string is written as the array of its values, so its text is longer than the string, by how much
depends on the values; and a text that is itself put into such an array grows once more.

* `weight` — the digits of every byte and a comma for each; `arrayLength` — proved to be the length of
  the array (`write_bytes_length`).
-/

namespace JsonText

open Text

/-- The number of decimal digits of a byte. -/
def byteDigits (b : UInt8) : ℕ := if b.toNat < 10 then 1 else if b.toNat < 100 then 2 else 3

/-- The digits of every byte, and a comma for each. -/
def weight : Bytes → ℕ
  | [] => 0
  | b :: l => byteDigits b + 1 + weight l

/-- The length of the array of a byte string: two brackets, and one comma less than bytes. -/
def arrayLength (l : Bytes) : ℕ := if l = [] then 2 else weight l + 1

theorem decimal_length_of_lt : ∀ n < 256, (decimal n).length = byteDigits (UInt8.ofNat n) := by
  decide +kernel

theorem decimal_length_byte (b : UInt8) : (decimal b.toNat).length = byteDigits b := by
  rw [decimal_length_of_lt b.toNat b.toNat_lt, UInt8.ofNat_toNat]

@[simp] theorem weight_append (l m : Bytes) : weight (l ++ m) = weight l + weight m := by
  induction l with
  | nil => simp [weight]
  | cons b l ih =>
    simp only [List.cons_append, weight, ih]
    omega

theorem two_mul_length_le_weight (l : Bytes) : 2 * l.length ≤ weight l := by
  induction l with
  | nil => exact Nat.le_refl 0
  | cons b l ih =>
    have hdigits : 1 ≤ byteDigits b := by
      unfold byteDigits
      split_ifs <;> omega
    rw [List.length_cons, weight]
    omega

theorem two_mul_length_le_arrayLength (l : Bytes) : 2 * l.length ≤ arrayLength l := by
  have hweight := two_mul_length_le_weight l
  unfold arrayLength
  split_ifs with h
  · rw [h]
    exact Nat.zero_le 2
  · omega

theorem weight_le (l : Bytes) : weight l ≤ 4 * l.length := by
  induction l with
  | nil => exact Nat.le_refl 0
  | cons b l ih =>
    have hdigits : byteDigits b ≤ 3 := by
      unfold byteDigits
      split_ifs <;> omega
    rw [weight, List.length_cons]
    omega

theorem arrayLength_le (l : Bytes) : arrayLength l ≤ 4 * l.length + 2 := by
  have hweight := weight_le l
  unfold arrayLength
  split_ifs <;> omega

/-! ### The array of a byte string -/

theorem writeElems_length (l : Bytes) :
    (writeElems (l.map fun b => .num (natToken b.toNat))).length = weight l + 1 := by
  induction l with
  | nil => rfl
  | cons b l ih =>
    have hb : (write (.num (natToken b.toNat))).length = byteDigits b := by
      rw [write]
      exact decimal_length_byte b
    rw [List.map_cons, writeElems, List.length_cons, List.length_append, ih, hb, weight]
    omega

theorem write_bytes_length (l : Bytes) : (write (bytes l)).length = arrayLength l := by
  cases l with
  | nil => rfl
  | cons b l =>
    have hb : (write (.num (natToken b.toNat))).length = byteDigits b := by
      rw [write]
      exact decimal_length_byte b
    rw [bytes, List.map_cons, write, List.length_cons, List.length_append, writeElems_length, hb,
      arrayLength, if_neg (List.cons_ne_nil b l), weight]
    omega

/-! ### Texts inside an array -/

/-- Every byte of the text has two digits. -/
def Narrow (text : Bytes) : Prop := ∀ c ∈ text, 10 ≤ c.toNat ∧ c.toNat < 100

theorem weight_of_narrow {text : Bytes} (h : Narrow text) : weight text = 3 * text.length := by
  induction text with
  | nil => rfl
  | cons c text ih =>
    obtain ⟨hlow, hhigh⟩ := h c List.mem_cons_self
    have hdigits : byteDigits c = 2 := by
      unfold byteDigits
      rw [if_neg (by omega), if_pos hhigh]
    rw [weight, ih fun d hd => h d (List.mem_cons_of_mem c hd), hdigits, List.length_cons]
    omega

theorem narrow_cons {c : UInt8} {text : Bytes} (hc : 10 ≤ c.toNat ∧ c.toNat < 100) (h : Narrow text) :
    Narrow (c :: text) := by
  intro d hd
  rcases List.mem_cons.mp hd with rfl | hd
  · exact hc
  · exact h d hd

theorem narrow_append {text rest : Bytes} (h : Narrow text) (h' : Narrow rest) : Narrow (text ++ rest) := by
  intro d hd
  rcases List.mem_append.mp hd with hd | hd
  · exact h d hd
  · exact h' d hd

theorem narrow_number (n : ℕ) : Narrow (write (.num (natToken n))) := by
  intro c hc
  rw [write] at hc
  have hdigit := decimal_isDigit n c hc
  simp only [isDigit, Bool.and_eq_true, decide_eq_true_eq, UInt8.le_iff_toNat_le] at hdigit
  have hlow : (48 : UInt8).toNat = 48 := rfl
  have hhigh : (57 : UInt8).toNat = 57 := rfl
  omega

theorem narrow_elems (l : Bytes) : Narrow (writeElems (l.map fun b => .num (natToken b.toNat))) := by
  induction l with
  | nil => exact narrow_cons (by decide) fun _ h => absurd h List.not_mem_nil
  | cons b l ih =>
    rw [List.map_cons, writeElems]
    exact narrow_cons (by decide) (narrow_append (narrow_number _) ih)

/-- **The text of a byte string is narrow**: brackets, commas and digits. -/
theorem write_bytes_narrow (l : Bytes) : Narrow (write (bytes l)) := by
  cases l with
  | nil => exact narrow_cons (by decide) (narrow_cons (by decide) fun _ h => absurd h List.not_mem_nil)
  | cons b l =>
    rw [bytes, List.map_cons, write]
    exact narrow_cons (by decide) (narrow_append (narrow_number _) (narrow_elems l))

/-- **The text of a byte string inside another array.** -/
theorem weight_write_bytes (l : Bytes) : weight (write (bytes l)) = 3 * arrayLength l := by
  rw [weight_of_narrow (write_bytes_narrow l), write_bytes_length]

end JsonText
