import Peerless.Lib.Wire

/-!
# Byte buffers with checked access

Reads, writes and subtractions that stop the program when they leave their range; `none` is the stop.

* `writeAll_zeros` — **the layout lemma**: copying fields into a zeroed buffer at ascending places does not
  stop, and yields the fields with zero bytes in the gaps (`spread`).
-/

namespace Buffer

open Text Wire

/-! ### Reading -/

/-- The bytes from offset `i` up to offset `j`. -/
def read (l : Bytes) (i j : ℕ) : Option Bytes := if i ≤ j ∧ j ≤ l.length then some (slice l i j) else none

/-- The byte at an offset. -/
def byte (l : Bytes) (i : ℕ) : Option UInt8 := if i < l.length then some (l.getD i 0) else none

/-- A string taken as one of a fixed size. -/
def sized (n : ℕ) (l : Bytes) : Option (Octets n) := if h : l.length = n then some ⟨l, h⟩ else none

/-- A subtraction of unsigned numbers. -/
def minus (a b : ℕ) : Option ℕ := if b ≤ a then some (a - b) else none

variable {l : Bytes} {i j : ℕ}

theorem read_eq (hij : i ≤ j) (hj : j ≤ l.length) : read l i j = some (slice l i j) :=
  if_pos ⟨hij, hj⟩

theorem read_to_end (hij : i ≤ j) (hj : l.length = j) : read l i j = some (l.drop i) := by
  rw [read_eq hij (by omega), slice_to_end hj]

theorem byte_eq (h : i < l.length) : byte l i = some (l.getD i 0) := if_pos h

variable {n : ℕ}

theorem sized_eq (h : l.length = n) : sized n l = some ⟨l, h⟩ := dif_pos h

theorem minus_eq {a b : ℕ} (h : b ≤ a) : minus a b = some (a - b) := if_pos h

theorem slice_two (h : i + 2 ≤ l.length) : slice l i (i + 2) = [l.getD i 0, l.getD (i + 1) 0] := by
  have hget : ∀ k (hk : k < l.length), l.getD k 0 = l[k] := by
    intro k hk
    rw [List.getD_eq_getElem?_getD, List.getElem?_eq_getElem hk, Option.getD_some]
  rw [slice, Nat.add_sub_cancel_left, List.drop_eq_getElem_cons (by omega),
    List.drop_eq_getElem_cons (by omega), List.take_succ_cons, List.take_succ_cons, List.take_zero,
    hget i (by omega), hget (i + 1) (by omega)]

/-! ### Writing -/

/-- A string copied over the bytes from offset `i` up to offset `j`: the place has to lie in the buffer and
to be as long as the string. -/
def write (buffer : Bytes) (i j : ℕ) (field : Bytes) : Option Bytes :=
  if i ≤ j ∧ j ≤ buffer.length ∧ j - i = field.length then
    some (buffer.take i ++ (field ++ buffer.drop j))
  else none

/-- Several copies, one after the other. -/
def writeAll (buffer : Bytes) : List (ℕ × ℕ × Bytes) → Option Bytes
  | [] => some buffer
  | (i, j, field) :: writes => (write buffer i j field).bind fun buffer => writeAll buffer writes

/-- The fields of a list of copies, with the zero bytes that stay between them up to the size `n`. -/
def spread (n : ℕ) : ℕ → List (ℕ × ℕ × Bytes) → List Bytes
  | start, [] => [List.replicate (n - start) 0]
  | start, (i, j, field) :: writes => List.replicate (i - start) 0 :: field :: spread n j writes

/-- Copies to places that ascend from `start`, do not overlap, are as long as their fields and end before
the size `n`. -/
def Ascends (n : ℕ) : ℕ → List (ℕ × ℕ × Bytes) → Prop
  | start, [] => start ≤ n
  | start, (i, j, field) :: writes => start ≤ i ∧ i + field.length = j ∧ Ascends n j writes

theorem Ascends.le : ∀ {writes : List (ℕ × ℕ × Bytes)} {start : ℕ}, Ascends n start writes →
    start ≤ n := by
  intro writes
  induction writes with
  | nil => exact fun h => h
  | cons w writes ih =>
    intro start h
    have hrest := ih h.2.2
    have hfirst := h.1
    have hwidth := h.2.1
    omega

theorem write_zeros (front : Bytes) {field : Bytes} (hi : front.length ≤ i) (hj : i + field.length = j)
    (hn : j ≤ n) :
    write (front ++ List.replicate (n - front.length) 0) i j field =
      some ((front ++ (List.replicate (i - front.length) 0 ++ field)) ++ List.replicate (n - j) 0) := by
  have hlength : (front ++ List.replicate (n - front.length) (0 : UInt8)).length = n := by
    rw [List.length_append, List.length_replicate]
    omega
  have htake : (front ++ List.replicate (n - front.length) (0 : UInt8)).take i =
      front ++ List.replicate (i - front.length) 0 := by
    rw [List.take_append, List.take_of_length_le hi, List.take_replicate, Nat.min_eq_left (by omega)]
  have hdrop : (front ++ List.replicate (n - front.length) (0 : UInt8)).drop j =
      List.replicate (n - j) 0 := by
    rw [List.drop_append, List.drop_of_length_le (by omega), List.drop_replicate, List.nil_append]
    congr 1
    omega
  rw [write, if_pos ⟨by omega, by omega, by omega⟩, htake, hdrop]
  simp only [List.append_assoc]

/-- Copies behind a front that is already written. -/
theorem writeAll_front : ∀ {writes : List (ℕ × ℕ × Bytes)} (front : Bytes),
    Ascends n front.length writes →
      writeAll (front ++ List.replicate (n - front.length) 0) writes =
        some (front ++ (spread n front.length writes).flatten) := by
  intro writes
  induction writes with
  | nil =>
    intro front _
    simp [writeAll, spread]
  | cons w writes ih =>
    obtain ⟨i, j, field⟩ := w
    intro front h
    have hfront : (front ++ (List.replicate (i - front.length) (0 : UInt8) ++ field)).length = j := by
      rw [List.length_append, List.length_append, List.length_replicate]
      have hfirst := h.1
      have hwidth := h.2.1
      omega
    have hrest := ih (front ++ (List.replicate (i - front.length) 0 ++ field))
      (by rw [hfront]; exact h.2.2)
    rw [hfront] at hrest
    rw [writeAll, write_zeros front h.1 h.2.1 h.2.2.le, Option.bind_some, hrest]
    simp [spread]

theorem writeAll_zeros {writes : List (ℕ × ℕ × Bytes)} (h : Ascends n 0 writes) :
    writeAll (List.replicate n 0) writes = some (spread n 0 writes).flatten :=
  writeAll_front [] h

end Buffer
