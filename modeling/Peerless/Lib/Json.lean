import Peerless.Lib.Text

/-!
# JSON text: compact and indented writers, and unique readability

Values of the JSON data model and the two writers every encoder of the development goes through:

* `write_unique` — a compact text, followed by anything that does not continue a
  number, determines the value and the rest.  In particular `write` is injective
  (`write_injective`): two values with one text are one value.

Numbers are kept as *tokens* (`NumToken`), so that integer and floating-point numerals share one
reading rule: a token ends at the first byte that cannot belong to a number.
-/

namespace JsonText

open Text

/-- The bytes a JSON number may be made of. -/
def isNumByte (b : UInt8) : Bool := isDigit b || b == 43 || b == 45 || b == 46 || b == 69 || b == 101

/-- A number token: a non-empty run of number bytes. -/
structure NumToken where
  text : Bytes
  ne_nil : text ≠ []
  isNum : ∀ b ∈ text, isNumByte b = true

theorem NumToken.ext_text {t u : NumToken} (h : t.text = u.text) : t = u := by
  cases t
  cases u
  simp only [NumToken.mk.injEq]
  exact h

/-- The token of a natural number. -/
def natToken (n : ℕ) : NumToken where
  text := decimal n
  ne_nil := decimal_ne_nil n
  isNum := fun b hb => by simp [isNumByte, decimal_isDigit n b hb]

theorem natToken_injective {n m : ℕ} (h : natToken n = natToken m) : n = m :=
  decimal_injective (congrArg NumToken.text h)

inductive Json where
  | null
  | bool (b : Bool)
  | num (t : NumToken)
  | str (s : String)
  | arr (xs : List Json)
  | obj (fs : List (String × Json))

/-! ### Strings -/

/-- One byte of a string as it stands between the quotes: the two mandatory escapes, the five
short ones, a `\u00XX` for the other control bytes, every other byte as itself. -/
def escapeByte (b : UInt8) : Bytes :=
  if b = 34 then [92, 34]
  else if b = 92 then [92, 92]
  else if b = 8 then [92, 98]
  else if b = 9 then [92, 116]
  else if b = 10 then [92, 110]
  else if b = 12 then [92, 102]
  else if b = 13 then [92, 114]
  else if b < 32 then [92, 117, 48, 48] ++ hexByte b
  else [b]

/-- A quoted string. -/
def writeStr (s : String) : Bytes := 34 :: (utf8 s).flatMap escapeByte ++ [34]

/-- Reads one escaped byte. -/
def readEscape : Bytes → Option (UInt8 × Bytes)
  | [] => none
  | a :: r =>
    if a = 92 then
      match r with
      | [] => none
      | c :: r =>
        if c = 34 then some (34, r)
        else if c = 92 then some (92, r)
        else if c = 98 then some (8, r)
        else if c = 116 then some (9, r)
        else if c = 110 then some (10, r)
        else if c = 102 then some (12, r)
        else if c = 114 then some (13, r)
        else
          match r with
          | _ :: _ :: x :: y :: r => some (UInt8.ofNat (16 * unhex x + unhex y), r)
          | _ => none
    else some (a, r)

theorem readEscape_escapeByte (b : UInt8) (r : Bytes) :
    readEscape (escapeByte b ++ r) = some (b, r) := by
  have hb : b.toNat < 256 := b.toNat_lt
  unfold escapeByte
  split_ifs with h1 h2 h3 h4 h5 h6 h7 h8
  · subst h1; rfl
  · subst h2; rfl
  · subst h3; rfl
  · subst h4; rfl
  · subst h5; rfl
  · subst h6; rfl
  · subst h7; rfl
  · show some (UInt8.ofNat (16 * unhex (hexDigit (b.toNat / 16)) + unhex (hexDigit (b.toNat % 16))), r)
      = some (b, r)
    rw [unhex_hexDigit _ (by omega), unhex_hexDigit _ (by omega),
      show 16 * (b.toNat / 16) + b.toNat % 16 = b.toNat by omega, UInt8.ofNat_toNat]
  · simp [readEscape, h2]

theorem escapeByte_decodes : Decodes escapeByte := by
  intro a b r r' h
  have ha := readEscape_escapeByte a r
  rw [h, readEscape_escapeByte] at ha
  simp only [Option.some.injEq, Prod.mk.injEq] at ha
  exact ⟨ha.1.symm, ha.2.symm⟩

/-- No escape starts with a quote, so the closing quote is never read as content. -/
theorem escapeByte_stops (r : Bytes) : Stops escapeByte (34 :: r) := by
  intro b rest h
  unfold escapeByte at h
  split_ifs at h with h1
  all_goals simp only [List.cons_append, List.nil_append, List.cons.injEq] at h
  all_goals first
    | exact absurd h.1 (by decide)
    | exact h1 h.1

theorem writeStr_unique {s t : String} {r r' : Bytes} (h : writeStr s ++ r = writeStr t ++ r') :
    s = t ∧ r = r' := by
  simp only [writeStr, List.cons_append, List.append_assoc, List.nil_append, List.cons.injEq,
    true_and] at h
  obtain ⟨hst, hr⟩ := escapeByte_decodes.unique (escapeByte_stops r) (escapeByte_stops r') h
  exact ⟨utf8_injective hst, (List.cons.inj hr).2⟩

/-! ### The compact writer -/

mutual

/-- The compact text of a value. -/
def write : Json → Bytes
  | .null => [110, 117, 108, 108]
  | .bool true => [116, 114, 117, 101]
  | .bool false => [102, 97, 108, 115, 101]
  | .num t => t.text
  | .str s => writeStr s
  | .arr [] => [91, 93]
  | .arr (x :: xs) => 91 :: (write x ++ writeElems xs)
  | .obj [] => [123, 125]
  | .obj ((k, x) :: fs) => 123 :: (writeStr k ++ 58 :: (write x ++ writeFields fs))

/-- The later elements of an array, each behind its comma, and the closing bracket. -/
def writeElems : List Json → Bytes
  | [] => [93]
  | x :: xs => 44 :: (write x ++ writeElems xs)

/-- The later members of an object, each behind its comma, and the closing brace. -/
def writeFields : List (String × Json) → Bytes
  | [] => [125]
  | (k, x) :: fs => 44 :: (writeStr k ++ 58 :: (write x ++ writeFields fs))

end

/-- `r` does not continue a number. -/
def Delimited (r : Bytes) : Prop := r.takeWhile isNumByte = []

theorem delimited_nil : Delimited [] := rfl

theorem delimited_cons {b : UInt8} {r : Bytes} (h : isNumByte b = false) : Delimited (b :: r) := by
  simp [Delimited, h]

theorem numToken_takeWhile (t : NumToken) {r : Bytes} (h : Delimited r) :
    (t.text ++ r).takeWhile isNumByte = t.text := by
  rw [List.takeWhile_append_of_pos t.isNum, h, List.append_nil]

theorem numToken_unique {t u : NumToken} {r r' : Bytes} (hr : Delimited r) (hr' : Delimited r')
    (h : t.text ++ r = u.text ++ r') : t = u ∧ r = r' := by
  have ht := numToken_takeWhile t hr
  rw [h, numToken_takeWhile u hr'] at ht
  refine ⟨NumToken.ext_text ht.symm, ?_⟩
  rw [ht] at h
  exact List.append_cancel_left h

/-- What the first byte of a text says about the value. -/
inductive Kind where
  | null | bool | num | str | arr | obj
  deriving DecidableEq

def kindOfByte (b : UInt8) : Option Kind :=
  if b = 110 then some .null
  else if b = 116 ∨ b = 102 then some .bool
  else if b = 34 then some .str
  else if b = 91 then some .arr
  else if b = 123 then some .obj
  else if isNumByte b then some .num
  else none

def kind : Json → Kind
  | .null => .null
  | .bool _ => .bool
  | .num _ => .num
  | .str _ => .str
  | .arr _ => .arr
  | .obj _ => .obj

theorem kindOfByte_num {b : UInt8} (h : isNumByte b = true) : kindOfByte b = some .num := by
  have hne : ∀ c : UInt8, isNumByte c = false → b ≠ c := by
    intro c hc hbc
    rw [hbc, hc] at h
    exact Bool.noConfusion h
  unfold kindOfByte
  rw [if_neg (hne 110 (by decide)), if_neg, if_neg (hne 34 (by decide)), if_neg (hne 91 (by decide)),
    if_neg (hne 123 (by decide)), if_pos h]
  rintro (h' | h')
  · exact hne 116 (by decide) h'
  · exact hne 102 (by decide) h'

theorem write_head (v : Json) : ∃ b l, write v = b :: l ∧ kindOfByte b = some (kind v) := by
  cases v with
  | null => exact ⟨110, _, rfl, rfl⟩
  | bool b =>
    cases b
    · exact ⟨102, _, rfl, rfl⟩
    · exact ⟨116, _, rfl, rfl⟩
  | num t =>
    cases htext : t.text with
    | nil => exact absurd htext t.ne_nil
    | cons b l =>
      refine ⟨b, l, by rw [write, htext], kindOfByte_num (t.isNum b ?_)⟩
      rw [htext]
      exact List.mem_cons_self
  | str s => exact ⟨34, _, rfl, rfl⟩
  | arr xs =>
    cases xs
    · exact ⟨91, _, rfl, rfl⟩
    · exact ⟨91, _, rfl, rfl⟩
  | obj fs =>
    rcases fs with _ | ⟨⟨k, x⟩, fs⟩
    · exact ⟨123, _, rfl, rfl⟩
    · exact ⟨123, _, rfl, rfl⟩

theorem kind_eq_of_write {v w : Json} {r r' : Bytes} (h : write v ++ r = write w ++ r') :
    kind v = kind w := by
  obtain ⟨b, l, hv, hb⟩ := write_head v
  obtain ⟨c, m, hw, hc⟩ := write_head w
  rw [hv, hw, List.cons_append, List.cons_append, List.cons.injEq] at h
  rw [h.1, hc] at hb
  exact (Option.some.inj hb).symm

theorem write_ne_close (v : Json) {c : UInt8} (hc : kindOfByte c = none) (r s : Bytes) :
    write v ++ r ≠ c :: s := by
  obtain ⟨b, l, hv, hb⟩ := write_head v
  rw [hv, List.cons_append]
  intro h
  rw [(List.cons.inj h).1, hc] at hb
  simp at hb

theorem delimited_elems (xs : List Json) (r : Bytes) : Delimited (writeElems xs ++ r) := by
  cases xs <;> exact delimited_cons (by decide)

theorem delimited_fields (fs : List (String × Json)) (r : Bytes) :
    Delimited (writeFields fs ++ r) := by
  rcases fs with _ | ⟨⟨k, x⟩, fs⟩ <;> exact delimited_cons (by decide)

/-! ### Unique readability -/

mutual

/-- **A delimited compact text determines its value and what follows it.** -/
theorem write_unique : ∀ (v w : Json) (r r' : Bytes), Delimited r → Delimited r' →
    write v ++ r = write w ++ r' → v = w ∧ r = r'
  | .null, w, r, r', _, _, h => by
    cases w with
    | null => exact ⟨rfl, List.append_cancel_left h⟩
    | _ => exact absurd (kind_eq_of_write h) (by simp [kind])
  | .bool a, w, r, r', _, _, h => by
    cases w with
    | bool b => cases a <;> cases b <;> simp_all [write]
    | _ => exact absurd (kind_eq_of_write h) (by simp [kind])
  | .num t, w, r, r', hr, hr', h => by
    cases w with
    | num u =>
      obtain ⟨htu, hrr⟩ := numToken_unique hr hr' h
      exact ⟨by rw [htu], hrr⟩
    | _ => exact absurd (kind_eq_of_write h) (by simp [kind])
  | .str s, w, r, r', _, _, h => by
    cases w with
    | str t =>
      obtain ⟨hst, hrr⟩ := writeStr_unique h
      exact ⟨by rw [hst], hrr⟩
    | _ => exact absurd (kind_eq_of_write h) (by simp [kind])
  | .arr [], w, r, r', _, _, h => by
    cases w with
    | arr ys =>
      cases ys with
      | nil => exact ⟨rfl, List.append_cancel_left h⟩
      | cons y ys =>
        simp only [write, List.cons_append, List.nil_append, List.append_assoc, List.cons.injEq,
          true_and] at h
        exact absurd h.symm (write_ne_close y (by decide) _ _)
    | _ => exact absurd (kind_eq_of_write h) (by simp [kind])
  | .arr (x :: xs), w, r, r', _, _, h => by
    cases w with
    | arr ys =>
      cases ys with
      | nil =>
        simp only [write, List.cons_append, List.nil_append, List.append_assoc, List.cons.injEq,
          true_and] at h
        exact absurd h (write_ne_close x (by decide) _ _)
      | cons y ys =>
        simp only [write, List.cons_append, List.append_assoc, List.cons.injEq, true_and] at h
        obtain ⟨hxy, hrest⟩ :=
          write_unique x y _ _ (delimited_elems xs r) (delimited_elems ys r') h
        obtain ⟨hxs, hrr⟩ := writeElems_unique xs ys r r' hrest
        exact ⟨by rw [hxy, hxs], hrr⟩
    | _ => exact absurd (kind_eq_of_write h) (by simp [kind])
  | .obj [], w, r, r', _, _, h => by
    cases w with
    | obj gs =>
      rcases gs with _ | ⟨⟨k, y⟩, gs⟩
      · exact ⟨rfl, List.append_cancel_left h⟩
      · simp [write, writeStr] at h
    | _ => exact absurd (kind_eq_of_write h) (by simp [kind])
  | .obj ((k, x) :: fs), w, r, r', _, _, h => by
    cases w with
    | obj gs =>
      rcases gs with _ | ⟨⟨l, y⟩, gs⟩
      · simp [write, writeStr] at h
      · simp only [write, List.cons_append, List.append_assoc, List.cons.injEq, true_and] at h
        obtain ⟨hkl, hrest⟩ := writeStr_unique h
        obtain ⟨hxy, hrest⟩ := write_unique x y _ _ (delimited_fields fs r) (delimited_fields gs r')
          (List.cons.inj hrest).2
        obtain ⟨hfs, hrr⟩ := writeFields_unique fs gs r r' hrest
        exact ⟨by rw [hkl, hxy, hfs], hrr⟩
    | _ => exact absurd (kind_eq_of_write h) (by simp [kind])

theorem writeElems_unique : ∀ (xs ys : List Json) (r r' : Bytes),
    writeElems xs ++ r = writeElems ys ++ r' → xs = ys ∧ r = r'
  | [], [], r, r', h => ⟨rfl, List.append_cancel_left h⟩
  | [], y :: ys, r, r', h => by simp [writeElems] at h
  | x :: xs, [], r, r', h => by simp [writeElems] at h
  | x :: xs, y :: ys, r, r', h => by
    simp only [writeElems, List.cons_append, List.append_assoc, List.cons.injEq, true_and] at h
    obtain ⟨hxy, hrest⟩ := write_unique x y _ _ (delimited_elems xs r) (delimited_elems ys r') h
    obtain ⟨hxs, hrr⟩ := writeElems_unique xs ys r r' hrest
    exact ⟨by rw [hxy, hxs], hrr⟩

theorem writeFields_unique : ∀ (fs gs : List (String × Json)) (r r' : Bytes),
    writeFields fs ++ r = writeFields gs ++ r' → fs = gs ∧ r = r'
  | [], [], r, r', h => ⟨rfl, List.append_cancel_left h⟩
  | [], (l, y) :: gs, r, r', h => by simp [writeFields] at h
  | (k, x) :: fs, [], r, r', h => by simp [writeFields] at h
  | (k, x) :: fs, (l, y) :: gs, r, r', h => by
    simp only [writeFields, List.cons_append, List.append_assoc, List.cons.injEq, true_and] at h
    obtain ⟨hkl, hrest⟩ := writeStr_unique h
    obtain ⟨hxy, hrest⟩ := write_unique x y _ _ (delimited_fields fs r) (delimited_fields gs r')
      (List.cons.inj hrest).2
    obtain ⟨hfs, hrr⟩ := writeFields_unique fs gs r r' hrest
    exact ⟨by rw [hkl, hxy, hfs], hrr⟩

end

/-- **Two values with one compact text are one value.** -/
theorem write_injective {v w : Json} (h : write v = write w) : v = w :=
  (write_unique v w [] [] delimited_nil delimited_nil (by rw [h])).1

theorem write_length_pos (v : Json) : 1 ≤ (write v).length := by
  obtain ⟨b, l, hv, _⟩ := write_head v
  rw [hv, List.length_cons]
  omega

theorem write_arr_length (xs : List Json) : 2 ≤ (write (.arr xs)).length := by
  cases xs with
  | nil => decide
  | cons x xs =>
    have hx := write_length_pos x
    simp only [write, List.length_cons, List.length_append]
    omega

/-! ### The indented writer -/

/-- The start of a line at nesting depth `d`. -/
def newline (d : ℕ) : Bytes := 10 :: List.replicate (2 * d) 32

mutual

/-- The indented text of a value at nesting depth `d`; empty arrays and objects stay on one line. -/
def writePretty (d : ℕ) : Json → Bytes
  | .null => [110, 117, 108, 108]
  | .bool true => [116, 114, 117, 101]
  | .bool false => [102, 97, 108, 115, 101]
  | .num t => t.text
  | .str s => writeStr s
  | .arr [] => [91, 93]
  | .arr (x :: xs) => 91 :: (newline (d + 1) ++ writePretty (d + 1) x ++ writePrettyElems d xs)
  | .obj [] => [123, 125]
  | .obj ((k, x) :: fs) =>
    123 :: (newline (d + 1) ++ writeStr k ++ [58, 32] ++ writePretty (d + 1) x
      ++ writePrettyFields d fs)

def writePrettyElems (d : ℕ) : List Json → Bytes
  | [] => newline d ++ [93]
  | x :: xs => 44 :: (newline (d + 1) ++ writePretty (d + 1) x ++ writePrettyElems d xs)

def writePrettyFields (d : ℕ) : List (String × Json) → Bytes
  | [] => newline d ++ [125]
  | (k, x) :: fs =>
    44 :: (newline (d + 1) ++ writeStr k ++ [58, 32] ++ writePretty (d + 1) x
      ++ writePrettyFields d fs)

end

/-! ### Arrays of numbers -/

/-- A byte string as the array of its values. -/
def bytes (l : Bytes) : Json := .arr (l.map fun b => .num (natToken b.toNat))

theorem bytes_injective {l m : Bytes} (h : bytes l = bytes m) : l = m := by
  simp only [bytes, Json.arr.injEq] at h
  refine List.map_injective_iff.mpr ?_ h
  intro a b hab
  exact UInt8.toNat_inj.mp (natToken_injective (Json.num.inj hab))

end JsonText
