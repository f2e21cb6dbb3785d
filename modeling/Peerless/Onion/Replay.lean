import Peerless.Onion.Cell

/-!
# The replay window of a hop

A hop remembers the highest sequence number it accepted and a 128-bit map of those below it.  A number
is `Seen` when it lies in the map or below it.
-/

namespace Peerless.Onion

def maxFutureSequenceJump : UInt64 := 64

def replayWindowBits : UInt64 := 128

structure ReplayWindow where
  highest : Option UInt64
  bitmap : BitVec 128
  deriving DecidableEq

/-- `ReplayWindow::default`. -/
def ReplayWindow.empty : ReplayWindow := ⟨none, 0⟩

def ReplayWindow.check (w : ReplayWindow) (sequence : UInt64) : Except OnionError Unit :=
  match w.highest with
  | none => if sequence = 0 then .ok () else .error .outOfWindow
  | some highest =>
    if sequence > highest then
      if sequence - highest ≤ maxFutureSequenceJump then .ok () else .error .outOfWindow
    else
      let distance := highest - sequence
      if distance ≥ replayWindowBits then .error .outOfWindow
      else if w.bitmap &&& (1#128 <<< distance.toNat) ≠ 0#128 then .error .replay
      else .ok ()

def ReplayWindow.commit (w : ReplayWindow) (sequence : UInt64) : ReplayWindow :=
  match w.highest with
  | none => ⟨some sequence, 1#128⟩
  | some highest =>
    if sequence > highest then
      let shift := sequence - highest
      ⟨some sequence, if shift ≥ replayWindowBits then 1#128 else (w.bitmap <<< shift.toNat) ||| 1#128⟩
    else ⟨some highest, w.bitmap ||| (1#128 <<< (highest - sequence).toNat)⟩

/-- The number lies below the window, or its bit is set. -/
def ReplayWindow.Seen (w : ReplayWindow) (x : UInt64) : Prop :=
  ∃ highest, w.highest = some highest ∧ x ≤ highest ∧
    (128 ≤ highest.toNat - x.toNat ∨ w.bitmap.getLsbD (highest.toNat - x.toNat) = true)

theorem toNat_distance {a b : UInt64} (h : a ≤ b) : (b - a).toNat = b.toNat - a.toNat :=
  UInt64.toNat_sub_of_le b a h

theorem and_bit_ne_zero_iff (b : BitVec 128) (i : ℕ) :
    b &&& (1#128 <<< i) ≠ 0#128 ↔ i < 128 ∧ b.getLsbD i = true := by
  rw [← BitVec.twoPow_eq, BitVec.and_twoPow]
  rcases Nat.lt_or_ge i 128 with hi | hi
  · have hpow : BitVec.twoPow 128 i ≠ 0#128 := by
      intro h
      have hbit := congrArg (fun bits => bits.getLsbD i) h
      simp [hi] at hbit
    cases hb : b.getLsbD i <;> simp [hi, hpow]
  · simp [BitVec.getLsbD_of_ge b i hi, Nat.not_lt.mpr hi]

variable {w : ReplayWindow} {q : UInt64}

/-- **A number that passes the check was not seen.** -/
theorem ReplayWindow.check_not_seen (h : w.check q = .ok ()) : ¬ w.Seen q := by
  intro ⟨highest, hw, hle, hseen⟩
  unfold check at h
  rw [hw] at h
  simp only at h
  rw [if_neg (by simpa using hle)] at h
  split at h
  · cases h
  rename_i hdistance
  split at h
  · cases h
  rename_i hbit
  rw [and_bit_ne_zero_iff, toNat_distance hle, not_and] at hbit
  have hnear : highest.toNat - q.toNat < 128 := by
    rw [ge_iff_le, UInt64.le_iff_toNat_le, toNat_distance hle, not_le] at hdistance
    exact hdistance
  rcases hseen with hfar | hset
  · omega
  · exact hbit hnear hset

theorem ReplayWindow.seen_commit_self (w : ReplayWindow) (q : UInt64) : (w.commit q).Seen q := by
  unfold commit
  cases hw : w.highest with
  | none => exact ⟨q, rfl, UInt64.le_refl q, Or.inr (by simp)⟩
  | some highest =>
    simp only
    split
    · refine ⟨q, rfl, UInt64.le_refl q, Or.inr ?_⟩
      rw [Nat.sub_self]
      split <;> simp
    · rename_i hle
      have hle : q ≤ highest := by simpa using hle
      refine ⟨highest, rfl, hle, ?_⟩
      rcases Nat.lt_or_ge (highest.toNat - q.toNat) 128 with hnear | hfar
      · refine Or.inr ?_
        rw [BitVec.getLsbD_or, toNat_distance hle]
        simp [hnear]
      · exact Or.inl hfar

theorem ReplayWindow.Seen.commit {x : UInt64} (h : w.Seen x) (q : UInt64) : (w.commit q).Seen x := by
  obtain ⟨highest, hw, hle, hseen⟩ := h
  unfold ReplayWindow.commit
  rw [hw]
  simp only
  split
  · rename_i hgt
    have hq : highest.toNat < q.toNat := UInt64.lt_iff_toNat_lt.mp hgt
    have hx : x.toNat ≤ highest.toNat := UInt64.le_iff_toNat_le.mp hle
    refine ⟨q, rfl, UInt64.le_iff_toNat_le.mpr (by omega), ?_⟩
    rcases Nat.lt_or_ge (q.toNat - x.toNat) 128 with hnear | hfar
    · refine Or.inr ?_
      have hshift : (q - highest).toNat = q.toNat - highest.toNat :=
        toNat_distance (UInt64.le_iff_toNat_le.mpr (by omega))
      rw [if_neg (by rw [ge_iff_le, UInt64.le_iff_toNat_le, hshift]; show ¬ 128 ≤ _; omega), hshift,
        BitVec.getLsbD_or]
      rcases hseen with hfar | hset
      · omega
      · rw [show q.toNat - x.toNat = (q.toNat - highest.toNat) + (highest.toNat - x.toNat) by omega]
        simp [hset]
        omega
    · exact Or.inl hfar
  · refine ⟨highest, rfl, hle, ?_⟩
    rcases hseen with hfar | hset
    · exact Or.inl hfar
    · refine Or.inr ?_
      rw [BitVec.getLsbD_or, hset, Bool.true_or]

/-! ### Numbers in order -/

/-- The next number in order is `n`. -/
def ReplayWindow.Awaits (w : ReplayWindow) (n : ℕ) : Prop :=
  (w.highest = none ∧ n = 0) ∨ ∃ highest, w.highest = some highest ∧ highest.toNat + 1 = n

theorem ReplayWindow.awaits_empty : ReplayWindow.empty.Awaits 0 := Or.inl ⟨rfl, rfl⟩

theorem ReplayWindow.Awaits.check (h : w.Awaits q.toNat) : w.check q = .ok () := by
  unfold ReplayWindow.check
  rcases h with ⟨hw, hq⟩ | ⟨highest, hw, hq⟩
  · rw [hw]
    show (if q = 0 then _ else _) = _
    rw [if_pos (UInt64.toNat_inj.mp hq)]
  · rw [hw]
    have hgt : highest < q := UInt64.lt_iff_toNat_lt.mpr (by omega)
    have hone : (q - highest).toNat = 1 := by
      rw [toNat_distance (UInt64.le_of_lt hgt)]
      omega
    simp only
    rw [if_pos hgt, if_pos]
    rw [UInt64.le_iff_toNat_le, hone]
    decide

theorem ReplayWindow.Awaits.commit (h : w.Awaits q.toNat) : (w.commit q).Awaits (q.toNat + 1) := by
  refine Or.inr ⟨q, ?_, rfl⟩
  unfold ReplayWindow.commit
  rcases h with ⟨hw, _⟩ | ⟨highest, hw, hq⟩
  · rw [hw]
  · rw [hw]
    simp only
    rw [if_pos (UInt64.lt_iff_toNat_lt.mpr (by omega))]

end Peerless.Onion
