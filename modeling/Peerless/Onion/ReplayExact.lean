import Peerless.Onion.Replay

/-!
# The replay window is exact

A receiver checks every number that reaches it and commits those that pass.  The window keeps a highest
number and 128 bits; the numbers accepted so far are a list without a bound.  `Exact` says that the
window is precisely the summary of that list.

* `replay_window_exact` — exactness, no number twice, and no checked operation fails.
-/

namespace Peerless.Onion

/-- A receiver offers numbers to its window, checking each and committing it if the check passes; the
window afterwards and the numbers accepted, in order. -/
def ReplayWindow.offerAll (w : ReplayWindow) : List UInt64 → ReplayWindow × List UInt64
  | [] => (w, [])
  | q :: qs =>
    match w.check q with
    | .error _ => w.offerAll qs
    | .ok () =>
      let rest := (w.commit q).offerAll qs
      (rest.1, q :: rest.2)

/-! ### The summary of the accepted numbers -/

/-- The window is the summary of the accepted numbers: the highest of them, and for each of the 128
numbers from it downwards whether it is one of them. -/
structure Exact (w : ReplayWindow) (accepted : List UInt64) : Prop where
  empty : w.highest = none ↔ accepted = []
  highest : ∀ h, w.highest = some h → h ∈ accepted ∧ ∀ x ∈ accepted, x.toNat ≤ h.toNat
  bits : ∀ h, w.highest = some h → ∀ d, d < 128 →
    (w.bitmap.getLsbD d = true ↔ ∃ x ∈ accepted, x.toNat + d = h.toNat)

theorem exact_empty : Exact .empty [] where
  empty := ⟨fun _ => rfl, fun _ => rfl⟩
  highest h hh := by cases hh
  bits h hh := by cases hh

variable {w : ReplayWindow} {accepted : List UInt64}

/-- **The check, by the accepted numbers**: the first number is 0; a later one is new, at most 64 above
the highest and less than 128 below it. -/
theorem Exact.check_ok_iff (hw : Exact w accepted) (q : UInt64) :
    w.check q = .ok () ↔ (accepted = [] ∧ q = 0) ∨
      ∃ h, w.highest = some h ∧ q ∉ accepted ∧ q.toNat ≤ h.toNat + 64 ∧ h.toNat - q.toNat < 128 := by
  unfold ReplayWindow.check
  cases hhigh : w.highest with
  | none =>
    have hnil := hw.empty.mp hhigh
    by_cases hq : q = 0
    · simp [hq, hnil]
    · simp [hq]
  | some h =>
    have hne : accepted ≠ [] := fun hnil => by rw [hw.empty.mpr hnil] at hhigh; cases hhigh
    obtain ⟨_, hmax⟩ := hw.highest h hhigh
    simp only [hne, false_and, false_or, Option.some.injEq, exists_eq_left']
    by_cases hgt : q > h
    · have hlt : h.toNat < q.toNat := UInt64.lt_iff_toNat_lt.mp hgt
      have hnew : q ∉ accepted := fun hmem => absurd (hmax q hmem) (by omega)
      have hjump : q - h ≤ maxFutureSequenceJump ↔ q.toNat ≤ h.toNat + 64 := by
        rw [UInt64.le_iff_toNat_le, toNat_distance (UInt64.le_of_lt hgt)]
        show q.toNat - h.toNat ≤ 64 ↔ _
        omega
      rw [if_pos hgt]
      by_cases hnear : q - h ≤ maxFutureSequenceJump
      · rw [if_pos hnear]
        exact ⟨fun _ => ⟨hnew, hjump.mp hnear, by omega⟩, fun _ => rfl⟩
      · rw [if_neg hnear]
        exact ⟨fun herr => (by cases herr), fun hall => absurd (hjump.mpr hall.2.1) hnear⟩
    · have hle : q ≤ h := by simpa using hgt
      have hleNat : q.toNat ≤ h.toNat := UInt64.le_iff_toNat_le.mp hle
      have hfar : h - q ≥ replayWindowBits ↔ 128 ≤ h.toNat - q.toNat := by
        rw [ge_iff_le, UInt64.le_iff_toNat_le, toNat_distance hle]
        exact Iff.rfl
      rw [if_neg hgt]
      by_cases hout : h - q ≥ replayWindowBits
      · rw [if_pos hout]
        have hwide := hfar.mp hout
        exact ⟨fun herr => (by cases herr), fun hall => absurd hall.2.2 (by omega)⟩
      · have hnear : h.toNat - q.toNat < 128 := by
          have := mt hfar.mpr hout
          omega
        rw [if_neg hout]
        have hbit : w.bitmap &&& (1#128 <<< (h - q).toNat) ≠ 0#128 ↔ q ∈ accepted := by
          rw [and_bit_ne_zero_iff, toNat_distance hle, hw.bits h hhigh _ hnear]
          constructor
          · rintro ⟨_, x, hx, hsum⟩
            have hxq : x = q := UInt64.toNat_inj.mp (by omega)
            rw [← hxq]
            exact hx
          · intro hq
            exact ⟨hnear, q, hq, by omega⟩
        by_cases hmem : q ∈ accepted
        · rw [if_pos (hbit.mpr hmem)]
          exact ⟨fun herr => (by cases herr), fun hall => absurd hmem hall.1⟩
        · rw [if_neg (mt hbit.mp hmem)]
          exact ⟨fun _ => ⟨hmem, by omega, hnear⟩, fun _ => rfl⟩

theorem exact_first (q : UInt64) : Exact ⟨some q, 1#128⟩ [q] where
  empty := by simp
  highest h hh := by
    obtain rfl := Option.some.inj hh
    simp
  bits h hh d hd := by
    obtain rfl := Option.some.inj hh
    simp

variable {q : UInt64}

/-- A new highest number: the bits move up with it. -/
theorem Exact.raise (hw : Exact w accepted) {h : UInt64} (hhigh : w.highest = some h)
    (hlt : h.toNat < q.toNat) :
    Exact ⟨some q, (w.bitmap <<< (q.toNat - h.toNat)) ||| 1#128⟩ (accepted ++ [q]) := by
  obtain ⟨_, hmax⟩ := hw.highest h hhigh
  refine ⟨by simp, ?_, ?_⟩
  · intro h' hh'
    obtain rfl := Option.some.inj hh'
    refine ⟨List.mem_append_right _ List.mem_cons_self, fun x hx => ?_⟩
    rcases List.mem_append.mp hx with hx | hx
    · have := hmax x hx
      omega
    · rw [List.mem_singleton.mp hx]
  · intro h' hh' d hd
    obtain rfl := Option.some.inj hh'
    rw [BitVec.getLsbD_or, BitVec.getLsbD_shiftLeft]
    constructor
    · intro hbit
      rcases Nat.lt_or_ge d (q.toNat - h.toNat) with hlow | hup
      · have hzero : d = 0 := by simpa [hlow, hd] using hbit
        exact ⟨q, List.mem_append_right _ List.mem_cons_self, by omega⟩
      · have hset : w.bitmap.getLsbD (d - (q.toNat - h.toNat)) = true := by
          have hdne : d ≠ 0 := by omega
          simpa [hd, Nat.not_lt.mpr hup, hdne] using hbit
        obtain ⟨x, hx, hsum⟩ := (hw.bits h hhigh _ (by omega)).mp hset
        exact ⟨x, List.mem_append_left _ hx, by omega⟩
    · rintro ⟨x, hx, hsum⟩
      rcases List.mem_append.mp hx with hx | hx
      · have hxh := hmax x hx
        have hset := (hw.bits h hhigh (d - (q.toNat - h.toNat)) (by omega)).mpr ⟨x, hx, by omega⟩
        simp [hd, show ¬ d < q.toNat - h.toNat by omega, hset]
      · rw [List.mem_singleton.mp hx] at hsum
        simp [show d = 0 by omega]

/-- A number below the highest one: its bit is set. -/
theorem Exact.mark (hw : Exact w accepted) {h : UInt64} (hhigh : w.highest = some h)
    (hle : q.toNat ≤ h.toNat) :
    Exact ⟨some h, w.bitmap ||| (1#128 <<< (h.toNat - q.toNat))⟩ (accepted ++ [q]) := by
  obtain ⟨hmem, hmax⟩ := hw.highest h hhigh
  refine ⟨by simp, ?_, ?_⟩
  · intro h' hh'
    obtain rfl := Option.some.inj hh'
    refine ⟨List.mem_append_left _ hmem, fun x hx => ?_⟩
    rcases List.mem_append.mp hx with hx | hx
    · exact hmax x hx
    · rw [List.mem_singleton.mp hx]
      exact hle
  · intro h' hh' d hd
    obtain rfl := Option.some.inj hh'
    have hone : (1#128 <<< (h.toNat - q.toNat)).getLsbD d = true ↔ d = h.toNat - q.toNat := by
      rw [← BitVec.twoPow_eq, BitVec.getLsbD_twoPow]
      simp only [Bool.and_eq_true, decide_eq_true_eq]
      omega
    rw [BitVec.getLsbD_or, Bool.or_eq_true, hone, hw.bits h hhigh d hd]
    constructor
    · rintro (⟨x, hx, hsum⟩ | hd)
      · exact ⟨x, List.mem_append_left _ hx, hsum⟩
      · exact ⟨q, List.mem_append_right _ List.mem_cons_self, by omega⟩
    · rintro ⟨x, hx, hsum⟩
      rcases List.mem_append.mp hx with hx | hx
      · exact Or.inl ⟨x, hx, hsum⟩
      · rw [List.mem_singleton.mp hx] at hsum
        exact Or.inr (by omega)

/-- **Committing a number that passes keeps the window exact.** -/
theorem Exact.commit (hw : Exact w accepted) (hq : w.check q = .ok ()) :
    Exact (w.commit q) (accepted ++ [q]) := by
  unfold ReplayWindow.commit
  rcases (hw.check_ok_iff q).mp hq with ⟨hnil, _⟩ | ⟨h, hhigh, _, hjump, _⟩
  · rw [hw.empty.mpr hnil, hnil]
    exact exact_first q
  · rw [hhigh]
    dsimp only
    by_cases hgt : q > h
    · have hlt : h.toNat < q.toNat := UInt64.lt_iff_toNat_lt.mp hgt
      have hshift : (q - h).toNat = q.toNat - h.toNat := toNat_distance (UInt64.le_of_lt hgt)
      -- a number that passes is at most 64 above the highest, so the map is never cleared
      have hnear : ¬ q - h ≥ replayWindowBits := by
        rw [ge_iff_le, UInt64.le_iff_toNat_le, hshift]
        show ¬ 128 ≤ _
        omega
      rw [if_pos hgt, if_neg hnear, hshift]
      exact hw.raise hhigh hlt
    · have hle : q ≤ h := by simpa using hgt
      rw [if_neg hgt, toNat_distance hle]
      exact hw.mark hhigh (UInt64.le_iff_toNat_le.mp hle)

/-- **Any sequence of numbers** leaves an exact window and has accepted no number twice. -/
theorem Exact.offerAll : ∀ (qs : List UInt64) {w : ReplayWindow} {accepted : List UInt64},
    Exact w accepted → accepted.Nodup → Exact (w.offerAll qs).1 (accepted ++ (w.offerAll qs).2) ∧
      (accepted ++ (w.offerAll qs).2).Nodup := by
  intro qs
  induction qs with
  | nil =>
    intro w accepted hw hnodup
    rw [ReplayWindow.offerAll, List.append_nil]
    exact ⟨hw, hnodup⟩
  | cons q qs ih =>
    intro w accepted hw hnodup
    rw [ReplayWindow.offerAll]
    cases hq : w.check q with
    | error err => exact ih hw hnodup
    | ok _ =>
      have hnew : q ∉ accepted := by
        rcases (hw.check_ok_iff q).mp hq with ⟨rfl, _⟩ | ⟨_, _, hnew, _⟩
        · exact List.not_mem_nil
        · exact hnew
      have hnodup' : (accepted ++ [q]).Nodup :=
        List.nodup_append.mpr ⟨hnodup, List.pairwise_singleton _ q, by
          intro x hx y hy hxy
          rw [List.mem_singleton.mp hy] at hxy
          exact hnew (hxy ▸ hx)⟩
      have hrest := ih (hw.commit hq) hnodup'
      rw [List.append_assoc] at hrest
      exact hrest

/-! ### The machine arithmetic -/

/-- `u64` subtraction that reports an overflow. -/
def checkedSub (a b : UInt64) : Option UInt64 := if b ≤ a then some (a - b) else none

/-- `u128` shift to the left that reports an overflow of the shift width. -/
def checkedShl (b : BitVec 128) (n : UInt64) : Option (BitVec 128) :=
  if n.toNat < 128 then some (b <<< n.toNat) else none

/-- `ReplayWindow::check` with every operation checked. -/
def ReplayWindow.checkedCheck (w : ReplayWindow) (sequence : UInt64) : Option (Except OnionError Unit) :=
  match w.highest with
  | none => some (if sequence = 0 then .ok () else .error .outOfWindow)
  | some highest =>
    if sequence > highest then
      (checkedSub sequence highest).map fun jump =>
        if jump ≤ maxFutureSequenceJump then .ok () else .error .outOfWindow
    else
      (checkedSub highest sequence).bind fun distance =>
        if distance ≥ replayWindowBits then some (.error .outOfWindow)
        else (checkedShl 1#128 distance).map fun mask =>
          if w.bitmap &&& mask ≠ 0#128 then .error .replay else .ok ()

/-- `ReplayWindow::commit` with every operation checked. -/
def ReplayWindow.checkedCommit (w : ReplayWindow) (sequence : UInt64) : Option ReplayWindow :=
  match w.highest with
  | none => some ⟨some sequence, 1#128⟩
  | some highest =>
    if sequence > highest then
      (checkedSub sequence highest).bind fun shift =>
        if shift ≥ replayWindowBits then some ⟨some sequence, 1#128⟩
        else (checkedShl w.bitmap shift).map fun shifted => ⟨some sequence, shifted ||| 1#128⟩
    else
      (checkedSub highest sequence).bind fun distance =>
        (checkedShl 1#128 distance).map fun mask => ⟨some highest, w.bitmap ||| mask⟩

theorem checkedSub_of_le {a b : UInt64} (h : b ≤ a) : checkedSub a b = some (a - b) := if_pos h

theorem checkedShl_of_lt {b : BitVec 128} {n : UInt64} (h : ¬ n ≥ replayWindowBits) :
    checkedShl b n = some (b <<< n.toNat) := by
  have hlt : n.toNat < 128 := by
    rw [ge_iff_le, UInt64.le_iff_toNat_le, not_le] at h
    exact h
  exact if_pos hlt

theorem ReplayWindow.checkedCheck_eq (w : ReplayWindow) (q : UInt64) :
    w.checkedCheck q = some (w.check q) := by
  unfold ReplayWindow.checkedCheck ReplayWindow.check
  cases w.highest with
  | none => rfl
  | some h =>
    dsimp only
    by_cases hgt : q > h
    · rw [if_pos hgt, if_pos hgt, checkedSub_of_le (UInt64.le_of_lt hgt)]
      rfl
    · have hle : q ≤ h := by simpa using hgt
      rw [if_neg hgt, if_neg hgt, checkedSub_of_le hle, Option.bind_some]
      by_cases hout : h - q ≥ replayWindowBits
      · rw [if_pos hout, if_pos hout]
      · rw [if_neg hout, if_neg hout, checkedShl_of_lt hout]
        rfl

/-- The shift of a commit below the highest number is in range because the check has passed. -/
theorem ReplayWindow.checkedCommit_eq (hq : w.check q = .ok ()) :
    w.checkedCommit q = some (w.commit q) := by
  unfold ReplayWindow.checkedCommit ReplayWindow.commit
  unfold ReplayWindow.check at hq
  cases hhigh : w.highest with
  | none => rfl
  | some h =>
    rw [hhigh] at hq
    dsimp only at hq ⊢
    by_cases hgt : q > h
    · rw [if_pos hgt, if_pos hgt, checkedSub_of_le (UInt64.le_of_lt hgt), Option.bind_some]
      by_cases hout : q - h ≥ replayWindowBits
      · rw [if_pos hout, if_pos hout]
      · rw [if_neg hout, if_neg hout, checkedShl_of_lt hout]
        rfl
    · have hle : q ≤ h := by simpa using hgt
      have hin : ¬ h - q ≥ replayWindowBits := by
        intro hout
        rw [if_neg hgt, if_pos hout] at hq
        cases hq
      rw [if_neg hgt, if_neg hgt, checkedSub_of_le hle, Option.bind_some, checkedShl_of_lt hin]
      rfl

/-! ### The window after any sequence of numbers -/

/-- **The replay window is exact.**  After any sequence of numbers, checked and committed one by one:
the highest number is the largest accepted one; each bit says whether its number was accepted; a number
passes exactly if it is 0 and the first, or new and within the window; no number is accepted twice; and
no subtraction or shift overflows. -/
theorem replay_window_exact (qs : List UInt64) (w : ReplayWindow) (accepted : List UInt64)
    (hrun : ReplayWindow.empty.offerAll qs = (w, accepted)) :
    (accepted = [] ∧ w.highest = none ∨
      ∃ h ∈ accepted, w.highest = some h ∧ ∀ x ∈ accepted, x ≤ h) ∧
    (∀ h, w.highest = some h → ∀ d, d < 128 → d ≤ h.toNat →
      (w.bitmap.getLsbD d = true ↔ UInt64.ofNat (h.toNat - d) ∈ accepted)) ∧
    (∀ s, w.check s = .ok () ↔ (accepted = [] ∧ s = 0) ∨
      ∃ h, w.highest = some h ∧ s ∉ accepted ∧ s.toNat ≤ h.toNat + 64 ∧ h.toNat - s.toNat < 128) ∧
    accepted.Nodup ∧
    (∀ s, w.checkedCheck s = some (w.check s) ∧
      (w.check s = .ok () → w.checkedCommit s = some (w.commit s))) := by
  obtain ⟨hw, hnodup⟩ := exact_empty.offerAll qs List.nodup_nil
  rw [hrun, List.nil_append] at hw hnodup
  refine ⟨?_, ?_, hw.check_ok_iff, hnodup, fun s => ⟨w.checkedCheck_eq s, ReplayWindow.checkedCommit_eq⟩⟩
  · cases hhigh : w.highest with
    | none => exact Or.inl ⟨hw.empty.mp hhigh, rfl⟩
    | some h =>
      obtain ⟨hmem, hmax⟩ := hw.highest h hhigh
      exact Or.inr ⟨h, hmem, rfl, fun x hx => UInt64.le_iff_toNat_le.mpr (hmax x hx)⟩
  · intro h hhigh d hd hle
    have hsmall : h.toNat - d < UInt64.size := lt_of_le_of_lt (Nat.sub_le _ _) h.toNat_lt
    have hnat : (UInt64.ofNat (h.toNat - d)).toNat = h.toNat - d := UInt64.toNat_ofNat_of_lt' hsmall
    rw [hw.bits h hhigh d hd]
    constructor
    · rintro ⟨x, hx, hsum⟩
      have hxd : UInt64.ofNat (h.toNat - d) = x := UInt64.toNat_inj.mp (by rw [hnat]; omega)
      rw [hxd]
      exact hx
    · intro hmem
      exact ⟨_, hmem, by rw [hnat]; omega⟩

/-- Numbers out of order, one repeated and one too far ahead. -/
theorem replay_window_sample : ∃ w,
    ReplayWindow.empty.offerAll [0, 5, 3, 5, 100, 69] = (w, [0, 5, 3, 69]) ∧
      w.check 2 = .ok () ∧ w.check 3 = .error .replay ∧ ([0, 5, 3, 69] : List UInt64).Nodup :=
  ⟨_, rfl, by decide, by decide, (replay_window_exact [0, 5, 3, 5, 100, 69] _ _ rfl).2.2.2.1⟩

end Peerless.Onion
