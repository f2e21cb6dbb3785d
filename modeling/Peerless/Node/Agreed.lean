import Peerless.Lib.Tally
import Peerless.Node.Verified

/-!
# Which output is accepted

`verify_outputs` counts the outputs of a quorum in a hash map and returns the one with the largest count
among those that reach the threshold.  The map is met in an order of its own, so where two outputs lead
with the same count the order decides which of them a task accepts.

* `unambiguous_iff` — this holds exactly if no two outputs are tied for the lead;
* `quorum_unambiguous_iff` — a quorum is unambiguous whatever the outputs are exactly if it
  asks for more than half of the executions;
* `executeVerifiedP2p_order` — and then a verified execution does not depend on the order.
-/

namespace Peerless.Node

open Text Tally Peerless.Core Identity Protocol Compute
open Network (PeerId)

/-- How many of the outputs a policy looks at have to be the same. -/
def matchesAsked : VerificationPolicy → ℕ
  | .trustExecutor => 1
  | .replicate count => count
  | .quorum _ requiredMatches => requiredMatches

/-- The outputs a policy looks at. -/
def compared (policy : VerificationPolicy) (outputs : List ContentId) : List ContentId :=
  outputs.take (requiredExecutions policy)

/-- A quorum may get its outputs in another order; the other policies read them as they come. -/
def Reordered : VerificationPolicy → List ContentId → List ContentId → Prop
  | .quorum executions _, outputs, outputs' =>
    (outputs'.take executions).Perm (outputs.take executions) ∧
      outputs'.drop executions = outputs.drop executions
  | _, outputs, outputs' => outputs' = outputs

/-- **One answer, and a sound one.**  The answer is the same for every iteration order of the count map
and every order of the outputs; an accepted output occurs as often as asked, and if none is accepted no
output does. -/
structure Unambiguous (policy : VerificationPolicy) (outputs : List ContentId) : Prop where
  same : ∀ (order order' : CountOrder), IsOrder order → IsOrder order' → ∀ outputs',
    Reordered policy outputs outputs' →
      verifyOutputs order policy outputs = verifyOutputs order' policy outputs'
  accepted : ∀ order : CountOrder, IsOrder order → ∀ output,
    verifyOutputs order policy outputs = .ok output →
      matchesAsked policy ≤ (compared policy outputs).count output
  refused : ∀ order : CountOrder, IsOrder order →
    verifyOutputs order policy outputs = .error .noAgreement →
      ∀ output, (compared policy outputs).count output < matchesAsked policy

/-- Two outputs of a quorum that can be met are tied for the lead. -/
def Tied : VerificationPolicy → List ContentId → Prop
  | .quorum executions requiredMatches, outputs =>
    0 < requiredMatches ∧ requiredMatches ≤ executions ∧ executions ≤ outputs.length ∧
      ∃ a b, a ≠ b ∧ Leads requiredMatches (outputs.take executions) a ∧
        Leads requiredMatches (outputs.take executions) b
  | _, _ => False

/-! ### The answers of a quorum -/

variable {executions requiredMatches : ℕ} {outputs outputs' : List ContentId} {order order' : CountOrder}

theorem verifyOutputs_insufficient (order : CountOrder)
    (h : executions = 0 ∨ requiredMatches = 0 ∨ requiredMatches > executions ∨
      outputs.length < executions) :
    verifyOutputs order (.quorum executions requiredMatches) outputs = .error .insufficientExecutions :=
  if_pos h

theorem answer_of_largest (largest : Option (Sigma fun _ : ContentId => ℕ)) :
    (match largest with
      | none => .error .noAgreement
      | some e => .ok e.1 : Except VerificationError ContentId) =
      (largest.map Sigma.fst).elim (.error .noAgreement) .ok := by
  cases largest with
  | none => rfl
  | some e => rfl

/-- With enough outputs the answer is the winner of the count. -/
theorem verifyOutputs_quorum (order : CountOrder)
    (h : ¬(executions = 0 ∨ requiredMatches = 0 ∨ requiredMatches > executions ∨
      outputs.length < executions)) :
    verifyOutputs order (.quorum executions requiredMatches) outputs =
      (winner order requiredMatches (outputs.take executions)).elim (.error .noAgreement) .ok := by
  rw [verifyOutputs, if_neg h]
  exact answer_of_largest _

variable {l : List ContentId}

theorem winner_of_ok (hpos : 0 < requiredMatches) {output : ContentId} (horder : IsOrder order)
    (h : ((winner order requiredMatches l).elim (.error .noAgreement) .ok :
      Except VerificationError ContentId) = .ok output) : Leads requiredMatches l output := by
  cases hwinner : winner order requiredMatches l with
  | none =>
    rw [hwinner] at h
    cases h
  | some a =>
    rw [hwinner] at h
    obtain rfl := Except.ok.inj h
    exact leads_of_winner horder hpos hwinner

theorem winner_of_error (hpos : 0 < requiredMatches) (horder : IsOrder order)
    (h : ((winner order requiredMatches l).elim (.error .noAgreement) .ok :
      Except VerificationError ContentId) = .error .noAgreement) (output : ContentId) :
    l.count output < requiredMatches := by
  cases hwinner : winner order requiredMatches l with
  | none => exact (winner_eq_none_iff horder hpos).mp hwinner output
  | some a =>
    rw [hwinner] at h
    cases h

/-- Without a tie the winner is the same under every order of entries and of outputs. -/
theorem winner_eq_of_untied (hpos : 0 < requiredMatches) {l' : List ContentId} (hl : l'.Perm l)
    (horder : IsOrder order) (horder' : IsOrder order')
    (huntied : ∀ a b, Leads requiredMatches l a → Leads requiredMatches l b → a = b) :
    winner order requiredMatches l = winner order' requiredMatches l' := by
  cases hwinner : winner order requiredMatches l with
  | none =>
    refine ((winner_eq_none_iff horder' hpos).mpr fun a => ?_).symm
    rw [hl.count_eq a]
    exact (winner_eq_none_iff horder hpos).mp hwinner a
  | some a =>
    have ha : Leads requiredMatches l a := leads_of_winner horder hpos hwinner
    cases hwinner' : winner order' requiredMatches l' with
    | none =>
      have hless := (winner_eq_none_iff horder' hpos).mp hwinner' a
      rw [hl.count_eq a] at hless
      exact absurd ha.1 (not_le.mpr hless)
    | some b =>
      have hb : Leads requiredMatches l b := (Leads.perm hl).mp (leads_of_winner horder' hpos hwinner')
      rw [huntied a b ha hb]

theorem length_of_reordered (h : Reordered (.quorum executions requiredMatches) outputs outputs') :
    outputs'.length = outputs.length := by
  have htake := h.1.length_eq
  have hdrop := congrArg List.length h.2
  rw [← List.take_append_drop executions outputs', ← List.take_append_drop executions outputs,
    List.length_append, List.length_append, htake, hdrop]

/-! ### When the answer is one -/

variable {policy : VerificationPolicy}

theorem same_of_untied (huntied : ¬Tied policy outputs) (horder : IsOrder order)
    (horder' : IsOrder order') (h : Reordered policy outputs outputs') :
    verifyOutputs order policy outputs = verifyOutputs order' policy outputs' := by
  cases policy with
  | trustExecutor =>
    obtain rfl : outputs' = outputs := h
    rfl
  | replicate count =>
    obtain rfl : outputs' = outputs := h
    rfl
  | quorum executions requiredMatches =>
    have hlength := length_of_reordered h
    by_cases hfew : executions = 0 ∨ requiredMatches = 0 ∨ requiredMatches > executions ∨
        outputs.length < executions
    · rw [verifyOutputs_insufficient order hfew, verifyOutputs_insufficient order' (hlength ▸ hfew)]
    · rw [verifyOutputs_quorum order hfew, verifyOutputs_quorum order' (hlength ▸ hfew)]
      have hpos : 0 < requiredMatches := by omega
      rw [winner_eq_of_untied hpos h.1 horder horder']
      intro a b ha hb
      by_contra hab
      exact huntied ⟨hpos, by omega, by omega, a, b, hab, ha, hb⟩

/-- **The answers of a replication**: too few outputs, or the first one if all the others equal it. -/
theorem replicate_cases (order : CountOrder) (count : ℕ) (outputs : List ContentId) :
    verifyOutputs order (.replicate count) outputs = .error .insufficientExecutions ∨
      ∃ first ∈ outputs.take count, (outputs.take count).length = count ∧
        (((∀ b ∈ outputs.take count, first = b) ∧
            verifyOutputs order (.replicate count) outputs = .ok first) ∨
          ((∃ b ∈ outputs.take count, first ≠ b) ∧
            verifyOutputs order (.replicate count) outputs = .error .noAgreement)) := by
  by_cases hfew : count = 0 ∨ outputs.length < count
  · exact Or.inl (if_pos hfew)
  · right
    cases outputs with
    | nil => exact absurd (Or.inr (Nat.pos_of_ne_zero fun h => hfew (Or.inl h))) hfew
    | cons first rest =>
      have hverify : verifyOutputs order (.replicate count) (first :: rest) =
          if ((first :: rest).take count).all (· = first) then .ok first else .error .noAgreement :=
        if_neg hfew
      have hfirst : first ∈ (first :: rest).take count := by
        obtain ⟨n, rfl⟩ : ∃ n, count = n + 1 := ⟨count - 1, by omega⟩
        exact List.mem_cons_self
      refine ⟨first, hfirst, by rw [List.length_take]; omega, ?_⟩
      rw [hverify]
      by_cases hall : ((first :: rest).take count).all (· = first) = true
      · refine Or.inl ⟨fun b hb => ?_, if_pos hall⟩
        exact (of_decide_eq_true (List.all_eq_true.mp hall b hb)).symm
      · refine Or.inr ⟨?_, if_neg hall⟩
        by_contra hnone
        push Not at hnone
        exact hall (List.all_eq_true.mpr fun b hb => decide_eq_true (hnone b hb).symm)

theorem count_of_accepted (horder : IsOrder order) {output : ContentId}
    (h : verifyOutputs order policy outputs = .ok output) :
    matchesAsked policy ≤ (compared policy outputs).count output := by
  cases policy with
  | trustExecutor =>
    cases outputs with
    | nil => cases h
    | cons first rest =>
      obtain rfl : first = output := Except.ok.inj h
      show 1 ≤ ((first :: rest).take 1).count first
      simp
  | replicate count =>
    rcases replicate_cases order count outputs with
      hfew | ⟨first, _, hlength, ⟨hall, hok⟩ | ⟨_, hnone⟩⟩
    · rw [hfew] at h
      cases h
    · rw [hok] at h
      obtain rfl : first = output := Except.ok.inj h
      show count ≤ (outputs.take count).count first
      rw [List.count_eq_length.mpr hall, hlength]
    · rw [hnone] at h
      cases h
  | quorum executions requiredMatches =>
    by_cases hfew : executions = 0 ∨ requiredMatches = 0 ∨ requiredMatches > executions ∨
        outputs.length < executions
    · rw [verifyOutputs_insufficient order hfew] at h
      cases h
    · rw [verifyOutputs_quorum order hfew] at h
      exact (winner_of_ok (by omega) horder h).1

theorem count_of_refused (horder : IsOrder order)
    (h : verifyOutputs order policy outputs = .error .noAgreement) (output : ContentId) :
    (compared policy outputs).count output < matchesAsked policy := by
  cases policy with
  | trustExecutor =>
    cases outputs with
    | nil => cases h
    | cons first rest => cases h
  | replicate count =>
    rcases replicate_cases order count outputs with
      hfew | ⟨first, hfirst, hlength, ⟨_, hok⟩ | ⟨⟨b, hb, hne⟩, _⟩⟩
    · rw [hfew] at h
      cases h
    · rw [hok] at h
      cases h
    · show (outputs.take count).count output < count
      have hle : (outputs.take count).count output ≤ count :=
        List.count_le_length.trans hlength.le
      refine lt_of_le_of_ne hle fun hcount => hne ?_
      -- an output that fills the count is the first one and the one that differs from it
      have hfill : ∀ c ∈ outputs.take count, output = c :=
        List.count_eq_length.mp (hcount.trans hlength.symm)
      rw [← hfill first hfirst, ← hfill b hb]
  | quorum executions requiredMatches =>
    by_cases hfew : executions = 0 ∨ requiredMatches = 0 ∨ requiredMatches > executions ∨
        outputs.length < executions
    · rw [verifyOutputs_insufficient order hfew] at h
      cases h
    · rw [verifyOutputs_quorum order hfew] at h
      exact winner_of_error (by omega) horder h output

/-- Two outputs that are tied win under different orders. -/
theorem not_same_of_tied (h : Tied policy outputs) :
    ∃ order order' : CountOrder, IsOrder order ∧ IsOrder order' ∧
      verifyOutputs order policy outputs ≠ verifyOutputs order' policy outputs := by
  cases policy with
  | trustExecutor => cases h
  | replicate count => cases h
  | quorum executions requiredMatches =>
    obtain ⟨hpos, hle, hlength, a, b, hab, ha, hb⟩ := h
    have hfew : ¬(executions = 0 ∨ requiredMatches = 0 ∨ requiredMatches > executions ∨
        outputs.length < executions) := by
      omega
    refine ⟨lastOf ⟨a, (outputs.take executions).count a⟩,
      lastOf ⟨b, (outputs.take executions).count b⟩, isOrder_lastOf _, isOrder_lastOf _, ?_⟩
    intro heq
    apply hab
    rw [verifyOutputs_quorum _ hfew, verifyOutputs_quorum _ hfew, winner_lastOf hpos ha,
      winner_lastOf hpos hb] at heq
    exact Except.ok.inj heq

theorem reordered_refl (policy : VerificationPolicy) (outputs : List ContentId) :
    Reordered policy outputs outputs := by
  cases policy with
  | trustExecutor => rfl
  | replicate count => rfl
  | quorum executions requiredMatches => exact ⟨List.Perm.refl _, rfl⟩

theorem Unambiguous.not_tied (h : Unambiguous policy outputs) : ¬Tied policy outputs := by
  intro htied
  obtain ⟨order, order', horder, horder', hne⟩ := not_same_of_tied htied
  exact hne (h.same order order' horder horder' outputs (reordered_refl policy outputs))

theorem unambiguous_of_untied (huntied : ¬Tied policy outputs) : Unambiguous policy outputs := by
  refine ⟨?_, ?_, ?_⟩
  · intro order order' horder horder' outputs' h
    exact same_of_untied huntied horder horder' h
  · intro order horder output h
    exact count_of_accepted horder h
  · intro order horder h
    exact count_of_refused horder h

/-- **An output is accepted without ambiguity exactly if no two outputs are tied for the lead.** -/
theorem unambiguous_iff (policy : VerificationPolicy) (outputs : List ContentId) :
    Unambiguous policy outputs ↔ ¬Tied policy outputs :=
  ⟨Unambiguous.not_tied, unambiguous_of_untied⟩

/-- **Four executions, two matches, two outputs.**  Each output comes twice; the order in which the count
map is met decides. -/
theorem split_vote :
    let a : ContentId := ⟨Sample.lowBytes 1⟩
    let b : ContentId := ⟨Sample.lowBytes 2⟩
    verifyOutputs id (.quorum 4 2) [a, a, b, b] = .ok a ∧
      verifyOutputs List.reverse (.quorum 4 2) [a, a, b, b] = .ok b ∧
      ¬Unambiguous (.quorum 4 2) [a, a, b, b] := by
  intro a b
  have hid : verifyOutputs id (.quorum 4 2) [a, a, b, b] = .ok a := by decide +kernel
  have hreverse : verifyOutputs List.reverse (.quorum 4 2) [a, a, b, b] = .ok b := by decide +kernel
  refine ⟨hid, hreverse, fun h => ?_⟩
  have hsame := h.same id List.reverse (fun es => List.Perm.refl es) (fun es => List.reverse_perm es) _
    (reordered_refl _ _)
  rw [hid, hreverse] at hsame
  exact absurd (Except.ok.inj hsame) (by decide +kernel)

/-! ### Policies -/

/-- The outputs that split a quorum evenly. -/
def evenSplit (executions : ℕ) : List ContentId :=
  List.replicate (executions / 2) ⟨Sample.lowBytes 1⟩ ++
    (List.replicate (executions / 2) ⟨Sample.lowBytes 2⟩ ++
      List.replicate (executions % 2) ⟨Sample.lowBytes 3⟩)

theorem count_evenSplit (executions : ℕ) (c : ContentId) :
    (evenSplit executions).count c =
      (if (⟨Sample.lowBytes 1⟩ : ContentId) = c then executions / 2 else 0) +
        ((if (⟨Sample.lowBytes 2⟩ : ContentId) = c then executions / 2 else 0) +
          (if (⟨Sample.lowBytes 3⟩ : ContentId) = c then executions % 2 else 0)) := by
  rw [evenSplit, List.count_append, List.count_append, List.count_replicate, List.count_replicate,
    List.count_replicate]
  simp only [beq_iff_eq]

theorem lowBytes_distinct :
    (⟨Sample.lowBytes 1⟩ : ContentId) ≠ ⟨Sample.lowBytes 2⟩ ∧
      (⟨Sample.lowBytes 1⟩ : ContentId) ≠ ⟨Sample.lowBytes 3⟩ ∧
      (⟨Sample.lowBytes 2⟩ : ContentId) ≠ ⟨Sample.lowBytes 3⟩ := by
  decide +kernel

theorem tied_evenSplit (hpos : 0 < requiredMatches) (hhalf : 2 * requiredMatches ≤ executions) :
    Tied (.quorum executions requiredMatches) (evenSplit executions) := by
  obtain ⟨h12, h13, h23⟩ := lowBytes_distinct
  have hlength : (evenSplit executions).length = executions := by
    rw [evenSplit, List.length_append, List.length_append, List.length_replicate,
      List.length_replicate, List.length_replicate]
    omega
  have hmax : ∀ c, (evenSplit executions).count c ≤ executions / 2 := by
    intro c
    rw [count_evenSplit]
    by_cases h1 : (⟨Sample.lowBytes 1⟩ : ContentId) = c
    · subst h1
      rw [if_pos rfl, if_neg h12.symm, if_neg h13.symm]
      omega
    · rw [if_neg h1]
      by_cases h2 : (⟨Sample.lowBytes 2⟩ : ContentId) = c
      · subst h2
        rw [if_pos rfl, if_neg h23.symm]
        omega
      · rw [if_neg h2]
        split <;> omega
  refine ⟨hpos, by omega, hlength.ge, _, _, h12, ?_, ?_⟩
  · rw [List.take_of_length_le hlength.le]
    have hcount : (evenSplit executions).count ⟨Sample.lowBytes 1⟩ = executions / 2 := by
      rw [count_evenSplit, if_pos rfl, if_neg h12.symm, if_neg h13.symm, Nat.add_zero]
    exact ⟨by omega, fun c => hcount ▸ hmax c⟩
  · rw [List.take_of_length_le hlength.le]
    have hcount : (evenSplit executions).count ⟨Sample.lowBytes 2⟩ = executions / 2 := by
      rw [count_evenSplit, if_neg h12, if_pos rfl, if_neg h23.symm, Nat.add_zero, Nat.zero_add]
    exact ⟨by omega, fun c => hcount ▸ hmax c⟩

theorem not_tied_of_majority (hmajority : executions < 2 * requiredMatches) (outputs : List ContentId) :
    ¬Tied (.quorum executions requiredMatches) outputs := by
  rintro ⟨_, _, _, a, b, hab, ha, hb⟩
  refine hab (Leads.eq_of_majority ?_ ha hb)
  rw [List.length_take]
  omega

/-- **A quorum is unambiguous for all outputs exactly if it asks for more than half of the
executions**, or can never be met. -/
theorem quorum_unambiguous_iff (executions requiredMatches : ℕ) :
    (∀ outputs, Unambiguous (.quorum executions requiredMatches) outputs) ↔
      requiredMatches = 0 ∨ executions < 2 * requiredMatches := by
  constructor
  · intro h
    by_contra hnot
    exact (h _).not_tied (tied_evenSplit (by omega) (by omega))
  · intro h outputs
    apply unambiguous_of_untied
    rcases h with rfl | hmajority
    · intro htied
      exact absurd htied.1 (lt_irrefl 0)
    · exact not_tied_of_majority hmajority outputs

/-! ### Verified executions -/

namespace Surroundings

variable {P : Primitives} {σ : Type} (W : Surroundings P σ) (own : NodeIdentity P) (codec : MessageCodec)
  (component : Bytes) (input : BitVec 32)

/-- **The order of the count map does not reach a verified execution** whose quorum asks for more than
half of the executions. -/
theorem executeVerifiedP2p_order {task : Task}
    (hpolicy : task.verification = .quorum executions requiredMatches)
    (hmajority : executions < 2 * requiredMatches) (hW : IsOrder W.countOrder) (horder : IsOrder order)
    (peers : List PeerId) (s : σ) :
    W.executeVerifiedP2p own codec task component input peers s =
      ({ W with countOrder := order } : Surroundings P σ).executeVerifiedP2p own codec task component
        input peers s := by
  have hverify : ∀ outputs, verifyOutputs W.countOrder task.verification outputs =
      verifyOutputs order task.verification outputs := by
    intro outputs
    rw [hpolicy]
    exact same_of_untied (not_tied_of_majority hmajority outputs) hW horder (reordered_refl _ _)
  unfold executeVerifiedP2p
  split
  · rfl
  · simp only [hverify]
    rfl

/-- Three peers, two of which agree. -/
def twoOfThree : List ScriptLine := [⟨[8], [8], [7]⟩, ⟨[9], [9], [6]⟩, ⟨[4], [4], [7]⟩]

/-- The call about the three peers, for an order of the count map. -/
def majorityCall (order : CountOrder) : Except RemoteError VerifiedExecution × ℕ :=
  ({ scripted twoOfThree with countOrder := order } : Surroundings _ _).executeVerifiedP2p
    (Sample.identity [3]) (scriptedCodec twoOfThree) { replicatedTask with verification := .quorum 3 2 }
    [1] 5 [⟨[8]⟩, ⟨[9]⟩, ⟨[4]⟩] 0

/-- The two outputs are counted from the front and from the back. -/
theorem majority_order : majorityCall id = majorityCall List.reverse ∧
    (majorityCall id).1.toOption.map (fun v => (v.output, v.executions.length)) = some ([7], 3) :=
  ⟨executeVerifiedP2p_order _ _ _ _ _ rfl (by decide) (fun _ => .refl _) List.reverse_perm _ _,
    by decide +kernel⟩

end Surroundings

end Peerless.Node
