import Peerless.Compute
import Peerless.Lib.Select

/-!
# Placement by score

`Scheduler::place` takes the eligible candidate with the best score, `place_balanced_with_local_fallback`
the remote one under the least pressure.  One uses `max_by`, which returns the last of several largest
elements, the other `min_by`, which returns the first of several smallest; both break ties by score and by
node.  Floating point arithmetic is a parameter; `total_cmp` is its comparison of bit patterns.

* `placement_order_free` — the four properties of placement together.
-/

namespace Peerless.Compute

open Select HashMap Peerless.Core Protocol

/-! ### Floating point -/

/-- The bit pattern as a signed number, with the lower bits of the negative patterns flipped. -/
def totalKey (x : F64) : ℤ := if x.bits < 2 ^ 63 then x.bits else 2 ^ 63 - 1 - x.bits

/-- `f64::total_cmp`. -/
def totalCmp (x y : F64) : Ordering := threeWay (totalKey x) (totalKey y)

/-- The operations on floats the scheduler uses. -/
structure FloatOps where
  ofNat : ℕ → F64
  add : F64 → F64 → F64
  sub : F64 → F64 → F64
  mul : F64 → F64 → F64
  div : F64 → F64 → F64
  max : F64 → F64 → F64
  log2 : F64 → F64
  clamp : F64 → F64 → F64 → F64

/-- `0.0`. -/
def zero : F64 := ⟨0⟩

/-- `1.0`. -/
def one : F64 := ⟨0x3FF0000000000000⟩

/-! ### Candidates -/

structure PlacementWeights where
  cpu : F64
  memory : F64
  latency : F64
  power : F64
  locality : F64
  load : F64
  network : F64
  history : F64
  trust : F64
  replication : F64
  congestion : F64

structure PlacementObservation where
  inverseLatency : F64
  locality : F64
  transferCost : F64
  historicalSuccess : F64
  trust : F64
  replicationAvailability : F64
  congestion : F64
  deriving DecidableEq

structure PlacementCandidate where
  capability : NodeCapability
  observation : PlacementObservation
  deriving DecidableEq

structure PlacementScore where
  node : NodeId
  score : F64
  deriving DecidableEq

inductive PlacementError where
  | noEligibleNode
  deriving DecidableEq

structure Scheduler where
  weights : PlacementWeights

/-! ### Scores -/

variable (F : FloatOps)

def unit (value : F64) : F64 := F.clamp value zero one

/-- `normalize_bytes`; the divisor is `48.0`. -/
def normalizeBytes (value : ℕ) : F64 :=
  unit F (F.div (F.log2 (F.add (F.ofNat value) one)) ⟨0x4048000000000000⟩)

/-- The weight of a power state: `1.0`, `0.4` or `0.6`. -/
def powerValue : PowerState → F64
  | .ac => one
  | .battery => ⟨0x3FD999999999999A⟩
  | .unknown => ⟨0x3FE3333333333333⟩

/-- `Scheduler::score`, with the sums associated as the source writes them. -/
def Scheduler.score (s : Scheduler) (candidate : PlacementCandidate) : F64 :=
  let w := s.weights
  let cap := candidate.capability
  let seen := candidate.observation
  let raw := F.mul w.cpu (unit F cap.availableCpu)
  let raw := F.add raw (F.mul w.memory (normalizeBytes F cap.availableMemory))
  let raw := F.add raw (F.mul w.latency (unit F seen.inverseLatency))
  let raw := F.add raw (F.mul w.power (powerValue cap.power))
  let raw := F.add raw (F.mul w.locality (unit F seen.locality))
  let raw := F.sub raw (F.mul w.load (unit F cap.load))
  let raw := F.sub raw (F.mul w.network (unit F seen.transferCost))
  let raw := F.add raw (F.mul w.history (unit F seen.historicalSuccess))
  let raw := F.add raw (F.mul w.trust (unit F seen.trust))
  let raw := F.add raw (F.mul w.replication (unit F seen.replicationAvailability))
  let raw := F.sub raw (F.mul w.congestion (unit F seen.congestion))
  unit F raw

/-- The placement a candidate stands for. -/
def Scheduler.scored (s : Scheduler) (candidate : PlacementCandidate) : PlacementScore :=
  ⟨candidate.capability.node, s.score F candidate⟩

/-- The assignments of a candidate's node over its capacity, which is at least `0.05`. -/
def pressure (assignments : Map NodeId ℕ) (candidate : PlacementCandidate) : F64 :=
  let cap := candidate.capability
  let capacity := F.max (F.mul (F.mul (F.ofNat cap.cpuCores) (unit F cap.availableCpu))
    (F.sub one (unit F cap.load))) ⟨0x3FA999999999999A⟩
  F.div (F.ofNat ((assignments.lookup cap.node).getD 0)) capacity

/-! ### The comparisons -/

/-- `NodeId::cmp`, byte by byte. -/
def compareNodes (left right : NodeId) : Ordering :=
  List.compareLex (fun x y : UInt8 => threeWay x.toNat y.toNat) left.bytes right.bytes

/-- The comparison of `place`: by score, then the smaller node first. -/
def scoreOrder (left right : PlacementScore) : Ordering :=
  (totalCmp left.score right.score).then (compareNodes right.node left.node)

/-- The comparison of `place_balanced_with_local_fallback`: by pressure, then the larger score first, then
by node. -/
def pressureOrder (left right : PlacementScore × F64) : Ordering :=
  ((totalCmp left.2 right.2).then (totalCmp right.1.score left.1.score)).then
    (compareNodes left.1.node right.1.node)

/-! ### Placement -/

def Scheduler.place (s : Scheduler) (task : Task) (candidates : List PlacementCandidate) (now : ℕ) :
    Except PlacementError PlacementScore :=
  let eligibles := candidates.filter fun candidate => eligible task candidate.capability now
  match maxBy scoreOrder (eligibles.map (s.scored F)) with
  | none => .error .noEligibleNode
  | some placement => .ok placement

def Scheduler.placeBalancedWithLocalFallback (s : Scheduler) (task : Task)
    (candidates : List PlacementCandidate) (localNode : NodeId) (assignments : Map NodeId ℕ) (now : ℕ) :
    Except PlacementError PlacementScore :=
  let others := candidates.filter fun candidate => candidate.capability.node ≠ localNode
  let remote := others.filter fun candidate => eligible task candidate.capability now
  if remote.isEmpty then s.place F task candidates now
  else
    match minBy pressureOrder
        (remote.map fun candidate => (s.scored F candidate, pressure F assignments candidate)) with
    | none => .error .noEligibleNode
    | some (placement, _) => .ok placement

/-! ### Ties are equalities -/

theorem totalKey_injective {x y : F64} (h : totalKey x = totalKey y) : x = y := by
  obtain ⟨a⟩ := x
  obtain ⟨b⟩ := y
  unfold totalKey at h
  dsimp only at h
  rw [F64.mk.injEq]
  split at h <;> split at h <;> omega

instance totalCmp_trans : Std.TransCmp totalCmp := transCmp_on totalKey

theorem totalCmp_eq_iff {x y : F64} : totalCmp x y = .eq ↔ x = y := by
  unfold totalCmp
  rw [threeWay_eq_iff]
  exact ⟨totalKey_injective, fun h => by rw [h]⟩

instance compareBytes_trans : Std.TransCmp fun x y : UInt8 => threeWay x.toNat y.toNat :=
  transCmp_on fun x : UInt8 => (x.toNat : ℤ)

instance compareBytes_lawful : Std.LawfulEqCmp fun x y : UInt8 => threeWay x.toNat y.toNat where
  compare_self := threeWay_eq_iff.mpr rfl
  eq_of_compare := by
    intro x y h
    exact UInt8.toNat_inj.mp (Int.ofNat.inj (threeWay_eq_iff.mp h))

instance compareNodes_trans : Std.TransCmp compareNodes := transCmp_on NodeId.bytes

theorem compareNodes_eq_iff {x y : NodeId} : compareNodes x y = .eq ↔ x = y := by
  constructor
  · intro h
    have hbytes : x.bytes = y.bytes := Std.LawfulEqCmp.eq_of_compare h
    cases x
    cases y
    rw [NodeId.mk.injEq]
    exact hbytes
  · intro h
    rw [h]
    exact Std.ReflCmp.compare_self

instance scoreOrder_trans : Std.TransCmp scoreOrder := by
  have hscore : Std.TransCmp fun l r : PlacementScore => totalCmp l.score r.score := transCmp_on _
  have hnode : Std.TransCmp fun l r : PlacementScore => compareNodes l.node r.node := transCmp_on _
  have hback : Std.TransCmp fun l r : PlacementScore => compareNodes r.node l.node := hnode.opposite
  exact inferInstanceAs (Std.TransCmp (compareLex (fun l r : PlacementScore => totalCmp l.score r.score)
    fun l r => compareNodes r.node l.node))

instance scoreOrder_lawful : Std.LawfulEqCmp scoreOrder where
  compare_self := by
    intro a
    exact Ordering.then_eq_eq.mpr ⟨totalCmp_eq_iff.mpr rfl, compareNodes_eq_iff.mpr rfl⟩
  eq_of_compare := by
    intro a b h
    obtain ⟨hscore, hnode⟩ := Ordering.then_eq_eq.mp h
    cases a
    cases b
    rw [PlacementScore.mk.injEq]
    exact ⟨(compareNodes_eq_iff.mp hnode).symm, totalCmp_eq_iff.mp hscore⟩

instance pressureOrder_trans : Std.TransCmp pressureOrder := by
  have hpressure : Std.TransCmp fun l r : PlacementScore × F64 => totalCmp l.2 r.2 := transCmp_on _
  have hscore : Std.TransCmp fun l r : PlacementScore × F64 => totalCmp l.1.score r.1.score := transCmp_on _
  have hback : Std.TransCmp fun l r : PlacementScore × F64 => totalCmp r.1.score l.1.score :=
    hscore.opposite
  have hnode : Std.TransCmp fun l r : PlacementScore × F64 => compareNodes l.1.node r.1.node :=
    transCmp_on _
  exact inferInstanceAs (Std.TransCmp (compareLex
    (compareLex (fun l r : PlacementScore × F64 => totalCmp l.2 r.2)
      fun l r => totalCmp r.1.score l.1.score)
    fun l r => compareNodes l.1.node r.1.node))

instance pressureOrder_lawful : Std.LawfulEqCmp pressureOrder where
  compare_self := by
    intro a
    exact Ordering.then_eq_eq.mpr ⟨Ordering.then_eq_eq.mpr ⟨totalCmp_eq_iff.mpr rfl,
      totalCmp_eq_iff.mpr rfl⟩, compareNodes_eq_iff.mpr rfl⟩
  eq_of_compare := by
    intro a b h
    obtain ⟨hvalues, hnode⟩ := Ordering.then_eq_eq.mp h
    obtain ⟨hpressure, hscore⟩ := Ordering.then_eq_eq.mp hvalues
    obtain ⟨⟨node, score⟩, pressure⟩ := a
    obtain ⟨⟨node', score'⟩, pressure'⟩ := b
    rw [Prod.mk.injEq, PlacementScore.mk.injEq]
    exact ⟨⟨compareNodes_eq_iff.mp hnode, (totalCmp_eq_iff.mp hscore).symm⟩, totalCmp_eq_iff.mp hpressure⟩

/-! ### The results -/

variable {F}

variable {candidates : List PlacementCandidate}

theorem place_perm (s : Scheduler) (task : Task) {candidates' : List PlacementCandidate}
    (h : candidates.Perm candidates') (now : ℕ) :
    s.place F task candidates now = s.place F task candidates' now := by
  have hscores := (h.filter fun candidate => eligible task candidate.capability now).map (s.scored F)
  unfold Scheduler.place
  dsimp only
  rw [maxBy_perm hscores]

theorem placeBalanced_perm (s : Scheduler) (task : Task) {candidates' : List PlacementCandidate}
    (h : candidates.Perm candidates') (localNode : NodeId) (assignments : Map NodeId ℕ) (now : ℕ) :
    s.placeBalancedWithLocalFallback F task candidates localNode assignments now =
      s.placeBalancedWithLocalFallback F task candidates' localNode assignments now := by
  have hremote := (h.filter fun candidate => candidate.capability.node ≠ localNode).filter
    fun candidate => eligible task candidate.capability now
  have hpairs := hremote.map fun candidate => (s.scored F candidate, pressure F assignments candidate)
  unfold Scheduler.placeBalancedWithLocalFallback
  dsimp only
  rw [hremote.isEmpty_eq, place_perm s task h now, minBy_perm hpairs]

/-- What `place` returns stands for an eligible candidate. -/
theorem place_ok {s : Scheduler} {task : Task} {now : ℕ} {placement : PlacementScore}
    (h : s.place F task candidates now = .ok placement) :
    ∃ c ∈ candidates, eligible task c.capability now = true ∧ placement = s.scored F c := by
  unfold Scheduler.place at h
  dsimp only at h
  split at h
  · cases h
  · rename_i chosen hchosen
    obtain rfl := Except.ok.inj h
    obtain ⟨c, hc, rfl⟩ := List.mem_map.mp (choose_mem hchosen)
    obtain ⟨hmem, heligible⟩ := List.mem_filter.mp hc
    exact ⟨c, hmem, heligible, rfl⟩

theorem place_error_iff {s : Scheduler} {task : Task} {now : ℕ} :
    s.place F task candidates now = .error .noEligibleNode ↔
      ∀ c ∈ candidates, eligible task c.capability now = false := by
  have hnone : maxBy scoreOrder ((candidates.filter fun candidate =>
      eligible task candidate.capability now).map (s.scored F)) = none ↔
      ∀ c ∈ candidates, eligible task c.capability now = false := by
    unfold maxBy
    rw [choose_eq_none_iff, List.map_eq_nil_iff, List.filter_eq_nil_iff]
    simp only [Bool.not_eq_true]
  rw [← hnone]
  unfold Scheduler.place
  dsimp only
  split
  · rename_i hchosen
    simp [hchosen]
  · rename_i hchosen
    simp [hchosen]

/-- What `place_balanced_with_local_fallback` does: without an eligible remote candidate it is `place`,
otherwise it returns one of them. -/
theorem placeBalanced_cases (s : Scheduler) (task : Task) (candidates : List PlacementCandidate)
    (localNode : NodeId) (assignments : Map NodeId ℕ) (now : ℕ) :
    ((∀ c ∈ candidates, c.capability.node ≠ localNode → eligible task c.capability now = false) ∧
      s.placeBalancedWithLocalFallback F task candidates localNode assignments now =
        s.place F task candidates now) ∨
    ∃ c ∈ candidates, c.capability.node ≠ localNode ∧ eligible task c.capability now = true ∧
      s.placeBalancedWithLocalFallback F task candidates localNode assignments now =
        .ok (s.scored F c) := by
  unfold Scheduler.placeBalancedWithLocalFallback
  dsimp only
  split
  · rename_i hempty
    left
    refine ⟨?_, rfl⟩
    intro c hc hremote
    rw [List.isEmpty_iff, List.filter_eq_nil_iff] at hempty
    have hnot := hempty c (List.mem_filter.mpr ⟨hc, by simpa using hremote⟩)
    simpa using hnot
  · rename_i hempty
    right
    split
    · rename_i hchosen
      unfold minBy at hchosen
      rw [choose_eq_none_iff, List.map_eq_nil_iff] at hchosen
      rw [hchosen] at hempty
      exact absurd rfl hempty
    · rename_i placement under hchosen
      obtain ⟨c, hc, hpair⟩ := List.mem_map.mp (choose_mem hchosen)
      obtain ⟨hother, heligible⟩ := List.mem_filter.mp hc
      obtain ⟨hmem, hremote⟩ := List.mem_filter.mp hother
      rw [Prod.mk.injEq] at hpair
      exact ⟨c, hmem, by simpa using hremote, heligible, congrArg Except.ok hpair.1.symm⟩

/-- **Placement does not depend on the order of the candidates.**  Both functions return the same for
every permutation; a chosen node has an eligible candidate; the node itself is chosen by the balanced one
only if no candidate of another node is eligible; and both fail exactly if no candidate is eligible. -/
theorem placement_order_free (F : FloatOps) (s : Scheduler) (task : Task)
    (candidates : List PlacementCandidate) (localNode : NodeId) (assignments : Map NodeId ℕ) (now : ℕ) :
    (∀ candidates', candidates.Perm candidates' →
        s.place F task candidates now = s.place F task candidates' now ∧
        s.placeBalancedWithLocalFallback F task candidates localNode assignments now =
          s.placeBalancedWithLocalFallback F task candidates' localNode assignments now) ∧
      (∀ placement, s.place F task candidates now = .ok placement ∨
          s.placeBalancedWithLocalFallback F task candidates localNode assignments now = .ok placement →
        ∃ c ∈ candidates, eligible task c.capability now = true ∧ c.capability.node = placement.node) ∧
      (∀ placement,
          s.placeBalancedWithLocalFallback F task candidates localNode assignments now = .ok placement →
        placement.node = localNode →
        ∀ c ∈ candidates, c.capability.node ≠ localNode → eligible task c.capability now = false) ∧
      (s.place F task candidates now = .error .noEligibleNode ↔
        ∀ c ∈ candidates, eligible task c.capability now = false) ∧
      (s.placeBalancedWithLocalFallback F task candidates localNode assignments now =
          .error .noEligibleNode ↔
        ∀ c ∈ candidates, eligible task c.capability now = false) := by
  have hcases := placeBalanced_cases (F := F) s task candidates localNode assignments now
  refine ⟨?_, ?_, ?_, place_error_iff, ?_⟩
  · intro candidates' h
    exact ⟨place_perm s task h now, placeBalanced_perm s task h localNode assignments now⟩
  · intro placement hresult
    have hplaced : s.place F task candidates now = .ok placement →
        ∃ c ∈ candidates, eligible task c.capability now = true ∧ c.capability.node = placement.node := by
      intro h
      obtain ⟨c, hc, heligible, rfl⟩ := place_ok h
      exact ⟨c, hc, heligible, rfl⟩
    rcases hresult with h | h
    · exact hplaced h
    · rcases hcases with ⟨_, hsame⟩ | ⟨c, hc, _, heligible, hchosen⟩
      · exact hplaced (hsame.symm.trans h)
      · obtain rfl := Except.ok.inj (hchosen.symm.trans h)
        exact ⟨c, hc, heligible, rfl⟩
  · intro placement h hlocal
    rcases hcases with ⟨hnone, _⟩ | ⟨c, _, hremote, _, hchosen⟩
    · exact hnone
    · obtain rfl := Except.ok.inj (hchosen.symm.trans h)
      exact absurd hlocal hremote
  · rcases hcases with ⟨_, hsame⟩ | ⟨c, hc, _, heligible, hchosen⟩
    · rw [hsame]
      exact place_error_iff
    · rw [hchosen]
      simp only [reduceCtorEq, false_iff]
      intro hnone
      rw [hnone c hc] at heligible
      cases heligible

/-! ### A sample

The sample's numbers, and what is computed from them, are multiples of `2 ^ -100` that a float represents
exactly. -/

/-- The number of a pattern in units of `2 ^ -100`, from `2 ^ -48` on. -/
def scaled (x : F64) : ℤ :=
  let magnitude : ℕ := if x.bits % 2 ^ 63 = 0 then 0
    else (2 ^ 52 + x.bits % 2 ^ 52) * 2 ^ (x.bits / 2 ^ 52 % 2 ^ 11 - 975)
  if x.bits < 2 ^ 63 then magnitude else -magnitude

/-- The pattern of a number in these units, rounded towards zero. -/
def ofScaled (n : ℤ) : F64 :=
  let top := n.natAbs.log2
  if n = 0 then zero
  else ⟨(if n < 0 then 2 ^ 63 else 0) + (top + 922) * 2 ^ 52 + n.natAbs * 2 ^ 52 / 2 ^ top⟩

/-- The operations where their results are exact; the logarithm is that of powers of two. -/
def exactOps : FloatOps where
  ofNat n := ofScaled (n * 2 ^ 100)
  add x y := ofScaled (scaled x + scaled y)
  sub x y := ofScaled (scaled x - scaled y)
  mul x y := ofScaled (scaled x * scaled y / 2 ^ 100)
  div x y := ofScaled (scaled x * 2 ^ 100 / scaled y)
  max x y := if scaled x < scaled y then y else x
  log2 x := ofScaled (((scaled x).natAbs.log2 - 100 : ℤ) * 2 ^ 100)
  clamp x low high := if scaled x < scaled low then low else if scaled high < scaled x then high else x

/-- `0.5`. -/
def half : F64 := ⟨0x3FE0000000000000⟩

/-- `0.25`. -/
def quarter : F64 := ⟨0x3FD0000000000000⟩

/-- Equal weights. -/
def evenWeights : PlacementWeights :=
  ⟨quarter, quarter, quarter, quarter, quarter, quarter, quarter, quarter, quarter, quarter, quarter⟩

/-- A task that any node with 64 MiB takes. -/
def lightTask : Task :=
  ⟨"light", ⟨⟨List.replicate 32 0, rfl⟩⟩, ⟨⟨List.replicate 32 0, rfl⟩⟩, ⟨0, 0, "wasm", 1, .none⟩, .trustExecutor, none⟩

/-- A node with a byte less than 128 MiB, and a load. -/
def offering (node : UInt8) (load : F64) : PlacementCandidate :=
  ⟨⟨⟨[node]⟩, 4, one, 2 ^ 27 - 1, 2 ^ 30, ["wasm"], .ac, load, 1, 20⟩,
    ⟨zero, zero, zero, zero, zero, zero, zero⟩⟩

/-- The local node, a node with an assignment and a loaded one.  In either order the score is best for the
first, `0.640625`, and the pressure is least on the third, whose score is `0.515625`. -/
theorem placement_order_free_sample :
    let nodes := [offering 1 zero, offering 2 zero, offering 3 half]
    Scheduler.place exactOps ⟨evenWeights⟩ lightTask nodes 10 = .ok ⟨⟨[1]⟩, ⟨0x3FE4800000000000⟩⟩ ∧
      Scheduler.place exactOps ⟨evenWeights⟩ lightTask nodes 10 =
        Scheduler.place exactOps ⟨evenWeights⟩ lightTask nodes.reverse 10 ∧
      Scheduler.placeBalancedWithLocalFallback exactOps ⟨evenWeights⟩ lightTask nodes ⟨[1]⟩
        (AList.insert ⟨[2]⟩ 1 ∅) 10 = .ok ⟨⟨[3]⟩, ⟨0x3FE0800000000000⟩⟩ ∧
      ∃ c ∈ nodes, eligible lightTask c.capability 10 = true ∧ c.capability.node = ⟨[3]⟩ := by
  have hall := placement_order_free exactOps ⟨evenWeights⟩ lightTask
    [offering 1 zero, offering 2 zero, offering 3 half] ⟨[1]⟩ (AList.insert ⟨[2]⟩ 1 ∅) 10
  have hremote : Scheduler.placeBalancedWithLocalFallback exactOps ⟨evenWeights⟩ lightTask
      [offering 1 zero, offering 2 zero, offering 3 half] ⟨[1]⟩ (AList.insert ⟨[2]⟩ 1 ∅) 10 =
      .ok ⟨⟨[3]⟩, ⟨0x3FE0800000000000⟩⟩ := by
    decide +kernel
  exact ⟨by decide +kernel, (hall.1 _ (List.reverse_perm _).symm).1, hremote, hall.2.1 _ (.inr hremote)⟩

end Peerless.Compute
