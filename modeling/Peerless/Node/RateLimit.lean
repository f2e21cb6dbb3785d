import Peerless.Lib.Windows
import Peerless.Node.Upload

/-!
# The request budget over whole runs

`consume_request_budget` counts requests per identity and in all, in windows that start with the first
request after the previous one has run out.

* `rate_limited` — the limits after every call, twice the limits in every interval shorter than
  a window, and what a refusal means.
-/

namespace Peerless.Node

open HashMap Mealy Windows Peerless.Core

/-- The budget of a node that was opened at a time. -/
def RequestBudget.fresh (opened : ℕ) : RequestBudget := ⟨opened, 0, ∅⟩

/-- The requests of an identity in the current window. -/
def RequestBudget.count (b : RequestBudget) (signer : NodeId) : ℕ := (b.identities.lookup signer).getD 0

/-- A call of `consume_request_budget`: its signer and the time. -/
def RequestBudget.request (b : RequestBudget) (call : NodeId × ℕ) : RequestBudget × Bool :=
  b.consume call.1 call.2

/-- What a call does. -/
inductive Consumed (b : RequestBudget) (signer : NodeId) (now : ℕ) : RequestBudget × Bool → Prop
  | rolled : requestWindowMillis ≤ now - b.windowStartedAt →
      Consumed b signer now (⟨now, 1, (∅ : Map NodeId ℕ).insert signer 1⟩, true)
  | full : now - b.windowStartedAt < requestWindowMillis → maxRequestsGlobalPerWindow ≤ b.global →
      Consumed b signer now (b, false)
  | spent : now - b.windowStartedAt < requestWindowMillis →
      maxRequestsPerIdentityPerWindow ≤ b.count signer →
      Consumed b signer now ({ b with identities := b.identities.insert signer (b.count signer) }, false)
  | granted : now - b.windowStartedAt < requestWindowMillis → b.global < maxRequestsGlobalPerWindow →
      b.count signer < maxRequestsPerIdentityPerWindow →
      Consumed b signer now
        ({ b with global := b.global + 1, identities := b.identities.insert signer (b.count signer + 1) }, true)

theorem consume_moves (b : RequestBudget) (signer : NodeId) (now : ℕ) :
    Consumed b signer now (b.consume signer now) := by
  rw [RequestBudget.consume]
  by_cases hroll : now - b.windowStartedAt ≥ requestWindowMillis
  · rw [if_pos hroll]
    exact .rolled hroll
  · rw [if_neg hroll]
    dsimp only
    split
    · rename_i hfull
      exact .full (not_le.mp hroll) hfull
    · rename_i hroom
      split
      · rename_i hspent
        exact .spent (not_le.mp hroll) hspent
      · rename_i hown
        exact .granted (not_le.mp hroll) (not_le.mp hroom) (not_le.mp hown)

theorem consume_rolled {b : RequestBudget} {signer : NodeId} {now : ℕ}
    (hroll : requestWindowMillis ≤ now - b.windowStartedAt) :
    b.consume signer now = (⟨now, 1, (∅ : Map NodeId ℕ).insert signer 1⟩, true) := by
  rw [RequestBudget.consume, if_pos hroll]
  rfl

/-! ### The counts -/

/-- The counts of a window: every tracked identity has made a request, none too many, and they add up. -/
structure RequestBudget.Sound (b : RequestBudget) : Prop where
  sum : (vals b.identities).sum = b.global
  counts : ∀ v ∈ vals b.identities, 1 ≤ v ∧ v ≤ maxRequestsPerIdentityPerWindow
  global_le : b.global ≤ maxRequestsGlobalPerWindow

theorem RequestBudget.sound_fresh (opened : ℕ) : (RequestBudget.fresh opened).Sound :=
  ⟨rfl, fun _ hv => absurd hv List.not_mem_nil, Nat.zero_le _⟩

variable {b : RequestBudget}

theorem RequestBudget.Sound.count_le (hb : b.Sound) (signer : NodeId) :
    b.count signer ≤ maxRequestsPerIdentityPerWindow := by
  unfold RequestBudget.count
  cases h : b.identities.lookup signer with
  | none => exact Nat.zero_le _
  | some v => exact (hb.counts v (mem_vals_of_lookup h)).2

theorem RequestBudget.Sound.set (hb : b.Sound) (signer : NodeId) {n total : ℕ} (hlow : 1 ≤ n)
    (hhigh : n ≤ maxRequestsPerIdentityPerWindow) (htotal : total + b.count signer = b.global + n)
    (hglobal : total ≤ maxRequestsGlobalPerWindow) :
    RequestBudget.Sound { b with global := total, identities := b.identities.insert signer n } := by
  have hsplit := sum_map_erase id b.identities signer
  rw [List.map_id, List.map_id, Option.map_id, hb.sum] at hsplit
  unfold RequestBudget.count at htotal
  refine ⟨?_, ?_, hglobal⟩
  · show (vals (b.identities.insert signer n)).sum = total
    rw [vals_insert, List.sum_cons]
    simp only [id_eq] at hsplit
    omega
  · intro v hv
    rcases List.mem_cons.mp (show v ∈ n :: vals (b.identities.erase signer) from hv) with rfl | hv
    · exact ⟨hlow, hhigh⟩
    · exact hb.counts v (mem_vals_erase hv)

theorem RequestBudget.Sound.consume (hb : b.Sound) (signer : NodeId) (now : ℕ) :
    (b.consume signer now).1.Sound := by
  have hlimits : 1 ≤ maxRequestsPerIdentityPerWindow ∧ 1 ≤ maxRequestsGlobalPerWindow := by decide
  have hmove := consume_moves b signer now
  generalize b.consume signer now = result at hmove
  cases hmove with
  | rolled _ =>
    exact (RequestBudget.sound_fresh now).set signer (Nat.le_refl 1) hlimits.1 rfl hlimits.2
  | full _ _ => exact hb
  | spent _ hspent => exact hb.set signer (by omega) (hb.count_le signer) rfl hb.global_le
  | granted _ hroom hown => exact hb.set signer (by omega) hown (by omega) hroom

/-- There are no more tracked identities than requests. -/
theorem RequestBudget.Sound.size_le (hb : b.Sound) : size b.identities ≤ b.global := by
  have hlength : (vals b.identities).length = size b.identities := List.length_map _
  rw [← hlength, ← hb.sum]
  exact List.length_le_sum_of_one_le _ fun v hv => (hb.counts v hv).1

theorem RequestBudget.Sound.after (hb : b.Sound) (calls : List (NodeId × ℕ)) :
    (after RequestBudget.request b calls).Sound :=
  after_invariant (fun _ call hb => hb.consume call.1 call.2) calls b hb

/-! ### The budget as accounts -/

theorem count_insert (m : Map NodeId ℕ) (signer id : NodeId) (n start total : ℕ) :
    RequestBudget.count ⟨start, total, m.insert signer n⟩ id =
      if signer = id then n else RequestBudget.count ⟨start, total, m⟩ id := by
  unfold RequestBudget.count
  split
  · rename_i h
    rw [h, AList.lookup_insert, Option.getD_some]
  · rename_i h
    rw [AList.lookup_insert_ne fun heq => h heq.symm]

theorem windowed_global : Windowed RequestBudget.request Prod.snd (fun entry => entry.2)
    RequestBudget.windowStartedAt RequestBudget.global RequestBudget.Sound requestWindowMillis
    maxRequestsGlobalPerWindow where
  inv _ call hb := hb.consume call.1 call.2
  bound _ hb := hb.global_le
  stays b call _ hwindow := by
    have hmove := consume_moves b call.1 call.2
    unfold RequestBudget.request
    generalize b.consume call.1 call.2 = result at hmove
    cases hmove with
    | rolled hroll => exact absurd hroll (Nat.not_le.mpr hwindow)
    | full _ _ => exact ⟨rfl, rfl⟩
    | spent _ _ => exact ⟨rfl, rfl⟩
    | granted _ _ _ => exact ⟨rfl, rfl⟩
  rolls b call _ hroll := by
    rw [RequestBudget.request, consume_rolled hroll]
    exact ⟨rfl, rfl⟩

theorem windowed_identity (id : NodeId) : Windowed RequestBudget.request Prod.snd
    (fun entry => entry.2 && decide (entry.1.1 = id)) RequestBudget.windowStartedAt
    (fun b => b.count id) RequestBudget.Sound requestWindowMillis maxRequestsPerIdentityPerWindow where
  inv _ call hb := hb.consume call.1 call.2
  bound _ hb := hb.count_le id
  stays b call _ hwindow := by
    have hmove := consume_moves b call.1 call.2
    unfold RequestBudget.request
    generalize b.consume call.1 call.2 = result at hmove
    cases hmove with
    | rolled hroll => exact absurd hroll (Nat.not_le.mpr hwindow)
    | full _ _ => exact ⟨rfl, rfl⟩
    | spent _ _ =>
      refine ⟨rfl, ?_⟩
      rw [count_insert]
      split
      · rename_i hid
        simp [hid]
      · rfl
    | granted _ _ _ =>
      refine ⟨rfl, ?_⟩
      rw [count_insert]
      split
      · rename_i hid
        simp [hid]
      · rename_i hid
        simp [hid, RequestBudget.count]
  rolls b call _ hroll := by
    rw [RequestBudget.request, consume_rolled hroll]
    refine ⟨rfl, ?_⟩
    rw [count_insert]
    split
    · rename_i hid
      simp [hid]
    · rename_i hid
      simp [hid, RequestBudget.count]

/-! ### Refusals -/

/-- **What a refusal means**: the window has not run out, one of its limits is reached, and none of its
counters changes. -/
theorem consume_refused {signer : NodeId} {now : ℕ} (h : (b.consume signer now).2 = false) :
    (now - b.windowStartedAt < requestWindowMillis ∧ (maxRequestsGlobalPerWindow ≤ b.global ∨
        maxRequestsPerIdentityPerWindow ≤ b.count signer)) ∧
      (b.consume signer now).1.windowStartedAt = b.windowStartedAt ∧
      (b.consume signer now).1.global = b.global ∧
      ∀ id, (b.consume signer now).1.count id = b.count id := by
  have hmove := consume_moves b signer now
  generalize b.consume signer now = result at hmove h
  cases hmove with
  | rolled _ => cases h
  | full hwindow hfull => exact ⟨⟨hwindow, Or.inl hfull⟩, rfl, rfl, fun _ => rfl⟩
  | spent hwindow hspent =>
    refine ⟨⟨hwindow, Or.inr hspent⟩, rfl, rfl, ?_⟩
    intro id
    rw [count_insert]
    split
    · rename_i hid
      rw [hid]
    · rfl
  | granted _ _ _ => cases h

/-- **Requests are limited over every interval.**  After any calls the global counter is the sum of the
others, each counter is within its limit, and there are no more identities than requests; an interval
shorter than a window sees at most twice the limits granted; and a refusal leaves every counter of the
current window alone and comes only when one of its limits is reached. -/
theorem rate_limited (opened : ℕ) (calls : List (NodeId × ℕ))
    (hsorted : calls.Pairwise fun a b => a.2 ≤ b.2) :
    let reached := after RequestBudget.request (RequestBudget.fresh opened) calls
    let answered := trace RequestBudget.request (RequestBudget.fresh opened) calls
    ((vals reached.identities).sum = reached.global ∧
        (∀ id, reached.count id ≤ maxRequestsPerIdentityPerWindow) ∧
        reached.global ≤ maxRequestsGlobalPerWindow ∧ size reached.identities ≤ reached.global) ∧
      (∀ lo hi, hi - lo < requestWindowMillis →
        (∀ id, answered.countP (fun entry => entry.2 && decide (entry.1.1 = id) &&
            decide (lo ≤ entry.1.2) && decide (entry.1.2 ≤ hi)) ≤ 2 * maxRequestsPerIdentityPerWindow) ∧
        answered.countP (fun entry => entry.2 && decide (lo ≤ entry.1.2) && decide (entry.1.2 ≤ hi)) ≤
          2 * maxRequestsGlobalPerWindow) ∧
      ∀ signer now, (reached.consume signer now).2 = false →
        ((reached.consume signer now).1.windowStartedAt = reached.windowStartedAt ∧
          (reached.consume signer now).1.global = reached.global ∧
          ∀ id, (reached.consume signer now).1.count id = reached.count id) ∧
        now - reached.windowStartedAt < requestWindowMillis ∧
          (maxRequestsGlobalPerWindow ≤ reached.global ∨
            maxRequestsPerIdentityPerWindow ≤ reached.count signer) := by
  have hfresh := RequestBudget.sound_fresh opened
  have hreached := hfresh.after calls
  refine ⟨⟨hreached.sum, hreached.count_le, hreached.global_le, hreached.size_le⟩, ?_, ?_⟩
  · intro lo hi hshort
    constructor
    · intro id
      have hle := (windowed_identity id).countP_interval_le hshort calls _ hfresh hsorted
      refine Nat.le_trans (List.countP_mono_left fun entry _ h => ?_) hle
      simp only [Bool.and_eq_true] at h
      simp only [inside, upTo, Bool.and_eq_true]
      exact ⟨h.1.2, h.1.1, h.2⟩
    · have hle := windowed_global.countP_interval_le hshort calls _ hfresh hsorted
      refine Nat.le_trans (List.countP_mono_left fun entry _ h => ?_) hle
      simp only [Bool.and_eq_true] at h
      simp only [inside, upTo, Bool.and_eq_true]
      exact ⟨h.1.2, h.1.1, h.2⟩
  · intro signer now h
    obtain ⟨hlimit, hkept⟩ := consume_refused h
    exact ⟨hkept, hlimit⟩

/-- Two requests of one identity, a window apart. -/
theorem rate_limited_sample :
    (after RequestBudget.request (RequestBudget.fresh 5) [(⟨[1]⟩, 7), (⟨[1]⟩, 60006)]).global ≤
        maxRequestsGlobalPerWindow ∧
      (trace RequestBudget.request (RequestBudget.fresh 5) [(⟨[1]⟩, 7), (⟨[1]⟩, 60006)]).countP
          (fun entry => entry.2 && decide (7 ≤ entry.1.2) && decide (entry.1.2 ≤ 60006)) ≤
        2 * maxRequestsGlobalPerWindow :=
  have hall := rate_limited 5 [(⟨[1]⟩, 7), (⟨[1]⟩, 60006)] (by decide)
  ⟨hall.1.2.2.1, (hall.2.1 7 60006 (by decide)).2⟩

end Peerless.Node
