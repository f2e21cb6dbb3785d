import Peerless.Node.Placement
import Peerless.Lib.Waves

/-!
# Sharded execution

`execute_sharded_bytes_p2p` cuts an input into shards and executes them as tasks of their own, one shard
per peer in each wave.  The first attempts of a wave run in threads at the same time; a shard whose first
attempt failed is then tried on the other peers.

* `sharded_execution_covers` — an `Ok` has one verified result for every shard of the input, in
  order; a shard that fails on every peer is an error.
-/

namespace Peerless.Node

open Text Wire Inquiry Waves Peerless.Core Identity Protocol Compute
open Network (PeerId)

variable {P : Primitives} {σ : Type}

structure DistributedExecution where
  shards : List ExecutionRecord
  outputs : List Bytes
  inputBytes : ℕ
  peakShardBytes : ℕ
  deriving DecidableEq

/-! ### Shards -/

/-- The task id of a shard. -/
def shardTaskId (task : Task) (index : ℕ) : String := task.taskId ++ "-shard-" ++ index.repr

variable (P) in
/-- The task of a shard. -/
def shardTask (task : Task) (index : ℕ) (shard : Bytes) : Task :=
  { task with
    taskId := shardTaskId task index
    input := ContentId.of P shard }

/-- `input.chunks(shard_bytes)`, or one empty shard. -/
def shards (input : Bytes) (shardBytes : ℕ) : List Bytes :=
  if input.isEmpty then [input]
  else (List.range (divCeil input.length shardBytes)).map (chunkAt shardBytes input)

/-- `sort_by_key(to_bytes)` and `dedup`. -/
def distinctPeers (peers : List PeerId) : List PeerId :=
  (peers.insertionSort fun left right => left.bytes ≤ right.bytes).destutter (· ≠ ·)

/-! ### The call -/

/-- What a thread of a wave meets: the replies to its requests one after the other, the clock at each of
them, and whether it panics.  What the other threads do to the network in the meantime is in the replies. -/
structure ShardThread where
  replies : ℕ → Except String SignedEnvelope
  clock : ℕ → ℕ
  panics : Bool

/-- What the threads of a wave meet, by the index of the shard, and the world after the wave. -/
abbrev Meanwhile (σ : Type) := List (Launch PeerId Bytes) → σ → (ℕ → ShardThread) × σ

namespace Surroundings

variable (W : Surroundings P σ) (own : NodeIdentity P) (codec : MessageCodec)

/-- The surroundings of a thread; the state counts its requests. -/
def inThread (thread : ShardThread) : Surroundings P ℕ where
  toPeerId := W.toPeerId
  now := fun n => (thread.clock n, n)
  request := fun _ _ n => (thread.replies n, n + 1)
  recordSuccess := fun _ n => (true, n)
  recordFailure := fun _ _ n => (true, n)
  countOrder := W.countOrder

variable (meanwhile : Meanwhile σ) (task : Task) (component : Bytes)

/-- An attempt to execute a shard on a peer. -/
def executeShard {τ : Type} (V : Surroundings P τ) (l : Launch PeerId Bytes) (peer : PeerId) (s : τ) :
    Except RemoteError (ExecutionRecord × Bytes) × τ :=
  V.remoteExecuteBytesP2p own codec (shardTask P task l.index l.piece) component l.piece peer s

/-- How the shards of a task are attempted: the state is the placement counts and the world. -/
def shardCrew : Crew RemoteError (PlacementCounts × σ) PeerId Bytes (ExecutionRecord × Bytes) where
  spawn := fun ls s =>
    let (thread, world) := meanwhile ls s.2
    if ls.any fun l => (thread l.index).panics then
      (.error (.rejected "distributed executor thread panicked"), (s.1, world))
    else
      (.ok fun l =>
        (executeShard own codec task component (W.inThread (thread l.index)) l l.worker 0).1,
        (s.1, world))
  retry := fun l peer s =>
    let (result, world) := executeShard own codec task component W l peer s.2
    (result, (s.1, world))
  credit := fun peer s => (recordPrivateAssignment P s.1 peer, s.2)

/-- `PeerlessNode::execute_sharded_bytes_p2p`, with the attempts that were made. -/
def executeShardedBytesP2p (peers : List PeerId) (input : Bytes) (shardBytes : ℕ)
    (s : PlacementCounts × σ) : Except RemoteError DistributedExecution ×
      Progress (PlacementCounts × σ) PeerId (ExecutionRecord × Bytes) :=
  match taskMemoryLimit task with
  | none => (.error (.rejected "task memory limit is unsafe"), ⟨s, [], []⟩)
  | some memoryLimit =>
    if shardBytes = 0 ∨ shardBytes > memoryLimit then
      (.error (.rejected "shard size must be non-zero and fit the per-node task memory limit"),
        ⟨s, [], []⟩)
    else if ContentId.of P component ≠ task.component then
      (.error (.rejected "component bytes do not match the task ContentId"), ⟨s, [], []⟩)
    else if (distinctPeers peers).isEmpty then
      (.error (.rejected "distributed execution requires at least one remote peer"), ⟨s, [], []⟩)
    else
      match (W.shardCrew own codec meanwhile task component).runPieces (distinctPeers peers)
        (shards input shardBytes) s with
      | (.error err, progress) => (.error err, progress)
      | (.ok (), progress) =>
        (.ok {
          shards := progress.results.map Prod.fst
          outputs := progress.results.map Prod.snd
          inputBytes := input.length
          peakShardBytes := ((shards input shardBytes).map List.length).max?.getD 0 }, progress)

end Surroundings

variable {W : Surroundings P σ} {own : NodeIdentity P} {codec : MessageCodec}
  {meanwhile : Meanwhile σ} {task : Task} {component input : Bytes} {peers : List PeerId}
  {shardBytes : ℕ}

/-! ### The peers and the shards -/

theorem distinctPeers_subset {peer : PeerId} (h : peer ∈ distinctPeers peers) : peer ∈ peers :=
  (List.perm_insertionSort _ peers).mem_iff.mp ((List.destutter_sublist _ _).subset h)

instance PeerId.bytes_total : Std.Total fun left right : PeerId => left.bytes ≤ right.bytes :=
  ⟨fun left right => le_total left.bytes right.bytes⟩

instance PeerId.bytes_trans : IsTrans PeerId fun left right => left.bytes ≤ right.bytes :=
  ⟨fun _ _ _ h h' => le_trans h h'⟩

/-- The strict order of peers by their bytes. -/
def PeerId.Before (left right : PeerId) : Prop := left.bytes < right.bytes

instance PeerId.before_trans : Trans PeerId.Before PeerId.Before PeerId.Before := ⟨lt_trans⟩

theorem distinctPeers_nodup (peers : List PeerId) : (distinctPeers peers).Nodup := by
  have hsorted : (distinctPeers peers).Pairwise fun left right => left.bytes ≤ right.bytes :=
    (List.pairwise_insertionSort _ peers).sublist (List.destutter_sublist _ _)
  have hchain : (distinctPeers peers).IsChain (· ≠ ·) := List.isChain_destutter _ _
  -- neighbours are in order and differ, so the order is strict
  have hlt : (distinctPeers peers).IsChain PeerId.Before := by
    rw [List.isChain_iff_getElem] at hchain ⊢
    intro i hi
    apply lt_of_le_of_ne (List.isChain_iff_getElem.mp hsorted.isChain i hi)
    intro h
    exact hchain i hi (PeerId.mk.injEq _ _ ▸ h)
  have hstrict := List.IsChain.pairwise hlt
  exact hstrict.imp fun h heq => absurd (congrArg PeerId.bytes heq) (ne_of_lt h)

theorem shardTaskId_injective (task : Task) : Function.Injective (shardTaskId task) := by
  intro i j h
  have hrepr : i.repr = j.repr := (String.append_right_inj _).mp h
  have hdigits := congrArg String.toList hrepr
  rw [Nat.toList_repr, Nat.toList_repr] at hdigits
  rw [← Nat.ofDigitChars_ten_toDigits (n := i), hdigits, Nat.ofDigitChars_ten_toDigits]

theorem shards_eq (input : Bytes) (hpos : 0 < shardBytes) :
    shards input shardBytes =
      (List.range (max 1 (divCeil input.length shardBytes))).map (chunkAt shardBytes input) := by
  unfold shards
  cases input with
  | nil => simp [divCeil, chunkAt]
  | cons b rest =>
    have hceil : 0 < divCeil (b :: rest).length shardBytes := by
      have hle := le_divCeil_mul (a := (b :: rest).length) hpos
      rcases Nat.eq_zero_or_pos (divCeil (b :: rest).length shardBytes) with hzero | h
      · rw [hzero, List.length_cons] at hle
        omega
      · exact h
    rw [Nat.max_eq_right hceil]
    rfl

theorem shards_flatten (input : Bytes) (hpos : 0 < shardBytes) :
    ((List.range (max 1 (divCeil input.length shardBytes))).map (chunkAt shardBytes input)).flatten =
      input := by
  rw [flatten_chunkAt, List.take_of_length_le]
  exact (le_divCeil_mul hpos).trans (Nat.mul_le_mul_right _ (Nat.le_max_right _ _))

/-! ### What an `Ok` means -/

/-- A verified execution of one shard. -/
structure VerifiedShard (P : Primitives) (task : Task) (index : ℕ) (shard : Bytes)
    (result : ExecutionRecord × Bytes) : Prop where
  signed : ∃ value : SignedExecutionRecord, value.verify P = .ok true ∧ value.record = result.1
  taskId : result.1.taskId = shardTaskId task index
  component : result.1.component = task.component
  input : result.1.input = ContentId.of P shard
  output : result.1.output.verify P result.2 = true

theorem executeShard_ok {τ : Type} {V : Surroundings P τ} {l : Launch PeerId Bytes} {peer : PeerId}
    {result : ExecutionRecord × Bytes} {s : τ}
    (h : (Surroundings.executeShard own codec task component V l peer s).1 = .ok result) :
    VerifiedShard P task l.index l.piece result := by
  rcases hexecute : Surroundings.executeShard own codec task component V l peer s with ⟨answered, s'⟩
  rw [hexecute] at h
  rw [show answered = .ok result from h] at hexecute
  obtain ⟨record, output⟩ := result
  obtain ⟨value, hvalue, rfl⟩ := remoteExecuteBytesVia_ok.mp hexecute
  obtain ⟨_, hresult, houtput⟩ := remoteSignedResult_ok hvalue
  exact ⟨⟨value, hresult.verified, rfl⟩, hresult.taskId, hresult.component, hresult.input, houtput⟩

/-- **Whatever an attempt returns is verified**, in a thread or later. -/
theorem shardCrew_sound (W : Surroundings P σ) (own : NodeIdentity P) (codec : MessageCodec)
    (meanwhile : Meanwhile σ) (task : Task) (component : Bytes) :
    (W.shardCrew own codec meanwhile task component).Sound (VerifiedShard P task) := by
  constructor
  · intro ls s initial s' hspawn l _ result hresult
    simp only [Surroundings.shardCrew] at hspawn
    split at hspawn
    · cases hspawn
    · obtain ⟨hinitial, _⟩ := Prod.mk.inj hspawn
      rw [← Except.ok.inj hinitial] at hresult
      exact executeShard_ok hresult
  · intro l worker s result s' hretry
    have hone : (Surroundings.executeShard own codec task component W l worker s.2).1 = .ok result :=
      congrArg Prod.fst hretry
    exact executeShard_ok hone

theorem executeShardedBytesP2p_ok {d : DistributedExecution} {s : PlacementCounts × σ}
    {progress : Progress (PlacementCounts × σ) PeerId (ExecutionRecord × Bytes)}
    (h : W.executeShardedBytesP2p own codec meanwhile task component peers input shardBytes s =
      (.ok d, progress)) :
    0 < shardBytes ∧ distinctPeers peers ≠ [] ∧
      (W.shardCrew own codec meanwhile task component).runPieces (distinctPeers peers)
        (shards input shardBytes) s = (.ok (), progress) ∧
      d.shards = progress.results.map Prod.fst ∧ d.outputs = progress.results.map Prod.snd := by
  unfold Surroundings.executeShardedBytesP2p at h
  split at h
  · cases h
  · split at h
    · cases h
    · rename_i hsize
      split at h
      · cases h
      · split at h
        · cases h
        · rename_i hpeers
          split at h
          · cases h
          · rename_i found hrun
            obtain ⟨hd, rfl⟩ := Prod.mk.inj h
            rw [← Except.ok.inj hd]
            refine ⟨by omega, ?_, hrun, rfl, rfl⟩
            intro hnil
            rw [hnil] at hpeers
            exact hpeers rfl

variable {s : PlacementCounts × σ} {d : DistributedExecution}
  {progress : Progress (PlacementCounts × σ) PeerId (ExecutionRecord × Bytes)}

theorem sharded_results
    (hok : W.executeShardedBytesP2p own codec meanwhile task component peers input shardBytes s =
      (.ok d, progress)) :
    d.shards.length = max 1 (divCeil input.length shardBytes) ∧ d.outputs.length = d.shards.length ∧
      ∀ i record output, d.shards[i]? = some record → d.outputs[i]? = some output →
        VerifiedShard P task i (chunkAt shardBytes input i) (record, output) := by
  obtain ⟨hpos, hpeers, hrun, hshards, houtputs⟩ := executeShardedBytesP2p_ok hok
  obtain ⟨⟨hlength, hgood⟩, _, _⟩ := runPieces_ok (shardCrew_sound W own codec meanwhile task component)
    hpeers (distinctPeers_nodup peers) hrun
  rw [shards_eq input hpos, List.length_map, List.length_range] at hlength
  refine ⟨?_, ?_, ?_⟩
  · rw [hshards, List.length_map, hlength]
  · rw [hshards, houtputs, List.length_map, List.length_map]
  · intro i record output hrecord houtput
    rw [hshards, List.getElem?_map, Option.map_eq_some_iff] at hrecord
    rw [houtputs, List.getElem?_map, Option.map_eq_some_iff] at houtput
    obtain ⟨result, hresult, rfl⟩ := hrecord
    obtain ⟨result', hresult', rfl⟩ := houtput
    rw [hresult, Option.some.injEq] at hresult'
    subst hresult'
    refine hgood i _ result ?_ hresult
    have hi : i < max 1 (divCeil input.length shardBytes) := by
      rw [← hlength]
      exact (List.getElem?_eq_some_iff.mp hresult).1
    rw [shards_eq input hpos, List.getElem?_map, List.getElem?_range hi]
    rfl

/-- The task ids of an `Ok` are those of the shards, so they differ. -/
theorem sharded_ids_nodup
    (hok : W.executeShardedBytesP2p own codec meanwhile task component peers input shardBytes s =
      (.ok d, progress)) : (d.shards.map fun record => record.taskId).Nodup := by
  obtain ⟨_, houtput, hverified⟩ := sharded_results hok
  have hids : (d.shards.map fun record => record.taskId) =
      (List.range d.shards.length).map (shardTaskId task) := by
    apply List.ext_getElem (by rw [List.length_map, List.length_map, List.length_range])
    intro i hi hi'
    rw [List.length_map] at hi
    rw [List.getElem_map, List.getElem_map, List.getElem_range]
    exact (hverified i _ _ (List.getElem?_eq_getElem hi)
      (List.getElem?_eq_getElem (houtput.symm ▸ hi))).taskId
  rw [hids]
  exact List.nodup_range.map (shardTaskId_injective task)

/-- **Sharded execution covers the input in order.**  An `Ok` has as many results as the input has shards, at
least one; the `i`-th is a verified execution of the `i`-th shard, under a task id of its own; the shards
put together are the input; and no peer had two first attempts in one wave.  If no attempt on some shard
succeeded, the call returns an error. -/
theorem sharded_execution_covers (W : Surroundings P σ) (own : NodeIdentity P) (codec : MessageCodec)
    (meanwhile : Meanwhile σ) (task : Task) (component input : Bytes) (peers : List PeerId)
    (shardBytes : ℕ) (s : PlacementCounts × σ) :
    (∀ d progress,
      W.executeShardedBytesP2p own codec meanwhile task component peers input shardBytes s =
        (.ok d, progress) →
      d.shards.length = max 1 (divCeil input.length shardBytes) ∧
      d.outputs.length = d.shards.length ∧
      (∀ i record output, d.shards[i]? = some record → d.outputs[i]? = some output →
        VerifiedShard P task i (chunkAt shardBytes input i) (record, output)) ∧
      (d.shards.map fun record => record.taskId).Nodup ∧
      ((List.range d.shards.length).map (chunkAt shardBytes input)).flatten = input ∧
      ((progress.attempts.filter Attempt.first).map fun a => (a.wave, a.worker)).Nodup) ∧
    ∀ i < max 1 (divCeil input.length shardBytes),
      ¬ Succeeded peers (W.executeShardedBytesP2p own codec meanwhile task component peers input
        shardBytes s).2.attempts i →
      ∃ err, (W.executeShardedBytesP2p own codec meanwhile task component peers input shardBytes s).1 =
        .error err := by
  constructor
  · intro d progress hok
    obtain ⟨hpos, hpeers, hrun, _, _⟩ := executeShardedBytesP2p_ok hok
    obtain ⟨hcount, houtput, hverified⟩ := sharded_results hok
    obtain ⟨_, hfirst, _⟩ := runPieces_ok (shardCrew_sound W own codec meanwhile task component) hpeers
      (distinctPeers_nodup peers) hrun
    refine ⟨hcount, houtput, hverified, sharded_ids_nodup hok, ?_, hfirst⟩
    rw [hcount]
    exact shards_flatten input hpos
  · intro i hi hfails
    rcases hcall : W.executeShardedBytesP2p own codec meanwhile task component peers input shardBytes s
      with ⟨_ | d, progress⟩
    · exact ⟨_, rfl⟩
    · obtain ⟨hpos, hpeers, hrun, _, _⟩ := executeShardedBytesP2p_ok hcall
      obtain ⟨_, _, hall⟩ := runPieces_ok (shardCrew_sound W own codec meanwhile task component) hpeers
        (distinctPeers_nodup peers) hrun
      rw [hcall] at hfails
      rw [shards_eq input hpos, List.length_map, List.length_range] at hall
      obtain ⟨a, ha, hindex, hworker, hsucceeded⟩ := hall i hi
      exact absurd ⟨a, ha, hindex, distinctPeers_subset hworker, hsucceeded⟩ hfails

/-! ### Sample run -/

section Samples

open Sample

/-- The signed result of a shard of three bytes cut in two. -/
def shardedResult (index : ℕ) : Option Message :=
  (SignedExecutionRecord.seal ⟨shardTaskId replicatedTask index, member [8], replicatedTask.component,
    ContentId.of primitives (chunkAt 2 [1, 2, 3] index), ContentId.of primitives [7],
    ContentId.of primitives [], 1, 2⟩ (identity [8])).toOption.map .taskResult

/-- A response is the shard and the place in the conversation. -/
def shardedCodec : MessageCodec where
  encode := fun _ => []
  parse := fun bytes =>
    match bytes with
    | [_, 0] => some (.hasContent replicatedTask.component)
    | [index, 1] => some (.hasContent (ContentId.of primitives (chunkAt 2 [1, 2, 3] index.toNat)))
    | [index, 2] => some (.taskAccept (shardTaskId replicatedTask index.toNat))
    | [index, 3] => shardedResult index.toNat
    | [_, 4] => some (.content (ContentId.of primitives [7]) [7])
    | _ => none

/-- The `n`-th response to a conversation about a shard, under a peer's key. -/
def shardedReply (index : ℕ) (peer : Bytes) (n : ℕ) : Except String SignedEnvelope :=
  match (SignedEnvelope.seal [UInt8.ofNat index, UInt8.ofNat n] (identity peer)).toOption with
  | none => .error "timeout"
  | some envelope => .ok envelope

/-- In the threads only the first shard succeeds; later every peer executes the second. -/
def shardedThreads : Meanwhile ℕ := fun _ n =>
  (fun index => ⟨if index = 0 then shardedReply 0 [8] else fun _ => .error "timeout", fun _ => 7, false⟩, n)

def laterPeers : Surroundings primitives ℕ where
  toPeerId := PeerId.mk
  now := fun n => (7, n)
  request := fun peer _ n => (shardedReply 1 peer.bytes n, n + 1)
  recordSuccess := fun _ n => (true, n)
  recordFailure := fun _ _ n => (true, n)
  countOrder := id

/-- Two peers, one of them listed twice. -/
def shardedPeers : List PeerId := [⟨[9]⟩, ⟨[8]⟩, ⟨[9]⟩]

/-- The call of the sample. -/
def shardedCall : Except RemoteError DistributedExecution ×
    Progress (PlacementCounts × ℕ) PeerId (ExecutionRecord × Bytes) :=
  laterPeers.executeShardedBytesP2p (identity [3]) shardedCodec shardedThreads replicatedTask [1]
    shardedPeers [1, 2, 3] 2 (∅, 0)

/-- Three bytes in two shards, the second of which is executed at the second attempt. -/
theorem three_bytes_two_shards : ∃ d progress, shardedCall = (.ok d, progress) ∧ d.shards.length = 2 ∧
    (d.shards.map fun record => record.taskId).Nodup ∧
    progress.attempts.map (fun a => (a.index, a.worker, a.ok)) =
      [(0, ⟨[8]⟩, true), (1, ⟨[9]⟩, false), (1, ⟨[8]⟩, true)] := by
  have hcall : shardedCall.1.toOption.map (fun _ => decide (
      shardedCall.2.attempts.map (fun a => (a.index, a.worker, a.ok)) =
        [(0, ⟨[8]⟩, true), (1, ⟨[9]⟩, false), (1, ⟨[8]⟩, true)])) = some true := by
    decide +kernel
  obtain ⟨d, progress, hok, hattempts⟩ := ok_of_map hcall
  obtain ⟨hcount, _, _, hids, _, _⟩ := (sharded_execution_covers laterPeers (identity [3]) shardedCodec
    shardedThreads replicatedTask [1] [1, 2, 3] shardedPeers 2 (∅, 0)).1 d progress hok
  rw [hok] at hattempts
  exact ⟨d, progress, hok, hcount, hids, of_decide_eq_true hattempts⟩

end Samples

end Peerless.Node
