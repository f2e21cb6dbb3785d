import Peerless.Node.Upload

/-!
# A transfer in chunks, among other requests

A client transfers a content in chunks while other clients send whatever they like.  Before each of the
client's requests the node serves any number of requests of others (`Turn`).
-/

namespace Peerless.Node

open Text Wire HashMap Inquiry Peerless.Core Identity Protocol Storage

/-- What happens up to one request of the client: the requests of others, then what the node reads while
it serves the client's own. -/
structure Turn where
  visits : List Visit
  reading : Reading

variable {P : Primitives} {τ : Type}

/-- The node after some requests. -/
def Server.visits (server : Server P τ) (s : Receiver τ) (vs : List Visit) : Receiver τ :=
  vs.foldl (fun s v => (server.handle s v).1) s

/-- What the client gets of a request, and the world it leaves: the node and the number of the next
turn. -/
def delivered (next : ℕ) : Receiver τ × Except HandleError SignedEnvelope →
    Except RemoteError SignedEnvelope × (Receiver τ × ℕ)
  | (s, .error _) => (.error (.p2p "the peer did not answer"), (s, next))
  | (s, .ok response) => (.ok response, (s, next))

/-- How a request of the client reaches the node. -/
def Server.send (server : Server P τ) (turns : ℕ → Turn) (envelope : SignedEnvelope) :
    Talk RemoteError (Receiver τ × ℕ) SignedEnvelope :=
  ExceptT.mk fun w => delivered (w.2 + 1)
    (server.handle (server.visits w.1 (turns w.2).visits) ⟨envelope, (turns w.2).reading⟩)

/-- The client. -/
def Server.client (server : Server P τ) (identity : NodeIdentity P) (turns : ℕ → Turn) :
    Requester P (Receiver τ × ℕ) where
  identity
  codec := server.codec
  now := ExceptT.mk fun w => (.ok (turns w.2).reading.now, w)
  send := server.send turns

/-! ### The node along the client's requests -/

section Along

variable (server : Server P τ) (me : NodeId) (turns : ℕ → Turn)

/-- The node after the requests of others in a turn. -/
def Server.before (n : ℕ) (s : Receiver τ) : Receiver τ := server.visits s (turns n).visits

/-- The node after a request of the client in a turn. -/
def Server.step (n : ℕ) (s : Receiver τ) (message : Message) : Receiver τ :=
  (server.respond (server.before turns n s) message me (turns n).reading).1

/-- The node after the client's requests, from turn `n` on. -/
def Server.after : ℕ → Receiver τ → List Message → Receiver τ
  | _, s, [] => s
  | n, s, message :: messages => Server.after (n + 1) (server.step me turns n s message) messages

/-- No request of the client is refused by the budget or the membership policy. -/
def Server.Admits : ℕ → Receiver τ → List Message → Prop
  | _, _, [] => True
  | n, s, message :: messages =>
    (server.before turns n s).node.admission
        ((server.before turns n s).budget.consume me (turns n).reading.now).2 message me
        (turns n).reading.later = none ∧
      Server.Admits (n + 1) (server.step me turns n s message) messages

/-- The requests in the turns are those of others. -/
def OfOthers : Prop := ∀ n, ∀ v ∈ (turns n).visits, ∀ message signer,
  v.envelope.openWithSigner P server.codec.parse = .ok (message, signer) → signer ≠ me

end Along

/-- The request for the chunk `i`. -/
def chunkRequest (P : Primitives) (id : ContentId) (bytes : Bytes) (i : ℕ) : Message :=
  .contentChunk id (i % 2 ^ 32) (chunkAt contentChunkSize bytes i)
    (ContentId.of P (chunkAt contentChunkSize bytes i))

/-- The requests for the chunks `i` to `i + k - 1` of a content. -/
def chunkRequests (P : Primitives) (id : ContentId) (bytes : Bytes) (i k : ℕ) : List Message :=
  (List.range' i k).map (chunkRequest P id bytes)

/-- How many chunks a content has. -/
def chunkCount (bytes : Bytes) : ℕ := divCeil bytes.length contentChunkSize

/-- The request that starts a transfer. -/
def startRequest (id : ContentId) (bytes : Bytes) : Message :=
  .contentStart id bytes.length contentChunkSize

/-- The requests of a transfer up to its completion. -/
def transferRequests (P : Primitives) (bytes : Bytes) : List Message :=
  startRequest (ContentId.of P bytes) bytes ::
    chunkRequests P (ContentId.of P bytes) bytes 0 (chunkCount bytes)

/-- The session of a content of which the first `i` chunks have arrived. -/
def sessionOf (bytes : Bytes) (i : ℕ) : UploadSession where
  totalSize := bytes.length
  chunkSize := contentChunkSize
  chunks := (List.range (chunkCount bytes)).map fun j =>
    if j < i then some (chunkAt contentChunkSize bytes j) else none

variable {server : Server P τ} {identity : NodeIdentity P} {turns : ℕ → Turn} {me : NodeId}

/-- What every visit of a turn keeps is as it was before the turn. -/
theorem Server.before_kept {β : Type} (f : Receiver τ → β) {n : ℕ}
    (hkept : ∀ v ∈ (turns n).visits, ∀ s, f (server.handle s v).1 = f s) (s : Receiver τ) :
    f (server.before turns n s) = f s := by
  have hvisits : ∀ (vs : List Visit), (∀ v ∈ vs, ∀ s, f (server.handle s v).1 = f s) →
      ∀ s, f (server.visits s vs) = f s := by
    intro vs
    induction vs with
    | nil => exact fun _ s => rfl
    | cons v vs ih =>
      intro hvs s
      have hrest := ih (fun w hw => hvs w (List.mem_cons_of_mem v hw)) (server.handle s v).1
      exact hrest.trans (hvs v List.mem_cons_self s)
  exact hvisits _ hkept s

/-- The requests of others leave the client's session alone. -/
theorem Server.before_session (hothers : OfOthers server me turns) (n : ℕ) (s : Receiver τ)
    (id : ContentId) :
    (server.before turns n s).uploads.lookup (me, id) = s.uploads.lookup (me, id) :=
  Server.before_kept (fun s => s.uploads.lookup (me, id))
    (fun v hv s => server.handle_other s (hothers n v hv) id) s

/-! ### One request -/

variable {s : Receiver τ} {message : Message}

/-- A request that is let in is served, by the node as it is but for the budget. -/
theorem Server.respond_admitted (server : Server P τ) {reading : Reading}
    (h : s.node.admission (s.budget.consume me reading.now).2 message me reading.later = none) :
    ∃ charged : Receiver τ, charged.uploads = s.uploads ∧ charged.cas = s.cas ∧
      server.respond s message me reading =
        charged.serve P server.elsewhere message me reading.writable := by
  refine ⟨{ s with budget := (s.budget.consume me reading.now).1 }, rfl, rfl, ?_⟩
  rw [Server.respond]
  simp only [h]

/-- A refused request is answered by a `TaskReject`. -/
theorem PeerlessNode.admission_refusal {s : PeerlessNode} {withinBudget : Bool} {refusal : Message}
    {now : ℕ} (h : s.admission withinBudget message me now = some refusal) :
    ∃ reason, refusal = .taskReject "" reason := by
  rw [PeerlessNode.admission] at h
  split at h
  · cases h
    exact ⟨_, rfl⟩
  · split at h
    · cases h
    · dsimp only at h
      split at h
      · cases h
      · cases h
        exact ⟨_, rfl⟩

variable {n : ℕ}

/-- **One exchange**: the client reads what the node answered. -/
theorem exchange_ok (hP : P.Lawful) {response : Message}
    (hmessage : server.codec.parse (server.codec.encode message) = some message)
    (hresponse : server.codec.parse (server.codec.encode response) = some response) {s' : Receiver τ}
    (hrespond : server.respond (server.before turns n s) message identity.nodeId (turns n).reading =
      (s', .ok response)) :
    answer ((server.client identity turns).exchange message) (s, n) = (.ok response, (s', n + 1)) := by
  obtain ⟨envelope, hseal, _, hopen⟩ := SignedEnvelope.open_seal hP hmessage identity
  obtain ⟨reply, hreply, _, hread⟩ := SignedEnvelope.open_seal hP hresponse server.identity
  have hhandle : server.handle (server.before turns n s) ⟨envelope, (turns n).reading⟩ =
      (s', .ok reply) := by
    rw [Server.handle]
    simp only [hopen, hrespond, hreply]
    rfl
  have hsend : answer ((server.client identity turns).send envelope) (s, n) = (.ok reply, (s', n + 1)) := by
    show delivered (n + 1) (server.handle (server.before turns n s) ⟨envelope, (turns n).reading⟩) = _
    rw [hhandle]
    rfl
  rw [Requester.exchange]
  have hclient : SignedEnvelope.seal ((server.client identity turns).codec.encode message)
      (server.client identity turns).identity = .ok envelope := hseal
  rw [hclient]
  refine answer_bind_ok.mpr ⟨reply, (s', n + 1), hsend, ?_⟩
  have hanswer : reply.openWithSigner P (server.client identity turns).codec.parse =
      .ok (response, server.identity.nodeId) := hread
  rw [hanswer]
  rfl

theorem confirm_ok {σ : Type} (id : ContentId) (w : σ) :
    answer (Requester.confirm id (.hasContent id)) w = (.ok (), w) := by
  rw [Requester.confirm, if_pos rfl]
  rfl

theorem confirmStart_ok {σ : Type} (id : ContentId) (w : σ) :
    answer (Requester.confirmStart id (.hasContent id)) w = (.ok (), w) := by
  rw [Requester.confirmStart, if_pos rfl]
  rfl

/-! ### The session of a transfer -/

theorem sessionOf_zero (bytes : Bytes) : sessionOf bytes 0 =
    ⟨bytes.length, contentChunkSize, List.replicate (chunkCount bytes) none⟩ := by
  simp [sessionOf, List.map_const']

theorem contentStart_of {id : ContentId} {bytes : Bytes}
    (hstart : s.canStart me id bytes.length contentChunkSize = true) :
    s.contentStart me id bytes.length contentChunkSize =
      ({ s with uploads := s.uploads.insert (me, id) (sessionOf bytes 0) }, .hasContent id) := by
  rw [sessionOf_zero]
  exact if_pos hstart

theorem sessionOf_set (bytes : Bytes) (i : ℕ) :
    (sessionOf bytes i).chunks.set i (some (chunkAt contentChunkSize bytes i)) =
      (sessionOf bytes (i + 1)).chunks := by
  refine List.ext_getElem (by simp [sessionOf]) fun j hj hj' => ?_
  rw [List.getElem_set]
  by_cases hij : i = j
  · subst hij
    simp [sessionOf]
  · have hkeep : (j < i + 1) = (j < i) := propext (by omega)
    simp only [if_neg hij, sessionOf, List.getElem_map, List.getElem_range, hkeep]

theorem contentChunk_of {id : ContentId} {bytes : Bytes} {i : ℕ}
    (hsession : s.uploads.lookup (me, id) = some (sessionOf bytes i)) (hi : i < chunkCount bytes)
    (hcount : chunkCount bytes ≤ 2 ^ 32) :
    s.contentChunk P me id (i % 2 ^ 32) (chunkAt contentChunkSize bytes i)
        (ContentId.of P (chunkAt contentChunkSize bytes i)) =
      ({ s with uploads := s.uploads.insert (me, id) (sessionOf bytes (i + 1)) },
        .hasContent (ContentId.of P (chunkAt contentChunkSize bytes i))) := by
  have hindex : i % 2 ^ 32 = i := Nat.mod_eq_of_lt (by omega)
  have hlength : (sessionOf bytes i).chunks.length = chunkCount bytes := by
    simp [sessionOf]
  have htakes : Receiver.takesChunk P (sessionOf bytes i) i (chunkAt contentChunkSize bytes i)
      (ContentId.of P (chunkAt contentChunkSize bytes i)) = true := by
    refine decide_eq_true ⟨decide_eq_true rfl, ?_, by omega⟩
    rw [chunkAt_length]
    exact Nat.min_le_left _ _
  have hnext : ({ sessionOf bytes i with
      chunks := (sessionOf bytes i).chunks.set i (some (chunkAt contentChunkSize bytes i)) } :
        UploadSession) = sessionOf bytes (i + 1) := by
    rw [sessionOf_set]
    rfl
  rw [Receiver.contentChunk, hsession, hindex]
  simp only [htakes, if_true, hnext]

theorem contentComplete_of {bytes : Bytes}
    (hsession : s.uploads.lookup (me, ContentId.of P bytes) = some (sessionOf bytes (chunkCount bytes)))
    (writable : Bool) :
    s.contentComplete P me (ContentId.of P bytes) writable =
      Receiver.store P { s with uploads := s.uploads.erase (me, ContentId.of P bytes) } bytes writable
        (.hasContent (ContentId.of P bytes)) := by
  have hchunks : (sessionOf bytes (chunkCount bytes)).chunks =
      ((List.range (chunkCount bytes)).map (chunkAt contentChunkSize bytes)).map some := by
    rw [List.map_map]
    exact List.map_congr_left fun j hj => if_pos (List.mem_range.mp hj)
  have hall : (sessionOf bytes (chunkCount bytes)).chunks.all Option.isSome = true := by
    rw [hchunks]
    simp
  have hcover : bytes.length ≤ chunkCount bytes * contentChunkSize := le_divCeil_mul (by decide)
  have hflat : ((sessionOf bytes (chunkCount bytes)).chunks.filterMap fun chunk => chunk).flatten =
      bytes := by
    rw [hchunks, List.filterMap_map]
    show (List.filterMap some _).flatten = bytes
    rw [List.filterMap_some, flatten_chunkAt, List.take_of_length_le hcover]
  rw [Receiver.contentComplete, hsession]
  simp only [hall, if_true, hflat]
  exact if_pos ⟨rfl, decide_eq_true rfl⟩

/-! ### The requests of the transfer, one by one -/

/-- **The start**: the session is there, and empty. -/
theorem Server.step_start {bytes : Bytes} {id : ContentId} {messages : List Message}
    (hstart : (server.before turns n s).canStart me id bytes.length contentChunkSize = true)
    (hadmits : server.Admits me turns n s (startRequest id bytes :: messages)) :
    server.respond (server.before turns n s) (startRequest id bytes) me (turns n).reading =
        (server.step me turns n s (startRequest id bytes), .ok (.hasContent id)) ∧
      (server.step me turns n s (startRequest id bytes)).uploads.lookup (me, id) =
        some (sessionOf bytes 0) := by
  obtain ⟨charged, huploads, _, hrespond⟩ := server.respond_admitted hadmits.1
  have hcharged : charged.canStart me id bytes.length contentChunkSize = true := by
    rw [Receiver.canStart, huploads]
    exact hstart
  rw [startRequest, Receiver.serve, contentStart_of hcharged] at hrespond
  rw [Server.step, startRequest, hrespond]
  exact ⟨rfl, AList.lookup_insert _⟩

theorem Server.step_chunk (hothers : OfOthers server me turns) {bytes : Bytes} {id : ContentId} {i : ℕ}
    {messages : List Message} (hsession : s.uploads.lookup (me, id) = some (sessionOf bytes i))
    (hi : i < chunkCount bytes) (hcount : chunkCount bytes ≤ 2 ^ 32)
    (hadmits : server.Admits me turns n s (chunkRequest P id bytes i :: messages)) :
    server.respond (server.before turns n s) (chunkRequest P id bytes i) me (turns n).reading =
        (server.step me turns n s (chunkRequest P id bytes i),
          .ok (.hasContent (ContentId.of P (chunkAt contentChunkSize bytes i)))) ∧
      (server.step me turns n s (chunkRequest P id bytes i)).uploads.lookup (me, id) =
        some (sessionOf bytes (i + 1)) := by
  obtain ⟨charged, huploads, _, hrespond⟩ := server.respond_admitted hadmits.1
  have hcharged : charged.uploads.lookup (me, id) = some (sessionOf bytes i) := by
    rw [huploads, Server.before_session hothers]
    exact hsession
  rw [chunkRequest, Receiver.serve, contentChunk_of hcharged hi hcount] at hrespond
  rw [Server.step, chunkRequest, hrespond]
  exact ⟨rfl, AList.lookup_insert _⟩

/-- **The end**: the store holds the content, or what it held under its hash before. -/
theorem Server.step_complete (hothers : OfOthers server me turns) {bytes : Bytes}
    (hsession : s.uploads.lookup (me, ContentId.of P bytes) =
      some (sessionOf bytes (chunkCount bytes)))
    (hadmits : server.Admits me turns n s [.contentComplete (ContentId.of P bytes)])
    (hput : ((server.before turns n s).cas.put P bytes (turns n).reading.writable).2 =
      .ok (ContentId.of P bytes)) :
    ∃ s', server.respond (server.before turns n s) (.contentComplete (ContentId.of P bytes)) me
        (turns n).reading = (s', .ok (.hasContent (ContentId.of P bytes))) ∧
      ∃ stored, s'.cas.get P (ContentId.of P bytes) = .ok stored ∧ (stored = bytes ∨
        (server.before turns n s).cas.lookup (ContentId.of P bytes) = some stored) := by
  obtain ⟨charged, huploads, hcas, hrespond⟩ := server.respond_admitted hadmits.1
  have hcharged : charged.uploads.lookup (me, ContentId.of P bytes) =
      some (sessionOf bytes (chunkCount bytes)) := by
    rw [huploads, Server.before_session hothers]
    exact hsession
  rw [Receiver.serve, contentComplete_of hcharged] at hrespond
  obtain ⟨files, hfiles⟩ : ∃ files, charged.cas.put P bytes (turns n).reading.writable =
      (files, .ok (ContentId.of P bytes)) := by
    rw [hcas]
    exact ⟨_, Prod.ext rfl hput⟩
  obtain ⟨_, stored, hget, hwhich⟩ := Cas.put_ok hfiles
  rw [hcas] at hwhich
  rw [Receiver.store] at hrespond
  simp only [hfiles] at hrespond
  exact ⟨_, hrespond, stored, hget, hwhich⟩

/-! ### The loop -/

/-- **The loop over the chunks**: by induction on the chunks that are left. -/
theorem sendChunks_ok (hP : P.Lawful) (hothers : OfOthers server identity.nodeId turns) {bytes : Bytes}
    {id : ContentId} (hcount : chunkCount bytes ≤ 2 ^ 32)
    (hcodec : ∀ j < chunkCount bytes, server.codec.parse (server.codec.encode
      (chunkRequest P id bytes j)) = some (chunkRequest P id bytes j))
    (hconfirm : ∀ found, server.codec.parse (server.codec.encode (.hasContent found)) =
      some (.hasContent found)) (rest : List Message) :
    ∀ (k i n : ℕ) (s : Receiver τ), i + k = chunkCount bytes →
      s.uploads.lookup (identity.nodeId, id) = some (sessionOf bytes i) →
      server.Admits identity.nodeId turns n s (chunkRequests P id bytes i k ++ rest) →
      ∃ s', s' = server.after identity.nodeId turns n s (chunkRequests P id bytes i k) ∧
        answer ((server.client identity turns).sendChunks id i
          ((List.range' i k).map (chunkAt contentChunkSize bytes))) (s, n) = (.ok (), (s', n + k)) ∧
        s'.uploads.lookup (identity.nodeId, id) = some (sessionOf bytes (chunkCount bytes)) ∧
        server.Admits identity.nodeId turns (n + k) s' rest := by
  intro k
  induction k with
  | zero =>
    intro i n s hik hsession hadmits
    rw [Nat.add_zero] at hik
    rw [hik] at hsession
    exact ⟨s, rfl, rfl, hsession, hadmits⟩
  | succ k ih =>
    intro i n s hik hsession hadmits
    have hi : i < chunkCount bytes := by omega
    have hsplit : chunkRequests P id bytes i (k + 1) =
        chunkRequest P id bytes i :: chunkRequests P id bytes (i + 1) k := rfl
    rw [hsplit] at hadmits
    obtain ⟨hrespond, hnext⟩ := Server.step_chunk hothers hsession hi hcount hadmits
    obtain ⟨s', hafter, hloop, hfull, hrest⟩ := ih (i + 1) (n + 1) _ (by omega) hnext hadmits.2
    have hturn : n + (k + 1) = n + 1 + k := by omega
    rw [hturn]
    refine ⟨s', hafter, ?_, hfull, hrest⟩
    have hexchange := exchange_ok hP (hcodec i hi) (hconfirm _) hrespond
    exact answer_bind_ok.mpr ⟨_, _, hexchange, answer_bind_ok.mpr ⟨(), _, confirm_ok _ _, hloop⟩⟩

end Peerless.Node
