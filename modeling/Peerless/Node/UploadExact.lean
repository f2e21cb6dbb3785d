import Peerless.Node.Transfer
import Peerless.Sample

/-!
# A transfer in chunks is exact

The requests of a transfer put together: the start, the loop over the chunks and the completion.

* `transfer_exact` — the transfer returns `Ok` and the store holds the content; a
  `ContentComplete` is only ever confirmed if the store holds the content.
-/

namespace Peerless.Node

open Text Wire HashMap Inquiry Peerless.Core Identity Protocol Storage

variable {P : Primitives} {τ : Type} {server : Server P τ} {identity : NodeIdentity P} {turns : ℕ → Turn}
  {me : NodeId}

theorem chunkCount_le {bytes : Bytes} (hsize : bytes.length ≤ maxContentSize) :
    chunkCount bytes ≤ 2 ^ 32 := by
  by_contra hcount
  have hlast : 2 ^ 32 * contentChunkSize < bytes.length :=
    mul_lt_of_lt_divCeil (Nat.lt_of_not_le hcount)
  have hlimit : maxContentSize < 2 ^ 32 * contentChunkSize := by decide
  omega

/-- The node when the completion of a transfer reaches it. -/
def Server.atEnd (server : Server P τ) (me : NodeId) (turns : ℕ → Turn) (s : Receiver τ) (bytes : Bytes) :
    Receiver τ :=
  server.before turns (chunkCount bytes + 1) (server.after me turns 0 s (transferRequests P bytes))

/-- A transfer in chunks that the node can take: the requests in between are those of others, the codec
reads what it wrote, the start is accepted, no request of the client is refused, and the store takes the
content. -/
structure Deliverable (server : Server P τ) (identity : NodeIdentity P) (turns : ℕ → Turn)
    (s : Receiver τ) (bytes : Bytes) : Prop where
  long : contentChunkSize < bytes.length
  small : bytes.length ≤ maxContentSize
  others : OfOthers server identity.nodeId turns
  requests : ∀ message ∈ transferRequests P bytes ++ [.contentComplete (ContentId.of P bytes)],
    server.codec.parse (server.codec.encode message) = some message
  confirms : ∀ found, server.codec.parse (server.codec.encode (.hasContent found)) =
    some (.hasContent found)
  starts : (server.before turns 0 s).canStart identity.nodeId (ContentId.of P bytes) bytes.length
    contentChunkSize = true
  admits : server.Admits identity.nodeId turns 0 s
    (transferRequests P bytes ++ [.contentComplete (ContentId.of P bytes)])
  written : ((server.atEnd identity.nodeId turns s bytes).cas.put P bytes
    (turns (chunkCount bytes + 1)).reading.writable).2 = .ok (ContentId.of P bytes)

/-- The store, besides, holds no other bytes with the hash of the content. -/
structure Transferable (server : Server P τ) (identity : NodeIdentity P) (turns : ℕ → Turn)
    (s : Receiver τ) (bytes : Bytes) : Prop extends Deliverable server identity turns s bytes where
  unique : ∀ stored, (server.atEnd identity.nodeId turns s bytes).cas.lookup (ContentId.of P bytes) =
    some stored → P.sha256 stored = P.sha256 bytes → stored = bytes

theorem length_transferRequests (bytes : Bytes) :
    (transferRequests P bytes).length = chunkCount bytes + 1 := by
  rw [transferRequests, chunkRequests, List.length_cons, List.length_map, List.length_range']

/-- The node after a transfer. -/
def Server.uploaded (server : Server P τ) (me : NodeId) (turns : ℕ → Turn) (s : Receiver τ) (bytes : Bytes) :
    Receiver τ :=
  server.after me turns 0 s (transferRequests P bytes ++ [.contentComplete (ContentId.of P bytes)])

theorem Server.after_append (server : Server P τ) (me : NodeId) (turns : ℕ → Turn) (message : Message) :
    ∀ (messages : List Message) (n : ℕ) (s : Receiver τ),
      server.after me turns n s (messages ++ [message]) =
        server.step me turns (n + messages.length) (server.after me turns n s messages) message := by
  intro messages
  induction messages with
  | nil => intro n s; rfl
  | cons first messages ih =>
    intro n s
    rw [List.cons_append, Server.after, Server.after, ih, List.length_cons, Nat.add_right_comm,
      Nat.add_assoc]

variable {s : Receiver τ}

/-- The conversation, request by request, and the node it leaves. -/
theorem Deliverable.answers (hP : P.Lawful) {bytes : Bytes}
    (h : Deliverable server identity turns s bytes) :
    answer ((server.client identity turns).transferContentVia (ContentId.of P bytes) bytes) (s, 0) =
        (.ok (), (server.uploaded identity.nodeId turns s bytes, chunkCount bytes + 2)) ∧
      ∃ stored, (server.uploaded identity.nodeId turns s bytes).cas.get P (ContentId.of P bytes) = .ok stored ∧
        (stored = bytes ∨
          (server.atEnd identity.nodeId turns s bytes).cas.lookup (ContentId.of P bytes) = some stored) := by
  have hread : ∀ message, message ∈ transferRequests P bytes ∨
      message = .contentComplete (ContentId.of P bytes) →
      server.codec.parse (server.codec.encode message) = some message := fun message hmessage =>
    h.requests message (by
      rw [List.mem_append, List.mem_singleton]
      exact hmessage)
  obtain ⟨hrespond, hsession⟩ := Server.step_start h.starts h.admits
  have hchunks : ∀ j < chunkCount bytes, server.codec.parse (server.codec.encode
      (chunkRequest P (ContentId.of P bytes) bytes j)) =
        some (chunkRequest P (ContentId.of P bytes) bytes j) := fun j hj =>
    hread _ (.inl (List.mem_cons_of_mem _ (List.mem_map_of_mem (List.mem_range'_1.mpr (by omega)))))
  obtain ⟨s₁, rfl, hloop, hfull, hlast⟩ := sendChunks_ok hP h.others (chunkCount_le h.small) hchunks
    h.confirms [.contentComplete (ContentId.of P bytes)] (chunkCount bytes) 0 1 _ (Nat.zero_add _)
    hsession h.admits.2
  rw [Nat.add_comm 1] at hloop hlast
  obtain ⟨s', hend, hheld⟩ := Server.step_complete h.others hfull hlast h.written
  have hs' : s' = server.uploaded identity.nodeId turns s bytes := by
    rw [Server.uploaded, Server.after_append, length_transferRequests, Nat.zero_add]
    exact (congrArg Prod.fst hend).symm
  subst hs'
  refine ⟨?_, hheld⟩
  rw [← List.range_eq_range'] at hloop
  have hverify : (ContentId.of P bytes).verify P bytes = true := decide_eq_true rfl
  have hstart := exchange_ok hP (hread _ (.inl List.mem_cons_self)) (h.confirms _) hrespond
  have hcomplete := exchange_ok hP (hread _ (.inr rfl)) (h.confirms _) hend
  rw [Requester.transferContentVia, if_neg (not_not.mpr hverify), if_neg (Nat.not_le.mpr h.long)]
  refine answer_bind_ok.mpr ⟨_, _, hstart, answer_bind_ok.mpr ⟨(), _, confirmStart_ok _ _, ?_⟩⟩
  refine answer_bind_ok.mpr ⟨(), _, hloop, answer_bind_ok.mpr ⟨_, _, hcomplete, ?_⟩⟩
  exact confirm_ok _ _

/-- **The store holds the content** if it held no other bytes with its hash. -/
theorem Transferable.uploads (hP : P.Lawful) {bytes : Bytes}
    (h : Transferable server identity turns s bytes) :
    answer ((server.client identity turns).transferContentVia (ContentId.of P bytes) bytes) (s, 0) =
        (.ok (), (server.uploaded identity.nodeId turns s bytes, chunkCount bytes + 2)) ∧
      (server.uploaded identity.nodeId turns s bytes).cas.get P (ContentId.of P bytes) = .ok bytes := by
  obtain ⟨hanswer, stored, hget, hwhich⟩ := h.toDeliverable.answers hP
  refine ⟨hanswer, ?_⟩
  have hbytes : stored = bytes := by
    rcases hwhich with rfl | hlookup
    · rfl
    · exact h.unique stored hlookup (congrArg ContentId.digest (Cas.get_ok hget).2.symm)
  rw [hbytes] at hget
  exact hget

theorem Transferable.transfers (hP : P.Lawful) {bytes : Bytes}
    (h : Transferable server identity turns s bytes) :
    ∃ s', answer ((server.client identity turns).transferContentVia (ContentId.of P bytes) bytes) (s, 0) =
        (.ok (), (s', chunkCount bytes + 2)) ∧
      s'.cas.get P (ContentId.of P bytes) = .ok bytes :=
  ⟨_, h.uploads hP⟩

/-! ### A node with one client -/

theorem Server.before_alone (server : Server P τ) (halone : ∀ n, (turns n).visits = []) (n : ℕ)
    (s : Receiver τ) : server.before turns n s = s := by
  rw [Server.before, halone n]
  rfl

/-- A request is charged to the budget, whatever the answer, and changes no policy. -/
theorem Server.respond_kept (server : Server P τ) (s : Receiver τ) (message : Message) (signer : NodeId)
    (reading : Reading) :
    (server.respond s message signer reading).1.budget = (s.budget.consume signer reading.now).1 ∧
      (server.respond s message signer reading).1.node = s.node := by
  rw [Server.respond]
  dsimp only
  split
  · exact ⟨rfl, rfl⟩
  · exact Receiver.serve_kept _ _ _ _ _

theorem Server.step_kept (server : Server P τ) (me : NodeId) (halone : ∀ n, (turns n).visits = [])
    (n : ℕ) (s : Receiver τ) (message : Message) :
    (server.step me turns n s message).budget = (s.budget.consume me (turns n).reading.now).1 ∧
      (server.step me turns n s message).node = s.node := by
  rw [Server.step, server.before_alone halone n s]
  exact server.respond_kept s message me (turns n).reading

theorem Server.admits_append (server : Server P τ) : ∀ (messages rest : List Message) (n : ℕ) (s : Receiver τ),
    server.Admits me turns n s (messages ++ rest) ↔ server.Admits me turns n s messages ∧
      server.Admits me turns (n + messages.length) (server.after me turns n s messages) rest := by
  intro messages
  induction messages with
  | nil =>
    intro rest n s
    exact ⟨fun h => ⟨trivial, h⟩, fun h => h.2⟩
  | cons message messages ih =>
    intro rest n s
    rw [List.cons_append, Server.Admits, Server.Admits, Server.after, ih, and_assoc, List.length_cons,
      Nat.add_right_comm, Nat.add_assoc]

/-! ### Few requests -/

/-- A node without a policy that has counted few requests in the window, of anyone and of a client. -/
structure Receiver.Light (s : Receiver τ) (me : NodeId) (k : ℕ) : Prop where
  policy : s.node.policy = none
  global : s.budget.global ≤ k
  own : (s.budget.identities.lookup me).getD 0 ≤ k

variable {k : ℕ}

theorem Receiver.Light.mono (h : s.Light me k) {l : ℕ} (hle : k ≤ l) : s.Light me l :=
  ⟨h.policy, h.global.trans hle, h.own.trans hle⟩

theorem Receiver.Light.admission (h : s.Light me k) (hk : k < maxRequestsPerIdentityPerWindow)
    (message : Message) (reading : Reading) :
    s.node.admission (s.budget.consume me reading.now).2 message me reading.later = none := by
  rw [PeerlessNode.admission,
    (RequestBudget.consume_within h.global h.own me reading.now).2.2 rfl hk, h.policy]
  rfl

/-- One more request, of the client or of another. -/
theorem Receiver.Light.respond (h : s.Light me k) (server : Server P τ) (message : Message)
    (signer : NodeId) (reading : Reading) : (server.respond s message signer reading).1.Light me (k + 1) := by
  obtain ⟨hbudget, hnode⟩ := server.respond_kept s message signer reading
  obtain ⟨hglobal, hown, _⟩ := RequestBudget.consume_within h.global h.own signer reading.now
  refine ⟨?_, ?_, ?_⟩
  · rw [hnode]
    exact h.policy
  · rw [hbudget]
    exact hglobal
  · rw [hbudget]
    exact hown

/-- A request that opens leaves the node as its answer leaves it; another leaves it as it is. -/
theorem Server.handle_node (server : Server P τ) (s : Receiver τ) (v : Visit) :
    (server.handle s v).1 = s ∨ ∃ message signer,
      v.envelope.openWithSigner P server.codec.parse = .ok (message, signer) ∧
        (server.handle s v).1 = (server.respond s message signer v.reading).1 := by
  rw [Server.handle]
  split
  · exact .inl rfl
  · rename_i message signer hopen
    refine .inr ⟨message, signer, hopen, ?_⟩
    split <;> rename_i hrespond <;> rw [hrespond]

theorem Receiver.Light.visits (server : Server P τ) : ∀ (vs : List Visit) {k : ℕ} {s : Receiver τ},
    s.Light me k → (server.visits s vs).Light me (k + vs.length) := by
  intro vs
  induction vs with
  | nil => exact fun h => h
  | cons v vs ih =>
    intro k s h
    have hhandle : (server.handle s v).1.Light me (k + 1) := by
      rcases server.handle_node s v with hnode | ⟨message, signer, _, hnode⟩
      · rw [hnode]
        exact h.mono (Nat.le_succ k)
      · rw [hnode]
        exact h.respond server message signer v.reading
    rw [List.length_cons, Nat.add_comm vs.length, ← Nat.add_assoc]
    exact ih hhandle

/-- **A client is let in** while it and the others have sent few requests. -/
theorem Server.admits_few (server : Server P τ) {m : ℕ} (hfew : ∀ n, (turns n).visits.length ≤ m) :
    ∀ (messages : List Message) (n k : ℕ) (s : Receiver τ), s.Light me k →
      k + (m + 1) * messages.length ≤ maxRequestsPerIdentityPerWindow →
      server.Admits me turns n s messages := by
  intro messages
  induction messages with
  | nil => exact fun _ _ _ _ _ => trivial
  | cons message messages ih =>
    intro n k s h hroom
    rw [List.length_cons, Nat.mul_succ] at hroom
    have hbefore : (server.before turns n s).Light me (k + m) :=
      (Receiver.Light.visits server (turns n).visits h).mono (Nat.add_le_add_left (hfew n) k)
    exact ⟨hbefore.admission (by omega) message (turns n).reading, ih (n + 1) (k + m + 1) _
      (hbefore.respond server message me (turns n).reading) (by omega)⟩

/-- The requests that collect a content leave the store alone. -/
def Collects : Message → Prop
  | .contentStart .. => True
  | .contentChunk .. => True
  | _ => False

theorem collects_transferRequests (bytes : Bytes) :
    ∀ message ∈ transferRequests P bytes, Collects message := by
  intro message hmessage
  rcases List.mem_cons.mp hmessage with rfl | hchunk
  · exact trivial
  · obtain ⟨i, _, rfl⟩ := List.mem_map.mp hchunk
    exact trivial

theorem Server.respond_cas (s : Receiver τ) {message : Message} (h : Collects message)
    (reading : Reading) : (server.respond s message me reading).1.cas = s.cas := by
  rw [Server.respond]
  dsimp only
  split
  · rfl
  · cases message with
    | contentStart id totalSize chunkSize =>
      rw [Receiver.serve, Receiver.contentStart]
      split <;> rfl
    | contentChunk id index bytes chunkHash =>
      rw [Receiver.serve, Receiver.contentChunk]
      split
      · split <;> rfl
      · rfl
    | _ => cases h

/-- The requests in the turns collect contents. -/
def CollectOnly (server : Server P τ) (turns : ℕ → Turn) : Prop :=
  ∀ n, ∀ v ∈ (turns n).visits, ∀ message signer,
    v.envelope.openWithSigner P server.codec.parse = .ok (message, signer) → Collects message

theorem collectOnly_alone (halone : ∀ n, (turns n).visits = []) : CollectOnly server turns := by
  intro n v hv
  rw [halone n] at hv
  exact absurd hv List.not_mem_nil

theorem Server.before_cas (hcollecting : CollectOnly server turns) (n : ℕ) (s : Receiver τ) :
    (server.before turns n s).cas = s.cas := by
  refine Server.before_kept Receiver.cas ?_ s
  intro v hv s
  rcases server.handle_node s v with hnode | ⟨message, signer, hopen, hnode⟩
  · rw [hnode]
  · rw [hnode]
    exact Server.respond_cas s (hcollecting n v hv message signer hopen) v.reading

/-- **Until it is complete, a transfer leaves the store alone.** -/
theorem Server.after_cas (hcollecting : CollectOnly server turns) :
    ∀ (messages : List Message) (n : ℕ) (s : Receiver τ), (∀ message ∈ messages, Collects message) →
      (server.after me turns n s messages).cas = s.cas := by
  intro messages
  induction messages with
  | nil => exact fun _ _ _ => rfl
  | cons message messages ih =>
    intro n s hcollects
    rw [Server.after, ih (n + 1) _ fun m hm => hcollects m (List.mem_cons_of_mem message hm), Server.step,
      Server.respond_cas _ (hcollects message List.mem_cons_self), Server.before_cas hcollecting]

theorem Server.atEnd_cas (hcollecting : CollectOnly server turns) (s : Receiver τ) (bytes : Bytes) :
    (server.atEnd me turns s bytes).cas = s.cas := by
  rw [Server.atEnd, Server.before_cas hcollecting,
    Server.after_cas hcollecting _ 0 s (collects_transferRequests bytes)]

/-! ### A small world -/

/-- No request of anyone else, and a clock that stands. -/
def quiet (_ : ℕ) : Turn := ⟨[], ⟨0, 0, true⟩⟩

/-- A node without a policy, an upload or a content. -/
def idle : Receiver Unit := ⟨PeerlessNode.blank ⟨none, none, []⟩ ⟨[]⟩, ⟨0, 0, ∅⟩, ∅, ∅, ()⟩

theorem idle_light (me : NodeId) : idle.Light me 0 := ⟨rfl, Nat.le_refl 0, Nat.le_refl 0⟩

/-- **An idle node takes a content** of more than one chunk and few requests, whatever others collect
meanwhile. -/
theorem transferable_idle {server : Server P Unit} {bytes : Bytes} {m : ℕ}
    (hlong : contentChunkSize < bytes.length) (hsmall : bytes.length ≤ maxContentSize)
    (hfew : (m + 1) * (chunkCount bytes + 2) ≤ maxRequestsPerIdentityPerWindow)
    (hrequests : ∀ message ∈ transferRequests P bytes ++ [.contentComplete (ContentId.of P bytes)],
      server.codec.parse (server.codec.encode message) = some message)
    (hconfirms : ∀ found, server.codec.parse (server.codec.encode (.hasContent found)) =
      some (.hasContent found))
    (hfirst : (turns 0).visits = []) (hvisits : ∀ n, (turns n).visits.length ≤ m)
    (hwritable : (turns (chunkCount bytes + 1)).reading.writable = true)
    (hothers : OfOthers server identity.nodeId turns) (hcollect : CollectOnly server turns) :
    Transferable server identity turns idle bytes := by
  have hcas : (server.atEnd identity.nodeId turns idle bytes).cas = ∅ :=
    Server.atEnd_cas hcollect idle bytes
  have hcount : (transferRequests P bytes ++
      [Message.contentComplete (ContentId.of P bytes)]).length = chunkCount bytes + 2 := by
    rw [List.length_append, length_transferRequests]
    rfl
  refine ⟨⟨hlong, hsmall, hothers, hrequests, hconfirms, ?_, ?_, ?_⟩, ?_⟩
  · rw [Server.before, hfirst]
    show idle.canStart _ _ _ _ = true
    refine decide_eq_true ⟨hsmall, rfl, .inr (by decide), ?_⟩
    show 0 + bytes.length ≤ maxInFlightUploadBytes
    rw [Nat.zero_add]
    exact hsmall
  · refine server.admits_few hvisits _ 0 0 idle (idle_light _) ?_
    rw [hcount, Nat.zero_add]
    exact hfew
  · rw [hcas, hwritable]
    rfl
  · intro stored hstored
    rw [hcas] at hstored
    cases hstored

/-- A codec for some messages, by their place in a list; a confirmation is written as its hash. -/
def listedCodec (known : List Message) : MessageCodec where
  encode
    | .hasContent id => 0 :: id.digest.bytes
    | message => 1 :: List.replicate (known.idxOf message) 0
  parse
    | [] => none
    | 0 :: digest => if h : digest.length = 32 then some (.hasContent ⟨⟨digest, h⟩⟩) else none
    | _ :: place => known[place.length]?

theorem listedCodec_hasContent (known : List Message) (found : ContentId) :
    (listedCodec known).parse ((listedCodec known).encode (.hasContent found)) =
      some (.hasContent found) := dif_pos found.digest.size

theorem listedCodec_known {known : List Message} {message : Message} (h : message ∈ known)
    (hrequest : ∀ id, message ≠ .hasContent id) :
    (listedCodec known).parse ((listedCodec known).encode message) = some message := by
  have hencode : (listedCodec known).encode message = 1 :: List.replicate (known.idxOf message) 0 := by
    cases message with
    | hasContent id => exact absurd rfl (hrequest id)
    | _ => rfl
  have hplace : known.idxOf message < known.length := List.idxOf_lt_length_iff.mpr h
  rw [hencode]
  show known[(List.replicate (known.idxOf message) 0).length]? = some message
  rw [List.length_replicate, List.getElem?_eq_getElem hplace, List.getElem_idxOf hplace]

/-- A content of two chunks. -/
def zeros : Bytes := List.replicate (contentChunkSize + 1) 0

/-- A node that knows the requests of this transfer only. -/
def zerosServer : Server Sample.primitives Unit where
  identity := Sample.identity [1]
  codec := listedCodec (transferRequests Sample.primitives zeros ++
    [.contentComplete (ContentId.of Sample.primitives zeros)])
  elsewhere tasks message _ := (tasks, [], .ok message)

theorem zeros_length : zeros.length = contentChunkSize + 1 := List.length_replicate

theorem zeros_chunkCount : chunkCount zeros = 2 := by
  rw [chunkCount, zeros_length]
  decide

/-- The requests of the transfer as the node reads them. -/
theorem zeros_parse {message : Message} (h : message ∈ transferRequests Sample.primitives zeros ++
    [.contentComplete (ContentId.of Sample.primitives zeros)]) :
    zerosServer.codec.parse (zerosServer.codec.encode message) = some message := by
  refine listedCodec_known h ?_
  rintro id rfl
  rcases List.mem_append.mp h with hid | hid
  · exact collects_transferRequests zeros _ hid
  · cases List.mem_singleton.mp hid

/-- Another client starts to upload before every request but the first. -/
def crossed (start : SignedEnvelope) : ℕ → Turn
  | 0 => quiet 0
  | _ => ⟨[⟨start, ⟨0, 0, true⟩⟩], ⟨0, 0, true⟩⟩

theorem crossed_visit {start : SignedEnvelope} {n : ℕ} {v : Visit} (hv : v ∈ (crossed start n).visits) :
    v.envelope = start := by
  cases n with
  | zero => exact absurd hv List.not_mem_nil
  | succ n => exact congrArg Visit.envelope (List.mem_singleton.mp hv)

/-! ### Exactness -/

/-- **A transfer in chunks is exact and isolated**, and a `ContentComplete` is confirmed only if the store
holds the content. -/
theorem transfer_exact (server : Server P τ) :
    (P.Lawful → ∀ identity turns (s : Receiver τ) bytes, Transferable server identity turns s bytes →
      ∃ s', answer ((server.client identity turns).transferContentVia (ContentId.of P bytes) bytes)
          (s, 0) = (.ok (), (s', chunkCount bytes + 2)) ∧
        s'.cas.get P (ContentId.of P bytes) = .ok bytes) ∧
    ∀ (s s' : Receiver τ) id signer reading found,
      server.respond s (.contentComplete id) signer reading = (s', .ok (.hasContent found)) →
      found = id ∧ ∃ held, s'.cas.get P id = .ok held ∧ id = ContentId.of P held := by
  refine ⟨fun hP _ _ _ _ h => h.transfers hP, ?_⟩
  intro s s' id signer reading found h
  rw [Server.respond] at h
  dsimp only at h
  split at h
  · rename_i refusal hrefused
    obtain ⟨reason, rfl⟩ := PeerlessNode.admission_refusal hrefused
    cases h
  · obtain ⟨hfound, held, hget⟩ := Receiver.complete_answers h
    exact ⟨hfound, held, hget, (Cas.get_ok hget).2⟩

/-- Two chunks of zeros are transferred while another client starts to upload the same content again and
again. -/
theorem zeros_transferred : ∃ start,
    SignedEnvelope.seal (zerosServer.codec.encode
      (startRequest (ContentId.of Sample.primitives zeros) zeros)) (Sample.identity [5]) = .ok start ∧
    ∃ s', answer ((zerosServer.client (Sample.identity [2]) (crossed start)).transferContentVia
        (ContentId.of Sample.primitives zeros) zeros) (idle, 0) = (.ok (), (s', 4)) ∧
      s'.cas.get Sample.primitives (ContentId.of Sample.primitives zeros) = .ok zeros := by
  obtain ⟨start, hstart, _, hopened⟩ := SignedEnvelope.open_seal Sample.lawful
    (zeros_parse (List.mem_append_left _ List.mem_cons_self)) (Sample.identity [5])
  have htransferable : Transferable zerosServer (Sample.identity [2]) (crossed start) idle zeros := by
    refine transferable_idle (m := 1) (by rw [zeros_length]; omega) (by rw [zeros_length]; decide)
      (by rw [zeros_chunkCount]; decide) (fun _ => zeros_parse) (listedCodec_hasContent _) rfl ?_
      (by rw [zeros_chunkCount]; rfl) ?_ ?_
    · intro n
      cases n with
      | zero => exact Nat.zero_le 1
      | succ n => exact Nat.le_refl 1
    · intro n v hv message signer hopen
      rw [crossed_visit hv, hopened] at hopen
      obtain ⟨_, rfl⟩ := Prod.mk.inj (Except.ok.inj hopen)
      decide
    · intro n v hv message signer hopen
      rw [crossed_visit hv, hopened] at hopen
      obtain ⟨rfl, _⟩ := Prod.mk.inj (Except.ok.inj hopen)
      trivial
  have htransfer := (transfer_exact zerosServer).1 Sample.lawful _ _ _ _ htransferable
  rw [zeros_chunkCount] at htransfer
  exact ⟨start, hstart, htransfer⟩

end Peerless.Node
