import Peerless.Node.RateLimit
import Peerless.Node.UploadExact

/-!
# A transfer against the request budget

A client that is alone on a freshly opened node transfers a content.  Every request of the transfer is
charged to the client's budget of the current window, and the client does not wait or try again.

* `transfer_within_budget` — it is stored exactly if no window has more than 4096 requests.
-/

namespace Peerless.Node

open Text Wire HashMap Inquiry Mealy Windows Peerless.Core Identity Protocol Storage

variable {P : Primitives} {τ : Type} {server : Server P τ} {identity : NodeIdentity P} {turns : ℕ → Turn}
  {me : NodeId}

/-! ### The budget of one client -/

/-- A request of the client at a time. -/
def RequestBudget.charge (me : NodeId) (b : RequestBudget) (now : ℕ) : RequestBudget × Bool :=
  b.consume me now

/-- **A client that is alone** has made all requests of the window, so its own limit is the one that
counts. -/
theorem rationed_client (me : NodeId) : Rationed (RequestBudget.charge me) id
    RequestBudget.windowStartedAt (fun b => b.count me) (fun b => b.global = b.count me)
    requestWindowMillis maxRequestsPerIdentityPerWindow where
  rolls b now _ hroll := by
    have hrolled : b.consume me now = _ := consume_rolled hroll
    rw [RequestBudget.charge, hrolled]
    simp only [count_insert, if_true]
    exact ⟨trivial, trivial, rfl, trivial⟩
  stays b now halone hwindow hroom := by
    have hlimits : maxRequestsPerIdentityPerWindow ≤ maxRequestsGlobalPerWindow := by decide
    have hmove := consume_moves b me now
    unfold RequestBudget.charge
    generalize b.consume me now = result at hmove
    cases hmove with
    | rolled hroll => exact absurd hroll (Nat.not_le.mpr hwindow)
    | full _ hfull => omega
    | spent _ hspent => omega
    | granted _ _ _ =>
      simp only [count_insert, if_true, halone]
      exact ⟨trivial, trivial, trivial, trivial⟩
  full b now _ hwindow hspent := by
    have hmove := consume_moves b me now
    unfold RequestBudget.charge
    generalize b.consume me now = result at hmove
    cases hmove with
    | rolled hroll => exact absurd hroll (Nat.not_le.mpr hwindow)
    | full _ _ => rfl
    | spent _ _ => rfl
    | granted _ _ hroom => omega

/-! ### What a node without a policy lets in -/

variable {message : Message}

theorem PeerlessNode.admission_open {s : PeerlessNode} (hpolicy : s.policy = none) {withinBudget : Bool}
    {now : ℕ} : s.admission withinBudget message me now = none ↔ withinBudget = true := by
  rw [PeerlessNode.admission, hpolicy]
  cases withinBudget <;> simp

/-- **A node without a policy lets in what the budget grants.** -/
theorem Server.admits_iff (server : Server P τ) (halone : ∀ n, (turns n).visits = []) :
    ∀ (messages : List Message) (n : ℕ) (s : Receiver τ), s.node.policy = none →
      (server.Admits me turns n s messages ↔
        ∀ entry ∈ trace (RequestBudget.charge me) s.budget
          ((List.range' n messages.length).map fun i => (turns i).reading.now), entry.2 = true) := by
  intro messages
  induction messages with
  | nil =>
    intro n s _
    exact ⟨fun _ _ hentry => absurd hentry List.not_mem_nil, fun _ => trivial⟩
  | cons message messages ih =>
    intro n s hpolicy
    obtain ⟨hbudget, hnode⟩ := server.step_kept me halone n s message
    have hrest := ih (n + 1) (server.step me turns n s message) (by rw [hnode]; exact hpolicy)
    rw [hbudget] at hrest
    rw [Server.Admits, server.before_alone halone n s, PeerlessNode.admission_open hpolicy, hrest,
      List.length_cons, List.range'_succ, List.map_cons, trace, List.forall_mem_cons]
    rfl

/-! ### A confirmed request was let in -/

/-- The answer to a request beyond the budget. -/
def budgetRefusal : Message := .taskReject "" "request rate limit exceeded"

variable {s : Receiver τ} {n : ℕ} {w : Receiver τ × ℕ}

theorem exchange_world (hP : P.Lawful) {answered : Message}
    (hmessage : server.codec.parse (server.codec.encode message) = some message)
    (h : answer ((server.client identity turns).exchange message) (s, n) = (.ok answered, w)) :
    w = (server.step identity.nodeId turns n s message, n + 1) := by
  obtain ⟨envelope, hseal, _, hopen⟩ := SignedEnvelope.open_seal hP hmessage identity
  have hclient : SignedEnvelope.seal ((server.client identity turns).codec.encode message)
      (server.client identity turns).identity = .ok envelope := hseal
  rw [Requester.exchange, hclient] at h
  obtain ⟨reply, w', hsend, hread⟩ := answer_bind_ok.mp h
  have hw : w = w' := by
    split at hread
    · cases hread
    · exact (congrArg Prod.snd hread).symm
  change delivered (n + 1) (server.handle (server.before turns n s) ⟨envelope, (turns n).reading⟩) =
    (.ok reply, w') at hsend
  rw [Server.handle] at hsend
  simp only [hopen] at hsend
  rw [hw, Server.step]
  generalize server.respond (server.before turns n s) message identity.nodeId (turns n).reading =
    responded at hsend ⊢
  obtain ⟨s', _ | response⟩ := responded
  · cases hsend
  · dsimp only at hsend
    cases hsealed : SignedEnvelope.seal (server.codec.encode response) server.identity with
    | error err =>
      rw [hsealed] at hsend
      cases hsend
    | ok sealed =>
      rw [hsealed] at hsend
      exact (congrArg Prod.snd hsend).symm

/-- **A confirmation shows that the request was let in.** -/
theorem exchange_confirmed (hP : P.Lawful) (halone : ∀ n, (turns n).visits = [])
    (hmessage : server.codec.parse (server.codec.encode message) = some message)
    (hrefusal : server.codec.parse (server.codec.encode budgetRefusal) = some budgetRefusal)
    (hpolicy : s.node.policy = none) {found : ContentId}
    (h : answer ((server.client identity turns).exchange message) (s, n) = (.ok (.hasContent found), w)) :
    server.Admits identity.nodeId turns n s [message] ∧
      w = (server.step identity.nodeId turns n s message, n + 1) := by
  refine ⟨⟨?_, trivial⟩, exchange_world hP hmessage h⟩
  have hbefore : server.before turns n s = s := server.before_alone halone n s
  rw [hbefore]
  apply (PeerlessNode.admission_open hpolicy).mpr
  by_contra hbudget
  have hrespond : server.respond (server.before turns n s) message identity.nodeId (turns n).reading =
      ({ s with budget := (s.budget.consume identity.nodeId (turns n).reading.now).1 },
        .ok budgetRefusal) := by
    rw [hbefore, Server.respond]
    simp only [Bool.eq_false_of_not_eq_true hbudget, PeerlessNode.admission]
    rfl
  rw [exchange_ok hP hmessage hrefusal hrespond] at h
  cases h

theorem confirm_inv {σ : Type} {id : ContentId} {w w' : σ}
    (h : answer (Requester.confirm id message) w = (.ok (), w')) : message = .hasContent id ∧ w' = w := by
  cases message with
  | hasContent found =>
    rw [Requester.confirm] at h
    split at h
    · rename_i hfound
      exact ⟨congrArg _ hfound, (congrArg Prod.snd h).symm⟩
    · cases h
  | _ => cases h

theorem confirmStart_inv {σ : Type} {id : ContentId} {w w' : σ}
    (h : answer (Requester.confirmStart id message) w = (.ok (), w')) :
    message = .hasContent id ∧ w' = w := by
  cases message with
  | hasContent found =>
    rw [Requester.confirmStart] at h
    split at h
    · rename_i hfound
      exact ⟨congrArg _ hfound, (congrArg Prod.snd h).symm⟩
    · cases h
  | _ => cases h

theorem confirmed (hP : P.Lawful) (halone : ∀ n, (turns n).visits = [])
    (hmessage : server.codec.parse (server.codec.encode message) = some message)
    (hrefusal : server.codec.parse (server.codec.encode budgetRefusal) = some budgetRefusal)
    (hpolicy : s.node.policy = none) {id : ContentId}
    (h : answer ((server.client identity turns).exchange message >>= Requester.confirm id) (s, n) =
      (.ok (), w)) :
    server.Admits identity.nodeId turns n s [message] ∧
      w = (server.step identity.nodeId turns n s message, n + 1) := by
  obtain ⟨response, w', hexchange, hconfirm⟩ := answer_bind_ok.mp h
  obtain ⟨rfl, rfl⟩ := confirm_inv hconfirm
  exact exchange_confirmed hP halone hmessage hrefusal hpolicy hexchange

theorem Server.after_policy (server : Server P τ) (halone : ∀ n, (turns n).visits = []) :
    ∀ (messages : List Message) (n : ℕ) (s : Receiver τ),
      (server.after me turns n s messages).node = s.node := by
  intro messages
  induction messages with
  | nil => intro n s; rfl
  | cons message messages ih =>
    intro n s
    rw [Server.after, ih]
    exact (server.step_kept _ halone n s message).2

/-- The loop over the chunks, if it comes to its end. -/
theorem sendChunks_confirmed (hP : P.Lawful) (halone : ∀ n, (turns n).visits = [])
    (hrefusal : server.codec.parse (server.codec.encode budgetRefusal) = some budgetRefusal)
    {bytes : Bytes} {id : ContentId} :
    ∀ (k i n : ℕ) (s : Receiver τ), s.node.policy = none →
      (∀ message ∈ chunkRequests P id bytes i k,
        server.codec.parse (server.codec.encode message) = some message) →
      answer ((server.client identity turns).sendChunks id i
        ((List.range' i k).map (chunkAt contentChunkSize bytes))) (s, n) = (.ok (), w) →
      server.Admits identity.nodeId turns n s (chunkRequests P id bytes i k) ∧
        w = (server.after identity.nodeId turns n s (chunkRequests P id bytes i k), n + k) := by
  intro k
  induction k with
  | zero =>
    intro i n s _ _ h
    exact ⟨trivial, (congrArg Prod.snd h).symm⟩
  | succ k ih =>
    intro i n s hpolicy hcodec h
    have hsplit : chunkRequests P id bytes i (k + 1) =
        chunkRequest P id bytes i :: chunkRequests P id bytes (i + 1) k := rfl
    rw [hsplit] at hcodec ⊢
    obtain ⟨hhead, htail⟩ := List.forall_mem_cons.mp hcodec
    obtain ⟨response, w₁, hexchange, h⟩ := answer_bind_ok.mp h
    obtain ⟨_, w₂, hconfirm, hrest⟩ := answer_bind_ok.mp h
    obtain ⟨rfl, rfl⟩ := confirm_inv hconfirm
    obtain ⟨hadmits, rfl⟩ := exchange_confirmed hP halone hhead hrefusal hpolicy hexchange
    have hnext := (server.step_kept identity.nodeId halone n s (chunkRequest P id bytes i)).2
    obtain ⟨hadmitted, hw⟩ := ih (i + 1) (n + 1) _ (by rw [hnext]; exact hpolicy) htail hrest
    refine ⟨⟨hadmits.1, hadmitted⟩, ?_⟩
    rw [hw, Nat.add_right_comm, Nat.add_assoc]
    rfl

/-! ### The transfer of a client that is alone -/

/-- All requests of a transfer. -/
def allRequests (P : Primitives) (bytes : Bytes) : List Message :=
  if bytes.length ≤ contentChunkSize then [.content (ContentId.of P bytes) bytes]
  else transferRequests P bytes ++ [.contentComplete (ContentId.of P bytes)]

/-- The only client of a node that was opened at a time and has no policy.  The codec reads the messages of
the transfer as they were written, and the store takes the content. -/
structure OnlyClient (server : Server P τ) (turns : ℕ → Turn) (opened : ℕ) (s : Receiver τ)
    (bytes : Bytes) : Prop where
  small : bytes.length ≤ maxContentSize
  alone : ∀ n, (turns n).visits = []
  policy : s.node.policy = none
  budget : s.budget = RequestBudget.fresh opened
  uploads : s.uploads = ∅
  requests : ∀ message ∈ allRequests P bytes, server.codec.parse (server.codec.encode message) = some message
  confirms : ∀ found, server.codec.parse (server.codec.encode (.hasContent found)) =
    some (.hasContent found)
  refuses : server.codec.parse (server.codec.encode budgetRefusal) = some budgetRefusal
  written : ∀ n, (s.cas.put P bytes (turns n).reading.writable).2 = .ok (ContentId.of P bytes)

variable {opened : ℕ} {s : Receiver τ} {bytes : Bytes}

theorem OnlyClient.canStart (h : OnlyClient server turns opened s bytes) (id : ContentId) :
    s.canStart me id bytes.length contentChunkSize = true := by
  refine decide_eq_true ⟨h.small, rfl, Or.inr ?_, ?_⟩
  · rw [h.uploads]
    decide
  · rw [h.uploads]
    show 0 + bytes.length ≤ maxInFlightUploadBytes
    rw [Nat.zero_add]
    exact h.small

/-- A content in chunks whose requests are all let in. -/
theorem OnlyClient.deliverable (h : OnlyClient server turns opened s bytes)
    (hlong : contentChunkSize < bytes.length)
    (hadmits : server.Admits identity.nodeId turns 0 s
      (transferRequests P bytes ++ [.contentComplete (ContentId.of P bytes)])) :
    Deliverable server identity turns s bytes where
  long := hlong
  small := h.small
  others n v hv := by
    rw [h.alone n] at hv
    exact absurd hv List.not_mem_nil
  requests := by
    have hrequests := h.requests
    rwa [allRequests, if_neg (Nat.not_le.mpr hlong)] at hrequests
  confirms := h.confirms
  starts := by
    rw [server.before_alone h.alone]
    exact h.canStart _
  admits := hadmits
  written := by
    rw [Server.atEnd_cas (collectOnly_alone h.alone)]
    exact h.written _

theorem OnlyClient.content (h : OnlyClient server turns opened s bytes)
    (hadmits : server.Admits me turns 0 s [.content (ContentId.of P bytes) bytes]) :
    ∃ s', server.respond (server.before turns 0 s) (.content (ContentId.of P bytes) bytes) me
      (turns 0).reading = (s', .ok (.hasContent (ContentId.of P bytes))) := by
  obtain ⟨charged, _, hcas, hrespond⟩ := server.respond_admitted hadmits.1
  have hverify : (ContentId.of P bytes).verify P bytes = true := decide_eq_true rfl
  rw [server.before_alone h.alone] at hcas
  obtain ⟨files, hfiles⟩ : ∃ files, charged.cas.put P bytes (turns 0).reading.writable =
      (files, .ok (ContentId.of P bytes)) := by
    rw [hcas]
    exact ⟨_, Prod.ext rfl (h.written 0)⟩
  rw [Receiver.serve, if_pos hverify, Receiver.store] at hrespond
  simp only [hfiles] at hrespond
  exact ⟨_, hrespond⟩

/-- What a transfer in chunks that comes to its end shows. -/
theorem OnlyClient.admitted (hP : P.Lawful) (h : OnlyClient server turns opened s bytes)
    (hlong : ¬ bytes.length ≤ contentChunkSize)
    (hok : answer ((server.client identity turns).transferContentVia (ContentId.of P bytes) bytes) (s, 0) =
      (.ok (), w)) :
    server.Admits identity.nodeId turns 0 s
      (transferRequests P bytes ++ [.contentComplete (ContentId.of P bytes)]) := by
  have hverify : (ContentId.of P bytes).verify P bytes = true := decide_eq_true rfl
  have hrequests := h.requests
  rw [allRequests, if_neg hlong, transferRequests, List.cons_append, List.forall_mem_cons,
    List.forall_mem_append, List.forall_mem_singleton] at hrequests
  rw [Requester.transferContentVia, if_neg (not_not.mpr hverify), if_neg hlong] at hok
  obtain ⟨response, w₁, hexchange, hrest⟩ := answer_bind_ok.mp hok
  obtain ⟨_, w₂, hconfirm, hsent⟩ := answer_bind_ok.mp hrest
  obtain ⟨rfl, rfl⟩ := confirmStart_inv hconfirm
  obtain ⟨hstart, rfl⟩ := exchange_confirmed hP h.alone hrequests.1 h.refuses h.policy hexchange
  obtain ⟨_, w₃, hloop, hlast⟩ := answer_bind_ok.mp hsent
  rw [List.range_eq_range'] at hloop
  have hstarted : (server.step identity.nodeId turns 0 s
      (startRequest (ContentId.of P bytes) bytes)).node.policy = none := by
    rw [(server.step_kept _ h.alone 0 s _).2]
    exact h.policy
  obtain ⟨hchunks, rfl⟩ := sendChunks_confirmed hP h.alone h.refuses (chunkCount bytes) 0 1 _ hstarted
    hrequests.2.1 hloop
  have hfilled : (server.after identity.nodeId turns 1 (server.step identity.nodeId turns 0 s
      (startRequest (ContentId.of P bytes) bytes))
      (chunkRequests P (ContentId.of P bytes) bytes 0 (chunkCount bytes))).node.policy = none := by
    rw [server.after_policy h.alone]
    exact hstarted
  have hcomplete := (confirmed hP h.alone hrequests.2.2 h.refuses hfilled hlast).1
  refine ⟨hstart.1, (server.admits_append _ _ 1 _).mpr ⟨hchunks, ?_⟩⟩
  rw [chunkRequests, List.length_map, List.length_range']
  exact hcomplete

/-- **A transfer returns `Ok` exactly if every request is let in.** -/
theorem OnlyClient.ok_iff (hP : P.Lawful) (h : OnlyClient server turns opened s bytes) :
    (answer ((server.client identity turns).transferContentVia (ContentId.of P bytes) bytes) (s, 0)).1 =
        .ok () ↔ server.Admits identity.nodeId turns 0 s (allRequests P bytes) := by
  have hverify : (ContentId.of P bytes).verify P bytes = true := decide_eq_true rfl
  have hrequests := h.requests
  by_cases hshort : bytes.length ≤ contentChunkSize
  · rw [allRequests, if_pos hshort] at hrequests ⊢
    have hmessage := List.forall_mem_singleton.mp hrequests
    rw [Requester.transferContentVia, if_neg (not_not.mpr hverify), if_pos hshort]
    constructor
    · intro hok
      exact (confirmed hP h.alone hmessage h.refuses h.policy (Prod.ext hok rfl)).1
    · intro hadmits
      obtain ⟨s', hrespond⟩ := h.content hadmits
      have hexchange := exchange_ok hP hmessage (h.confirms _) hrespond
      exact congrArg Prod.fst (answer_bind_ok.mpr ⟨_, _, hexchange, confirm_ok _ _⟩)
  · rw [allRequests, if_neg hshort]
    constructor
    · intro hok
      exact h.admitted hP hshort (Prod.ext hok rfl)
    · intro hadmits
      exact congrArg Prod.fst ((h.deliverable (Nat.lt_of_not_le hshort) hadmits).answers hP).1

/-- **Every request is let in exactly if no window has too many of them.** -/
theorem OnlyClient.admits_iff_windows (h : OnlyClient server turns opened s bytes) :
    server.Admits me turns 0 s (allRequests P bytes) ↔
      ∀ k, k + maxRequestsPerIdentityPerWindow < (allRequests P bytes).length →
        windowOf requestWindowMillis opened (fun i => (turns i).reading.now)
            (k + maxRequestsPerIdentityPerWindow) ≠
          windowOf requestWindowMillis opened (fun i => (turns i).reading.now) k := by
  rw [server.admits_iff h.alone _ 0 s h.policy, h.budget, ← List.range_eq_range']
  exact (rationed_client me).granted_iff (by decide) (by decide) (s := RequestBudget.fresh opened) rfl rfl
    (fun i => (turns i).reading.now) _

/-- **What the budget admits.**  The transfer of a client that is alone on a freshly opened node returns
`Ok`, and none of its requests is refused, exactly if no window has more than 4096 of them. -/
theorem transfer_within_budget (hP : P.Lawful) (server : Server P τ) (identity : NodeIdentity P)
    (turns : ℕ → Turn) (opened : ℕ) (s : Receiver τ) (bytes : Bytes)
    (h : OnlyClient server turns opened s bytes) :
    let few := ∀ k, k + maxRequestsPerIdentityPerWindow < (allRequests P bytes).length →
      windowOf requestWindowMillis opened (fun i => (turns i).reading.now)
          (k + maxRequestsPerIdentityPerWindow) ≠
        windowOf requestWindowMillis opened (fun i => (turns i).reading.now) k
    ((answer ((server.client identity turns).transferContentVia (ContentId.of P bytes) bytes) (s, 0)).1 =
        .ok () ↔ few) ∧
      (server.Admits identity.nodeId turns 0 s (allRequests P bytes) ↔ few) :=
  ⟨(h.ok_iff hP).trans h.admits_iff_windows, h.admits_iff_windows⟩

/-! ### A content of 4095 chunks -/

/-- A node that knows the messages of one transfer. -/
def soloServer (bytes : Bytes) : Server Sample.primitives Unit where
  identity := Sample.identity [1]
  codec := listedCodec (budgetRefusal :: allRequests Sample.primitives bytes)
  elsewhere tasks message _ := (tasks, [], .ok message)

theorem allRequests_request (bytes : Bytes) :
    ∀ message ∈ allRequests P bytes, ∀ id, message ≠ .hasContent id := by
  intro message hmessage id
  rw [allRequests] at hmessage
  split at hmessage
  · rw [List.mem_singleton.mp hmessage]
    simp
  · rintro rfl
    rcases List.mem_append.mp hmessage with hmessage | hmessage
    · exact collects_transferRequests bytes _ hmessage
    · cases List.mem_singleton.mp hmessage

theorem solo_onlyClient {bytes : Bytes} (hsmall : bytes.length ≤ maxContentSize) {turns : ℕ → Turn}
    (halone : ∀ n, (turns n).visits = []) (hwritable : ∀ n, (turns n).reading.writable = true) :
    OnlyClient (soloServer bytes) turns 0 idle bytes where
  small := hsmall
  alone := halone
  policy := rfl
  budget := rfl
  uploads := rfl
  requests message hmessage :=
    listedCodec_known (List.mem_cons_of_mem _ hmessage) (allRequests_request bytes message hmessage)
  confirms := listedCodec_hasContent _
  refuses := listedCodec_known List.mem_cons_self fun id => by simp [budgetRefusal]
  written n := by
    rw [hwritable n]
    rfl

/-- 4095 chunks of zeros: with the start and the completion, one request more than a window admits. -/
def crowded : Bytes := List.replicate (4095 * contentChunkSize) 0

theorem crowded_length : crowded.length = 4095 * contentChunkSize := List.length_replicate

theorem crowded_small : crowded.length ≤ maxContentSize := by
  rw [crowded_length]
  decide

theorem crowded_requests : (allRequests P crowded).length = 4097 := by
  have hcount : chunkCount crowded = 4095 := by
    rw [chunkCount, crowded_length]
    decide
  have hlong : ¬ crowded.length ≤ contentChunkSize := by
    rw [crowded_length]
    decide
  rw [allRequests, if_neg hlong, List.length_append, length_transferRequests, hcount]
  rfl

/-- **A clock that stands**: the last of the requests is one too many. -/
theorem crowded_refused : OnlyClient (soloServer crowded) quiet 0 idle crowded ∧
    (∀ m n, m ≤ n → (quiet m).reading.now ≤ (quiet n).reading.now) ∧
    (answer (((soloServer crowded).client (Sample.identity [2]) quiet).transferContentVia
      (ContentId.of Sample.primitives crowded) crowded) (idle, 0)).1 ≠ .ok () := by
  have honly : OnlyClient (soloServer crowded) quiet 0 idle crowded :=
    solo_onlyClient crowded_small (fun _ => rfl) fun _ => rfl
  refine ⟨honly, fun _ _ _ => Nat.le_refl 0, ?_⟩
  rw [Ne, honly.ok_iff Sample.lawful, honly.admits_iff_windows]
  intro hfew
  have hstands : ∀ k, windowOf requestWindowMillis 0 (fun i => (quiet i).reading.now) k = 0 := by
    intro k
    induction k with
    | zero => rfl
    | succ k ih => rw [windowOf, ih]; rfl
  refine hfew 0 ?_ ?_
  · rw [crowded_requests]
    decide
  · rw [hstands, hstands]

/-- A clock that moves on by a window before every request. -/
def slowly (n : ℕ) : Turn := ⟨[], ⟨n * requestWindowMillis, n * requestWindowMillis, true⟩⟩

theorem windowOf_slowly : ∀ k, windowOf requestWindowMillis 0 (fun i => (slowly i).reading.now) k =
    k * requestWindowMillis := by
  intro k
  induction k with
  | zero => rfl
  | succ k ih =>
    rw [windowOf, ih, roll]
    apply if_pos
    show requestWindowMillis ≤ (k + 1) * requestWindowMillis - k * requestWindowMillis
    rw [Nat.add_mul]
    omega

/-- The same content at leisure. -/
theorem crowded_transferred : OnlyClient (soloServer crowded) slowly 0 idle crowded ∧
    (answer (((soloServer crowded).client (Sample.identity [2]) slowly).transferContentVia
      (ContentId.of Sample.primitives crowded) crowded) (idle, 0)).1 = .ok () := by
  have honly : OnlyClient (soloServer crowded) slowly 0 idle crowded :=
    solo_onlyClient crowded_small (fun _ => rfl) fun _ => rfl
  refine ⟨honly, (transfer_within_budget Sample.lawful _ _ _ _ _ _ honly).1.mpr ?_⟩
  intro k _
  rw [windowOf_slowly, windowOf_slowly]
  have hpositive : 0 < requestWindowMillis := by decide
  have hlimit : 0 < maxRequestsPerIdentityPerWindow := by decide
  rw [Ne, Nat.mul_left_inj hpositive.ne']
  omega

end Peerless.Node
