import Peerless.Node.Policy
import Peerless.Node.Remote
import Peerless.Storage

/-!
# Receiving content

The receiver's side of a transfer: `handle` with its request budget, and the sessions that collect the
chunks of a content.  A session belongs to a signer and a content.  The handlers of tasks, capabilities
and state snapshots are modelled elsewhere; of them this module only knows that they store contents
(`Elsewhere`).
-/

namespace Peerless.Node

open Text Wire HashMap Peerless.Core Identity Protocol Storage

def maxContentSize : ℕ := 512 * 1024 * 1024

def maxActiveUploads : ℕ := 4

def maxInFlightUploadBytes : ℕ := 512 * 1024 * 1024

def requestWindowMillis : ℕ := 60000

def maxRequestsPerIdentityPerWindow : ℕ := 4096

def maxRequestsGlobalPerWindow : ℕ := 16384

/-! ### The request budget -/

structure RequestBudget where
  windowStartedAt : ℕ
  global : ℕ
  identities : Map NodeId ℕ

/-- `consume_request_budget`. -/
def RequestBudget.consume (b : RequestBudget) (signer : NodeId) (now : ℕ) : RequestBudget × Bool :=
  let b := if now - b.windowStartedAt ≥ requestWindowMillis then ⟨now, 0, ∅⟩ else b
  if b.global ≥ maxRequestsGlobalPerWindow then (b, false)
  else
    let count := (b.identities.lookup signer).getD 0
    if count ≥ maxRequestsPerIdentityPerWindow then
      ({ b with identities := b.identities.insert signer count }, false)
    else
      ({ b with global := b.global + 1, identities := b.identities.insert signer (count + 1) }, true)

variable {signer : NodeId}

/-- **A request is counted once**, whoever sends it, and a signer that has sent few is let in. -/
theorem RequestBudget.consume_within {b : RequestBudget} {me : NodeId} {k : ℕ} (hglobal : b.global ≤ k)
    (hme : (b.identities.lookup me).getD 0 ≤ k) (signer : NodeId) (now : ℕ) :
    (b.consume signer now).1.global ≤ k + 1 ∧
      ((b.consume signer now).1.identities.lookup me).getD 0 ≤ k + 1 ∧
      (signer = me → k < maxRequestsPerIdentityPerWindow → (b.consume signer now).2 = true) := by
  have hlimits : maxRequestsPerIdentityPerWindow ≤ maxRequestsGlobalPerWindow := by decide
  obtain ⟨window, hwindow, hglobal, hme⟩ : ∃ window : RequestBudget,
      window = (if now - b.windowStartedAt ≥ requestWindowMillis then ⟨now, 0, ∅⟩ else b) ∧
        window.global ≤ k ∧ (window.identities.lookup me).getD 0 ≤ k := by
    refine ⟨_, rfl, ?_⟩
    split
    · exact ⟨Nat.zero_le k, Nat.zero_le k⟩
    · exact ⟨hglobal, hme⟩
  have hcount : ∀ count ≤ (window.identities.lookup signer).getD 0 + 1,
      ((window.identities.insert signer count).lookup me).getD 0 ≤ k + 1 := by
    intro count hle
    by_cases hsigner : me = signer
    · subst hsigner
      rw [AList.lookup_insert]
      exact hle.trans (Nat.succ_le_succ hme)
    · rw [AList.lookup_insert_ne hsigner]
      omega
  rw [RequestBudget.consume]
  simp only [← hwindow]
  split
  · exact ⟨by dsimp only; omega, by dsimp only; omega, fun _ _ => by omega⟩
  · split
    · rename_i hspent
      exact ⟨by dsimp only; omega, hcount _ (Nat.le_succ _), fun hsigner _ => by subst hsigner; omega⟩
    · exact ⟨Nat.succ_le_succ hglobal, hcount _ (Nat.le_refl _), fun _ _ => rfl⟩

/-! ### Sessions -/

structure UploadSession where
  totalSize : ℕ
  chunkSize : ℕ
  chunks : List (Option Bytes)
  deriving DecidableEq

/-- The fields of `Inner` behind a transfer; `tasks` stands for what the other handlers keep. -/
structure Receiver (τ : Type) where
  node : PeerlessNode
  budget : RequestBudget
  uploads : Map (NodeId × ContentId) UploadSession
  cas : Cas
  tasks : τ

/-- The errors of `handle`. -/
inductive HandleError where
  | protocol (e : ProtocolError)
  | storage (e : CasError)
  | other (e : NodeError)
  deriving DecidableEq

/-- The handlers of tasks, capabilities and snapshots: what they keep, the contents they store and their
answer. -/
abbrev Elsewhere (τ : Type) := τ → Message → NodeId → τ × List Bytes × Except HandleError Message

/-- `ContentId` as text. -/
def ContentId.display (id : ContentId) : String :=
  "sha256:" ++ String.ofList ((id.digest.bytes.flatMap hexByte).map fun b => Char.ofNat b.toNat)

variable {P : Primitives} {τ : Type}

namespace Receiver

/-- The test of `ContentStart`. -/
def canStart (s : Receiver τ) (signer : NodeId) (id : ContentId) (totalSize chunkSize : ℕ) : Bool :=
  let key := (signer, id)
  let reserved := ((vals (retain (fun existing _ => existing ≠ key) s.uploads)).map
    UploadSession.totalSize).sum
  totalSize ≤ maxContentSize ∧ chunkSize = contentChunkSize ∧
    ((s.uploads.lookup key).isSome ∨ size s.uploads < maxActiveUploads) ∧
    reserved + totalSize ≤ maxInFlightUploadBytes

def contentStart (s : Receiver τ) (signer : NodeId) (id : ContentId) (totalSize chunkSize : ℕ) :
    Receiver τ × Message :=
  if s.canStart signer id totalSize chunkSize then
    ({ s with uploads := s.uploads.insert (signer, id)
                ⟨totalSize, chunkSize, List.replicate (divCeil totalSize chunkSize) none⟩ },
      .hasContent id)
  else
    (s, .taskError "" ("content transfer exceeds bounded upload budget for " ++ ContentId.display id))

variable (P) in
/-- The test of `ContentChunk` against a session. -/
def takesChunk (session : UploadSession) (index : ℕ) (bytes : Bytes) (chunkHash : ContentId) : Bool :=
  chunkHash.verify P bytes ∧ bytes.length ≤ session.chunkSize ∧ index < session.chunks.length

variable (P) in
/-- `ContentChunk`: a chunk that does not fit ends the session. -/
def contentChunk (s : Receiver τ) (signer : NodeId) (id : ContentId) (index : ℕ) (bytes : Bytes)
    (chunkHash : ContentId) : Receiver τ × Message :=
  match s.uploads.lookup (signer, id) with
  | some session =>
    if takesChunk P session index bytes chunkHash then
      ({ s with uploads := s.uploads.insert (signer, id)
                  { session with chunks := session.chunks.set index (some bytes) } },
        .hasContent chunkHash)
    else
      ({ s with uploads := s.uploads.erase (signer, id) }, .taskError "" "invalid content chunk")
  | none => ({ s with uploads := s.uploads.erase (signer, id) }, .taskError "" "invalid content chunk")

variable (P) in
/-- A `put` as the last action of a handler. -/
def store (s : Receiver τ) (bytes : Bytes) (writable : Bool) (response : Message) :
    Receiver τ × Except HandleError Message :=
  match s.cas.put P bytes writable with
  | (cas, .error err) => ({ s with cas }, .error (.storage err))
  | (cas, .ok _) => ({ s with cas }, .ok response)

variable (P) in
/-- `ContentComplete`: the session ends in any case. -/
def contentComplete (s : Receiver τ) (signer : NodeId) (id : ContentId) (writable : Bool) :
    Receiver τ × Except HandleError Message :=
  let ended := { s with uploads := s.uploads.erase (signer, id) }
  match s.uploads.lookup (signer, id) with
  | some session =>
    if session.chunks.all Option.isSome then
      let bytes := (session.chunks.filterMap fun chunk => chunk).flatten
      if bytes.length = session.totalSize ∧ id.verify P bytes then
        ended.store P bytes writable (.hasContent id)
      else (ended, .ok (.taskError "" "content size or final hash mismatch"))
    else (ended, .ok (.taskError "" "content transfer incomplete"))
  | none => (ended, .ok (.taskError "" "content transfer incomplete"))

/-! ### Requests -/

variable (P) in
/-- The `match` of `handle`; a message that is no request is sent back. -/
def serve (elsewhere : Elsewhere τ) (s : Receiver τ) (message : Message) (signer : NodeId)
    (writable : Bool) : Receiver τ × Except HandleError Message :=
  match message with
  | .content id bytes =>
    if id.verify P bytes then s.store P bytes writable (.hasContent id)
    else (s, .ok (.taskReject "" "content hash mismatch"))
  | .contentStart id totalSize chunkSize =>
    let started := s.contentStart signer id totalSize chunkSize
    (started.1, .ok started.2)
  | .contentChunk id index bytes chunkHash =>
    let taken := s.contentChunk P signer id index bytes chunkHash
    (taken.1, .ok taken.2)
  | .contentComplete id => s.contentComplete P signer id writable
  | .getContent id =>
    match s.cas.get P id with
    | .error err => (s, .error (.storage err))
    | .ok bytes => (s, .ok (.content id bytes))
  | .checkContent id =>
    if s.cas.contains id then (s, .ok (.hasContent id))
    else (s, .ok (.taskError "" "content not found"))
  | .ledgerBlock _ =>
    (s, .ok (.taskReject "" "ledger block requires configured quorum verification"))
  | .taskOffer .. | .taskCommit .. | .taskCancel .. | .getCapability | .stateSnapshot .. =>
    let (tasks, contents, response) := elsewhere s.tasks message signer
    ({ s with tasks, cas := contents.foldl (fun cas bytes => (cas.put P bytes writable).1) s.cas },
      response)
  | message => (s, .ok message)

end Receiver

/-- What `handle` reads while it runs: the two readings of the clock, and whether a file can be written. -/
structure Reading where
  now : ℕ
  later : ℕ
  writable : Bool

/-- A request that reaches a node. -/
structure Visit where
  envelope : SignedEnvelope
  reading : Reading

/-- A node that serves requests. -/
structure Server (P : Primitives) (τ : Type) where
  identity : NodeIdentity P
  codec : MessageCodec
  elsewhere : Elsewhere τ

/-- `handle` between opening the request and sealing the response. -/
def Server.respond (server : Server P τ) (s : Receiver τ) (message : Message) (signer : NodeId)
    (reading : Reading) : Receiver τ × Except HandleError Message :=
  let consumed := s.budget.consume signer reading.now
  let s := { s with budget := consumed.1 }
  match s.node.admission consumed.2 message signer reading.later with
  | some refusal => (s, .ok refusal)
  | none => s.serve P server.elsewhere message signer reading.writable

def Server.handle (server : Server P τ) (s : Receiver τ) (v : Visit) :
    Receiver τ × Except HandleError SignedEnvelope :=
  match v.envelope.openWithSigner P server.codec.parse with
  | .error err => (s, .error (.protocol err))
  | .ok (message, signer) =>
    match server.respond s message signer v.reading with
    | (s, .error err) => (s, .error err)
    | (s, .ok response) =>
      (s, (SignedEnvelope.seal (server.codec.encode response) server.identity).mapError .protocol)

/-! ### What a message leaves alone -/

theorem Receiver.store_kept (s : Receiver τ) (bytes : Bytes) (writable : Bool) (response : Message) :
    (s.store P bytes writable response).1.budget = s.budget ∧
      (s.store P bytes writable response).1.node = s.node := by
  rw [Receiver.store]
  split <;> exact ⟨rfl, rfl⟩

/-- **Serving a message charges no budget and changes no policy.** -/
theorem Receiver.serve_kept (elsewhere : Elsewhere τ) (s : Receiver τ) (message : Message)
    (signer : NodeId) (writable : Bool) :
    (s.serve P elsewhere message signer writable).1.budget = s.budget ∧
      (s.serve P elsewhere message signer writable).1.node = s.node := by
  cases message with
  | content id bytes =>
    rw [Receiver.serve]
    split
    · exact s.store_kept bytes writable _
    · exact ⟨rfl, rfl⟩
  | contentStart id totalSize chunkSize =>
    rw [Receiver.serve, Receiver.contentStart]
    split <;> exact ⟨rfl, rfl⟩
  | contentChunk id index bytes chunkHash =>
    rw [Receiver.serve, Receiver.contentChunk]
    split
    · split <;> exact ⟨rfl, rfl⟩
    · exact ⟨rfl, rfl⟩
  | contentComplete id =>
    rw [Receiver.serve, Receiver.contentComplete]
    split
    · split
      · dsimp only
        split
        · exact Receiver.store_kept _ _ writable _
        · exact ⟨rfl, rfl⟩
      · exact ⟨rfl, rfl⟩
    · exact ⟨rfl, rfl⟩
  | getContent id =>
    rw [Receiver.serve]
    split <;> exact ⟨rfl, rfl⟩
  | checkContent id =>
    rw [Receiver.serve]
    split <;> exact ⟨rfl, rfl⟩
  | _ => exact ⟨rfl, rfl⟩

/-! ### Signers do not meet -/

theorem Receiver.store_uploads (s : Receiver τ) (bytes : Bytes) (writable : Bool) (response : Message) :
    (s.store P bytes writable response).1.uploads = s.uploads := by
  rw [Receiver.store]
  split <;> rfl

/-- What a message of a signer does to the sessions. -/
inductive UploadsMove (P : Primitives) (s : Receiver τ) (signer : NodeId) :
    Map (NodeId × ContentId) UploadSession → Prop
  | kept : UploadsMove P s signer s.uploads
  | started {id : ContentId} {totalSize chunkSize : ℕ} :
      s.canStart signer id totalSize chunkSize = true →
      UploadsMove P s signer (s.uploads.insert (signer, id)
        ⟨totalSize, chunkSize, List.replicate (divCeil totalSize chunkSize) none⟩)
  | taken {id chunkHash : ContentId} {index : ℕ} {bytes : Bytes} {session : UploadSession} :
      s.uploads.lookup (signer, id) = some session →
      Receiver.takesChunk P session index bytes chunkHash = true →
      UploadsMove P s signer (s.uploads.insert (signer, id)
        { session with chunks := session.chunks.set index (some bytes) })
  | ended {id : ContentId} : UploadsMove P s signer (s.uploads.erase (signer, id))

/-- **Everything a message does to the sessions.** -/
theorem Receiver.serve_uploads (elsewhere : Elsewhere τ) (s : Receiver τ) (message : Message) (signer : NodeId)
    (writable : Bool) :
    UploadsMove P s signer (s.serve P elsewhere message signer writable).1.uploads := by
  cases message with
  | content id bytes =>
    rw [Receiver.serve]
    split
    · rw [Receiver.store_uploads]
      exact .kept
    · exact .kept
  | contentStart id totalSize chunkSize =>
    rw [Receiver.serve, Receiver.contentStart]
    split
    · rename_i hstart
      exact .started hstart
    · exact .kept
  | contentChunk id index bytes chunkHash =>
    rw [Receiver.serve, Receiver.contentChunk]
    split
    · rename_i session hsession
      split
      · rename_i htakes
        exact .taken hsession htakes
      · exact .ended
    · exact .ended
  | contentComplete id =>
    rw [Receiver.serve, Receiver.contentComplete]
    split
    · split
      · dsimp only
        split
        · rw [Receiver.store_uploads]
          exact .ended
        · exact .ended
      · exact .ended
    · exact .ended
  | getContent id =>
    rw [Receiver.serve]
    split <;> exact .kept
  | checkContent id =>
    rw [Receiver.serve]
    split <;> exact .kept
  | _ => exact .kept

/-- **A message of one signer leaves the sessions of the others alone.** -/
theorem Receiver.serve_other (elsewhere : Elsewhere τ) (s : Receiver τ) (message : Message)
    {other : NodeId} (hne : other ≠ signer) (key : ContentId) (writable : Bool) :
    (s.serve P elsewhere message signer writable).1.uploads.lookup (other, key) =
      s.uploads.lookup (other, key) := by
  have hkey : ∀ id, (other, key) ≠ (signer, id) := fun id h => hne (congrArg Prod.fst h)
  have hmove := Receiver.serve_uploads (P := P) elsewhere s message signer writable
  generalize (s.serve P elsewhere message signer writable).1.uploads = uploads at hmove ⊢
  cases hmove with
  | kept => rfl
  | started _ => exact AList.lookup_insert_ne (hkey _)
  | taken _ _ => exact AList.lookup_insert_ne (hkey _)
  | ended => exact AList.lookup_erase_ne (hkey _)

variable {server : Server P τ}

theorem Server.respond_other (s : Receiver τ) (message : Message) {other : NodeId} (hne : other ≠ signer)
    (reading : Reading) (key : ContentId) :
    (server.respond s message signer reading).1.uploads.lookup (other, key) =
      s.uploads.lookup (other, key) := by
  rw [Server.respond]
  dsimp only
  split
  · rfl
  · exact Receiver.serve_other _ _ _ hne _ _

theorem Server.handle_other (s : Receiver τ) {v : Visit} {other : NodeId}
    (hne : ∀ message signer, v.envelope.openWithSigner P server.codec.parse = .ok (message, signer) →
      signer ≠ other) (key : ContentId) :
    (server.handle s v).1.uploads.lookup (other, key) = s.uploads.lookup (other, key) := by
  rw [Server.handle]
  split
  · rfl
  · rename_i message signer hopen
    have hother := server.respond_other s message (hne message signer hopen).symm v.reading key
    split
    · rename_i hrespond
      rw [hrespond] at hother
      exact hother
    · rename_i hrespond
      rw [hrespond] at hother
      exact hother

/-! ### What a confirmation means -/

/-- **A completed transfer is confirmed only if the store holds the content.** -/
theorem Receiver.complete_answers {s s' : Receiver τ} {id found : ContentId} {writable : Bool}
    (h : s.contentComplete P signer id writable = (s', .ok (.hasContent found))) :
    found = id ∧ ∃ bytes, s'.cas.get P id = .ok bytes := by
  rw [Receiver.contentComplete] at h
  split at h
  · split at h
    · dsimp only at h
      split at h
      · rename_i hcontent
        rw [Receiver.store] at h
        split at h
        · cases h
        · rename_i cas stored hput
          cases h
          obtain ⟨_, bytes, hget, _⟩ := Cas.put_ok hput
          have hid : id = stored := (of_decide_eq_true hcontent.2).trans (Cas.put_ok hput).1.symm
          exact ⟨rfl, bytes, hid ▸ hget⟩
      · cases h
    · cases h
  · cases h

end Peerless.Node
