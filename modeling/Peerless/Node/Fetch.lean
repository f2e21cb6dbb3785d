import Peerless.Purposes
import Peerless.Network.Frames
import Peerless.Node.UploadExact

/-!
# Fetching what was uploaded

A content goes to a node in chunks and comes back in one message: `GetContent` is answered with the whole
content as JSON, the envelope puts that text into JSON once more, and the frame must not exceed 64 MiB.

* `fetched_iff_fits` — a stored content can be fetched exactly if its answer fits a frame.
-/

namespace Peerless.Node

open Text Wire JsonText HashMap Inquiry Peerless.Core Identity Protocol Storage Network Purposes

variable {P : Primitives} {τ : Type}

/-! ### What is assumed of `serde_json` -/

/-- The messages of an upload and of a fetch, with numbers of their types. -/
def OfContent : Message → Prop
  | .hasContent _ => True
  | .getContent _ => True
  | .content _ _ => True
  | .contentStart _ totalSize chunkSize => totalSize < 2 ^ 64 ∧ chunkSize < 2 ^ 32
  | .contentChunk _ index _ _ => index < 2 ^ 32
  | .contentComplete _ => True
  | _ => False

/-- **The assumption on `serde_json`**: `from_slice` reads the text of `to_vec`. -/
structure Serde where
  floats : F64 → NumToken
  readMessage : Bytes → Option Message
  readEnvelope : Bytes → Option SignedEnvelope
  message_written : ∀ m, OfContent m → readMessage (write (messageJson floats m)) = some m
  envelope_written : ∀ e, e.version < 2 ^ 16 → readEnvelope (write (envelopeJson e)) = some e

def Serde.codec (serde : Serde) : MessageCodec where
  encode m := write (messageJson serde.floats m)
  parse := serde.readMessage

theorem envelopeJson_injective : Function.Injective envelopeJson := by
  intro a b h
  cases a
  cases b
  simp only [envelopeJson, Json.obj.injEq, List.cons.injEq, Prod.mk.injEq, true_and, and_true] at h
  obtain ⟨hversion, hsigner, hpublic, hpayload, hsignature⟩ := h
  rw [natJson_injective hversion, NodeId.toJson_injective hsigner, bytes_injective hpublic,
    bytes_injective hpayload, bytes_injective hsignature]

theorem messageJson_injective {floats : F64 → NumToken} {a b : Message} (ha : OfContent a)
    (hb : OfContent b) (h : messageJson floats a = messageJson floats b) : a = b := by
  cases a with
  | hasContent id =>
    cases b with
    | hasContent id' =>
      simp only [messageJson, Json.obj.injEq, List.cons.injEq, Prod.mk.injEq, true_and, and_true] at h
      rw [ContentId.toJson_injective h]
    | _ => first | exact absurd hb id | simp [messageJson] at h
  | getContent id =>
    cases b with
    | getContent id' =>
      simp only [messageJson, Json.obj.injEq, List.cons.injEq, Prod.mk.injEq, true_and, and_true] at h
      rw [ContentId.toJson_injective h]
    | _ => first | exact absurd hb id | simp [messageJson] at h
  | content id bytes =>
    cases b with
    | content id' bytes' =>
      simp only [messageJson, Json.obj.injEq, List.cons.injEq, Prod.mk.injEq, true_and, and_true] at h
      rw [ContentId.toJson_injective h.1, bytes_injective h.2]
    | _ => first | exact absurd hb id | simp [messageJson] at h
  | contentStart id total chunk =>
    cases b with
    | contentStart id' total' chunk' =>
      simp only [messageJson, Json.obj.injEq, List.cons.injEq, Prod.mk.injEq, true_and, and_true] at h
      rw [ContentId.toJson_injective h.1, natJson_injective h.2.1, natJson_injective h.2.2]
    | _ => first | exact absurd hb id | simp [messageJson] at h
  | contentChunk id index bytes hash =>
    cases b with
    | contentChunk id' index' bytes' hash' =>
      simp only [messageJson, Json.obj.injEq, List.cons.injEq, Prod.mk.injEq, true_and, and_true] at h
      rw [ContentId.toJson_injective h.1, natJson_injective h.2.1, bytes_injective h.2.2.1,
        ContentId.toJson_injective h.2.2.2]
    | _ => first | exact absurd hb id | simp [messageJson] at h
  | contentComplete id =>
    cases b with
    | contentComplete id' =>
      simp only [messageJson, Json.obj.injEq, List.cons.injEq, Prod.mk.injEq, true_and, and_true] at h
      rw [ContentId.toJson_injective h]
    | _ => first | exact absurd hb id | simp [messageJson] at h
  | _ => cases ha

/-- The assumption is consistent: two values with one text are one value. -/
theorem exists_serde : Nonempty Serde := by
  have hmessage : Function.Injective fun m : { m // OfContent m } =>
      write (messageJson (fun _ => natToken 0) m.1) := fun a b h =>
    Subtype.ext (messageJson_injective a.2 b.2 (write_injective h))
  have henvelope : Function.Injective fun e => write (envelopeJson e) := fun a b h =>
    envelopeJson_injective (write_injective h)
  refine ⟨⟨fun _ => natToken 0, Function.extend (fun m : { m // OfContent m } => write (messageJson
    (fun _ => natToken 0) m.1)) (fun m => some m.1) (fun _ => none), Function.extend (fun e => write
    (envelopeJson e)) some (fun _ => none), ?_, ?_⟩⟩
  · intro m hm
    exact hmessage.extend_apply (fun m => some m.1) _ ⟨m, hm⟩
  · intro e _
    exact henvelope.extend_apply some _ e

/-! ### The answer -/

/-- A node that writes and reads its messages as JSON. -/
def jsonServer (serde : Serde) (identity : NodeIdentity P) (elsewhere : Elsewhere τ) : Server P τ :=
  ⟨identity, serde.codec, elsewhere⟩

/-- The text of a `Content` message. -/
def contentText (id : ContentId) (bytes : Bytes) : Bytes :=
  write (.obj [("Content", .obj [("id", id.toJson), ("bytes", JsonText.bytes bytes)])])

/-- The length of the answer as a frame's text: the content and its id are numbers written as numbers, so
each digit and comma of theirs takes three places, and 162 places are the names and the brackets. -/
def answerLength (identity : NodeIdentity P) (id : ContentId) (bytes signature : Bytes) : ℕ :=
  3 * (arrayLength bytes + arrayLength id.digest.bytes) + arrayLength identity.nodeId.bytes +
    arrayLength identity.publicKeyDer + arrayLength signature + 162

/-- **The condition on a content**: the values of its bytes leave room in a frame for the answer that the
node signs. -/
def AnswerFits (identity : NodeIdentity P) (bytes : Bytes) : Prop :=
  ∃ signature, identity.sign (contentText (ContentId.of P bytes) bytes) = .ok signature ∧
    answerLength identity (ContentId.of P bytes) bytes signature ≤ maxFrame

theorem weight_contentText (id : ContentId) (bytes : Bytes) :
    weight (contentText id bytes) = 3 * (arrayLength bytes + arrayLength id.digest.bytes) + 100 := by
  have hcontent : weight (writeStr "Content") = 33 := by decide
  have hid : weight (writeStr "id") = 14 := by decide
  have hbytes : weight (writeStr "bytes") = 25 := by decide
  have hopen : byteDigits 123 = 3 := by decide
  have hclose : byteDigits 125 = 3 := by decide
  have hcolon : byteDigits 58 = 2 := by decide
  have hcomma : byteDigits 44 = 2 := by decide
  have hdigest : weight (write id.toJson) = 3 * arrayLength id.digest.bytes := weight_write_bytes _
  simp only [contentText, write, writeFields, weight, weight_append, weight_write_bytes, hdigest,
    hcontent, hid, hbytes, hopen, hclose, hcolon, hcomma]
  omega

theorem answer_length (identity : NodeIdentity P) (id : ContentId) (bytes signature : Bytes) :
    (write (envelopeJson ⟨protocolVersion, identity.nodeId, identity.publicKeyDer,
      contentText id bytes, signature⟩)).length = answerLength identity id bytes signature := by
  have hpayload : arrayLength (contentText id bytes) = weight (contentText id bytes) + 1 := by
    apply if_neg
    intro hnil
    have hlength := write_length_pos (.obj [("Content", .obj [("id", id.toJson),
      ("bytes", JsonText.bytes bytes)])])
    rw [show write _ = [] from hnil] at hlength
    cases hlength
  rw [envelope_length, hpayload, weight_contentText, answerLength]
  omega

/-- **An answer takes six places for every byte** at least. -/
theorem six_mul_length_le_answerLength (identity : NodeIdentity P) (id : ContentId)
    (bytes signature : Bytes) : 6 * bytes.length ≤ answerLength identity id bytes signature := by
  have harray := two_mul_length_le_arrayLength bytes
  unfold answerLength
  omega

variable {serde : Serde} {s : Receiver τ} {v : Visit} {bytes : Bytes} {signer : NodeId}

/-- **The answer to `GetContent`** for a content in the store. -/
theorem getContent_answer (identity : NodeIdentity P) (elsewhere : Elsewhere τ) (hP : P.Lawful)
    (hopen : v.envelope.openWithSigner P serde.readMessage =
      .ok (.getContent (ContentId.of P bytes), signer))
    (hlet : s.node.admission (s.budget.consume signer v.reading.now).2
      (.getContent (ContentId.of P bytes)) signer v.reading.later = none)
    (hstored : s.cas.get P (ContentId.of P bytes) = .ok bytes) :
    ∃ s' signature, identity.sign (contentText (ContentId.of P bytes) bytes) = .ok signature ∧
      (jsonServer serde identity elsewhere).handle s v = (s', .ok ⟨protocolVersion, identity.nodeId,
        identity.publicKeyDer, contentText (ContentId.of P bytes) bytes, signature⟩) := by
  obtain ⟨charged, _, hcas, hrespond⟩ :=
    (jsonServer serde identity elsewhere).respond_admitted hlet
  obtain ⟨signature, hsign, _⟩ := verify_sign hP identity (contentText (ContentId.of P bytes) bytes)
  refine ⟨charged, signature, hsign, ?_⟩
  rw [Receiver.serve, hcas, hstored] at hrespond
  have hparse : v.envelope.openWithSigner P (jsonServer serde identity elsewhere).codec.parse =
      .ok (.getContent (ContentId.of P bytes), signer) := hopen
  have hseal : SignedEnvelope.seal ((jsonServer serde identity elsewhere).codec.encode
      (.content (ContentId.of P bytes) bytes)) (jsonServer serde identity elsewhere).identity =
      .ok ⟨protocolVersion, identity.nodeId, identity.publicKeyDer,
        contentText (ContentId.of P bytes) bytes, signature⟩ := by
    show SignedEnvelope.seal (contentText (ContentId.of P bytes) bytes) identity = _
    rw [SignedEnvelope.seal, hsign]
  rw [Server.handle]
  simp only [hparse, hrespond, hseal]
  rfl

/-- The answer reaches the other side: its frame is accepted, and what is read there carries the content. -/
def Fetched (P : Primitives) (serde : Serde) (envelope : SignedEnvelope) (bytes : Bytes) : Prop :=
  ∃ frame, writeFrame [] envelope = .ok frame ∧
    ∃ received signer, readFrame serde.readEnvelope frame = .ok (received, []) ∧
      received.openWithSigner P serde.readMessage = .ok (.content (ContentId.of P bytes) bytes, signer)

/-- **A stored content can be fetched exactly if its answer fits a frame.**  The node that has it answers a
`GetContent` that it admits; the answer reaches the other side if and only if the content meets the
condition. -/
theorem fetched_iff_fits (identity : NodeIdentity P) (elsewhere : Elsewhere τ) (hP : P.Lawful)
    (hopen : v.envelope.openWithSigner P serde.readMessage =
      .ok (.getContent (ContentId.of P bytes), signer))
    (hlet : s.node.admission (s.budget.consume signer v.reading.now).2
      (.getContent (ContentId.of P bytes)) signer v.reading.later = none)
    (hstored : s.cas.get P (ContentId.of P bytes) = .ok bytes) :
    ∃ s' envelope, (jsonServer serde identity elsewhere).handle s v = (s', .ok envelope) ∧
      (Fetched P serde envelope bytes ↔ AnswerFits identity bytes) := by
  obtain ⟨s', signature, hsign, hhandle⟩ := getContent_answer identity elsewhere hP hopen hlet
    hstored
  refine ⟨s', _, hhandle, ?_⟩
  constructor
  · rintro ⟨frame, hwrite, _⟩
    refine ⟨signature, hsign, ?_⟩
    rw [← answer_length]
    exact (writeFrame_ok.mp hwrite).1
  · rintro ⟨signature', hsign', hfits⟩
    obtain rfl : signature = signature' := Except.ok.inj (hsign.symm.trans hsign')
    rw [← answer_length] at hfits
    have hversion : protocolVersion < 2 ^ 16 := by decide
    obtain ⟨frame, hwrite, hread⟩ := frame_of_fits (serde.envelope_written _ hversion) hfits
    obtain ⟨envelope, hseal, _, hopened⟩ := SignedEnvelope.open_seal hP
      (serde.message_written (.content (ContentId.of P bytes) bytes) trivial) identity
    have hsame : SignedEnvelope.seal (contentText (ContentId.of P bytes) bytes) identity = .ok envelope :=
      hseal
    rw [SignedEnvelope.seal, hsign] at hsame
    rw [← Except.ok.inj hsame] at hopened
    exact ⟨frame, hwrite, _, _, hread, hopened⟩

/-! ### What can be uploaded -/

/-- A node on its own with a client takes every content of more than one chunk and few requests. -/
theorem transferable_alone (serde : Serde) (node client : NodeIdentity P) (elsewhere : Elsewhere Unit)
    (hlong : contentChunkSize < bytes.length) (hsmall : bytes.length ≤ maxContentSize)
    (hfew : chunkCount bytes + 2 ≤ maxRequestsPerIdentityPerWindow) :
    Transferable (jsonServer serde node elsewhere) client quiet idle bytes := by
  have hread : ∀ message, OfContent message →
      (jsonServer serde node elsewhere).codec.parse
        ((jsonServer serde node elsewhere).codec.encode message) = some message :=
    serde.message_written
  refine transferable_idle (m := 0) hlong hsmall (by omega) ?_ (fun _ => hread _ trivial) rfl
    (fun _ => Nat.le_refl 0) rfl (fun _ _ hv => absurd hv List.not_mem_nil) (collectOnly_alone fun _ => rfl)
  intro message hmessage
  apply hread
  rcases List.mem_append.mp hmessage with hmessage | hmessage
  · rcases List.mem_cons.mp hmessage with rfl | hchunk
    · have hlimit : maxContentSize < 2 ^ 64 := by decide
      exact ⟨by omega, by decide⟩
    · obtain ⟨i, _, rfl⟩ := List.mem_map.mp hchunk
      exact Nat.mod_lt i (by decide)
  · rw [List.mem_singleton.mp hmessage]
    trivial

/-- After its transfer the client is let in once more. -/
theorem admission_uploaded (server : Server P Unit) (me : NodeId) (message : Message)
    (hfew : chunkCount bytes + 3 ≤ maxRequestsPerIdentityPerWindow) :
    (server.uploaded me quiet idle bytes).node.admission
      ((server.uploaded me quiet idle bytes).budget.consume me 0).2 message me 0 = none := by
  have halone : ∀ n, (quiet n).visits = [] := fun _ => rfl
  have hadmits : server.Admits me quiet 0 idle ((transferRequests P bytes ++
      [.contentComplete (ContentId.of P bytes)]) ++ [message]) := by
    apply server.admits_few (fun _ => Nat.le_refl 0) _ 0 0 idle (idle_light me)
    rw [List.length_append, List.length_append, length_transferRequests]
    show 0 + (0 + 1) * (chunkCount bytes + 1 + 1 + 1) ≤ maxRequestsPerIdentityPerWindow
    omega
  have hlast := ((server.admits_append _ [message] 0 idle).mp hadmits).2.1
  rw [Server.before_alone server halone] at hlast
  exact hlast

/-- **A content that is uploaded and cannot be fetched**: whatever its bytes are, six places for each of them
do not fit a frame. -/
theorem unfetchable_of_large (hP : P.Lawful) (serde : Serde) (node client : NodeIdentity P)
    (elsewhere : Elsewhere Unit) (hlarge : maxFrame < 6 * bytes.length)
    (hsmall : bytes.length ≤ maxContentSize)
    (hfew : chunkCount bytes + 3 ≤ maxRequestsPerIdentityPerWindow) :
    ∃ s' v signer, answer (((jsonServer serde node elsewhere).client client quiet).transferContentVia
        (ContentId.of P bytes) bytes) (idle, 0) = (.ok (), (s', chunkCount bytes + 2)) ∧
      s'.cas.get P (ContentId.of P bytes) = .ok bytes ∧
      v.envelope.openWithSigner P serde.readMessage = .ok (.getContent (ContentId.of P bytes), signer) ∧
      ∃ s'' envelope, (jsonServer serde node elsewhere).handle s' v = (s'', .ok envelope) ∧
        writeFrame [] envelope = .error .frameTooLarge := by
  have hlong : contentChunkSize < bytes.length := by
    have hframe : 6 * contentChunkSize < maxFrame := by decide
    omega
  obtain ⟨hanswer, hstored⟩ :=
    (transferable_alone serde node client elsewhere hlong hsmall (by omega)).uploads hP
  obtain ⟨request, _, _, hopen⟩ := SignedEnvelope.open_seal hP
    (serde.message_written (.getContent (ContentId.of P bytes)) trivial) client
  have hlet := admission_uploaded (jsonServer serde node elsewhere) client.nodeId
    (.getContent (ContentId.of P bytes)) hfew
  have hvisit : (⟨request, ⟨0, 0, true⟩⟩ : Visit).envelope.openWithSigner P serde.readMessage =
      .ok (.getContent (ContentId.of P bytes), client.nodeId) := hopen
  obtain ⟨s'', signature, _, hhandle⟩ := getContent_answer node elsewhere hP hvisit hlet hstored
  refine ⟨_, _, _, hanswer, hstored, hvisit, s'', _, hhandle, ?_⟩
  have hlength := six_mul_length_le_answerLength node (ContentId.of P bytes) bytes signature
  rw [← answer_length] at hlength
  exact if_pos (by omega)

/-! ### Samples -/

section Samples

open Sample

/-- 16 MiB, of 512 that may be uploaded. -/
def sixteenMiB : Bytes := List.replicate (16 * 1024 * 1024) 0

/-- Handlers of tasks that do nothing. -/
def noTasks : Elsewhere Unit := fun tasks message _ => (tasks, [], .ok message)

/-- **Uploaded and unfetchable.**  The node takes 16 MiB of zeros in chunks and stores them; its answer to
`GetContent` is no frame. -/
theorem uploaded_unfetchable : sixteenMiB.length ≤ maxContentSize ∧ ∃ (serde : Serde) (s' : Receiver Unit)
    (v : Visit) (signer : NodeId),
    answer (((jsonServer serde (identity [1]) noTasks).client (identity [2]) quiet).transferContentVia
        (ContentId.of primitives sixteenMiB) sixteenMiB) (idle, 0) = (.ok (), (s', 258)) ∧
      s'.cas.get primitives (ContentId.of primitives sixteenMiB) = .ok sixteenMiB ∧
      v.envelope.openWithSigner primitives serde.readMessage =
        .ok (.getContent (ContentId.of primitives sixteenMiB), signer) ∧
      ∃ s'' envelope, (jsonServer serde (identity [1]) noTasks).handle s' v = (s'', .ok envelope) ∧
        writeFrame [] envelope = .error .frameTooLarge := by
  have hlength : sixteenMiB.length = 16 * 1024 * 1024 := List.length_replicate
  have hcount : chunkCount sixteenMiB = 256 := by
    rw [chunkCount, hlength]
    decide
  have hsmall : sixteenMiB.length ≤ maxContentSize := by
    rw [hlength]
    decide
  obtain ⟨serde⟩ := exists_serde
  have hall := unfetchable_of_large lawful serde (identity [1]) (identity [2]) noTasks
    (by rw [hlength]; decide) hsmall (by rw [hcount]; decide)
  rw [hcount] at hall
  exact ⟨hsmall, serde, hall⟩

/-- Two chunks leave room in a frame, whatever the signature spells out. -/
theorem zeros_fits : AnswerFits (identity [1]) zeros := by
  refine ⟨[1] ++ contentText (ContentId.of primitives zeros) zeros, rfl, ?_⟩
  have hbytes := arrayLength_le zeros
  have hdigest := arrayLength_le (ContentId.of primitives zeros).digest.bytes
  have hnode := arrayLength_le (identity [1]).nodeId.bytes
  have hkey : arrayLength (identity [1]).publicKeyDer = 3 := rfl
  have hsignature : arrayLength ([1] ++ contentText (ContentId.of primitives zeros) zeros) =
      weight [1] + weight (contentText (ContentId.of primitives zeros) zeros) + 1 := by
    rw [← weight_append]
    exact if_neg (by simp)
  have hone : weight [1] = 2 := rfl
  have hlimit : 24 * contentChunkSize + 5000 ≤ maxFrame := by decide
  rw [zeros_length] at hbytes
  rw [(ContentId.of primitives zeros).digest.size] at hdigest
  rw [show (identity [1]).nodeId.bytes.length = 32 by decide +kernel] at hnode
  rw [weight_contentText, hone] at hsignature
  rw [answerLength, hsignature, hkey]
  generalize arrayLength zeros = content at hbytes ⊢
  generalize arrayLength (ContentId.of primitives zeros).digest.bytes = digest at hdigest ⊢
  generalize arrayLength (identity [1]).nodeId.bytes = node at hnode ⊢
  omega

/-- **Uploaded and fetched.**  A content of two chunks is transferred to a node and read back by the next
request. -/
theorem two_chunks_fetched : ∃ (serde : Serde) (s' : Receiver Unit) (v : Visit) (s'' : Receiver Unit)
    (envelope : SignedEnvelope),
    answer (((jsonServer serde (identity [1]) noTasks).client (identity [2]) quiet).transferContentVia
        (ContentId.of primitives zeros) zeros) (idle, 0) = (.ok (), (s', 4)) ∧
      (jsonServer serde (identity [1]) noTasks).handle s' v = (s'', .ok envelope) ∧
      Fetched primitives serde envelope zeros := by
  obtain ⟨serde⟩ := exists_serde
  have hlong : contentChunkSize < zeros.length := by
    rw [zeros_length]
    omega
  have hfew : chunkCount zeros + 3 ≤ maxRequestsPerIdentityPerWindow := by
    rw [zeros_chunkCount]
    decide
  obtain ⟨hanswer, hstored⟩ := (transferable_alone serde (identity [1]) (identity [2]) noTasks hlong
    (by rw [zeros_length]; decide) (by rw [zeros_chunkCount]; decide)).uploads lawful
  obtain ⟨request, _, _, hopen⟩ := SignedEnvelope.open_seal lawful
    (serde.message_written (.getContent (ContentId.of primitives zeros)) trivial) (identity [2])
  have hvisit : (⟨request, ⟨0, 0, true⟩⟩ : Visit).envelope.openWithSigner primitives serde.readMessage =
      .ok (.getContent (ContentId.of primitives zeros), (identity [2]).nodeId) := hopen
  have hlet := admission_uploaded (jsonServer serde (identity [1]) noTasks) (identity [2]).nodeId
    (.getContent (ContentId.of primitives zeros)) hfew
  rw [zeros_chunkCount] at hanswer
  obtain ⟨s'', envelope, hhandle, hiff⟩ := fetched_iff_fits (identity [1]) noTasks lawful hvisit hlet
    hstored
  exact ⟨serde, _, _, s'', envelope, hanswer, hhandle, hiff.mpr zeros_fits⟩

end Samples

end Peerless.Node
