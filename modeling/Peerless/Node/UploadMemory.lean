import Peerless.Lib.Mealy
import Peerless.Node.UploadExact

/-!
# What uploads may hold

The sessions of the chunked upload, in every state that any sequence of messages can lead to.

* `upload_memory_bounded` — the bounds, and that no checked operation fails, in every state.
-/

namespace Peerless.Node

open Text Wire HashMap Mealy Peerless.Core Protocol Storage

variable {P : Primitives} {τ : Type}

/-! ### Sessions -/

/-- A session has one slot per chunk of its declared size, and no slot holds more than a chunk. -/
structure UploadSession.Fits (session : UploadSession) : Prop where
  chunkSize : session.chunkSize = contentChunkSize
  slots : session.chunks.length = divCeil session.totalSize contentChunkSize
  filled : ∀ bytes, some bytes ∈ session.chunks → bytes.length ≤ contentChunkSize

/-- The bytes a session holds. -/
def UploadSession.buffered (session : UploadSession) : ℕ :=
  ((session.chunks.filterMap id).map List.length).sum

theorem UploadSession.fits_empty (totalSize : ℕ) :
    UploadSession.Fits ⟨totalSize, contentChunkSize,
      List.replicate (divCeil totalSize contentChunkSize) none⟩ :=
  ⟨rfl, List.length_replicate, fun _ h => absurd (List.eq_of_mem_replicate h) (by simp)⟩

variable {session : UploadSession}

/-- A chunk that passes the test keeps the session in order. -/
theorem UploadSession.Fits.take (hfits : session.Fits) {index : ℕ} {bytes : Bytes} {chunkHash : ContentId}
    (htakes : Receiver.takesChunk P session index bytes chunkHash = true) :
    UploadSession.Fits { session with chunks := session.chunks.set index (some bytes) } := by
  have hchunk := (of_decide_eq_true htakes).2.1
  refine ⟨hfits.chunkSize, ?_, ?_⟩
  · rw [List.length_set]
    exact hfits.slots
  · intro held hmem
    rcases List.mem_or_eq_of_mem_set hmem with hmem | heq
    · exact hfits.filled held hmem
    · rw [Option.some.inj heq, ← hfits.chunkSize]
      exact hchunk

theorem divCeil_mul_lt {a b : ℕ} (hb : 0 < b) : divCeil a b * b < a + b := by
  have hdiv := Nat.div_add_mod a b
  rw [Nat.mul_comm] at hdiv
  unfold divCeil
  split
  · rw [Nat.add_mul, Nat.one_mul]
    omega
  · omega

theorem sum_lengths_le {n : ℕ} : ∀ (chunks : List (Option Bytes)),
    (∀ bytes, some bytes ∈ chunks → bytes.length ≤ n) →
      ((chunks.filterMap id).map List.length).sum ≤ chunks.length * n := by
  intro chunks
  induction chunks with
  | nil => intro _; exact Nat.zero_le _
  | cons chunk chunks ih =>
    intro h
    have hrest := ih fun bytes hmem => h bytes (List.mem_cons_of_mem _ hmem)
    rw [List.length_cons, Nat.add_mul, Nat.one_mul]
    cases chunk with
    | none =>
      rw [List.filterMap_cons_none rfl]
      omega
    | some bytes =>
      have hone := h bytes List.mem_cons_self
      show bytes.length + ((chunks.filterMap id).map List.length).sum ≤ _
      omega

/-- **A session holds less than a chunk more than it declared.** -/
theorem UploadSession.Fits.buffered_lt (hfits : session.Fits) :
    session.buffered < session.totalSize + contentChunkSize := by
  have hsum := sum_lengths_le session.chunks hfits.filled
  have hceil := divCeil_mul_lt (a := session.totalSize) (b := contentChunkSize) (by decide)
  rw [hfits.slots] at hsum
  exact Nat.lt_of_le_of_lt hsum hceil

/-! ### All sessions -/

/-- The declared sizes of all sessions. -/
def declared (uploads : Map (NodeId × ContentId) UploadSession) : ℕ :=
  ((vals uploads).map UploadSession.totalSize).sum

/-- The sessions a node may have. -/
structure UploadsBounded (uploads : Map (NodeId × ContentId) UploadSession) : Prop where
  sessions : size uploads ≤ maxActiveUploads
  declared_le : declared uploads ≤ maxInFlightUploadBytes
  fits : ∀ session ∈ vals uploads, session.Fits

theorem uploadsBounded_empty : UploadsBounded ∅ :=
  ⟨Nat.zero_le _, Nat.zero_le _, fun _ h => absurd h List.not_mem_nil⟩

theorem declared_insert (uploads : Map (NodeId × ContentId) UploadSession) (key : NodeId × ContentId)
    (session : UploadSession) :
    declared (uploads.insert key session) = session.totalSize + declared (uploads.erase key) := by
  unfold declared
  rw [vals_insert, List.map_cons, List.sum_cons]

theorem declared_erase (uploads : Map (NodeId × ContentId) UploadSession) (key : NodeId × ContentId) :
    declared uploads =
      ((uploads.lookup key).map UploadSession.totalSize).getD 0 + declared (uploads.erase key) :=
  sum_map_erase UploadSession.totalSize uploads key

theorem declared_others (uploads : Map (NodeId × ContentId) UploadSession) (key : NodeId × ContentId) :
    ((vals (retain (fun existing _ => existing ≠ key) uploads)).map UploadSession.totalSize).sum =
      declared (uploads.erase key) :=
  ((vals_retain_ne uploads key).map UploadSession.totalSize).sum_nat

theorem UploadsBounded.erase {uploads : Map (NodeId × ContentId) UploadSession} (h : UploadsBounded uploads)
    (key : NodeId × ContentId) : UploadsBounded (uploads.erase key) := by
  have hle := h.declared_le
  rw [declared_erase uploads key] at hle
  refine ⟨(size_erase_le key uploads).trans h.sessions, by omega, ?_⟩
  intro session hmem
  exact h.fits session (mem_vals_erase hmem)

/-- **A session put in the place of another one, or where there is room.** -/
theorem UploadsBounded.insert {uploads : Map (NodeId × ContentId) UploadSession}
    (h : UploadsBounded uploads) {key : NodeId × ContentId} (hfits : session.Fits)
    (hroom : (uploads.lookup key).isSome ∨ size uploads < maxActiveUploads)
    (hdeclared : session.totalSize + declared (uploads.erase key) ≤ maxInFlightUploadBytes) :
    UploadsBounded (uploads.insert key session) := by
  refine ⟨?_, ?_, ?_⟩
  · cases hfound : uploads.lookup key with
    | some found =>
      rw [size_insert_of_some session hfound]
      exact h.sessions
    | none =>
      rw [size_insert_of_none session hfound]
      rcases hroom with hsome | hroom
      · rw [hfound] at hsome
        cases hsome
      · exact hroom
  · rw [declared_insert]
    exact hdeclared
  · intro other hmem
    rw [vals_insert] at hmem
    rcases List.mem_cons.mp hmem with rfl | hmem
    · exact hfits
    · exact h.fits other (mem_vals_erase hmem)

variable {s : Receiver τ}

theorem UploadsBounded.serve (h : UploadsBounded s.uploads) (elsewhere : Elsewhere τ) (message : Message)
    (signer : NodeId) (writable : Bool) :
    UploadsBounded (s.serve P elsewhere message signer writable).1.uploads := by
  have hmove := Receiver.serve_uploads (P := P) elsewhere s message signer writable
  generalize (s.serve P elsewhere message signer writable).1.uploads = uploads at hmove ⊢
  cases hmove with
  | kept => exact h
  | @started id totalSize chunkSize hstart =>
    obtain ⟨_, hchunk, hroom, hdeclared⟩ := of_decide_eq_true hstart
    rw [declared_others, Nat.add_comm] at hdeclared
    rw [hchunk]
    exact h.insert (UploadSession.fits_empty totalSize) hroom hdeclared
  | @taken id chunkHash index bytes session hsession htakes =>
    have hfits := (h.fits session (mem_vals_of_lookup hsession)).take htakes
    have hdeclared := h.declared_le
    rw [declared_erase s.uploads (signer, id), hsession] at hdeclared
    exact h.insert hfits (.inl (by rw [hsession]; rfl)) hdeclared
  | ended => exact h.erase _

/-! ### The handlers with every operation checked -/

/-- `sum::<u64>()`. -/
def checkedSum (sizes : List ℕ) : Option ℕ := sizes.foldlM checkedAdd 0

/-- `div_ceil`. -/
def checkedDivCeil (a b : ℕ) : Option ℕ := if b = 0 then none else some (divCeil a b)

/-- `ContentStart`, with the sizes of the other sessions in the order the map gives them. -/
def Receiver.checkedContentStart (s : Receiver τ) (signer : NodeId) (id : ContentId)
    (totalSize chunkSize : ℕ) (sizes : List ℕ) : Option (Receiver τ × Message) :=
  (checkedSum sizes).bind fun reserved =>
    if totalSize ≤ maxContentSize ∧ chunkSize = contentChunkSize ∧
        ((s.uploads.lookup (signer, id)).isSome ∨ size s.uploads < maxActiveUploads) ∧
        (checkedAdd reserved totalSize).any (· ≤ maxInFlightUploadBytes) then
      (checkedDivCeil totalSize chunkSize).map fun count =>
        ({ s with uploads := s.uploads.insert (signer, id)
                    ⟨totalSize, chunkSize, List.replicate count none⟩ }, .hasContent id)
    else
      some (s, .taskError ""
        ("content transfer exceeds bounded upload budget for " ++ ContentId.display id))

variable (P) in
/-- `ContentChunk`; the session is looked up a second time, and its slot must exist. -/
def Receiver.checkedContentChunk (s : Receiver τ) (signer : NodeId) (id : ContentId) (index : ℕ)
    (bytes : Bytes) (chunkHash : ContentId) : Option (Receiver τ × Message) :=
  if (s.uploads.lookup (signer, id)).any (takesChunk P · index bytes chunkHash) then
    (s.uploads.lookup (signer, id)).bind fun session =>
      if index < session.chunks.length then
        some ({ s with uploads := s.uploads.insert (signer, id)
                        { session with chunks := session.chunks.set index (some bytes) } },
          .hasContent chunkHash)
      else none
  else some ({ s with uploads := s.uploads.erase (signer, id) }, .taskError "" "invalid content chunk")

/-- **The sum of the sizes does not overflow, in whatever order it is formed.** -/
theorem UploadsBounded.checkedSum_eq {uploads : Map (NodeId × ContentId) UploadSession}
    (h : UploadsBounded uploads) {key : NodeId × ContentId} {sizes : List ℕ}
    (hsizes : sizes.Perm ((vals (retain (fun existing _ => existing ≠ key) uploads)).map
      UploadSession.totalSize)) :
    checkedSum sizes = some (declared (uploads.erase key)) := by
  have hle := (h.erase key).declared_le
  have hsum : sizes.sum = declared (uploads.erase key) := hsizes.sum_nat.trans (declared_others uploads key)
  have hsmall : 0 + sizes.sum < 2 ^ 64 := by
    rw [hsum, Nat.zero_add]
    exact Nat.lt_of_le_of_lt hle (by decide)
  rw [checkedSum, foldlM_checkedAdd sizes 0 hsmall, Nat.zero_add, hsum]

/-- An overflow is refused, as a sum above the limit is. -/
theorem any_checkedAdd (a b : ℕ) :
    (checkedAdd a b).any (· ≤ maxInFlightUploadBytes) = true ↔ a + b ≤ maxInFlightUploadBytes := by
  have hlimit : maxInFlightUploadBytes < 2 ^ 64 := by decide
  unfold checkedAdd
  split
  · rw [Option.any_some, decide_eq_true_iff]
  · simp only [Option.any_none]
    constructor
    · intro hfalse
      cases hfalse
    · omega

theorem UploadsBounded.checkedContentStart_eq (h : UploadsBounded s.uploads) (signer : NodeId)
    (id : ContentId) (totalSize chunkSize : ℕ) {sizes : List ℕ}
    (hsizes : sizes.Perm ((vals (retain (fun existing _ => existing ≠ (signer, id)) s.uploads)).map
      UploadSession.totalSize)) :
    s.checkedContentStart signer id totalSize chunkSize sizes =
      some (s.contentStart signer id totalSize chunkSize) := by
  rw [Receiver.checkedContentStart, h.checkedSum_eq hsizes, Option.bind_some, Receiver.contentStart]
  split
  · rename_i hvalid
    have hstart : s.canStart signer id totalSize chunkSize = true := by
      rw [any_checkedAdd, ← declared_others] at hvalid
      exact decide_eq_true hvalid
    -- a start that passes the test has the chunk size of the program, which is not zero
    have hdivisor : chunkSize ≠ 0 := by
      rw [hvalid.2.1]
      decide
    rw [if_pos hstart, checkedDivCeil, if_neg hdivisor]
    rfl
  · rename_i hinvalid
    have hstart : ¬ s.canStart signer id totalSize chunkSize = true := by
      intro hstart
      apply hinvalid
      rw [any_checkedAdd, ← declared_others]
      exact of_decide_eq_true hstart
    rw [if_neg hstart]

theorem Receiver.checkedContentChunk_eq (s : Receiver τ) (signer : NodeId) (id : ContentId) (index : ℕ)
    (bytes : Bytes) (chunkHash : ContentId) :
    s.checkedContentChunk P signer id index bytes chunkHash =
      some (s.contentChunk P signer id index bytes chunkHash) := by
  rw [Receiver.checkedContentChunk, Receiver.contentChunk]
  cases s.uploads.lookup (signer, id) with
  | none => rfl
  | some session =>
    rw [Option.any_some, Option.bind_some]
    dsimp only
    split
    · rename_i htakes
      rw [if_pos (of_decide_eq_true htakes).2.2]
    · rfl

/-! ### Every state -/

/-- A message of a signer, and whether the store can write a file. -/
structure Upload where
  message : Message
  signer : NodeId
  writable : Bool

variable (P) in
/-- A node that serves a message. -/
def Receiver.upload (elsewhere : Elsewhere τ) (s : Receiver τ) (u : Upload) :
    Receiver τ × Except HandleError Message :=
  s.serve P elsewhere u.message u.signer u.writable

theorem UploadsBounded.after (h : UploadsBounded s.uploads) (elsewhere : Elsewhere τ)
    (uploads : List Upload) :
    UploadsBounded (Mealy.after (Receiver.upload P elsewhere) s uploads).uploads :=
  after_invariant (I := fun s => UploadsBounded s.uploads)
    (fun _ u h => h.serve elsewhere u.message u.signer u.writable) uploads s h

/-- **What uploads hold is bounded.**  After any messages of any signers there are few sessions of limited
sizes, each with one slot per chunk and less than a chunk beyond its size, and no operation of the handlers
overflows, divides by zero or leaves its slots. -/
theorem upload_memory_bounded (elsewhere : Elsewhere τ) (s : Receiver τ) (hempty : s.uploads = ∅)
    (uploads : List Upload) :
    let now := after (Receiver.upload P elsewhere) s uploads
    size now.uploads ≤ maxActiveUploads ∧
    ((vals now.uploads).map UploadSession.totalSize).sum ≤ maxInFlightUploadBytes ∧
    (∀ session ∈ vals now.uploads,
      session.chunks.length = divCeil session.totalSize contentChunkSize ∧
      (∀ bytes, some bytes ∈ session.chunks → bytes.length ≤ contentChunkSize) ∧
      session.buffered < session.totalSize + contentChunkSize) ∧
    (∀ signer id totalSize chunkSize sizes,
      sizes.Perm ((vals (retain (fun existing _ => existing ≠ (signer, id)) now.uploads)).map
        UploadSession.totalSize) →
      now.checkedContentStart signer id totalSize chunkSize sizes =
        some (now.contentStart signer id totalSize chunkSize)) ∧
    ∀ signer id index bytes chunkHash,
      now.checkedContentChunk P signer id index bytes chunkHash =
        some (now.contentChunk P signer id index bytes chunkHash) := by
  intro now
  have hstart : UploadsBounded s.uploads := by
    rw [hempty]
    exact uploadsBounded_empty
  have hbounded : UploadsBounded now.uploads := hstart.after elsewhere uploads
  refine ⟨hbounded.sessions, hbounded.declared_le, ?_, ?_, ?_⟩
  · intro session hmem
    have hfits := hbounded.fits session hmem
    exact ⟨hfits.slots, hfits.filled, hfits.buffered_lt⟩
  · intro signer id totalSize chunkSize sizes hsizes
    exact hbounded.checkedContentStart_eq signer id totalSize chunkSize hsizes
  · exact now.checkedContentChunk_eq

/-- Two uploads by one signer, of which the second takes the place of the first. -/
def restarted : List Upload :=
  [⟨.contentStart (ContentId.of Sample.primitives [1]) 65537 65536, (Sample.identity [2]).nodeId, true⟩,
   ⟨.contentStart (ContentId.of Sample.primitives [1]) 70000 65536, (Sample.identity [2]).nodeId, true⟩]

theorem upload_memory_bounded_restarted :
    size (after (Receiver.upload Sample.primitives zerosServer.elsewhere) idle restarted).uploads = 1 ∧
    ((vals (after (Receiver.upload Sample.primitives zerosServer.elsewhere) idle restarted).uploads).map
      UploadSession.totalSize).sum ≤ maxInFlightUploadBytes :=
  ⟨by decide +kernel, (upload_memory_bounded zerosServer.elsewhere idle rfl restarted).2.1⟩

end Peerless.Node
