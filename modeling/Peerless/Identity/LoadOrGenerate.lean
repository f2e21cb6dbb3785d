import Peerless.Identity
import Peerless.Storage.Draft

/-!
# The key of a node

`NodeIdentity::load_or_generate`: a node reads its key from a directory, or generates one, writes it under
a temporary name and links it to its place.  Threads of several processes do so at once in one directory.
They interleave at every system call, every call may fail, and every process may end between any two.
Process ids and clock readings need not differ.
-/

namespace Peerless.Identity

open Text Files Threads Peerless.Core
open Storage (Path Temporary)

variable {P : Primitives}

/-! ### The call -/

/-- The encoding of key pairs. -/
structure KeyFormat (P : Primitives) where
  toProtobufEncoding : P.Keypair → Except String Bytes
  fromProtobufEncoding : Bytes → Except String P.Keypair

/-- The documented behaviour of the encoding: what was written reads back. -/
structure KeyFormat.Lawful (F : KeyFormat P) : Prop where
  decode_encode : ∀ keypair bytes, F.toProtobufEncoding keypair = .ok bytes →
    F.fromProtobufEncoding bytes = .ok keypair

variable {F : KeyFormat P}

/-- A key pair with its encoding. -/
structure Encoded (F : KeyFormat P) where
  keypair : P.Keypair
  bytes : Bytes
  encodes : F.toProtobufEncoding keypair = .ok bytes

/-- `.key.{pid}.{nonce}.tmp`. -/
def temporaryKeyName (pid : UInt32) (nonce : ℕ) : Bytes :=
  46 :: utf8 "key." ++ decimal pid.toNat ++ 46 :: decimal nonce ++ utf8 ".tmp"

/-- The path of the key. -/
def keyPath (directory : Path) : Path := directory ++ [utf8 "key.protobuf"]

/-- Where a call stands. -/
inductive Point (F : KeyFormat P) where
  | entered
  | inspecting
  | restricting
  | probing
  | creating (key : Encoded F) (nonce : ℕ)
  | writing (key : Encoded F) (file : Temporary)
  | linking (key : Encoded F) (name : Path) (inode : ℕ)
  | won (key : Encoded F) (name : Path) (inode : ℕ)
  | lost (key : Encoded F) (name : Path) (inode : ℕ)
  | discarding (key : Encoded F) (name : Path) (inode : ℕ)
  | securing
  | permitting
  | reading
  | returned (result : Except IdentityError (NodeIdentity P))

/-- What a call has to itself: its process, and the key pair and the clock reading it gets if it needs
them. -/
structure Request (P : Primitives) where
  pid : UInt32
  keypair : P.Keypair
  nonce : Except String ℕ

structure Call (F : KeyFormat P) extends Request P where
  point : Point F
  crashed : Bool

def Call.start (request : Request P) : Call F := ⟨request, .entered, false⟩

/-- A call that fails for a reason of the file system. -/
def Point.io : Point F := .returned (.error .io)

/-- The key of a call that found none. -/
def Call.generate (call : Call F) : Point F :=
  match h : F.toProtobufEncoding call.keypair with
  | .error reason => .returned (.error (.invalidKey reason))
  | .ok bytes =>
    match call.nonce with
    | .error reason => .returned (.error (.invalidKey reason))
    | .ok nonce => .creating ⟨call.keypair, bytes, h⟩ nonce

/-- The key that was read. -/
def Point.decoded (F : KeyFormat P) (bytes : Bytes) : Point F :=
  match F.fromProtobufEncoding bytes with
  | .error reason => .returned (.error (.invalidKey reason))
  | .ok keypair => .returned (.ok (NodeIdentity.ofKeypair keypair))

/-- `load_or_generate`, from one system call to the next. -/
def Call.advance (directory : Path) (call : Call F) (answer : Answer) (fs : FileSystem Bytes UInt8) :
    Option (FileSystem Bytes UInt8 × Point F) :=
  match call.point with
  | .entered =>
    match answer with
    | .failed _ => some (fs, .io)
    | _ => some (fs.createDirAll directory, .inspecting)
  | .inspecting =>
    match answer.call (fs.metadata directory) with
    | .error _ => some (fs, .io)
    | .ok .directory => some (fs, .restricting)
    | .ok .file =>
      some (fs, .returned (.error (.invalidKey "identity directory must be a real directory")))
  | .restricting =>
    match answer with
    | .failed _ => some (fs, .io)
    | _ => some (fs, .probing)
  | .probing =>
    -- `exists` is false where it cannot tell
    match answer.call (fs.metadata (keyPath directory)) with
    | .error _ => some (fs, call.generate)
    | .ok _ => some (fs, .securing)
  | .creating key nonce =>
    let temporary := directory ++ [temporaryKeyName call.pid nonce]
    match answer.call (fs.createNew temporary) with
    | .ok (fs, inode) => some (fs, .writing key ⟨temporary, inode, 0⟩)
    | .error _ => some (fs, .io)
  | .writing key file =>
    if file.written < key.bytes.length then
      -- one `write` of `write_all`; the temporary file stays if it fails
      match answer with
      | .failed error =>
        if error.kind = .interrupted then some (fs, .writing key file) else some (fs, .io)
      | .done count =>
        let n := min count (key.bytes.length - file.written)
        if n = 0 then some (fs, .io)
        else
          some (fs.append file.inode ((key.bytes.drop file.written).take n),
            .writing key { file with written := file.written + n })
      | .crashed => some (fs, .writing key file)
    else
      -- `sync_all`
      match answer with
      | .failed _ => some (fs, .io)
      | _ => some (fs, .linking key file.name file.inode)
  | .linking key name inode =>
    match answer.call (fs.hardLink name (keyPath directory)) with
    | .ok fs => some (fs, .won key name inode)
    | .error error =>
      if error.kind = .alreadyExists then some (fs, .lost key name inode)
      else some (fs, .discarding key name inode)
  | .won key name _ =>
    match answer.call (fs.unlink name) with
    | .ok fs => some (fs, .returned (.ok (NodeIdentity.ofKeypair key.keypair)))
    | .error _ => some (fs, .io)
  | .lost _ name _ =>
    match answer.call (fs.unlink name) with
    | .ok fs => some (fs, .securing)
    | .error _ => some (fs, .io)
  | .discarding _ name _ =>
    match answer.call (fs.unlink name) with
    | .ok fs => some (fs, .io)
    | .error _ => some (fs, .io)
  | .securing =>
    -- `secure_key_metadata`
    match answer.call (fs.metadata (keyPath directory)) with
    | .error _ => some (fs, .io)
    | .ok .file => some (fs, .permitting)
    | .ok .directory =>
      some (fs, .returned (.error (.invalidKey "identity key must be a regular non-symlink file")))
  | .permitting =>
    match answer with
    | .failed _ => some (fs, .io)
    | _ => some (fs, .reading)
  | .reading =>
    match answer.call (fs.readFile (keyPath directory)) with
    | .error _ => some (fs, .io)
    | .ok bytes => some (fs, Point.decoded F bytes)
  | .returned _ => none

/-- The next system call of a call, or the end of its process. -/
def Call.next (directory : Path) (answer : Answer) (fs : FileSystem Bytes UInt8) (call : Call F) :
    Option (FileSystem Bytes UInt8 × Call F) :=
  if call.crashed then none
  else if answer = .crashed then some (fs, { call with crashed := true })
  else (call.advance directory answer fs).map fun r => (r.1, { call with point := r.2 })

/-- The calls on one directory. -/
abbrev Calls (F : KeyFormat P) := Pool (FileSystem Bytes UInt8) (Call F)

def Calls.step (directory : Path) : Calls F → Act (Request P) Answer → Option (Calls F) :=
  Threads.step Call.start (Call.next directory)

/-! ### The names -/

/-- The temporary names in a directory. -/
def KeyScratch (directory : Path) (p : Path) : Prop :=
  ∃ pid nonce, p = directory ++ [temporaryKeyName pid nonce]

theorem not_keyScratch_keyPath (directory : Path) : ¬KeyScratch directory (keyPath directory) := by
  rintro ⟨pid, nonce, h⟩
  have hname := List.singleton_inj.mp (List.append_cancel_left h)
  have hhead : (utf8 "key.protobuf").head? = some 46 := by
    rw [hname]
    rfl
  exact absurd hhead (by decide)

theorem not_keyScratch_directory (directory : Path) : ¬KeyScratch directory directory := by
  rintro ⟨pid, nonce, h⟩
  have hlength := congrArg List.length h
  rw [List.length_append, List.length_singleton] at hlength
  omega

/-! ### What one step does -/

/-- The temporary file of a call. -/
def Call.hold (call : Call F) : Option (Hold Bytes UInt8) :=
  match call.point with
  | .writing key file => some ⟨file.name, file.inode, key.bytes.take file.written, true⟩
  | .linking key name inode => some ⟨name, inode, key.bytes, true⟩
  | .won key name inode => some ⟨name, inode, key.bytes, false⟩
  | .lost key name inode => some ⟨name, inode, key.bytes, true⟩
  | .discarding key name inode => some ⟨name, inode, key.bytes, true⟩
  | _ => none

/-- The identity a call has returned, or is to return. -/
def Call.claim (call : Call F) : Option (NodeIdentity P) :=
  match call.point with
  | .won key _ _ => some (NodeIdentity.ofKeypair key.keypair)
  | .returned (.ok identity) => some identity
  | _ => none

/-- The key in its place is that of the identity. -/
def InPlace (F : KeyFormat P) (directory : Path) (fs : FileSystem Bytes UInt8)
    (identity : NodeIdentity P) : Prop :=
  ∃ bytes keypair, fs.read (keyPath directory) = some bytes ∧
    F.fromProtobufEncoding bytes = .ok keypair ∧ identity = NodeIdentity.ofKeypair keypair

variable {directory : Path} {fs : FileSystem Bytes UInt8}

theorem InPlace.unique {identity other : NodeIdentity P} (h : InPlace F directory fs identity)
    (h' : InPlace F directory fs other) : identity = other := by
  obtain ⟨bytes, keypair, hread, hdecode, rfl⟩ := h
  obtain ⟨bytes', keypair', hread', hdecode', rfl⟩ := h'
  rw [hread, Option.some.injEq] at hread'
  rw [hread', hdecode', Except.ok.injEq] at hdecode
  rw [hdecode]

/-- What a step of a call does to the files and to its claim: it claims what it claimed before or finds in
place, or it links its own key. -/
structure Moves (directory : Path) (fs : FileSystem Bytes UInt8) (call : Call F)
    (fs' : FileSystem Bytes UInt8) (call' : Call F) : Prop where
  effect : ∃ out, Effect (KeyScratch directory) fs call.hold out fs' call'.hold ∧
    ((out = none ∧ ∀ identity ∈ call'.claim, identity ∈ call.claim ∨ InPlace F directory fs identity) ∨
      (out = some (.link, keyPath directory) ∧ ∃ key : Encoded F,
        (∀ x ∈ call.hold, x.content = key.bytes) ∧
        call'.claim = some (NodeIdentity.ofKeypair key.keypair)))

variable {fs' : FileSystem Bytes UInt8} {point : Point F}

theorem Moves.silent {call : Call F}
    (heffect : Effect (KeyScratch directory) fs call.hold none fs' { call with point := point }.hold)
    (hclaim : { call with point := point }.claim = none) :
    Moves directory fs call fs' { call with point := point } := by
  refine ⟨none, heffect, .inl ⟨rfl, ?_⟩⟩
  intro identity hidentity
  rw [hclaim] at hidentity
  cases hidentity

theorem Moves.io {call : Call F} :
    Moves directory fs call fs { call with point := .io } :=
  .silent (.release _) rfl

/-- A call without a temporary file that goes on to a point without one. -/
theorem Moves.idle {call : Call F} (hhold : call.hold = none)
    (hhold' : { call with point := point }.hold = none)
    (hclaim : { call with point := point }.claim = none) :
    Moves directory fs call fs { call with point := point } := by
  refine .silent ?_ hclaim
  rw [hhold, hhold']
  exact .idle none

theorem generate_moves {call : Call F} (hhold : call.hold = none) :
    Moves directory fs call fs { call with point := call.generate } := by
  have hshape : ∀ point : Point F, point = call.generate →
      { call with point := point }.hold = none ∧ { call with point := point }.claim = none := by
    intro point hpoint
    unfold Call.generate at hpoint
    split at hpoint
    · subst hpoint
      exact ⟨rfl, rfl⟩
    · split at hpoint
      · subst hpoint
        exact ⟨rfl, rfl⟩
      · subst hpoint
        exact ⟨rfl, rfl⟩
  obtain ⟨hhold', hclaim⟩ := hshape _ rfl
  exact .idle hhold hhold' hclaim

theorem decoded_moves {call : Call F} {bytes : Bytes} (hhold : call.hold = none)
    (hread : fs.read (keyPath directory) = some bytes) :
    Moves directory fs call fs { call with point := Point.decoded F bytes } := by
  unfold Point.decoded
  split
  · exact .idle hhold rfl rfl
  · rename_i keypair hdecode
    refine ⟨none, ?_, .inl ⟨rfl, ?_⟩⟩
    · rw [hhold]
      exact .idle none
    · intro identity hidentity
      cases hidentity
      exact .inr ⟨bytes, keypair, hread, hdecode, rfl⟩

theorem readFile_ok {path : Path} {bytes : Bytes} (h : fs.readFile path = .ok bytes) :
    fs.read path = some bytes := by
  unfold FileSystem.readFile at h
  split at h
  · rename_i found hread
    rw [hread, Except.ok.inj h]
  · cases h

/-- One `write` of `write_all`, and the `sync_all` after the last. -/
theorem writing_moves {request : Request P} {crashed : Bool} {key : Encoded F} {file : Temporary}
    {answer : Answer}
    (h : Call.advance directory ⟨request, .writing key file, crashed⟩ answer fs = some (fs', point)) :
    Moves directory fs ⟨request, .writing key file, crashed⟩ fs' ⟨request, point, crashed⟩ := by
  unfold Call.advance at h
  dsimp only at h
  split at h
  · cases answer with
    | failed error =>
      dsimp only at h
      split at h
      · cases h
        exact .silent (.idle _) rfl
      · cases h
        exact .io
    | done count =>
      dsimp only at h
      split at h
      · cases h
        exact .io
      · generalize min count (key.bytes.length - file.written) = n at h
        cases h
        refine .silent ?_ rfl
        have happend : Effect (KeyScratch directory) fs
            (some ⟨file.name, file.inode, key.bytes.take file.written, true⟩) none _ _ :=
          .append rfl ((key.bytes.drop file.written).take n)
        rwa [← List.take_add] at happend
    | crashed =>
      cases h
      exact .silent (.idle _) rfl
  · rename_i hwritten
    have hall : key.bytes.take file.written = key.bytes := List.take_of_length_le (by omega)
    have hready : Call.hold ⟨request, Point.linking key file.name file.inode, crashed⟩ =
        Call.hold ⟨request, Point.writing key file, crashed⟩ := by
      show some (Hold.mk file.name file.inode key.bytes true) = some _
      rw [hall]
    split at h
    · cases h
      exact .io
    · cases h
      exact .silent (hready ▸ .idle _) rfl

theorem linking_moves {request : Request P} {crashed : Bool} {key : Encoded F} {name : Path} {inode : ℕ}
    {answer : Answer}
    (h : Call.advance directory ⟨request, .linking key name inode, crashed⟩ answer fs = some (fs', point)) :
    Moves directory fs ⟨request, .linking key name inode, crashed⟩ fs' ⟨request, point, crashed⟩ := by
  unfold Call.advance at h
  dsimp only at h
  split at h
  · rename_i files hlink
    cases h
    refine ⟨_, .link (not_keyScratch_keyPath directory) (Answer.call_ok hlink), .inr ⟨rfl, key, ?_, rfl⟩⟩
    intro x hx
    cases hx
    rfl
  · split at h
    · cases h
      exact .silent (.idle _) rfl
    · cases h
      exact .silent (.idle _) rfl

/-- **Everything a system call of a call can do.** -/
theorem advance_moves {call : Call F} {answer : Answer}
    (h : call.advance directory answer fs = some (fs', point)) :
    Moves directory fs call fs' { call with point := point } := by
  obtain ⟨request, before, crashed⟩ := call
  unfold Call.advance at h
  cases before with
  | writing key file => exact writing_moves h
  | linking key name inode => exact linking_moves h
  | entered =>
    dsimp only at h
    split at h
    · cases h
      exact .io
    · cases h
      exact .silent (.makeDirectory none directory) rfl
  | inspecting =>
    dsimp only at h
    split at h
    · cases h
      exact .io
    · cases h
      exact .idle rfl rfl rfl
    · cases h
      exact .idle rfl rfl rfl
  | restricting =>
    dsimp only at h
    split at h
    · cases h
      exact .io
    · cases h
      exact .idle rfl rfl rfl
  | probing =>
    dsimp only at h
    split at h
    · cases h
      exact generate_moves rfl
    · cases h
      exact .idle rfl rfl rfl
  | creating key nonce =>
    dsimp only at h
    split at h
    · rename_i files inode hcreate
      cases h
      exact .silent (.create ⟨request.pid, nonce, rfl⟩ (Answer.call_ok hcreate)) rfl
    · cases h
      exact .io
  | won key name inode =>
    dsimp only at h
    split at h
    · rename_i files hremove
      cases h
      exact ⟨none, .remove (Answer.call_ok hremove), .inl ⟨rfl, fun identity hidentity => .inl hidentity⟩⟩
    · cases h
      exact .io
  | lost key name inode =>
    dsimp only at h
    split at h
    · rename_i files hremove
      cases h
      exact .silent (.remove (Answer.call_ok hremove)) rfl
    · cases h
      exact .io
  | discarding key name inode =>
    dsimp only at h
    split at h
    · rename_i files hremove
      cases h
      exact .silent (.remove (Answer.call_ok hremove)) rfl
    · cases h
      exact .io
  | securing =>
    dsimp only at h
    split at h
    · cases h
      exact .io
    · cases h
      exact .idle rfl rfl rfl
    · cases h
      exact .idle rfl rfl rfl
  | permitting =>
    dsimp only at h
    split at h
    · cases h
      exact .io
    · cases h
      exact .idle rfl rfl rfl
  | reading =>
    dsimp only at h
    split at h
    · cases h
      exact .io
    · rename_i bytes hread
      cases h
      exact decoded_moves rfl (readFile_ok (Answer.call_ok hread))
  | returned result => cases h

theorem next_moves {call call' : Call F} {answer : Answer}
    (h : call.next directory answer fs = some (fs', call')) : Moves directory fs call fs' call' := by
  unfold Call.next at h
  split at h
  · cases h
  · split at h
    · cases h
      exact ⟨none, .idle _, .inl ⟨rfl, fun identity hidentity => .inl hidentity⟩⟩
    · obtain ⟨⟨files, point⟩, hadvance, hr⟩ := Option.map_eq_some_iff.mp h
      cases hr
      exact advance_moves hadvance

end Peerless.Identity
