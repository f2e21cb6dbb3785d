import Peerless.Lib.Text
import Peerless.Lib.Temporaries

/-!
# Temporary files

`atomic_replace`, `atomic_create` and `FileCas::put` of `peerless-storage` begin alike: they take a
number, create a file of a name nobody has, and write it in full.  Threads of several processes do so at
once in one directory, and a process may end at any point.

* `Disk` — the file system, and the `TEMP_SEQUENCE` of every process.  Process ids are used again, so two
  processes may try the same names.
-/

namespace Peerless.Storage

open Text Files

/-- The components of a path. -/
abbrev Path := List Bytes

def Path.parent (path : Path) : Option Path := if path = [] then none else some path.dropLast

def Path.fileName (path : Path) : Option Bytes := path.getLast?.filter (· ≠ utf8 "..")

/-- `Path::components` of a relative text: what stands between its separators, but for empty parts and
`.`. -/
def components (text : Bytes) : Path :=
  (text.splitOn 47).filter fun part => part ≠ [] ∧ part ≠ utf8 "."

/-- `Path::join`; an absolute text takes the place of the path. -/
def Path.join (path : Path) (text : Bytes) : Path :=
  if text.head? = some 47 then components text else path ++ components text

/-- A text without separators that is more than `.` is one component. -/
theorem Path.join_plain (path : Path) {text : Bytes} (hseparator : 47 ∉ text) (hne : text ≠ [])
    (hdot : text ≠ utf8 ".") : path.join text = path ++ [text] := by
  have hrelative : text.head? ≠ some 47 := fun h => hseparator (List.mem_of_head? h)
  have hone : components text = [text] := by
    rw [components, List.splitOn_eq_singleton hseparator]
    exact List.filter_cons_of_pos (decide_eq_true ⟨hne, hdot⟩)
  rw [Path.join, if_neg hrelative, hone]

/-- `OsStr::to_str`. -/
def toStr (name : Bytes) : Option Bytes := if isUtf8 name then some name else none

def temporaryName (stem : Bytes) (pid : UInt32) (sequence : UInt64) : Bytes :=
  46 :: stem ++ 46 :: decimal pid.toNat ++ 46 :: decimal sequence.toNat ++ utf8 ".tmp"

/-- A process, of those that ran under its id. -/
structure Process where
  pid : UInt32
  generation : ℕ
  deriving DecidableEq

structure Disk where
  files : FileSystem Bytes UInt8
  sequences : Process → UInt64

/-- An open temporary file and the bytes written to it. -/
structure Temporary where
  name : Path
  inode : ℕ
  written : ℕ
  deriving DecidableEq

/-- How far a call is with its temporary file. -/
inductive Draft where
  | numbering
  | creating (sequence : UInt64)
  | writing (file : Temporary)
  | ready (name : Path) (inode : ℕ)
  | discarding (file : Temporary) (error : Error)
  deriving DecidableEq

/-- The next call for the temporary file; an error is what the function returns. -/
def prepare (process : Process) (parent : Path) (stem bytes : Bytes) (answer : Answer) (disk : Disk) :
    Draft → Disk × Except Error Draft
  | .numbering =>
    -- `fetch_add`, which wraps
    let sequence := disk.sequences process
    ({ disk with sequences := Function.update disk.sequences process (sequence + 1) },
      .ok (.creating sequence))
  | .creating sequence =>
    let candidate := parent ++ [temporaryName stem process.pid sequence]
    match answer.call (disk.files.createNew candidate) with
    | .ok (files, inode) => ({ disk with files := files }, .ok (.writing ⟨candidate, inode, 0⟩))
    | .error error =>
      if error.kind = .alreadyExists then (disk, .ok .numbering) else (disk, .error error)
  | .writing file =>
    if file.written < bytes.length then
      -- one `write` of `write_all`
      match answer with
      | .failed error =>
        if error.kind = .interrupted then (disk, .ok (.writing file))
        else (disk, .ok (.discarding file error))
      | .done count =>
        let n := min count (bytes.length - file.written)
        if n = 0 then
          (disk, .ok (.discarding file (.custom .writeZero "failed to write whole buffer")))
        else
          ({ disk with files := disk.files.append file.inode ((bytes.drop file.written).take n) },
            .ok (.writing { file with written := file.written + n }))
      | .crashed => (disk, .ok (.writing file))
    else
      -- `sync_all`
      match answer with
      | .failed error => (disk, .ok (.discarding file error))
      | _ => (disk, .ok (.ready file.name file.inode))
  | .ready name inode => (disk, .ok (.ready name inode))
  | .discarding file error =>
    match answer.call (disk.files.unlink file.name) with
    | .ok files => ({ disk with files := files }, .error error)
    | .error _ => (disk, .error error)

/-- The temporary file of a draft, with the bytes that are in it. -/
def Draft.hold (bytes : Bytes) : Draft → Option (Hold Bytes UInt8)
  | .numbering => none
  | .creating _ => none
  | .writing file => some ⟨file.name, file.inode, bytes.take file.written, true⟩
  | .ready name inode => some ⟨name, inode, bytes, true⟩
  | .discarding file _ => some ⟨file.name, file.inode, bytes.take file.written, true⟩

/-- The temporary file that is left when `prepare` has made its call. -/
def heldAfter (bytes : Bytes) : Except Error Draft → Option (Hold Bytes UInt8)
  | .ok draft => draft.hold bytes
  | .error _ => none

theorem prepare_effect {temporary : Path → Prop} {process : Process} {parent : Path} {stem bytes : Bytes}
    (htemporary : ∀ sequence, temporary (parent ++ [temporaryName stem process.pid sequence]))
    (answer : Answer) (disk : Disk) (draft : Draft) :
    Effect temporary disk.files (draft.hold bytes) none
      (prepare process parent stem bytes answer disk draft).1.files
      (heldAfter bytes (prepare process parent stem bytes answer disk draft).2) := by
  cases draft with
  | numbering => exact .idle none
  | creating sequence =>
    unfold prepare
    dsimp only
    split
    · rename_i files inode hcreate
      exact .create (htemporary sequence) (Answer.call_ok hcreate)
    · split
      · exact .idle none
      · exact .idle none
  | writing file =>
    unfold prepare
    dsimp only
    split
    · cases answer with
      | failed error =>
        dsimp only
        split
        · exact .idle _
        · exact .idle _
      | done count =>
        dsimp only
        split
        · exact .idle _
        · generalize min count (bytes.length - file.written) = n
          have happend : Effect temporary disk.files
              (some ⟨file.name, file.inode, bytes.take file.written, true⟩) none _ _ :=
            .append rfl ((bytes.drop file.written).take n)
          rwa [← List.take_add] at happend
      | crashed => exact .idle _
    · rename_i hwritten
      have hall : bytes.take file.written = bytes := List.take_of_length_le (by omega)
      have hready : Draft.hold bytes (.ready file.name file.inode) = Draft.hold bytes (.writing file) := by
        show some (Hold.mk file.name file.inode bytes true) = some _
        rw [hall]
      cases answer with
      | failed error => exact .idle _
      | done count => exact hready ▸ .idle _
      | crashed => exact hready ▸ .idle _
  | ready name inode => exact .idle _
  | discarding file error =>
    unfold prepare
    dsimp only
    split
    · rename_i files hremove
      exact .remove (Answer.call_ok hremove)
    · exact .release _

end Peerless.Storage
