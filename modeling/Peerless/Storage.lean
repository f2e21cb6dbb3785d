import Peerless.Core
import Peerless.Lib.HashMap

/-!
# Content-addressed storage

`FileCas` of `peerless-storage`: one file per content, under the hash of its bytes.  The files are a map
from ids; that a file may have been damaged on disk is a state of the map.
-/

namespace Peerless.Storage

open Text HashMap Peerless.Core

inductive CasError where
  | notFound (id : ContentId)
  | corrupt (id : ContentId)
  | io
  deriving DecidableEq

/-- The files of a `FileCas`. -/
abbrev Cas := Map ContentId Bytes

variable (P : Primitives)

/-- `FileCas::put`; `writable` says whether the file system takes the file. -/
def Cas.put (files : Cas) (bytes : Bytes) (writable : Bool) : Cas × Except CasError ContentId :=
  let id := ContentId.of P bytes
  match files.lookup id with
  | some stored => if id.verify P stored then (files, .ok id) else (files, .error (.corrupt id))
  | none => if writable then (files.insert id bytes, .ok id) else (files, .error .io)

/-- `FileCas::get`. -/
def Cas.get (files : Cas) (id : ContentId) : Except CasError Bytes :=
  match files.lookup id with
  | none => .error (.notFound id)
  | some bytes => if id.verify P bytes then .ok bytes else .error (.corrupt id)

/-- `FileCas::contains`. -/
def Cas.contains (files : Cas) (id : ContentId) : Bool := (files.lookup id).isSome

variable {P}

variable {files : Cas}

/-- What is read hashes to the id it was asked for. -/
theorem Cas.get_ok {bytes : Bytes} {id : ContentId} (h : files.get P id = .ok bytes) :
    files.lookup id = some bytes ∧ id = ContentId.of P bytes := by
  rw [Cas.get] at h
  split at h
  · cases h
  · rename_i stored hfile
    split at h
    · rename_i hverify
      cases h
      exact ⟨hfile, of_decide_eq_true hverify⟩
    · cases h

/-- **After a successful put the content reads back.** -/
theorem Cas.put_ok {files' : Cas} {bytes : Bytes} {writable : Bool} {id : ContentId}
    (h : files.put P bytes writable = (files', .ok id)) :
    id = ContentId.of P bytes ∧ ∃ stored, files'.get P id = .ok stored ∧
      (stored = bytes ∨ files.lookup id = some stored) := by
  rw [Cas.put] at h
  split at h
  · rename_i stored hfile
    split at h
    · rename_i hverify
      cases h
      refine ⟨rfl, stored, ?_, .inr hfile⟩
      rw [Cas.get, hfile]
      exact if_pos hverify
    · cases h
  · split at h
    · cases h
      refine ⟨rfl, bytes, ?_, .inl rfl⟩
      rw [Cas.get, AList.lookup_insert]
      exact if_pos (decide_eq_true rfl)
    · cases h

end Peerless.Storage
