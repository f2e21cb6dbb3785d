import Peerless.Lib.OpSet
import Peerless.Lib.Text
import Peerless.Lib.HashMap

/-!
# State documents

`peerless-state`: named documents of one string map `values`, kept by Automerge and stored one file per
document.  Automerge is a parameter: how it writes and reads documents and how it resolves concurrent
assignments.  Byte strings enter only through their length; the files of a store are a map from paths.
-/

namespace Peerless.State

open Text HashMap OpSet

def maxDocumentBytes : ℕ := 64 * 1024 * 1024

inductive StateError where
  | automerge
  | notAString
  | tooLarge
  deriving DecidableEq

/-- Scalars of a document, as far as `get` tells them apart. -/
inductive Scalar where
  | str (value : String)
  | other
  deriving DecidableEq

abbrev Ops (α : Type) := Doc α String Scalar

/-- What Automerge provides: byte strings, the codec, and how concurrent assignments are resolved. -/
structure Automerge (α : Type) where
  Blob : Type
  len : Blob → ℕ
  load : Blob → Option (Ops α)
  save : Ops α → Blob
  rule : Rule α String Scalar

/-- **Loading what was saved gives the same operations.** -/
def Automerge.Lawful {α : Type} (A : Automerge α) : Prop :=
  ∀ ops, ∃ ops', A.load (A.save ops) = some ops' ∧ ∀ o, o ∈ ops' ↔ o ∈ ops

/-- An `AutoCommit`: the operations it knows, and the actor it makes new ones as. -/
structure AutoCommit (α : Type) where
  actor : α
  ops : Ops α

variable {α : Type} [DecidableEq α] {A : Automerge α}

/-- `AutoCommit::get`; a sequence has no keys, and a scalar is no object. -/
def Automerge.get (A : Automerge α) (ops : Ops α) (obj : OpId α) (key : String) :
    Except StateError (Option (Op α String Scalar)) :=
  if madeBy ops obj .makeMap then .ok (OpSet.get A.rule ops (some obj) key)
  else if madeBy ops obj .makeSeq then .ok none
  else .error .automerge

/-- `AutoCommit::put` of a string into a map. -/
def AutoCommit.put (d : AutoCommit α) (obj : OpId α) (key value : String) :
    Except StateError (AutoCommit α) :=
  if madeBy d.ops obj .makeMap then
    .ok { d with ops := d.ops ++ [assign d.ops d.actor (some obj) key (.set (.str value))] }
  else .error .automerge

/-! ### Paths -/

/-- One byte of `safe_name`. -/
def safeByte (b : UInt8) : Bytes :=
  if (48 ≤ b ∧ b ≤ 57) ∨ (65 ≤ b ∧ b ≤ 90) ∨ (97 ≤ b ∧ b ≤ 122) ∨ b = 45 ∨ b = 95 then [b]
  else 126 :: hexByte b

def safeName (name : String) : Bytes := (utf8 name).flatMap safeByte

/-- The path of a document, below the store's root. -/
def documentPath (name : String) : Bytes := safeName name ++ utf8 ".automerge"

/-! ### Documents -/

/-- An open document: its file and its operations. -/
structure StateDocument (α : Type) where
  path : Bytes
  document : AutoCommit α

/-- The document files of a store; its lock file and temporary files are left out. -/
abbrev StateStore (A : Automerge α) := Map Bytes A.Blob

variable (A) in
/-- `read_bounded` and `AutoCommit::load`. -/
def loadFile (bytes : A.Blob) : Except StateError (Ops α) :=
  if A.len bytes > maxDocumentBytes then .error .tooLarge
  else
    match A.load bytes with
    | none => .error .automerge
    | some ops => .ok ops

/-- `StateStore::document`; the actor is the one Automerge draws. -/
def StateStore.document (s : StateStore A) (name : String) (actor : α) :
    Except StateError (StateDocument α) :=
  match s.lookup (documentPath name) with
  | some bytes =>
    match loadFile A bytes with
    | .error err => .error err
    | .ok ops => .ok ⟨documentPath name, ⟨actor, ops⟩⟩
  | none => .ok ⟨documentPath name, ⟨actor, [assign [] actor none "values" .makeMap]⟩⟩

/-- `StateStore::merge_snapshot`; `ensure_bounded` on the snapshot is the bound of `loadFile`. -/
def StateStore.mergeSnapshot (s : StateStore A) (name : String) (bytes : A.Blob) :
    Except StateError (StateStore A) :=
  match loadFile A bytes with
  | .error err => .error err
  | .ok incoming =>
    match s.lookup (documentPath name) with
    | none => .ok (s.insert (documentPath name) bytes)
    | some persisted =>
      match loadFile A persisted with
      | .error err => .error err
      | .ok current =>
        let merged := A.save (merge current incoming)
        if A.len merged > maxDocumentBytes then .error .tooLarge
        else .ok (s.insert (documentPath name) merged)

variable (A) in
/-- The object `values` resolves to. -/
def valuesOf (ops : Ops α) : Option (OpId α) := (OpSet.get A.rule ops none "values").map Op.id

variable (A) in
/-- `StateDocument::values`; `none` is the failing `expect`. -/
def StateDocument.values (d : StateDocument α) : Option (OpId α) := valuesOf A d.document.ops

variable (A) in
/-- `StateDocument::put`; `none` if `values` fails. -/
def StateDocument.put (d : StateDocument α) (key value : String) :
    Option (Except StateError (StateDocument α)) :=
  (d.values A).map fun obj =>
    match d.document.put obj key value with
    | .error err => .error err
    | .ok document => .ok { d with document }

variable (A) in
/-- `StateDocument::get`; `none` if `values` fails. -/
def StateDocument.get (d : StateDocument α) (key : String) : Option (Except StateError (Option String)) :=
  (d.values A).map fun obj =>
    match A.get d.document.ops obj key with
    | .error err => .error err
    | .ok none => .ok none
    | .ok (some o) =>
      match o.action with
      | .set (.str value) => .ok (some value)
      | _ => .error .notAString

/-- The document with the operations of another one added. -/
def StateDocument.adopt (d : StateDocument α) (ops : Ops α) : StateDocument α :=
  { d with document := { d.document with ops := OpSet.merge d.document.ops ops } }

def StateDocument.merge (d other : StateDocument α) : StateDocument α := d.adopt other.document.ops

variable (A) in
def StateDocument.snapshot (d : StateDocument α) : A.Blob := A.save d.document.ops

def StateDocument.mergeSnapshot (d : StateDocument α) (bytes : A.Blob) :
    Except StateError (StateDocument α) :=
  match loadFile A bytes with
  | .error err => .error err
  | .ok other => .ok (d.adopt other)

/-- The end of `save`: the file is replaced unless the document is too large. -/
def StateDocument.persist (d : StateDocument α) (s : StateStore A) :
    StateStore A × Except StateError Unit :=
  if A.len (A.save d.document.ops) > maxDocumentBytes then (s, .error .tooLarge)
  else (s.insert d.path (A.save d.document.ops), .ok ())

/-- `StateDocument::save`.  What the file holds is merged first, and stays merged if the write fails. -/
def StateDocument.save (d : StateDocument α) (s : StateStore A) :
    StateDocument α × StateStore A × Except StateError Unit :=
  match s.lookup d.path with
  | none => (d, d.persist s)
  | some persisted =>
    match loadFile A persisted with
    | .error err => (d, s, .error err)
    | .ok ops => (d.adopt ops, (d.adopt ops).persist s)

/-! ### Files by their operations -/

omit [DecidableEq α] in
theorem loadFile_ok {bytes : A.Blob} {ops : Ops α} :
    loadFile A bytes = .ok ops ↔ A.len bytes ≤ maxDocumentBytes ∧ A.load bytes = some ops := by
  unfold loadFile
  by_cases hlen : A.len bytes > maxDocumentBytes
  · rw [if_pos hlen]
    exact ⟨fun h => (by cases h), fun h => absurd h.1 (not_le.mpr hlen)⟩
  · rw [if_neg hlen]
    cases A.load bytes with
    | none => exact ⟨fun h => (by cases h), fun h => (by cases h.2)⟩
    | some ops' =>
      constructor
      · intro h
        exact ⟨not_lt.mp hlen, congrArg some (Except.ok.inj h)⟩
      · intro h
        exact congrArg Except.ok (Option.some.inj h.2)

/-- The operations in a document's file. -/
def StateStore.fileOps (s : StateStore A) (name : String) : Option (Ops α) :=
  (s.lookup (documentPath name)).bind fun bytes => (loadFile A bytes).toOption

variable {s : StateStore A}

omit [DecidableEq α] in
theorem fileOps_of_lookup {name : String} {bytes : A.Blob} {ops : Ops α}
    (hlookup : s.lookup (documentPath name) = some bytes) (hload : loadFile A bytes = .ok ops) :
    s.fileOps name = some ops := by
  show (s.lookup (documentPath name)).bind _ = _
  rw [hlookup]
  show (loadFile A bytes).toOption = some ops
  rw [hload]
  rfl

omit [DecidableEq α] in
theorem fileOps_of_error {name : String} {bytes : A.Blob} {err : StateError}
    (hlookup : s.lookup (documentPath name) = some bytes) (hload : loadFile A bytes = .error err) :
    s.fileOps name = none := by
  show (s.lookup (documentPath name)).bind _ = _
  rw [hlookup]
  show (loadFile A bytes).toOption = none
  rw [hload]
  rfl

omit [DecidableEq α] in
theorem fileOps_of_none {name : String} (h : s.lookup (documentPath name) = none) :
    s.fileOps name = none := by
  show (s.lookup (documentPath name)).bind _ = _
  rw [h]
  rfl

/-- **What `StateStore::document` does**: it makes a map `values` if there is no file, and otherwise
hands out what the file holds. -/
theorem StateStore.document_cases (s : StateStore A) (name : String) (actor : α) :
    (s.lookup (documentPath name) = none ∧
      s.document name actor =
        .ok ⟨documentPath name, ⟨actor, [assign [] actor none "values" .makeMap]⟩⟩) ∨
    (∃ ops, s.fileOps name = some ops ∧
      s.document name actor = .ok ⟨documentPath name, ⟨actor, ops⟩⟩) ∨
    (s.fileOps name = none ∧ ∃ err, s.document name actor = .error err) := by
  unfold StateStore.document
  cases hlookup : s.lookup (documentPath name) with
  | none => exact Or.inl ⟨rfl, rfl⟩
  | some bytes =>
    dsimp only
    cases hload : loadFile A bytes with
    | error err => exact Or.inr (Or.inr ⟨fileOps_of_error hlookup hload, err, rfl⟩)
    | ok ops => exact Or.inr (Or.inl ⟨ops, fileOps_of_lookup hlookup hload, rfl⟩)

theorem document_of_fileOps {name : String} {ops : Ops α} (h : s.fileOps name = some ops) (actor : α) :
    s.document name actor = .ok ⟨documentPath name, ⟨actor, ops⟩⟩ := by
  rcases s.document_cases name actor with ⟨hnone, _⟩ | ⟨ops', hfile, hdocument⟩ | ⟨hnone, _⟩
  · rw [fileOps_of_none hnone] at h
    cases h
  · obtain rfl := Option.some.inj (h.symm.trans hfile)
    exact hdocument
  · rw [hnone] at h
    cases h

omit [DecidableEq α] in
/-- What was saved within the bound loads again, with the same operations. -/
theorem loadFile_save (hA : A.Lawful) {ops : Ops α} (hlen : A.len (A.save ops) ≤ maxDocumentBytes) :
    ∃ ops', loadFile A (A.save ops) = .ok ops' ∧ ∀ o, o ∈ ops' ↔ o ∈ ops := by
  obtain ⟨ops', hload, hsame⟩ := hA ops
  exact ⟨ops', loadFile_ok.mpr ⟨hlen, hload⟩, hsame⟩

variable {s' : StateStore A}

/-- **Everything an accepted snapshot does to the store**: for a new name its bytes become the file, and
otherwise the file becomes what it held, joined with the snapshot, within the bound. -/
theorem StateStore.mergeSnapshot_cases {name : String} {bytes : A.Blob}
    (h : s.mergeSnapshot name bytes = .ok s') :
    ∃ incoming, loadFile A bytes = .ok incoming ∧
      ((s.lookup (documentPath name) = none ∧ s' = s.insert (documentPath name) bytes) ∨
        ∃ persisted current, s.lookup (documentPath name) = some persisted ∧
          loadFile A persisted = .ok current ∧
          A.len (A.save (OpSet.merge current incoming)) ≤ maxDocumentBytes ∧
          s' = s.insert (documentPath name) (A.save (OpSet.merge current incoming))) := by
  unfold StateStore.mergeSnapshot at h
  split at h
  · cases h
  · rename_i incoming hincoming
    refine ⟨incoming, hincoming, ?_⟩
    split at h
    · rename_i hnone
      exact Or.inl ⟨hnone, (Except.ok.inj h).symm⟩
    · rename_i persisted hlookup
      split at h
      · cases h
      · rename_i current hcurrent
        dsimp only at h
        split at h
        · cases h
        · rename_i hlen
          exact Or.inr ⟨persisted, current, hlookup, hcurrent, not_lt.mp hlen, (Except.ok.inj h).symm⟩

theorem StateStore.mergeSnapshot_insert {name : String} {bytes : A.Blob}
    (h : s.mergeSnapshot name bytes = .ok s') : ∃ file, s' = s.insert (documentPath name) file := by
  obtain ⟨incoming, _, ⟨_, hs'⟩ | ⟨persisted, current, _, _, _, hs'⟩⟩ := StateStore.mergeSnapshot_cases h
  · exact ⟨bytes, hs'⟩
  · exact ⟨_, hs'⟩

/-- **`StateStore::merge_snapshot` joins** the snapshot and what the file held. -/
theorem StateStore.mergeSnapshot_ok (hA : A.Lawful) {name : String} {bytes : A.Blob}
    (h : s.mergeSnapshot name bytes = .ok s') :
    ∃ incoming ops', loadFile A bytes = .ok incoming ∧ s'.fileOps name = some ops' ∧
      ((s.lookup (documentPath name) = none ∧ ops' = incoming) ∨
        ∃ current, s.fileOps name = some current ∧ ∀ o, o ∈ ops' ↔ o ∈ current ∨ o ∈ incoming) := by
  obtain ⟨incoming, hincoming, ⟨hnone, rfl⟩ | ⟨persisted, current, hlookup, hcurrent, hlen, rfl⟩⟩ :=
    StateStore.mergeSnapshot_cases h
  · exact ⟨incoming, incoming, hincoming, fileOps_of_lookup (AList.lookup_insert _) hincoming,
      Or.inl ⟨hnone, rfl⟩⟩
  · obtain ⟨ops', hload, hsame⟩ := loadFile_save hA hlen
    refine ⟨incoming, ops', hincoming, fileOps_of_lookup (AList.lookup_insert _) hload,
      Or.inr ⟨current, fileOps_of_lookup hlookup hcurrent, fun o => ?_⟩⟩
    rw [hsame, mem_merge]

omit [DecidableEq α] in
/-- A file that joins what it held with a snapshot has both. -/
theorem joined_grows {name : String} {incoming ops' : Ops α}
    (h : (s.lookup (documentPath name) = none ∧ ops' = incoming) ∨
      ∃ current, s.fileOps name = some current ∧ ∀ o, o ∈ ops' ↔ o ∈ current ∨ o ∈ incoming) :
    (∀ ops, s.fileOps name = some ops → ∀ o ∈ ops, o ∈ ops') ∧ ∀ o ∈ incoming, o ∈ ops' := by
  rcases h with ⟨hnone, rfl⟩ | ⟨current, hcurrent, hunion⟩
  · refine ⟨fun ops hfile => ?_, fun _ ho => ho⟩
    rw [fileOps_of_none hnone] at hfile
    cases hfile
  · refine ⟨fun ops hfile o ho => ?_, fun o ho => (hunion o).mpr (Or.inr ho)⟩
    obtain rfl := Option.some.inj (hfile.symm.trans hcurrent)
    exact (hunion o).mpr (Or.inl ho)

/-- `StateStore::merge_snapshot` loses nothing, in this file or in another. -/
theorem StateStore.mergeSnapshot_grows (hA : A.Lawful) {name other : String} {bytes : A.Blob}
    (h : s.mergeSnapshot name bytes = .ok s') {ops : Ops α} (hfile : s.fileOps other = some ops) :
    ∃ ops', s'.fileOps other = some ops' ∧ ∀ o ∈ ops, o ∈ ops' := by
  by_cases hpath : documentPath other = documentPath name
  · have hsame : ∀ t : StateStore A, t.fileOps other = t.fileOps name := by
      intro t
      unfold StateStore.fileOps
      rw [hpath]
    rw [hsame] at hfile ⊢
    obtain ⟨incoming, ops', _, hfile', hunion⟩ := StateStore.mergeSnapshot_ok hA h
    exact ⟨ops', hfile', (joined_grows hunion).1 ops hfile⟩
  · obtain ⟨file, rfl⟩ := StateStore.mergeSnapshot_insert h
    refine ⟨ops, ?_, fun _ ho => ho⟩
    show (AList.lookup (documentPath other) (s.insert (documentPath name) file)).bind _ = _
    rw [AList.lookup_insert_ne hpath]
    exact hfile

variable {d : StateDocument α}

omit [DecidableEq α] in
/-- The end of `save` replaces the file, unless it fails. -/
theorem StateDocument.persist_cases (hA : A.Lawful) {name : String} {result : Except StateError Unit}
    (hpath : d.path = documentPath name) (h : d.persist s = (s', result)) :
    (s' = s ∧ ∃ err, result = .error err) ∨
      (result = .ok () ∧ ∃ ops', s'.fileOps name = some ops' ∧ ∀ o, o ∈ ops' ↔ o ∈ d.document.ops) := by
  unfold StateDocument.persist at h
  split at h
  · obtain ⟨rfl, rfl⟩ := Prod.mk.inj h
    exact Or.inl ⟨rfl, .tooLarge, rfl⟩
  · rename_i hlen
    obtain ⟨rfl, rfl⟩ := Prod.mk.inj h
    obtain ⟨ops', hload, hsame⟩ := loadFile_save hA (not_lt.mp hlen)
    rw [hpath]
    exact Or.inr ⟨rfl, ops', fileOps_of_lookup (AList.lookup_insert _) hload, hsame⟩

/-- **What `save` does**: it takes in what the file holds, and replaces the file unless that fails. -/
theorem StateDocument.save_cases (hA : A.Lawful) {d' : StateDocument α} {name : String}
    {result : Except StateError Unit} (hpath : d.path = documentPath name)
    (h : d.save s = (d', s', result)) :
    (s.fileOps name = none ∧ d' = d ∨ ∃ ops, s.fileOps name = some ops ∧ d' = d.adopt ops) ∧
    ((s' = s ∧ ∃ err, result = .error err) ∨
      (result = .ok () ∧
        ∃ ops', s'.fileOps name = some ops' ∧ ∀ o, o ∈ ops' ↔ o ∈ d'.document.ops)) := by
  unfold StateDocument.save at h
  rw [hpath] at h
  split at h
  · rename_i hnone
    obtain ⟨rfl, hrest⟩ := Prod.mk.inj h
    exact ⟨Or.inl ⟨fileOps_of_none hnone, rfl⟩, StateDocument.persist_cases hA hpath hrest⟩
  · rename_i persisted hlookup
    split at h
    · rename_i err hload
      obtain ⟨rfl, hrest⟩ := Prod.mk.inj h
      obtain ⟨rfl, rfl⟩ := Prod.mk.inj hrest
      exact ⟨Or.inl ⟨fileOps_of_error hlookup hload, rfl⟩, Or.inl ⟨rfl, err, rfl⟩⟩
    · rename_i ops hload
      obtain ⟨rfl, hrest⟩ := Prod.mk.inj h
      exact ⟨Or.inr ⟨ops, fileOps_of_lookup hlookup hload, rfl⟩,
        StateDocument.persist_cases hA (d := d.adopt ops) hpath hrest⟩

/-- **Documents with the same operations answer `get` alike.** -/
theorem StateDocument.get_congr {H : Op α String Scalar → Prop} (hH : Lawful H) {d' : StateDocument α}
    (hd : ∀ o ∈ d.document.ops, H o) (h : ∀ o, o ∈ d.document.ops ↔ o ∈ d'.document.ops) (key : String) :
    d.get A key = d'.get A key := by
  have hvalues : d.values A = d'.values A :=
    congrArg (Option.map Op.id) (OpSet.get_congr hH hd h none "values")
  have hget : ∀ obj, A.get d.document.ops obj key = A.get d'.document.ops obj key := by
    intro obj
    unfold Automerge.get
    rw [madeBy_congr h, madeBy_congr h, OpSet.get_congr hH hd h]
  unfold StateDocument.get
  simp only [hvalues, hget]

end Peerless.State
