import Peerless.State.StaleWriters

/-!
# Snapshots and the readers of a store

Documents come from peers.  `merge_snapshot` of a store takes the first snapshot of a name as its file,
and later ones, like `merge_snapshot` of an open document, are joined with what is there; `put` and `get`
then look up `values` at the root and panic if there is nothing.  Nobody checks that a snapshot has a
`values`, or that it does not delete the one that is there.

* `readers_survive` — where they have one and delete none, no reader panics.
-/

namespace Peerless.State

open Text HashMap OpSet

variable {α : Type} [DecidableEq α] {A : Automerge α}

/-! ### The system -/

/-- A store, the documents open in it, and whether an `expect` has failed. -/
structure Readers {α : Type} (A : Automerge α) where
  store : StateStore A
  documents : List (StateDocument α)
  panicked : Bool

inductive ReaderCall {α : Type} (A : Automerge α) where
  | document (name : String) (actor : α)
  | put (d : ℕ) (key value : String)
  | get (d : ℕ) (key : String)
  | save (d : ℕ)
  | mergeInto (d : ℕ) (bytes : A.Blob)
  | mergeSnapshot (name : String) (bytes : A.Blob)

/-- One call; `mergeInto` is `StateDocument::merge_snapshot`. -/
def readerStep (s : Readers A) : ReaderCall A → Option (Readers A)
  | .document name actor =>
    match s.store.document name actor with
    | .error _ => some s
    | .ok document => some { s with documents := s.documents ++ [document] }
  | .put d key value =>
    match s.documents[d]? with
    | none => none
    | some document =>
      match document.put A key value with
      | none => some { s with panicked := true }
      | some (.error _) => some s
      | some (.ok document) => some { s with documents := s.documents.set d document }
  | .get d key =>
    match s.documents[d]? with
    | none => none
    | some document =>
      match document.get A key with
      | none => some { s with panicked := true }
      | some _ => some s
  | .save d =>
    match s.documents[d]? with
    | none => none
    | some document =>
      match document.save s.store with
      | (document, store, _) => some { s with store, documents := s.documents.set d document }
  | .mergeInto d bytes =>
    match s.documents[d]? with
    | none => none
    | some document =>
      match document.mergeSnapshot bytes with
      | .error _ => some s
      | .ok document => some { s with documents := s.documents.set d document }
  | .mergeSnapshot name bytes =>
    match s.store.mergeSnapshot name bytes with
    | .error _ => some s
    | .ok store => some { s with store }

/-- The operations a call makes or brings. -/
def supplied (s : Readers A) : ReaderCall A → Ops α
  | .document name actor =>
    match s.store.lookup (documentPath name) with
    | none => [creation actor]
    | some _ => []
  | .put d key value => (s.documents[d]?.bind fun document =>
      (valuesOf A document.document.ops).map fun obj =>
        assign document.document.ops document.document.actor (some obj) key (.set (.str value))).toList
  | .mergeInto _ bytes => (loadFile A bytes).toOption.getD []
  | .mergeSnapshot _ bytes => (loadFile A bytes).toOption.getD []
  | _ => []

/-! ### What a call can do -/

/-- **Everything a call can do.** -/
inductive ReaderEffect (s : Readers A) : ReaderCall A → Readers A → Prop
  | idle {c : ReaderCall A} : ReaderEffect s c s
  | panicked {c : ReaderCall A} {d : ℕ} {document : StateDocument α} :
      s.documents[d]? = some document → document.values A = none →
      ReaderEffect s c { s with panicked := true }
  | opened {name : String} {actor : α} {document : StateDocument α} :
      s.store.document name actor = .ok document →
      ReaderEffect s (.document name actor) { s with documents := s.documents ++ [document] }
  | put {d : ℕ} {document document' : StateDocument α} {key value : String} :
      s.documents[d]? = some document → document.put A key value = some (.ok document') →
      ReaderEffect s (.put d key value) { s with documents := s.documents.set d document' }
  | saved {d : ℕ} {document : StateDocument α} : s.documents[d]? = some document →
      ReaderEffect s (.save d) { s with
        store := (document.save s.store).2.1
        documents := s.documents.set d (document.save s.store).1 }
  | adopted {d : ℕ} {document : StateDocument α} {bytes : A.Blob} {incoming : Ops α} :
      s.documents[d]? = some document → loadFile A bytes = .ok incoming →
      ReaderEffect s (.mergeInto d bytes)
        { s with documents := s.documents.set d (document.adopt incoming) }
  | merged {name : String} {bytes : A.Blob} {store : StateStore A} :
      s.store.mergeSnapshot name bytes = .ok store →
      ReaderEffect s (.mergeSnapshot name bytes) { s with store }

theorem effect_of_readerStep {s s' : Readers A} {c : ReaderCall A} (h : readerStep s c = some s') :
    ReaderEffect s c s' := by
  cases c with
  | document name actor =>
    rw [readerStep] at h
    split at h
    · cases h
      exact .idle
    · rename_i document hdocument
      cases h
      exact .opened hdocument
  | put d key value =>
    rw [readerStep] at h
    split at h
    · cases h
    · rename_i document hd
      split at h
      · rename_i hput
        cases h
        exact .panicked hd (Option.map_eq_none_iff.mp hput)
      · cases h
        exact .idle
      · rename_i document' hput
        cases h
        exact .put hd hput
  | get d key =>
    rw [readerStep] at h
    split at h
    · cases h
    · rename_i document hd
      split at h
      · rename_i hget
        cases h
        exact .panicked hd (Option.map_eq_none_iff.mp hget)
      · cases h
        exact .idle
  | save d =>
    rw [readerStep] at h
    split at h
    · cases h
    · rename_i document hd
      cases h
      exact .saved hd
  | mergeInto d bytes =>
    rw [readerStep] at h
    split at h
    · cases h
    · rename_i document hd
      unfold StateDocument.mergeSnapshot at h
      cases hload : loadFile A bytes with
      | error err =>
        rw [hload] at h
        cases h
        exact .idle
      | ok incoming =>
        rw [hload] at h
        cases h
        exact .adopted hd hload
  | mergeSnapshot name bytes =>
    rw [readerStep] at h
    split at h
    · cases h
      exact .idle
    · rename_i store hmerge
      cases h
      exact .merged hmerge

/-! ### Documents with a root entry -/

/-- The operation is about `values` at the root. -/
def atValues (o : Op α String Scalar) : Bool := o.obj = none ∧ o.key = "values"

/-- No operation deletes `values`. -/
def undeleted (ops : Ops α) : Bool := ops.all fun o => !(atValues o && decide (o.action = .delete))

/-- **The condition on a call**: a snapshot does not delete `values`, and assigns it if it becomes the
file of a new name. -/
def keepsValues (s : Readers A) : ReaderCall A → Bool
  | .mergeInto _ bytes => (loadFile A bytes).toOption.all undeleted
  | .mergeSnapshot name bytes => (loadFile A bytes).toOption.all fun incoming =>
      undeleted incoming && ((s.store.lookup (documentPath name)).isSome || incoming.any atValues)
  | _ => true

variable {H : Op α String Scalar → Prop}

/-- Operations of the history, none of which deletes `values`. -/
structure Undeleting (H : Op α String Scalar → Prop) (ops : Ops α) : Prop where
  history : ∀ o ∈ ops, H o
  kept : ∀ o ∈ ops, atValues o = true → o.action ≠ .delete

/-- Such operations, some of which assigns `values`. -/
structure Rooted (H : Op α String Scalar → Prop) (ops : Ops α) : Prop extends Undeleting H ops where
  made : ∃ o ∈ ops, atValues o = true

omit [DecidableEq α] in
theorem atValues_iff {o : Op α String Scalar} : atValues o = true ↔ o.obj = none ∧ o.key = "values" :=
  decide_eq_true_iff

omit [DecidableEq α] in
theorem undeleting_of {ops : Ops α} (h : undeleted ops = true) (hH : ∀ o ∈ ops, H o) :
    Undeleting H ops := by
  refine ⟨hH, ?_⟩
  intro o ho hvalues hdelete
  have hall := List.all_eq_true.mp h o ho
  rw [hvalues, hdelete] at hall
  cases hall

/-- **A document with a root entry answers `values`.** -/
theorem Rooted.values (hH : Lawful H) {ops : Ops α} (h : Rooted H ops) :
    ∃ obj, valuesOf A ops = some obj := by
  obtain ⟨o, ho, hvalues⟩ := h.made
  obtain ⟨hobj, hkey⟩ := atValues_iff.mp hvalues
  have hvisible := visible_ne_nil hH h.history ho fun o' ho' hobj' hkey' =>
    h.kept o' ho' (atValues_iff.mpr ⟨hobj'.trans hobj, hkey'.trans hkey⟩)
  rw [hobj, hkey] at hvisible
  obtain ⟨left, _, hleft⟩ := get_isSome (R := A.rule) hvisible
  exact ⟨left.id, congrArg (Option.map Op.id) hleft⟩

omit [DecidableEq α] in
theorem Rooted.congr {ops ops' : Ops α} (h : Rooted H ops) (hsame : ∀ o, o ∈ ops' ↔ o ∈ ops) :
    Rooted H ops' := by
  obtain ⟨o, ho, hvalues⟩ := h.made
  exact ⟨⟨fun o ho => h.history o ((hsame o).mp ho), fun o ho => h.kept o ((hsame o).mp ho)⟩,
    o, (hsame o).mpr ho, hvalues⟩

/-- Joining operations that do not delete the entry keeps it. -/
theorem Rooted.merge {ops ops' : Ops α} (h : Rooted H ops) (h' : Undeleting H ops') :
    Rooted H (OpSet.merge ops ops') := by
  obtain ⟨o, ho, hvalues⟩ := h.made
  refine ⟨⟨?_, ?_⟩, o, mem_merge.mpr (Or.inl ho), hvalues⟩
  · intro o ho
    exact (mem_merge.mp ho).elim (h.history o) (h'.history o)
  · intro o ho
    exact (mem_merge.mp ho).elim (h.kept o) (h'.kept o)

theorem rooted_creation {actor : α} (h : H (creation actor)) : Rooted H [creation actor] := by
  have hvalues : atValues (creation actor) = true := rfl
  refine ⟨⟨?_, ?_⟩, creation actor, List.mem_singleton_self _, hvalues⟩
  · intro o ho
    rw [List.mem_singleton.mp ho]
    exact h
  · intro o ho _
    rw [List.mem_singleton.mp ho]
    intro hdelete
    cases hdelete

/-- A string put into a map does not touch the root. -/
theorem Rooted.put {d : AutoCommit α} (h : Rooted H d.ops) {obj : OpId α} {key value : String}
    (hmade : H (assign d.ops d.actor (some obj) key (.set (.str value)))) :
    Rooted H (d.ops ++ [assign d.ops d.actor (some obj) key (.set (.str value))]) := by
  obtain ⟨o, ho, hvalues⟩ := h.made
  refine ⟨⟨?_, ?_⟩, o, List.mem_append_left _ ho, hvalues⟩
  · intro o ho
    rcases List.mem_append.mp ho with hold | hnew
    · exact h.history o hold
    · rw [List.mem_singleton.mp hnew]
      exact hmade
  · intro o ho
    rcases List.mem_append.mp ho with hold | hnew
    · exact h.kept o hold
    · rw [List.mem_singleton.mp hnew]
      intro _ hdelete
      cases hdelete

/-! ### Files -/

/-- Every file that loads has a root entry. -/
def FilesRooted (H : Op α String Scalar → Prop) (store : StateStore A) : Prop :=
  ∀ path bytes ops, store.lookup path = some bytes → loadFile A bytes = .ok ops → Rooted H ops

omit [DecidableEq α] in
theorem FilesRooted.insert {store : StateStore A} {path : Bytes} {bytes : A.Blob}
    (h : FilesRooted H store) (hnew : ∀ ops, loadFile A bytes = .ok ops → Rooted H ops) :
    FilesRooted H (AList.insert path bytes store) := by
  intro path' bytes' ops hlookup hload
  by_cases hpath : path' = path
  · rw [hpath, AList.lookup_insert] at hlookup
    rw [← Option.some.inj hlookup] at hload
    exact hnew ops hload
  · rw [AList.lookup_insert_ne hpath] at hlookup
    exact h path' bytes' ops hlookup hload

omit [DecidableEq α] in
/-- What is saved with a root entry loads with one. -/
theorem Rooted.saved (hA : A.Lawful) {ops : Ops α} (h : Rooted H ops) :
    ∀ ops', loadFile A (A.save ops) = .ok ops' → Rooted H ops' := by
  intro ops' hload
  obtain ⟨loaded, hloaded, hsame⟩ := hA ops
  obtain rfl := Option.some.inj (hloaded.symm.trans (loadFile_ok.mp hload).2)
  exact h.congr hsame

omit [DecidableEq α] in
theorem persist_insert (d : StateDocument α) (store : StateStore A) :
    (d.persist store).1 = store ∨
      (d.persist store).1 = store.insert d.path (A.save d.document.ops) := by
  unfold StateDocument.persist
  split
  · exact Or.inl rfl
  · exact Or.inr rfl

/-- The document and the file that `save` leaves. -/
theorem save_insert (d : StateDocument α) (store : StateStore A) :
    ((d.save store).1 = d ∨ ∃ persisted ops, store.lookup d.path = some persisted ∧
      loadFile A persisted = .ok ops ∧ (d.save store).1 = d.adopt ops) ∧
    ((d.save store).2.1 = store ∨
      (d.save store).2.1 = store.insert d.path (A.save (d.save store).1.document.ops)) := by
  unfold StateDocument.save
  split
  · exact ⟨Or.inl rfl, persist_insert d store⟩
  · rename_i persisted hlookup
    split
    · exact ⟨Or.inl rfl, Or.inl rfl⟩
    · rename_i ops hload
      exact ⟨Or.inr ⟨persisted, ops, hlookup, hload, rfl⟩, persist_insert (d.adopt ops) store⟩

/-! ### Runs -/

/-- Every document and every file has a root entry, and no `expect` has failed. -/
structure Legible (H : Op α String Scalar → Prop) (s : Readers A) : Prop where
  documents : ∀ d ∈ s.documents, Rooted H d.document.ops
  files : FilesRooted H s.store
  calm : s.panicked = false

variable {s s' : Readers A} {c : ReaderCall A}

theorem Legible.values (hH : Lawful H) (h : Legible H s) {d : ℕ} {document : StateDocument α}
    (hd : s.documents[d]? = some document) : ∃ obj, document.values A = some obj :=
  (h.documents document (List.mem_of_getElem? hd)).values hH

omit [DecidableEq α] in
/-- One document may be replaced by another with a root entry. -/
theorem Legible.set (h : Legible H s) (d : ℕ) {document : StateDocument α}
    (hnew : Rooted H document.document.ops) : ∀ d' ∈ s.documents.set d document, Rooted H d'.document.ops := by
  intro d' hd'
  rcases List.mem_or_eq_of_mem_set hd' with hold | rfl
  · exact h.documents d' hold
  · exact hnew

/-- The documents a store hands out have a root entry. -/
theorem rooted_document (h : FilesRooted H s.store) {name : String} {actor : α}
    {document : StateDocument α} (hsupplied : ∀ o ∈ supplied s (.document name actor), H o)
    (hdocument : s.store.document name actor = .ok document) : Rooted H document.document.ops := by
  unfold StateStore.document at hdocument
  rw [supplied] at hsupplied
  split at hdocument
  · rename_i bytes hlookup
    split at hdocument
    · cases hdocument
    · rename_i ops hload
      rw [← Except.ok.inj hdocument]
      exact h _ bytes ops hlookup hload
  · rename_i hnone
    rw [hnone] at hsupplied
    rw [← Except.ok.inj hdocument]
    exact rooted_creation (hsupplied _ (List.mem_singleton_self _))

omit [DecidableEq α] in
theorem loaded_supplied {bytes : A.Blob} {incoming : Ops α} (hload : loadFile A bytes = .ok incoming)
    (hsupplied : ∀ o ∈ (loadFile A bytes).toOption.getD [], H o) : ∀ o ∈ incoming, H o := by
  rw [hload] at hsupplied
  exact hsupplied

/-- `save` keeps the root entry, in the document and in the store. -/
theorem rooted_save (hA : A.Lawful) {store : StateStore A} {document : StateDocument α}
    (hfiles : FilesRooted H store) (hroot : Rooted H document.document.ops) :
    Rooted H (document.save store).1.document.ops ∧ FilesRooted H (document.save store).2.1 := by
  obtain ⟨hdocument, hstore⟩ := save_insert document store
  have hsaved : Rooted H (document.save store).1.document.ops := by
    rcases hdocument with hsame | ⟨persisted, ops, hlookup, hload, hadopt⟩
    · rw [hsame]
      exact hroot
    · rw [hadopt]
      exact hroot.merge (hfiles _ persisted ops hlookup hload).toUndeleting
  refine ⟨hsaved, ?_⟩
  rcases hstore with hsame | hinsert
  · rw [hsame]
    exact hfiles
  · rw [hinsert]
    exact hfiles.insert (hsaved.saved hA)

/-- And so does `merge_snapshot` of a snapshot that keeps `values`. -/
theorem rooted_mergeSnapshot (hA : A.Lawful) (hfiles : FilesRooted H s.store) {name : String}
    {bytes : A.Blob} {store : StateStore A}
    (hsupplied : ∀ o ∈ supplied s (.mergeSnapshot name bytes), H o)
    (hkeeps : keepsValues s (.mergeSnapshot name bytes) = true)
    (hmerge : s.store.mergeSnapshot name bytes = .ok store) : FilesRooted H store := by
  obtain ⟨incoming, hload, hcases⟩ := StateStore.mergeSnapshot_cases hmerge
  rw [keepsValues, hload] at hkeeps
  obtain ⟨hundeleted, hmade⟩ := (Bool.and_eq_true _ _).mp hkeeps
  have hincoming := undeleting_of hundeleted (loaded_supplied hload hsupplied)
  rcases hcases with ⟨hnone, rfl⟩ | ⟨persisted, current, hlookup, hcurrent, _, rfl⟩
  · rw [hnone] at hmade
    refine hfiles.insert fun ops hops => ?_
    obtain rfl := Except.ok.inj (hload.symm.trans hops)
    exact ⟨hincoming, List.any_eq_true.mp hmade⟩
  · exact hfiles.insert (((hfiles _ persisted current hlookup hcurrent).merge hincoming).saved hA)

/-- **One call keeps the root entry everywhere.** -/
theorem rooted_step (hA : A.Lawful) (hH : Lawful H) (h : Legible H s)
    (hsupplied : ∀ o ∈ supplied s c, H o) (hkeeps : keepsValues s c = true)
    (hstep : readerStep s c = some s') : Legible H s' := by
  have heffect := effect_of_readerStep hstep
  cases heffect with
  | idle => exact h
  | panicked hd hnone =>
    obtain ⟨obj, hobj⟩ := h.values hH hd
    rw [hobj] at hnone
    cases hnone
  | opened hdocument =>
    refine ⟨?_, h.files, h.calm⟩
    intro d hd
    rcases List.mem_append.mp hd with hold | hnew
    · exact h.documents d hold
    · rw [List.mem_singleton.mp hnew]
      exact rooted_document h.files hsupplied hdocument
  | @put d document document' key value hd hput =>
    obtain ⟨obj, hobj, rfl⟩ := StateDocument.put_ok hput
    refine ⟨h.set d ?_, h.files, h.calm⟩
    rw [supplied, hd, Option.bind_some, hobj] at hsupplied
    exact (h.documents document (List.mem_of_getElem? hd)).put
      (hsupplied _ (List.mem_singleton_self _))
  | @saved d document hd =>
    have hroot := h.documents document (List.mem_of_getElem? hd)
    obtain ⟨hsaved, hfiles⟩ := rooted_save hA h.files hroot
    exact ⟨h.set d hsaved, hfiles, h.calm⟩
  | @adopted d document bytes incoming hd hload =>
    have hroot := h.documents document (List.mem_of_getElem? hd)
    rw [keepsValues, hload] at hkeeps
    exact ⟨h.set d (hroot.merge (undeleting_of hkeeps (loaded_supplied hload hsupplied))), h.files,
      h.calm⟩
  | merged hmerge =>
    exact ⟨h.documents, rooted_mergeSnapshot hA h.files hsupplied hkeeps hmerge, h.calm⟩

/-- **No reader panics** in a run in which no snapshot deletes `values` and the first snapshot of a name
assigns it: every open document answers `values`, and so does every document the store hands out. -/
theorem readers_survive (hA : A.Lawful) (hH : Lawful H) {calls : List (ReaderCall A)}
    (hmeets : Runs.Meets readerStep (fun s c => (∀ o ∈ supplied s c, H o) ∧ keepsValues s c = true)
      (⟨∅, [], false⟩ : Readers A) calls)
    (hrun : Runs.run readerStep ⟨∅, [], false⟩ calls = some s) :
    s.panicked = false ∧ (∀ d ∈ s.documents, ∃ obj, d.values A = some obj) ∧
      ∀ name ops, s.store.fileOps name = some ops → ∃ obj, valuesOf A ops = some obj := by
  have hstart : Legible H (⟨∅, [], false⟩ : Readers A) := by
    refine ⟨fun d hd => absurd hd List.not_mem_nil, ?_, rfl⟩
    intro path bytes ops hlookup
    cases hlookup
  have h : Legible H s := Runs.run_invariant (I := Legible H)
    (fun s c s' hs hok hstep => rooted_step hA hH hs hok.1 hok.2 hstep) calls _ s hstart hmeets hrun
  refine ⟨h.calm, fun d hd => (h.documents d hd).values hH, ?_⟩
  intro name ops hops
  obtain ⟨bytes, hlookup, hload⟩ := Option.bind_eq_some_iff.mp hops
  cases hfile : loadFile A bytes with
  | error err => rw [hfile] at hload; cases hload
  | ok loaded =>
    rw [hfile] at hload
    obtain rfl := Option.some.inj hload
    exact (h.files _ bytes loaded hlookup hfile).values hH

/-! ### Sample runs -/

/-- The first snapshot of a name, a reader that puts a key and takes in another snapshot, and an empty
snapshot for the file that is there. -/
def joinedSnapshots : List (ReaderCall sampleAutomerge) :=
  [.mergeSnapshot "notes" seeded, .document "notes" 2, .put 0 "a" "1", .save 0,
    .mergeInto 0 sharedSnapshot, .mergeSnapshot "notes" ([] : Ops ℕ), .get 0 "c"]

def readerMeets (s : Readers sampleAutomerge) (c : ReaderCall sampleAutomerge) : Bool :=
  (supplied s c).all seededHistory.contains && keepsValues s c

theorem joined_snapshots_read : ∃ s : Readers sampleAutomerge,
    Runs.run readerStep ⟨∅, [], false⟩ joinedSnapshots = some s ∧ s.documents.length = 1 ∧
      s.panicked = false ∧ ∀ d ∈ s.documents, ∃ obj, d.values sampleAutomerge = some obj := by
  have heval : (Runs.run (Runs.guarded readerStep readerMeets) (⟨∅, [], false⟩ : Readers sampleAutomerge)
      joinedSnapshots).map (fun s => s.documents.length) = some 1 := by
    decide +kernel
  obtain ⟨s, hrun, hlength⟩ := Option.map_eq_some_iff.mp heval
  obtain ⟨hmeets, hrun⟩ := Runs.run_guarded _ _ s hrun
  simp only [readerMeets, Bool.and_eq_true, List.all_eq_true, List.contains_iff_mem] at hmeets
  obtain ⟨hcalm, hvalues, _⟩ := readers_survive sampleAutomerge_lawful seededHistory_lawful hmeets hrun
  exact ⟨s, hrun, hlength, hcalm, hvalues⟩

/-- The document without its `values`. -/
def strippedSnapshot : Ops ℕ := seeded ++ [assign seeded 4 none "values" .delete]

/-- **Two snapshots that crash a reader**: an empty document for a new name, and one that deletes
`values` in the document that is there. -/
theorem empty_snapshot_crashes :
    (∃ s : Readers sampleAutomerge, Runs.run readerStep ⟨∅, [], false⟩
      [.mergeSnapshot "notes" ([] : Ops ℕ), .document "notes" 2, .get 0 "seed"] = some s ∧
      s.store.fileOps "notes" = some [] ∧ s.panicked = true) ∧
    ∃ s : Readers sampleAutomerge, Runs.run readerStep ⟨∅, [], false⟩
      [.mergeSnapshot "notes" seeded, .document "notes" 2, .mergeInto 0 strippedSnapshot,
        .get 0 "seed"] = some s ∧ s.panicked = true := by
  have hempty : (Runs.run readerStep (⟨∅, [], false⟩ : Readers sampleAutomerge)
      [.mergeSnapshot "notes" ([] : Ops ℕ), .document "notes" 2, .get 0 "seed"]).map
        (fun s => (s.store.fileOps "notes", s.panicked)) = some (some [], true) := by
    decide +kernel
  have hstripped : (Runs.run readerStep (⟨∅, [], false⟩ : Readers sampleAutomerge)
      [.mergeSnapshot "notes" seeded, .document "notes" 2, .mergeInto 0 strippedSnapshot,
        .get 0 "seed"]).map Readers.panicked = some true := by
    decide +kernel
  obtain ⟨s, hrun, hs⟩ := Option.map_eq_some_iff.mp hempty
  exact ⟨⟨s, hrun, (Prod.mk.inj hs).1, (Prod.mk.inj hs).2⟩, Option.map_eq_some_iff.mp hstripped⟩

end Peerless.State
