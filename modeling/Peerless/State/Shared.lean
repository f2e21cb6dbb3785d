import Peerless.State.Replicas

/-!
# Writers that share a directory

Any number of stores and processes on one directory.  Every writer works on the copy it has read, however
old; `save` and `merge_snapshot` hold the lock, `document` reads the file as it is at that moment.  A
snapshot is any byte string.  `vouched` records the operations of every document whose `save` returned
`Ok` and of every snapshot whose `merge_snapshot` did.
-/

namespace Peerless.State

open Text HashMap OpSet

variable {α : Type} [DecidableEq α] {A : Automerge α} {name : String}

/-! ### The system -/

/-- The directory, the open documents, and the operations vouched for. -/
structure Shared {α : Type} (A : Automerge α) where
  store : StateStore A
  writers : List (StateDocument α)
  vouched : Ops α

inductive Call {α : Type} (A : Automerge α) where
  | document (actor : α)
  | put (d : ℕ) (key value : String)
  | save (d : ℕ)
  | mergeSnapshot (bytes : A.Blob)

/-- One call; which store or process makes it is of no account, since all of them use one directory. -/
def call (name : String) (s : Shared A) : Call A → Option (Shared A)
  | .document actor =>
    match s.store.document name actor with
    | .error _ => some s
    | .ok document => some { s with writers := s.writers ++ [document] }
  | .put d key value =>
    match s.writers[d]? with
    | none => none
    | some document =>
      match document.put A key value with
      | some (.ok document) => some { s with writers := s.writers.set d document }
      | _ => some s
  | .save d =>
    match s.writers[d]? with
    | none => none
    | some document =>
      match document.save s.store with
      | (document, store, .ok ()) =>
        some ⟨store, s.writers.set d document, document.document.ops ++ s.vouched⟩
      | (document, store, .error _) => some ⟨store, s.writers.set d document, s.vouched⟩
  | .mergeSnapshot bytes =>
    match s.store.mergeSnapshot name bytes with
    | .error _ => some s
    | .ok store => some { s with store, vouched := (loadFile A bytes).toOption.getD [] ++ s.vouched }

/-! ### What a call can do -/

/-- The document with a string put into the map `obj`. -/
def StateDocument.extend (d : StateDocument α) (obj : OpId α) (key value : String) : StateDocument α :=
  { d with document := { d.document with
      ops := d.document.ops ++
        [assign d.document.ops d.document.actor (some obj) key (.set (.str value))] } }

/-- **Everything a call can do.** -/
inductive CallEffect (name : String) (s : Shared A) : Call A → Shared A → Prop
  | idle {c : Call A} : CallEffect name s c s
  | opened {actor : α} {ops : Ops α} : s.store.fileOps name = some ops →
      CallEffect name s (.document actor)
        { s with writers := s.writers ++ [⟨documentPath name, ⟨actor, ops⟩⟩] }
  | created {actor : α} : s.store.lookup (documentPath name) = none →
      CallEffect name s (.document actor)
        { s with writers := s.writers ++ [⟨documentPath name, ⟨actor, [creation actor]⟩⟩] }
  | put {d : ℕ} {document : StateDocument α} {key value : String} {obj : OpId α} :
      s.writers[d]? = some document → valuesOf A document.document.ops = some obj →
      CallEffect name s (.put d key value)
        { s with writers := s.writers.set d (document.extend obj key value) }
  | adopted {d : ℕ} {document : StateDocument α} {ops : Ops α} : s.writers[d]? = some document →
      s.store.fileOps name = some ops →
      CallEffect name s (.save d) { s with writers := s.writers.set d (document.adopt ops) }
  | saved {d : ℕ} {document document' : StateDocument α} {store : StateStore A} {ops' : Ops α} :
      s.writers[d]? = some document →
      (document' = document ∧ s.store.fileOps name = none ∨
        ∃ ops, s.store.fileOps name = some ops ∧ document' = document.adopt ops) →
      store.fileOps name = some ops' → (∀ o, o ∈ ops' ↔ o ∈ document'.document.ops) →
      CallEffect name s (.save d)
        ⟨store, s.writers.set d document', document'.document.ops ++ s.vouched⟩
  | merged {bytes : A.Blob} {store : StateStore A} {incoming ops' : Ops α} :
      loadFile A bytes = .ok incoming → store.fileOps name = some ops' →
      (s.store.lookup (documentPath name) = none ∧ ops' = incoming ∨
        ∃ current, s.store.fileOps name = some current ∧ ∀ o, o ∈ ops' ↔ o ∈ current ∨ o ∈ incoming) →
      CallEffect name s (.mergeSnapshot bytes) ⟨store, s.writers, incoming ++ s.vouched⟩

variable {s s' : Shared A} {c : Call A}

theorem effect_of_call (hA : A.Lawful)
    (hpath : ∀ document ∈ s.writers, document.path = documentPath name)
    (h : call name s c = some s') : CallEffect name s c s' := by
  cases c with
  | document actor =>
    rw [call] at h
    rcases s.store.document_cases name actor with ⟨hnone, hdocument⟩ | ⟨ops, hfile, hdocument⟩ |
      ⟨_, err, hdocument⟩
    all_goals
      rw [hdocument] at h
      rw [← Option.some.inj h]
    · exact .created hnone
    · exact .opened hfile
    · exact .idle
  | put d key value =>
    rw [call] at h
    split at h
    · cases h
    · rename_i document hdocument
      split at h
      · rename_i document' hput
        obtain ⟨obj, hobj, rfl⟩ := StateDocument.put_ok hput
        rw [← Option.some.inj h]
        exact .put hdocument hobj
      · rw [← Option.some.inj h]
        exact .idle
  | save d =>
    rw [call] at h
    split at h
    · cases h
    · rename_i document hdocument
      have hown := hpath document (List.mem_of_getElem? hdocument)
      split at h
      · rename_i document' store hsave
        obtain ⟨htakes, hresult⟩ := StateDocument.save_cases hA hown hsave
        rw [← Option.some.inj h]
        rcases hresult with ⟨_, err, herr⟩ | ⟨_, ops', hops', hsame⟩
        · cases herr
        · exact .saved hdocument (htakes.imp And.symm id) hops' hsame
      · rename_i document' store err hsave
        obtain ⟨htakes, hresult⟩ := StateDocument.save_cases hA hown hsave
        rw [← Option.some.inj h]
        rcases hresult with ⟨rfl, _⟩ | ⟨hok, _⟩
        · rcases htakes with ⟨_, rfl⟩ | ⟨ops, hops, rfl⟩
          · obtain ⟨hd, hget⟩ := List.getElem?_eq_some_iff.mp hdocument
            rw [← hget, List.set_getElem_self]
            exact .idle
          · exact .adopted hdocument hops
        · cases hok
  | mergeSnapshot bytes =>
    rw [call] at h
    split at h
    · rw [← Option.some.inj h]
      exact .idle
    · rename_i store hmerge
      obtain ⟨incoming, ops', hincoming, hops', hunion⟩ := StateStore.mergeSnapshot_ok hA hmerge
      rw [← Option.some.inj h, hincoming]
      exact .merged hincoming hops' hunion

/-! ### Nothing vouched for is lost -/

theorem file_call (h : CallEffect name s c s') {ops : Ops α} (hfile : s.store.fileOps name = some ops) :
    ∃ ops', s'.store.fileOps name = some ops' ∧ ∀ o ∈ ops, o ∈ ops' := by
  cases h with
  | saved _ htakes hstore hsame =>
    refine ⟨_, hstore, fun o ho => (hsame o).mpr ?_⟩
    rcases htakes with ⟨_, hnone⟩ | ⟨ops₁, hfile₁, rfl⟩
    · rw [hnone] at hfile; cases hfile
    · obtain rfl := Option.some.inj (hfile.symm.trans hfile₁)
      exact mem_merge.mpr (Or.inr ho)
  | merged _ hstore hunion => exact ⟨_, hstore, (joined_grows hunion).1 ops hfile⟩
  | _ => exact ⟨ops, hfile, fun _ ho => ho⟩

/-- What holds of every open document: of those that were open, of what the file holds or of a new map,
of what a string is put into, and of the two that are merged. -/
theorem writers_call {Q : StateDocument α → Prop} (hw : ∀ document ∈ s.writers, Q document)
    (hopened : ∀ actor ops, s.store.fileOps name = some ops → Q ⟨documentPath name, ⟨actor, ops⟩⟩)
    (hcreated : ∀ actor, s.store.lookup (documentPath name) = none →
      Q ⟨documentPath name, ⟨actor, [creation actor]⟩⟩)
    (hput : ∀ d document key value obj, c = .put d key value → s.writers[d]? = some document →
      valuesOf A document.document.ops = some obj → Q (document.extend obj key value))
    (hadopt : ∀ document ops, document ∈ s.writers → s.store.fileOps name = some ops →
      Q (document.adopt ops))
    (h : CallEffect name s c s') : ∀ document ∈ s'.writers, Q document := by
  have hset : ∀ {d : ℕ} {new : StateDocument α}, Q new → ∀ document ∈ s.writers.set d new, Q document := by
    intro d new hnew document hdocument
    rcases List.mem_or_eq_of_mem_set hdocument with hold | rfl
    · exact hw document hold
    · exact hnew
  have happend : ∀ {new : StateDocument α}, Q new → ∀ document ∈ s.writers ++ [new], Q document := by
    intro new hnew document hdocument
    rcases List.mem_append.mp hdocument with hold | hlast
    · exact hw document hold
    · rw [List.mem_singleton.mp hlast]
      exact hnew
  cases h with
  | idle => exact hw
  | opened hfile => exact happend (hopened _ _ hfile)
  | created hnone => exact happend (hcreated _ hnone)
  | put hdocument hobj => exact hset (hput _ _ _ _ _ rfl hdocument hobj)
  | adopted hdocument hfile => exact hset (hadopt _ _ (List.mem_of_getElem? hdocument) hfile)
  | saved hdocument htakes _ _ =>
    rcases htakes with ⟨rfl, _⟩ | ⟨ops, hfile, rfl⟩
    · exact hset (hw _ (List.mem_of_getElem? hdocument))
    · exact hset (hadopt _ _ (List.mem_of_getElem? hdocument) hfile)
  | merged _ _ _ => exact hw

/-- Documents write to their file, and the file holds what was vouched for. -/
structure Vouched (name : String) (s : Shared A) : Prop where
  path : ∀ document ∈ s.writers, document.path = documentPath name
  held : ∀ o ∈ s.vouched, ∃ ops, s.store.fileOps name = some ops ∧ o ∈ ops

theorem vouched_call (hs : Vouched name s) (h : CallEffect name s c s') : Vouched name s' := by
  refine ⟨writers_call hs.path (fun _ _ _ => rfl) (fun _ _ => rfl) ?_ ?_ h, ?_⟩
  · intro d document key value obj _ hdocument _
    exact hs.path document (List.mem_of_getElem? hdocument)
  · intro document ops hdocument _
    exact hs.path document hdocument
  · have hold : ∀ o ∈ s.vouched, ∃ ops, s'.store.fileOps name = some ops ∧ o ∈ ops := by
      intro o ho
      obtain ⟨ops, hfile, hmem⟩ := hs.held o ho
      obtain ⟨ops', hfile', hgrows⟩ := file_call h hfile
      exact ⟨ops', hfile', hgrows o hmem⟩
    cases h with
    | saved _ _ hstore hsame =>
      intro o ho
      rcases List.mem_append.mp ho with hnew | ho
      · exact ⟨_, hstore, (hsame o).mpr hnew⟩
      · exact hold o ho
    | @merged _ _ incoming _ _ hstore hunion =>
      intro o ho
      rcases List.mem_append.mp ho with hnew | ho
      · exact ⟨_, hstore, (joined_grows hunion).2 o hnew⟩
      · exact hold o ho
    | _ => exact hold

theorem vouched_grows (h : CallEffect name s c s') {o : Op α String Scalar} (ho : o ∈ s.vouched) :
    o ∈ s'.vouched := by
  cases h with
  | saved _ _ _ _ => exact List.mem_append_right _ ho
  | merged _ _ _ => exact List.mem_append_right _ ho
  | _ => exact ho

theorem vouched_run (hA : A.Lawful) {calls : List (Call A)} (hs : Vouched name s)
    (hrun : Runs.run (call name) s calls = some s') :
    Vouched name s' ∧ ∀ o ∈ s.vouched, o ∈ s'.vouched := by
  refine Runs.run_invariant' (I := fun t => Vouched name t ∧ ∀ o ∈ s.vouched, o ∈ t.vouched) ?_
    ⟨hs, fun _ ho => ho⟩ hrun
  rintro t a t' ⟨ht, hgrows⟩ hcall
  have heffect := effect_of_call hA ht.path hcall
  exact ⟨vouched_call ht heffect, fun o ho => vouched_grows heffect (hgrows o ho)⟩

end Peerless.State
