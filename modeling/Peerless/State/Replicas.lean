import Peerless.State.Document
import Peerless.Lib.Threads

/-!
# Replicas of a document

Any number of stores that open one document name, write, save and exchange snapshots.  A snapshot may be
merged late, repeatedly or never; every open document draws an actor that no other one has, which is
what Automerge's random actor ids are for.
-/

namespace Peerless.State

open Text HashMap OpSet

variable {α ι : Type} [DecidableEq α] [DecidableEq ι] {A : Automerge α}

/-! ### The system -/

/-- An open document, the store it belongs to and the keys put through it. -/
structure Replica (α ι : Type) where
  store : ι
  document : StateDocument α
  puts : List String

/-- The operations a replica knows. -/
def Replica.ops (r : Replica α ι) : Ops α := r.document.document.ops

def Replica.actor (r : Replica α ι) : α := r.document.document.actor

/-- The stores, the open documents, the snapshots taken so far with the document they were taken from,
and a record of what succeeded: merges into stores, and keys put through documents saved since. -/
structure World {α : Type} (A : Automerge α) (ι : Type) where
  stores : ι → StateStore A
  replicas : List (Replica α ι)
  snapshots : List (ℕ × A.Blob)
  actors : List α
  merged : List (ι × ℕ)
  saved : List String

/-- Stores without files. -/
def World.new {α : Type} (A : Automerge α) (ι : Type) : World A ι := ⟨fun _ => ∅, [], [], [], [], []⟩

inductive Act (α ι : Type) where
  | document (i : ι) (actor : α)
  | put (d : ℕ) (key value : String)
  | save (d : ℕ)
  | merge (d e : ℕ)
  | snapshot (d : ℕ)
  | mergeDocument (d k : ℕ)
  | mergeSnapshot (i : ι) (k : ℕ)

/-- The world with another state of one open document. -/
def World.update (w : World A ι) (d : ℕ) (r : Replica α ι) : World A ι :=
  { w with replicas := w.replicas.set d r }

/-- One call; a call that fails leaves everything but `save`'s document as it was. -/
def step (name : String) (w : World A ι) : Act α ι → Option (World A ι)
  | .document i actor =>
    if actor ∈ w.actors then none
    else
      match (w.stores i).document name actor with
      | .error _ => some { w with actors := actor :: w.actors }
      | .ok document => some { w with
          replicas := w.replicas ++ [⟨i, document, []⟩]
          actors := actor :: w.actors }
  | .put d key value =>
    match w.replicas[d]? with
    | none => none
    | some r =>
      match r.document.put A key value with
      | some (.ok document) => some (w.update d { r with document, puts := key :: r.puts })
      | _ => some w
  | .save d =>
    match w.replicas[d]? with
    | none => none
    | some r =>
      match r.document.save (w.stores r.store) with
      | (document, store, .ok ()) => some { w.update d { r with document } with
          stores := Function.update w.stores r.store store
          saved := r.puts ++ w.saved }
      | (document, _, .error _) => some (w.update d { r with document })
  | .merge d e =>
    -- two documents: one is borrowed mutably as `self`, the other as the argument
    if d = e then none
    else
      match w.replicas[d]?, w.replicas[e]? with
      | some r, some other =>
        some (w.update d { r with document := r.document.merge other.document })
      | _, _ => none
  | .snapshot d =>
    match w.replicas[d]? with
    | none => none
    | some r => some { w with snapshots := w.snapshots ++ [(d, r.document.snapshot A)] }
  | .mergeDocument d k =>
    match w.replicas[d]?, w.snapshots[k]? with
    | some r, some (_, bytes) =>
      match r.document.mergeSnapshot bytes with
      | .error _ => some w
      | .ok document => some (w.update d { r with document })
    | _, _ => none
  | .mergeSnapshot i k =>
    match w.snapshots[k]? with
    | none => none
    | some (_, bytes) =>
      match (w.stores i).mergeSnapshot name bytes with
      | .error _ => some w
      | .ok store => some { w with
          stores := Function.update w.stores i store
          merged := (i, k) :: w.merged }

/-! ### What a step can do -/

/-- The operations in a snapshot. -/
def World.snapshotOps (w : World A ι) (k : ℕ) : Option (Ops α) :=
  w.snapshots[k]?.bind fun s => (loadFile A s.2).toOption

/-- The copies of the document: what an open document knows, what a file holds, what a snapshot loads
to. -/
inductive Copy (name : String) (w : World A ι) : Ops α → Prop
  | replica {d : ℕ} {r : Replica α ι} : w.replicas[d]? = some r → Copy name w r.ops
  | file {i : ι} {ops : Ops α} : (w.stores i).fileOps name = some ops → Copy name w ops
  | snapshot {k : ℕ} {ops : Ops α} : w.snapshotOps k = some ops → Copy name w ops

/-- The two copies a step merges. -/
def joins (name : String) (w : World A ι) : Act α ι → Option (Ops α × Ops α)
  | .save d => w.replicas[d]?.bind fun r =>
      ((w.stores r.store).fileOps name).map fun ops => (r.ops, ops)
  | .merge d e => w.replicas[d]?.bind fun r => w.replicas[e]?.map fun other => (r.ops, other.ops)
  | .mergeDocument d k => w.replicas[d]?.bind fun r => (w.snapshotOps k).map fun ops => (r.ops, ops)
  | .mergeSnapshot i k => ((w.stores i).fileOps name).bind fun current =>
      (w.snapshotOps k).map fun incoming => (current, incoming)
  | _ => none

/-- The operation that creates the map `values`. -/
def creation (actor : α) : Op α String Scalar := assign [] actor none "values" .makeMap

/-- The world with one more open document. -/
def World.opened (w : World A ι) (name : String) (i : ι) (actor : α) (ops : Ops α) : World A ι :=
  { w with
    replicas := w.replicas ++ [⟨i, ⟨documentPath name, ⟨actor, ops⟩⟩, []⟩]
    actors := actor :: w.actors }

/-- A replica with one more operation, for a key. -/
def Replica.extend (r : Replica α ι) (o : Op α String Scalar) (key : String) : Replica α ι :=
  ⟨r.store, { r.document with document := ⟨r.actor, r.ops ++ [o]⟩ }, key :: r.puts⟩

/-- A replica that has taken in other operations. -/
def Replica.adopt (r : Replica α ι) (ops : Ops α) : Replica α ι :=
  { r with document := r.document.adopt ops }

/-- **Everything a step can do.** -/
inductive Effect (name : String) (w : World A ι) : Act α ι → World A ι → Prop
  | idle {a : Act α ι} : Effect name w a w
  | failed {i : ι} {actor : α} : actor ∉ w.actors →
      Effect name w (.document i actor) { w with actors := actor :: w.actors }
  | loaded {i : ι} {actor : α} {ops : Ops α} : actor ∉ w.actors → (w.stores i).fileOps name = some ops →
      Effect name w (.document i actor) (w.opened name i actor ops)
  | created {i : ι} {actor : α} : actor ∉ w.actors → (w.stores i).lookup (documentPath name) = none →
      Effect name w (.document i actor) (w.opened name i actor [creation actor])
  | put {d : ℕ} {r : Replica α ι} {key value : String} {obj : OpId α} : w.replicas[d]? = some r →
      valuesOf A r.ops = some obj →
      Effect name w (.put d key value)
        (w.update d (r.extend (assign r.ops r.actor (some obj) key (.set (.str value))) key))
  | adopted {a : Act α ι} {d : ℕ} {r : Replica α ι} {ops : Ops α} :
      (a = .save d ∨ (∃ e, a = .merge d e) ∨ ∃ k, a = .mergeDocument d k) →
      w.replicas[d]? = some r → Copy name w ops → joins name w a = some (r.ops, ops) →
      Effect name w a (w.update d (r.adopt ops))
  | saved {d : ℕ} {r r' : Replica α ι} {store : StateStore A} {ops' : Ops α} :
      w.replicas[d]? = some r →
      ((w.stores r.store).fileOps name = none ∧ r' = r ∨
        ∃ ops, (w.stores r.store).fileOps name = some ops ∧ r' = r.adopt ops) →
      store.fileOps name = some ops' → (∀ o, o ∈ ops' ↔ o ∈ r'.ops) →
      Effect name w (.save d) { w.update d r' with
        stores := Function.update w.stores r.store store
        saved := r.puts ++ w.saved }
  | taken {d : ℕ} {r : Replica α ι} : w.replicas[d]? = some r →
      Effect name w (.snapshot d)
        { w with snapshots := w.snapshots ++ [(d, r.document.snapshot A)] }
  | merged {i : ι} {k : ℕ} {store : StateStore A} {incoming ops' : Ops α} :
      w.snapshotOps k = some incoming → store.fileOps name = some ops' →
      ((w.stores i).lookup (documentPath name) = none ∧ ops' = incoming ∨
        ∃ current, (w.stores i).fileOps name = some current ∧
          ∀ o, o ∈ ops' ↔ o ∈ current ∨ o ∈ incoming) →
      Effect name w (.mergeSnapshot i k) { w with
        stores := Function.update w.stores i store
        merged := (i, k) :: w.merged }

variable {w : World A ι} {d : ℕ} {r : Replica α ι}

omit [DecidableEq α] [DecidableEq ι] in
theorem World.update_self (h : w.replicas[d]? = some r) : w.update d r = w := by
  obtain ⟨hd, rfl⟩ := List.getElem?_eq_some_iff.mp h
  show { w with replicas := w.replicas.set d w.replicas[d] } = w
  rw [List.set_getElem_self]

theorem StateDocument.put_ok {d d' : StateDocument α} {key value : String}
    (h : d.put A key value = some (.ok d')) : ∃ obj, valuesOf A d.document.ops = some obj ∧
      d' = { d with document := { d.document with
        ops := d.document.ops ++ [assign d.document.ops d.document.actor (some obj) key
          (.set (.str value))] } } := by
  obtain ⟨obj, hobj, hput⟩ := Option.map_eq_some_iff.mp h
  refine ⟨obj, hobj, ?_⟩
  unfold AutoCommit.put at hput
  by_cases hmap : madeBy d.document.ops obj .makeMap = true
  · rw [if_pos hmap] at hput
    exact (Except.ok.inj hput).symm
  · rw [if_neg hmap] at hput
    cases hput

variable {k : ℕ}

omit [DecidableEq α] [DecidableEq ι] in
theorem snapshotOps_of_load {bytes : A.Blob} {ops : Ops α} (hk : w.snapshots[k]? = some (d, bytes))
    (hload : loadFile A bytes = .ok ops) : w.snapshotOps k = some ops := by
  show w.snapshots[k]?.bind _ = _
  rw [hk]
  show (loadFile A bytes).toOption = some ops
  rw [hload]
  rfl

omit [DecidableEq α] [DecidableEq ι] in
theorem joins_save {name : String} {ops : Ops α} (hr : w.replicas[d]? = some r)
    (hfile : (w.stores r.store).fileOps name = some ops) :
    joins name w (.save d) = some (r.ops, ops) := by
  show w.replicas[d]?.bind _ = _
  rw [hr]
  show ((w.stores r.store).fileOps name).map _ = _
  rw [hfile]
  rfl

theorem effect_of_step (hA : A.Lawful) {name : String} {w' : World A ι} {a : Act α ι}
    (hpath : ∀ (d : ℕ) r, w.replicas[d]? = some r → r.document.path = documentPath name)
    (h : step name w a = some w') : Effect name w a w' := by
  cases a with
  | document i actor =>
    rw [step] at h
    split at h
    · cases h
    · rename_i hfresh
      rcases (w.stores i).document_cases name actor with ⟨hnone, hdocument⟩ | ⟨ops, hfile, hdocument⟩ |
        ⟨_, err, hdocument⟩
      all_goals
        rw [hdocument] at h
        rw [← Option.some.inj h]
      · exact .created hfresh hnone
      · exact .loaded hfresh hfile
      · exact .failed hfresh
  | put d key value =>
    rw [step] at h
    cases hr : w.replicas[d]? with
    | none => rw [hr] at h; cases h
    | some r =>
      rw [hr] at h
      dsimp only at h
      split at h
      · rename_i document hput
        obtain ⟨obj, hobj, rfl⟩ := StateDocument.put_ok hput
        rw [← Option.some.inj h]
        exact .put hr hobj
      · rw [← Option.some.inj h]
        exact .idle
  | save d =>
    rw [step] at h
    cases hr : w.replicas[d]? with
    | none => rw [hr] at h; cases h
    | some r =>
      rw [hr] at h
      dsimp only at h
      split at h
      · rename_i document store hsave
        obtain ⟨htakes, hresult⟩ := StateDocument.save_cases hA (hpath d r hr) hsave
        rw [← Option.some.inj h]
        rcases hresult with ⟨_, err, herr⟩ | ⟨_, ops', hops', hsame⟩
        · cases herr
        · refine .saved hr ?_ hops' hsame
          rcases htakes with ⟨hnone, rfl⟩ | ⟨ops, hops, rfl⟩
          · exact Or.inl ⟨hnone, rfl⟩
          · exact Or.inr ⟨ops, hops, rfl⟩
      · rename_i document store err hsave
        obtain ⟨htakes, _⟩ := StateDocument.save_cases hA (hpath d r hr) hsave
        rw [← Option.some.inj h]
        rcases htakes with ⟨_, rfl⟩ | ⟨ops, hops, rfl⟩
        · rw [show w.update d { r with document := r.document } = w from World.update_self hr]
          exact .idle
        · exact .adopted (Or.inl rfl) hr (.file hops) (joins_save hr hops)
  | merge d e =>
    rw [step] at h
    split at h
    · cases h
    · split at h
      · rename_i r other hr hother
        rw [← Option.some.inj h]
        refine .adopted (Or.inr (Or.inl ⟨e, rfl⟩)) hr (.replica hother) ?_
        show w.replicas[d]?.bind _ = _
        rw [hr]
        show w.replicas[e]?.map _ = _
        rw [hother]
        rfl
      · cases h
  | snapshot d =>
    rw [step] at h
    split at h
    · cases h
    · rename_i r hr
      rw [← Option.some.inj h]
      exact .taken hr
  | mergeDocument d k =>
    rw [step] at h
    split at h
    · rename_i r origin bytes hr hk
      cases hload : loadFile A bytes with
      | error err =>
        have hmerge : r.document.mergeSnapshot bytes = .error err := by
          unfold StateDocument.mergeSnapshot
          rw [hload]
        rw [hmerge] at h
        rw [← Option.some.inj h]
        exact .idle
      | ok ops =>
        have hmerge : r.document.mergeSnapshot bytes = .ok (r.document.adopt ops) := by
          unfold StateDocument.mergeSnapshot
          rw [hload]
        rw [hmerge] at h
        rw [← Option.some.inj h]
        have hsnapshot := snapshotOps_of_load hk hload
        refine .adopted (Or.inr (Or.inr ⟨k, rfl⟩)) hr (.snapshot hsnapshot) ?_
        show w.replicas[d]?.bind _ = _
        rw [hr]
        show (w.snapshotOps k).map _ = _
        rw [hsnapshot]
        rfl
    · cases h
  | mergeSnapshot i k =>
    rw [step] at h
    split at h
    · cases h
    · rename_i origin bytes hk
      split at h
      · rw [← Option.some.inj h]
        exact .idle
      · rename_i store hmerge
        obtain ⟨incoming, ops', hincoming, hops', hunion⟩ := StateStore.mergeSnapshot_ok hA hmerge
        rw [← Option.some.inj h]
        exact .merged (snapshotOps_of_load hk hincoming) hops' hunion

/-! ### What becomes of the copies -/

omit [DecidableEq ι] in
theorem Replica.mem_adopt {ops : Ops α} {o : Op α String Scalar} :
    o ∈ (r.adopt ops).ops ↔ o ∈ r.ops ∨ o ∈ ops :=
  mem_merge

omit [DecidableEq α] in
theorem fileOps_update {name : String} {i j : ι} {store : StateStore A} {ops : Ops α}
    (h : (Function.update w.stores i store j).fileOps name = some ops) :
    (j = i ∧ store.fileOps name = some ops) ∨ (w.stores j).fileOps name = some ops := by
  by_cases hj : j = i
  · subst hj
    rw [Function.update_self] at h
    exact Or.inl ⟨rfl, h⟩
  · rw [Function.update_of_ne hj] at h
    exact Or.inr h

omit [DecidableEq α] [DecidableEq ι] in
theorem joins_merge {name : String} {i : ι} {current incoming : Ops α}
    (hfile : (w.stores i).fileOps name = some current) (hk : w.snapshotOps k = some incoming) :
    joins name w (.mergeSnapshot i k) = some (current, incoming) := by
  show ((w.stores i).fileOps name).bind _ = _
  rw [hfile]
  show (w.snapshotOps k).map _ = _
  rw [hk]
  rfl

omit [DecidableEq α] [DecidableEq ι] in
theorem snapshotOps_append {s : ℕ × A.Blob} {ops : Ops α}
    (h : ({ w with snapshots := w.snapshots ++ [s] } : World A ι).snapshotOps k = some ops) :
    w.snapshotOps k = some ops ∨ k = w.snapshots.length ∧ loadFile A s.2 = .ok ops := by
  obtain ⟨taken, hk, hload⟩ := Option.bind_eq_some_iff.mp h
  rcases Threads.getElem?_arrive hk with hk | ⟨rfl, rfl⟩
  · exact Or.inl (Option.bind_eq_some_iff.mpr ⟨taken, hk, hload⟩)
  · refine Or.inr ⟨rfl, ?_⟩
    cases hfile : loadFile A taken.2 with
    | error err => rw [hfile] at hload; cases hload
    | ok ops' =>
      rw [hfile] at hload
      exact congrArg Except.ok (Option.some.inj hload)

/-- **What a step can do to the operations.**  Every copy after it is an old one, the two it merged, a
new map, or what a replica knew with the assignment it made. -/
theorem copies_step (hA : A.Lawful) {name : String} {w' : World A ι} {a : Act α ι}
    (h : Effect name w a w') {ops' : Ops α} (hcopy : Copy name w' ops') :
    (∃ ops, Copy name w ops ∧ ∀ o, o ∈ ops' ↔ o ∈ ops) ∨
    (∃ x y, Copy name w x ∧ Copy name w y ∧ joins name w a = some (x, y) ∧
      ∀ o, o ∈ ops' ↔ o ∈ x ∨ o ∈ y) ∨
    (∃ i actor, a = .document i actor ∧ (w.stores i).lookup (documentPath name) = none ∧
      ops' = [creation actor]) ∨
    (∃ d r key value obj, a = .put d key value ∧ w.replicas[d]? = some r ∧
      valuesOf A r.ops = some obj ∧
      ops' = r.ops ++ [assign r.ops r.actor (some obj) key (.set (.str value))]) := by
  have hold : ∀ {ops}, Copy name w ops → ∃ ops₀, Copy name w ops₀ ∧ ∀ o, o ∈ ops ↔ o ∈ ops₀ :=
    fun {ops} hops => ⟨ops, hops, fun _ => Iff.rfl⟩
  cases hcopy with
  | @replica d r' hr' =>
    cases h with
    | loaded _ hfile =>
      rcases Threads.getElem?_arrive hr' with hr | ⟨_, rfl⟩
      · exact Or.inl (hold (.replica hr))
      · exact Or.inl (hold (.file hfile))
    | @created i actor _ hnone =>
      rcases Threads.getElem?_arrive hr' with hr | ⟨_, rfl⟩
      · exact Or.inl (hold (.replica hr))
      · exact Or.inr (Or.inr (Or.inl ⟨i, actor, rfl, hnone, rfl⟩))
    | @put e r key value obj hr hobj =>
      rcases Threads.getElem?_advance hr' with ⟨_, rfl⟩ | ⟨_, hr''⟩
      · exact Or.inr (Or.inr (Or.inr ⟨e, r, key, value, obj, rfl, hr, hobj, rfl⟩))
      · exact Or.inl (hold (.replica hr''))
    | @adopted _ e r ops _ hr hops hjoins =>
      rcases Threads.getElem?_advance hr' with ⟨_, rfl⟩ | ⟨_, hr''⟩
      · exact Or.inr (Or.inl ⟨r.ops, ops, .replica hr, hops, hjoins, fun o => Replica.mem_adopt⟩)
      · exact Or.inl (hold (.replica hr''))
    | @saved e r r₁ store ops₁ hr htakes _ _ =>
      rcases Threads.getElem?_advance hr' with ⟨_, rfl⟩ | ⟨_, hr''⟩
      · rcases htakes with ⟨_, rfl⟩ | ⟨ops, hfile, rfl⟩
        · exact Or.inl (hold (.replica hr))
        · refine Or.inr (Or.inl ⟨r.ops, ops, .replica hr, .file hfile, ?_, fun o => Replica.mem_adopt⟩)
          exact joins_save hr hfile
      · exact Or.inl (hold (.replica hr''))
    | _ => exact Or.inl (hold (.replica (w := w) hr'))
  | @file j ops' hfile' =>
    cases h with
    | @saved e r r₁ store ops₁ hr htakes hstore hsame =>
      rcases fileOps_update hfile' with ⟨rfl, hnew⟩ | hfile
      · obtain rfl := Option.some.inj (hnew.symm.trans hstore)
        rcases htakes with ⟨_, rfl⟩ | ⟨ops, hfile, rfl⟩
        · exact Or.inl ⟨_, .replica hr, hsame⟩
        · refine Or.inr (Or.inl ⟨r.ops, ops, .replica hr, .file hfile, joins_save hr hfile,
            fun o => (hsame o).trans Replica.mem_adopt⟩)
      · exact Or.inl (hold (.file hfile))
    | @merged i k store incoming ops₁ hk hstore hunion =>
      rcases fileOps_update hfile' with ⟨rfl, hnew⟩ | hfile
      · obtain rfl := Option.some.inj (hnew.symm.trans hstore)
        rcases hunion with ⟨_, rfl⟩ | ⟨current, hfile, hunion⟩
        · exact Or.inl (hold (.snapshot hk))
        · exact Or.inr (Or.inl ⟨current, incoming, .file hfile, .snapshot hk,
            joins_merge hfile hk, hunion⟩)
      · exact Or.inl (hold (.file hfile))
    | _ => exact Or.inl (hold (.file (w := w) hfile'))
  | @snapshot k ops' hk' =>
    cases h with
    | @taken d r hr =>
      rcases snapshotOps_append hk' with hk | ⟨_, hload⟩
      · exact Or.inl (hold (.snapshot hk))
      · obtain ⟨ops, hload', hsame⟩ := hA r.ops
        obtain rfl := Option.some.inj ((loadFile_ok.mp hload).2.symm.trans hload')
        exact Or.inl ⟨r.ops, .replica hr, hsame⟩
    | _ => exact Or.inl (hold (.snapshot (w := w) hk'))

end Peerless.State
