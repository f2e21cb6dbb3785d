import Peerless.State.Convergence
import Peerless.State.Shared

/-!
# Stale writers

What the writers of one directory can read of each other.  The file holds whatever they saved, but a key
is seen only in the map `values` resolves to: a snapshot of a document begun elsewhere brings another one.

* `stale_writers` — the file holds every vouched operation, in every run; and as long as every
  merged snapshot shares the map of the file, every key written has one of its values.
-/

namespace Peerless.State

open Text HashMap OpSet

variable {α : Type} [DecidableEq α] {A : Automerge α} {name : String} {s s' : Shared A} {c : Call A}

/-! ### One map -/

/-- A document with one map `values`, written through `StateDocument` only. -/
structure Plain (ops : Ops α) : Prop where
  oneMap : OneMap ops
  written : ∀ o ∈ ops, Written o

instance (ops : Ops α) : Decidable (OneMap ops) :=
  inferInstanceAs (Decidable (∃ c ∈ ops, c.obj = none ∧ ∀ o ∈ ops, o = c ∨ o.obj = some c.id))

/-- The action assigns a string. -/
def setsString : Action Scalar → Bool
  | .set (.str _) => true
  | _ => false

theorem setsString_iff {a : Action Scalar} : setsString a = true ↔ ∃ value, a = .set (.str value) := by
  constructor
  · intro h
    cases a with
    | set value =>
      cases value with
      | str text => exact ⟨text, rfl⟩
      | other => cases h
    | _ => cases h
  · rintro ⟨value, rfl⟩
    rfl

instance (o : Op α String Scalar) : Decidable (Written o) :=
  decidable_of_iff ((o.obj = none ∧ o.key = "values" ∧ o.action = .makeMap) ∨
    (o.obj ≠ none ∧ setsString o.action = true)) (by rw [setsString_iff]; rfl)

instance (ops : Ops α) : Decidable (Plain ops) :=
  decidable_of_iff (OneMap ops ∧ ∀ o ∈ ops, Written o) ⟨fun h => ⟨h.1, h.2⟩, fun h => ⟨h.1, h.2⟩⟩

/-- **The condition on a call**: a snapshot that is merged is a plain document, and its map `values` is
the one of the file. -/
def sharesMap (name : String) (s : Shared A) : Call A → Bool
  | .mergeSnapshot bytes => (loadFile A bytes).toOption.all fun incoming =>
      (s.store.fileOps name).all fun current =>
        Plain incoming ∧ valuesOf A incoming = valuesOf A current
  | _ => true

/-- The operations a call brings: the one a `put` makes, or those of the snapshot. -/
def brings (s : Shared A) : Call A → Ops α
  | .put d key value => (s.writers[d]?.bind fun document =>
      (valuesOf A document.document.ops).map fun obj =>
        assign document.document.ops document.document.actor (some obj) key (.set (.str value))).toList
  | .mergeSnapshot bytes => (loadFile A bytes).toOption.getD []
  | _ => []

theorem brings_put {d : ℕ} {document : StateDocument α} {obj : OpId α} (key value : String)
    (hdocument : s.writers[d]? = some document) (hobj : valuesOf A document.document.ops = some obj) :
    brings s (.put d key value) =
      [assign document.document.ops document.document.actor (some obj) key (.set (.str value))] := by
  rw [brings, hdocument, Option.bind_some, hobj]
  rfl

/-- A copy of the document with the map `m`. -/
structure InMap (H : Op α String Scalar → Prop) (m : Op α String Scalar) (ops : Ops α) : Prop where
  map : m ∈ ops
  root : m.obj = none
  history : ∀ o ∈ ops, H o
  written : ∀ o ∈ ops, Written o
  inside : ∀ o ∈ ops, o = m ∨ o.obj = some m.id

variable {H : Op α String Scalar → Prop} {m : Op α String Scalar} {first : Ops α}

theorem InMap.values (hH : Lawful H) {ops : Ops α} (h : InMap H m ops) : valuesOf A ops = some m.id :=
  (valuesOf_oneMap hH h.history h.written h.map h.root h.inside).1

omit [DecidableEq α] in
theorem InMap.congr {ops ops' : Ops α} (h : InMap H m ops) (hsame : ∀ o, o ∈ ops' ↔ o ∈ ops) :
    InMap H m ops' where
  map := (hsame m).mpr h.map
  root := h.root
  history := fun o ho => h.history o ((hsame o).mp ho)
  written := fun o ho => h.written o ((hsame o).mp ho)
  inside := fun o ho => h.inside o ((hsame o).mp ho)

omit [DecidableEq α] in
theorem InMap.union {x y ops : Ops α} (hx : InMap H m x) (hy : InMap H m y)
    (hunion : ∀ o, o ∈ ops ↔ o ∈ x ∨ o ∈ y) : InMap H m ops where
  map := (hunion m).mpr (Or.inl hx.map)
  root := hx.root
  history := fun o ho => ((hunion o).mp ho).elim (hx.history o) (hy.history o)
  written := fun o ho => ((hunion o).mp ho).elim (hx.written o) (hy.written o)
  inside := fun o ho => ((hunion o).mp ho).elim (hx.inside o) (hy.inside o)

theorem InMap.put (hH : Lawful H) {d : AutoCommit α} (h : InMap H m d.ops) {obj : OpId α}
    (hobj : valuesOf A d.ops = some obj) {key value : String}
    (hmade : H (assign d.ops d.actor (some obj) key (.set (.str value)))) :
    InMap H m (d.ops ++ [assign d.ops d.actor (some obj) key (.set (.str value))]) := by
  obtain rfl : m.id = obj := Option.some.inj ((h.values hH).symm.trans hobj)
  have hcases : ∀ {Q : Op α String Scalar → Prop}, (∀ o ∈ d.ops, Q o) →
      Q (assign d.ops d.actor (some m.id) key (.set (.str value))) →
      ∀ o ∈ d.ops ++ [assign d.ops d.actor (some m.id) key (.set (.str value))], Q o := by
    intro Q hold hnew o ho
    rcases List.mem_append.mp ho with ho | ho
    · exact hold o ho
    · rw [List.mem_singleton.mp ho]
      exact hnew
  exact ⟨List.mem_append_left _ h.map, h.root, hcases h.history hmade,
    hcases h.written (Or.inr ⟨Option.some_ne_none _, value, rfl⟩), hcases h.inside (Or.inr rfl)⟩

/-- A plain document that resolves `values` to the map is a copy with this map. -/
theorem Plain.inMap (hH : Lawful H) {ops : Ops α} (h : Plain ops) (hsub : ∀ o ∈ ops, H o) (hm : H m)
    (hvalues : valuesOf A ops = some m.id) : InMap H m ops := by
  obtain ⟨e, he, hroot, hinside⟩ := h.oneMap
  rw [(valuesOf_oneMap hH hsub h.written he hroot hinside).1] at hvalues
  obtain rfl := hH.unique e m (hsub e he) hm (Option.some.inj hvalues)
  exact ⟨he, hroot, hsub, h.written, hinside⟩

/-- All copies have one map; the file holds what it held at first and what was vouched for. -/
structure Sharing (name : String) (H : Op α String Scalar → Prop) (m : Op α String Scalar)
    (first : Ops α) (s : Shared A) : Prop where
  writers : ∀ document ∈ s.writers, InMap H m document.document.ops
  file : ∃ ops, s.store.fileOps name = some ops ∧ InMap H m ops ∧ ∀ o ∈ ops, o ∈ first ∨ o ∈ s.vouched

/-- **One call that shares the map keeps it in every copy.** -/
theorem sharing_call (hH : Lawful H) (hs : Sharing name H m first s) (hbrings : ∀ o ∈ brings s c, H o)
    (hshares : sharesMap name s c = true) (h : CallEffect name s c s') : Sharing name H m first s' := by
  obtain ⟨current, hcurrent, hmap, hfrom⟩ := hs.file
  have hfile : ∀ {ops}, s.store.fileOps name = some ops → ops = current := fun hops =>
    Option.some.inj (hops.symm.trans hcurrent)
  have hnone : s.store.lookup (documentPath name) ≠ none := by
    intro hnone
    rw [fileOps_of_none hnone] at hcurrent
    cases hcurrent
  have hadopt : ∀ document ∈ s.writers, InMap H m (document.adopt current).document.ops :=
    fun document hdocument => (hs.writers document hdocument).union hmap fun _ => mem_merge
  refine ⟨writers_call hs.writers ?_ ?_ ?_ ?_ h, ?_⟩
  · intro actor ops hops
    rw [hfile hops]
    exact hmap
  · intro actor hlookup
    exact absurd hlookup hnone
  · rintro d document key value obj rfl hdocument hobj
    rw [brings_put key value hdocument hobj, List.forall_mem_singleton] at hbrings
    exact (hs.writers document (List.mem_of_getElem? hdocument)).put hH hobj hbrings
  · intro document ops hdocument hops
    rw [hfile hops]
    exact hadopt document hdocument
  · cases h with
    | @saved d document document' store ops' hdocument htakes hstore hsame =>
      refine ⟨ops', hstore, ?_, fun o ho => Or.inr (List.mem_append_left _ ((hsame o).mp ho))⟩
      rcases htakes with ⟨_, hgone⟩ | ⟨ops, hops, rfl⟩
      · rw [hgone] at hcurrent
        cases hcurrent
      · rw [hfile hops] at hsame
        exact (hadopt document (List.mem_of_getElem? hdocument)).congr hsame
    | @merged bytes store incoming ops' hincoming hstore hunion =>
      rcases hunion with ⟨hlookup, _⟩ | ⟨ops, hops, hunion⟩
      · exact absurd hlookup hnone
      · rw [hfile hops] at hunion
        rw [brings, hincoming] at hbrings
        rw [sharesMap, hincoming, hcurrent] at hshares
        obtain ⟨hplain, hvalues⟩ := of_decide_eq_true hshares
        have hjoining : InMap H m incoming := hplain.inMap hH hbrings (hmap.history m hmap.map)
          (hvalues.trans (hmap.values hH))
        refine ⟨ops', hstore, hmap.union hjoining hunion, fun o ho => ?_⟩
        rcases (hunion o).mp ho with hold | hnew
        · exact (hfrom o hold).imp id (List.mem_append_right _)
        · exact Or.inr (List.mem_append_left _ hnew)
    | _ => exact ⟨current, hcurrent, hmap, hfrom⟩

/-! ### Whole runs -/

/-- **Stale writers lose nothing.**  In every run, what was vouched for at some point is in the file at
every later one.  If the file held a plain document at the start and every snapshot merged shares its map,
every key so written is answered with a value that was written to it. -/
theorem stale_writers (hA : A.Lawful) {store : StateStore A} {calls later : List (Call A)}
    (hrun : Runs.run (call name) ⟨store, [], []⟩ calls = some s)
    (hlater : Runs.run (call name) s later = some s') :
    (∀ o ∈ s.vouched, ∃ ops, s'.store.fileOps name = some ops ∧ o ∈ ops) ∧
    ∀ H first, Lawful H → (∀ o ∈ first, H o) → store.fileOps name = some first → Plain first →
      Runs.Meets (call name) (fun t a => (∀ o ∈ brings t a, H o) ∧ sharesMap name t a = true)
        ⟨store, [], []⟩ (calls ++ later) →
      ∀ o ∈ s.vouched, o.obj ≠ none → ∀ actor, ∃ value,
        s'.store.read name actor o.key = some (.ok (some value)) ∧
        ∃ o', (o' ∈ first ∨ o' ∈ s'.vouched) ∧ o'.obj ≠ none ∧ o'.key = o.key ∧
          o'.action = .set (.str value) := by
  have hstart : Vouched name (⟨store, [], []⟩ : Shared A) :=
    ⟨fun _ h => absurd h List.not_mem_nil, fun _ h => absurd h List.not_mem_nil⟩
  obtain ⟨hs, _⟩ := vouched_run hA hstart hrun
  obtain ⟨hs', hgrows⟩ := vouched_run hA hs hlater
  refine ⟨fun o ho => hs'.held o (hgrows o ho), ?_⟩
  intro H first hH hfirst hfile hplain hmeets o ho hinside actor
  obtain ⟨m, hm, hroot, hin⟩ := hplain.oneMap
  have hshared : Vouched name s' ∧ Sharing name H m first s' := by
    refine Runs.run_invariant (I := fun t => Vouched name t ∧ Sharing name H m first t) ?_
      (calls ++ later) _ s' ⟨hstart, ?_, first, hfile, ?_, fun _ h => Or.inl h⟩ hmeets
      (Runs.run_append calls later _ s s' hrun hlater)
    · rintro t a t' ⟨hvouched, hsharing⟩ ⟨hbrings, hshares⟩ hcall
      have heffect := effect_of_call hA hvouched.path hcall
      exact ⟨vouched_call hvouched heffect, sharing_call hH hsharing hbrings hshares heffect⟩
    · exact fun _ h => absurd h List.not_mem_nil
    · exact ⟨hm, hroot, hfirst, hplain.written, hin⟩
  obtain ⟨ops, hops, hmap, hfrom⟩ := hshared.2.file
  obtain ⟨ops', hops', hmem⟩ := hs'.held o (hgrows o ho)
  obtain rfl := Option.some.inj (hops.symm.trans hops')
  obtain ⟨value, hvalue, o', ho', hrest⟩ := read_oneMap hH hmap.history hmap.written
    ⟨m, hmap.map, hmap.root, hmap.inside⟩ ⟨o, hmem, hinside, rfl⟩ ⟨documentPath name, ⟨actor, ops⟩⟩ rfl
  refine ⟨value, ?_, o', hfrom o' ho', hrest⟩
  rw [read_of_fileOps hops]
  exact hvalue

/-! ### Sample runs -/

/-- A document with the key `seed`, written by the actor 1. -/
def seeded : Ops ℕ :=
  [creation 1, assign [creation 1] 1 (some (creation (α := ℕ) 1).id) "seed" (.set (.str "present"))]

/-- A directory with this document. -/
def seededStore : StateStore sampleAutomerge :=
  (∅ : StateStore sampleAutomerge).insert (documentPath "notes") (sampleAutomerge.save seeded)

/-- Two writers read the file, then both put a key and save. -/
def staleSaves : List (Call sampleAutomerge) :=
  [.document 2, .document 3, .put 0 "a" "1", .put 1 "b" "2", .save 0, .save 1]

/-- The document with one more key, by somebody else who had read it. -/
def sharedSnapshot : Ops ℕ :=
  seeded ++ [assign seeded 4 (some (creation (α := ℕ) 1).id) "c" (.set (.str "3"))]

/-- Everything that is written in the sample run. -/
def seededHistory : Ops ℕ :=
  sharedSnapshot ++ [assign seeded 2 (some (creation (α := ℕ) 1).id) "a" (.set (.str "1")),
    assign seeded 3 (some (creation (α := ℕ) 1).id) "b" (.set (.str "2"))]

theorem seededHistory_lawful : Lawful fun o => o ∈ seededHistory := by
  have hunique : ∀ o ∈ seededHistory, ∀ o' ∈ seededHistory, o.id = o'.id → o = o' := by
    decide +kernel
  have hpred : ∀ o' ∈ seededHistory, ∀ i ∈ o'.pred, ∃ o ∈ seededHistory, o.id = i ∧ o.obj = o'.obj ∧
      o.key = o'.key ∧ o.id.counter < o'.id.counter := by
    decide +kernel
  exact ⟨fun o o' ho ho' => hunique o ho o' ho', hpred⟩

/-- The conditions on a call of the sample run. -/
def sampleMeets (t : Shared sampleAutomerge) (a : Call sampleAutomerge) : Bool :=
  (brings t a).all (fun o => decide (o ∈ seededHistory)) && sharesMap "notes" t a

/-- In the sample run all keys are answered, whoever reads. -/
theorem stale_saves_are_read : ∃ s s' : Shared sampleAutomerge,
    Runs.run (call "notes") ⟨seededStore, [], []⟩ staleSaves = some s ∧
    Runs.run (call "notes") s [.mergeSnapshot (sampleAutomerge.save sharedSnapshot)] = some s' ∧
    s.vouched.map Op.key = ["values", "seed", "b", "a", "values", "seed", "a"] ∧
    ∀ o ∈ s.vouched, o.obj ≠ none → ∀ actor,
      ∃ value, s'.store.read "notes" actor o.key = some (.ok (some value)) := by
  have heval : ((Runs.run (Runs.guarded (call "notes") sampleMeets) ⟨seededStore, [], []⟩
      staleSaves).bind fun s =>
        (Runs.run (Runs.guarded (call "notes") sampleMeets) s
          [.mergeSnapshot (sampleAutomerge.save sharedSnapshot)]).map fun _ => s.vouched.map Op.key) =
      some ["values", "seed", "b", "a", "values", "seed", "a"] := by
    decide +kernel
  obtain ⟨s, hrun, heval⟩ := Option.bind_eq_some_iff.mp heval
  obtain ⟨s', hlater, hkeys⟩ := Option.map_eq_some_iff.mp heval
  obtain ⟨hmeets, _⟩ := Runs.run_guarded _ _ s' (Runs.run_append _ _ _ s s' hrun hlater)
  simp only [sampleMeets, Bool.and_eq_true, List.all_eq_true, decide_eq_true_eq] at hmeets
  have hplain := (Runs.run_guarded _ _ s hrun).2
  have hplain' := (Runs.run_guarded _ _ s' hlater).2
  refine ⟨s, s', hplain, hplain', hkeys, fun o ho hinside actor => ?_⟩
  obtain ⟨value, hvalue, _⟩ := (stale_writers sampleAutomerge_lawful hplain hplain').2 _ seeded
    seededHistory_lawful (by decide +kernel) (by decide +kernel) (by decide +kernel) hmeets o ho hinside
    actor
  exact ⟨value, hvalue⟩

/-- A document that somebody began on their own. -/
def foreignSnapshot : Ops ℕ :=
  [creation 9, assign [creation 9] 9 (some (creation (α := ℕ) 9).id) "b" (.set (.str "2"))]

/-- **A foreign snapshot.**  The key `a` is put and saved in a document whose file was there; after a
merge of the snapshot, which succeeds, it reads as if it had never been put. -/
theorem foreign_snapshot_hides : ∃ s s' : Shared sampleAutomerge,
    Runs.run (call "notes") ⟨seededStore, [], []⟩ [.document 2, .put 0 "a" "1", .save 0] = some s ∧
    Runs.run (call "notes") s [.mergeSnapshot (sampleAutomerge.save foreignSnapshot)] = some s' ∧
    (∃ o ∈ s.vouched, o.key = "a" ∧ o.action = .set (.str "1")) ∧
    (∃ o ∈ s'.vouched, o.key = "b") ∧ s'.store.read "notes" 3 "a" = some (.ok none) := by
  have heval : ((Runs.run (call "notes") (⟨seededStore, [], []⟩ : Shared sampleAutomerge)
      [.document 2, .put 0 "a" "1", .save 0]).bind fun s =>
        (Runs.run (call "notes") s [.mergeSnapshot (sampleAutomerge.save foreignSnapshot)]).map fun s' =>
          decide ((∃ o ∈ s.vouched, o.key = "a" ∧ o.action = .set (.str "1")) ∧
            (∃ o ∈ s'.vouched, o.key = "b") ∧ s'.store.read "notes" 3 "a" = some (.ok none))) =
      some true := by
    decide +kernel
  obtain ⟨s, hrun, heval⟩ := Option.bind_eq_some_iff.mp heval
  obtain ⟨s', hlater, hall⟩ := Option.map_eq_some_iff.mp heval
  exact ⟨s, s', hrun, hlater, of_decide_eq_true hall⟩

end Peerless.State
