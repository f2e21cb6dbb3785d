import Peerless.State.History

/-!
# Convergence and hidden updates

After any run in which stores open a document, write and save, let every store merge a snapshot of every
other one.  All stores then hold the same operations and answer alike.  Whether a key that was put is
among the answers depends on the map `values`: a store without a file makes one of its own, and where
two maps meet, only one of them is seen.

* `replicas_converge` — **PROVED**: convergence, and visibility of every key in runs that merge only
  copies of one map.
-/

namespace Peerless.State

open Text HashMap OpSet

variable {α ι : Type} [DecidableEq α] [DecidableEq ι] {A : Automerge α} {name : String}
  {w w' : World A ι} {a : Act α ι} {H : Op α String Scalar → Prop}

/-! ### One map -/

/-- **The condition on a step**: if it merges two copies, `values` is the same map in both. -/
def sameMap (name : String) (w : World A ι) (a : Act α ι) : Bool :=
  (joins name w a).all fun p => valuesOf A p.1 = valuesOf A p.2

/-- There is one map, and everything else was put into it. -/
def OneMap (ops : Ops α) : Prop := ∃ c ∈ ops, c.obj = none ∧ ∀ o ∈ ops, o = c ∨ o.obj = some c.id

/-- What `StateDocument` makes: the map `values`, and strings in such a map. -/
def Written (o : Op α String Scalar) : Prop :=
  (o.obj = none ∧ o.key = "values" ∧ o.action = .makeMap) ∨
    (o.obj ≠ none ∧ ∃ value, o.action = .set (.str value))

/-- What `values` resolves to if there is one map. -/
theorem valuesOf_oneMap (hH : Lawful H) {ops : Ops α} (hsub : ∀ o ∈ ops, H o)
    (hwritten : ∀ o ∈ ops, Written o) {c : Op α String Scalar} (hc : c ∈ ops) (hroot : c.obj = none)
    (hrest : ∀ o ∈ ops, o = c ∨ o.obj = some c.id) :
    valuesOf A ops = some c.id ∧ madeBy ops c.id .makeMap = true := by
  have honly : ∀ o ∈ ops, o.obj = none → o = c := by
    intro o ho hobj
    rcases hrest o ho with rfl | hinside
    · rfl
    · rw [hobj] at hinside; cases hinside
  have hshape : c.key = "values" ∧ c.action = .makeMap := by
    rcases hwritten c hc with ⟨_, hkey, hmake⟩ | ⟨hinside, _⟩
    · exact ⟨hkey, hmake⟩
    · exact absurd hroot hinside
  have hvisible : visible ops none "values" ≠ [] := by
    rw [← hroot, ← hshape.1]
    refine visible_ne_nil hH hsub hc fun o ho hobj _ => ?_
    rw [honly o ho (hobj.trans hroot), hshape.2]
    simp
  obtain ⟨o, ho, hget⟩ := get_isSome (R := A.rule) hvisible
  obtain ⟨hmem, hobj, _⟩ := mem_visible.mp ho
  refine ⟨?_, ?_⟩
  · show (OpSet.get A.rule ops none "values").map Op.id = _
    rw [hget, honly o hmem hobj]
    rfl
  · exact List.any_eq_true.mpr ⟨c, hc, decide_eq_true ⟨rfl, hshape.2⟩⟩

omit [DecidableEq α] [DecidableEq ι] in
theorem Sound.written (hw : Sound name w H) {ops : Ops α} (hcopy : Copy name w ops) :
    ∀ o ∈ ops, Written o := fun o ho => hw.shape o (hw.copies ops hcopy o ho)

omit [DecidableEq α] in
theorem OneMap.congr {ops ops' : Ops α} (h : OneMap ops) (hsame : ∀ o, o ∈ ops' ↔ o ∈ ops) :
    OneMap ops' := by
  obtain ⟨c, hc, hroot, hrest⟩ := h
  exact ⟨c, (hsame c).mpr hc, hroot, fun o ho => hrest o ((hsame o).mp ho)⟩

/-- **A step that merges copies of one map keeps one map in every copy.** -/
theorem oneMap_step (hA : A.Lawful) (hw : Sound name w H)
    (hone : ∀ ops, Copy name w ops → OneMap ops) (hok : sameMap name w a = true)
    (h : Effect name w a w') : ∀ ops, Copy name w' ops → OneMap ops := by
  intro ops' hcopy
  rcases copies_step hA h hcopy with ⟨ops, hops, hsame⟩ | ⟨x, y, hx, hy, hjoins, hunion⟩ |
    ⟨i, actor, _, _, rfl⟩ | ⟨d, r, key, value, obj, _, hr, hobj, rfl⟩
  · exact (hone ops hops).congr hsame
  · obtain ⟨c, hc, hroot, hrest⟩ := hone x hx
    obtain ⟨e, he, hroot', hrest'⟩ := hone y hy
    -- the two maps have one id, so they are one
    have hvalues : valuesOf A x = valuesOf A y := by
      unfold sameMap at hok
      rw [hjoins] at hok
      exact of_decide_eq_true hok
    rw [(valuesOf_oneMap hw.lawful (hw.copies x hx) (hw.written hx) hc hroot hrest).1,
      (valuesOf_oneMap hw.lawful (hw.copies y hy) (hw.written hy) he hroot' hrest').1] at hvalues
    obtain rfl := hw.lawful.unique c e (hw.copies x hx c hc) (hw.copies y hy e he)
      (Option.some.inj hvalues)
    refine ⟨c, (hunion c).mpr (Or.inl hc), hroot, fun o ho => ?_⟩
    rcases (hunion o).mp ho with ho | ho
    · exact hrest o ho
    · exact hrest' o ho
  · exact ⟨creation actor, List.mem_cons_self, rfl, fun o ho => Or.inl (List.mem_singleton.mp ho)⟩
  · have hcopy : Copy name w r.ops := .replica hr
    obtain ⟨c, hc, hroot, hrest⟩ := hone r.ops hcopy
    refine ⟨c, List.mem_append_left _ hc, hroot, fun o ho => ?_⟩
    rcases List.mem_append.mp ho with ho | ho
    · exact hrest o ho
    · rw [(valuesOf_oneMap hw.lawful (hw.copies _ hcopy) (hw.written hcopy) hc hroot hrest).1] at hobj
      rw [List.mem_singleton.mp ho, ← Option.some.inj hobj]
      exact Or.inr rfl

/-! ### The exchange -/

/-- The store a snapshot came from. -/
def World.origin (w : World A ι) (k : ℕ) : Option ι :=
  w.snapshots[k]?.bind fun s => w.replicas[s.1]?.map Replica.store

/-- The document `d` has the operations of its store's file, if it is open. -/
def upToDate (name : String) (w : World A ι) (d : ℕ) : Bool :=
  w.replicas[d]?.all fun r => ((w.stores r.store).fileOps name).any fun ops =>
    (∀ o ∈ ops, o ∈ r.ops) ∧ ∀ o ∈ r.ops, o ∈ ops

omit [DecidableEq ι] in
theorem upToDate_open {d : ℕ} {r : Replica α ι} (h : upToDate name w d = true)
    (hr : w.replicas[d]? = some r) :
    ∃ ops, (w.stores r.store).fileOps name = some ops ∧ ∀ o, o ∈ r.ops ↔ o ∈ ops := by
  rw [upToDate, hr, Option.all_some, Option.any_eq_true] at h
  obtain ⟨ops, hfile, hsame⟩ := h
  obtain ⟨hall, hback⟩ := of_decide_eq_true hsame
  exact ⟨ops, hfile, fun o => ⟨hback o, hall o⟩⟩

/-- The calls of an exchange that begins in `w₀`: documents are opened, snapshots are taken and merged into
stores.  A snapshot is of a document that is opened in the exchange, or that has the operations of its
store's file, at the beginning or when it is taken; and it is not one from before. -/
def Act.exchanges (name : String) (w₀ w : World A ι) : Act α ι → Bool
  | .document _ _ => true
  | .snapshot d => upToDate name w₀ d || upToDate name w d
  | .mergeSnapshot _ k => w₀.snapshots.length ≤ k
  | _ => false

/-- At least what the store `i` had at first, and nothing that no store had. -/
def Between (base : ι → Ops α) (i : ι) (ops : Ops α) : Prop :=
  (∀ o ∈ base i, o ∈ ops) ∧ ∀ o ∈ ops, ∃ j, o ∈ base j

variable {base : ι → Ops α}

omit [DecidableEq α] [DecidableEq ι] in
theorem Between.congr {i : ι} {ops ops' : Ops α} (h : Between base i ops)
    (hsame : ∀ o, o ∈ ops' ↔ o ∈ ops) : Between base i ops' :=
  ⟨fun o ho => (hsame o).mpr (h.1 o ho), fun o ho => h.2 o ((hsame o).mp ho)⟩

/-- During the exchange: files, the documents that had the operations of a file at the beginning, and the
snapshots of the exchange are between. -/
structure Exchanging (name : String) (base : ι → Ops α) (w₀ w : World A ι) : Prop where
  files : ∀ i, ∃ ops, (w.stores i).fileOps name = some ops ∧ Between base i ops
  replicas : ∀ (d : ℕ) r, upToDate name w₀ d = true → w.replicas[d]? = some r →
    Between base r.store r.ops
  snapshots : ∀ k incoming, w₀.snapshots.length ≤ k → w.snapshotOps k = some incoming →
    ∃ j, w.origin k = some j ∧ Between base j incoming

omit [DecidableEq α] [DecidableEq ι] in
theorem origin_opened {i : ι} {actor : α} {ops : Ops α} {k : ℕ} {j : ι} (h : w.origin k = some j) :
    (w.opened name i actor ops).origin k = some j := by
  obtain ⟨s, hs, hstore⟩ := Option.bind_eq_some_iff.mp h
  obtain ⟨r, hr, hj⟩ := Option.map_eq_some_iff.mp hstore
  refine Option.bind_eq_some_iff.mpr ⟨s, hs, Option.map_eq_some_iff.mpr ⟨r, ?_, hj⟩⟩
  obtain ⟨hlt, _⟩ := List.getElem?_eq_some_iff.mp hr
  show (w.replicas ++ _)[s.1]? = some r
  rw [List.getElem?_append_left hlt]
  exact hr

omit [DecidableEq α] [DecidableEq ι] in
theorem origin_taken {s : ℕ × A.Blob} {k : ℕ} {j : ι} (h : w.origin k = some j) :
    ({ w with snapshots := w.snapshots ++ [s] } : World A ι).origin k = some j := by
  obtain ⟨t, ht, hstore⟩ := Option.bind_eq_some_iff.mp h
  refine Option.bind_eq_some_iff.mpr ⟨t, ?_, hstore⟩
  obtain ⟨hlt, _⟩ := List.getElem?_eq_some_iff.mp ht
  show (w.snapshots ++ [s])[k]? = some t
  rw [List.getElem?_append_left hlt]
  exact ht

omit [DecidableEq ι] in
theorem Exchanging.file {w₀ : World A ι} (hw : Exchanging name base w₀ w) {i : ι} {ops : Ops α}
    (hfile : (w.stores i).fileOps name = some ops) : Between base i ops := by
  obtain ⟨ops', hfile', hbetween⟩ := hw.files i
  obtain rfl := Option.some.inj (hfile.symm.trans hfile')
  exact hbetween

theorem exchanging_step (hA : A.Lawful) {w₀ : World A ι} (hw : Exchanging name base w₀ w)
    (hact : a.exchanges name w₀ w = true) (h : Effect name w a w') : Exchanging name base w₀ w' := by
  cases h with
  | idle => exact hw
  | failed _ => exact ⟨hw.files, hw.replicas, hw.snapshots⟩
  | @loaded i actor ops _ hfile =>
    refine ⟨hw.files, ?_, ?_⟩
    · intro d r hd hr
      rcases Threads.getElem?_arrive hr with hr | ⟨_, rfl⟩
      · exact hw.replicas d r hd hr
      · exact hw.file hfile
    · intro k incoming hk hincoming
      obtain ⟨j, hj, hbetween⟩ := hw.snapshots k incoming hk hincoming
      exact ⟨j, origin_opened hj, hbetween⟩
  | @created i actor _ hnone =>
    obtain ⟨ops, hfile, _⟩ := hw.files i
    rw [fileOps_of_none hnone] at hfile
    cases hfile
  | put _ _ => cases hact
  | adopted hkind _ _ _ =>
    rcases hkind with rfl | ⟨e, rfl⟩ | ⟨k, rfl⟩ <;> cases hact
  | saved _ _ _ _ => cases hact
  | @taken d r hr =>
    refine ⟨hw.files, hw.replicas, fun k incoming hk hincoming => ?_⟩
    rcases snapshotOps_append hincoming with hold | ⟨rfl, hload⟩
    · obtain ⟨j, hj, hbetween⟩ := hw.snapshots k incoming hk hold
      exact ⟨j, origin_taken hj, hbetween⟩
    · refine ⟨r.store, ?_, ?_⟩
      · refine Option.bind_eq_some_iff.mpr ⟨(d, r.document.snapshot A), ?_, ?_⟩
        · show (w.snapshots ++ [_])[w.snapshots.length]? = _
          rw [List.getElem?_concat_length]
        · show w.replicas[d]?.map _ = _
          rw [hr]
          rfl
      · obtain ⟨ops, hload', hsame⟩ := hA r.ops
        obtain rfl := Option.some.inj ((loadFile_ok.mp hload).2.symm.trans hload')
        refine Between.congr ?_ hsame
        rcases Bool.or_eq_true_iff.mp hact with hbegun | hnow
        · exact hw.replicas d r hbegun hr
        · obtain ⟨ops, hfile, hops⟩ := upToDate_open hnow hr
          exact (hw.file hfile).congr hops
  | @merged i k store incoming ops' hk hstore hunion =>
    refine ⟨fun j => ?_, hw.replicas, hw.snapshots⟩
    show ∃ ops, (Function.update w.stores i store j).fileOps name = some ops ∧ _
    by_cases hj : j = i
    · subst hj
      rw [Function.update_self]
      refine ⟨ops', hstore, ?_⟩
      obtain ⟨_, _, _, hincoming⟩ := hw.snapshots k incoming (of_decide_eq_true hact) hk
      rcases hunion with ⟨hnone, _⟩ | ⟨current, hcurrent, hunion⟩
      · obtain ⟨ops, hfile, _⟩ := hw.files j
        rw [fileOps_of_none hnone] at hfile
        cases hfile
      · obtain ⟨hlow, hhigh⟩ := hw.file hcurrent
        refine ⟨fun o ho => (hunion o).mpr (Or.inl (hlow o ho)), fun o ho => ?_⟩
        exact ((hunion o).mp ho).elim (hhigh o) (hincoming o)
    · rw [Function.update_of_ne hj]
      exact hw.files j

/-- **After the exchange every store holds what any of them held.** -/
theorem exchange_complete (hA : A.Lawful) (hw : Sound name w H)
    (hbase : ∀ i, (w.stores i).fileOps name = some (base i)) {exchange : List (Act α ι)}
    (hexchange : Runs.Meets (step name) (fun v a => a.exchanges name w v = true) w exchange)
    (hrun : Runs.run (step name) w exchange = some w')
    (hall : ∀ i j, i ≠ j → ∃ k, (i, k) ∈ w'.merged ∧ w.snapshots.length ≤ k ∧
      w'.origin k = some j) :
    ∀ i, ∃ ops, (w'.stores i).fileOps name = some ops ∧ ∀ o, o ∈ ops ↔ ∃ j, o ∈ base j := by
  have hstart : Exchanging name base w w := by
    refine ⟨fun i => ⟨base i, hbase i, fun _ ho => ho, fun o ho => ⟨i, ho⟩⟩, ?_, ?_⟩
    · intro d r hd hr
      obtain ⟨ops, hfile, hops⟩ := upToDate_open hd hr
      obtain rfl := Option.some.inj (hfile.symm.trans (hbase r.store))
      exact ⟨fun o ho => (hops o).mpr ho, fun o ho => ⟨r.store, (hops o).mp ho⟩⟩
    · intro k incoming hk hincoming
      obtain ⟨s, hs, _⟩ := Option.bind_eq_some_iff.mp hincoming
      obtain ⟨hlt, _⟩ := List.getElem?_eq_some_iff.mp hs
      omega
  have hend : (∃ K, Sound name w' K) ∧ Exchanging name base w w' := by
    refine Runs.run_invariant (I := fun v => (∃ K, Sound name v K) ∧ Exchanging name base w v) ?_ exchange
      w w' ⟨⟨H, hw⟩, hstart⟩ hexchange hrun
    rintro v b v' ⟨⟨K, hK⟩, hv⟩ hb hstep
    have heffect := effect_of_step hA hK.path hstep
    obtain ⟨K', _, hK'⟩ := sound_step hA hK heffect
    exact ⟨⟨K', hK'⟩, exchanging_step hA hv hb heffect⟩
  obtain ⟨⟨K, hK⟩, hdone⟩ := hend
  intro i
  obtain ⟨ops, hfile, hlow, hhigh⟩ := hdone.files i
  refine ⟨ops, hfile, fun o => ⟨hhigh o, ?_⟩⟩
  rintro ⟨j, ho⟩
  by_cases hij : i = j
  · subst hij
    exact hlow o ho
  · obtain ⟨k, hmerged, hk, hj⟩ := hall i j hij
    obtain ⟨incoming, ops', hincoming, hfile', hsub⟩ := hK.merged i k hmerged
    obtain rfl := Option.some.inj (hfile.symm.trans hfile')
    obtain ⟨j', hj', hbetween⟩ := hdone.snapshots k incoming hk hincoming
    obtain rfl := Option.some.inj (hj.symm.trans hj')
    exact hsub o (hbetween.1 o ho)

/-! ### What a store answers -/

/-- `document` and then `get`: what a store answers for a key; `none` if `values` fails. -/
def StateStore.read (s : StateStore A) (name : String) (actor : α) (key : String) :
    Option (Except StateError (Option String)) :=
  match s.document name actor with
  | .error err => some (.error err)
  | .ok d => d.get A key

omit [DecidableEq ι] in
theorem read_of_fileOps {s : StateStore A} {ops : Ops α} (h : s.fileOps name = some ops) (actor : α)
    (key : String) :
    s.read name actor key = StateDocument.get A ⟨documentPath name, ⟨actor, ops⟩⟩ key := by
  unfold StateStore.read
  rw [document_of_fileOps h]

/-- With one map, a key that was put is answered, by a value that was put. -/
theorem read_oneMap (hH : Lawful H) {ops : Ops α} (hsub : ∀ o ∈ ops, H o)
    (hwritten : ∀ o ∈ ops, Written o) (hone : OneMap ops) {key : String} (hassigned : Assigned ops key)
    (d : StateDocument α) (hd : d.document.ops = ops) :
    ∃ value, d.get A key = some (.ok (some value)) ∧
      ∃ o ∈ ops, o.obj ≠ none ∧ o.key = key ∧ o.action = .set (.str value) := by
  obtain ⟨c, hc, hroot, hrest⟩ := hone
  obtain ⟨o, ho, hinside, rfl⟩ := hassigned
  obtain ⟨hvalues, hmap⟩ := valuesOf_oneMap (A := A) hH hsub hwritten hc hroot hrest
  have hobj : o.obj = some c.id := by
    rcases hrest o ho with rfl | hobj
    · exact absurd hroot hinside
    · exact hobj
  have hset : ∀ o' ∈ ops, o'.obj = some c.id → ∃ value, o'.action = .set (.str value) := by
    intro o' ho' hobj'
    rcases hwritten o' ho' with ⟨hnone, _⟩ | ⟨_, hset⟩
    · rw [hnone] at hobj'; cases hobj'
    · exact hset
  have hvisible : visible ops (some c.id) o.key ≠ [] := by
    rw [← hobj]
    refine visible_ne_nil hH hsub ho fun o' ho' hobj' _ => ?_
    obtain ⟨value, hvalue⟩ := hset o' ho' (hobj'.trans hobj)
    rw [hvalue]
    simp
  obtain ⟨winner, hwinner, hget⟩ := get_isSome (R := A.rule) hvisible
  obtain ⟨hmem, hobj', hkey, _⟩ := mem_visible.mp hwinner
  obtain ⟨value, hvalue⟩ := hset winner hmem hobj'
  refine ⟨value, ?_, winner, hmem, by rw [hobj']; simp, hkey, hvalue⟩
  unfold StateDocument.get StateDocument.values
  rw [hd, hvalues]
  simp only [Option.map_some, Automerge.get, hmap, if_true, hget, hvalue]

/-- **Replicas converge.**  After any run, if every store has the document and then every store merges a
snapshot of every other one, all stores answer every key alike; and if no step of the whole run merged
two copies with different maps `values`, every key that was put and saved has a value everywhere. -/
theorem replicas_converge (hA : A.Lawful) {acts exchange : List (Act α ι)}
    (hrun : Runs.run (step name) (World.new A ι) acts = some w)
    (hfiles : ∀ i, ((w.stores i).fileOps name).isSome)
    (hexchange : Runs.Meets (step name) (fun v a => a.exchanges name w v = true) w exchange)
    (hrun' : Runs.run (step name) w exchange = some w')
    (hall : ∀ i j, i ≠ j → ∃ k, (i, k) ∈ w'.merged ∧ w.snapshots.length ≤ k ∧
      w'.origin k = some j) :
    (∀ i j actor actor' key,
      (w'.stores i).read name actor key = (w'.stores j).read name actor' key) ∧
    (Runs.Meets (step name) (fun v a => sameMap name v a = true) (World.new A ι) (acts ++ exchange) →
      ∀ key ∈ w.saved, ∀ i actor,
        ∃ value, (w'.stores i).read name actor key = some (.ok (some value))) := by
  obtain ⟨H, hw⟩ := sound_run hA hrun
  choose base hbase using fun i => Option.isSome_iff_exists.mp (hfiles i)
  have hcomplete := exchange_complete hA hw hbase hexchange hrun' hall
  have hwhole := Runs.run_append acts exchange _ w w' hrun hrun'
  obtain ⟨K, hw'⟩ := sound_run hA hwhole
  constructor
  · intro i j actor actor' key
    obtain ⟨ops, hfile, hops⟩ := hcomplete i
    obtain ⟨ops', hfile', hops'⟩ := hcomplete j
    rw [read_of_fileOps hfile, read_of_fileOps hfile']
    exact StateDocument.get_congr hw'.lawful (hw'.copies ops (.file hfile))
      (fun o => (hops o).trans (hops' o).symm) key
  · intro hmeets key hkey i actor
    have hone : (∃ K, Sound name w' K) ∧ ∀ ops, Copy name w' ops → OneMap ops := by
      refine Runs.run_invariant (I := fun v => (∃ K, Sound name v K) ∧
        ∀ ops, Copy name v ops → OneMap ops) ?_ (acts ++ exchange) _ w' ⟨⟨_, sound_new⟩, ?_⟩
        hmeets hwhole
      · rintro v b v' ⟨⟨K, hK⟩, hv⟩ hok hstep
        have heffect := effect_of_step hA hK.path hstep
        obtain ⟨K', _, hK'⟩ := sound_step hA hK heffect
        exact ⟨⟨K', hK'⟩, oneMap_step hA hK hv hok heffect⟩
      · intro ops hcopy
        exact absurd hcopy copy_new
    obtain ⟨j, ops₀, hfile₀, hassigned⟩ := hw.saved key hkey
    obtain rfl := Option.some.inj ((hbase j).symm.trans hfile₀)
    obtain ⟨ops, hfile, hops⟩ := hcomplete i
    have hcopy : Copy name w' ops := .file hfile
    obtain ⟨value, hvalue, _⟩ := read_oneMap hw'.lawful (hw'.copies ops hcopy) (hw'.written hcopy)
      (hone.2 ops hcopy) (hassigned.mono fun o ho => (hops o).mpr ⟨j, ho⟩)
      ⟨documentPath name, ⟨actor, ops⟩⟩ rfl
    rw [read_of_fileOps hfile]
    exact ⟨value, hvalue⟩

/-! ### Sample runs

Two stores; a byte string is the list of operations it encodes. -/

def sampleAutomerge : Automerge ℕ := ⟨Ops ℕ, List.length, some, id, latest⟩

theorem sampleAutomerge_lawful : sampleAutomerge.Lawful := fun ops => ⟨ops, rfl, fun _ => Iff.rfl⟩

/-- A snapshot of each store is merged by the other, the snapshots `n` and `n + 1`: the first is of a document
opened for it, the second of the one that was saved. -/
def sampleExchange (n : ℕ) : List (Act ℕ Bool) :=
  [.document false 3, .snapshot 2, .snapshot 1, .mergeSnapshot false (n + 1), .mergeSnapshot true n]

/-- The first store begins, the second takes over its snapshot. -/
def sharedStart : List (Act ℕ Bool) :=
  [.document false 1, .put 0 "a" "1", .save 0, .snapshot 0, .mergeSnapshot true 0, .document true 2,
    .put 1 "b" "2", .save 1]

/-- Both stores begin on their own. -/
def separateStart : List (Act ℕ Bool) :=
  [.document false 1, .put 0 "a" "1", .save 0, .document true 2, .put 1 "b" "2", .save 1]

/-- What the sample runs are checked for: `n` snapshots, and a full exchange. -/
def exchangedAll (n : ℕ) (w w' : World sampleAutomerge Bool) : Bool :=
  (∀ i, ((w.stores i).fileOps "notes").isSome) ∧ w.snapshots.length = n ∧ w.saved = ["b", "a"] ∧
    Runs.Meets (step "notes") (fun v a => a.exchanges "notes" w v = true) w (sampleExchange n) ∧
    (false, n + 1) ∈ w'.merged ∧ (true, n) ∈ w'.merged ∧
    w'.origin n = some false ∧ w'.origin (n + 1) = some true

/-- With a shared start both keys are seen by both stores. -/
theorem shared_start_shows_all : ∃ w w' : World sampleAutomerge Bool,
    Runs.run (step "notes") (World.new sampleAutomerge Bool) sharedStart = some w ∧
    Runs.run (step "notes") w (sampleExchange 1) = some w' ∧ exchangedAll 1 w w' = true ∧
    (∀ key ∈ ["a", "b"], ∀ i,
      ∃ value, (w'.stores i).read "notes" 9 key = some (.ok (some value))) := by
  have heval : ((Runs.run (Runs.guarded (step "notes") (sameMap "notes"))
      (World.new sampleAutomerge Bool) sharedStart).bind fun w =>
        (Runs.run (Runs.guarded (step "notes") (sameMap "notes")) w (sampleExchange 1)).map fun w' =>
          exchangedAll 1 w w') = some true := by
    decide +kernel
  obtain ⟨w, hrun, heval⟩ := Option.bind_eq_some_iff.mp heval
  obtain ⟨w', hrun', hall⟩ := Option.map_eq_some_iff.mp heval
  obtain ⟨hmeets, _⟩ := Runs.run_guarded _ _ w' (Runs.run_append _ _ _ w w' hrun hrun')
  have hplain := (Runs.run_guarded _ _ w hrun).2
  have hplain' := (Runs.run_guarded _ _ w' hrun').2
  refine ⟨w, w', hplain, hplain', hall, ?_⟩
  obtain ⟨hfiles, hsnapshots, hsaved, hexchange, hfalse, htrue, horigin, horigin'⟩ :=
    of_decide_eq_true hall
  have hconverge := replicas_converge sampleAutomerge_lawful hplain hfiles hexchange hplain' (by
      rw [hsnapshots]
      intro i j hij
      cases i with
      | false =>
        cases j with
        | false => exact absurd rfl hij
        | true => exact ⟨2, hfalse, by decide, horigin'⟩
      | true =>
        cases j with
        | false => exact ⟨1, htrue, by decide, horigin⟩
        | true => exact absurd rfl hij)
  intro key hkey i
  refine hconverge.2 hmeets key ?_ i 9
  rw [hsaved]
  revert hkey
  simp only [List.mem_cons, List.not_mem_nil, or_false]
  exact Or.symm

/-- **Two maps.**  Both stores start from nothing, put one key each and save; after the full exchange
both answer that `a` was never put. -/
theorem second_map_hides : ∃ w w' : World sampleAutomerge Bool,
    Runs.run (step "notes") (World.new sampleAutomerge Bool) separateStart = some w ∧
    Runs.run (step "notes") w (sampleExchange 0) = some w' ∧ exchangedAll 0 w w' = true ∧
    "a" ∈ w.saved ∧ ∀ i, (w'.stores i).read "notes" 9 "a" = some (.ok none) := by
  have heval : ((Runs.run (step "notes") (World.new sampleAutomerge Bool) separateStart).bind fun w =>
      (Runs.run (step "notes") w (sampleExchange 0)).map fun w' =>
        decide (exchangedAll 0 w w' = true ∧ "a" ∈ w.saved ∧
          ∀ i, (w'.stores i).read "notes" 9 "a" = some (.ok none))) = some true := by
    decide +kernel
  obtain ⟨w, hrun, heval⟩ := Option.bind_eq_some_iff.mp heval
  obtain ⟨w', hrun', hall⟩ := Option.map_eq_some_iff.mp heval
  exact ⟨w, w', hrun, hrun', of_decide_eq_true hall⟩

end Peerless.State
