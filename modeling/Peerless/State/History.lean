import Peerless.State.Replicas

/-!
# The history behind the copies

Whatever the stores do, the copies of a document they hold are parts of one history: no id is made
twice, everybody knows the operations it made itself, and nothing but the map `values` and strings in
such maps is ever assigned.
-/

namespace Peerless.State

open Text HashMap OpSet

variable {α ι : Type} [DecidableEq α] [DecidableEq ι] {A : Automerge α} {name : String}
  {w w' : World A ι} {a : Act α ι} {H : Op α String Scalar → Prop}

/-- A key of the document has been assigned to. -/
def Assigned (ops : Ops α) (key : String) : Prop := ∃ o ∈ ops, o.obj ≠ none ∧ o.key = key

/-- All copies are parts of one history, which only makes maps `values` and assigns strings in them;
every replica knows its own operations. -/
structure Sound (name : String) (w : World A ι) (H : Op α String Scalar → Prop) : Prop where
  lawful : Lawful H
  copies : ∀ ops, Copy name w ops → ∀ o ∈ ops, H o
  shape : ∀ o, H o → (o.obj = none ∧ o.key = "values" ∧ o.action = .makeMap) ∨
    (o.obj ≠ none ∧ ∃ value, o.action = .set (.str value))
  known : ∀ o, H o → o.id.actor ∈ w.actors
  path : ∀ (d : ℕ) r, w.replicas[d]? = some r → r.document.path = documentPath name
  actor : ∀ (d : ℕ) r, w.replicas[d]? = some r → r.actor ∈ w.actors
  own : ∀ (d : ℕ) r, w.replicas[d]? = some r → ∀ o, H o → o.id.actor = r.actor → o ∈ r.ops
  apart : ∀ (d e : ℕ) r r', d ≠ e → w.replicas[d]? = some r → w.replicas[e]? = some r' →
    r.actor ≠ r'.actor
  puts : ∀ (d : ℕ) r, w.replicas[d]? = some r → ∀ key ∈ r.puts, Assigned r.ops key
  saved : ∀ key ∈ w.saved, ∃ i ops, (w.stores i).fileOps name = some ops ∧ Assigned ops key
  merged : ∀ i k, (i, k) ∈ w.merged → ∃ incoming ops, w.snapshotOps k = some incoming ∧
    (w.stores i).fileOps name = some ops ∧ ∀ o ∈ incoming, o ∈ ops

omit [DecidableEq α] [DecidableEq ι] in
theorem copy_new {ops : Ops α} : ¬ Copy name (World.new A ι) ops := by
  intro hcopy
  cases hcopy with
  | replica h => simp [World.new] at h
  | file h => simp [World.new, StateStore.fileOps] at h
  | snapshot h => simp [World.new, World.snapshotOps] at h

omit [DecidableEq α] [DecidableEq ι] in
theorem sound_new : Sound name (World.new A ι) fun _ => False where
  lawful := ⟨fun _ _ h => h.elim, fun _ h => h.elim⟩
  copies := fun _ hcopy => absurd hcopy copy_new
  shape := fun _ h => h.elim
  known := fun _ h => h.elim
  path := fun _ _ h => by simp [World.new] at h
  actor := fun _ _ h => by simp [World.new] at h
  own := fun _ _ _ _ h => h.elim
  apart := fun _ _ _ _ _ h => by simp [World.new] at h
  puts := fun _ _ h => by simp [World.new] at h
  saved := fun _ h => by simp [World.new] at h
  merged := fun _ _ h => by simp [World.new] at h

omit [DecidableEq α] in
theorem Assigned.mono {ops ops' : Ops α} {key : String} (h : Assigned ops key)
    (hsub : ∀ o ∈ ops, o ∈ ops') : Assigned ops' key := by
  obtain ⟨o, ho, hrest⟩ := h
  exact ⟨o, hsub o ho, hrest⟩

variable {i : ι}

omit [DecidableEq α] in
/-- A store whose file has grown leaves every file at least as it was. -/
theorem update_grows {j : ι} {store : StateStore A} {ops ops' : Ops α}
    (hstore : store.fileOps name = some ops')
    (hgrows : ∀ ops, (w.stores j).fileOps name = some ops → ∀ o ∈ ops, o ∈ ops')
    (hfile : (w.stores i).fileOps name = some ops) :
    ∃ ops', (Function.update w.stores j store i).fileOps name = some ops' ∧ ∀ o ∈ ops, o ∈ ops' := by
  by_cases hi : i = j
  · subst hi
    rw [Function.update_self]
    exact ⟨ops', hstore, hgrows ops hfile⟩
  · rw [Function.update_of_ne hi]
    exact ⟨ops, hfile, fun _ ho => ho⟩

theorem files_step (h : Effect name w a w') {ops : Ops α} (hfile : (w.stores i).fileOps name = some ops) :
    ∃ ops', (w'.stores i).fileOps name = some ops' ∧ ∀ o ∈ ops, o ∈ ops' := by
  cases h with
  | @saved d r r' store ops' hr htakes hstore hsame =>
    refine update_grows hstore (fun ops₀ hfile₀ o ho => (hsame o).mpr ?_) hfile
    rcases htakes with ⟨hnone, _⟩ | ⟨ops₁, hfile₁, rfl⟩
    · rw [hnone] at hfile₀; cases hfile₀
    · obtain rfl := Option.some.inj (hfile₀.symm.trans hfile₁)
      exact Replica.mem_adopt.mpr (Or.inr ho)
  | merged _ hstore hunion => exact update_grows hstore (joined_grows hunion).1 hfile
  | _ => exact ⟨ops, hfile, fun _ ho => ho⟩

theorem snapshots_step (h : Effect name w a w') {k : ℕ} {ops : Ops α}
    (hk : w.snapshotOps k = some ops) : w'.snapshotOps k = some ops := by
  cases h with
  | @taken d r _ =>
    obtain ⟨s, hs, hload⟩ := Option.bind_eq_some_iff.mp hk
    refine Option.bind_eq_some_iff.mpr ⟨s, ?_, hload⟩
    show (w.snapshots ++ _)[k]? = some s
    obtain ⟨hlt, _⟩ := List.getElem?_eq_some_iff.mp hs
    rw [List.getElem?_append_left hlt]
    exact hs
  | _ => exact hk

/-- The new copies are parts of the history, with the operation the step made. -/
theorem copies_sound (hA : A.Lawful) (hw : Sound name w H) (h : Effect name w a w')
    {K : Op α String Scalar → Prop} (hHK : ∀ o, H o → K o)
    (hcreated : ∀ i actor, a = .document i actor → (w.stores i).lookup (documentPath name) = none →
      K (creation actor))
    (hput : ∀ d r key value obj, a = .put d key value → w.replicas[d]? = some r →
      valuesOf A r.ops = some obj →
      K (assign r.ops r.actor (some obj) key (.set (.str value)))) :
    ∀ ops, Copy name w' ops → ∀ o ∈ ops, K o := by
  intro ops' hcopy o ho
  rcases copies_step hA h hcopy with ⟨ops, hops, hsame⟩ | ⟨x, y, hx, hy, _, hunion⟩ |
    ⟨i, actor, ha, hnone, rfl⟩ | ⟨d, r, key, value, obj, ha, hr, hobj, rfl⟩
  · exact hHK o (hw.copies ops hops o ((hsame o).mp ho))
  · rcases (hunion o).mp ho with hox | hoy
    · exact hHK o (hw.copies x hx o hox)
    · exact hHK o (hw.copies y hy o hoy)
  · rw [List.mem_singleton.mp ho]
    exact hcreated i actor ha hnone
  · rcases List.mem_append.mp ho with ho | ho
    · exact hHK o (hw.copies _ (.replica hr) o ho)
    · rw [List.mem_singleton.mp ho]
      exact hput d r key value obj ha hr hobj

omit [DecidableEq α] [DecidableEq ι] in
/-- Steps that make no operation and keep the replicas, except for what they take in. -/
theorem Sound.carry (hw : Sound name w H) (hcopies : ∀ ops, Copy name w' ops → ∀ o ∈ ops, H o)
    (hactors : ∀ x ∈ w.actors, x ∈ w'.actors)
    (hreplicas : ∀ (d : ℕ) r', w'.replicas[d]? = some r' → ∃ r, w.replicas[d]? = some r ∧
      r'.actor = r.actor ∧ r'.document.path = r.document.path ∧ (∀ o ∈ r.ops, o ∈ r'.ops) ∧
      r'.puts = r.puts)
    (hsaved : ∀ key ∈ w'.saved, ∃ i ops, (w'.stores i).fileOps name = some ops ∧ Assigned ops key)
    (hmerged : ∀ i k, (i, k) ∈ w'.merged → ∃ incoming ops, w'.snapshotOps k = some incoming ∧
      (w'.stores i).fileOps name = some ops ∧ ∀ o ∈ incoming, o ∈ ops) :
    Sound name w' H where
  lawful := hw.lawful
  copies := hcopies
  shape := hw.shape
  known := fun o ho => hactors _ (hw.known o ho)
  path := by
    intro d r' hr'
    obtain ⟨r, hr, _, hpath, _⟩ := hreplicas d r' hr'
    exact hpath.trans (hw.path d r hr)
  actor := by
    intro d r' hr'
    obtain ⟨r, hr, hactor, _⟩ := hreplicas d r' hr'
    rw [hactor]
    exact hactors _ (hw.actor d r hr)
  own := by
    intro d r' hr' o ho hactor'
    obtain ⟨r, hr, hactor, _, hsub, _⟩ := hreplicas d r' hr'
    exact hsub o (hw.own d r hr o ho (hactor'.trans hactor))
  apart := by
    intro d e r₁ r₂ hde h₁ h₂
    obtain ⟨s₁, hs₁, hactor₁, _⟩ := hreplicas d r₁ h₁
    obtain ⟨s₂, hs₂, hactor₂, _⟩ := hreplicas e r₂ h₂
    rw [hactor₁, hactor₂]
    exact hw.apart d e s₁ s₂ hde hs₁ hs₂
  puts := by
    intro d r' hr' key hkey
    obtain ⟨r, hr, _, _, hsub, hputs⟩ := hreplicas d r' hr'
    rw [hputs] at hkey
    exact (hw.puts d r hr key hkey).mono hsub
  saved := hsaved
  merged := hmerged

omit [DecidableEq α] [DecidableEq ι] in
/-- A new replica, which knows whatever its new actor has made. -/
theorem Sound.open (hw : Sound name w H) {K : Op α String Scalar → Prop} {actor : α} {ops : Ops α}
    (hlawful : Lawful K)
    (hshape : ∀ o, K o → (o.obj = none ∧ o.key = "values" ∧ o.action = .makeMap) ∨
      (o.obj ≠ none ∧ ∃ value, o.action = .set (.str value)))
    (hnew : ∀ o, K o → H o ∨ (o.id.actor = actor ∧ o ∈ ops)) (hfresh : actor ∉ w.actors)
    (hcopies : ∀ ops', Copy name (w.opened name i actor ops) ops' → ∀ o ∈ ops', K o) :
    Sound name (w.opened name i actor ops) K where
  lawful := hlawful
  copies := hcopies
  shape := hshape
  known := by
    intro o ho
    rcases hnew o ho with ho | ⟨hactor, _⟩
    · exact List.mem_cons_of_mem _ (hw.known o ho)
    · rw [hactor]
      exact List.mem_cons_self
  path := by
    intro d r hr
    rcases Threads.getElem?_arrive hr with hr | ⟨_, rfl⟩
    · exact hw.path d r hr
    · rfl
  actor := by
    intro d r hr
    rcases Threads.getElem?_arrive hr with hr | ⟨_, rfl⟩
    · exact List.mem_cons_of_mem _ (hw.actor d r hr)
    · exact List.mem_cons_self
  own := by
    intro d r hr o ho hactor
    rcases Threads.getElem?_arrive hr with hr | ⟨_, rfl⟩
    · rcases hnew o ho with ho | ⟨hmine, _⟩
      · exact hw.own d r hr o ho hactor
      · exact absurd (hw.actor d r hr) (by rw [← hactor, hmine]; exact hfresh)
    · rcases hnew o ho with ho | ⟨_, hmem⟩
      · exact absurd (hw.known o ho) (by rw [hactor]; exact hfresh)
      · exact hmem
  apart := by
    intro d e r r' hde hr hr'
    rcases Threads.getElem?_arrive hr with hr | ⟨rfl, rfl⟩
    · rcases Threads.getElem?_arrive hr' with hr' | ⟨rfl, rfl⟩
      · exact hw.apart d e r r' hde hr hr'
      · intro heq
        have hmine : r.actor = actor := heq
        exact hfresh (hmine ▸ hw.actor d r hr)
    · rcases Threads.getElem?_arrive hr' with hr' | ⟨rfl, rfl⟩
      · intro heq
        have hmine : actor = r'.actor := heq
        exact hfresh (hmine ▸ hw.actor e r' hr')
      · exact absurd rfl hde
  puts := by
    intro d r hr key hkey
    rcases Threads.getElem?_arrive hr with hr | ⟨_, rfl⟩
    · exact hw.puts d r hr key hkey
    · cases hkey
  saved := hw.saved
  merged := hw.merged

omit [DecidableEq α] [DecidableEq ι] in
theorem replicas_update {d : ℕ} {r r' : Replica α ι} (hr : w.replicas[d]? = some r)
    (hactor : r'.actor = r.actor) (hpath : r'.document.path = r.document.path)
    (hsub : ∀ o ∈ r.ops, o ∈ r'.ops) (hputs : r'.puts = r.puts) :
    ∀ (e : ℕ) s', (w.replicas.set d r')[e]? = some s' → ∃ s, w.replicas[e]? = some s ∧
      s'.actor = s.actor ∧ s'.document.path = s.document.path ∧ (∀ o ∈ s.ops, o ∈ s'.ops) ∧
      s'.puts = s.puts := by
  intro e s' hs'
  rcases Threads.getElem?_advance hs' with ⟨rfl, rfl⟩ | ⟨_, hs⟩
  · exact ⟨r, hr, hactor, hpath, hsub, hputs⟩
  · exact ⟨s', hs, rfl, rfl, fun _ ho => ho, rfl⟩

omit [DecidableEq ι] in
/-- An assignment by a replica, which is the only one of its actor. -/
theorem Sound.put (hw : Sound name w H) {d : ℕ} {r : Replica α ι} {key value : String} {obj : OpId α}
    (hr : w.replicas[d]? = some r)
    (hcopies : ∀ ops, Copy name
      (w.update d (r.extend (assign r.ops r.actor (some obj) key (.set (.str value))) key)) ops →
      ∀ o ∈ ops, H o ∨ o = assign r.ops r.actor (some obj) key (.set (.str value))) :
    Sound name (w.update d (r.extend (assign r.ops r.actor (some obj) key (.set (.str value))) key))
      fun o => H o ∨ o = assign r.ops r.actor (some obj) key (.set (.str value)) where
  lawful := hw.lawful.assign (hw.copies _ (.replica hr)) (nextId_fresh (hw.own d r hr)) _ _ _
  copies := hcopies
  shape := by
    rintro o (ho | rfl)
    · exact hw.shape o ho
    · exact Or.inr ⟨by simp [assign], value, rfl⟩
  known := by
    rintro o (ho | rfl)
    · exact hw.known o ho
    · exact hw.actor d r hr
  path := by
    intro e s hs
    rcases Threads.getElem?_advance hs with ⟨_, rfl⟩ | ⟨_, hs⟩
    · exact hw.path d r hr
    · exact hw.path e s hs
  actor := by
    intro e s hs
    rcases Threads.getElem?_advance hs with ⟨_, rfl⟩ | ⟨_, hs⟩
    · exact hw.actor d r hr
    · exact hw.actor e s hs
  own := by
    intro e s hs o ho hactor
    rcases Threads.getElem?_advance hs with ⟨_, rfl⟩ | ⟨he, hs⟩
    · rcases ho with ho | rfl
      · exact List.mem_append_left _ (hw.own d r hr o ho hactor)
      · exact List.mem_append_right _ List.mem_cons_self
    · rcases ho with ho | rfl
      · exact hw.own e s hs o ho hactor
      · exact absurd hactor.symm (hw.apart e d s r he hs hr)
  apart := by
    intro e f s t hef hs ht
    rcases Threads.getElem?_advance hs with ⟨rfl, rfl⟩ | ⟨_, hs₀⟩
    · rcases Threads.getElem?_advance ht with ⟨rfl, _⟩ | ⟨_, ht⟩
      · exact absurd rfl hef
      · exact hw.apart e f r t hef hr ht
    · rcases Threads.getElem?_advance ht with ⟨rfl, rfl⟩ | ⟨_, ht⟩
      · exact hw.apart e f s r hef hs₀ hr
      · exact hw.apart e f s t hef hs₀ ht
  puts := by
    intro e s hs key' hkey'
    rcases Threads.getElem?_advance hs with ⟨_, rfl⟩ | ⟨_, hs⟩
    · rcases List.mem_cons.mp hkey' with rfl | hkey'
      · exact ⟨_, List.mem_append_right _ List.mem_cons_self, by simp [assign], rfl⟩
      · exact (hw.puts d r hr key' hkey').mono fun o ho => List.mem_append_left _ ho
    · exact hw.puts e s hs key' hkey'
  saved := hw.saved
  merged := hw.merged

/-- **One step keeps the copies parts of one history.** -/
theorem sound_step (hA : A.Lawful) (hw : Sound name w H) (h : Effect name w a w') :
    ∃ K, (∀ o, H o → K o) ∧ Sound name w' K := by
  have hfiles : ∀ key ∈ w.saved, ∃ i ops, (w'.stores i).fileOps name = some ops ∧
      Assigned ops key := by
    intro key hkey
    obtain ⟨i, ops, hfile, hassigned⟩ := hw.saved key hkey
    obtain ⟨ops', hfile', hsub⟩ := files_step h hfile
    exact ⟨i, ops', hfile', hassigned.mono hsub⟩
  have hmerges : ∀ i k, (i, k) ∈ w.merged → ∃ incoming ops, w'.snapshotOps k = some incoming ∧
      (w'.stores i).fileOps name = some ops ∧ ∀ o ∈ incoming, o ∈ ops := by
    intro i k hik
    obtain ⟨incoming, ops, hincoming, hfile, hsub⟩ := hw.merged i k hik
    obtain ⟨ops', hfile', hgrow⟩ := files_step h hfile
    exact ⟨incoming, ops', snapshots_step h hincoming, hfile', fun o ho => hgrow o (hsub o ho)⟩
  have hquiet : (∀ i actor, a ≠ .document i actor) → (∀ d key value, a ≠ .put d key value) →
      ∀ ops, Copy name w' ops → ∀ o ∈ ops, H o := by
    intro hdocument hput
    exact copies_sound hA hw h (fun _ ho => ho) (fun i actor ha => absurd ha (hdocument i actor))
      fun d _ key value _ ha => absurd ha (hput d key value)
  have hsame : ∀ (d : ℕ) r', w.replicas[d]? = some r' → ∃ r, w.replicas[d]? = some r ∧
      r'.actor = r.actor ∧ r'.document.path = r.document.path ∧ (∀ o ∈ r.ops, o ∈ r'.ops) ∧
      r'.puts = r.puts := fun d r' hr' => ⟨r', hr', rfl, rfl, fun _ ho => ho, rfl⟩
  cases h with
  | idle => exact ⟨H, fun _ ho => ho, hw⟩
  | failed hfresh =>
    refine ⟨H, fun _ ho => ho, hw.carry ?_ (fun x hx => List.mem_cons_of_mem _ hx) hsame hfiles
      hmerges⟩
    intro ops hcopy
    refine hw.copies ops ?_
    cases hcopy with
    | replica hr => exact .replica hr
    | file hfile => exact .file hfile
    | snapshot hk => exact .snapshot hk
  | @loaded i actor ops hfresh hfile =>
    refine ⟨H, fun _ ho => ho, hw.open hw.lawful hw.shape (fun o ho => Or.inl ho) hfresh ?_⟩
    refine copies_sound hA hw (.loaded hfresh hfile) (fun _ ho => ho) ?_ ?_
    · intro j actor' ha hnone
      cases ha
      rw [fileOps_of_none hnone] at hfile
      cases hfile
    · intro d r key value obj ha
      cases ha
  | @created i actor hfresh hnone =>
    have hlawful : Lawful fun o => H o ∨ o = creation actor := by
      refine hw.lawful.assign (d := []) (fun o ho => absurd ho (by simp)) (nextId_fresh ?_) _ _ _
      intro o ho hactor
      exact absurd (hactor ▸ hw.known o ho) hfresh
    refine ⟨_, fun _ ho => Or.inl ho, hw.open hlawful ?_ ?_ hfresh ?_⟩
    · rintro o (ho | rfl)
      · exact hw.shape o ho
      · exact Or.inl ⟨rfl, rfl, rfl⟩
    · rintro o (ho | rfl)
      · exact Or.inl ho
      · exact Or.inr ⟨rfl, List.mem_cons_self⟩
    · refine copies_sound hA hw (.created hfresh hnone) (fun _ ho => Or.inl ho) ?_ ?_
      · intro j actor' ha _
        cases ha
        exact Or.inr rfl
      · intro d r key value obj ha
        cases ha
  | @put d r key value obj hr hobj =>
    refine ⟨_, fun _ ho => Or.inl ho, hw.put hr ?_⟩
    refine copies_sound hA hw (.put hr hobj) (fun _ ho => Or.inl ho) ?_ ?_
    · intro j actor ha
      cases ha
    · intro e s key' value' obj' ha hs hobj'
      cases ha
      obtain rfl := Option.some.inj (hr.symm.trans hs)
      obtain rfl := Option.some.inj (hobj.symm.trans hobj')
      exact Or.inr rfl
  | @adopted _ d r ops hact hr hops hjoins =>
    refine ⟨H, fun _ ho => ho, hw.carry (hquiet ?_ ?_) (fun _ hx => hx)
      (replicas_update hr rfl rfl (fun o ho => Replica.mem_adopt.mpr (Or.inl ho)) rfl) hfiles
      hmerges⟩
    · rintro i actor rfl
      cases hjoins
    · rintro d key value rfl
      cases hjoins
  | @saved d r r' store ops' hr htakes hstore hunion =>
    have hr' : r'.actor = r.actor ∧ r'.document.path = r.document.path ∧
        (∀ o ∈ r.ops, o ∈ r'.ops) ∧ r'.puts = r.puts := by
      rcases htakes with ⟨_, rfl⟩ | ⟨ops, _, rfl⟩
      · exact ⟨rfl, rfl, fun _ ho => ho, rfl⟩
      · exact ⟨rfl, rfl, fun o ho => Replica.mem_adopt.mpr (Or.inl ho), rfl⟩
    obtain ⟨hactor, hpath, hsub, hputs⟩ := hr'
    refine ⟨H, fun _ ho => ho, hw.carry (hquiet (by simp) (by simp)) (fun _ hx => hx)
      (replicas_update hr hactor hpath hsub hputs) (fun key hkey => ?_) hmerges⟩
    rcases List.mem_append.mp hkey with hkey | hkey
    · refine ⟨r.store, ops', ?_, (hw.puts d r hr key hkey).mono fun o ho =>
        (hunion o).mpr (hsub o ho)⟩
      show (Function.update w.stores r.store store r.store).fileOps name = some ops'
      rw [Function.update_self]
      exact hstore
    · exact hfiles key hkey
  | taken hr =>
    exact ⟨H, fun _ ho => ho, hw.carry (hquiet (by simp) (by simp)) (fun _ hx => hx) hsame hfiles
      hmerges⟩
  | @merged i k store incoming ops' hk hstore hunion =>
    refine ⟨H, fun _ ho => ho, hw.carry (hquiet (by simp) (by simp)) (fun _ hx => hx) hsame hfiles
      fun j l hjl => ?_⟩
    rcases List.mem_cons.mp hjl with heq | hjl
    · obtain ⟨rfl, rfl⟩ := Prod.mk.inj heq
      refine ⟨incoming, ops', hk, ?_, (joined_grows hunion).2⟩
      show (Function.update w.stores j store j).fileOps name = some ops'
      rw [Function.update_self]
      exact hstore
    · exact hmerges j l hjl

theorem sound_run (hA : A.Lawful) {acts : List (Act α ι)}
    (hrun : Runs.run (step name) (World.new A ι) acts = some w) : ∃ H, Sound name w H := by
  refine Runs.run_invariant' (I := fun w => ∃ H, Sound name w H) ?_ ⟨_, sound_new⟩ hrun
  rintro v b v' ⟨H, hv⟩ hstep
  obtain ⟨K, _, hK⟩ := sound_step hA hv (effect_of_step hA hv.path hstep)
  exact ⟨K, hK⟩

end Peerless.State
