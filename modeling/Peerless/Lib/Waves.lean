import Mathlib.Data.List.Forall2
import Mathlib.Data.List.Destutter
import Mathlib.Data.List.Sort
import Peerless.Lib.Wire

/-!
# Pieces of work in waves

Pieces are handed to workers in waves: one piece for each worker, all at the same time.  When a wave is
over, its results are taken in order, and a piece whose first attempt failed is given to the other workers
one after the other.

* `runPieces_ok` — if it succeeds, the results are for the pieces in order, no worker got two
  first attempts in a wave, and every piece has an attempt that succeeded.
-/

namespace Waves

open Wire

variable {ε σ π α ρ : Type}

/-! ### Numbering -/

/-- A first attempt: a piece, its index, the wave and the worker. -/
structure Launch (π α : Type) where
  wave : ℕ
  index : ℕ
  worker : π
  piece : α

/-- The first attempts of a wave: at most one for each worker. -/
def launches (workers : List π) (pieces : List α) (wave : ℕ) : List (Launch π α) :=
  ((chunkAt workers.length pieces wave).zipIdx.zip workers).map fun x =>
    ⟨wave, wave * workers.length + x.1.2, x.2, x.1.1⟩

/-- How many waves there are. -/
def waveCount (workers : List π) (pieces : List α) : ℕ := divCeil pieces.length workers.length

theorem zipIdx_take (n : ℕ) (pieces : List α) (k : ℕ) :
    ((List.range k).flatMap fun w => (chunkAt n pieces w).zipIdx (w * n)) =
      (pieces.take (k * n)).zipIdx := by
  induction k with
  | zero => simp
  | succ k ih =>
    rw [List.range_succ, List.flatMap_append, ih, Nat.succ_mul, List.take_add, List.zipIdx_append]
    congr 1
    rw [List.flatMap_singleton, List.length_take, Nat.zero_add]
    rcases Nat.le_total (k * n) pieces.length with hle | hge
    · rw [Nat.min_eq_left hle]
      rfl
    · -- nothing is left, so the number does not matter
      rw [chunkAt, List.drop_eq_nil_of_le hge]
      simp

theorem launches_pieces (workers : List π) (pieces : List α) (w : ℕ) :
    (launches workers pieces w).map (fun l => (l.piece, l.index)) =
      (chunkAt workers.length pieces w).zipIdx (w * workers.length) := by
  have hlength : (chunkAt workers.length pieces w).zipIdx.length ≤ workers.length := by
    rw [List.length_zipIdx, chunkAt_length]
    omega
  rw [List.zipIdx_eq_map_add, ← List.map_fst_zip hlength, launches, List.map_map, List.map_map]
  rfl

variable {workers : List π}

/-- **Over all waves, the indices are the positions in the list.** -/
theorem launches_flatMap (hworkers : workers ≠ []) (pieces : List α) :
    (((List.range (waveCount workers pieces)).flatMap (launches workers pieces)).map fun l =>
      (l.piece, l.index)) = pieces.zipIdx := by
  rw [List.map_flatMap]
  simp only [launches_pieces]
  rw [zipIdx_take, List.take_of_length_le]
  exact le_divCeil_mul (List.length_pos_iff.mpr hworkers)

theorem map_snd_zip_sublist {β γ : Type} : ∀ (xs : List β) (ys : List γ),
    ((xs.zip ys).map Prod.snd).Sublist ys := by
  intro xs
  induction xs with
  | nil => intro ys; exact List.nil_sublist ys
  | cons x xs ih =>
    intro ys
    cases ys with
    | nil => exact List.Sublist.slnil
    | cons y ys => exact (ih ys).cons_cons y

theorem launches_workers (workers : List π) (pieces : List α) (w : ℕ) :
    ((launches workers pieces w).map fun l => (l.wave, l.worker)).Sublist (workers.map (Prod.mk w)) := by
  rw [launches, List.map_map]
  have hsub := (map_snd_zip_sublist (chunkAt workers.length pieces w).zipIdx workers).map (Prod.mk w)
  rwa [List.map_map] at hsub

theorem launches_nodup (hnodup : workers.Nodup) (pieces : List α) (k : ℕ) :
    (((List.range k).flatMap (launches workers pieces)).map fun l => (l.wave, l.worker)).Nodup := by
  rw [List.map_flatMap, List.nodup_flatMap]
  constructor
  · intro w _
    exact (launches_workers workers pieces w).nodup (hnodup.map fun _ _ h => (Prod.mk.inj h).2)
  · refine List.Pairwise.imp ?_ List.nodup_range
    intro w w' hne x hx hx'
    obtain ⟨_, _, rfl⟩ := List.mem_map.mp ((launches_workers workers pieces w).subset hx)
    obtain ⟨_, _, h⟩ := List.mem_map.mp ((launches_workers workers pieces w').subset hx')
    exact hne (Prod.mk.inj h).1.symm

variable {l : Launch π α}

theorem launches_worker_mem {pieces : List α} {w : ℕ} (hl : l ∈ launches workers pieces w) :
    l.worker ∈ workers := by
  have hmem := (launches_workers workers pieces w).subset
    (List.mem_map_of_mem (f := fun l : Launch π α => (l.wave, l.worker)) hl)
  obtain ⟨worker, hworker, h⟩ := List.mem_map.mp hmem
  rw [← (Prod.mk.inj h).2]
  exact hworker

/-! ### The procedure -/

/-- An attempt that was made. -/
structure Attempt (π : Type) where
  wave : ℕ
  index : ℕ
  worker : π
  first : Bool
  ok : Bool
  deriving DecidableEq

/-- The world, every attempt so far, and the results so far. -/
structure Progress (σ π ρ : Type) where
  world : σ
  attempts : List (Attempt π)
  results : List ρ

/-- How attempts are made.  `spawn` runs the first attempts of a wave together and returns the result of
each, unless something went wrong with the wave itself; `credit` is what is done for the worker whose
result is taken. -/
structure Crew (ε σ π α ρ : Type) where
  spawn : List (Launch π α) → σ → Except ε (Launch π α → Except ε ρ) × σ
  retry : Launch π α → π → σ → Except ε ρ × σ
  credit : π → σ → σ

namespace Crew

variable [DecidableEq π] (crew : Crew ε σ π α ρ) (workers : List π) (pieces : List α)

/-- A failed piece is given to one worker after the other. -/
def recover (l : Launch π α) : List π → Progress σ π ρ → Option (ρ × π) × Progress σ π ρ
  | [], s => (none, s)
  | worker :: rest, s =>
    match crew.retry l worker s.world with
    | (.ok result, world) =>
      (some (result, worker),
        { s with world := world, attempts := s.attempts ++ [⟨l.wave, l.index, worker, false, true⟩] })
    | (.error _, world) =>
      recover l rest
        { s with world := world, attempts := s.attempts ++ [⟨l.wave, l.index, worker, false, false⟩] }

/-- A result is taken. -/
def take (s : Progress σ π ρ) (result : ρ) (worker : π) : Progress σ π ρ :=
  { s with world := crew.credit worker s.world, results := s.results ++ [result] }

/-- One piece after its wave: if no other worker has a result, the first error counts. -/
def settle (l : Launch π α) (initial : Except ε ρ) (s : Progress σ π ρ) :
    Except ε Unit × Progress σ π ρ :=
  match initial with
  | .ok result => (.ok (), crew.take s result l.worker)
  | .error err =>
    match crew.recover l (workers.filter fun worker => worker ≠ l.worker) s with
    | (some (result, worker), s') => (.ok (), crew.take s' result worker)
    | (none, s') => (.error err, s')

/-- The pieces of a wave, in order. -/
def settleAll (initial : Launch π α → Except ε ρ) :
    List (Launch π α) → Progress σ π ρ → Except ε Unit × Progress σ π ρ
  | [], s => (.ok (), s)
  | l :: rest, s =>
    match crew.settle workers l (initial l) s with
    | (.ok (), s') => settleAll initial rest s'
    | (.error err, s') => (.error err, s')

/-- A wave. -/
def runWave (wave : ℕ) (s : Progress σ π ρ) : Except ε Unit × Progress σ π ρ :=
  match crew.spawn (launches workers pieces wave) s.world with
  | (.error err, world) => (.error err, { s with world := world })
  | (.ok initial, world) =>
    crew.settleAll workers initial (launches workers pieces wave)
      { s with
        world := world
        attempts := s.attempts ++ (launches workers pieces wave).map fun l =>
          ⟨l.wave, l.index, l.worker, true, (initial l).isOk⟩ }

def runWaves : List ℕ → Progress σ π ρ → Except ε Unit × Progress σ π ρ
  | [], s => (.ok (), s)
  | wave :: rest, s =>
    match crew.runWave workers pieces wave s with
    | (.ok (), s') => runWaves rest s'
    | (.error err, s') => (.error err, s')

/-- **The whole procedure.** -/
def runPieces (world : σ) : Except ε Unit × Progress σ π ρ :=
  crew.runWaves workers pieces (List.range (waveCount workers pieces)) ⟨world, [], []⟩

end Crew

/-! ### What a success shows -/

/-- A result that an attempt returns is good for the piece. -/
structure Crew.Sound (crew : Crew ε σ π α ρ) (Good : ℕ → α → ρ → Prop) : Prop where
  spawn : ∀ ls s initial s', crew.spawn ls s = (.ok initial, s') →
    ∀ l ∈ ls, ∀ result, initial l = .ok result → Good l.index l.piece result
  retry : ∀ l worker s result s', crew.retry l worker s = (.ok result, s') → Good l.index l.piece result

/-- An attempt on the piece of this index succeeded. -/
def Succeeded (workers : List π) (attempts : List (Attempt π)) (index : ℕ) : Prop :=
  ∃ a ∈ attempts, a.index = index ∧ a.worker ∈ workers ∧ a.ok = true

theorem Succeeded.append {attempts : List (Attempt π)} {index : ℕ} (h : Succeeded workers attempts index)
    (new : List (Attempt π)) : Succeeded workers (attempts ++ new) index := by
  obtain ⟨a, ha, hrest⟩ := h
  exact ⟨a, List.mem_append_left new ha, hrest⟩

/-- **What a part of the procedure does**: the launches it makes, and the pieces it has results for. -/
structure Advance (workers : List π) (Good : ℕ → α → ρ → Prop) (s s' : Progress σ π ρ)
    (launched served : List (Launch π α)) : Prop where
  attempts : ∃ new, s'.attempts = s.attempts ++ new ∧
    (new.filter Attempt.first).map (fun a => (a.wave, a.worker)) =
      launched.map fun l => (l.wave, l.worker)
  results : ∃ new, s'.results = s.results ++ new ∧
    List.Forall₂ (fun l result => Good l.index l.piece result) served new
  succeeded : ∀ l ∈ served, Succeeded workers s'.attempts l.index

namespace Advance

variable {workers : List π} {Good : ℕ → α → ρ → Prop} {s t u : Progress σ π ρ}

theorem refl (s : Progress σ π ρ) : Advance workers Good s s ([] : List (Launch π α)) [] :=
  ⟨⟨[], (List.append_nil _).symm, rfl⟩, ⟨[], (List.append_nil _).symm, .nil⟩, fun _ h => nomatch h⟩

theorem trans {launched launched' served served' : List (Launch π α)}
    (h : Advance workers Good s t launched served) (h' : Advance workers Good t u launched' served') :
    Advance workers Good s u (launched ++ launched') (served ++ served') := by
  obtain ⟨new, hnew, hfirst⟩ := h.attempts
  obtain ⟨new', hnew', hfirst'⟩ := h'.attempts
  obtain ⟨results, hresults, hgood⟩ := h.results
  obtain ⟨results', hresults', hgood'⟩ := h'.results
  refine ⟨⟨new ++ new', ?_, ?_⟩, ⟨results ++ results', ?_, List.rel_append hgood hgood'⟩, ?_⟩
  · rw [hnew', hnew, List.append_assoc]
  · rw [List.filter_append, List.map_append, hfirst, hfirst', List.map_append]
  · rw [hresults', hresults, List.append_assoc]
  · intro l hl
    rcases List.mem_append.mp hl with hl | hl
    · rw [hnew']
      exact (h.succeeded l hl).append new'
    · exact h'.succeeded l hl

end Advance

section Runs

variable {crew : Crew ε σ π α ρ} {workers : List π} {pieces : List α} {Good : ℕ → α → ρ → Prop}

/-- **A recovered piece**: a later attempt on one of the workers succeeded. -/
theorem recover_some (hsound : crew.Sound Good) {result : ρ} {worker : π} :
    ∀ (others : List π) (s s' : Progress σ π ρ), crew.recover l others s = (some (result, worker), s') →
      Good l.index l.piece result ∧ worker ∈ others ∧ s'.results = s.results ∧
        ∃ new, s'.attempts = s.attempts ++ new ∧ new.filter Attempt.first = [] ∧
          ⟨l.wave, l.index, worker, false, true⟩ ∈ new := by
  intro others
  induction others with
  | nil => intro s s' h; cases h
  | cons other others ih =>
    intro s s' h
    rw [Crew.recover] at h
    split at h
    · rename_i found world hretry
      obtain ⟨hfound, rfl⟩ := Prod.mk.inj h
      obtain ⟨rfl, rfl⟩ := Prod.mk.inj (Option.some.inj hfound)
      exact ⟨hsound.retry l other s.world found world hretry, List.mem_cons_self, rfl,
        [_], rfl, rfl, List.mem_singleton_self _⟩
    · obtain ⟨hgood, hworker, hresults, new, hnew, hfirst, hmem⟩ := ih _ s' h
      refine ⟨hgood, List.mem_cons_of_mem _ hworker, hresults,
        ⟨l.wave, l.index, other, false, false⟩ :: new, ?_, ?_, List.mem_cons_of_mem _ hmem⟩
      · rw [hnew, List.append_assoc]
        rfl
      · exact hfirst

variable [DecidableEq π]

variable {s' : Progress σ π ρ}

theorem settle_ok (hsound : crew.Sound Good) {initial : Except ε ρ} {s : Progress σ π ρ}
    (hinitial : ∀ result, initial = .ok result →
      Good l.index l.piece result ∧ Succeeded workers s.attempts l.index)
    (h : crew.settle workers l initial s = (.ok (), s')) : Advance workers Good s s' [] [l] := by
  unfold Crew.settle at h
  split at h
  · rename_i result
    obtain ⟨-, rfl⟩ := Prod.mk.inj h
    obtain ⟨hgood, hsucceeded⟩ := hinitial result rfl
    refine ⟨⟨[], (List.append_nil _).symm, rfl⟩, ⟨[result], rfl, .cons hgood .nil⟩, ?_⟩
    intro l' hl'
    rw [List.mem_singleton.mp hl']
    exact hsucceeded
  · split at h
    · rename_i result worker t hrecover
      obtain ⟨-, rfl⟩ := Prod.mk.inj h
      obtain ⟨hgood, hworker, hresults, new, hnew, hfirst, hmem⟩ := recover_some hsound _ s t hrecover
      refine ⟨⟨new, hnew, by rw [hfirst]; rfl⟩, ⟨[result], ?_, .cons hgood .nil⟩, ?_⟩
      · show t.results ++ [result] = _
        rw [hresults]
      · intro l' hl'
        rw [List.mem_singleton.mp hl']
        refine ⟨⟨l.wave, l.index, worker, false, true⟩, ?_, rfl, (List.mem_filter.mp hworker).1, rfl⟩
        show _ ∈ t.attempts
        rw [hnew]
        exact List.mem_append_right _ hmem
    · cases h

theorem settleAll_ok (hsound : crew.Sound Good) {initial : Launch π α → Except ε ρ} :
    ∀ (ls : List (Launch π α)) (s s' : Progress σ π ρ),
      (∀ l ∈ ls, ∀ result, initial l = .ok result →
        Good l.index l.piece result ∧ Succeeded workers s.attempts l.index) →
      crew.settleAll workers initial ls s = (.ok (), s') → Advance workers Good s s' [] ls := by
  intro ls
  induction ls with
  | nil =>
    intro s s' _ h
    obtain ⟨-, rfl⟩ := Prod.mk.inj h
    exact .refl s
  | cons l ls ih =>
    intro s s' hinitial h
    rw [Crew.settleAll] at h
    split at h
    · rename_i t hsettle
      have hone := settle_ok hsound (hinitial l List.mem_cons_self) hsettle
      obtain ⟨new, hnew, _⟩ := hone.attempts
      refine hone.trans (ih t s' ?_ h)
      intro l' hl' result hresult
      obtain ⟨hgood, hsucceeded⟩ := hinitial l' (List.mem_cons_of_mem _ hl') result hresult
      rw [hnew]
      exact ⟨hgood, hsucceeded.append new⟩
    · cases h

theorem runWave_ok (hsound : crew.Sound Good) {wave : ℕ} {s : Progress σ π ρ}
    (h : crew.runWave workers pieces wave s = (.ok (), s')) :
    Advance workers Good s s' (launches workers pieces wave) (launches workers pieces wave) := by
  unfold Crew.runWave at h
  split at h
  · cases h
  · rename_i initial world hspawn
    have hspawned : Advance workers Good s { s with
        world := world
        attempts := s.attempts ++ (launches workers pieces wave).map fun l =>
          ⟨l.wave, l.index, l.worker, true, (initial l).isOk⟩ } (launches workers pieces wave) [] := by
      refine ⟨⟨_, rfl, ?_⟩, ⟨[], (List.append_nil _).symm, .nil⟩, fun _ h => nomatch h⟩
      rw [List.filter_eq_self.mpr, List.map_map]
      · rfl
      · intro a ha
        obtain ⟨l, _, rfl⟩ := List.mem_map.mp ha
        rfl
    have hsettled := settleAll_ok hsound _ _ _ (fun l hl result hresult => ?_) h
    · have hall := hspawned.trans hsettled
      rwa [List.append_nil, List.nil_append] at hall
    · refine ⟨hsound.spawn _ _ _ _ hspawn l hl result hresult, ?_⟩
      refine ⟨_, List.mem_append_right _ (List.mem_map_of_mem hl), rfl, launches_worker_mem hl, ?_⟩
      show (initial l).isOk = true
      rw [hresult]
      rfl

theorem runWaves_ok (hsound : crew.Sound Good) : ∀ (waves : List ℕ) (s s' : Progress σ π ρ),
    crew.runWaves workers pieces waves s = (.ok (), s') →
      Advance workers Good s s' (waves.flatMap (launches workers pieces))
        (waves.flatMap (launches workers pieces)) := by
  intro waves
  induction waves with
  | nil =>
    intro s s' h
    obtain ⟨-, rfl⟩ := Prod.mk.inj h
    exact .refl s
  | cons wave waves ih =>
    intro s s' h
    rw [Crew.runWaves] at h
    split at h
    · rename_i t hwave
      rw [List.flatMap_cons]
      exact (runWave_ok hsound hwave).trans (ih t s' h)
    · cases h

theorem forall₂_zipIdx {results : List ρ}
    (h : List.Forall₂ (fun x result => Good x.2 x.1 result) pieces.zipIdx results) :
    results.length = pieces.length ∧ ∀ i piece result, pieces[i]? = some piece →
      results[i]? = some result → Good i piece result := by
  obtain ⟨hlength, hget⟩ := List.forall₂_iff_get.mp h
  rw [List.length_zipIdx] at hlength
  refine ⟨hlength.symm, ?_⟩
  intro i piece result hpiece hresult
  obtain ⟨hi, rfl⟩ := List.getElem?_eq_some_iff.mp hpiece
  obtain ⟨hi', rfl⟩ := List.getElem?_eq_some_iff.mp hresult
  have hgood := hget i (by rw [List.length_zipIdx]; exact hi) hi'
  simpa using hgood

/-- **A success covers the pieces in order**: the `i`-th result is good for the `i`-th piece, no worker had
two first attempts in one wave, and an attempt on every piece succeeded. -/
theorem runPieces_ok (hsound : crew.Sound Good) (hworkers : workers ≠ []) (hnodup : workers.Nodup)
    {world : σ} (h : crew.runPieces workers pieces world = (.ok (), s')) :
    (s'.results.length = pieces.length ∧ ∀ i piece result, pieces[i]? = some piece →
        s'.results[i]? = some result → Good i piece result) ∧
      ((s'.attempts.filter Attempt.first).map fun a => (a.wave, a.worker)).Nodup ∧
      ∀ i < pieces.length, Succeeded workers s'.attempts i := by
  have hadvance := runWaves_ok hsound _ _ s' h
  have hpieces := launches_flatMap hworkers pieces
  refine ⟨?_, ?_, ?_⟩
  · obtain ⟨new, hnew, hgood⟩ := hadvance.results
    rw [hnew, List.nil_append]
    apply forall₂_zipIdx
    rw [← hpieces, List.forall₂_map_left_iff]
    exact hgood
  · obtain ⟨new, hnew, hfirst⟩ := hadvance.attempts
    rw [hnew, List.nil_append, hfirst]
    exact launches_nodup hnodup pieces _
  · intro i hi
    have hmem : (pieces[i], i) ∈ pieces.zipIdx := List.mk_mem_zipIdx_iff_getElem?.mpr
      (List.getElem?_eq_getElem hi)
    rw [← hpieces] at hmem
    obtain ⟨l, hl, heq⟩ := List.mem_map.mp hmem
    rw [← (Prod.mk.inj heq).2]
    exact hadvance.succeeded l hl

end Runs

end Waves
