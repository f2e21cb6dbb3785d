import Peerless.Identity.LoadOrGenerate
import Peerless.Sample

/-!
# One directory, one identity

The calls of `load_or_generate` on one directory, in every interleaving and with every failure.

* `one_directory_one_identity` — all calls that return `Ok` return one identity, and a later
  call without failures returns it as well.
-/

namespace Peerless.Identity

open Text Files Threads Peerless.Core
open Storage (Path)

variable {P : Primitives} {F : KeyFormat P} {directory : Path}

/-- What a call has returned. -/
def Call.result (call : Call F) : Option (Except IdentityError (NodeIdentity P)) :=
  match call.point with
  | .returned result => some result
  | _ => none

theorem claim_of_result {call : Call F} {identity : NodeIdentity P}
    (h : call.result = some (.ok identity)) : call.claim = some identity := by
  obtain ⟨request, point, crashed⟩ := call
  cases point with
  | returned result =>
    obtain rfl := Option.some.inj h
    rfl
  | _ => cases h

/-! ### The invariant -/

/-- Every call has its own temporary file. -/
def Calls.Apart (directory : Path) : Calls F → Prop := Held (KeyScratch directory) id Call.hold

/-- The calls are apart, no file takes the place of the directory, and what calls claim is in place. -/
structure Calls.Sound (directory : Path) (pool : Calls F) : Prop where
  apart : pool.Apart directory
  real : pool.shared.lookup directory = none
  claims : ∀ (i : ℕ) call, pool.threads[i]? = some call → ∀ identity ∈ call.claim,
    InPlace F directory pool.shared identity

variable {fs : FileSystem Bytes UInt8}

theorem sound_start (hreal : fs.lookup directory = none) :
    Calls.Sound directory (⟨fs, []⟩ : Calls F) :=
  ⟨inv_nil trivial, hreal, fun _ _ h => by cases h⟩

variable {pool pool' : Calls F} {a : Act (Request P) Answer}

theorem Calls.Apart.step (h : pool.Apart directory) (hstep : pool.step directory a = some pool') :
    pool'.Apart directory := by
  refine held_step (fun _ => rfl) ?_ h hstep
  intro answer fs call fs' call' hnext
  obtain ⟨out, heffect, _⟩ := (next_moves hnext).effect
  exact ⟨out, heffect⟩

/-- **A key in its place stays there**: a link finds the place free. -/
theorem InPlace.step {fs' : FileSystem Bytes UInt8} {call call' : Call F} {identity : NodeIdentity P}
    (hkept : ∀ x ∈ call.hold, x.Kept (KeyScratch directory) fs)
    (hmoves : Moves directory fs call fs' call') (h : InPlace F directory fs identity) :
    InPlace F directory fs' identity := by
  obtain ⟨bytes, keypair, hread, hdecode, hidentity⟩ := h
  refine ⟨bytes, keypair, ?_, hdecode, hidentity⟩
  obtain ⟨out, heffect, hout⟩ := hmoves.effect
  rcases hout with ⟨rfl, _⟩ | ⟨rfl, _⟩
  · rw [heffect.read_eq hkept (not_keyScratch_keyPath directory) fun _ => by simp]
    exact hread
  · obtain ⟨_, _, _, hfree⟩ := heffect.read_target hkept
    rw [hfree rfl] at hread
    cases hread

theorem claim_inPlace (hF : F.Lawful) {fs' : FileSystem Bytes UInt8} {call call' : Call F}
    (hkept : ∀ x ∈ call.hold, x.Kept (KeyScratch directory) fs)
    (hmoves : Moves directory fs call fs' call')
    (hclaim : ∀ identity ∈ call.claim, InPlace F directory fs identity) :
    ∀ identity ∈ call'.claim, InPlace F directory fs' identity := by
  intro identity hidentity
  obtain ⟨out, heffect, hout⟩ := hmoves.effect
  rcases hout with ⟨_, hsame⟩ | ⟨rfl, key, hcontent, hnew⟩
  · rcases hsame identity hidentity with hbefore | hfound
    · exact (hclaim identity hbefore).step hkept hmoves
    · exact hfound.step hkept hmoves
  · obtain ⟨x, hx, hread, _⟩ := heffect.read_target hkept
    rw [hcontent x hx] at hread
    rw [hnew] at hidentity
    exact ⟨key.bytes, key.keypair, hread, hF.decode_encode _ _ key.encodes,
      (Option.some.inj hidentity).symm⟩

theorem Calls.Sound.step (hF : F.Lawful) (h : pool.Sound directory)
    (hstep : pool.step directory a = some pool') : pool'.Sound directory := by
  refine ⟨h.apart.step hstep, ?_, ?_⟩
  · rcases step_cases hstep with ⟨_, _, rfl⟩ | ⟨i, _, call, fs', call', _, hcall, hnext, rfl⟩
    · exact h.real
    · obtain ⟨out, heffect, hout⟩ := (next_moves hnext).effect
      have hother : ∀ manner, out ≠ some (manner, directory) := by
        intro manner hpublished
        rcases hout with ⟨rfl, _⟩ | ⟨rfl, _⟩
        · cases hpublished
        · have hlength : (keyPath directory).length = directory.length :=
            congrArg (fun published => published.2.length) (Option.some.inj hpublished)
          rw [keyPath, List.length_append, List.length_singleton] at hlength
          omega
      exact (heffect.lookup_eq (h.apart.each i call hcall) (not_keyScratch_directory directory) hother).trans
        h.real
  · intro j other hother
    rcases step_cases hstep with ⟨request, _, rfl⟩ | ⟨i, _, call, fs', call', _, hcall, hnext, rfl⟩
    · rcases getElem?_arrive hother with hold | ⟨_, rfl⟩
      · exact h.claims j other hold
      · intro identity hidentity
        cases hidentity
    · have hkept := h.apart.each i call hcall
      rcases getElem?_advance hother with ⟨_, rfl⟩ | ⟨_, hold⟩
      · exact claim_inPlace hF hkept (next_moves hnext) (h.claims i call hcall)
      · intro identity hidentity
        exact (h.claims j other hold identity hidentity).step hkept (next_moves hnext)

theorem sound_run (hF : F.Lawful) {acts : List (Act (Request P) Answer)} (h : pool.Sound directory)
    (hrun : Runs.run (Calls.step directory) pool acts = some pool') :
    pool'.Sound directory :=
  Runs.run_invariant' (fun _ _ _ hpool hstep => Calls.Sound.step hF hpool hstep) h hrun

/-! ### A call that finds a key -/

/-- The points of a call that finds a key in its place, with the steps that are left. -/
inductive OnTrack : Point F → ℕ → Prop
  | entered : OnTrack .entered 7
  | inspecting : OnTrack .inspecting 6
  | restricting : OnTrack .restricting 5
  | probing : OnTrack .probing 4
  | securing : OnTrack .securing 3
  | permitting : OnTrack .permitting 2
  | reading : OnTrack .reading 1
  | returned (identity : NodeIdentity P) : OnTrack (.returned (.ok identity)) 0

theorem InPlace.metadata {identity : NodeIdentity P} (h : InPlace F directory fs identity) :
    fs.metadata (keyPath directory) = .ok .file ∧ directory ∈ fs.directories := by
  obtain ⟨bytes, keypair, hread, _, _⟩ := h
  obtain ⟨inode, hinode, _⟩ := FileSystem.read_eq_some_iff.mp hread
  constructor
  · rw [FileSystem.metadata, hinode]
    rfl
  · have hhoused := FileSystem.lookup_housed hinode
    rwa [keyPath, List.dropLast_concat] at hhoused

variable {left : ℕ}

/-- **Where a key is in place, a call that meets no failure goes on to read it.** -/
theorem advance_onTrack {identity : NodeIdentity P} (hplace : InPlace F directory fs identity)
    (hreal : fs.lookup directory = none) {call : Call F} (h : OnTrack call.point (left + 1)) (count : ℕ) :
    ∃ fs' point, call.advance directory (.done count) fs = some (fs', point) ∧ OnTrack point left := by
  obtain ⟨hfile, hdirectory⟩ := hplace.metadata
  obtain ⟨bytes, keypair, hread, hdecode, _⟩ := hplace
  obtain ⟨request, point, crashed⟩ := call
  cases h with
  | entered => exact ⟨_, _, rfl, .inspecting⟩
  | inspecting =>
    have hkind : fs.metadata directory = .ok .directory := by
      rw [FileSystem.metadata, hreal, if_neg (by simp), if_pos hdirectory]
    refine ⟨fs, .restricting, ?_, .restricting⟩
    simp only [Call.advance, Answer.call, hkind]
  | restricting => exact ⟨_, _, rfl, .probing⟩
  | probing =>
    refine ⟨fs, .securing, ?_, .securing⟩
    simp only [Call.advance, Answer.call, hfile]
  | securing =>
    refine ⟨fs, .permitting, ?_, .permitting⟩
    simp only [Call.advance, Answer.call, hfile]
  | permitting => exact ⟨_, _, rfl, .reading⟩
  | reading =>
    refine ⟨fs, .returned (.ok (NodeIdentity.ofKeypair keypair)), ?_, .returned _⟩
    simp only [Call.advance, Answer.call, FileSystem.readFile, hread, Point.decoded, hdecode]

theorem next_onTrack {identity : NodeIdentity P} (hplace : InPlace F directory fs identity)
    (hreal : fs.lookup directory = none) {call : Call F} (hcrashed : call.crashed = false)
    (h : OnTrack call.point (left + 1)) (count : ℕ) :
    ∃ fs' call', call.next directory (.done count) fs = some (fs', call') ∧ call'.crashed = false ∧
      OnTrack call'.point left := by
  obtain ⟨fs', point, hadvance, htrack⟩ := advance_onTrack hplace hreal h count
  refine ⟨fs', { call with point := point }, ?_, hcrashed, htrack⟩
  rw [Call.next, hcrashed, hadvance]
  rfl

theorem next_returned {call : Call F} (hcrashed : call.crashed = false) (h : OnTrack call.point 0)
    (count : ℕ) : call.next directory (.done count) fs = none := by
  obtain ⟨request, point, crashed⟩ := call
  cases h
  rw [Call.next, hcrashed]
  rfl

/-- The steps a schedule gives to the call `j`. -/
def turnsOf (j : ℕ) (acts : List (Act (Request P) Answer)) : ℕ :=
  acts.countP fun
    | .arrive _ => false
    | .advance i _ => i = j

/-- The call `j` is on its way to read the key in its place. -/
structure Calls.Reading (directory : Path) (identity : NodeIdentity P) (j left : ℕ) (pool : Calls F) :
    Prop where
  sound : pool.Sound directory
  inPlace : InPlace F directory pool.shared identity
  call : ∃ call, pool.threads[j]? = some call ∧ call.crashed = false ∧ OnTrack call.point left

/-- **One step of an interleaving**: another call changes nothing for it. -/
theorem Calls.Reading.step (hF : F.Lawful) {identity : NodeIdentity P} {j : ℕ}
    (h : pool.Reading directory identity j left)
    (hanswer : ∀ answer, a = .advance j answer → ∃ count, answer = .done count)
    (hstep : pool.step directory a = some pool') :
    ∃ left', pool'.Reading directory identity j left' ∧ left' + turnsOf j [a] = left := by
  have hsound := h.sound.step hF hstep
  obtain ⟨call, hcall, hcrashed, htrack⟩ := h.call
  rcases step_cases hstep with ⟨request, rfl, rfl⟩ | ⟨i, answer, mover, fs', mover', rfl, hmover, hnext, rfl⟩
  · refine ⟨left, ⟨hsound, h.inPlace, call, ?_, hcrashed, htrack⟩, rfl⟩
    rw [List.getElem?_append_left (List.getElem?_eq_some_iff.mp hcall).1]
    exact hcall
  · have hplace := h.inPlace.step (h.sound.apart.each i mover hmover) (next_moves hnext)
    by_cases hij : i = j
    · subst hij
      obtain ⟨count, rfl⟩ := hanswer answer rfl
      rw [hmover, Option.some.injEq] at hcall
      subst hcall
      have hturn : turnsOf i ([.advance i (.done count)] : List (Act (Request P) Answer)) = 1 := by
        simp [turnsOf]
      cases left with
      | zero =>
        rw [next_returned hcrashed htrack] at hnext
        cases hnext
      | succ left =>
        obtain ⟨fs₁, call₁, hnext₁, hcrashed₁, htrack₁⟩ :=
          next_onTrack h.inPlace h.sound.real hcrashed htrack count
        rw [hnext₁] at hnext
        cases hnext
        refine ⟨left, ⟨hsound, hplace, _, ?_, hcrashed₁, htrack₁⟩, by rw [hturn]⟩
        rw [List.getElem?_set_self (List.getElem?_eq_some_iff.mp hmover).1]
    · have hturn : turnsOf j ([.advance i answer] : List (Act (Request P) Answer)) = 0 := by
        simp [turnsOf, hij]
      refine ⟨left, ⟨hsound, hplace, call, ?_, hcrashed, htrack⟩, by rw [hturn]; rfl⟩
      rw [List.getElem?_set_ne hij]
      exact hcall

/-- **Whole runs**: by induction on the schedule. -/
theorem Calls.Reading.run (hF : F.Lawful) {identity : NodeIdentity P} {j : ℕ} {final : Calls F} :
    ∀ (later : List (Act (Request P) Answer)) (left : ℕ) (pool : Calls F),
      pool.Reading directory identity j left →
      (∀ answer, .advance j answer ∈ later → ∃ count, answer = .done count) →
      Runs.run (Calls.step directory) pool later = some final →
      ∃ left', final.Reading directory identity j left' ∧ left' + turnsOf j later = left := by
  intro later
  induction later with
  | nil =>
    intro left pool h _ hrun
    obtain rfl := Option.some.inj hrun
    exact ⟨left, h, rfl⟩
  | cons a later ih =>
    intro left pool h hanswers hrun
    obtain ⟨pool₁, hstep, hrest⟩ := Runs.run_cons hrun
    obtain ⟨left₁, hreading, hleft₁⟩ := h.step hF
      (fun answer ha => hanswers answer (ha ▸ List.mem_cons_self)) hstep
    obtain ⟨left', hfinal, hleft'⟩ := ih left₁ pool₁ hreading
      (fun answer ha => hanswers answer (List.mem_cons_of_mem _ ha)) hrest
    refine ⟨left', hfinal, ?_⟩
    have hsplit : turnsOf j ([a] ++ later) = turnsOf j [a] + turnsOf j later := List.countP_append
    rw [← List.singleton_append]
    omega

/-! ### Agreement -/

/-- **One directory, one identity.**  Whatever the calls, their order and their failures, all that return
`Ok` return one identity.  Once one has, a later call whose own system calls do not fail is never stuck,
and returns that identity after seven of them. -/
theorem one_directory_one_identity (hF : F.Lawful) (directory : Path) (fs : FileSystem Bytes UInt8)
    (hreal : fs.lookup directory = none) (acts : List (Act (Request P) Answer)) (pool : Calls F)
    (hrun : Runs.run (Calls.step directory) ⟨fs, []⟩ acts = some pool) :
    (∀ (i j : ℕ) (call other : Call F) (identity identity' : NodeIdentity P),
      pool.threads[i]? = some call → pool.threads[j]? = some other →
      call.result = some (.ok identity) → other.result = some (.ok identity') →
      identity.nodeId = identity'.nodeId) ∧
    ∀ (i : ℕ) (call : Call F) (identity : NodeIdentity P), pool.threads[i]? = some call →
      call.result = some (.ok identity) →
      ∀ (request : Request P) (later : List (Act (Request P) Answer)) (final : Calls F),
        Runs.run (Calls.step directory) pool (.arrive request :: later) = some final →
        (∀ answer, .advance pool.threads.length answer ∈ later → ∃ count, answer = .done count) →
        ∃ call', final.threads[pool.threads.length]? = some call' ∧
          (turnsOf pool.threads.length later = 7 ∧
              (∃ identity', call'.result = some (.ok identity') ∧ identity'.nodeId = identity.nodeId) ∨
            turnsOf pool.threads.length later < 7 ∧
              ∀ count, (final.step directory (.advance pool.threads.length (.done count))).isSome) := by
  have hsound : pool.Sound directory := sound_run hF (sound_start hreal) hrun
  constructor
  · intro i j call other identity identity' hcall hother hresult hresult'
    have hplace := hsound.claims i call hcall identity (claim_of_result hresult)
    have hplace' := hsound.claims j other hother identity' (claim_of_result hresult')
    rw [hplace.unique hplace']
  · intro i call identity hcall hresult request later final hlater hanswers
    have hplace := hsound.claims i call hcall identity (claim_of_result hresult)
    obtain ⟨pool₁, hstep, hrest⟩ := Runs.run_cons hlater
    have harrived : pool₁ = ⟨pool.shared, pool.threads ++ [Call.start request]⟩ :=
      (Option.some.inj hstep).symm
    have hreading : pool₁.Reading directory identity pool.threads.length 7 := by
      refine ⟨hsound.step hF hstep, ?_, Call.start request, ?_, rfl, .entered⟩
      · rw [harrived]
        exact hplace
      · rw [harrived]
        exact List.getElem?_concat_length
    obtain ⟨left, hfinal, hleft⟩ := hreading.run hF later 7 pool₁ hanswers hrest
    obtain ⟨call', hcall', hcrashed, htrack⟩ := hfinal.call
    refine ⟨call', hcall', ?_⟩
    cases left with
    | zero =>
      obtain ⟨request', point, crashed⟩ := call'
      cases htrack with
      | returned identity' =>
        refine .inl ⟨by omega, identity', rfl, ?_⟩
        rw [(hfinal.sound.claims _ _ hcall' identity' rfl).unique hfinal.inPlace]
    | succ left =>
      refine .inr ⟨by omega, fun count => ?_⟩
      obtain ⟨fs', call₁, hnext, _⟩ := next_onTrack hfinal.inPlace hfinal.sound.real hcrashed htrack count
      rw [Calls.step, Threads.step, hcall']
      dsimp only
      rw [hnext]
      rfl

/-! ### A race -/

/-- Keys that are their own encoding. -/
def plainFormat : KeyFormat Sample.primitives := ⟨.ok, .ok⟩

theorem plainFormat_lawful : plainFormat.Lawful := by
  constructor
  intro keypair bytes h
  cases h
  rfl

/-- The directory of the race. -/
def raceDirectory : Path := [utf8 "identity"]

/-- A step of the call `i` that does not fail. -/
def go (i : ℕ) : Act (Request Sample.primitives) Answer := .advance i (.done 1)

/-- Two calls find no key; both write one, and the first links it. -/
def race : List (Act (Request Sample.primitives) Answer) :=
  [.arrive ⟨7, [1], .ok 5⟩, .arrive ⟨7, [2], .ok 6⟩] ++ [go 0, go 0, go 0, go 0, go 1, go 1, go 1, go 1] ++
    [go 0, go 0, go 0, go 1, go 1, go 1, go 0, go 1, go 1, go 1, go 1, go 1, go 0]

/-- The node ids the calls have returned. -/
def Calls.ids (pool : Calls F) : List (Option NodeId) :=
  pool.threads.map fun call => (call.result.bind Except.toOption).map NodeIdentity.nodeId

theorem result_of_ids {i : ℕ} {id : NodeId} (h : pool.ids[i]? = some (some id)) :
    ∃ call identity, pool.threads[i]? = some call ∧ call.result = some (.ok identity) := by
  rw [Calls.ids, List.getElem?_map] at h
  obtain ⟨call, hcall, hid⟩ := Option.map_eq_some_iff.mp h
  obtain ⟨identity, hbind, _⟩ := Option.map_eq_some_iff.mp hid
  obtain ⟨result, hresult, hok⟩ := Option.bind_eq_some_iff.mp hbind
  cases result with
  | error err => cases hok
  | ok found => exact ⟨call, found, hcall, hresult⟩

theorem race_agrees : ∃ pool call other identity identity',
    Runs.run (Calls.step (F := plainFormat) raceDirectory) ⟨.empty, []⟩ race = some pool ∧
    pool.threads[0]? = some call ∧ pool.threads[1]? = some other ∧
    call.result = some (.ok identity) ∧ other.result = some (.ok identity') ∧
    identity.nodeId = identity'.nodeId := by
  have heval : (Runs.run (Calls.step (F := plainFormat) raceDirectory) ⟨.empty, []⟩ race).map Calls.ids =
      some [some (Sample.member [1]), some (Sample.member [1])] := by
    decide +kernel
  obtain ⟨pool, hrun, hids⟩ := Option.map_eq_some_iff.mp heval
  obtain ⟨call, identity, hcall, hresult⟩ := result_of_ids (i := 0) (by rw [hids]; rfl)
  obtain ⟨other, identity', hother, hresult'⟩ := result_of_ids (i := 1) (by rw [hids]; rfl)
  exact ⟨pool, call, other, identity, identity', hrun, hcall, hother, hresult, hresult',
    (one_directory_one_identity plainFormat_lawful raceDirectory .empty rfl race pool hrun).1 0 1 call other
      identity identity' hcall hother hresult hresult'⟩

end Peerless.Identity
