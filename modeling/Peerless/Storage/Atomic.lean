import Peerless.Storage.Draft

/-!
# Atomic publication

`atomic_replace` and `atomic_create` of `peerless-storage`: a file is written under a temporary name and
then takes its place by `rename`, or by `hard_link` where it must not replace anything.  Any number of
calls on one path interleave at every system call; every call may fail, and every process may end
between any two.

* `atomic_publication` — at every moment the path is as it was or holds the complete bytes of
  one caller, and of several `atomic_create` on an absent path at most one publishes.
-/

namespace Peerless.Storage

open Text Files Threads

inductive Operation where
  | replace
  | create
  deriving DecidableEq

/-- Where a call stands: `failed` is an error returned before the file took its place, `returned` what
is returned after it did. -/
inductive Point where
  | entered
  | preparing (draft : Draft)
  | unlinking (name : Path) (inode : ℕ)
  | syncing
  | failed (error : Error)
  | returned (result : Except Error Unit)

structure Request where
  process : Process
  operation : Operation
  bytes : Bytes

structure Call extends Request where
  point : Point
  crashed : Bool

def Call.start (request : Request) : Call := ⟨request, .entered, false⟩

/-- The name `unique_temporary` builds on. -/
def stem (path : Path) : Bytes := (path.fileName.bind toStr).getD (utf8 "data")

/-- A call goes on with its temporary file, or returns the error. -/
def prepared : Disk × Except Error Draft → Disk × Point
  | (disk, .ok draft) => (disk, .preparing draft)
  | (disk, .error error) => (disk, .failed error)

/-- `atomic_replace` and `atomic_create`, from one system call to the next.  The mode of the file is
left out: that a file cannot be opened or written is an answer of the environment. -/
def Call.advance (path : Path) (call : Call) (answer : Answer) (disk : Disk) : Option (Disk × Point) :=
  match call.point with
  | .entered =>
    match path.parent with
    | none => some (disk, .failed (.custom .invalidInput "path has no parent"))
    | some parent =>
      match answer with
      | .failed error => some (disk, .failed error)
      | _ => some ({ disk with files := disk.files.createDirAll parent }, .preparing .numbering)
  | .preparing (.ready name inode) =>
    match call.operation with
    | .replace =>
      match answer.call (disk.files.rename name path) with
      | .ok files => some ({ disk with files := files }, .syncing)
      | .error error => some (disk, .preparing (.discarding ⟨name, inode, call.bytes.length⟩ error))
    | .create =>
      match answer.call (disk.files.hardLink name path) with
      | .ok files => some ({ disk with files := files }, .unlinking name inode)
      | .error error => some (disk, .preparing (.discarding ⟨name, inode, call.bytes.length⟩ error))
  | .preparing draft =>
    some (prepared (prepare call.process path.dropLast (stem path) call.bytes answer disk draft))
  | .unlinking name _ =>
    match answer.call (disk.files.unlink name) with
    | .ok files => some ({ disk with files := files }, .syncing)
    | .error error => some (disk, .returned (.error error))
  | .syncing =>
    -- `sync_directory`
    match answer with
    | .failed error => some (disk, .returned (.error error))
    | _ => some (disk, .returned (.ok ()))
  | .failed _ => none
  | .returned _ => none

/-- The next system call of a call, or the end of its process. -/
def Call.next (path : Path) (answer : Answer) (disk : Disk) (call : Call) : Option (Disk × Call) :=
  if call.crashed then none
  else if answer = .crashed then some (disk, { call with crashed := true })
  else (call.advance path answer disk).map fun r => (r.1, { call with point := r.2 })

/-- The calls on one path. -/
abbrev Calls := Pool Disk Call

def Calls.step (path : Path) : Calls → Act Request Answer → Option Calls :=
  Threads.step Call.start (Call.next path)

/-! ### The temporary names -/

/-- The names `unique_temporary` tries for a path. -/
def Scratch (path : Path) (p : Path) : Prop :=
  ∃ pid sequence, p = path.dropLast ++ [temporaryName (stem path) pid sequence]

theorem temporaryName_length (stem : Bytes) (pid : UInt32) (sequence : UInt64) :
    stem.length < (temporaryName stem pid sequence).length := by
  unfold temporaryName
  simp only [List.length_append, List.length_cons]
  omega

theorem temporaryName_ascii {stem : Bytes} (h : ∀ x ∈ stem, x.toNat < 128) (pid : UInt32)
    (sequence : UInt64) : isUtf8 (temporaryName stem pid sequence) = true := by
  have hdecimal : ∀ n, ∀ x ∈ decimal n, x.toNat < 128 := by
    intro n x hx
    have hdigit := decimal_isDigit n x hx
    simp only [isDigit, Bool.and_eq_true, decide_eq_true_eq, UInt8.le_iff_toNat_le] at hdigit
    exact Nat.lt_of_le_of_lt hdigit.2 (by decide)
  apply isUtf8_of_ascii
  intro x hx
  simp only [temporaryName, List.mem_append, List.mem_cons] at hx
  rcases hx with (((rfl | hx) | rfl | hx) | rfl | hx) | hx
  · decide
  · exact h x hx
  · decide
  · exact hdecimal _ x hx
  · decide
  · exact hdecimal _ x hx
  · rw [show utf8 ".tmp" = [46, 116, 109, 112] from rfl] at hx
    simp only [List.mem_cons, List.not_mem_nil, or_false] at hx
    rcases hx with rfl | rfl | rfl | rfl <;> decide

/-- **No path is one of its own temporary names.**  A name that is text is shorter than they are; a name
that is not text is none of them, since they are; and `..` is not one. -/
theorem not_scratch (path : Path) : ¬Scratch path path := by
  rintro ⟨pid, sequence, hpath⟩
  generalize hname : temporaryName (stem path) pid sequence = name at hpath
  have hlast : path.getLast? = some name := by
    rw [hpath]
    exact List.getLast?_concat
  have hdata : isUtf8 (temporaryName (utf8 "data") pid sequence) = true := by
    refine temporaryName_ascii (fun x hx => ?_) pid sequence
    rw [show utf8 "data" = [100, 97, 116, 97] from rfl] at hx
    simp only [List.mem_cons, List.not_mem_nil, or_false] at hx
    rcases hx with rfl | rfl | rfl | rfl <;> decide
  unfold stem Path.fileName at hname
  rw [hlast] at hname
  by_cases hup : name = utf8 ".."
  · rw [hup, Option.filter_some, if_neg (by decide)] at hname
    have hlen := temporaryName_length (utf8 "data") pid sequence
    rw [show temporaryName (utf8 "data") pid sequence = utf8 ".." from hname] at hlen
    exact absurd hlen (by decide)
  · rw [Option.filter_some, if_pos (decide_eq_true hup), Option.bind_some, toStr] at hname
    split at hname
    · have hlen := temporaryName_length name pid sequence
      rw [show temporaryName name pid sequence = name from hname] at hlen
      exact absurd hlen (Nat.lt_irrefl _)
    · rename_i htext
      rw [show temporaryName (utf8 "data") pid sequence = name from hname] at hdata
      exact htext hdata

/-! ### What one step does -/

/-- The temporary file of a call. -/
def Call.hold (call : Call) : Option (Hold Bytes UInt8) :=
  match call.point with
  | .preparing draft => draft.hold call.bytes
  | .unlinking name inode => some ⟨name, inode, call.bytes, false⟩
  | _ => none

/-- The file of the call has taken its place. -/
def Call.published (call : Call) : Bool :=
  match call.point with
  | .unlinking _ _ => true
  | .syncing => true
  | .returned _ => true
  | _ => false

def Operation.manner : Operation → Manner
  | .replace => .rename
  | .create => .link

/-- A call goes on, with its request as it is: what it does to the files, and whether its file took its
place with it. -/
structure Moves (path : Path) (disk : Disk) (call : Call) (disk' : Disk) (call' : Call) : Prop where
  request : call'.toRequest = call.toRequest
  effect : ∃ out, Effect (Scratch path) disk.files call.hold out disk'.files call'.hold ∧
    ((out = none ∧ call'.published = call.published) ∨
      (out = some (call.operation.manner, path) ∧ (∀ x ∈ call.hold, x.content = call.bytes) ∧
        call.published = false ∧ call'.published = true))

variable {disk disk' : Disk} {point : Point}

theorem Moves.quiet {path : Path} {call : Call}
    (heffect : Effect (Scratch path) disk.files call.hold none disk'.files
      { call with point := point }.hold)
    (hpublished : { call with point := point }.published = call.published) :
    Moves path disk call disk' { call with point := point } :=
  ⟨rfl, none, heffect, .inl ⟨rfl, hpublished⟩⟩

variable {crashed : Bool}

/-- A `rename` or `hard_link` that failed: the temporary file is complete and is to be removed. -/
theorem refused_moves {path : Path} {request : Request} {name : Path} {inode : ℕ} {error : Error} :
    Moves path disk ⟨request, .preparing (.ready name inode), crashed⟩ disk
      ⟨request, .preparing (.discarding ⟨name, inode, request.bytes.length⟩ error), crashed⟩ := by
  refine .quiet ?_ rfl
  show Effect _ _ _ _ _ (some ⟨name, inode, request.bytes.take request.bytes.length, true⟩)
  rw [List.take_length]
  exact .idle _

theorem published_moves {path : Path} {request : Request} {name : Path} {inode : ℕ}
    {files : FileSystem Bytes UInt8}
    (heffect : Effect (Scratch path) disk.files (some ⟨name, inode, request.bytes, true⟩)
      (some (request.operation.manner, path)) files (Call.hold ⟨request, point, crashed⟩))
    (hpublished : Call.published ⟨request, point, crashed⟩ = true) :
    Moves path disk ⟨request, .preparing (.ready name inode), crashed⟩ { disk with files := files }
      ⟨request, point, crashed⟩ := by
  refine ⟨rfl, _, heffect, .inr ⟨rfl, ?_, rfl, hpublished⟩⟩
  intro x hx
  cases hx
  rfl

/-- The calls for the temporary file publish nothing. -/
theorem prepare_moves {path : Path} {request : Request} {draft : Draft} (answer : Answer)
    (h : prepared (prepare request.process path.dropLast (stem path) request.bytes answer disk draft) =
      (disk', point)) :
    Moves path disk ⟨request, .preparing draft, crashed⟩ disk' ⟨request, point, crashed⟩ := by
  have heffect : Effect (Scratch path) disk.files (draft.hold request.bytes) none _ _ :=
    prepare_effect (fun sequence => ⟨request.process.pid, sequence, rfl⟩) answer disk draft
  generalize prepare request.process path.dropLast (stem path) request.bytes answer disk draft = r
    at h heffect
  obtain ⟨disk₁, result⟩ := r
  cases result with
  | ok draft' => cases h; exact .quiet heffect rfl
  | error error => cases h; exact .quiet heffect rfl

theorem advance_moves {path : Path} {call : Call} {answer : Answer}
    (h : call.advance path answer disk = some (disk', point)) :
    Moves path disk call disk' { call with point := point } := by
  obtain ⟨request, before, crashed⟩ := call
  unfold Call.advance at h
  cases before with
  | entered =>
    dsimp only at h
    split at h
    · cases h
      exact .quiet (.idle none) rfl
    · rename_i parent hparent
      split at h
      · cases h
        exact .quiet (.idle none) rfl
      · cases h
        exact .quiet (.makeDirectory none parent) rfl
  | preparing draft =>
    cases draft with
    | numbering => exact prepare_moves answer (Option.some.inj h)
    | creating sequence => exact prepare_moves answer (Option.some.inj h)
    | writing file => exact prepare_moves answer (Option.some.inj h)
    | discarding file error => exact prepare_moves answer (Option.some.inj h)
    | ready name inode =>
      dsimp only at h
      split at h
      · rename_i hoperation
        split at h
        · rename_i files hrename
          cases h
          refine published_moves ?_ rfl
          rw [hoperation]
          exact .rename (not_scratch path) (Answer.call_ok hrename)
        · cases h
          exact refused_moves
      · rename_i hoperation
        split at h
        · rename_i files hlink
          cases h
          refine published_moves ?_ rfl
          rw [hoperation]
          exact .link (not_scratch path) (Answer.call_ok hlink)
        · cases h
          exact refused_moves
  | unlinking name inode =>
    dsimp only at h
    split at h
    · rename_i files hremove
      cases h
      exact .quiet (.remove (Answer.call_ok hremove)) rfl
    · cases h
      exact .quiet (.release _) rfl
  | syncing =>
    dsimp only at h
    split at h
    · cases h
      exact .quiet (.idle none) rfl
    · cases h
      exact .quiet (.idle none) rfl
  | failed error => cases h
  | returned result => cases h

variable {call' : Call}

theorem next_moves {path : Path} {call : Call} {answer : Answer}
    (h : call.next path answer disk = some (disk', call')) : Moves path disk call disk' call' := by
  unfold Call.next at h
  split at h
  · cases h
  · split at h
    · cases h
      exact ⟨rfl, none, .idle _, .inl ⟨rfl, rfl⟩⟩
    · obtain ⟨⟨disk₁, point⟩, hadvance, hr⟩ := Option.map_eq_some_iff.mp h
      cases hr
      exact advance_moves hadvance

/-! ### What every interleaving does -/

/-- Every call has its own temporary file. -/
def Calls.Apart (path : Path) : Calls → Prop := Held (Scratch path) Disk.files Call.hold

/-- The bytes at the path, or that it is absent. -/
def Calls.read (path : Path) (pool : Calls) : Option Bytes := pool.shared.files.read path

variable {pool pool' : Calls} {a : Act Request Answer}

theorem Calls.Apart.step {path : Path} (h : pool.Apart path) (hstep : pool.step path a = some pool') :
    pool'.Apart path := by
  refine held_step (fun _ => rfl) ?_ h hstep
  intro answer disk call disk' call' hnext
  obtain ⟨out, heffect, _⟩ := (next_moves hnext).effect
  exact ⟨out, heffect⟩

/-- The call `i` makes a step. -/
structure Calls.Advance (path : Path) (pool pool' : Calls) (i : ℕ) (call call' : Call) : Prop where
  before : pool.threads[i]? = some call
  after : pool'.threads = pool.threads.set i call'
  request : call'.toRequest = call.toRequest
  path : (pool'.read path = pool.read path ∧ call'.published = call.published) ∨
    (pool'.read path = some call.bytes ∧ call.published = false ∧ call'.published = true ∧
      (call.operation = .create → pool.read path = none))

variable {i : ℕ}

theorem Calls.Advance.moved {path : Path} {call : Call} (h : pool.Advance path pool' i call call') :
    pool'.threads[i]? = some call' := by
  rw [h.after, List.getElem?_set_self (List.getElem?_eq_some_iff.mp h.before).1]

/-- **Everything a step of an interleaving can do to the path.** -/
theorem Calls.step_cases {path : Path} (h : pool.Apart path) (hstep : pool.step path a = some pool') :
    (∃ request, a = .arrive request ∧ pool' = ⟨pool.shared, pool.threads ++ [Call.start request]⟩) ∨
    ∃ i answer call call', a = .advance i answer ∧ pool.Advance path pool' i call call' := by
  rcases Threads.step_cases hstep with hnew | ⟨i, answer, call, disk', call', rfl, hcall, hnext, rfl⟩
  · exact .inl hnew
  · obtain ⟨hrequest, out, heffect, hout⟩ := next_moves hnext
    have hkept := h.each i call hcall
    refine .inr ⟨i, answer, call, call', rfl, hcall, rfl, hrequest, ?_⟩
    rcases hout with ⟨rfl, hpublished⟩ | ⟨rfl, hcontent, hfirst, hpublished⟩
    · exact .inl ⟨heffect.read_eq hkept (not_scratch path) (fun _ => by simp), hpublished⟩
    · obtain ⟨x, hx, hread, hfree⟩ := heffect.read_target hkept
      refine .inr ⟨?_, hfirst, hpublished, fun hcreate => hfree ?_⟩
      · rw [← hcontent x hx]
        exact hread
      · rw [hcreate]
        rfl

/-- A call keeps its request, and once its file took its place, it did. -/
theorem Calls.step_call {path : Path} (h : pool.Apart path) (hstep : pool.step path a = some pool')
    {call : Call} (hcall : pool.threads[i]? = some call) :
    ∃ call', pool'.threads[i]? = some call' ∧ call'.toRequest = call.toRequest ∧
      (call.published = true → call'.published = true) := by
  rcases Calls.step_cases h hstep with ⟨request, _, rfl⟩ | ⟨j, _, mover, mover', _, hadvance⟩
  · refine ⟨call, ?_, rfl, id⟩
    rw [List.getElem?_append_left (List.getElem?_eq_some_iff.mp hcall).1]
    exact hcall
  · by_cases hij : j = i
    · subst hij
      rw [hadvance.before, Option.some.injEq] at hcall
      subst hcall
      refine ⟨mover', hadvance.moved, hadvance.request, fun hp => ?_⟩
      rcases hadvance.path with ⟨_, hsame⟩ | ⟨_, hfirst, _⟩
      · rw [hsame, hp]
      · rw [hp] at hfirst
        cases hfirst
    · refine ⟨call, ?_, rfl, id⟩
      rw [hadvance.after, List.getElem?_set_ne hij]
      exact hcall

theorem Calls.run_published {path : Path} {final : Calls} {later : List (Act Request Answer)}
    (h : pool.Apart path) {call : Call} (hcall : pool.threads[i]? = some call)
    (hpublished : call.published = true) (hrun : Runs.run (Calls.step path) pool later = some final) :
    ∃ call', final.threads[i]? = some call' ∧ call'.published = true := by
  refine (Runs.run_invariant' (I := fun p : Calls => p.Apart path ∧
    ∃ c, p.threads[i]? = some c ∧ c.published = true) ?_ ⟨h, call, hcall, hpublished⟩ hrun).2
  rintro p a p' ⟨hapart, c, hc, hp⟩ hstep
  obtain ⟨c', hc', _, hmono⟩ := Calls.step_call hapart hstep hc
  exact ⟨hapart.step hstep, c', hc', hmono hp⟩

/-- The path is as it was at the start, or holds the bytes of a call whose file took its place. -/
structure Calls.Complete (path : Path) (first : Option Bytes) (pool : Calls) : Prop where
  apart : pool.Apart path
  content : pool.read path = first ∨ ∃ (i : ℕ) (call : Call), pool.threads[i]? = some call ∧
    call.published = true ∧ pool.read path = some call.bytes

theorem Calls.Complete.step {path : Path} {first : Option Bytes} (h : pool.Complete path first)
    (hstep : pool.step path a = some pool') : pool'.Complete path first := by
  refine ⟨h.apart.step hstep, ?_⟩
  -- whoever was the last to publish still is, unless this step publishes
  have hkept : pool'.read path = pool.read path → pool'.read path = first ∨
      ∃ (i : ℕ) (call : Call), pool'.threads[i]? = some call ∧ call.published = true ∧
        pool'.read path = some call.bytes := by
    intro hsame
    rw [hsame]
    rcases h.content with hfirst | ⟨i, call, hcall, hpublished, hread⟩
    · exact .inl hfirst
    · obtain ⟨call', hcall', hrequest, hmono⟩ := Calls.step_call h.apart hstep hcall
      refine .inr ⟨i, call', hcall', hmono hpublished, ?_⟩
      rw [hrequest]
      exact hread
  rcases Calls.step_cases h.apart hstep with ⟨request, _, rfl⟩ | ⟨i, _, call, call', _, hadvance⟩
  · exact hkept rfl
  · rcases hadvance.path with ⟨hsame, _⟩ | ⟨hread, _, hpublished, _⟩
    · exact hkept hsame
    · refine .inr ⟨i, call', hadvance.moved, hpublished, ?_⟩
      rw [hread, hadvance.request]

/-- All calls are `atomic_create`: a file that took its place is there, and only one did. -/
structure Calls.Single (path : Path) (pool : Calls) : Prop where
  apart : pool.Apart path
  create : ∀ (i : ℕ) (call : Call), pool.threads[i]? = some call → call.operation = .create
  absent : pool.read path = none → ∀ (i : ℕ) (call : Call), pool.threads[i]? = some call →
    call.published = false
  one : ∀ (i j : ℕ) (call call' : Call), pool.threads[i]? = some call → pool.threads[j]? = some call' →
    call.published = true → call'.published = true → i = j

theorem Calls.Single.arrive {path : Path} {request : Request} (h : pool.Single path)
    (hcreate : request.operation = .create)
    (hapart : Calls.Apart path ⟨pool.shared, pool.threads ++ [Call.start request]⟩) :
    Calls.Single path ⟨pool.shared, pool.threads ++ [Call.start request]⟩ := by
  refine ⟨hapart, ?_, ?_, ?_⟩
  · intro i c hc
    rcases getElem?_arrive hc with hc | ⟨_, rfl⟩
    · exact h.create i c hc
    · exact hcreate
  · intro hread i c hc
    rcases getElem?_arrive hc with hc | ⟨_, rfl⟩
    · exact h.absent hread i c hc
    · rfl
  · intro i j c d hc hd hcp hdp
    rcases getElem?_arrive hc with hc | ⟨_, rfl⟩
    · rcases getElem?_arrive hd with hd | ⟨_, rfl⟩
      · exact h.one i j c d hc hd hcp hdp
      · cases hdp
    · cases hcp

theorem Calls.Single.advance {path : Path} {k : ℕ} {call : Call} (h : pool.Single path)
    (hadvance : pool.Advance path pool' k call call') (hapart : pool'.Apart path) : pool'.Single path := by
  have hthread : ∀ (i : ℕ) (c : Call), pool'.threads[i]? = some c →
      (i = k ∧ c = call') ∨ (i ≠ k ∧ pool.threads[i]? = some c) := by
    intro i c hc
    rw [hadvance.after] at hc
    exact getElem?_advance hc
  have hoperation := h.create k call hadvance.before
  have hcreate : ∀ (i : ℕ) (c : Call), pool'.threads[i]? = some c → c.operation = .create := by
    intro i c hc
    rcases hthread i c hc with ⟨_, rfl⟩ | ⟨_, hc⟩
    · rw [hadvance.request]
      exact hoperation
    · exact h.create i c hc
  rcases hadvance.path with ⟨hsame, hpublished⟩ | ⟨hbytes, _, _, hfree⟩
  · -- nothing is published: whoever is published now was before
    have hback : ∀ (i : ℕ) (c : Call), pool'.threads[i]? = some c →
        ∃ c', pool.threads[i]? = some c' ∧ c.published = c'.published := by
      intro i c hc
      rcases hthread i c hc with ⟨rfl, rfl⟩ | ⟨_, hc⟩
      · exact ⟨call, hadvance.before, hpublished⟩
      · exact ⟨c, hc, rfl⟩
    refine ⟨hapart, hcreate, ?_, ?_⟩
    · intro hread i c hc
      obtain ⟨c', hc', hp⟩ := hback i c hc
      rw [hp]
      exact h.absent (hsame.symm.trans hread) i c' hc'
    · intro i j c d hc hd hcp hdp
      obtain ⟨c', hc', hp⟩ := hback i c hc
      obtain ⟨d', hd', hq⟩ := hback j d hd
      exact h.one i j c' d' hc' hd' (hp.symm.trans hcp) (hq.symm.trans hdp)
  · -- the path was absent, so nobody was published before
    have hmover : ∀ (i : ℕ) (c : Call), pool'.threads[i]? = some c → c.published = true → i = k := by
      intro i c hc hcp
      rcases hthread i c hc with ⟨hi, _⟩ | ⟨_, hc⟩
      · exact hi
      · rw [h.absent (hfree hoperation) i c hc] at hcp
        cases hcp
    refine ⟨hapart, hcreate, ?_, ?_⟩
    · intro hread
      rw [hread] at hbytes
      cases hbytes
    · intro i j c d hc hd hcp hdp
      rw [hmover i c hc hcp, hmover j d hd hdp]

theorem Calls.Single.step {path : Path} (h : pool.Single path)
    (hcreate : ∀ request, a = .arrive request → request.operation = .create)
    (hstep : pool.step path a = some pool') : pool'.Single path := by
  have hapart := h.apart.step hstep
  rcases Calls.step_cases h.apart hstep with ⟨request, rfl, rfl⟩ | ⟨k, _, call, call', _, hadvance⟩
  · exact h.arrive (hcreate request rfl) hapart
  · exact h.advance hadvance hapart

/-- **Atomic publication.**  For any interleaving of the system calls of any number of `atomic_replace`
and `atomic_create` on one path, with failures and the end of processes anywhere. -/
theorem atomic_publication {path : Path} {disk : Disk} {schedule : List (Act Request Answer)}
    {pool : Calls} (hrun : Runs.run (Calls.step path) ⟨disk, []⟩ schedule = some pool) :
    -- the path is as it was, or holds all the bytes of one caller
    (pool.read path = disk.files.read path ∨ ∃ (i : ℕ) (call : Call), pool.threads[i]? = some call ∧
      call.published = true ∧ pool.read path = some call.bytes) ∧
    -- no step of `atomic_create` changes a file that is there
    (∀ i answer pool' call, pool.step path (.advance i answer) = some pool' →
      pool.threads[i]? = some call → call.operation = .create → pool.read path ≠ none →
      pool'.read path = pool.read path) ∧
    -- of `atomic_create` calls alone, on an absent path, at most one publishes
    (disk.files.read path = none →
      (∀ request, .arrive request ∈ schedule → request.operation = .create) →
      ∀ (i j : ℕ) (call call' : Call), pool.threads[i]? = some call → pool.threads[j]? = some call' →
        call.published = true → call'.published = true → i = j) ∧
    -- a call that does not come past its `rename` or `hard_link` leaves the path as it was
    (∀ i answer pool' later final call, pool.step path (.advance i answer) = some pool' →
      Runs.run (Calls.step path) pool' later = some final → final.threads[i]? = some call →
      call.published = false → pool'.read path = pool.read path) := by
  have hcomplete : pool.Complete path (disk.files.read path) :=
    Runs.run_invariant' (fun _ _ _ h hstep => h.step hstep) ⟨inv_nil trivial, .inl rfl⟩ hrun
  refine ⟨hcomplete.content, ?_, ?_, ?_⟩
  · intro i answer pool' call hstep hcall hcreate hthere
    rcases Calls.step_cases hcomplete.apart hstep with ⟨_, h, _⟩ | ⟨j, _, mover, _, h, hadvance⟩
    · cases h
    · cases h
      rw [hadvance.before, Option.some.injEq] at hcall
      subst hcall
      rcases hadvance.path with ⟨hsame, _⟩ | ⟨_, _, _, hfree⟩
      · exact hsame
      · exact absurd (hfree hcreate) hthere
  · intro habsent hall
    have hnone : Calls.Single path ⟨disk, []⟩ :=
      ⟨inv_nil trivial, fun _ _ h => by simp at h, fun _ _ _ h => by simp at h,
        fun _ _ _ _ h => by simp at h⟩
    have hmeets : Runs.Meets (Calls.step path) (fun _ a => True ∧
        ∀ request, a = .arrive request → request.operation = .create) ⟨disk, []⟩ schedule :=
      Runs.Meets.and_forall schedule _ (Runs.meets_true schedule _)
        fun a ha request hr => hall request (hr ▸ ha)
    exact (Runs.run_invariant (fun _ _ _ h hok hstep => h.step hok.2 hstep) schedule _ _ hnone hmeets
      hrun).one
  · intro i answer pool' later final call hstep hlater hcall hnot
    rcases Calls.step_cases hcomplete.apart hstep with ⟨_, h, _⟩ | ⟨j, _, mover, mover', h, hadvance⟩
    · cases h
    · cases h
      rcases hadvance.path with ⟨hsame, _⟩ | ⟨_, _, hpublished, _⟩
      · exact hsame
      · obtain ⟨c, hc, hp⟩ :=
          Calls.run_published (hcomplete.apart.step hstep) hadvance.moved hpublished hlater
        rw [hcall, Option.some.injEq] at hc
        rw [← hc, hnot] at hp
        cases hp

/-- Two processes under one id.  The second finds the first one's temporary name taken and tries the
next; it publishes before the first, which ends with its temporary file still there. -/
def twoCreates : List (Act Request Answer) :=
  [[.arrive ⟨⟨7, 0⟩, .create, [1, 2, 3]⟩], List.replicate 4 (.advance 0 (.done 2)),
    [.arrive ⟨⟨7, 1⟩, .create, [9]⟩], List.replicate 8 (.advance 1 (.done 5)),
    List.replicate 3 (.advance 0 (.done 1)), [.advance 0 .crashed],
    [.advance 1 (.done 0), .advance 1 (.done 0)]].flatten

theorem twoCreates_publish_once : ∃ pool,
    Runs.run (Calls.step [utf8 "metadata"]) ⟨⟨.empty, fun _ => 0⟩, []⟩ twoCreates = some pool ∧
    pool.read [utf8 "metadata"] = some [9] ∧
    ∀ (i j : ℕ) (call call' : Call), pool.threads[i]? = some call → pool.threads[j]? = some call' →
      call.published = true → call'.published = true → i = j := by
  obtain ⟨pool, hrun, hread⟩ := Option.map_eq_some_iff.mp (show
    (Runs.run (Calls.step [utf8 "metadata"]) ⟨⟨.empty, fun _ => 0⟩, []⟩ twoCreates).map
      (Calls.read [utf8 "metadata"]) = some (some [9]) by decide +kernel)
  refine ⟨pool, hrun, hread, (atomic_publication hrun).2.2.1 rfl ?_⟩
  intro request hrequest
  have h : request = ⟨⟨7, 0⟩, .create, [1, 2, 3]⟩ ∨ request = ⟨⟨7, 1⟩, .create, [9]⟩ := by
    simpa [twoCreates] using hrequest
  rcases h with rfl | rfl
  · rfl
  · rfl

end Peerless.Storage
