import Peerless.Sample
import Peerless.Storage
import Peerless.Storage.Draft

/-!
# The content store on files

`FileCas` of `peerless-storage` on the file system: an object is a file at `root/xx/yy…`, named by the
hexadecimal digits of its id, and `put` publishes it with `hard_link` from a temporary file in the same
directory.  Puts of any contents interleave at every system call, over threads and processes, and every
process may end between any two calls.

* `run_refines` — **PROVED**: every run on the files is a sequence of `Cas.put` on the store as a map.
-/

namespace Peerless.Storage

open Text Files Threads Peerless.Core

/-- `ContentId::hex_digest`. -/
def hexDigest (id : ContentId) : Bytes := id.digest.bytes.flatMap hexByte

/-- `FileCas::path_for`. -/
def pathFor (root : Path) (id : ContentId) : Path :=
  root ++ [(hexDigest id).take 2] ++ [(hexDigest id).drop 2]

/-- Where a put stands.  Before `verify_existing` compares, it opens the file and reads it piece by
piece. -/
inductive PutPoint where
  | entered
  | opening
  | reading (inode : ℕ) (got : Bytes)
  | making
  | preparing (draft : Draft)
  | unlinking (name : Path) (inode : ℕ)
  | yielding (name : Path) (inode : ℕ)
  | returned (result : Except CasError ContentId)

structure Put where
  process : Process
  bytes : Bytes
  point : PutPoint
  crashed : Bool

def Put.start (request : Process × Bytes) : Put := ⟨request.1, request.2, .entered, false⟩

/-- A put goes on with its temporary file, or returns the error. -/
def putPrepared : Disk × Except Error Draft → Disk × PutPoint
  | (disk, .ok draft) => (disk, .preparing draft)
  | (disk, .error _) => (disk, .returned (.error .io))

variable (P : Primitives) (root : Path)

/-- The comparison of `verify_existing`. -/
def verified (id : ContentId) (bytes : Bytes) : Except CasError ContentId :=
  if id.verify P bytes then .ok id else .error (.corrupt id)

/-- `FileCas::put`, from one system call to the next. -/
def Put.advance (put : Put) (answer : Answer) (disk : Disk) : Option (Disk × PutPoint) :=
  let id := ContentId.of P put.bytes
  let path := pathFor root id
  match put.point with
  | .entered =>
    -- `exists` is false when it cannot tell
    match answer with
    | .failed _ => some (disk, .making)
    | _ => some (disk, if (disk.files.lookup path).isSome then .opening else .making)
  | .opening =>
    match answer, disk.files.lookup path with
    | .failed _, _ => some (disk, .returned (.error .io))
    | _, none => some (disk, .returned (.error .io))
    | _, some inode => some (disk, .reading inode [])
  | .reading inode got =>
    match answer with
    | .failed error =>
      if error.kind = .interrupted then some (disk, .reading inode got)
      else some (disk, .returned (.error .io))
    | .done count =>
      -- a `read` gives at least one byte before the end of the file
      match (disk.files.contents inode).drop got.length with
      | [] => some (disk, .returned (verified P id got))
      | rest => some (disk, .reading inode (got ++ rest.take (count + 1)))
    | .crashed => some (disk, .reading inode got)
  | .making =>
    match answer with
    | .failed _ => some (disk, .returned (.error .io))
    | _ => some ({ disk with files := disk.files.createDirAll path.dropLast }, .preparing .numbering)
  | .preparing (.ready name inode) =>
    match answer.call (disk.files.hardLink name path) with
    | .ok files => some ({ disk with files := files }, .unlinking name inode)
    | .error error =>
      if error.kind = .alreadyExists then some (disk, .yielding name inode)
      else some (disk, .preparing (.discarding ⟨name, inode, put.bytes.length⟩ error))
  | .preparing draft =>
    some (putPrepared (prepare put.process path.dropLast (hexDigest id) put.bytes answer disk draft))
  | .unlinking name _ =>
    match answer.call (disk.files.unlink name) with
    | .ok files => some ({ disk with files := files }, .returned (.ok id))
    | .error _ => some (disk, .returned (.error .io))
  | .yielding name _ =>
    match answer.call (disk.files.unlink name) with
    | .ok files => some ({ disk with files := files }, .opening)
    | .error _ => some (disk, .opening)
  | .returned _ => none

/-- The next system call of a put, or the end of its process. -/
def Put.next (answer : Answer) (disk : Disk) (put : Put) : Option (Disk × Put) :=
  if put.crashed then none
  else if answer = .crashed then some (disk, { put with crashed := true })
  else (put.advance P root answer disk).map fun r => (r.1, { put with point := r.2 })

abbrev Puts := Pool Disk Put

def Puts.step : Puts → Act (Process × Bytes) Answer → Option Puts :=
  Threads.step Put.start (Put.next P root)

/-- `FileCas::get`, where the file can be read. -/
def get (fs : FileSystem Bytes UInt8) (id : ContentId) : Except CasError Bytes :=
  match fs.read (pathFor root id) with
  | none => .error (.notFound id)
  | some bytes => if id.verify P bytes then .ok bytes else .error (.corrupt id)

/-! ### Object paths and temporary names -/

/-- A name that begins with a dot, as the temporary files of the store do. -/
def Hidden (path : Path) : Prop := ∃ (directory : Path) (name : Bytes), path = directory ++ [46 :: name]

variable {P root}

theorem not_hidden_pathFor (id : ContentId) : ¬Hidden (pathFor root id) := by
  rintro ⟨directory, name, h⟩
  have hname : (hexDigest id).drop 2 = 46 :: name :=
    List.singleton_inj.mp (List.append_inj_right' h rfl)
  have hdot : 46 ∈ hexDigest id := List.mem_of_mem_drop (hname ▸ List.mem_cons_self)
  exact absurd (hex_ge hdot) (by decide)

theorem root_pathFor (id : ContentId) : root <+: pathFor root id :=
  ⟨_, (List.append_assoc _ _ _).symm⟩

theorem hidden_temporaryName (parent : Path) (stem : Bytes) (pid : UInt32) (sequence : UInt64) :
    Hidden (parent ++ [temporaryName stem pid sequence]) :=
  ⟨parent, _, rfl⟩

theorem pathFor_injective {id id' : ContentId} (h : pathFor root id = pathFor root id') : id = id' := by
  have hdrop : (hexDigest id).drop 2 = (hexDigest id').drop 2 :=
    List.singleton_inj.mp (List.append_inj_right' h rfl)
  have htake : (hexDigest id).take 2 = (hexDigest id').take 2 :=
    List.singleton_inj.mp (List.append_inj_right' (List.append_inj_left' h rfl) rfl)
  have hhex : hexDigest id = hexDigest id' := by
    rw [← List.take_append_drop 2 (hexDigest id), htake, hdrop, List.take_append_drop]
  exact congrArg ContentId.mk (Digest.ext_bytes (flatMap_hexByte_injective _ _ hhex))

/-! ### What one step does -/

/-- The temporary file of a put. -/
def Put.hold (put : Put) : Option (Hold Bytes UInt8) :=
  match put.point with
  | .preparing draft => draft.hold put.bytes
  | .unlinking name inode => some ⟨name, inode, put.bytes, false⟩
  | .yielding name inode => some ⟨name, inode, put.bytes, true⟩
  | _ => none

variable (P root)

/-- The path of the object a put stores. -/
def Put.path (put : Put) : Path := pathFor root (ContentId.of P put.bytes)

/-- What a put knows of its object: it reads the file that is published, and its own link or the
comparison shows it that the object is there. -/
def Put.Knows (fs : FileSystem Bytes UInt8) (put : Put) : Prop :=
  match put.point with
  | .reading inode got => fs.lookup (put.path P root) = some inode ∧ got <+: fs.contents inode
  | .unlinking _ _ => fs.lookup (put.path P root) ≠ none
  | .returned result => ∀ id, result = .ok id →
      id = ContentId.of P put.bytes ∧ fs.lookup (put.path P root) ≠ none
  | _ => True

/-- A put goes on: what it does to the files, and that it knows what it should. -/
structure Put.Moves (disk : Disk) (put : Put) (disk' : Disk) (put' : Put) : Prop where
  bytes : put'.bytes = put.bytes
  effect : ∃ out, Effect Hidden disk.files put.hold out disk'.files put'.hold ∧
    (out = none ∨ (out = some (.link, put.path P root) ∧ ∀ x ∈ put.hold, x.content = put.bytes))
  knows : (∀ x ∈ put.hold, x.Kept Hidden disk.files) → put.Knows P root disk.files →
    put'.Knows P root disk'.files

variable {P root}

variable {disk disk' : Disk} {point : PutPoint}

theorem Put.Moves.quiet {put : Put}
    (heffect : Effect Hidden disk.files put.hold none disk'.files { put with point := point }.hold)
    (hknows : (∀ x ∈ put.hold, x.Kept Hidden disk.files) → put.Knows P root disk.files →
      { put with point := point }.Knows P root disk'.files) :
    put.Moves P root disk disk' { put with point := point } :=
  ⟨rfl, ⟨none, heffect, .inl rfl⟩, hknows⟩

variable {process : Process} {crashed : Bool}

/-- The calls for the temporary file publish nothing. -/
theorem putPrepare_moves {bytes : Bytes} {draft : Draft} (answer : Answer)
    (h : putPrepared (prepare process (pathFor root (ContentId.of P bytes)).dropLast
      (hexDigest (ContentId.of P bytes)) bytes answer disk draft) = (disk', point)) :
    Put.Moves P root disk ⟨process, bytes, .preparing draft, crashed⟩ disk'
      ⟨process, bytes, point, crashed⟩ := by
  generalize (pathFor root (ContentId.of P bytes)).dropLast = parent at h
  generalize hexDigest (ContentId.of P bytes) = stem at h
  have heffect : Effect Hidden disk.files (draft.hold bytes) none _ _ :=
    prepare_effect (hidden_temporaryName parent stem process.pid) answer disk draft
  generalize prepare process parent stem bytes answer disk draft = r at h heffect
  obtain ⟨disk₁, result⟩ := r
  cases result with
  | ok draft' => cases h; exact .quiet heffect fun _ _ => trivial
  | error error => cases h; exact .quiet heffect fun _ _ id hid => by cases hid

variable {inode : ℕ}

/-- One `read` of `verify_existing`: the put has read a first part of the published file, and at its end
the object is there. -/
theorem reading_moves {bytes got : Bytes} {count : ℕ}
    (h : (match (disk.files.contents inode).drop got.length with
      | [] => some (disk, PutPoint.returned (verified P (ContentId.of P bytes) got))
      | rest => some (disk, .reading inode (got ++ rest.take (count + 1)))) = some (disk', point)) :
    Put.Moves P root disk ⟨process, bytes, .reading inode got, crashed⟩ disk'
      ⟨process, bytes, point, crashed⟩ := by
  split at h
  · cases h
    refine .quiet (.idle none) fun _ hknows id hid => ⟨?_, ?_⟩
    · unfold verified at hid
      split at hid
      · exact (Except.ok.inj hid).symm
      · cases hid
    · exact Option.ne_none_iff_exists'.mpr ⟨inode, hknows.1⟩
  · cases h
    refine .quiet (.idle none) fun _ hknows => ⟨hknows.1, ?_⟩
    obtain ⟨tail, htail⟩ := hknows.2
    rw [← htail, List.drop_left] at *
    exact (List.prefix_append_right_inj got).mpr (List.take_prefix _ _)

theorem linked_moves {bytes : Bytes} {name : Path} {files : FileSystem Bytes UInt8}
    (hlink : disk.files.hardLink name (pathFor root (ContentId.of P bytes)) = .ok files) :
    Put.Moves P root disk ⟨process, bytes, .preparing (.ready name inode), crashed⟩
      { disk with files := files } ⟨process, bytes, .unlinking name inode, crashed⟩ := by
  have heffect : Effect Hidden disk.files (some ⟨name, inode, bytes, true⟩) _ files _ :=
    .link (not_hidden_pathFor _) hlink
  refine ⟨rfl, ⟨_, heffect, .inr ⟨rfl, ?_⟩⟩, ?_⟩
  · intro x hx
    cases hx
    rfl
  · intro hkept _ hnone
    obtain ⟨x, _, hread, _⟩ := heffect.read_target hkept
    exact Option.some_ne_none _ (hread.symm.trans (FileSystem.read_eq_none_iff.mpr hnone))

/-- The link fails for another reason than a file that is there. -/
theorem unlinked_moves {bytes : Bytes} {name : Path} {error : Error} :
    Put.Moves P root disk ⟨process, bytes, .preparing (.ready name inode), crashed⟩ disk
      ⟨process, bytes, .preparing (.discarding ⟨name, inode, bytes.length⟩ error), crashed⟩ := by
  refine .quiet ?_ fun _ _ => trivial
  show Effect _ _ _ _ _ (some ⟨name, inode, bytes.take bytes.length, true⟩)
  rw [List.take_length]
  exact .idle _

/-- The temporary file of a published object is removed, and the id returned. -/
theorem stored_moves {bytes : Bytes} {name : Path} {files : FileSystem Bytes UInt8}
    (hremove : disk.files.unlink name = .ok files) :
    Put.Moves P root disk ⟨process, bytes, .unlinking name inode, crashed⟩ { disk with files := files }
      ⟨process, bytes, .returned (.ok (ContentId.of P bytes)), crashed⟩ := by
  have heffect : Effect Hidden disk.files (some ⟨name, inode, bytes, false⟩) none files none :=
    .remove hremove
  refine .quiet heffect fun hkept hknows id hid => ⟨(Except.ok.inj hid).symm, ?_⟩
  show files.lookup (pathFor root (ContentId.of P bytes)) ≠ none
  rw [heffect.lookup_eq hkept (not_hidden_pathFor _) (fun _ => by simp)]
  exact hknows

theorem put_advance_moves {put : Put} {answer : Answer}
    (h : put.advance P root answer disk = some (disk', point)) :
    put.Moves P root disk disk' { put with point := point } := by
  obtain ⟨process, bytes, before, crashed⟩ := put
  unfold Put.advance at h
  dsimp only at h
  cases before with
  | entered =>
    dsimp only at h
    split at h
    · cases h
      exact .quiet (.idle none) fun _ _ => trivial
    · cases h
      split
      · exact .quiet (.idle none) fun _ _ => trivial
      · exact .quiet (.idle none) fun _ _ => trivial
  | opening =>
    dsimp only at h
    split at h
    · cases h
      exact .quiet (.idle none) fun _ _ id hid => by cases hid
    · cases h
      exact .quiet (.idle none) fun _ _ id hid => by cases hid
    · rename_i inode _ hlookup
      cases h
      exact .quiet (.idle none) fun _ _ => ⟨hlookup, List.nil_prefix⟩
  | reading inode got =>
    dsimp only at h
    split at h
    · split at h
      · cases h
        exact .quiet (.idle none) fun _ hknows => hknows
      · cases h
        exact .quiet (.idle none) fun _ _ id hid => by cases hid
    · exact reading_moves h
    · cases h
      exact .quiet (.idle none) fun _ hknows => hknows
  | making =>
    dsimp only at h
    split at h
    · cases h
      exact .quiet (.idle none) fun _ _ id hid => by cases hid
    · cases h
      exact .quiet (.makeDirectory none _) fun _ _ => trivial
  | preparing draft =>
    cases draft with
    | numbering => exact putPrepare_moves answer (Option.some.inj h)
    | creating sequence => exact putPrepare_moves answer (Option.some.inj h)
    | writing file => exact putPrepare_moves answer (Option.some.inj h)
    | discarding file error => exact putPrepare_moves answer (Option.some.inj h)
    | ready name inode =>
      dsimp only at h
      split at h
      · rename_i files hlink
        cases h
        exact linked_moves (Answer.call_ok hlink)
      · split at h
        · cases h
          exact .quiet (.idle _) fun _ _ => trivial
        · cases h
          exact unlinked_moves
  | unlinking name inode =>
    dsimp only at h
    split at h
    · rename_i files hremove
      cases h
      exact stored_moves (Answer.call_ok hremove)
    · cases h
      exact .quiet (.release _) fun _ _ id hid => by cases hid
  | yielding name inode =>
    dsimp only at h
    split at h
    · rename_i files hremove
      cases h
      exact .quiet (.remove (Answer.call_ok hremove)) fun _ _ => trivial
    · cases h
      exact .quiet (.release _) fun _ _ => trivial
  | returned result => cases h

variable {put' : Put}

theorem put_next_moves {put : Put} {answer : Answer}
    (h : put.next P root answer disk = some (disk', put')) : put.Moves P root disk disk' put' := by
  unfold Put.next at h
  split at h
  · cases h
  · split at h
    · cases h
      exact ⟨rfl, ⟨none, .idle _, .inl rfl⟩, fun _ hknows => hknows⟩
    · obtain ⟨⟨disk₁, point⟩, hadvance, hr⟩ := Option.map_eq_some_iff.mp h
      cases hr
      exact put_advance_moves hadvance

/-- **What a step does to an object**: it reads as before, or the put published it where none was. -/
theorem Put.Moves.read_cases {put : Put} (h : put.Moves P root disk disk' put')
    (hkept : ∀ x ∈ put.hold, x.Kept Hidden disk.files) (id : ContentId) :
    disk'.files.read (pathFor root id) = disk.files.read (pathFor root id) ∨
    (id = ContentId.of P put.bytes ∧ disk.files.read (pathFor root id) = none ∧
      disk'.files.read (pathFor root id) = some put.bytes) := by
  obtain ⟨_, ⟨out, heffect, hout⟩, _⟩ := h
  rcases hout with rfl | ⟨rfl, hcontent⟩
  · exact .inl (heffect.read_eq hkept (not_hidden_pathFor id) fun _ => by simp)
  · by_cases hid : id = ContentId.of P put.bytes
    · obtain ⟨x, hx, hread, hfree⟩ := heffect.read_target hkept
      rw [hcontent x hx] at hread
      exact .inr ⟨hid, hid ▸ hfree rfl, hid ▸ hread⟩
    · refine .inl (heffect.read_eq hkept (not_hidden_pathFor id) fun manner hsame => ?_)
      exact hid (pathFor_injective (Prod.mk.inj (Option.some.inj hsame)).2.symm)

/-- What a put knows stays true, whatever another does. -/
theorem Put.Knows.frame {fs fs' : FileSystem Bytes UInt8} {hold hold' : Option (Hold Bytes UInt8)}
    {out : Option (Manner × Path)} {put : Put} (h : put.Knows P root fs)
    (heffect : Effect Hidden fs hold out fs' hold') (hkept : ∀ x ∈ hold, x.Kept Hidden fs)
    (hout : ∀ target, out ≠ some (.rename, target)) : put.Knows P root fs' := by
  have hthere : fs.lookup (put.path P root) ≠ none → fs'.lookup (put.path P root) ≠ none := by
    intro hne
    obtain ⟨inode, hinode⟩ := Option.ne_none_iff_exists'.mp hne
    exact Option.ne_none_iff_exists'.mpr
      ⟨inode, heffect.lookup_kept hkept (not_hidden_pathFor _) hout hinode⟩
  obtain ⟨process, bytes, point, crashed⟩ := put
  cases point with
  | reading inode got =>
    refine ⟨heffect.lookup_kept hkept (not_hidden_pathFor _) hout h.1, ?_⟩
    rw [heffect.contents_real hkept (not_hidden_pathFor _) h.1]
    exact h.2
  | unlinking name inode => exact hthere h
  | returned result => exact fun id hid => ⟨(h id hid).1, hthere (h id hid).2⟩
  | entered => trivial
  | opening => trivial
  | making => trivial
  | preparing draft => trivial
  | yielding name inode => trivial

/-! ### What every interleaving does -/

variable (P root)

/-- The states of the store: the temporary files are apart; every file at an object path is the content
of a put, under its id; below the root there is nothing else but temporary files; and every put knows
what it should. -/
structure Puts.Sound (pool : Puts) : Prop where
  apart : Held Hidden Disk.files Put.hold pool
  objects : ∀ id stored, pool.shared.files.read (pathFor root id) = some stored →
    id = ContentId.of P stored ∧ ∃ (i : ℕ) (put : Put), pool.threads[i]? = some put ∧ put.bytes = stored
  names : ∀ path, pool.shared.files.lookup path ≠ none → root <+: path →
    Hidden path ∨ ∃ id, path = pathFor root id
  opened : root ∈ pool.shared.files.directories
  knows : ∀ (i : ℕ) (put : Put), pool.threads[i]? = some put → put.Knows P root pool.shared.files

/-- `FileCas::open`. -/
def Disk.opened (disk : Disk) : Disk := { disk with files := disk.files.createDirAll root }

variable {P root}

theorem sound_opened (h : ∀ path, disk.files.lookup path ≠ none → ¬root <+: path) :
    Puts.Sound P root ⟨disk.opened root, []⟩ := by
  refine ⟨inv_nil trivial, ?_, ?_, FileSystem.mem_createDirAll _ _, fun _ _ ht => by simp at ht⟩
  · intro id stored hread
    obtain ⟨inode, hinode, _⟩ := FileSystem.read_eq_some_iff.mp hread
    exact absurd (root_pathFor id) (h _ (Option.ne_none_iff_exists'.mpr ⟨inode, hinode⟩))
  · intro path hpath hroot
    exact absurd hroot (h path hpath)

variable {pool : Puts}

theorem Puts.Sound.advance {i : ℕ} {put : Put} (h : pool.Sound P root)
    (hput : pool.threads[i]? = some put) (hmoves : put.Moves P root pool.shared disk' put')
    (hapart : Held Hidden Disk.files Put.hold ⟨disk', pool.threads.set i put'⟩) :
    Puts.Sound P root ⟨disk', pool.threads.set i put'⟩ := by
  obtain ⟨out, heffect, hout⟩ := hmoves.effect
  have hkept := h.apart.each i put hput
  have hrename : ∀ target, out ≠ some (.rename, target) := by
    rintro target rfl
    rcases hout with hout | ⟨hout, _⟩
    · cases hout
    · cases hout
  have hthread : ∀ (j : ℕ) (u : Put), pool.threads[j]? = some u →
      ∃ u', (pool.threads.set i put')[j]? = some u' ∧ u'.bytes = u.bytes := by
    intro j u hu
    by_cases hij : i = j
    · subst hij
      rw [hput, Option.some.injEq] at hu
      subst hu
      exact ⟨put', List.getElem?_set_self (List.getElem?_eq_some_iff.mp hput).1, hmoves.bytes⟩
    · exact ⟨u, by rw [List.getElem?_set_ne hij]; exact hu, rfl⟩
  refine ⟨hapart, ?_, ?_, heffect.directories h.opened, ?_⟩
  · intro id stored hread
    rcases hmoves.read_cases hkept id with hsame | ⟨hid, _, hbytes⟩
    · obtain ⟨hof, j, u, hu, hstored⟩ := h.objects id stored (hsame.symm.trans hread)
      obtain ⟨u', hu', hsameBytes⟩ := hthread j u hu
      exact ⟨hof, j, u', hu', hsameBytes.trans hstored⟩
    · have hstored : put.bytes = stored := Option.some.inj (hbytes.symm.trans hread)
      obtain ⟨u', hu', hsameBytes⟩ := hthread i put hput
      exact ⟨hstored ▸ hid, i, u', hu', hsameBytes.trans hstored⟩
  · intro path hpath hroot
    rcases heffect.name_cases hpath with hold | hhidden | ⟨manner, hpublished⟩
    · exact h.names path hold hroot
    · exact .inl hhidden
    · rcases hout with hout | ⟨hout, _⟩
      · rw [hpublished] at hout
        cases hout
      · rw [hpublished, Option.some.injEq, Prod.mk.injEq] at hout
        exact .inr ⟨_, hout.2⟩
  · intro j u hu
    rcases getElem?_advance hu with ⟨_, rfl⟩ | ⟨_, hu⟩
    · exact hmoves.knows hkept (h.knows i put hput)
    · exact (h.knows j u hu).frame heffect hkept hrename

theorem Puts.Sound.step {pool' : Puts} {a : Act (Process × Bytes) Answer} (h : pool.Sound P root)
    (hstep : pool.step P root a = some pool') : pool'.Sound P root := by
  have hapart : Held Hidden Disk.files Put.hold pool' := by
    refine held_step (fun _ => rfl) ?_ h.apart hstep
    intro answer disk put disk' put' hnext
    obtain ⟨out, heffect, _⟩ := (put_next_moves hnext).effect
    exact ⟨out, heffect⟩
  rcases Threads.step_cases hstep with ⟨request, rfl, rfl⟩ | ⟨i, answer, put, disk', put', rfl, hput, hnext, rfl⟩
  · refine ⟨hapart, ?_, h.names, h.opened, ?_⟩
    · intro id stored hread
      obtain ⟨hof, i, put, hput, hstored⟩ := h.objects id stored hread
      refine ⟨hof, i, put, ?_, hstored⟩
      rw [List.getElem?_append_left (List.getElem?_eq_some_iff.mp hput).1]
      exact hput
    · intro i put hput
      rcases getElem?_arrive hput with hput | ⟨_, rfl⟩
      · exact h.knows i put hput
      · trivial
  · exact h.advance hput (put_next_moves hnext) hapart

theorem Puts.Sound.run {final : Puts} {schedule : List (Act (Process × Bytes) Answer)}
    (h : pool.Sound P root) (hrun : Runs.run (Puts.step P root) pool schedule = some final) :
    final.Sound P root :=
  Runs.run_invariant' (fun _ _ _ h hstep => h.step hstep) h hrun

/-! ### The store as a map -/

variable (root)

/-- The files at the object paths are the entries of the map. -/
def Stores (fs : FileSystem Bytes UInt8) (cas : Cas) : Prop :=
  ∀ id, cas.lookup id = fs.read (pathFor root id)

variable {root}

theorem get_eq {fs : FileSystem Bytes UInt8} {cas : Cas} (h : Stores root fs cas) (id : ContentId) :
    get P root fs id = cas.get P id := by
  rw [get, Cas.get, h id]
  cases fs.read (pathFor root id) with
  | none => rfl
  | some bytes => rfl

/-- **A step is a put of the map, or the map stays as it is.** -/
theorem step_refines {pool' : Puts} {a : Act (Process × Bytes) Answer} {cas : Cas} (h : pool.Sound P root)
    (hstep : pool.step P root a = some pool') (hstores : Stores root pool.shared.files cas) :
    Stores root pool'.shared.files cas ∨ ∃ (i : ℕ) (put : Put), pool.threads[i]? = some put ∧
      Stores root pool'.shared.files (cas.put P put.bytes true).1 := by
  rcases Threads.step_cases hstep with ⟨_, _, rfl⟩ | ⟨i, answer, put, disk', put', rfl, hput, hnext, rfl⟩
  · exact .inl hstores
  · have hcases := (put_next_moves hnext).read_cases (h.apart.each i put hput)
    rcases hcases (ContentId.of P put.bytes) with hsame | ⟨_, hfree, hread⟩
    · refine .inl fun id => ?_
      rcases hcases id with hid | ⟨rfl, hfree, hread⟩
      · exact (hstores id).trans hid.symm
      · exact absurd (hsame.symm.trans hread) (by rw [hfree]; simp)
    · have hnew : cas.lookup (ContentId.of P put.bytes) = none := (hstores _).trans hfree
      refine .inr ⟨i, put, hput, fun id => ?_⟩
      rw [Cas.put, hnew]
      show (cas.insert _ _).lookup id = disk'.files.read (pathFor root id)
      by_cases hid : id = ContentId.of P put.bytes
      · rw [hid, AList.lookup_insert]
        exact hread.symm
      · rw [AList.lookup_insert_ne hid]
        rcases hcases id with hsame | ⟨heq, _⟩
        · exact (hstores id).trans hsame.symm
        · exact absurd heq hid

/-- A store that was opened empty is the empty map. -/
theorem stores_opened (h : ∀ path, disk.files.lookup path ≠ none → ¬root <+: path) :
    Stores root (disk.opened root).files ∅ := by
  intro id
  rw [AList.lookup_empty]
  cases hread : (disk.opened root).files.read (pathFor root id) with
  | none => rfl
  | some stored =>
    obtain ⟨inode, hinode, _⟩ := FileSystem.read_eq_some_iff.mp hread
    exact absurd (root_pathFor id) (h _ (Option.ne_none_iff_exists'.mpr ⟨inode, hinode⟩))

/-- The map after puts of contents, one after the other. -/
def putAll (P : Primitives) (contents : List Bytes) : Cas :=
  contents.foldl (fun cas bytes => (cas.put P bytes true).1) ∅

/-- A step keeps the contents that are being put. -/
theorem step_bytes {pool' : Puts} {a : Act (Process × Bytes) Answer}
    (hstep : pool.step P root a = some pool') :
    pool.threads.map Put.bytes <+: pool'.threads.map Put.bytes := by
  rcases Threads.step_cases hstep with ⟨_, _, rfl⟩ | ⟨i, answer, put, disk', put', rfl, hput, hnext, rfl⟩
  · rw [List.map_append]
    exact List.prefix_append _ _
  · have hsame : (pool.threads.map Put.bytes)[i]? = some put'.bytes := by
      rw [List.getElem?_map, hput, (put_next_moves hnext).bytes]
      rfl
    obtain ⟨hi, hget⟩ := List.getElem?_eq_some_iff.mp hsame
    rw [List.map_set, ← hget, List.set_getElem_self]

/-- **Every run of puts on the files is a sequence of puts on the map**, of contents that are being put, and
`get` reads the map. -/
theorem run_refines {schedule : List (Act (Process × Bytes) Answer)}
    (hdisk : ∀ path, disk.files.lookup path ≠ none → ¬root <+: path)
    (hrun : Runs.run (Puts.step P root) ⟨disk.opened root, []⟩ schedule = some pool) :
    ∃ contents ⊆ pool.threads.map Put.bytes, Stores root pool.shared.files (putAll P contents) ∧
      ∀ id, get P root pool.shared.files id = (putAll P contents).get P id := by
  have hstores : pool.Sound P root ∧ ∃ contents ⊆ pool.threads.map Put.bytes,
      Stores root pool.shared.files (putAll P contents) := by
    refine Runs.run_invariant' (I := fun p : Puts => p.Sound P root ∧ ∃ contents ⊆
      p.threads.map Put.bytes, Stores root p.shared.files (putAll P contents)) ?_
      ⟨sound_opened hdisk, [], List.nil_subset _, stores_opened hdisk⟩ hrun
    rintro p a p' ⟨hsound, contents, hputs, hstores⟩ hstep
    refine ⟨hsound.step hstep, ?_⟩
    have hkept := (step_bytes hstep).subset
    rcases step_refines hsound hstep hstores with hsame | ⟨_, put, hput, hnew⟩
    · exact ⟨contents, List.Subset.trans hputs hkept, hsame⟩
    · refine ⟨contents ++ [put.bytes], List.append_subset.mpr ⟨List.Subset.trans hputs hkept, ?_⟩, ?_⟩
      · exact List.cons_subset.mpr
          ⟨hkept (List.mem_map_of_mem (List.mem_of_getElem? hput)), List.nil_subset _⟩
      · rw [putAll, List.foldl_append]
        exact hnew
  obtain ⟨_, contents, hputs, hstores⟩ := hstores
  exact ⟨contents, hputs, hstores, get_eq hstores⟩

/-- Two processes put a content each: the first returns, the second has not linked its file yet. -/
def twoPuts : List (Act (Process × Bytes) Answer) :=
  [.arrive (⟨7, 0⟩, [1, 2, 3]), .arrive (⟨8, 0⟩, [4]), .advance 1 (.done 5), .advance 1 (.done 5)] ++
    List.replicate 8 (.advance 0 (.done 5))

theorem two_puts_refine : ∃ (pool : Puts) (contents : List Bytes),
    Runs.run (Puts.step Sample.primitives []) ⟨Disk.opened [] ⟨.empty, fun _ => 0⟩, []⟩ twoPuts = some pool ∧
    contents ⊆ [[1, 2, 3], [4]] ∧
    (∀ id, get Sample.primitives [] pool.shared.files id =
      (putAll Sample.primitives contents).get Sample.primitives id) ∧
    get Sample.primitives [] pool.shared.files (ContentId.of Sample.primitives [1, 2, 3]) = .ok [1, 2, 3] ∧
    get Sample.primitives [] pool.shared.files (ContentId.of Sample.primitives [4]) =
      .error (.notFound (ContentId.of Sample.primitives [4])) := by
  obtain ⟨pool, hrun, hfiles⟩ := Option.map_eq_some_iff.mp (show
    (Runs.run (Puts.step Sample.primitives []) ⟨Disk.opened [] ⟨.empty, fun _ => 0⟩, []⟩ twoPuts).map
      (fun p => (p.threads.map Put.bytes,
        get Sample.primitives [] p.shared.files (ContentId.of Sample.primitives [1, 2, 3]),
        get Sample.primitives [] p.shared.files (ContentId.of Sample.primitives [4]))) =
      some ([[1, 2, 3], [4]], .ok [1, 2, 3], .error (.notFound (ContentId.of Sample.primitives [4]))) by
        decide +kernel)
  simp only [Prod.mk.injEq] at hfiles
  obtain ⟨contents, hputs, _, hget⟩ := run_refines (fun _ h => absurd rfl h) hrun
  rw [hfiles.1] at hputs
  exact ⟨pool, contents, hrun, hputs, hget, hfiles.2⟩

end Peerless.Storage
