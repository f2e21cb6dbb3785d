import Peerless.Lib.HashMap
import Mathlib.Data.List.Infix
import Mathlib.Data.List.Dedup
import Mathlib.Logic.Function.Basic

/-!
# Files, names and directories

A file system as the system calls of one process see it: names are entries that point at inodes, inodes
hold bytes, and a file stays what it is when a second name is linked to it or its name is taken away.  A
path is the list of its components.

* `Answer` — how the environment answers a call: it lets it go ahead, fails it without effect, or the
  process ends there.
-/

namespace Files

open HashMap

inductive ErrorKind where
  | alreadyExists
  | notFound
  | invalidInput
  | interrupted
  | writeZero
  | other (code : ℕ)
  deriving DecidableEq

/-- An input/output error: one the operating system gave, or one a program made itself. -/
inductive Error where
  | os (kind : ErrorKind)
  | custom (kind : ErrorKind) (message : String)
  deriving DecidableEq

def Error.kind : Error → ErrorKind
  | .os kind => kind
  | .custom kind _ => kind

inductive Answer where
  | done (count : ℕ)
  | failed (error : Error)
  | crashed
  deriving DecidableEq

/-- The outcome of a call that the operating system carries out at once or not at all. -/
def Answer.call {α : Type*} (answer : Answer) (outcome : Except Error α) : Except Error α :=
  match answer with
  | .failed error => .error error
  | _ => outcome

theorem Answer.call_ok {α : Type*} {answer : Answer} {outcome : Except Error α} {a : α}
    (h : answer.call outcome = .ok a) : outcome = .ok a := by
  cases answer with
  | failed error => cases h
  | done count => exact h
  | crashed => exact h

inductive FileType where
  | directory
  | file
  deriving DecidableEq

/-- A file system.  Every name points at an inode that was given out, and lies in a directory that is
there. -/
structure FileSystem (ν β : Type) [DecidableEq ν] where
  directories : List (List ν)
  entries : Map (List ν) ℕ
  contents : ℕ → List β
  next : ℕ
  distinct : directories.Nodup
  live : ∀ path inode, entries.lookup path = some inode → inode < next
  housed : ∀ path inode, entries.lookup path = some inode → path.dropLast ∈ directories

namespace FileSystem

variable {ν β : Type} [DecidableEq ν]

/-- The file system with nothing in it. -/
def empty : FileSystem ν β where
  directories := []
  entries := ∅
  contents := fun _ => []
  next := 0
  distinct := List.nodup_nil
  live := fun path inode h => by rw [AList.lookup_empty] at h; cases h
  housed := fun path inode h => by rw [AList.lookup_empty] at h; cases h

/-- The inode a name points at. -/
def lookup (fs : FileSystem ν β) (path : List ν) : Option ℕ := fs.entries.lookup path

variable {fs : FileSystem ν β} {inode : ℕ}

theorem lookup_lt {path : List ν} (h : fs.lookup path = some inode) :
    inode < fs.next :=
  fs.live path inode h

theorem lookup_housed {path : List ν} (h : fs.lookup path = some inode) : path.dropLast ∈ fs.directories :=
  fs.housed path inode h

/-- The bytes of the file at a path. -/
def read (fs : FileSystem ν β) (path : List ν) : Option (List β) := (fs.lookup path).map fs.contents

theorem read_eq_some_iff {path : List ν} {bytes : List β} :
    fs.read path = some bytes ↔ ∃ inode, fs.lookup path = some inode ∧ fs.contents inode = bytes :=
  Option.map_eq_some_iff

theorem read_eq_none_iff {path : List ν} :
    fs.read path = none ↔ fs.lookup path = none :=
  Option.map_eq_none_iff

/-! ### The calls -/

/-- `mkdir -p`: the directory and every directory above it. -/
def createDirAll (fs : FileSystem ν β) (path : List ν) : FileSystem ν β where
  directories := (path.inits ++ fs.directories).dedup
  entries := fs.entries
  contents := fs.contents
  next := fs.next
  distinct := List.nodup_dedup _
  live := fs.live
  housed := fun p i h => List.mem_dedup.mpr (List.mem_append_right _ (fs.housed p i h))

theorem mem_createDirAll (fs : FileSystem ν β) (path : List ν) :
    path ∈ (fs.createDirAll path).directories :=
  List.mem_dedup.mpr (List.mem_append_left _ ((List.mem_inits _ _).mpr (List.prefix_refl _)))

/-- A new name for an inode, in a directory that is there. -/
def enter (fs : FileSystem ν β) (path : List ν) (inode : ℕ) (hinode : inode < fs.next)
    (hpath : path.dropLast ∈ fs.directories) : FileSystem ν β where
  directories := fs.directories
  entries := fs.entries.insert path inode
  contents := fs.contents
  next := fs.next
  distinct := fs.distinct
  live := fun p i h => by
    by_cases hp : p = path
    · rw [hp, AList.lookup_insert, Option.some.injEq] at h
      rwa [← h]
    · rw [AList.lookup_insert_ne hp] at h
      exact fs.live p i h
  housed := fun p i h => by
    by_cases hp : p = path
    · rwa [hp]
    · rw [AList.lookup_insert_ne hp] at h
      exact fs.housed p i h

theorem lookup_enter (fs : FileSystem ν β) {path : List ν} {hi : inode < fs.next}
    {hp : path.dropLast ∈ fs.directories} (p : List ν) :
    (fs.enter path inode hi hp).lookup p = if p = path then some inode else fs.lookup p := by
  show (fs.entries.insert path inode).lookup p = _
  split
  · rename_i h
    rw [h, AList.lookup_insert]
  · rename_i h
    exact AList.lookup_insert_ne h

/-- The name taken away. -/
def leave (fs : FileSystem ν β) (path : List ν) : FileSystem ν β where
  directories := fs.directories
  entries := fs.entries.erase path
  contents := fs.contents
  next := fs.next
  distinct := fs.distinct
  live := fun p i h => by
    by_cases hp : p = path
    · rw [hp, AList.lookup_erase] at h
      cases h
    · rw [AList.lookup_erase_ne hp] at h
      exact fs.live p i h
  housed := fun p i h => by
    by_cases hp : p = path
    · rw [hp, AList.lookup_erase] at h
      cases h
    · rw [AList.lookup_erase_ne hp] at h
      exact fs.housed p i h

theorem lookup_leave (fs : FileSystem ν β) (path p : List ν) :
    (fs.leave path).lookup p = if p = path then none else fs.lookup p := by
  show (fs.entries.erase path).lookup p = _
  split
  · rename_i h
    rw [h, AList.lookup_erase]
  · rename_i h
    exact AList.lookup_erase_ne h

/-- The file system with one more inode, empty and without a name. -/
def allocate (fs : FileSystem ν β) : FileSystem ν β where
  directories := fs.directories
  entries := fs.entries
  contents := Function.update fs.contents fs.next []
  next := fs.next + 1
  distinct := fs.distinct
  live := fun p i h => Nat.lt_succ_of_lt (fs.live p i h)
  housed := fs.housed

/-- Opening with `create_new`: fails if the name is taken. -/
def createNew (fs : FileSystem ν β) (path : List ν) : Except Error (FileSystem ν β × ℕ) :=
  if (fs.lookup path).isSome then .error (.os .alreadyExists)
  else if hd : path.dropLast ∈ fs.directories then
    .ok (fs.allocate.enter path fs.next (Nat.lt_succ_self _) hd, fs.next)
  else .error (.os .notFound)

/-- Writing at the end of an open file. -/
def append (fs : FileSystem ν β) (inode : ℕ) (bytes : List β) : FileSystem ν β :=
  { fs with contents := Function.update fs.contents inode (fs.contents inode ++ bytes) }

/-- `link`: fails if the target is taken. -/
def hardLink (fs : FileSystem ν β) (source target : List ν) : Except Error (FileSystem ν β) :=
  match h : fs.lookup source with
  | none => .error (.os .notFound)
  | some inode =>
    if (fs.lookup target).isSome then .error (.os .alreadyExists)
    else if hd : target.dropLast ∈ fs.directories then .ok (fs.enter target inode (lookup_lt h) hd)
    else .error (.os .notFound)

/-- `rename`: takes the target's place. -/
def rename (fs : FileSystem ν β) (source target : List ν) : Except Error (FileSystem ν β) :=
  match h : fs.lookup source with
  | none => .error (.os .notFound)
  | some inode =>
    if hd : target.dropLast ∈ fs.directories then
      .ok ((fs.leave source).enter target inode (show inode < fs.next from lookup_lt h) hd)
    else .error (.os .notFound)

def unlink (fs : FileSystem ν β) (path : List ν) : Except Error (FileSystem ν β) :=
  if (fs.lookup path).isSome then .ok (fs.leave path) else .error (.os .notFound)

/-- `lstat`, as far as it tells files from directories. -/
def metadata (fs : FileSystem ν β) (path : List ν) : Except Error FileType :=
  if (fs.lookup path).isSome then .ok .file
  else if path ∈ fs.directories then .ok .directory
  else .error (.os .notFound)

/-- Reading a whole file. -/
def readFile (fs : FileSystem ν β) (path : List ν) : Except Error (List β) :=
  match fs.read path with
  | some bytes => .ok bytes
  | none => .error (.os .notFound)

/-! ### What a call that succeeded did -/

variable {fs' : FileSystem ν β}

theorem createNew_ok {path : List ν} (h : fs.createNew path = .ok (fs', inode)) :
    fs.lookup path = none ∧ inode = fs.next ∧ fs'.contents = Function.update fs.contents inode [] ∧
      fs'.directories = fs.directories ∧
      ∀ p, fs'.lookup p = if p = path then some inode else fs.lookup p := by
  unfold createNew at h
  split at h
  · cases h
  · rename_i hfree
    split at h
    · cases h
      exact ⟨Option.not_isSome_iff_eq_none.mp hfree, rfl, rfl, rfl, fun p => lookup_enter _ p⟩
    · cases h

theorem hardLink_ok {source target : List ν} (h : fs.hardLink source target = .ok fs') :
    ∃ inode, fs.lookup source = some inode ∧ fs.lookup target = none ∧ fs'.contents = fs.contents ∧
      fs'.directories = fs.directories ∧
      ∀ p, fs'.lookup p = if p = target then some inode else fs.lookup p := by
  unfold hardLink at h
  split at h
  · cases h
  · rename_i inode hsource
    split at h
    · cases h
    · rename_i hfree
      split at h
      · cases h
        exact ⟨inode, hsource, Option.not_isSome_iff_eq_none.mp hfree, rfl, rfl,
          fun p => lookup_enter _ p⟩
      · cases h

theorem rename_ok {source target : List ν} (h : fs.rename source target = .ok fs') :
    ∃ inode, fs.lookup source = some inode ∧ fs'.contents = fs.contents ∧
      fs'.directories = fs.directories ∧ ∀ p, fs'.lookup p =
        if p = target then some inode else if p = source then none else fs.lookup p := by
  unfold rename at h
  split at h
  · cases h
  · rename_i inode hsource
    split at h
    · cases h
      refine ⟨inode, hsource, rfl, rfl, fun p => ?_⟩
      rw [← lookup_leave]
      exact lookup_enter _ p
    · cases h

theorem unlink_ok {path : List ν} (h : fs.unlink path = .ok fs') :
    fs'.contents = fs.contents ∧ fs'.directories = fs.directories ∧
      ∀ p, fs'.lookup p = if p = path then none else fs.lookup p := by
  unfold unlink at h
  split at h
  · cases h
    exact ⟨rfl, rfl, lookup_leave fs path⟩
  · cases h

/-! ### Directory listings -/

/-- The last component of a path that lies in a directory. -/
def child (directory path : List ν) : Option ν :=
  if path.dropLast = directory then path.getLast? else none

theorem child_eq_some_iff {directory path : List ν} {name : ν} :
    child directory path = some name ↔ path = directory ++ [name] := by
  unfold child
  constructor
  · intro h
    split at h
    · rename_i hd
      rw [← hd, List.dropLast_append_getLast? name h]
    · cases h
  · intro h
    rw [h, List.dropLast_concat, List.getLast?_concat, if_pos rfl]

theorem child_inj {directory p q : List ν} {name : ν} (hp : name ∈ child directory p)
    (hq : name ∈ child directory q) : p = q := by
  rw [child_eq_some_iff.mp hp, child_eq_some_iff.mp hq]

/-- The entries of a directory, each once. -/
def readDir (fs : FileSystem ν β) (path : List ν) : Except Error (List (ν × FileType)) :=
  if path ∈ fs.directories then
    .ok ((fs.directories.filterMap (child path)).map (·, .directory) ++
      (fs.entries.keys.filterMap (child path)).map (·, .file))
  else .error (.os .notFound)

end FileSystem

end Files
