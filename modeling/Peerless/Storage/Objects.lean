import Peerless.Storage.FileCas
import Mathlib.Data.Set.List
import Mathlib.Algebra.Group.Nat.Defs

/-!
# What the content store exposes

`FileCas` under any interleaving of puts, over threads and processes, with processes ending at any call.

* `store_exact` — every file at an object path is complete and has the id of its path; it never
  changes; after a put returned, `get` of its id gives exactly its bytes in every later state; and `stats`
  counts each published object exactly once.
-/

namespace Peerless.Storage

open Text Files Threads Peerless.Core

variable (root : Path) (fs : FileSystem Bytes UInt8)

/-- One more file for the two counters, which are `u64`. -/
def tally (acc : ℕ × ℕ) (path : Path) : ℕ × ℕ :=
  ((acc.1 + 1) % 2 ^ 64, (acc.2 + ((fs.read path).getD []).length) % 2 ^ 64)

/-- The inner loop of `stats`, over the entries of one directory. -/
def countFolder (folder : Path) (acc : ℕ × ℕ) : List (Bytes × FileType) → ℕ × ℕ
  | [] => acc
  | (name, type) :: rest =>
    if type = .file ∧ name.head? ≠ some 46 then countFolder folder (tally fs acc (folder ++ [name])) rest
    else countFolder folder acc rest

/-- The outer loop of `stats`, over the entries of the root. -/
def countFolders (acc : ℕ × ℕ) : List (Bytes × FileType) → Except CasError (ℕ × ℕ)
  | [] => .ok acc
  | (name, type) :: rest =>
    if type ≠ .directory then countFolders acc rest
    else
      match fs.readDir (root ++ [name]) with
      | .error _ => .error .io
      | .ok entries => countFolders (countFolder fs (root ++ [name]) acc entries) rest

/-- `FileCas::stats`, where the directories can be read. -/
def stats : Except CasError (ℕ × ℕ) :=
  match fs.readDir root with
  | .error _ => .error .io
  | .ok entries => countFolders root fs (0, 0) entries

/-- The names in a directory that `stats` counts. -/
def visibleNames (folder : Path) : List Bytes :=
  (fs.entries.keys.filterMap (FileSystem.child folder)).filter fun name => name.head? ≠ some 46

/-- The files `stats` counts. -/
def objectFiles : List Path :=
  (fs.directories.filterMap (FileSystem.child root)).flatMap fun folder =>
    (visibleNames fs (root ++ [folder])).map fun name => root ++ [folder] ++ [name]

variable {root fs}

/-! ### The loops -/

theorem countFolder_append (folder : Path) (acc : ℕ × ℕ) (folders files : List Bytes) :
    countFolder fs folder acc (folders.map (·, .directory) ++ files.map (·, .file)) =
      ((files.filter fun name => name.head? ≠ some 46).map (folder ++ [·])).foldl (tally fs) acc := by
  induction folders with
  | cons name folders ih =>
    rw [List.map_cons, List.cons_append, countFolder, if_neg fun h => by cases h.1]
    exact ih
  | nil =>
    show countFolder fs folder acc (files.map (·, .file)) = _
    induction files generalizing acc with
    | nil => rfl
    | cons name files ih =>
      rw [List.map_cons, countFolder, List.filter_cons]
      by_cases hname : name.head? ≠ some 46
      · rw [if_pos ⟨rfl, hname⟩, if_pos (decide_eq_true hname), ih]
        rfl
      · rw [if_neg fun h => hname h.2, if_neg fun h => hname (of_decide_eq_true h), ih]

theorem countFolders_files (acc : ℕ × ℕ) (files : List Bytes) :
    countFolders root fs acc (files.map (·, .file)) = .ok acc := by
  induction files with
  | nil => rfl
  | cons name files ih =>
    rw [List.map_cons, countFolders, if_pos fun h => by cases h]
    exact ih

theorem countFolders_append (acc : ℕ × ℕ) (folders files : List Bytes)
    (hfolders : ∀ name ∈ folders, root ++ [name] ∈ fs.directories) :
    countFolders root fs acc (folders.map (·, .directory) ++ files.map (·, .file)) =
      .ok ((folders.flatMap fun folder =>
        (visibleNames fs (root ++ [folder])).map fun name => root ++ [folder] ++ [name]).foldl
          (tally fs) acc) := by
  induction folders generalizing acc with
  | nil => exact countFolders_files acc files
  | cons name folders ih =>
    rw [List.map_cons, List.cons_append, countFolders, if_neg fun h => h rfl, FileSystem.readDir,
      if_pos (hfolders name List.mem_cons_self)]
    dsimp only
    rw [countFolder_append, ih _ fun other hother => hfolders other (List.mem_cons_of_mem _ hother),
      List.flatMap_cons, List.foldl_append]
    rfl

theorem stats_eq (hroot : root ∈ fs.directories) :
    stats root fs = .ok ((objectFiles root fs).foldl (tally fs) (0, 0)) := by
  rw [stats, FileSystem.readDir, if_pos hroot]
  refine countFolders_append (0, 0) _ _ fun name hname => ?_
  obtain ⟨path, hpath, hchild⟩ := List.mem_filterMap.mp hname
  rwa [← FileSystem.child_eq_some_iff.mp hchild]

theorem foldl_tally (a b : ℕ) (paths : List Path) :
    paths.foldl (tally fs) (a % 2 ^ 64, b % 2 ^ 64) = ((a + paths.length) % 2 ^ 64,
      (b + (paths.map fun path => ((fs.read path).getD []).length).sum) % 2 ^ 64) := by
  induction paths generalizing a b with
  | nil => rfl
  | cons path paths ih =>
    rw [List.foldl_cons, tally, Nat.mod_add_mod, Nat.mod_add_mod, ih, List.length_cons, List.map_cons,
      List.sum_cons, Nat.add_assoc, Nat.add_assoc, Nat.add_comm 1]

/-! ### The files that are counted -/

theorem mem_visibleNames {folder : Path} {name : Bytes} : name ∈ visibleNames fs folder ↔
    fs.lookup (folder ++ [name]) ≠ none ∧ name.head? ≠ some 46 := by
  rw [visibleNames, List.mem_filter, List.mem_filterMap, decide_eq_true_iff]
  refine and_congr_left fun _ => ?_
  constructor
  · rintro ⟨path, hpath, hchild⟩
    rw [← FileSystem.child_eq_some_iff.mp hchild]
    exact Option.ne_none_iff_isSome.mpr (AList.lookup_isSome.mpr (AList.mem_keys.mpr hpath))
  · intro h
    exact ⟨_, AList.mem_keys.mp (AList.lookup_isSome.mp (Option.ne_none_iff_isSome.mp h)),
      FileSystem.child_eq_some_iff.mpr rfl⟩

theorem mem_objectFiles {path : Path} : path ∈ objectFiles root fs ↔
    ∃ folder name, path = root ++ [folder] ++ [name] ∧ fs.lookup path ≠ none ∧
      name.head? ≠ some 46 := by
  rw [objectFiles, List.mem_flatMap]
  constructor
  · rintro ⟨folder, _, hpath⟩
    obtain ⟨name, hname, rfl⟩ := List.mem_map.mp hpath
    exact ⟨folder, name, rfl, mem_visibleNames.mp hname⟩
  · rintro ⟨folder, name, rfl, hlookup, hname⟩
    refine ⟨folder, List.mem_filterMap.mpr ⟨root ++ [folder], ?_, FileSystem.child_eq_some_iff.mpr rfl⟩,
      List.mem_map.mpr ⟨name, mem_visibleNames.mpr ⟨hlookup, hname⟩, rfl⟩⟩
    -- a name lies in a directory that is there
    obtain ⟨inode, hinode⟩ := Option.ne_none_iff_exists'.mp hlookup
    have hhoused := FileSystem.lookup_housed hinode
    rwa [List.dropLast_concat] at hhoused

theorem nodup_objectFiles : (objectFiles root fs).Nodup := by
  refine List.nodup_flatMap.mpr ⟨fun folder _ => ?_, ?_⟩
  · refine List.Nodup.map (fun a b h => List.singleton_inj.mp (List.append_cancel_left h)) ?_
    exact (fs.entries.keys_nodup.filterMap fun p q name hp hq => FileSystem.child_inj hp hq).filter _
  · refine (fs.distinct.filterMap fun p q name hp hq => FileSystem.child_inj hp hq).imp ?_
    intro folder folder' hne path hpath hpath'
    obtain ⟨name, _, rfl⟩ := List.mem_map.mp hpath
    obtain ⟨name', _, heq⟩ := List.mem_map.mp hpath'
    exact hne (List.singleton_inj.mp (List.append_cancel_left (List.append_inj_left' heq rfl))).symm

variable {P : Primitives}

variable {pool : Puts}

/-- In a sound store the files `stats` counts are the published objects. -/
theorem mem_objectFiles_iff (h : pool.Sound P root) {path : Path} :
    path ∈ objectFiles root pool.shared.files ↔
      (∃ id, path = pathFor root id) ∧ pool.shared.files.lookup path ≠ none := by
  rw [mem_objectFiles]
  constructor
  · rintro ⟨folder, name, rfl, hlookup, hname⟩
    refine ⟨?_, hlookup⟩
    rcases h.names _ hlookup ⟨[folder] ++ [name], (List.append_assoc _ _ _).symm⟩ with
      ⟨directory, rest, hhidden⟩ | hid
    · rw [List.singleton_inj.mp (List.append_inj_right' hhidden rfl)] at hname
      exact absurd rfl hname
    · exact hid
  · rintro ⟨⟨id, rfl⟩, hlookup⟩
    refine ⟨_, _, rfl, hlookup, fun hdot => ?_⟩
    obtain ⟨rest, hrest⟩ := List.head?_eq_some_iff.mp hdot
    exact not_hidden_pathFor id ⟨root ++ [(hexDigest id).take 2], rest, by rw [← hrest]; rfl⟩

/-- **`stats` counts each published object exactly once.** -/
theorem stats_sound (h : pool.Sound P root) :
    ∃ ids : List ContentId, ids.Nodup ∧
      (∀ id, id ∈ ids ↔ pool.shared.files.read (pathFor root id) ≠ none) ∧
      stats root pool.shared.files = .ok (ids.length % 2 ^ 64,
        (ids.map fun id => ((pool.shared.files.read (pathFor root id)).getD []).length).sum % 2 ^ 64) := by
  obtain ⟨ids, hids⟩ : objectFiles root pool.shared.files ∈ Set.range (List.map (pathFor root)) := by
    rw [Set.range_list_map]
    intro path hpath
    obtain ⟨id, hid⟩ := ((mem_objectFiles_iff h).mp hpath).1
    exact ⟨id, hid.symm⟩
  refine ⟨ids, List.Nodup.of_map (pathFor root) (hids ▸ nodup_objectFiles), fun id => ?_, ?_⟩
  · have hmem : id ∈ ids ↔ pathFor root id ∈ objectFiles root pool.shared.files := by
      rw [← hids, List.mem_map_of_injective fun _ _ => pathFor_injective]
    rw [hmem, mem_objectFiles_iff h]
    exact ⟨fun h hread => h.2 (FileSystem.read_eq_none_iff.mp hread),
      fun h => ⟨⟨id, rfl⟩, fun hlookup => h (FileSystem.read_eq_none_iff.mpr hlookup)⟩⟩
  · rw [stats_eq h.opened, show ((0, 0) : ℕ × ℕ) = (0 % 2 ^ 64, 0 % 2 ^ 64) from rfl, foldl_tally, ← hids,
      List.length_map, List.map_map, Nat.zero_add, Nat.zero_add]
    rfl

/-! ### The store over whole runs -/

theorem step_kept {pool' : Puts} {a : Act (Process × Bytes) Answer} (h : pool.Sound P root)
    (hstep : pool.step P root a = some pool') {id : ContentId} {stored : Bytes}
    (hread : pool.shared.files.read (pathFor root id) = some stored) :
    pool'.shared.files.read (pathFor root id) = some stored := by
  rcases Threads.step_cases hstep with ⟨_, _, rfl⟩ | ⟨i, _, put, disk', put', _, hput, hnext, rfl⟩
  · exact hread
  · rcases (put_next_moves hnext).read_cases (h.apart.each i put hput) id with hsame | ⟨_, hfree, _⟩
    · exact hsame.trans hread
    · rw [hread] at hfree
      cases hfree

theorem run_kept {final : Puts} {later : List (Act (Process × Bytes) Answer)} (h : pool.Sound P root)
    (hrun : Runs.run (Puts.step P root) pool later = some final) {id : ContentId} {stored : Bytes}
    (hread : pool.shared.files.read (pathFor root id) = some stored) :
    final.shared.files.read (pathFor root id) = some stored := by
  refine (Runs.run_invariant' (I := fun p : Puts => p.Sound P root ∧
    p.shared.files.read (pathFor root id) = some stored) ?_ ⟨h, hread⟩ hrun).2
  intro p a p' hp hstep
  exact ⟨hp.1.step hstep, step_kept hp.1 hstep hp.2⟩

theorem get_of_read {id : ContentId} {stored : Bytes} (hread : fs.read (pathFor root id) = some stored)
    (hid : id = ContentId.of P stored) : get P root fs id = .ok stored := by
  rw [get, hread]
  exact if_pos (decide_eq_true hid)

/-- **The content store never exposes a partial or wrong object.**  For any interleaving of the system
calls of any number of puts into a store that was opened empty, whose contents do not collide. -/
theorem store_exact {disk : Disk} {schedule : List (Act (Process × Bytes) Answer)} {pool : Puts}
    (hdisk : ∀ path, disk.files.lookup path ≠ none → ¬root <+: path)
    (hrun : Runs.run (Puts.step P root) ⟨disk.opened root, []⟩ schedule = some pool)
    (hcollision : ∀ put ∈ pool.threads, ∀ put' ∈ pool.threads,
      P.sha256 put.bytes = P.sha256 put'.bytes → put.bytes = put'.bytes) :
    -- a file at an object path is the whole content of a put and has the id of its path
    (∀ id stored, pool.shared.files.read (pathFor root id) = some stored →
      id = ContentId.of P stored ∧ ∃ put ∈ pool.threads, put.bytes = stored) ∧
    (∀ later final, Runs.run (Puts.step P root) pool later = some final →
      -- it never changes
      (∀ id stored, pool.shared.files.read (pathFor root id) = some stored →
        final.shared.files.read (pathFor root id) = some stored) ∧
      -- what a put that returned stored is there from then on
      (∀ put ∈ pool.threads, ∀ id, put.point = .returned (.ok id) →
        id = ContentId.of P put.bytes ∧ get P root final.shared.files id = .ok put.bytes)) ∧
    -- and each object is counted once
    ∃ ids : List ContentId, ids.Nodup ∧
      (∀ id, id ∈ ids ↔ pool.shared.files.read (pathFor root id) ≠ none) ∧
      stats root pool.shared.files = .ok (ids.length % 2 ^ 64,
        (ids.map fun id => ((pool.shared.files.read (pathFor root id)).getD []).length).sum % 2 ^ 64) := by
  have hsound : pool.Sound P root := (sound_opened hdisk).run hrun
  refine ⟨?_, ?_, stats_sound hsound⟩
  · intro id stored hread
    obtain ⟨hid, i, put, hput, hstored⟩ := hsound.objects id stored hread
    exact ⟨hid, put, List.mem_of_getElem? hput, hstored⟩
  · intro later final hlater
    refine ⟨fun id stored => run_kept hsound hlater, ?_⟩
    intro put hput id hpoint
    obtain ⟨i, hi⟩ := List.mem_iff_getElem?.mp hput
    have hknows := hsound.knows i put hi
    rw [Put.Knows, hpoint] at hknows
    obtain ⟨rfl, hthere⟩ := hknows id rfl
    refine ⟨rfl, ?_⟩
    -- the object that is there has the id of the put, so it is the put's content
    obtain ⟨stored, hread⟩ := Option.ne_none_iff_exists'.mp
      fun hnone => hthere (FileSystem.read_eq_none_iff.mp hnone)
    obtain ⟨hid, j, other, hother, hstored⟩ := hsound.objects _ stored hread
    have hsame : put.bytes = other.bytes := by
      refine hcollision put hput other (List.mem_of_getElem? hother) ?_
      rw [hstored]
      exact congrArg ContentId.digest hid
    refine get_of_read (run_kept hsound hlater ?_) rfl
    rw [hsame, hstored, ← hid]
    exact hread

/-- Two processes under one id put the same content.  The second publishes it and ends with its temporary
file still there; the first finds it published, reads it and returns. -/
def samePuts : List (Act (Process × Bytes) Answer) :=
  [[.arrive (⟨7, 0⟩, [1, 2, 3])], List.replicate 5 (.advance 0 (.done 2)),
    [.arrive (⟨7, 1⟩, [1, 2, 3])], List.replicate 8 (.advance 1 (.done 5)),
    List.replicate 2 (.advance 0 (.done 1)), [.advance 1 (.done 0), .advance 1 .crashed],
    List.replicate 6 (.advance 0 (.done 1))].flatten

/-- What a reader sees of a pool of puts: the contents, what was returned, and the statistics. -/
def observed (pool : Puts) : List Bytes × Bool × ℕ × ℕ :=
  (pool.threads.map Put.bytes,
    pool.threads.any fun put =>
      match put.point with
      | .returned (.ok _) => true
      | _ => false,
    match stats [utf8 "objects"] pool.shared.files with
    | .ok counts => counts
    | .error _ => (0, 0))

theorem samePuts_store_one : ∃ pool,
    Runs.run (Puts.step Sample.primitives [utf8 "objects"])
      ⟨Disk.opened [utf8 "objects"] ⟨.empty, fun _ => 0⟩, []⟩ samePuts = some pool ∧
    observed pool = ([[1, 2, 3], [1, 2, 3]], true, 1, 3) ∧
    ∀ put ∈ pool.threads, ∀ id, put.point = .returned (.ok id) →
      id = ContentId.of Sample.primitives put.bytes ∧
        get Sample.primitives [utf8 "objects"] pool.shared.files id = .ok put.bytes := by
  obtain ⟨pool, hrun, hobserved⟩ := Option.map_eq_some_iff.mp (show
    (Runs.run (Puts.step Sample.primitives [utf8 "objects"])
      ⟨Disk.opened [utf8 "objects"] ⟨.empty, fun _ => 0⟩, []⟩ samePuts).map observed =
      some ([[1, 2, 3], [1, 2, 3]], true, 1, 3) by decide +kernel)
  have hbytes : ∀ put ∈ pool.threads, put.bytes = [1, 2, 3] := by
    intro put hput
    have hmem : put.bytes ∈ (observed pool).1 := List.mem_map_of_mem hput
    rw [hobserved] at hmem
    simpa using hmem
  refine ⟨pool, hrun, hobserved, ((store_exact ?_ hrun ?_).2.1 [] pool rfl).2⟩
  · intro path hpath
    exact absurd rfl hpath
  · intro put hput put' hput' _
    rw [hbytes put hput, hbytes put' hput']

end Peerless.Storage
