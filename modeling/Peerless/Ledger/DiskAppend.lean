import Peerless.Ledger.Reopen
import Peerless.Storage.Single

/-!
# Appends that fail

`Ledger::append` on the file system, with every way its system calls may be answered.  The block is pushed
in memory after `atomic_create` returned `Ok`; but that may return an error when the block's file is in
place, and then the directory holds a block that the ledger does not know.  The next block of that height
has another hash and so another file, and `open` refuses two files of one height.

* `failed_append_iff` — a failed append leaves the block files as they were exactly when no
  call after the `hard_link` failed; in a run of such appends, on one network, memory and disk stay in
  step.
-/

namespace Peerless.Chain

open Text JsonText Files Peerless.Core Identity Storage Sample

variable {P : Primitives} {parse : Bytes → Option Block}

/-! ### The call -/

/-- An append, with the process that makes it and the answers its system calls get, one each. -/
structure AppendCall (P : Primitives) where
  process : Process
  block : Block
  consensus : ConsensusEngine P
  answers : List Answer

variable (P) in
/-- The path of a block's file. -/
def blockPath (root : Path) (block : Block) : Path := root ++ [block.fileName P]

/-- The file system with the ledger's directory. -/
def withRoot (root : Path) (disk : Disk) : Disk := { disk with files := disk.files.createDirAll root }

variable (P) in
/-- `Ledger::append` on the file system; `none` if the process ends in it. -/
def Ledger.appendAt (root : Path) (disk : Disk) (l : Ledger) (call : AppendCall P) :
    Option (Disk × Ledger × Except LedgerError Digest) :=
  match l.checkAppend P call.block call.consensus, call.answers with
  | .error err, [] => some (disk, l, .error err)
  -- `create_dir_all`
  | .ok (), [.failed _] => some (disk, l, .error .io)
  | .ok (), .done _ :: answers =>
    if call.block.encodePretty.length > maxBlockBytes then
      if answers = [] then some (withRoot root disk, l, .error .invalidBlock) else none
    else
      match atomicCreate (blockPath P root call.block) call.process call.block.encodePretty answers
          (withRoot root disk) with
      | none => none
      | some (disk', .error _) => some (disk', l, .error .io)
      | some (disk', .ok ()) => some (disk', ⟨l.blocks ++ [call.block]⟩, .ok (call.block.hash P))
  | _, _ => none

variable (P) in
/-- **The condition**: no call after the `hard_link` fails. -/
def SparesPublished (root : Path) (disk : Disk) (call : AppendCall P) : Prop :=
  Runs.Meets (createStep (blockPath P root call.block)) (fun s answer => spares s answer = true)
    (createStart call.process call.block.encodePretty (withRoot root disk)) call.answers.tail

variable {block : Block}

/-! ### Block files and temporary files -/

/-- The name of a temporary file does not end in `.json`. -/
theorem isJson_temporaryName (stem : Bytes) (pid : UInt32) (sequence : UInt64) :
    isJson (temporaryName stem pid sequence) = false := by
  refine Bool.eq_false_iff.mpr fun hjson => ?_
  have hsuffix := List.isSuffixOf_iff_suffix.mp ((Bool.and_eq_true _ _).mp hjson).2
  obtain ⟨front, hfront⟩ := hsuffix
  have hlast := congrArg List.getLast? hfront
  rw [List.getLast?_append, temporaryName, List.getLast?_append] at hlast
  cases hlast

theorem not_scratch_json {root : Path} {name : Bytes} (h : isJson name = true) :
    ¬Scratch (blockPath P root block) (root ++ [name]) := by
  rintro ⟨pid, sequence, hpath⟩
  rw [blockPath, List.dropLast_concat] at hpath
  have hname := List.cons.inj (List.append_cancel_left hpath)
  rw [hname.1, isJson_temporaryName] at h
  cases h

theorem blockPath_inj {root : Path} {name : Bytes} :
    root ++ [name] = blockPath P root block ↔ name = block.fileName P := by
  constructor
  · intro h
    exact (List.cons.inj (List.append_cancel_left h)).1
  · intro h
    rw [h]
    rfl

/-! ### What a call does -/

/-- The block files of a directory are as they were. -/
def SameBlocks (root : Path) (disk disk' : Disk) : Prop :=
  ∀ name, isJson name = true → disk'.files.read (root ++ [name]) = disk.files.read (root ++ [name])

/-- The block's file is new, and the other block files are as they were. -/
structure Published (P : Primitives) (root : Path) (block : Block) (disk disk' : Disk) : Prop where
  free : disk.files.read (blockPath P root block) = none
  there : disk'.files.read (blockPath P root block) = some block.encodePretty
  others : ∀ name, isJson name = true → name ≠ block.fileName P →
    disk'.files.read (root ++ [name]) = disk.files.read (root ++ [name])

variable {root : Path} {disk disk' : Disk} {l l' : Ledger} {call : AppendCall P}
  {result : Except LedgerError Digest}

/-- **Everything an append does**: it fails and leaves the block files as they were; it succeeds, and its
block is in memory and on disk; or it fails with the file in place. -/
theorem appendAt_cases (h : l.appendAt P root disk call = some (disk', l', result)) :
    ((∃ err, result = .error err) ∧ l' = l ∧ SameBlocks root disk disk' ∧
      SparesPublished P root disk call) ∨
    (l.Accepts P call.consensus call.block ∧ Published P root call.block disk disk' ∧
      (((∃ hash, result = .ok hash) ∧ l' = ⟨l.blocks ++ [call.block]⟩ ∧
          SparesPublished P root disk call) ∨
        ((∃ err, result = .error err) ∧ l' = l ∧ ¬SparesPublished P root disk call))) := by
  obtain ⟨process, block, consensus, answers⟩ := call
  unfold Ledger.appendAt at h
  split at h
  · rename_i err hchecked hanswers
    obtain rfl : answers = [] := hanswers
    cases h
    exact Or.inl ⟨⟨err, rfl⟩, rfl, fun _ _ => rfl, trivial⟩
  · rename_i error hchecked hanswers
    obtain rfl : answers = [.failed error] := hanswers
    cases h
    exact Or.inl ⟨⟨_, rfl⟩, rfl, fun _ _ => rfl, trivial⟩
  · rename_i count rest hchecked hanswers
    obtain rfl : answers = .done count :: rest := hanswers
    dsimp only at h hchecked
    split at h
    · split at h
      · rename_i hrest
        subst hrest
        cases h
        exact Or.inl ⟨⟨_, rfl⟩, rfl, fun _ _ => rfl, trivial⟩
      · cases h
    · rename_i hsize
      have haccepts := Ledger.accepts_iff.mpr ⟨hchecked, not_lt.mp hsize⟩
      cases hcreate : atomicCreate (blockPath P root block) process block.encodePretty rest
          (withRoot root disk) with
      | none => rw [hcreate] at h; cases h
      | some created =>
        obtain ⟨disk₁, outcome⟩ := created
        rw [hcreate] at h
        obtain ⟨hothers, hcases⟩ := atomicCreate_cases hcreate
        have hnames : ∀ name, isJson name = true → name ≠ block.fileName P →
            disk₁.files.read (root ++ [name]) = disk.files.read (root ++ [name]) := by
          intro name hjson hname
          exact hothers _ (not_scratch_json hjson) fun hpath => hname (blockPath_inj.mp hpath)
        rcases hcases with ⟨⟨error, rfl⟩, hread, hspares⟩ | ⟨hfree, hthere, hok⟩
        · cases h
          refine Or.inl ⟨⟨_, rfl⟩, rfl, ?_, hspares⟩
          intro name hjson
          by_cases hname : name = block.fileName P
          · rw [blockPath_inj.mpr hname]
            exact hread
          · exact hnames name hjson hname
        · have hpublished : Published P root block disk disk₁ := ⟨hfree, hthere, hnames⟩
          cases outcome with
          | error error =>
            cases h
            exact Or.inr ⟨haccepts, hpublished, Or.inr ⟨⟨_, rfl⟩, rfl, fun hspares =>
              absurd (hok.mpr hspares) (fun heq => by cases heq)⟩⟩
          | ok =>
            cases h
            exact Or.inr ⟨haccepts, hpublished, Or.inl ⟨⟨_, rfl⟩, rfl, hok.mp rfl⟩⟩
  · cases h

/-! ### The directory as a listing -/

/-- The files of a directory, name and content. -/
def listFiles (files : FileSystem Bytes UInt8) (root : Path) : Dir :=
  files.entries.keys.filterMap fun path =>
    (FileSystem.child root path).map fun name => (name, (files.read path).getD [])

theorem mem_listFiles {files : FileSystem Bytes UInt8} {name bytes : Bytes} :
    (name, bytes) ∈ listFiles files root ↔ files.read (root ++ [name]) = some bytes := by
  unfold listFiles
  rw [List.mem_filterMap]
  constructor
  · rintro ⟨path, hpath, hentry⟩
    obtain ⟨name', hchild, hpair⟩ := Option.map_eq_some_iff.mp hentry
    obtain ⟨rfl, rfl⟩ := Prod.mk.inj hpair
    obtain ⟨inode, hinode⟩ := Option.isSome_iff_exists.mp (AList.lookup_isSome.mpr hpath)
    have hread : files.read path = some (files.contents inode) :=
      FileSystem.read_eq_some_iff.mpr ⟨inode, hinode, rfl⟩
    rw [← FileSystem.child_eq_some_iff.mp hchild, hread]
    rfl
  · intro hread
    obtain ⟨inode, hinode, _⟩ := FileSystem.read_eq_some_iff.mp hread
    refine ⟨root ++ [name], AList.lookup_isSome.mp (Option.isSome_iff_exists.mpr ⟨inode, hinode⟩), ?_⟩
    rw [FileSystem.child_eq_some_iff.mpr rfl, hread]
    rfl

theorem listFiles_names (files : FileSystem Bytes UInt8) (root : Path) :
    ((listFiles files root).map Prod.fst).Nodup := by
  have hnames : (listFiles files root).map Prod.fst =
      files.entries.keys.filterMap (FileSystem.child root) := by
    rw [listFiles, List.map_filterMap]
    refine List.filterMap_congr fun path _ => ?_
    rw [Option.map_map]
    exact Option.map_id'
  rw [hnames]
  exact List.Nodup.filterMap (fun _ _ _ hp hq => FileSystem.child_inj hp hq) files.entries.keys_nodup

/-- What a directory reads back as depends on its block files only. -/
theorem Reads.congr {dir dir' : Dir} {blocks : List Block} (h : Reads P parse dir blocks)
    (hnames : (dir'.map Prod.fst).Nodup)
    (hsame : ∀ name bytes, isJson name = true → ((name, bytes) ∈ dir' ↔ (name, bytes) ∈ dir)) :
    Reads P parse dir' blocks := by
  have hsort := List.perm_insertionSort (fun a b : Bytes × Bytes => a.1 ≤ b.1)
  have hnodup : ∀ d : Dir, (d.map Prod.fst).Nodup →
      (((d.insertionSort fun a b => a.1 ≤ b.1).filter fun e => isJson e.1).map Prod.fst).Nodup := by
    intro d hd
    refine List.Nodup.sublist (List.Sublist.map _ List.filter_sublist) ?_
    exact (((hsort d).map Prod.fst).nodup_iff).mpr hd
  have hfiles : ((dir'.insertionSort fun a b => a.1 ≤ b.1).filter fun e => isJson e.1) =
      (dir.insertionSort fun a b => a.1 ≤ b.1).filter fun e => isJson e.1 := by
    refine sorted_files_unique ?_ (hnodup dir h.names) ((List.pairwise_insertionSort _ _).filter _)
      ((List.pairwise_insertionSort _ _).filter _)
    refine (List.perm_ext_iff_of_nodup (hnodup dir' hnames).of_map (hnodup dir h.names).of_map).mpr ?_
    rintro ⟨name, bytes⟩
    rw [List.mem_filter, List.mem_filter, (hsort dir').mem_iff, (hsort dir).mem_iff]
    constructor
    · rintro ⟨hmem, hjson⟩
      exact ⟨(hsame name bytes hjson).mp hmem, hjson⟩
    · rintro ⟨hmem, hjson⟩
      exact ⟨(hsame name bytes hjson).mpr hmem, hjson⟩
  exact ⟨hnames, by rw [hfiles]; exact h.files, h.heights⟩

/-- What the validation loop remembers in the end. -/
theorem cursor_of_run : ∀ (front : List Block) (blocks : List Block) {c : Cursor},
    Runs.run (checkBlock P) (cursorOf P front) blocks = some c → c = cursorOf P (front ++ blocks) := by
  intro front blocks
  induction blocks generalizing front with
  | nil =>
    intro c h
    rw [List.append_nil]
    exact (Option.some.inj h).symm
  | cons b blocks ih =>
    intro c h
    obtain ⟨c₁, hstep, hrest⟩ := Runs.run_cons h
    have hcursor : c₁ = cursorOf P (front ++ [b]) := by
      rw [(checkBlock_eq_some_iff.mp hstep).2, cursorOf, cursorOf, List.length_append,
        List.getLast?_concat]
      rfl
    rw [hcursor] at hrest
    have hfinal := ih (front ++ [b]) hrest
    rw [List.append_assoc] at hfinal
    exact hfinal

/-! ### Memory and disk in step -/

/-- The directory reads back as the blocks in memory, and they are a chain. -/
structure InStep (P : Primitives) (parse : Bytes → Option Block) (root : Path) (s : Disk × Ledger) :
    Prop where
  reads : Reads P parse (listFiles s.1.files root) s.2.blocks
  chain : Runs.run (checkBlock P) Cursor.start s.2.blocks = some (cursorOf P s.2.blocks)

theorem inStep_of_open (h : Ledger.open P parse (listFiles disk.files root) = .ok l) :
    InStep P parse root (disk, l) := by
  have hreads := reads_of_open (listFiles_names disk.files root) (List.Perm.refl _) h
  refine ⟨hreads, ?_⟩
  rw [hreads.open (List.Perm.refl _)] at h
  unfold validate at h
  split at h
  · cases h
  · rename_i c hrun
    rw [hrun, cursor_of_run [] l.blocks hrun]
    rfl

theorem InStep.open {s : Disk × Ledger} (h : InStep P parse root s) {listing : Dir}
    (hperm : listing.Perm (listFiles s.1.files root)) : Ledger.open P parse listing = .ok s.2 := by
  rw [h.reads.open hperm, validate, h.chain]

/-- A failed append that left the block files as they were. -/
theorem InStep.failed (h : InStep P parse root (disk, l)) (hsame : SameBlocks root disk disk') :
    InStep P parse root (disk', l) := by
  refine ⟨h.reads.congr (listFiles_names _ _) ?_, h.chain⟩
  intro name bytes hjson
  rw [mem_listFiles, mem_listFiles]
  rw [hsame name hjson]

/-- An append that put its block in memory and on disk. -/
theorem InStep.appended {consensus : ConsensusEngine P} (h : InStep P parse root (disk, l))
    (haccepts : l.Accepts P consensus block) (hpublished : Published P root block disk disk')
    (hparse : parse block.encodePretty = some block)
    (hnetwork : ∀ a ∈ l.blocks, a.consensus.networkId = block.consensus.networkId) :
    InStep P parse root (disk', ⟨l.blocks ++ [block]⟩) := by
  have hnew : block.fileName P ∉ (listFiles disk.files root).map Prod.fst := by
    intro hmem
    obtain ⟨⟨name, bytes⟩, hentry, rfl⟩ := List.mem_map.mp hmem
    have hread : disk.files.read (blockPath P root block) = some bytes := mem_listFiles.mp hentry
    rw [hpublished.free] at hread
    cases hread
  have hreads := h.reads.append hnew haccepts.height haccepts.size hparse
  constructor
  · refine hreads.congr (listFiles_names _ _) ?_
    intro name bytes hjson
    rw [mem_listFiles, List.mem_append, mem_listFiles, List.mem_singleton]
    by_cases hname : name = block.fileName P
    · subst hname
      rw [show disk'.files.read (root ++ [block.fileName P]) = some block.encodePretty from
        hpublished.there, show disk.files.read (root ++ [block.fileName P]) = none from hpublished.free]
      constructor
      · intro hbytes
        rw [← Option.some.inj hbytes]
        exact Or.inr rfl
      · rintro (hnone | hfile)
        · cases hnone
        · rw [(Prod.mk.inj hfile).2]
    · rw [hpublished.others name hjson hname]
      constructor
      · exact Or.inl
      · rintro (hold | hfile)
        · exact hold
        · exact absurd (Prod.mk.inj hfile).1 hname
  · have hnext := checkBlock_of_accepts haccepts hnetwork
    exact Runs.run_append _ _ _ _ _ h.chain (by rw [Runs.run_of_step hnext]; rfl)

/-! ### Two files of one height -/

/-- Every file that is read is one of the blocks. -/
theorem readAll_mem : ∀ (files : Dir) (blocks : List Block), readAll P parse files = .ok blocks →
    ∀ entry ∈ files, ∃ b ∈ blocks, readEntry P parse entry = .ok b := by
  intro files
  induction files with
  | nil => intro blocks _ entry hentry; cases hentry
  | cons file files ih =>
    intro blocks h entry hentry
    rw [readAll] at h
    split at h
    · cases h
    · rename_i block hblock
      split at h
      · cases h
      · rename_i rest hrest
        rw [← Except.ok.inj h]
        rcases List.mem_cons.mp hentry with rfl | hentry
        · exact ⟨block, List.mem_cons_self, hblock⟩
        · obtain ⟨b, hb, hread⟩ := ih rest hrest entry hentry
          exact ⟨b, List.mem_cons_of_mem _ hb, hread⟩

/-- A block whose file is in a directory that opens is one of its blocks. -/
theorem mem_of_open (hopen : Ledger.open P parse (listFiles disk.files root) = .ok l)
    (hthere : disk.files.read (blockPath P root block) = some block.encodePretty)
    (hparse : parse block.encodePretty = some block) : block ∈ l.blocks := by
  have hreads := reads_of_open (listFiles_names disk.files root) (List.Perm.refl _) hopen
  have hfile : (block.fileName P, block.encodePretty) ∈
      ((listFiles disk.files root).insertionSort fun a b => a.1 ≤ b.1).filter fun e => isJson e.1 := by
    rw [List.mem_filter, (List.perm_insertionSort _ _).mem_iff]
    exact ⟨mem_listFiles.mpr hthere, isJson_fileName block⟩
  obtain ⟨b, hb, hread⟩ := readAll_mem _ _ hreads.files _ hfile
  unfold readEntry at hread
  rw [hparse] at hread
  split at hread
  · cases hread
  · dsimp only at hread
    split at hread
    · cases hread
    · rw [Except.ok.inj hread]
      exact hb

theorem forked_refused {a b : Block} (hheight : a.height = b.height) (hname : a.fileName P ≠ b.fileName P)
    (ha : disk.files.read (blockPath P root a) = some a.encodePretty)
    (hb : disk.files.read (blockPath P root b) = some b.encodePretty)
    (hparse : RoundTrips parse [a, b]) : Ledger.open P parse (listFiles disk.files root) ≠ .ok l := by
  intro hopen
  have hamem := mem_of_open hopen ha (hparse a List.mem_cons_self)
  have hbmem := mem_of_open hopen hb (hparse b (List.mem_cons_of_mem _ List.mem_cons_self))
  have hreads := reads_of_open (listFiles_names disk.files root) (List.Perm.refl _) hopen
  have hdistinct : (l.blocks.map fun b => b.height.toNat).Nodup := by
    rw [hreads.heights]
    exact List.nodup_range
  have hsame : a = b :=
    List.inj_on_of_nodup_map hdistinct hamem hbmem (congrArg UInt64.toNat hheight)
  exact hname (congrArg (Block.fileName P) hsame)

/-! ### Runs of appends -/

/-- One append after another, whatever they return. -/
def diskStep (root : Path) (s : Disk × Ledger) (call : AppendCall P) : Option (Disk × Ledger) :=
  match s.2.appendAt P root s.1 call with
  | none => none
  | some (disk, ledger, _) => some (disk, ledger)

theorem inStep_step {s s' : Disk × Ledger} (h : InStep P parse root s)
    (hparse : parse call.block.encodePretty = some call.block)
    (hspares : SparesPublished P root s.1 call)
    (hnetwork : ∀ a ∈ s.2.blocks, a.consensus.networkId = call.block.consensus.networkId)
    (hstep : diskStep root s call = some s') : InStep P parse root s' := by
  unfold diskStep at hstep
  split at hstep
  · cases hstep
  · rename_i disk' l' result happend
    rw [← Option.some.inj hstep]
    rcases appendAt_cases happend with ⟨_, rfl, hsame, _⟩ |
      ⟨haccepts, hpublished, ⟨_, rfl, _⟩ | ⟨_, _, hlate⟩⟩
    · exact h.failed hsame
    · exact h.appended haccepts hpublished hparse hnetwork
    · exact absurd hspares hlate

/-- **When a failed append leaves memory and disk in step.**  The blocks in memory never change.  The block
files are as they were exactly when no call after the `hard_link` failed.  In a run of appends of which
none fails so late, and on one network, the directory opens to the blocks in memory after every one of
them; and if one does fail so late, the directory is refused after the next success at that height. -/
theorem failed_append_iff (root : Path) :
    (∀ (disk disk' : Disk) (l l' : Ledger) (call : AppendCall P) err,
      l.appendAt P root disk call = some (disk', l', .error err) →
        l' = l ∧ (SameBlocks root disk disk' ↔ SparesPublished P root disk call)) ∧
    (∀ (disk : Disk) (l : Ledger) (calls : List (AppendCall P)) s,
      Ledger.open P parse (listFiles disk.files root) = .ok l →
      Runs.Meets (diskStep root) (fun s call => parse call.block.encodePretty = some call.block ∧
        SparesPublished P root s.1 call ∧
        ∀ a ∈ s.2.blocks, a.consensus.networkId = call.block.consensus.networkId) (disk, l) calls →
      Runs.run (diskStep root) (disk, l) calls = some s →
      ∀ listing : Dir, listing.Perm (listFiles s.1.files root) → Ledger.open P parse listing = .ok s.2) ∧
    (∀ (disk disk₁ disk₂ : Disk) (l l₁ l₂ : Ledger) (first second : AppendCall P) err hash,
      l.appendAt P root disk first = some (disk₁, l₁, .error err) → ¬SparesPublished P root disk first →
      l₁.appendAt P root disk₁ second = some (disk₂, l₂, .ok hash) →
      RoundTrips parse [first.block, second.block] →
      ∀ l₃, Ledger.open P parse (listFiles disk₂.files root) ≠ .ok l₃) := by
  refine ⟨?_, ?_, ?_⟩
  · intro disk disk' l l' call err h
    rcases appendAt_cases h with ⟨_, hl, hsame, hspares⟩ |
      ⟨_, hpublished, ⟨⟨_, hok⟩, _⟩ | ⟨_, hl, hlate⟩⟩
    · exact ⟨hl, fun _ => hspares, fun _ => hsame⟩
    · cases hok
    · refine ⟨hl, fun hsame => ?_, fun hspares => absurd hspares hlate⟩
      have hread := hsame (call.block.fileName P) (isJson_fileName call.block)
      rw [show disk'.files.read (root ++ [call.block.fileName P]) = some _ from hpublished.there,
        show disk.files.read (root ++ [call.block.fileName P]) = none from hpublished.free] at hread
      cases hread
  · intro disk l calls s hopen hmeets hrun listing hperm
    have hstep : InStep P parse root s := Runs.run_invariant (I := InStep P parse root)
      (fun s call s' hs hok hstep => inStep_step hs hok.1 hok.2.1 hok.2.2 hstep) calls _ s
      (inStep_of_open hopen) hmeets hrun
    exact hstep.open hperm
  · intro disk disk₁ disk₂ l l₁ l₂ first second err hash hfirst hlate hsecond hparse l₃
    rcases appendAt_cases hfirst with ⟨_, _, _, hspares⟩ |
      ⟨haccepts, hpublished, ⟨⟨_, hok⟩, _⟩ | ⟨_, hl, _⟩⟩
    · exact absurd hspares hlate
    · cases hok
    rcases appendAt_cases hsecond with ⟨⟨_, herr⟩, _⟩ | ⟨haccepts', hpublished', _⟩
    · cases herr
    have hname : first.block.fileName P ≠ second.block.fileName P := by
      intro hsame
      have hfree := hpublished'.free
      rw [blockPath, ← hsame] at hfree
      rw [show disk₁.files.read (root ++ [first.block.fileName P]) = some _ from hpublished.there] at hfree
      cases hfree
    have hheight : first.block.height = second.block.height := by
      refine UInt64.toNat_inj.mp ?_
      rw [haccepts.height, haccepts'.height, hl]
    refine forked_refused hheight hname ?_ hpublished'.there hparse
    exact (hpublished'.others _ (isJson_fileName first.block) hname).trans hpublished.there

instance (root : Path) (disk : Disk) (call : AppendCall P) : Decidable (SparesPublished P root disk call) :=
  inferInstanceAs (Decidable (Runs.Meets _ _ _ _))

/-! ### Two sample runs -/

/-- The first block of a ledger, made at a time. -/
def openingBlock (timestamp : ℕ) : Block :=
  ((soloEngine "local").finalize ((⟨[]⟩ : Ledger).nextBlock compact [] timestamp "local")
    [NodeIdentity.ofKeypair (P := compact) ([1] : Bytes)]).1

/-- An append of such a block with the given answers. -/
def soloAppend (timestamp : ℕ) (answers : List Answer) : AppendCall compact :=
  ⟨⟨7, 0⟩, openingBlock timestamp, (soloEngine "local").engine compact, answers⟩

/-- The two `create_dir_all`, the number and the creation of the temporary file. -/
def opened : List Answer := List.replicate 4 (.done 0)

/-- The `write` and the `sync_all`, the `hard_link`, and the removal of the temporary file. -/
def linked : List Answer := .done 100000 :: List.replicate 3 (.done 0)

def ioError : Error := .os (.other 5)

/-- A block that cannot be written, and one that can. -/
def failedWrite : List (AppendCall compact) :=
  [soloAppend 1 (opened ++ [.failed ioError, .done 0]), soloAppend 2 (opened ++ linked ++ [.done 0])]

def emptyDisk : Disk := ⟨.empty, fun _ => 0⟩

def readsFirst : Bytes → Option Block := lookupParse [openingBlock 1, openingBlock 2]

/-- What is asked of the appends of the sample run. -/
def inStepMeets (s : Disk × Ledger) (call : AppendCall compact) : Bool :=
  decide (readsFirst call.block.encodePretty = some call.block ∧ SparesPublished compact [[1]] s.1 call ∧
    ∀ a ∈ s.2.blocks, a.consensus.networkId = call.block.consensus.networkId)

/-- After a failed write the next block of that height is appended, and the directory opens to it. -/
theorem failed_write_in_step : ∃ s : Disk × Ledger,
    Runs.run (diskStep [[1]]) (emptyDisk, ⟨[]⟩) failedWrite = some s ∧ s.2.blocks.length = 1 ∧
      Ledger.open compact readsFirst (listFiles s.1.files [[1]]) = .ok s.2 := by
  obtain ⟨s, hguarded, hblocks⟩ := Option.map_eq_some_iff.mp (show
    (Runs.run (Runs.guarded (diskStep [[1]]) inStepMeets) (emptyDisk, ⟨[]⟩) failedWrite).map
      (fun s => s.2.blocks.length) = some 1 by decide +kernel)
  obtain ⟨hmeets, hrun⟩ := Runs.run_guarded _ _ s hguarded
  simp only [inStepMeets, decide_eq_true_eq] at hmeets
  refine ⟨s, hrun, hblocks, ?_⟩
  have hopen : Ledger.open compact readsFirst (listFiles emptyDisk.files [[1]]) = .ok ⟨[]⟩ := rfl
  exact (failed_append_iff [[1]]).2.1 emptyDisk ⟨[]⟩ failedWrite s hopen hmeets hrun _
    (List.Perm.refl _)

/-- **An append that fails with its file in place.**  The directory sync of the first block fails; the
ledger is still empty and takes another block of that height, and is refused when it is opened again. -/
theorem failed_sync_forks : ∃ (disk₁ disk₂ : Disk) (hash : Digest),
    Ledger.open compact readsFirst (listFiles emptyDisk.files [[1]]) = .ok ⟨[]⟩ ∧
    (⟨[]⟩ : Ledger).appendAt compact [[1]] emptyDisk
        (soloAppend 1 (opened ++ linked ++ [.failed ioError])) = some (disk₁, ⟨[]⟩, .error .io) ∧
    ¬SameBlocks [[1]] emptyDisk disk₁ ∧
    (⟨[]⟩ : Ledger).appendAt compact [[1]] disk₁ (soloAppend 2 (opened ++ linked ++ [.done 0])) =
        some (disk₂, ⟨[openingBlock 2]⟩, .ok hash) ∧
    Ledger.open compact readsFirst (listFiles disk₂.files [[1]]) = .error .invalidBlock := by
  have heval : ((⟨[]⟩ : Ledger).appendAt compact [[1]] emptyDisk
      (soloAppend 1 (opened ++ linked ++ [.failed ioError]))).bind (fun r =>
        ((⟨[]⟩ : Ledger).appendAt compact [[1]] r.1
          (soloAppend 2 (opened ++ linked ++ [.done 0]))).map fun r' => decide
            ((r.2.1 = ⟨[]⟩ ∧ r.2.2 = .error .io ∧
              (r.1.files.read (blockPath compact [[1]] (openingBlock 1))).isSome = true) ∧
              r'.2.1 = ⟨[openingBlock 2]⟩ ∧ r'.2.2 = .ok ((openingBlock 2).hash compact) ∧
              Ledger.open compact readsFirst (listFiles r'.1.files [[1]]) = .error .invalidBlock)) =
      some true := by
    decide +kernel
  obtain ⟨⟨disk₁, l₁, result₁⟩, hfirst, heval⟩ := Option.bind_eq_some_iff.mp heval
  obtain ⟨⟨disk₂, l₂, result₂⟩, hsecond, hall⟩ := Option.map_eq_some_iff.mp heval
  obtain ⟨⟨rfl, rfl, hthere⟩, rfl, rfl, hopen⟩ := of_decide_eq_true hall
  refine ⟨disk₁, disk₂, _, rfl, hfirst, ?_, hsecond, hopen⟩
  intro hsame
  have hread : disk₁.files.read (blockPath compact [[1]] (openingBlock 1)) =
      emptyDisk.files.read (blockPath compact [[1]] (openingBlock 1)) :=
    hsame ((openingBlock 1).fileName compact) (isJson_fileName _)
  rw [hread] at hthere
  cases hthere

end Peerless.Chain
