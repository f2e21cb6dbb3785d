import Peerless.Ledger.Store
import Peerless.Ledger.Leader

/-!
# Reopening what was appended

A run of successful `Ledger::append` calls on an empty directory, each with an engine of its own.

* `open_appended_iff` — the directory reopens to the appended blocks exactly when all of
  them carry one network id.  `append` never compares the network ids of successive blocks.
-/

namespace Peerless.Chain

open Text JsonText Peerless.Core Identity Sample

variable {P : Primitives} {parse : Bytes → Option Block}

/-! ### File names -/

theorem height_lt_width (h : UInt64) : h.toNat < 10 ^ 20 :=
  lt_of_lt_of_le h.toNat_lt (by decide)

variable {b : Block}

theorem Block.fileName_lt {a : Block} (h : a.height.toNat < b.height.toNat) :
    a.fileName P < b.fileName P := by
  simp only [Block.fileName, List.append_assoc]
  refine append_lt_append _ _ _ _ ?_ (zeroPadded_lt (by decide) (height_lt_width _) h)
  rw [zeroPadded_length (by decide) (height_lt_width _),
    zeroPadded_length (by decide) (height_lt_width _)]

theorem isJson_fileName (b : Block) : isJson (b.fileName P) = true := by
  have hlen : (zeroPadded 20 b.height.toNat).length = 20 :=
    zeroPadded_length (by decide) (height_lt_width _)
  unfold isJson
  rw [Bool.and_eq_true, List.isSuffixOf_iff_suffix, decide_eq_true_eq]
  constructor
  · simp only [Block.fileName, List.length_append, hlen]
    omega
  · exact List.suffix_append _ _

/-! ### Listing the directory -/

/-- The file a block is stored in. -/
def Block.file (P : Primitives) (b : Block) : Bytes × Bytes := (b.fileName P, b.encodePretty)

instance : Std.Total fun a b : Bytes × Bytes => a.1 ≤ b.1 := ⟨fun a b => le_total a.1 b.1⟩

instance : IsTrans (Bytes × Bytes) fun a b => a.1 ≤ b.1 := ⟨fun _ _ _ => le_trans⟩

variable {blocks : List Block} {listing : Dir}

/-- However the directory is listed, sorting brings the files back into the order of heights. -/
theorem sort_listing (hheights : blocks.Pairwise fun a b => a.height.toNat < b.height.toNat)
    (hperm : listing.Perm (blocks.map (Block.file P))) :
    (listing.insertionSort fun a b => a.1 ≤ b.1) = blocks.map (Block.file P) := by
  have hstrict : (blocks.map (Block.file P)).Pairwise fun a b => a.1 < b.1 :=
    List.pairwise_map.mpr (hheights.imp fun h => Block.fileName_lt h)
  have hsorted : (blocks.map (Block.file P)).Pairwise fun a b => a.1 ≤ b.1 :=
    hstrict.imp le_of_lt
  have hp := (List.perm_insertionSort (fun a b : Bytes × Bytes => a.1 ≤ b.1) listing).trans hperm
  have hnames : ((blocks.map (Block.file P)).map Prod.fst).Nodup :=
    List.pairwise_map.mpr (hstrict.imp ne_of_lt)
  refine hp.eq_of_pairwise ?_ (List.pairwise_insertionSort _ _) hsorted
  intro x y hx hy hxy hyx
  exact List.inj_on_of_nodup_map hnames (hp.subset hx) hy (le_antisymm hxy hyx)

/-- `parse` reads back what was written for these blocks. -/
def RoundTrips (parse : Bytes → Option Block) (blocks : List Block) : Prop :=
  ∀ b ∈ blocks, parse b.encodePretty = some b

theorem readAll_files : ∀ blocks : List Block, RoundTrips parse blocks →
    (∀ b ∈ blocks, b.encodePretty.length ≤ maxBlockBytes) →
    readAll P parse (blocks.map (Block.file P)) = .ok blocks := by
  intro blocks
  induction blocks with
  | nil => intro _ _; rfl
  | cons b bs ih =>
    intro hparse hsize
    have hrest := ih (fun x hx => hparse x (by simp [hx])) (fun x hx => hsize x (by simp [hx]))
    have hentry : readEntry P parse (b.file P) = .ok b := by
      unfold readEntry Block.file
      rw [if_neg (not_lt.mpr (hsize b (by simp))), hparse b (by simp)]
      simp
    rw [List.map_cons, readAll, hentry, hrest]

/-! ### The validation loop -/

/-- All blocks carry one network id. -/
def SameNetwork (blocks : List Block) : Prop :=
  ∀ a ∈ blocks, ∀ b ∈ blocks, a.consensus.networkId = b.consensus.networkId

/-- What the loop remembers after a list of blocks. -/
def cursorOf (P : Primitives) (blocks : List Block) : Cursor :=
  ⟨blocks.length, blocks.getLast?.map (Block.hash P),
    blocks.getLast?.map fun b => b.consensus.networkId, blocks.getLast?.map Block.timestamp⟩

theorem checkBlock_eq_some_iff {c c' : Cursor} : checkBlock P c b = some c' ↔
    (b.version = 1 ∧ b.height.toNat = c.height ∧ b.previous = c.previous ∧
      b.eventsRoot = eventsRoot P b.events ∧ (∀ n ∈ c.networkId, n = b.consensus.networkId) ∧
      (∀ t ∈ c.lastTimestamp, t ≤ b.timestamp)) ∧
    c' = ⟨c.height + 1, some (b.hash P), some b.consensus.networkId, some b.timestamp⟩ := by
  have hnet : (¬ (c.networkId.any fun known => known ≠ b.consensus.networkId) = true) ↔
      ∀ n ∈ c.networkId, n = b.consensus.networkId := by
    cases c.networkId <;> simp
  have htime : (¬ (c.lastTimestamp.any fun known => known > b.timestamp) = true) ↔
      ∀ t ∈ c.lastTimestamp, t ≤ b.timestamp := by
    cases c.lastTimestamp <;> simp
  unfold checkBlock
  split
  · rename_i h
    simp only [reduceCtorEq, false_iff]
    intro ⟨⟨h1, h2, h3, h4, h5, h6⟩, _⟩
    rcases h with h | h | h | h | h | h
    · exact h h1
    · exact h h2
    · exact h h3
    · exact h h4
    · exact hnet.mpr h5 h
    · exact htime.mpr h6 h
  · rename_i h
    simp only [not_or, ne_eq, not_not] at h
    obtain ⟨h1, h2, h3, h4, h5, h6⟩ := h
    rw [Option.some.injEq, eq_comm]
    exact ⟨fun hc => ⟨⟨h1, h2, h3, h4, hnet.mp h5, htime.mp h6⟩, hc⟩, fun hc => hc.2⟩

/-- Once a network id is known, the loop lets only its blocks pass. -/
theorem networkId_of_run : ∀ (bs : List Block) (c c' : Cursor) (n : String), c.networkId = some n →
    Runs.run (checkBlock P) c bs = some c' → ∀ b ∈ bs, b.consensus.networkId = n := by
  intro bs
  induction bs with
  | nil => intro c c' n _ _ b hb; exact absurd hb List.not_mem_nil
  | cons a bs ih =>
    intro c c' n hn hrun b hb
    obtain ⟨c₁, hstep, hrest⟩ := Runs.run_cons hrun
    obtain ⟨⟨_, _, _, _, hnet, _⟩, hc₁⟩ := checkBlock_eq_some_iff.mp hstep
    have ha : a.consensus.networkId = n := (hnet n hn).symm
    rcases List.mem_cons.mp hb with rfl | hb
    · exact ha
    · exact ih c₁ c' n (by rw [hc₁, ha]) hrest b hb

/-- **What passes the loop carries one network id.** -/
theorem sameNetwork_of_run {bs : List Block} {c : Cursor}
    (hrun : Runs.run (checkBlock P) Cursor.start bs = some c) : SameNetwork bs := by
  cases bs with
  | nil => intro a ha; exact absurd ha List.not_mem_nil
  | cons x bs =>
    obtain ⟨c₁, hstep, hrest⟩ := Runs.run_cons hrun
    obtain ⟨_, hc₁⟩ := checkBlock_eq_some_iff.mp hstep
    have hall : ∀ b ∈ x :: bs, b.consensus.networkId = x.consensus.networkId := by
      intro b hb
      rcases List.mem_cons.mp hb with rfl | hb
      · rfl
      · exact networkId_of_run bs c₁ c _ (by rw [hc₁]) hrest b hb
    intro a ha b hb
    rw [hall a ha, hall b hb]

/-! ### Runs of appends -/

/-- A successful append of a block under an engine. -/
def appendStep (P : Primitives) (s : Dir × Ledger) (act : Block × ConsensusEngine P) :
    Option (Dir × Ledger) :=
  match s.2.append P s.1 act.1 act.2 with
  | .error _ => none
  | .ok (dir, ledger, _) => some (dir, ledger)

/-- What holds of the directory and the ledger between appends. -/
structure Stored (P : Primitives) (s : Dir × Ledger) : Prop where
  files : s.1 = s.2.blocks.map (Block.file P)
  heights : s.2.blocks.map (fun b => b.height.toNat) = List.range s.2.blocks.length
  sizes : ∀ b ∈ s.2.blocks, b.encodePretty.length ≤ maxBlockBytes
  chain : SameNetwork s.2.blocks →
    Runs.run (checkBlock P) Cursor.start s.2.blocks = some (cursorOf P s.2.blocks)

variable {s : Dir × Ledger}

theorem appendStep_eq_some_iff {s' : Dir × Ledger} {act : Block × ConsensusEngine P} :
    appendStep P s act = some s' ↔ s.2.Accepts P act.2 act.1 ∧
      act.1.fileName P ∉ s.1.map Prod.fst ∧
        s' = (s.1 ++ [act.1.file P], ⟨s.2.blocks ++ [act.1]⟩) := by
  unfold appendStep
  cases h : s.2.append P s.1 act.1 act.2 with
  | error e =>
    simp only [reduceCtorEq, false_iff]
    intro ⟨ha, hname, _⟩
    rw [Ledger.append_eq_ok_iff.mpr ⟨ha, hname, rfl⟩] at h
    cases h
  | ok r =>
    obtain ⟨ha, hname, hr⟩ := Ledger.append_eq_ok_iff.mp h
    subst hr
    simp only [Option.some.injEq]
    exact ⟨fun hs => ⟨ha, hname, hs.symm⟩, fun hs => hs.2.2.symm⟩

variable {l : Ledger}

/-- The loop takes an accepted block of the same network. -/
theorem checkBlock_of_accepts {e : ConsensusEngine P} (ha : l.Accepts P e b)
    (hnet : ∀ a ∈ l.blocks, a.consensus.networkId = b.consensus.networkId) :
    checkBlock P (cursorOf P l.blocks) b = some (cursorOf P (l.blocks ++ [b])) := by
  refine checkBlock_eq_some_iff.mpr ⟨⟨ha.version, ha.height, ha.previous, ha.root, ?_, ?_⟩, ?_⟩
  · intro n hn
    obtain ⟨a, hlast, rfl⟩ := Option.map_eq_some_iff.mp hn
    exact hnet a (List.mem_of_getLast? hlast)
  · intro t ht
    obtain ⟨a, hlast, rfl⟩ := Option.map_eq_some_iff.mp ht
    exact ha.timestamp a hlast
  · simp [cursorOf]

/-- **One append keeps the directory reopenable, network ids apart.** -/
theorem stored_step {s' : Dir × Ledger} {act : Block × ConsensusEngine P} (hs : Stored P s)
    (hstep : appendStep P s act = some s') : Stored P s' := by
  obtain ⟨ha, _, rfl⟩ := appendStep_eq_some_iff.mp hstep
  refine ⟨?_, ?_, ?_, ?_⟩
  · rw [hs.files, List.map_append]
    rfl
  · rw [List.map_append, hs.heights, List.length_append, List.length_singleton, List.range_succ,
      List.map_singleton, ha.height]
  · intro b hb
    rcases List.mem_append.mp hb with hb | hb
    · exact hs.sizes b hb
    · rw [List.mem_singleton.mp hb]
      exact ha.size
  · intro hsame
    have hleft : SameNetwork s.2.blocks := fun a ha b hb =>
      hsame a (List.mem_append_left _ ha) b (List.mem_append_left _ hb)
    have hnext := checkBlock_of_accepts ha fun a hmem =>
      hsame a (List.mem_append_left _ hmem) act.1 (by simp)
    exact Runs.run_append _ _ _ _ _ (hs.chain hleft) (by rw [Runs.run_of_step hnext]; rfl)

theorem stored_empty : Stored P ([], ⟨[]⟩) :=
  ⟨rfl, rfl, fun _ hb => absurd hb List.not_mem_nil, fun _ => rfl⟩

theorem stored_run {acts : List (Block × ConsensusEngine P)}
    (hrun : Runs.run (appendStep P) ([], ⟨[]⟩) acts = some s) : Stored P s :=
  Runs.run_invariant' (fun _ _ _ => stored_step) stored_empty hrun

theorem blocks_run : ∀ (acts : List (Block × ConsensusEngine P)) (s s' : Dir × Ledger),
    Runs.run (appendStep P) s acts = some s' → s'.2.blocks = s.2.blocks ++ acts.map Prod.fst := by
  intro acts
  induction acts with
  | nil =>
    intro s s' hrun
    rw [Runs.run, Option.some.injEq] at hrun
    rw [hrun, List.map_nil, List.append_nil]
  | cons act acts ih =>
    intro s s' hrun
    obtain ⟨s₁, hstep, hrest⟩ := Runs.run_cons hrun
    obtain ⟨_, _, rfl⟩ := appendStep_eq_some_iff.mp hstep
    rw [ih _ s' hrest, List.map_cons, List.append_assoc]
    rfl

/-- Reopening a stored ledger runs the validation loop on its blocks. -/
theorem open_stored (hs : Stored P s) (hparse : RoundTrips parse s.2.blocks) (hlisting : listing.Perm s.1) :
    Ledger.open P parse listing = validate P s.2.blocks := by
  have hheights : s.2.blocks.Pairwise fun a b => a.height.toNat < b.height.toNat := by
    have hrange : (s.2.blocks.map fun b => b.height.toNat).Pairwise (· < ·) := by
      rw [hs.heights]
      exact List.pairwise_lt_range
    exact List.pairwise_map.mp hrange
  have hjson : ((s.2.blocks.map (Block.file P)).filter fun entry => isJson entry.1) =
      s.2.blocks.map (Block.file P) := by
    refine List.filter_eq_self.mpr ?_
    intro entry hentry
    obtain ⟨b, _, rfl⟩ := List.mem_map.mp hentry
    exact isJson_fileName b
  rw [hs.files] at hlisting
  have hfiles : readAll P parse ((listing.insertionSort fun a b => a.1 ≤ b.1).filter
      fun entry => isJson entry.1) = .ok s.2.blocks := by
    rw [sort_listing hheights hlisting, hjson]
    exact readAll_files _ hparse hs.sizes
  simp only [Ledger.open, hfiles]

/-- **When a ledger reopens.**  After any run of successful appends, under any engines, every
listing of the directory opens to the appended blocks exactly when they all carry one network id,
and is refused as invalid otherwise. -/
theorem open_appended_iff {acts : List (Block × ConsensusEngine P)} {dir : Dir} {l : Ledger}
    (hrun : Runs.run (appendStep P) ([], ⟨[]⟩) acts = some (dir, l))
    (hparse : RoundTrips parse (acts.map Prod.fst)) {listing : Dir} (hlisting : listing.Perm dir) :
    (Ledger.open P parse listing = .ok ⟨acts.map Prod.fst⟩ ↔ SameNetwork (acts.map Prod.fst)) ∧
    (¬ SameNetwork (acts.map Prod.fst) → Ledger.open P parse listing = .error .invalidBlock) := by
  have hs := stored_run hrun
  have hblocks : l.blocks = acts.map Prod.fst := blocks_run acts _ _ hrun
  have hl : l = ⟨acts.map Prod.fst⟩ := by
    cases l
    rw [← hblocks]
  subst hl
  rw [open_stored hs hparse hlisting, validate]
  cases hcheck : Runs.run (checkBlock P) Cursor.start (acts.map Prod.fst) with
  | none =>
    have hnot : ¬ SameNetwork (acts.map Prod.fst) := by
      intro hsame
      have hsome := hs.chain hsame
      rw [hcheck] at hsome
      cases hsome
    simp [hnot]
  | some c =>
    have hsame : SameNetwork (acts.map Prod.fst) := sameNetwork_of_run hcheck
    simp [hsame]

/-! ### Directories with earlier blocks -/

/-- What a directory reads back as, whatever else lies in it: the names are distinct, and the block
files in the order of their names hold these blocks, one per height. -/
structure Reads (P : Primitives) (parse : Bytes → Option Block) (dir : Dir) (blocks : List Block) :
    Prop where
  names : (dir.map Prod.fst).Nodup
  files : readAll P parse ((dir.insertionSort fun a b => a.1 ≤ b.1).filter fun e => isJson e.1) =
    .ok blocks
  heights : blocks.map (fun b => b.height.toNat) = List.range blocks.length

/-- Sorted files with distinct names are determined by what they are. -/
theorem sorted_files_unique {l l' : Dir} (hperm : l.Perm l') (hnames : (l'.map Prod.fst).Nodup)
    (hl : l.Pairwise fun a b => a.1 ≤ b.1) (hl' : l'.Pairwise fun a b => a.1 ≤ b.1) : l = l' := by
  refine hperm.eq_of_pairwise ?_ hl hl'
  intro x y hx hy hxy hyx
  exact List.inj_on_of_nodup_map hnames (hperm.subset hx) hy (le_antisymm hxy hyx)

variable {dir : Dir}

theorem sort_perm (hperm : listing.Perm dir) (hnames : (dir.map Prod.fst).Nodup) :
    (listing.insertionSort fun a b => a.1 ≤ b.1) = dir.insertionSort fun a b => a.1 ≤ b.1 := by
  have hsort := List.perm_insertionSort (fun a b : Bytes × Bytes => a.1 ≤ b.1)
  refine sorted_files_unique (((hsort listing).trans hperm).trans (hsort dir).symm) ?_
    (List.pairwise_insertionSort _ _) (List.pairwise_insertionSort _ _)
  exact (((hsort dir).map Prod.fst).nodup_iff).mpr hnames

/-- Reopening runs the validation loop on the blocks read. -/
theorem Reads.open (h : Reads P parse dir blocks) (hperm : listing.Perm dir) :
    Ledger.open P parse listing = validate P blocks := by
  simp only [Ledger.open, sort_perm hperm h.names, h.files]

theorem heights_of_run : ∀ (bs : List Block) (c c' : Cursor),
    Runs.run (checkBlock P) c bs = some c' →
      bs.map (fun b => b.height.toNat) = List.range' c.height bs.length := by
  intro bs
  induction bs with
  | nil => intro c c' _; rfl
  | cons b bs ih =>
    intro c c' hrun
    obtain ⟨c₁, hstep, hrest⟩ := Runs.run_cons hrun
    obtain ⟨⟨_, hheight, _⟩, hc₁⟩ := checkBlock_eq_some_iff.mp hstep
    rw [List.map_cons, hheight, ih c₁ c' hrest, hc₁, List.length_cons, List.range'_succ]

theorem validate_ok (h : validate P blocks = .ok l) :
    l = ⟨blocks⟩ ∧ blocks.map (fun b => b.height.toNat) = List.range blocks.length := by
  unfold validate at h
  split at h
  · cases h
  · rename_i c hrun
    refine ⟨(Except.ok.inj h).symm, ?_⟩
    rw [heights_of_run blocks Cursor.start c hrun, List.range_eq_range']
    rfl

/-- **A directory that opened** reads back as the ledger it opened to. -/
theorem reads_of_open (hnames : (dir.map Prod.fst).Nodup) (hperm : listing.Perm dir)
    (h : Ledger.open P parse listing = .ok l) : Reads P parse dir l.blocks := by
  simp only [Ledger.open, sort_perm hperm hnames] at h
  split at h
  · cases h
  · rename_i blocks hread
    obtain ⟨rfl, hheights⟩ := validate_ok h
    exact ⟨hnames, hread, hheights⟩

/-- The files read carry the names of their blocks. -/
theorem readAll_names : ∀ (files : Dir) (blocks : List Block), readAll P parse files = .ok blocks →
    files.map Prod.fst = blocks.map (Block.fileName P) := by
  intro files
  induction files with
  | nil =>
    intro blocks h
    rw [← Except.ok.inj h]
    rfl
  | cons entry files ih =>
    intro blocks h
    rw [readAll] at h
    split at h
    · cases h
    rename_i block hentry
    split at h
    · cases h
    rename_i rest hrest
    have hname : entry.1 = block.fileName P := by
      unfold readEntry at hentry
      split at hentry
      · cases hentry
      split at hentry
      · cases hentry
      split at hentry
      · cases hentry
      rename_i hname
      rw [← Except.ok.inj hentry]
      exact not_not.mp hname
    rw [← Except.ok.inj h, List.map_cons, List.map_cons, hname, ih rest hrest]

theorem readAll_append (hb : readEntry P parse (b.file P) = .ok b) :
    ∀ (files : Dir) (blocks : List Block), readAll P parse files = .ok blocks →
      readAll P parse (files ++ [b.file P]) = .ok (blocks ++ [b]) := by
  intro files
  induction files with
  | nil =>
    intro blocks h
    rw [← Except.ok.inj h, List.nil_append, readAll, hb]
    rfl
  | cons entry files ih =>
    intro blocks h
    rw [readAll] at h
    split at h
    · cases h
    rename_i block hentry
    split at h
    · cases h
    rename_i rest hrest
    rw [← Except.ok.inj h, List.cons_append, readAll, hentry, ih rest hrest]
    rfl

/-- **An append extends what the directory reads back as.** -/
theorem Reads.append (h : Reads P parse dir blocks) (hnew : b.fileName P ∉ dir.map Prod.fst)
    (hheight : b.height.toNat = blocks.length) (hsize : b.encodePretty.length ≤ maxBlockBytes)
    (hparse : parse b.encodePretty = some b) : Reads P parse (dir ++ [b.file P]) (blocks ++ [b]) := by
  have hnames : ((dir ++ [b.file P]).map Prod.fst).Nodup := by
    rw [List.map_append, List.nodup_append]
    refine ⟨h.names, List.nodup_singleton _, ?_⟩
    intro x hx y hy hxy
    rw [List.map_singleton, List.mem_singleton] at hy
    rw [hxy, hy] at hx
    exact hnew hx
  have hentry : readEntry P parse (b.file P) = .ok b := by
    unfold readEntry Block.file
    rw [if_neg (not_lt.mpr hsize), hparse]
    simp
  have hsort := List.perm_insertionSort (fun a b : Bytes × Bytes => a.1 ≤ b.1)
  -- the new name is the largest of the block files, so it is read last
  have hlast : ((dir ++ [b.file P]).insertionSort fun a b => a.1 ≤ b.1).filter (fun e => isJson e.1) =
      ((dir.insertionSort fun a b => a.1 ≤ b.1).filter fun e => isJson e.1) ++ [b.file P] := by
    have hjson : ((dir ++ [b.file P]).filter fun e => isJson e.1) =
        (dir.filter fun e => isJson e.1) ++ [b.file P] := by
      have hnew : [b.file P].filter (fun e => isJson e.1) = [b.file P] :=
        List.filter_eq_self.mpr fun e he => by
          rw [List.mem_singleton.mp he]
          exact isJson_fileName b
      rw [List.filter_append, hnew]
    have hperm : (((dir ++ [b.file P]).insertionSort fun a b => a.1 ≤ b.1).filter
        fun e => isJson e.1).Perm
        (((dir.insertionSort fun a b => a.1 ≤ b.1).filter fun e => isJson e.1) ++ [b.file P]) := by
      refine ((hsort _).filter _).trans ?_
      rw [hjson]
      exact List.Perm.append_right _ ((hsort dir).filter _).symm
    refine sorted_files_unique hperm ?_ ((List.pairwise_insertionSort _ _).filter _) ?_
    · refine ((hperm.map Prod.fst).nodup_iff).mp ?_
      refine List.Nodup.sublist (List.Sublist.map _ List.filter_sublist) ?_
      exact (((hsort _).map Prod.fst).nodup_iff).mpr hnames
    · refine List.pairwise_append.mpr ⟨(List.pairwise_insertionSort _ _).filter _,
        List.pairwise_singleton _ _, ?_⟩
      intro e he f hf
      rw [List.mem_singleton.mp hf]
      have hread : e.1 ∈ blocks.map (Block.fileName P) := by
        rw [← readAll_names _ _ h.files]
        exact List.mem_map_of_mem he
      obtain ⟨a, ha, hname⟩ := List.mem_map.mp hread
      have hlow : a.height.toNat < b.height.toNat := by
        have hmem : a.height.toNat ∈ blocks.map fun b => b.height.toNat := List.mem_map_of_mem ha
        rw [h.heights, List.mem_range] at hmem
        omega
      rw [← hname]
      exact le_of_lt (Block.fileName_lt hlow)
  refine ⟨hnames, ?_, ?_⟩
  · rw [hlast]
    exact readAll_append hentry _ _ h.files
  · rw [List.map_append, h.heights, List.length_append, List.length_singleton, List.range_succ,
      List.map_singleton, hheight]

/-! ### Two engines on one ledger -/

def soloMembers : MemberSet := sampleMembers [[1]] (by decide) (by decide)

/-- The engine a node makes for its own events: itself as the only member. -/
def soloEngine (networkId : String) : QuorumConsensus :=
  ⟨networkId, soloMembers, 1, by decide, by decide⟩

/-- A block on top of a ledger, finalized by the sample node. -/
def soloBlock (l : Ledger) (networkId : String) : Block :=
  ((soloEngine networkId).finalize (l.nextBlock primitives [] l.blocks.length networkId)
    [identity [1]]).1

/-- Appends of solo blocks for the given networks. -/
def soloActs : List String → Ledger → List (Block × ConsensusEngine primitives)
  | [], _ => []
  | networkId :: rest, l =>
    (soloBlock l networkId, (soloEngine networkId).engine primitives) ::
      soloActs rest ⟨l.blocks ++ [soloBlock l networkId]⟩

/-- Reads back given blocks. -/
def lookupParse (blocks : List Block) (bytes : Bytes) : Option Block :=
  blocks.find? fun b => b.encodePretty = bytes

theorem roundTrips_lookupParse (h : (blocks.map Block.encodePretty).Nodup) :
    RoundTrips (lookupParse blocks) blocks := by
  intro b hb
  obtain ⟨a, ha⟩ : ∃ a, lookupParse blocks b.encodePretty = some a := by
    refine Option.isSome_iff_exists.mp (List.find?_isSome.mpr ⟨b, hb, decide_eq_true rfl⟩)
  have hfound : decide (a.encodePretty = b.encodePretty) = true :=
    List.find?_some (p := fun c : Block => decide (c.encodePretty = b.encodePretty)) ha
  rw [ha, List.inj_on_of_nodup_map h (List.mem_of_find?_eq_some ha) hb (of_decide_eq_true hfound)]

/-- Two local blocks reopen, also from a listing in the wrong order. -/
theorem open_appended_local :
    ∃ s, Runs.run (appendStep primitives) ([], ⟨[]⟩) (soloActs ["local", "local"] ⟨[]⟩) = some s ∧
      Ledger.open primitives (lookupParse ((soloActs ["local", "local"] ⟨[]⟩).map Prod.fst))
        s.1.reverse = .ok ⟨(soloActs ["local", "local"] ⟨[]⟩).map Prod.fst⟩ := by
  have hsome : (Runs.run (appendStep primitives) ([], ⟨[]⟩)
      (soloActs ["local", "local"] ⟨[]⟩)).isSome := by decide +kernel
  obtain ⟨s, hrun⟩ := Option.isSome_iff_exists.mp hsome
  refine ⟨s, hrun, ?_⟩
  refine (open_appended_iff hrun ?_ (List.reverse_perm s.1)).1.mpr ?_
  · exact roundTrips_lookupParse (by decide +kernel)
  · unfold SameNetwork
    decide +kernel

/-- **A local block followed by a mesh block: both appends succeed, the ledger does not reopen.** -/
theorem open_refuses_two_networks :
    RoundTrips (lookupParse ((soloActs ["local", "mesh"] ⟨[]⟩).map Prod.fst))
      ((soloActs ["local", "mesh"] ⟨[]⟩).map Prod.fst) ∧
    (Runs.run (appendStep primitives) ([], ⟨[]⟩) (soloActs ["local", "mesh"] ⟨[]⟩)).map (fun s =>
      Ledger.open primitives (lookupParse ((soloActs ["local", "mesh"] ⟨[]⟩).map Prod.fst)) s.1) =
        some (.error .invalidBlock) := by
  exact ⟨roundTrips_lookupParse (by decide +kernel), by decide +kernel⟩

end Peerless.Chain
