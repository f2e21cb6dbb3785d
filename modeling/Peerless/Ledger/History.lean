import Peerless.Ledger.Commitment
import Peerless.Lib.HashChain

/-!
# Ledgers and their histories

A ledger is opened from a directory and grows by appends.  Whatever the directory held, its blocks are
hash-linked from a block without predecessor, and the block files are those of its blocks.

* `tip_commits` — ledgers with one tip hash hold the same blocks, of whatever lengths they
  are and however their files came about.
-/

namespace Peerless.Chain

open Text Peerless.Core Identity Sample

variable {P : Primitives} {parse : Bytes → Option Block}

/-- The ledgers that `open` and `append` produce; a directory has no two files of one name and may be
listed in any order. -/
inductive Built (P : Primitives) (parse : Bytes → Option Block) : Dir → Ledger → Prop
  | opened {dir listing : Dir} {l : Ledger} : (dir.map Prod.fst).Nodup → listing.Perm dir →
      Ledger.open P parse listing = .ok l → Built P parse dir l
  | appended {dir dir' : Dir} {l l' : Ledger} {b : Block} {e : ConsensusEngine P} {digest : Digest} :
      Built P parse dir l → l.append P dir b e = .ok (dir', l', digest) → Built P parse dir' l'

/-- What holds of every ledger and its directory. -/
structure SoundLedger (P : Primitives) (dir : Dir) (l : Ledger) : Prop where
  linked : HashChain.Linked (Block.hash P) Block.previous l.blocks
  heights : l.blocks.map (fun b => b.height.toNat) = List.range l.blocks.length
  files : ∀ entry ∈ dir, isJson entry.1 = true → entry.1 ∈ l.blocks.map (Block.fileName P)

/-- The validation loop of `open` checks the links. -/
theorem linked_of_run : ∀ (bs before : List Block) (c c' : Cursor),
    HashChain.Linked (Block.hash P) Block.previous before →
    c.previous = HashChain.tip (Block.hash P) before → Runs.run (checkBlock P) c bs = some c' →
      HashChain.Linked (Block.hash P) Block.previous (before ++ bs) := by
  intro bs
  induction bs with
  | nil =>
    intro before c c' hbefore _ _
    rw [List.append_nil]
    exact hbefore
  | cons b bs ih =>
    intro before c c' hbefore hprevious hrun
    obtain ⟨c₁, hstep, hrest⟩ := Runs.run_cons hrun
    obtain ⟨⟨_, _, hlink, _⟩, rfl⟩ := checkBlock_eq_some_iff.mp hstep
    rw [List.append_cons]
    exact ih (before ++ [b]) _ c' (.concat hbefore (hlink.trans hprevious))
      (HashChain.tip_concat before b).symm hrest

variable {dir : Dir} {l : Ledger}

theorem soundLedger_opened {listing : Dir} (hnames : (dir.map Prod.fst).Nodup) (hperm : listing.Perm dir)
    (hopen : Ledger.open P parse listing = .ok l) : SoundLedger P dir l := by
  obtain ⟨_, hfiles, hheights⟩ := reads_of_open hnames hperm hopen
  refine ⟨?_, hheights, ?_⟩
  · unfold Ledger.open at hopen
    dsimp only at hopen
    split at hopen
    · cases hopen
    · unfold validate at hopen
      split at hopen
      · cases hopen
      · rename_i c hrun
        obtain rfl := Except.ok.inj hopen
        exact linked_of_run _ [] Cursor.start c .nil rfl hrun
  · intro entry hentry hjson
    rw [← readAll_names _ _ hfiles]
    refine List.mem_map_of_mem (List.mem_filter.mpr ⟨?_, hjson⟩)
    exact (List.perm_insertionSort _ dir).mem_iff.mpr hentry

theorem soundLedger_append {dir' : Dir} {l' : Ledger} {b : Block} {e : ConsensusEngine P}
    {digest : Digest} (hl : SoundLedger P dir l) (happend : l.append P dir b e = .ok (dir', l', digest)) :
    SoundLedger P dir' l' := by
  obtain ⟨haccepts, _, hr⟩ := Ledger.append_eq_ok_iff.mp happend
  simp only [Prod.mk.injEq] at hr
  obtain ⟨rfl, rfl, _⟩ := hr
  refine ⟨.concat hl.linked haccepts.previous, ?_, ?_⟩
  · rw [List.map_append, hl.heights, List.length_append, List.length_singleton, List.range_succ,
      List.map_singleton, haccepts.height]
  · intro entry hentry hjson
    rw [List.map_append]
    rcases List.mem_append.mp hentry with hentry | hentry
    · exact List.mem_append_left _ (hl.files entry hentry hjson)
    · rw [List.mem_singleton.mp hentry]
      exact List.mem_append_right _ (List.mem_singleton.mpr rfl)

theorem built_sound (hl : Built P parse dir l) : SoundLedger P dir l := by
  induction hl with
  | opened hnames hperm hopen => exact soundLedger_opened hnames hperm hopen
  | appended _ happend ih => exact soundLedger_append ih happend

theorem SoundLedger.fresh (hl : SoundLedger P dir l) {b : Block}
    (hheight : b.height.toNat = l.blocks.length) : b.fileName P ∉ dir.map Prod.fst := by
  intro hmem
  obtain ⟨entry, hentry, hname⟩ := List.mem_map.mp hmem
  have hjson : isJson entry.1 = true := by
    rw [hname]
    exact isJson_fileName b
  obtain ⟨a, ha, haname⟩ := List.mem_map.mp (hl.files entry hentry hjson)
  have hlow : a.height.toNat < b.height.toNat := by
    have hrange : a.height.toNat ∈ l.blocks.map fun b => b.height.toNat := List.mem_map_of_mem ha
    rw [hl.heights, List.mem_range] at hrange
    omega
  exact absurd (haname.trans hname) (ne_of_lt (Block.fileName_lt hlow))

/-- The strings hashed for the blocks of two ledgers. -/
def chainStrings (l₁ l₂ : Ledger) : List Bytes := (l₁.blocks ++ l₂.blocks).map Block.encode

/-- **The tip hash commits to the whole history.** -/
theorem tip_commits {dir₁ dir₂ : Dir} {l₁ l₂ : Ledger} (h₁ : Built P parse dir₁ l₁)
    (h₂ : Built P parse dir₂ l₂) (hcf : PairTree.CollisionFree P.sha256 (chainStrings l₁ l₂))
    (htip : l₁.tip P = l₂.tip P) : l₁.blocks = l₂.blocks := by
  refine HashChain.eq_of_tip l₁.blocks l₂.blocks (built_sound h₁).linked (built_sound h₂).linked ?_ htip
  intro a ha b hb hhash
  exact Block.encode_injective (hcf _ (List.mem_map_of_mem (List.mem_append_left _ ha)) _
    (List.mem_map_of_mem (List.mem_append_right _ hb)) hhash)

/-- The tips of two different first blocks differ. -/
theorem relayed_tip_committed :
    Built primitives (fun _ => none) (afterFirst firstBlock).1 (afterFirst firstBlock).2.1 ∧
    Built primitives (fun _ => none) (afterFirst relayedBlock).1 (afterFirst relayedBlock).2.1 ∧
    (afterFirst firstBlock).2.1.tip primitives ≠ (afterFirst relayedBlock).2.1.tip primitives := by
  have hempty : Built primitives (fun _ => none) [] ⟨[]⟩ :=
    .opened List.nodup_nil (List.Perm.refl []) rfl
  have hfirst := Built.appended hempty append_firstBlock
  have hrelayed := Built.appended hempty append_relayedBlock
  refine ⟨hfirst, hrelayed, fun htip => ?_⟩
  have hcf : PairTree.CollisionFree primitives.sha256
      (chainStrings (afterFirst firstBlock).2.1 (afterFirst relayedBlock).2.1) := by
    unfold PairTree.CollisionFree
    decide +kernel
  exact absurd (tip_commits hfirst hrelayed hcf htip) (by decide +kernel)

end Peerless.Chain
