import Peerless.Ledger.Consensus
import Peerless.Ledger.Merkle
import Peerless.Lib.Runs

/-!
# The ledger: appending and reopening

`Ledger::open`, `next_block` and `append` over a directory of block files.  A directory is the list of
its files as `read_dir` lists them; `serde_json::from_slice` is a parameter `parse`.
-/

namespace Peerless.Chain

open Text JsonText Peerless.Core Identity

def maxBlockBytes : ℕ := 16 * 1024 * 1024

/-- The files of a directory, name and content, in the order they are listed. -/
abbrev Dir := List (Bytes × Bytes)

structure Ledger where
  blocks : List Block
  deriving DecidableEq

variable (P : Primitives)

/-- The hash of the last block. -/
def Ledger.tip (l : Ledger) : Option Digest := l.blocks.getLast?.map (Block.hash P)

def hexString (value : Digest) : Bytes := value.bytes.flatMap hexByte

/-- `{:020}-{}.json` of the height and the hash. -/
def Block.fileName (b : Block) : Bytes :=
  zeroPadded 20 b.height.toNat ++ utf8 "-" ++ hexString (b.hash P) ++ utf8 ".json"

/-! ### Appending -/

/-- The events' checks, collected: the first error wins, otherwise whether all are valid. -/
def verifyEvents : List SignedEvent → Except LedgerError Bool
  | [] => .ok true
  | e :: es =>
    match e.verify P with
    | .error err => .error err
    | .ok valid =>
      match verifyEvents es with
      | .error err => .error err
      | .ok rest => .ok (valid && rest)

def Ledger.nextBlock (l : Ledger) (events : List SignedEvent) (timestamp : ℕ) (networkId : String) :
    Block where
  version := 1
  previous := l.tip P
  height := UInt64.ofNat l.blocks.length
  timestamp := timestamp
  eventsRoot := eventsRoot P events
  events := events
  consensus := ⟨networkId, []⟩

/-- The checks of `append`, before it touches a file. -/
def Ledger.checkAppend (l : Ledger) (block : Block) (consensus : ConsensusEngine P) :
    Except LedgerError Unit :=
  match verifyEvents P block.events with
  | .error err => .error err
  | .ok validEvents =>
    if block.height.toNat ≠ l.blocks.length ∨ block.previous ≠ l.tip P ∨ block.version ≠ 1 ∨
        (l.blocks.getLast?.any fun previous => block.timestamp < previous.timestamp) ∨
        block.eventsRoot ≠ eventsRoot P block.events then .error .invalidBlock
    else
      match consensus.verify block with
      | .error err => .error err
      | .ok valid => if !valid || !validEvents then .error .invalidBlock else .ok ()

/-- `Ledger::append`: the directory and the ledger after the call, and the block's hash.  The file is
created exclusively. -/
def Ledger.append (dir : Dir) (l : Ledger) (block : Block) (consensus : ConsensusEngine P) :
    Except LedgerError (Dir × Ledger × Digest) :=
  match l.checkAppend P block consensus with
  | .error err => .error err
  | .ok () =>
    if block.encodePretty.length > maxBlockBytes then .error .invalidBlock
    else if block.fileName P ∈ dir.map Prod.fst then .error .io
    else .ok (dir ++ [(block.fileName P, block.encodePretty)], ⟨l.blocks ++ [block]⟩, block.hash P)

/-- What `append` checks of a block. -/
structure Ledger.Accepts (l : Ledger) (consensus : ConsensusEngine P) (b : Block) : Prop where
  events : verifyEvents P b.events = .ok true
  height : b.height.toNat = l.blocks.length
  previous : b.previous = l.tip P
  version : b.version = 1
  timestamp : ∀ a ∈ l.blocks.getLast?, a.timestamp ≤ b.timestamp
  root : b.eventsRoot = eventsRoot P b.events
  consensus : consensus.verify b = .ok true
  size : b.encodePretty.length ≤ maxBlockBytes

variable {P}

theorem Ledger.accepts_iff {l : Ledger} {b : Block} {e : ConsensusEngine P} :
    l.Accepts P e b ↔ l.checkAppend P b e = .ok () ∧ b.encodePretty.length ≤ maxBlockBytes := by
  have htime : (¬ (l.blocks.getLast?.any fun a => b.timestamp < a.timestamp) = true) ↔
      ∀ a ∈ l.blocks.getLast?, a.timestamp ≤ b.timestamp := by
    cases l.blocks.getLast? <;> simp
  unfold Ledger.checkAppend
  constructor
  · intro ha
    refine ⟨?_, ha.size⟩
    rw [ha.events]
    simp only
    rw [if_neg (by
      simp only [not_or, not_not]
      exact ⟨ha.height, ha.previous, ha.version, htime.mpr ha.timestamp, ha.root⟩), ha.consensus]
    rfl
  · rintro ⟨h, hsize⟩
    split at h
    · cases h
    rename_i valid hevents
    split at h
    · cases h
    rename_i hchecks
    simp only [not_or, not_not] at hchecks
    obtain ⟨hheight, hprev, hversion, hts, hroot⟩ := hchecks
    split at h
    · cases h
    rename_i verified hver
    split at h
    · cases h
    rename_i hvalid
    simp only [Bool.or_eq_true, Bool.not_eq_true', not_or, Bool.not_eq_false] at hvalid
    obtain ⟨rfl, rfl⟩ := hvalid
    exact ⟨hevents, hheight, hprev, hversion, htime.mp hts, hroot, hver, hsize⟩

theorem Ledger.append_eq_ok_iff {dir : Dir} {l : Ledger} {b : Block} {e : ConsensusEngine P}
    {r : Dir × Ledger × Digest} : l.append P dir b e = .ok r ↔
      l.Accepts P e b ∧ b.fileName P ∉ dir.map Prod.fst ∧
        r = (dir ++ [(b.fileName P, b.encodePretty)], ⟨l.blocks ++ [b]⟩, b.hash P) := by
  rw [Ledger.accepts_iff]
  unfold Ledger.append
  constructor
  · intro h
    split at h
    · cases h
    rename_i hchecked
    split at h
    · cases h
    rename_i hsize
    split at h
    · cases h
    rename_i hname
    exact ⟨⟨hchecked, not_lt.mp hsize⟩, hname, (Except.ok.inj h).symm⟩
  · rintro ⟨⟨hchecked, hsize⟩, hname, hr⟩
    rw [hchecked]
    simp only
    rw [if_neg (not_lt.mpr hsize), if_neg hname, hr]

/-! ### Opening -/

/-- `Path::extension` is `json`: a non-empty stem before the last dot. -/
def isJson (name : Bytes) : Bool := 5 < name.length && (utf8 ".json").isSuffixOf name

variable (P) (parse : Bytes → Option Block)

/-- One file of the listing. -/
def readEntry (entry : Bytes × Bytes) : Except LedgerError Block :=
  if entry.2.length > maxBlockBytes then .error .invalidBlock
  else
    match parse entry.2 with
    | none => .error .json
    | some block => if entry.1 ≠ block.fileName P then .error .invalidBlock else .ok block

/-- The files in order, up to the first error. -/
def readAll : Dir → Except LedgerError (List Block)
  | [] => .ok []
  | entry :: rest =>
    match readEntry P parse entry with
    | .error err => .error err
    | .ok block =>
      match readAll rest with
      | .error err => .error err
      | .ok blocks => .ok (block :: blocks)

/-- What the validation loop remembers. -/
structure Cursor where
  height : ℕ
  previous : Option Digest
  networkId : Option String
  lastTimestamp : Option ℕ
  deriving DecidableEq

def Cursor.start : Cursor := ⟨0, none, none, none⟩

/-- One round of the validation loop. -/
def checkBlock (c : Cursor) (b : Block) : Option Cursor :=
  if b.version ≠ 1 ∨ b.height.toNat ≠ c.height ∨ b.previous ≠ c.previous ∨
      b.eventsRoot ≠ eventsRoot P b.events ∨
      (c.networkId.any fun known => known ≠ b.consensus.networkId) ∨
      (c.lastTimestamp.any fun known => known > b.timestamp) then none
  else some ⟨c.height + 1, some (b.hash P), some b.consensus.networkId, some b.timestamp⟩

/-- The validation loop over the blocks read. -/
def validate (blocks : List Block) : Except LedgerError Ledger :=
  match Runs.run (checkBlock P) Cursor.start blocks with
  | none => .error .invalidBlock
  | some _ => .ok ⟨blocks⟩

/-- `Ledger::open` on a listing of the directory. -/
def Ledger.open (listing : Dir) : Except LedgerError Ledger :=
  let files := listing.insertionSort fun a b => a.1 ≤ b.1
  match readAll P parse (files.filter fun entry => isJson entry.1) with
  | .error err => .error err
  | .ok blocks => validate P blocks

end Peerless.Chain
