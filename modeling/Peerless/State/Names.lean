import Peerless.State.Readers
import Peerless.Storage.Atomic

/-!
# Names of documents and names of files

Any string may name a document, and the name becomes a file name in the directory of the store, beside the
lock file and the temporary files of `atomic_replace`.  `safe_name` keeps letters, digits, `-` and `_` and
writes every other byte as `~` and two hexadecimal digits.

* `document_names_apart` — a document's file is no lock file and no temporary file, and two
  documents have two files;
* `other_documents_kept` — calls that never say a name leave its file as it was.
-/

namespace Peerless.State

open Text HashMap
open Storage (Path temporaryName Scratch)

/-! ### Safe names -/

/-- Letters, digits, `-`, `_` and `~`. -/
def safeAlphabet (b : UInt8) : Bool :=
  (48 ≤ b && b ≤ 57) || (65 ≤ b && b ≤ 90) || (97 ≤ b && b ≤ 122) || b == 45 || b == 95 || b == 126

theorem hexDigit_safe : ∀ n, n < 16 → safeAlphabet (hexDigit n) = true := by decide

variable {x : UInt8}

theorem safeByte_alphabet {b : UInt8} (h : x ∈ safeByte b) : safeAlphabet x = true := by
  unfold safeByte at h
  split at h
  · rename_i hplain
    rw [List.mem_singleton.mp h]
    simp only [safeAlphabet, Bool.or_eq_true, Bool.and_eq_true, decide_eq_true_eq, beq_iff_eq]
    tauto
  · have hb := b.toNat_lt
    simp only [hexByte, List.mem_cons, List.not_mem_nil, or_false] at h
    rcases h with rfl | rfl | rfl
    · rfl
    · exact hexDigit_safe _ (by omega)
    · exact hexDigit_safe _ (by omega)

theorem safeName_alphabet {name : String} (h : x ∈ safeName name) : safeAlphabet x = true := by
  obtain ⟨b, _, hx⟩ := List.mem_flatMap.mp h
  exact safeByte_alphabet hx

theorem safeByte_ne_nil (b : UInt8) : safeByte b ≠ [] := by
  unfold safeByte
  split
  · exact List.cons_ne_nil _ _
  · exact List.cons_ne_nil _ _

/-- **An escape can be told from what follows it**: it starts with a `~`, and no byte stands for itself as
one. -/
theorem safeByte_decodes : Decodes safeByte := by
  intro a b r r' h
  unfold safeByte at h
  split at h
  · rename_i ha
    split at h
    · exact List.cons.inj h
    · obtain ⟨rfl, _⟩ := List.cons.inj h
      exact absurd ha (by decide)
  · split at h
    · rename_i hb
      obtain ⟨rfl, _⟩ := List.cons.inj h
      exact absurd hb (by decide)
    · exact hexByte_decodes (List.cons.inj h).2

theorem safeName_injective : Function.Injective safeName := by
  intro a b h
  exact utf8_injective (safeByte_decodes.flatMap_injective safeByte_ne_nil h)

/-- A name and the name it is escaped to. -/
example : safeName "a/b" = utf8 "a~2fb" ∧ safeName "a~2fb" = utf8 "a~7e2fb" := by decide

/-! ### The file of a document -/

theorem automerge_bytes : utf8 ".automerge" = [46, 97, 117, 116, 111, 109, 101, 114, 103, 101] := rfl

theorem documentPath_bytes {name : String} (h : x ∈ documentPath name) :
    safeAlphabet x = true ∨ x = 46 := by
  rcases List.mem_append.mp h with hsafe | hsuffix
  · exact Or.inl (safeName_alphabet hsafe)
  · rw [automerge_bytes] at hsuffix
    rcases List.mem_cons.mp hsuffix with rfl | hletter
    · exact Or.inr rfl
    · have hletters : [97, 117, 116, 111, 109, 101, 114, 103, 101].all safeAlphabet = true := by decide
      exact Or.inl (List.all_eq_true.mp hletters x hletter)

/-- In particular neither `/` nor a backslash is in a file name. -/
theorem not_mem_documentPath (hother : safeAlphabet x = false) (hdot : x ≠ 46) (name : String) :
    x ∉ documentPath name := by
  intro h
  rcases documentPath_bytes h with hsafe | heq
  · rw [hother] at hsafe
    cases hsafe
  · exact hdot heq

theorem documentPath_length (name : String) : 10 ≤ (documentPath name).length := by
  rw [documentPath, List.length_append, automerge_bytes]
  exact Nat.le_add_left _ _

theorem documentPath_ne_of_short {name : String} {text : Bytes} (h : text.length < 10) :
    documentPath name ≠ text := by
  intro heq
  have hlength := documentPath_length name
  rw [heq] at hlength
  omega

theorem documentPath_getLast? (name : String) : (documentPath name).getLast? = some 101 := by
  rw [documentPath, List.getLast?_append]
  rfl

theorem documentPath_ne_of_getLast? {name : String} {text : Bytes} (h : text.getLast? ≠ some 101) :
    documentPath name ≠ text := by
  intro heq
  rw [← heq] at h
  exact h (documentPath_getLast? name)

theorem documentPath_injective {a b : String} (h : documentPath a = documentPath b) : a = b :=
  safeName_injective (List.append_cancel_right h)

/-- The name of the lock file. -/
def persistenceLock : Bytes := utf8 ".persistence.lock"

theorem documentPath_ne_persistenceLock (name : String) : documentPath name ≠ persistenceLock :=
  documentPath_ne_of_getLast? (by decide)

theorem documentPath_ne_temporaryName (name : String) (stem : Bytes) (pid : UInt32) (sequence : UInt64) :
    documentPath name ≠ temporaryName stem pid sequence := by
  apply documentPath_ne_of_getLast?
  rw [temporaryName, List.getLast?_append]
  show some (112 : UInt8) ≠ some 101
  decide

/-- The path of a document, as `document` and `merge_snapshot` build it. -/
def documentFile (root : Path) (name : String) : Path := root.join (documentPath name)

/-- The path of the lock file, as `open` builds it. -/
def persistenceLockPath (root : Path) : Path := root.join persistenceLock

/-- **A document's file stands in the store's directory.** -/
theorem documentFile_eq (root : Path) (name : String) : documentFile root name = root ++ [documentPath name] :=
  Path.join_plain root (not_mem_documentPath (by decide) (by decide) name)
    (documentPath_ne_of_short (by decide)) (documentPath_ne_of_short (by decide))

theorem persistenceLockPath_eq (root : Path) : persistenceLockPath root = root ++ [persistenceLock] :=
  Path.join_plain root (by decide) (by decide) (by decide)

/-- What a name that is not made safe would do. -/
example : Path.join [[1]] (utf8 "../escape.automerge") = [[1], utf8 "..", utf8 "escape.automerge"] ∧
    documentFile [[1]] "../escape" = [[1], utf8 "~2e~2e~2fescape.automerge"] := by decide

theorem documentFile_injective {root : Path} {a b : String} (h : documentFile root a = documentFile root b) :
    a = b := by
  rw [documentFile_eq, documentFile_eq] at h
  exact documentPath_injective (List.cons.inj (List.append_cancel_left h)).1

theorem not_scratch_documentFile (root : Path) (name : String) (path : Path) :
    ¬Scratch path (documentFile root name) := by
  rintro ⟨pid, sequence, h⟩
  rw [documentFile_eq] at h
  have hlast := congrArg List.getLast? h
  rw [List.getLast?_concat, List.getLast?_concat] at hlast
  exact documentPath_ne_temporaryName name _ _ _ (Option.some.inj hlast)

theorem documentFile_parent (root : Path) (name : String) : (documentFile root name).parent = some root := by
  rw [documentFile_eq, Path.parent, if_neg (by simp), List.dropLast_concat]

theorem documentFile_fileName (root : Path) (name : String) :
    (documentFile root name).fileName = some (documentPath name) := by
  have hup : documentPath name ≠ utf8 ".." := documentPath_ne_of_short (by decide)
  rw [documentFile_eq, Path.fileName, List.getLast?_concat, Option.filter_some, if_pos (decide_eq_true hup)]

theorem documentFile_ne_persistenceLockPath (root : Path) (name : String) :
    documentFile root name ≠ persistenceLockPath root := by
  rw [documentFile_eq, persistenceLockPath_eq]
  intro h
  exact documentPath_ne_persistenceLock name (List.cons.inj (List.append_cancel_left h)).1

/-- **Document names never alias or escape.**  Safe names are distinct and made of letters, digits, `-`, `_`
and `~`; the file name has no separator and is neither `.` nor `..`, the lock file or a temporary file; and
the path is that file of the store's directory, another one for every document. -/
theorem document_names_apart :
    Function.Injective safeName ∧
    (∀ name, ∀ x ∈ safeName name, safeAlphabet x = true) ∧
    (∀ name, 47 ∉ documentPath name ∧ 92 ∉ documentPath name ∧ documentPath name ≠ utf8 "." ∧
      documentPath name ≠ utf8 ".." ∧ documentPath name ≠ persistenceLock ∧
      ∀ stem pid sequence, documentPath name ≠ temporaryName stem pid sequence) ∧
    ∀ (root : Path) (name : String),
      (documentFile root name).parent = some root ∧
      (documentFile root name).fileName = some (documentPath name) ∧
      documentFile root name ≠ persistenceLockPath root ∧
      (∀ path, ¬Scratch path (documentFile root name)) ∧
      ∀ other, other ≠ name → documentFile root other ≠ documentFile root name := by
  refine ⟨safeName_injective, fun name x hx => safeName_alphabet hx, ?_, ?_⟩
  · intro name
    exact ⟨not_mem_documentPath (by decide) (by decide) name, not_mem_documentPath (by decide) (by decide) name,
      documentPath_ne_of_short (by decide), documentPath_ne_of_short (by decide),
      documentPath_ne_persistenceLock name, documentPath_ne_temporaryName name⟩
  · intro root name
    refine ⟨documentFile_parent root name, documentFile_fileName root name,
      documentFile_ne_persistenceLockPath root name, not_scratch_documentFile root name, ?_⟩
    intro other hother heq
    exact hother (documentFile_injective heq)

/-- A name and the name it is escaped to, and a name that leads out of the directory. -/
theorem document_names_apart_hostile :
    safeName "a/b" ≠ safeName "a~2fb" ∧ documentFile [[1]] "a/b" ≠ documentFile [[1]] "a~2fb" ∧
      (documentFile [[1]] "../escape").parent = some [[1]] ∧ safeAlphabet 126 = true :=
  ⟨fun h => absurd (document_names_apart.1 h) (by decide),
    (document_names_apart.2.2.2 [[1]] "a~2fb").2.2.2.2 "a/b" (by decide),
    (document_names_apart.2.2.2 [[1]] "../escape").1,
    document_names_apart.2.1 "a/b" 126 (by decide)⟩

/-! ### Runs -/

variable {α : Type} [DecidableEq α] {A : Automerge α} {s s' before : Readers A} {c : ReaderCall A} {path : Bytes}

/-- The name a call says. -/
def ReaderCall.name : ReaderCall A → Option String
  | .document name _ => some name
  | .mergeSnapshot name _ => some name
  | _ => none

/-- No open document is kept at the path, and its file is what it was before. -/
structure Untouched (path : Bytes) (before s : Readers A) : Prop where
  closed : ∀ d ∈ s.documents, d.path ≠ path
  same : s.store.lookup path = before.store.lookup path

omit [DecidableEq α] in
theorem Untouched.set (h : Untouched path before s) (d : ℕ) {document : StateDocument α}
    (hnew : document.path ≠ path) : ∀ d' ∈ s.documents.set d document, d'.path ≠ path := by
  intro d' hd'
  rcases List.mem_or_eq_of_mem_set hd' with hold | rfl
  · exact h.closed d' hold
  · exact hnew

theorem document_path {store : StateStore A} {name : String} {actor : α} {document : StateDocument α}
    (h : store.document name actor = .ok document) : document.path = documentPath name := by
  rcases store.document_cases name actor with ⟨_, hnew⟩ | ⟨_, _, hloaded⟩ | ⟨_, _, hfailed⟩
  · rw [Except.ok.inj (h.symm.trans hnew)]
  · rw [Except.ok.inj (h.symm.trans hloaded)]
  · cases h.symm.trans hfailed

theorem save_confined (d : StateDocument α) (store : StateStore A) (hpath : d.path ≠ path) :
    (d.save store).1.path = d.path ∧ (d.save store).2.1.lookup path = store.lookup path := by
  obtain ⟨hdocument, hstore⟩ := save_insert d store
  constructor
  · rcases hdocument with hsame | ⟨_, _, _, _, hadopt⟩
    · rw [hsame]
    · rw [hadopt]
      rfl
  · rcases hstore with hsame | hinsert
    · rw [hsame]
    · rw [hinsert]
      exact AList.lookup_insert_ne hpath.symm

/-- **A call leaves the file alone** unless it says a name the file stands for. -/
theorem Untouched.step (h : Untouched path before s) (hname : ∀ name ∈ c.name, documentPath name ≠ path)
    (hstep : readerStep s c = some s') : Untouched path before s' := by
  have heffect := effect_of_readerStep hstep
  cases heffect with
  | idle => exact h
  | panicked => exact ⟨h.closed, h.same⟩
  | @opened name actor document hdocument =>
    refine ⟨?_, h.same⟩
    intro d hd
    rcases List.mem_append.mp hd with hold | hnew
    · exact h.closed d hold
    · rw [List.mem_singleton.mp hnew, document_path hdocument]
      exact hname name rfl
  | @put d document document' key value hd hput =>
    obtain ⟨obj, _, rfl⟩ := StateDocument.put_ok hput
    exact ⟨h.set d (h.closed document (List.mem_of_getElem? hd)), h.same⟩
  | @saved d document hd =>
    have hclosed := h.closed document (List.mem_of_getElem? hd)
    obtain ⟨hpath, hlookup⟩ := save_confined document s.store hclosed
    refine ⟨h.set d ?_, hlookup.trans h.same⟩
    rw [hpath]
    exact hclosed
  | @adopted d document bytes incoming hd hload =>
    exact ⟨h.set d (h.closed document (List.mem_of_getElem? hd)), h.same⟩
  | @merged name bytes store hmerge =>
    obtain ⟨file, rfl⟩ := StateStore.mergeSnapshot_insert hmerge
    refine ⟨h.closed, ?_⟩
    rw [← h.same]
    exact AList.lookup_insert_ne (hname name rfl).symm

variable {calls : List (ReaderCall A)}

/-- **A run leaves every file alone** that no open document is kept at and no name said in it stands for. -/
theorem untouched_run (hrun : Runs.run readerStep s calls = some s')
    (hclosed : ∀ d ∈ s.documents, d.path ≠ path)
    (hnames : ∀ c ∈ calls, ∀ name ∈ c.name, documentPath name ≠ path) : Untouched path s s' := by
  have htrue : Runs.Meets readerStep (fun _ _ => True) s calls := Runs.meets_true calls s
  have hmeets := htrue.and_forall calls s hnames
  exact Runs.run_invariant (I := Untouched path s)
    (fun t c t' ht hok hstep => ht.step hok.2 hstep) calls s s' ⟨hclosed, rfl⟩ hmeets hrun

/-- **The documents of a store are independent**: a run that never says a name, from where no document of
that name is open, leaves its file as it was. -/
theorem other_documents_kept {name : String} (hrun : Runs.run readerStep s calls = some s')
    (hclosed : ∀ d ∈ s.documents, d.path ≠ documentPath name) (hnames : ∀ c ∈ calls, c.name ≠ some name) :
    s'.store.lookup (documentPath name) = s.store.lookup (documentPath name) := by
  refine (untouched_run hrun hclosed ?_).same
  intro c hc other hother heq
  rw [documentPath_injective heq] at hother
  exact hnames c hc hother

/-- A store with a document, and calls that say another name. -/
def besideNotes : List (ReaderCall sampleAutomerge) :=
  [.document "other" 1, .put 0 "a" "1", .save 0, .mergeSnapshot "more" seeded]

theorem notes_kept_beside : ∃ s' : Readers sampleAutomerge,
    Runs.run readerStep ⟨AList.insert (documentPath "notes") seeded ∅, [], false⟩ besideNotes = some s' ∧
      s'.store.lookup (documentPath "notes") = some seeded := by
  obtain ⟨s', hrun⟩ := Option.isSome_iff_exists.mp (show (Runs.run readerStep
    (⟨AList.insert (documentPath "notes") seeded ∅, [], false⟩ : Readers sampleAutomerge)
    besideNotes).isSome from by decide +kernel)
  exact ⟨s', hrun, other_documents_kept hrun (fun _ hd => absurd hd List.not_mem_nil) (by decide)⟩

end Peerless.State
