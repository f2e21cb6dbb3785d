import Peerless.Lib.Files
import Peerless.Lib.Threads

/-!
# Publishing files through temporary names

Programs that must not show half a file write it under a temporary name and give it its real name when
it is complete.  Here are the rules such programs rest on, for threads that interleave at every call:

* `Effect.read_eq`, `Effect.read_target` — **a real name changes only by being given a temporary file**,
  and then it reads as the bytes of that file.
-/

namespace Files

variable {ν β : Type} [DecidableEq ν]

/-- A temporary file of a thread.  It is `sole` as long as it has no other name. -/
structure Hold (ν β : Type) where
  name : List ν
  inode : ℕ
  content : List β
  sole : Bool

/-- The file is there, with the content the thread knows. -/
structure Hold.Kept (temporary : List ν → Prop) (fs : FileSystem ν β) (h : Hold ν β) : Prop where
  name : temporary h.name
  entry : fs.lookup h.name = some h.inode
  content : fs.contents h.inode = h.content
  sole : h.sole = true → ∀ path, fs.lookup path = some h.inode → path = h.name

/-- How a file gets its real name. -/
inductive Manner where
  | link
  | rename
  deriving DecidableEq

/-- What a thread that holds a temporary file, or none, does to the file system, and what it holds
afterwards.  Between them stands the name it published, if it did. -/
inductive Effect (temporary : List ν → Prop) (fs : FileSystem ν β) :
    Option (Hold ν β) → Option (Manner × List ν) → FileSystem ν β → Option (Hold ν β) → Prop
  | idle (hold : Option (Hold ν β)) : Effect temporary fs hold none fs hold
  | release (hold : Option (Hold ν β)) : Effect temporary fs hold none fs none
  | makeDirectory (hold : Option (Hold ν β)) (path : List ν) :
      Effect temporary fs hold none (fs.createDirAll path) hold
  | create {name : List ν} {fs' : FileSystem ν β} {inode : ℕ} (hname : temporary name)
      (hcreate : fs.createNew name = .ok (fs', inode)) :
      Effect temporary fs none none fs' (some ⟨name, inode, [], true⟩)
  | append {hold : Hold ν β} (hsole : hold.sole = true) (bytes : List β) :
      Effect temporary fs (some hold) none (fs.append hold.inode bytes)
        (some { hold with content := hold.content ++ bytes })
  | remove {hold : Hold ν β} {fs' : FileSystem ν β} (hremove : fs.unlink hold.name = .ok fs') :
      Effect temporary fs (some hold) none fs' none
  | link {hold : Hold ν β} {target : List ν} {fs' : FileSystem ν β} (htarget : ¬temporary target)
      (hlink : fs.hardLink hold.name target = .ok fs') :
      Effect temporary fs (some hold) (some (.link, target)) fs' (some { hold with sole := false })
  | rename {hold : Hold ν β} {target : List ν} {fs' : FileSystem ν β} (htarget : ¬temporary target)
      (hrename : fs.rename hold.name target = .ok fs') :
      Effect temporary fs (some hold) (some (.rename, target)) fs' none

variable {temporary : List ν → Prop} {fs fs' : FileSystem ν β} {hold hold' : Option (Hold ν β)}
  {out : Option (Manner × List ν)}

/-- **What can happen to a name**: nothing, its temporary file goes, it becomes a new temporary file, or it
is published. -/
theorem Effect.lookup_cases (h : Effect temporary fs hold out fs' hold') (path : List ν) :
    fs'.lookup path = fs.lookup path ∨
    (fs'.lookup path = none ∧ ∃ x ∈ hold, x.name = path) ∨
    (temporary path ∧ fs.lookup path = none ∧ fs'.lookup path = some fs.next) ∨
    ∃ x manner, hold = some x ∧ out = some (manner, path) ∧ ¬temporary path ∧
      fs'.lookup path = fs.lookup x.name := by
  cases h with
  | idle => exact .inl rfl
  | release => exact .inl rfl
  | makeDirectory => exact .inl rfl
  | @create name _ _ hname hcreate =>
    obtain ⟨hfree, rfl, _, _, hlookup⟩ := FileSystem.createNew_ok hcreate
    by_cases hp : path = name
    · subst hp
      exact .inr (.inr (.inl ⟨hname, hfree, by rw [hlookup, if_pos rfl]⟩))
    · exact .inl (by rw [hlookup, if_neg hp])
  | append => exact .inl rfl
  | @remove x _ hremove =>
    have hlookup := (FileSystem.unlink_ok hremove).2.2
    by_cases hp : path = x.name
    · exact .inr (.inl ⟨by rw [hlookup, if_pos hp], x, rfl, hp.symm⟩)
    · exact .inl (by rw [hlookup, if_neg hp])
  | @link x target _ htarget hlink =>
    obtain ⟨inode, hinode, _, _, _, hlookup⟩ := FileSystem.hardLink_ok hlink
    by_cases hp : path = target
    · subst hp
      exact .inr (.inr (.inr ⟨x, .link, rfl, rfl, htarget, by rw [hlookup, if_pos rfl, hinode]⟩))
    · exact .inl (by rw [hlookup, if_neg hp])
  | @rename x target _ htarget hrename =>
    obtain ⟨inode, hinode, _, _, hlookup⟩ := FileSystem.rename_ok hrename
    by_cases hp : path = target
    · subst hp
      exact .inr (.inr (.inr ⟨x, .rename, rfl, rfl, htarget, by rw [hlookup, if_pos rfl, hinode]⟩))
    · by_cases hx : path = x.name
      · exact .inr (.inl ⟨by rw [hlookup, if_neg hp, if_pos hx], x, rfl, hx.symm⟩)
      · exact .inl (by rw [hlookup, if_neg hp, if_neg hx])

/-- The file a thread holds afterwards is the one it held, or it is new. -/
theorem Effect.hold_cases (h : Effect temporary fs hold out fs' hold') {x : Hold ν β} (hx : x ∈ hold') :
    (∃ y ∈ hold, y.name = x.name) ∨ fs.lookup x.name = none := by
  cases h with
  | idle => exact .inl ⟨x, hx, rfl⟩
  | release => cases hx
  | makeDirectory => exact .inl ⟨x, hx, rfl⟩
  | create hname hcreate =>
    cases hx
    exact .inr (FileSystem.createNew_ok hcreate).1
  | append hsole bytes => cases hx; exact .inl ⟨_, rfl, rfl⟩
  | remove => cases hx
  | link htarget hlink => cases hx; exact .inl ⟨_, rfl, rfl⟩
  | rename => cases hx

theorem Effect.kept (h : Effect temporary fs hold out fs' hold')
    (hkept : ∀ x ∈ hold, x.Kept temporary fs) : ∀ x ∈ hold', x.Kept temporary fs' := by
  cases h with
  | idle => exact hkept
  | release => intro x hx; cases hx
  | makeDirectory path =>
    intro x hx
    have hk := hkept x hx
    exact ⟨hk.name, hk.entry, hk.content, hk.sole⟩
  | create hname hcreate =>
    obtain ⟨_, rfl, hcontents, _, hlookup⟩ := FileSystem.createNew_ok hcreate
    intro x hx
    cases hx
    refine ⟨hname, by rw [hlookup, if_pos rfl], by rw [hcontents, Function.update_self], ?_⟩
    intro _ path hpath
    rw [hlookup] at hpath
    split at hpath
    · assumption
    · exact absurd (FileSystem.lookup_lt hpath) (Nat.lt_irrefl _)
  | append hsole bytes =>
    intro x hx
    cases hx
    have hk := hkept _ rfl
    refine ⟨hk.name, hk.entry, ?_, hk.sole⟩
    show Function.update fs.contents _ _ _ = _
    rw [Function.update_self, hk.content]
  | remove => intro x hx; cases hx
  | link htarget hlink =>
    obtain ⟨inode, _, _, hcontents, _, hlookup⟩ := FileSystem.hardLink_ok hlink
    intro x hx
    cases hx
    have hk := hkept _ rfl
    refine ⟨hk.name, ?_, by rw [hcontents]; exact hk.content, fun h => by cases h⟩
    rw [hlookup, if_neg]
    · exact hk.entry
    · intro he
      exact htarget (he ▸ hk.name)
  | rename => intro x hx; cases hx

variable {inode : ℕ}

/-- A file that has a name of its own keeps its content. -/
theorem Effect.contents_eq (h : Effect temporary fs hold out fs' hold')
    (hkept : ∀ x ∈ hold, x.Kept temporary fs) {path : List ν} (hpath : ∀ x ∈ hold, x.name ≠ path)
    (hinode : fs.lookup path = some inode) : fs'.contents inode = fs.contents inode := by
  cases h with
  | idle => rfl
  | release => rfl
  | makeDirectory => rfl
  | create hname hcreate =>
    obtain ⟨_, rfl, hcontents, _, _⟩ := FileSystem.createNew_ok hcreate
    rw [hcontents, Function.update_of_ne (FileSystem.lookup_lt hinode).ne]
  | append hsole bytes =>
    refine Function.update_of_ne ?_ _ _
    rintro rfl
    exact hpath _ rfl ((hkept _ rfl).sole hsole path hinode).symm
  | remove hremove => rw [(FileSystem.unlink_ok hremove).1]
  | link htarget hlink =>
    obtain ⟨_, _, _, hcontents, _, _⟩ := FileSystem.hardLink_ok hlink
    rw [hcontents]
  | rename htarget hrename =>
    obtain ⟨_, _, hcontents, _, _⟩ := FileSystem.rename_ok hrename
    rw [hcontents]

/-- **No thread disturbs another's temporary file.** -/
theorem Effect.other (h : Effect temporary fs hold out fs' hold')
    (hkept : ∀ x ∈ hold, x.Kept temporary fs) {u : Hold ν β} (hu : u.Kept temporary fs)
    (hne : ∀ x ∈ hold, x.name ≠ u.name) : u.Kept temporary fs' := by
  refine ⟨hu.name, ?_, (h.contents_eq hkept hne hu.entry).trans hu.content, ?_⟩
  · rcases h.lookup_cases u.name with hsame | ⟨_, x, hx, hname⟩ | ⟨_, hfree, _⟩ | ⟨_, _, _, _, hreal, _⟩
    · rw [hsame, hu.entry]
    · exact absurd hname (hne x hx)
    · rw [hu.entry] at hfree
      cases hfree
    · exact absurd hu.name hreal
  · intro hsole path hpath
    rcases h.lookup_cases path with hsame | ⟨hgone, _⟩ | ⟨_, _, hnew⟩ | ⟨x, _, rfl, _, _, hlinked⟩
    · exact hu.sole hsole path (hsame.symm.trans hpath)
    · rw [hgone] at hpath
      cases hpath
    · -- the inode of a new file was nobody's
      have hlt := FileSystem.lookup_lt hu.entry
      rw [hnew, Option.some.injEq] at hpath
      rw [hpath] at hlt
      exact absurd hlt (Nat.lt_irrefl _)
    · exact absurd (hu.sole hsole x.name (hlinked.symm.trans hpath)) (hne x rfl)

/-- Two threads that hold different names still do. -/
theorem Effect.apart (h : Effect temporary fs hold out fs' hold') {u : Hold ν β}
    (hu : u.Kept temporary fs) (hne : ∀ x ∈ hold, x.name ≠ u.name) :
    ∀ x ∈ hold', x.name ≠ u.name := by
  intro x hx hname
  rcases h.hold_cases hx with ⟨y, hy, hsame⟩ | hfree
  · exact hne y hy (hsame.trans hname)
  · rw [hname, hu.entry] at hfree
    cases hfree

/-! ### Real names -/

/-- A real name that is not published now points where it pointed. -/
theorem Effect.lookup_eq (h : Effect temporary fs hold out fs' hold')
    (hkept : ∀ x ∈ hold, x.Kept temporary fs) {path : List ν} (hpath : ¬temporary path)
    (hout : ∀ manner, out ≠ some (manner, path)) : fs'.lookup path = fs.lookup path := by
  rcases h.lookup_cases path with hsame | ⟨_, x, hx, rfl⟩ | ⟨hnew, _⟩ | ⟨_, manner, _, hpublished, _⟩
  · exact hsame
  · exact absurd (hkept x hx).name hpath
  · exact absurd hnew hpath
  · exact absurd hpublished (hout manner)

theorem Effect.contents_real (h : Effect temporary fs hold out fs' hold')
    (hkept : ∀ x ∈ hold, x.Kept temporary fs) {path : List ν} (hpath : ¬temporary path)
    (hinode : fs.lookup path = some inode) : fs'.contents inode = fs.contents inode := by
  refine h.contents_eq hkept ?_ hinode
  rintro x hx rfl
  exact hpath (hkept x hx).name

/-- **A real name that is not published now reads as before.** -/
theorem Effect.read_eq (h : Effect temporary fs hold out fs' hold')
    (hkept : ∀ x ∈ hold, x.Kept temporary fs) {path : List ν} (hpath : ¬temporary path)
    (hout : ∀ manner, out ≠ some (manner, path)) : fs'.read path = fs.read path := by
  show (fs'.lookup path).map fs'.contents = (fs.lookup path).map fs.contents
  rw [h.lookup_eq hkept hpath hout]
  cases hinode : fs.lookup path with
  | none => rfl
  | some inode => exact congrArg some (h.contents_real hkept hpath hinode)

/-- **A name that is published reads as the temporary file; a link finds it free.** -/
theorem Effect.read_target {manner : Manner} {target : List ν}
    (h : Effect temporary fs hold (some (manner, target)) fs' hold')
    (hkept : ∀ x ∈ hold, x.Kept temporary fs) :
    ∃ x, hold = some x ∧ fs'.read target = some x.content ∧
      (manner = .link → fs.read target = none) := by
  cases h with
  | @link x _ _ htarget hlink =>
    obtain ⟨inode, hinode, hfree, hcontents, _, hlookup⟩ := FileSystem.hardLink_ok hlink
    have hk := hkept x rfl
    rw [hk.entry, Option.some.injEq] at hinode
    refine ⟨x, rfl, ?_, fun _ => FileSystem.read_eq_none_iff.mpr hfree⟩
    rw [FileSystem.read, hlookup, if_pos rfl, hcontents, ← hinode]
    exact congrArg some hk.content
  | @rename x _ _ htarget hrename =>
    obtain ⟨inode, hinode, hcontents, _, hlookup⟩ := FileSystem.rename_ok hrename
    have hk := hkept x rfl
    rw [hk.entry, Option.some.injEq] at hinode
    refine ⟨x, rfl, ?_, fun h => by cases h⟩
    rw [FileSystem.read, hlookup, if_pos rfl, hcontents, ← hinode]
    exact congrArg some hk.content

/-- A real name that has a file keeps it, unless a file is renamed to it. -/
theorem Effect.lookup_kept (h : Effect temporary fs hold out fs' hold')
    (hkept : ∀ x ∈ hold, x.Kept temporary fs) {path : List ν} (hpath : ¬temporary path)
    (hrename : ∀ target, out ≠ some (.rename, target)) (hinode : fs.lookup path = some inode) :
    fs'.lookup path = some inode := by
  by_cases hout : out = some (.link, path)
  · subst hout
    obtain ⟨_, _, _, hfree⟩ := h.read_target hkept
    rw [FileSystem.read_eq_none_iff.mp (hfree rfl)] at hinode
    cases hinode
  · rw [h.lookup_eq hkept hpath, hinode]
    rintro (_ | _)
    · exact hout
    · exact hrename path

/-- A name that is new is a temporary one, or it is published. -/
theorem Effect.name_cases (h : Effect temporary fs hold out fs' hold') {path : List ν}
    (hpath : fs'.lookup path ≠ none) :
    fs.lookup path ≠ none ∨ temporary path ∨ ∃ manner, out = some (manner, path) := by
  rcases h.lookup_cases path with hsame | ⟨hgone, _⟩ | ⟨hnew, _⟩ | ⟨_, manner, _, hpublished, _⟩
  · exact .inl (hsame ▸ hpath)
  · exact absurd hgone hpath
  · exact .inr (.inl hnew)
  · exact .inr (.inr ⟨manner, hpublished⟩)

theorem Effect.directories (h : Effect temporary fs hold out fs' hold') {path : List ν}
    (hpath : path ∈ fs.directories) : path ∈ fs'.directories := by
  cases h with
  | idle => exact hpath
  | release => exact hpath
  | makeDirectory => exact List.mem_dedup.mpr (List.mem_append_right _ hpath)
  | create hname hcreate =>
    obtain ⟨_, _, _, hdirectories, _⟩ := FileSystem.createNew_ok hcreate
    rwa [hdirectories]
  | append => exact hpath
  | remove hremove => rwa [(FileSystem.unlink_ok hremove).2.1]
  | link htarget hlink =>
    obtain ⟨_, _, _, _, hdirectories, _⟩ := FileSystem.hardLink_ok hlink
    rwa [hdirectories]
  | rename htarget hrename =>
    obtain ⟨_, _, _, hdirectories, _⟩ := FileSystem.rename_ok hrename
    rwa [hdirectories]

/-! ### Interleavings -/

section Interleavings

open Threads

variable {σ τ ρ ε : Type*} {start : ρ → τ} {next : ε → σ → τ → Option (σ × τ)}
  (temporary : List ν → Prop) (files : σ → FileSystem ν β) (holds : τ → Option (Hold ν β))

/-- Every thread's temporary file is kept, and no two threads have one name. -/
def Held : Pool σ τ → Prop :=
  Inv (fun _ => True) (fun s t => ∀ x ∈ holds t, x.Kept temporary (files s))
    (fun t u => ∀ x ∈ holds t, ∀ y ∈ holds u, x.name ≠ y.name)

variable {temporary files holds}

/-- **In every interleaving each thread has its own temporary file.** -/
theorem held_step (hstart : ∀ request, holds (start request) = none)
    (heffect : ∀ env s t s' t', next env s t = some (s', t') →
      ∃ out, Effect temporary (files s) (holds t) out (files s') (holds t'))
    {p p' : Pool σ τ} {a : Act ρ ε} (hp : Held temporary files holds p)
    (hstep : step start next p a = some p') : Held temporary files holds p' := by
  refine inv_step (fun _ _ => True) ?_ ?_ ?_ ?_ hp trivial hstep
  · intro t u h x hx y hy
    exact (h y hy x hx).symm
  · intro s request _ x hx
    rw [hstart] at hx
    cases hx
  · intro request u x hx
    rw [hstart] at hx
    cases hx
  · intro p i env t s' t' hinv _ ht hnext
    obtain ⟨out, heff⟩ := heffect env p.shared t s' t' hnext
    have hkept := hinv.each i t ht
    refine ⟨trivial, heff.kept hkept, fun j u hj hu => ⟨?_, ?_⟩⟩
    · intro y hy
      exact heff.other hkept (hinv.each j u hu y hy)
        fun x hx => hinv.apart i j t u hj.symm ht hu x hx y hy
    · intro x hx y hy
      exact heff.apart (hinv.each j u hu y hy)
        (fun x hx => hinv.apart i j t u hj.symm ht hu x hx y hy) x hx

end Interleavings

end Files
