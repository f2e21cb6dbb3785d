import Mathlib.Data.List.MinMax
import Mathlib.Data.Prod.Lex
import Mathlib.Tactic.Common

/-!
# Documents as sets of operations

A replicated document of nested maps is the set of operations made on it.  An operation assigns to one
key of one map and names the assignments it overwrites, those its author could see; what is left of a
key is every assignment nobody overwrote, and where concurrent authors left several, a rule picks one.
Documents are listed, but only membership counts.

* `visible_ne_nil` — a key that was assigned and never deleted has an assignment left.
-/

namespace OpSet

variable {α κ β : Type*}

/-- A Lamport timestamp. -/
structure OpId (α : Type*) where
  counter : ℕ
  actor : α
  deriving DecidableEq

/-- What an operation puts at its key: a new map, a new sequence, a scalar, or nothing. -/
inductive Action (β : Type*) where
  | makeMap
  | makeSeq
  | set (value : β)
  | delete
  deriving DecidableEq

/-- An operation; `obj` is the map it assigns to, `none` for the root. -/
structure Op (α κ β : Type*) where
  id : OpId α
  obj : Option (OpId α)
  key : κ
  action : Action β
  pred : List (OpId α)
  deriving DecidableEq

abbrev Doc (α κ β : Type*) := List (Op α κ β)

/-- The id a new operation gets: one more than every counter the author has seen. -/
def nextId (d : Doc α κ β) (actor : α) : OpId α := ⟨(d.map fun o => o.id.counter).foldr max 0 + 1, actor⟩

/-- How concurrent assignments are resolved; the outcome depends only on which they are. -/
structure Rule (α κ β : Type*) where
  pick : List (Op α κ β) → Option (Op α κ β)
  mem : ∀ l o, pick l = some o → o ∈ l
  total : ∀ l, l ≠ [] → (pick l).isSome
  agree : ∀ l l', (∀ o, o ∈ l ↔ o ∈ l') → (∀ o ∈ l, ∀ o' ∈ l, o.id = o'.id → o = o') → pick l = pick l'

/-- Timestamps are ordered by their counters, and those of one counter by their actors. -/
def OpId.stamp (i : OpId α) : ℕ ×ₗ α := toLex (i.counter, i.actor)

theorem OpId.stamp_injective {i j : OpId α} (h : i.stamp = j.stamp) : i = j := by
  obtain ⟨c, x⟩ := i
  obtain ⟨d, y⟩ := j
  obtain ⟨hcounter, hactor⟩ := Prod.mk.inj (toLex.injective h)
  rw [show c = d from hcounter, show x = y from hactor]

/-- **The latest assignment wins.** -/
def latest [LinearOrder α] : Rule α κ β where
  pick := fun l => l.argmax fun o => o.id.stamp
  mem := fun _ _ h => List.argmax_mem h
  total := fun l hl => Option.isSome_iff_ne_none.mpr (mt List.argmax_eq_none.mp hl)
  agree := by
    intro l l' hsame hunique
    cases h : l.argmax fun o => o.id.stamp with
    | none =>
      have hempty : l' = [] := by
        refine List.eq_nil_iff_forall_not_mem.mpr fun o ho => ?_
        have hmem := (hsame o).mpr ho
        rw [List.argmax_eq_none.mp h] at hmem
        cases hmem
      rw [hempty]
      rfl
    | some o =>
      have hmem : o ∈ l' := (hsame o).mp (List.argmax_mem h)
      obtain ⟨o', h'⟩ := Option.ne_none_iff_exists'.mp
        (mt List.argmax_eq_none.mp (List.ne_nil_of_mem hmem) : l'.argmax (fun o => o.id.stamp) ≠ none)
      have hmem' : o' ∈ l := (hsame o').mpr (List.argmax_mem h')
      have hle : o.id.stamp ≤ o'.id.stamp :=
        List.le_of_mem_argmax (f := fun o : Op α κ β => o.id.stamp) hmem h'
      have hge : o'.id.stamp ≤ o.id.stamp :=
        List.le_of_mem_argmax (f := fun o : Op α κ β => o.id.stamp) hmem' h
      rw [h', hunique o (List.argmax_mem h) o' hmem' (OpId.stamp_injective (le_antisymm hle hge))]

variable [DecidableEq α] [DecidableEq κ] [DecidableEq β]

def merge (a b : Doc α κ β) : Doc α κ β := a ++ b.filter (· ∉ a)

/-- Some operation names this one as overwritten. -/
def overwritten (d : Doc α κ β) (o : Op α κ β) : Bool := d.any fun o' => o'.pred.contains o.id

/-- The assignments left at a key. -/
def visible (d : Doc α κ β) (obj : Option (OpId α)) (key : κ) : List (Op α κ β) :=
  d.filter fun o => o.obj = obj ∧ o.key = key ∧ o.action ≠ .delete ∧ overwritten d o = false

def get (R : Rule α κ β) (d : Doc α κ β) (obj : Option (OpId α)) (key : κ) : Option (Op α κ β) :=
  R.pick (visible d obj key)

/-- A new assignment overwrites what its author sees at the key. -/
def assign (d : Doc α κ β) (actor : α) (obj : Option (OpId α)) (key : κ) (action : Action β) :
    Op α κ β :=
  ⟨nextId d actor, obj, key, action, (visible d obj key).map Op.id⟩

/-- The operation that made an object. -/
def madeBy (d : Doc α κ β) (obj : OpId α) (action : Action β) : Bool :=
  d.any fun o => o.id = obj ∧ o.action = action

/-! ### Membership -/

variable {o : Op α κ β}

theorem mem_merge {a b : Doc α κ β} : o ∈ merge a b ↔ o ∈ a ∨ o ∈ b := by
  unfold merge
  rw [List.mem_append, List.mem_filter]
  constructor
  · rintro (ha | ⟨hb, _⟩)
    · exact Or.inl ha
    · exact Or.inr hb
  · rintro (ha | hb)
    · exact Or.inl ha
    · by_cases ha : o ∈ a
      · exact Or.inl ha
      · exact Or.inr ⟨hb, decide_eq_true ha⟩

variable {d : Doc α κ β}

omit [DecidableEq κ] [DecidableEq β] in
theorem overwritten_iff : overwritten d o = true ↔ ∃ o' ∈ d, o.id ∈ o'.pred := by
  simp [overwritten]

variable {obj : Option (OpId α)}

theorem mem_visible {key : κ} :
    o ∈ visible d obj key ↔
      o ∈ d ∧ o.obj = obj ∧ o.key = key ∧ o.action ≠ .delete ∧ ∀ o' ∈ d, o.id ∉ o'.pred := by
  unfold visible
  rw [List.mem_filter, decide_eq_true_eq, ← Bool.not_eq_true, overwritten_iff]
  simp only [not_exists, not_and]

variable {R : Rule α κ β}

theorem mem_of_get {key : κ} (h : get R d obj key = some o) : o ∈ visible d obj key :=
  R.mem _ o h

theorem get_isSome {key : κ} (h : visible d obj key ≠ []) :
    ∃ o ∈ visible d obj key, get R d obj key = some o := by
  obtain ⟨o, ho⟩ := Option.isSome_iff_exists.mp (R.total _ h)
  exact ⟨o, mem_of_get ho, ho⟩

/-! ### Histories -/

/-- All operations made so far, by everybody: no id twice, and whatever an operation overwrites was made
before it at the same key. -/
structure Lawful (H : Op α κ β → Prop) : Prop where
  unique : ∀ o o', H o → H o' → o.id = o'.id → o = o'
  pred : ∀ o', H o' → ∀ i ∈ o'.pred, ∃ o, H o ∧ o.id = i ∧ o.obj = o'.obj ∧ o.key = o'.key ∧
    o.id.counter < o'.id.counter

variable {H : Op α κ β → Prop}

omit [DecidableEq α] [DecidableEq κ] [DecidableEq β] in
theorem Lawful.overwrites (hH : Lawful H) {o' : Op α κ β} (ho : H o) (ho' : H o') (hpred : o.id ∈ o'.pred) :
    o.obj = o'.obj ∧ o.key = o'.key ∧ o.id.counter < o'.id.counter := by
  obtain ⟨p, hp, hid, hobj, hkey, hcounter⟩ := hH.pred o' ho' o.id hpred
  obtain rfl := hH.unique p o hp ho hid
  exact ⟨hobj, hkey, hcounter⟩

omit [DecidableEq α] [DecidableEq κ] [DecidableEq β] in
theorem counter_lt_nextId (actor : α) (ho : o ∈ d) : o.id.counter < (nextId d actor).counter := by
  show o.id.counter < (d.map fun o => o.id.counter).foldr max 0 + 1
  induction d with
  | nil => cases ho
  | cons p d ih =>
    rw [List.map_cons, List.foldr_cons]
    rcases List.mem_cons.mp ho with rfl | ho
    · omega
    · have hrest := ih ho
      omega

omit [DecidableEq α] [DecidableEq κ] [DecidableEq β] in
/-- **Lamport timestamps are fresh** for an author who knows all of its own operations. -/
theorem nextId_fresh {actor : α} (hown : ∀ o, H o → o.id.actor = actor → o ∈ d) :
    ∀ o, H o → o.id ≠ nextId d actor := by
  intro o ho hid
  have hmem : o ∈ d := hown o ho (congrArg OpId.actor hid)
  have hlt := counter_lt_nextId actor hmem
  rw [hid] at hlt
  exact lt_irrefl _ hlt

theorem Lawful.assign (hH : Lawful H) (hd : ∀ o ∈ d, H o) {actor : α}
    (hfresh : ∀ o, H o → o.id ≠ nextId d actor) (obj : Option (OpId α)) (key : κ) (action : Action β) :
    Lawful fun o => H o ∨ o = assign d actor obj key action := by
  constructor
  · rintro o o' (ho | rfl) (ho' | rfl) hid
    · exact hH.unique o o' ho ho' hid
    · exact absurd hid (hfresh o ho)
    · exact absurd hid.symm (hfresh o' ho')
    · rfl
  · rintro o' (ho' | rfl) i hi
    · obtain ⟨o, ho, hrest⟩ := hH.pred o' ho' i hi
      exact ⟨o, Or.inl ho, hrest⟩
    · obtain ⟨o, ho, rfl⟩ := List.mem_map.mp hi
      obtain ⟨hmem, hobj, hkey, _, _⟩ := mem_visible.mp ho
      exact ⟨o, Or.inl (hd o hmem), rfl, hobj, hkey, counter_lt_nextId actor hmem⟩

/-- **What was assigned and never deleted is there.**  Of the assignments to a key the latest is left. -/
theorem visible_ne_nil (hH : Lawful H) (hd : ∀ o ∈ d, H o) (ho : o ∈ d)
    (hkept : ∀ o' ∈ d, o'.obj = o.obj → o'.key = o.key → o'.action ≠ .delete) :
    visible d o.obj o.key ≠ [] := by
  let here := d.filter fun o' => o'.obj = o.obj ∧ o'.key = o.key
  have hhere : ∀ o', o' ∈ here ↔ o' ∈ d ∧ o'.obj = o.obj ∧ o'.key = o.key := by
    intro o'
    rw [List.mem_filter, decide_eq_true_eq]
  have hne : here ≠ [] := List.ne_nil_of_mem ((hhere o).mpr ⟨ho, rfl, rfl⟩)
  obtain ⟨last, hlast⟩ := Option.ne_none_iff_exists'.mp
    (mt List.argmax_eq_none.mp hne : here.argmax (fun o' => o'.id.counter) ≠ none)
  obtain ⟨hmem, hobj, hkey⟩ := (hhere last).mp (List.argmax_mem hlast)
  refine List.ne_nil_of_mem (mem_visible.mpr ⟨hmem, hobj, hkey, hkept last hmem hobj hkey, ?_⟩)
  -- whoever overwrites it is a later assignment to the same key
  intro o' ho' hpred
  obtain ⟨hobj', hkey', hlt⟩ := hH.overwrites (hd last hmem) (hd o' ho') hpred
  have hlater : o' ∈ here := (hhere o').mpr ⟨ho', hobj'.symm.trans hobj, hkey'.symm.trans hkey⟩
  exact absurd (List.le_of_mem_argmax hlater hlast) (not_le.mpr hlt)

/-! ### The same operations -/

variable {d' : Doc α κ β}

theorem visible_congr (h : ∀ o, o ∈ d ↔ o ∈ d') (obj : Option (OpId α)) (key : κ) (o : Op α κ β) :
    o ∈ visible d obj key ↔ o ∈ visible d' obj key := by
  rw [mem_visible, mem_visible, h o]
  simp only [h]

omit [DecidableEq κ] in
theorem madeBy_congr (h : ∀ o, o ∈ d ↔ o ∈ d') (obj : OpId α) (action : Action β) :
    madeBy d obj action = madeBy d' obj action := by
  rw [Bool.eq_iff_iff]
  simp [madeBy, h]

/-- **Documents with the same operations answer alike.** -/
theorem get_congr (hH : Lawful H) (hd : ∀ o ∈ d, H o) (h : ∀ o, o ∈ d ↔ o ∈ d') (obj : Option (OpId α))
    (key : κ) : get R d obj key = get R d' obj key := by
  refine R.agree _ _ (visible_congr h obj key) ?_
  intro o ho o' ho' hid
  exact hH.unique o o' (hd o (mem_visible.mp ho).1) (hd o' (mem_visible.mp ho').1) hid

end OpSet
