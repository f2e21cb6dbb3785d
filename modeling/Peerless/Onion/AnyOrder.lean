import Peerless.Onion.Reassembly

/-!
# Fragments in any order

The fragments of several messages reach a reassembler mixed and shuffled.  `Collecting` says what the
table holds while some of them are still under way; every arrival keeps it.

* `fragments_reassemble` — every interleaving of the fragments of at most
  `MAX_INFLIGHT_MESSAGES` messages returns every message once, at its last fragment, and leaves the
  reassembler empty.
-/

namespace Peerless.Onion

open Text Wire

/-- Messages a reassembler has room for. -/
structure Inflight (messages : List (Octets 16 × Bytes)) : Prop where
  ids : (messages.map Prod.fst).Nodup
  room : messages.length ≤ maxInflightMessages
  size : ∀ m ∈ messages, m.2.length ≤ maxMessageSize

/-- The fragments of a message. -/
def fragmentsOf (m : Octets 16 × Bytes) : List Fragment :=
  (List.range (fragmentCount m.2)).map (fragmentAt m.1 m.2)

/-- What the push of a fragment returns: the message, unless more of it follows. -/
def completes (message : Bytes) (f : Fragment) (later : List Fragment) :
    Except OnionError (Option Bytes) :=
  .ok (if ∀ g ∈ later, g.messageId ≠ f.messageId then some message else none)

/-- The table while the fragments `rest` are still under way: a message is in it from its first fragment
to its last, with the fragments that have arrived. -/
structure Collecting (messages : List (Octets 16 × Bytes)) (r : Reassembler) (rest : List Fragment) :
    Prop where
  known : ∀ id, (r.messages.lookup id).isSome → id ∈ messages.map Prod.fst
  progress : ∀ m ∈ messages, ∃ seen : List ℕ, seen.Nodup ∧
    (∀ j, j ∈ seen ↔ j < fragmentCount m.2 ∧ fragmentAt m.1 m.2 j ∉ rest) ∧
    r.messages.lookup m.1 =
      if seen = [] ∨ (∀ j, j < fragmentCount m.2 → j ∈ seen) then none else some (partialOf m.2 seen)
  nodup : rest.Nodup
  origin : ∀ f ∈ rest, ∃ m ∈ messages, ∃ i, i < fragmentCount m.2 ∧ f = fragmentAt m.1 m.2 i

variable {messages : List (Octets 16 × Bytes)}

variable {m : Octets 16 × Bytes} {i : ℕ}

theorem fragmentAt_inj (hsize : m.2.length ≤ maxMessageSize) {j : ℕ} (hi : i < fragmentCount m.2)
    (hj : j < fragmentCount m.2) (h : fragmentAt m.1 m.2 i = fragmentAt m.1 m.2 j) : i = j := by
  obtain ⟨_, hcount, _, _⟩ := fragmentCount_bounds hsize
  have hindex : (UInt32.ofNat i).toNat = (UInt32.ofNat j).toNat :=
    congrArg (fun f : Fragment => f.index.toNat) h
  rw [toNat_ofNat_uint32 (by omega), toNat_ofNat_uint32 (by omega)] at hindex
  exact hindex

theorem Inflight.eq_of_id (h : Inflight messages) {n : Octets 16 × Bytes} (hm : m ∈ messages)
    (hn : n ∈ messages) (hid : m.1 = n.1) : m = n :=
  List.inj_on_of_nodup_map h.ids hm hn hid

variable {r : Reassembler} {rest : List Fragment}

/-- A message that is not in the table finds room there. -/
theorem Collecting.room (h : Collecting messages r rest) (hin : Inflight messages) (hm : m ∈ messages)
    (hnone : r.messages.lookup m.1 = none) : HashMap.size r.messages < maxInflightMessages := by
  have hsub : r.messages.keys ⊆ (messages.map Prod.fst).erase m.1 := by
    intro id hid
    have hsome : (r.messages.lookup id).isSome := AList.lookup_isSome.mpr hid
    have hne : id ≠ m.1 := by
      intro heq
      rw [heq, hnone] at hsome
      cases hsome
    exact (List.mem_erase_of_ne hne).mpr (h.known id hsome)
  have hlength := (List.subperm_of_subset r.messages.keys_nodup hsub).length_le
  rw [List.length_erase_of_mem (List.mem_map_of_mem hm), List.length_map] at hlength
  have hkeys : r.messages.keys.length = HashMap.size r.messages := List.length_map _
  have hpos : 0 < messages.length := List.length_pos_of_mem hm
  have hroom := hin.room
  omega

/-- The message a fragment under way belongs to, as the reassembler holds it. -/
theorem Collecting.holds (h : Collecting messages r rest) (hin : Inflight messages) (hm : m ∈ messages)
    (hi : i < fragmentCount m.2) (hrest : fragmentAt m.1 m.2 i ∈ rest) :
    ∃ seen : List ℕ, Holds r m.1 m.2 seen ∧
      ∀ j, j ∈ seen ↔ j < fragmentCount m.2 ∧ fragmentAt m.1 m.2 j ∉ rest := by
  obtain ⟨seen, hnodup, hseen, hlookup⟩ := h.progress m hm
  have hmissing : ¬ ∀ j, j < fragmentCount m.2 → j ∈ seen := fun hall =>
    ((hseen i).mp (hall i hi)).2 hrest
  simp only [hmissing, or_false] at hlookup
  refine ⟨seen, ⟨hlookup, ?_, hnodup, fun j hj => ((hseen j).mp hj).1⟩, hseen⟩
  intro hnil
  rw [if_pos hnil] at hlookup
  exact h.room hin hm hlookup

variable {f : Fragment}

/-- The fragments still missing after an arrival are those under way. -/
theorem all_seen_iff (hin : Inflight messages) (hm : m ∈ messages) (hi : i < fragmentCount m.2)
    (hf : f = fragmentAt m.1 m.2 i) (hnodup : (f :: rest).Nodup)
    (horigin : ∀ g ∈ rest, ∃ n ∈ messages, ∃ j, j < fragmentCount n.2 ∧ g = fragmentAt n.1 n.2 j)
    {seen : List ℕ} (hseen : ∀ j, j ∈ seen ↔ j < fragmentCount m.2 ∧ fragmentAt m.1 m.2 j ∉ f :: rest) :
    (∀ j, j < fragmentCount m.2 → j ∈ i :: seen) ↔ ∀ g ∈ rest, g.messageId ≠ f.messageId := by
  subst hf
  constructor
  · intro hall g hg hid
    obtain ⟨n, hn, j, hj, rfl⟩ := horigin g hg
    obtain rfl : n = m := hin.eq_of_id hn hm hid
    rcases List.mem_cons.mp (hall j hj) with rfl | hmem
    · exact (List.nodup_cons.mp hnodup).1 hg
    · exact ((hseen j).mp hmem).2 (List.mem_cons_of_mem _ hg)
  · intro hnone j hj
    by_cases hij : j = i
    · subst hij
      exact List.mem_cons_self
    · refine List.mem_cons_of_mem _ ((hseen j).mpr ⟨hj, fun hmem => ?_⟩)
      rcases List.mem_cons.mp hmem with heq | hmem
      · exact hij (fragmentAt_inj (hin.size m hm) hj hi heq)
      · exact hnone _ hmem rfl

/-- A message other than the one that grows keeps its entry. -/
theorem Collecting.other {r' : Reassembler} (h : Collecting messages r (f :: rest))
    (hframe : ∀ id, id ≠ f.messageId → r'.messages.lookup id = r.messages.lookup id)
    {n : Octets 16 × Bytes} (hn : n ∈ messages) (hne : n.1 ≠ f.messageId) :
    ∃ seen : List ℕ, seen.Nodup ∧
      (∀ j, j ∈ seen ↔ j < fragmentCount n.2 ∧ fragmentAt n.1 n.2 j ∉ rest) ∧
      r'.messages.lookup n.1 =
        if seen = [] ∨ (∀ j, j < fragmentCount n.2 → j ∈ seen) then none
        else some (partialOf n.2 seen) := by
  obtain ⟨seen, hnodup, hseen, hlookup⟩ := h.progress n hn
  refine ⟨seen, hnodup, fun j => ?_, (hframe n.1 hne).trans hlookup⟩
  have hfn : fragmentAt n.1 n.2 j ≠ f := fun heq => hne (congrArg Fragment.messageId heq)
  rw [hseen, List.mem_cons]
  simp only [hfn, false_or]

/-- **The next arrival is taken**, and completes its message exactly if nothing more of it is under
way. -/
theorem Collecting.push (hin : Inflight messages) (h : Collecting messages r (f :: rest)) :
    Collecting messages (r.push f).1 rest ∧ ∃ m ∈ messages, m.1 = f.messageId ∧
      (r.push f).2 = completes m.2 f rest := by
  obtain ⟨m, hm, i, hi, hf⟩ := h.origin f List.mem_cons_self
  have horigin : ∀ g ∈ rest, ∃ n ∈ messages, ∃ j, j < fragmentCount n.2 ∧ g = fragmentAt n.1 n.2 j :=
    fun g hg => h.origin g (List.mem_cons_of_mem _ hg)
  have hid : f.messageId = m.1 := congrArg Fragment.messageId hf
  obtain ⟨seen, hholds, hseen⟩ := h.holds hin hm hi (hf ▸ List.mem_cons_self)
  have hnew : i ∉ seen := fun hmem => ((hseen i).mp hmem).2 (hf ▸ List.mem_cons_self)
  have hlast := all_seen_iff hin hm hi hf h.nodup horigin hseen
  have hpush := push_fragmentAt (hin.size m hm) hholds hi hnew
  rw [← hf] at hpush
  -- what has arrived of `m` afterwards
  have hgrown : ∀ j, j ∈ i :: seen ↔ j < fragmentCount m.2 ∧ fragmentAt m.1 m.2 j ∉ rest := by
    intro j
    rw [List.mem_cons, hseen, List.mem_cons, not_or]
    constructor
    · rintro (rfl | ⟨hj, _, hrest⟩)
      · exact ⟨hi, hf ▸ (List.nodup_cons.mp h.nodup).1⟩
      · exact ⟨hj, hrest⟩
    · intro ⟨hj, hrest⟩
      by_cases hij : j = i
      · exact .inl hij
      · refine .inr ⟨hj, fun heq => hij ?_, hrest⟩
        exact fragmentAt_inj (hin.size m hm) hj hi (heq.trans hf)
  have hcollecting : ∀ {r' : Reassembler},
      (∀ id, id ≠ f.messageId → r'.messages.lookup id = r.messages.lookup id) →
      r'.messages.lookup m.1 = (if ∀ j, j < fragmentCount m.2 → j ∈ i :: seen then none
        else some (partialOf m.2 (i :: seen))) → Collecting messages r' rest := by
    intro r' hframe hown
    refine ⟨fun id hsome => ?_, fun n hn => ?_, (List.nodup_cons.mp h.nodup).2, horigin⟩
    · by_cases heq : id = f.messageId
      · rw [heq, hid]
        exact List.mem_map_of_mem hm
      · exact h.known id (hframe id heq ▸ hsome)
    · by_cases heq : n.1 = f.messageId
      · obtain rfl : n = m := hin.eq_of_id hn hm (heq.trans hid)
        refine ⟨i :: seen, List.nodup_cons.mpr ⟨hnew, hholds.nodup⟩, hgrown, ?_⟩
        rw [hown]
        simp only [List.cons_ne_nil, false_or]
      · exact h.other hframe hn heq
  by_cases hall : ∀ j, j < fragmentCount m.2 → j ∈ i :: seen
  · rw [if_pos hall] at hpush
    rw [hpush]
    refine ⟨hcollecting (fun id hne => ?_) ?_, m, hm, hid.symm, ?_⟩
    · exact AList.lookup_erase_ne (hid ▸ hne)
    · rw [if_pos hall]
      exact AList.lookup_erase _ _
    · rw [completes, if_pos (hlast.mp hall)]
  · rw [if_neg hall] at hpush
    rw [hpush]
    refine ⟨hcollecting (fun id hne => ?_) ?_, m, hm, hid.symm, ?_⟩
    · exact AList.lookup_insert_ne (hid ▸ hne)
    · rw [if_neg hall]
      exact AList.lookup_insert _
    · rw [completes, if_neg fun hnone => hall (hlast.mpr hnone)]

theorem Collecting.start (hin : Inflight messages) {arrivals : List Fragment}
    (hperm : arrivals.Perm (messages.flatMap fragmentsOf)) :
    Collecting messages Reassembler.empty arrivals where
  known id h := absurd h (by simp [Reassembler.empty])
  progress m hm := by
    refine ⟨[], List.nodup_nil, fun j => ?_, by simp [Reassembler.empty]⟩
    simp only [List.not_mem_nil, false_iff, not_and, not_not]
    intro hj
    rw [hperm.mem_iff]
    exact List.mem_flatMap.mpr ⟨m, hm, List.mem_map_of_mem (List.mem_range.mpr hj)⟩
  nodup := by
    rw [hperm.nodup_iff, List.nodup_flatMap]
    constructor
    · intro m hm
      refine List.Nodup.map_on ?_ List.nodup_range
      intro i hi j hj heq
      exact fragmentAt_inj (hin.size m hm) (List.mem_range.mp hi) (List.mem_range.mp hj) heq
    · -- fragments of different messages differ in the id
      refine (List.pairwise_map.mp hin.ids).imp ?_
      intro m n hne f hfm hfn
      obtain ⟨i, _, rfl⟩ := List.mem_map.mp hfm
      obtain ⟨j, _, heq⟩ := List.mem_map.mp hfn
      exact hne (congrArg Fragment.messageId heq).symm
  origin f hf := by
    obtain ⟨m, hm, hf⟩ := List.mem_flatMap.mp (hperm.mem_iff.mp hf)
    obtain ⟨i, hi, rfl⟩ := List.mem_map.mp hf
    exact ⟨m, hm, i, List.mem_range.mp hi, rfl⟩

theorem Collecting.finish (h : Collecting messages r []) : r = Reassembler.empty := by
  have hnone : ∀ id, r.messages.lookup id = none := by
    intro id
    by_contra hsome
    obtain ⟨m, hm, rfl⟩ := List.mem_map.mp (h.known id (Option.isSome_iff_ne_none.mpr hsome))
    obtain ⟨seen, _, hseen, hlookup⟩ := h.progress m hm
    rw [if_pos (.inr fun j hj => (hseen j).mpr ⟨hj, List.not_mem_nil⟩)] at hlookup
    exact hsome hlookup
  have hentries : r.messages.entries = [] := by
    rw [List.eq_nil_iff_forall_not_mem]
    intro ⟨id, entry⟩ hmem
    have hlookup := HashMap.mem_entries_iff.mp hmem
    rw [hnone id] at hlookup
    cases hlookup
  exact congrArg Reassembler.mk (AList.ext hentries)

/-- **What a whole run returns**: by induction over the fragments under way. -/
theorem Collecting.pushAll (hin : Inflight messages) : ∀ (arrivals : List Fragment) (r : Reassembler),
    Collecting messages r arrivals → (r.pushAll arrivals).1 = Reassembler.empty ∧
      ∀ (n : ℕ) (f : Fragment), arrivals[n]? = some f → ∃ m ∈ messages, m.1 = f.messageId ∧
        (r.pushAll arrivals).2[n]? = some (completes m.2 f (arrivals.drop (n + 1))) := by
  intro arrivals
  induction arrivals with
  | nil =>
    intro r h
    exact ⟨h.finish, fun n f hf => by cases hf⟩
  | cons g rest ih =>
    intro r h
    obtain ⟨hnext, m, hm, hid, hresult⟩ := h.push hin
    obtain ⟨hempty, hlater⟩ := ih _ hnext
    refine ⟨hempty, fun n f hf => ?_⟩
    cases n with
    | zero =>
      cases hf
      exact ⟨m, hm, hid, congrArg some hresult⟩
    | succ n => exact hlater n f hf

/-- A list with an element of a kind has one last element of the kind. -/
theorem existsUnique_last {α : Type*} {p : α → Prop} : ∀ {l : List α}, (∃ x ∈ l, p x) →
    ∃! n, (∃ x, l[n]? = some x ∧ p x) ∧ ∀ y ∈ l.drop (n + 1), ¬ p y := by
  intro l
  induction l with
  | nil =>
    intro ⟨x, hx, _⟩
    cases hx
  | cons a l ih =>
    intro hex
    by_cases hlater : ∃ x ∈ l, p x
    · obtain ⟨n, hn, huniq⟩ := ih hlater
      refine ⟨n + 1, hn, fun k hk => ?_⟩
      cases k with
      | zero =>
        obtain ⟨x, hx, hpx⟩ := hlater
        exact absurd hpx (hk.2 x hx)
      | succ k => exact congrArg (· + 1) (huniq k hk)
    · have hpa : p a := by
        obtain ⟨x, hx, hpx⟩ := hex
        rcases List.mem_cons.mp hx with rfl | hx
        · exact hpx
        · exact absurd ⟨x, hx, hpx⟩ hlater
      refine ⟨0, ⟨⟨a, rfl, hpa⟩, fun y hy hpy => hlater ⟨y, hy, hpy⟩⟩, fun k hk => ?_⟩
      cases k with
      | zero => rfl
      | succ k =>
        obtain ⟨⟨x, hx, hpx⟩, _⟩ := hk
        exact absurd ⟨x, List.mem_of_getElem? hx, hpx⟩ hlater

/-- **Fragments reassemble in any order.** -/
theorem fragments_reassemble (hin : Inflight messages) :
    (∀ m ∈ messages, fragmentMessage m.1 m.2 = .ok (fragmentsOf m)) ∧
      ∀ arrivals : List Fragment, arrivals.Perm (messages.flatMap fragmentsOf) →
        (Reassembler.empty.pushAll arrivals).1 = Reassembler.empty ∧
        (∀ (n : ℕ) (f : Fragment), arrivals[n]? = some f → ∃ m ∈ messages, m.1 = f.messageId ∧
          (Reassembler.empty.pushAll arrivals).2[n]? =
            some (completes m.2 f (arrivals.drop (n + 1)))) ∧
        ∀ m ∈ messages, ∃! n : ℕ, (∃ f, arrivals[n]? = some f ∧ f.messageId = m.1) ∧
          (Reassembler.empty.pushAll arrivals).2[n]? = some (.ok (some m.2)) := by
  refine ⟨fun m hm => fragmentMessage_eq m.1 (hin.size m hm), fun arrivals hperm => ?_⟩
  have hstart := Collecting.start hin hperm
  obtain ⟨hempty, hresults⟩ := Collecting.pushAll hin arrivals _ hstart
  refine ⟨hempty, hresults, fun m hm => ?_⟩
  have hsome : ∃ f ∈ arrivals, f.messageId = m.1 := by
    obtain ⟨hpos, _⟩ := fragmentCount_bounds (hin.size m hm)
    refine ⟨fragmentAt m.1 m.2 0, hperm.mem_iff.mpr ?_, rfl⟩
    exact List.mem_flatMap.mpr ⟨m, hm, List.mem_map_of_mem (List.mem_range.mpr hpos)⟩
  -- the push that returns `m` is the one of its last fragment
  have hreturns : ∀ (n : ℕ), ((∃ f, arrivals[n]? = some f ∧ f.messageId = m.1) ∧
      (Reassembler.empty.pushAll arrivals).2[n]? = some (.ok (some m.2))) ↔
      (∃ f, arrivals[n]? = some f ∧ f.messageId = m.1) ∧
        ∀ g ∈ arrivals.drop (n + 1), ¬ g.messageId = m.1 := by
    intro n
    refine and_congr_right fun ⟨f, hf, hid⟩ => ?_
    obtain ⟨k, hk, hkid, hresult⟩ := hresults n f hf
    obtain rfl : k = m := hin.eq_of_id hk hm (hkid.trans hid)
    rw [hresult, completes, hid]
    simp
  simp only [hreturns]
  exact existsUnique_last hsome

/-- An empty message and one of three fragments. -/
def twoMessages : List (Octets 16 × Bytes) :=
  [(⟨List.replicate 16 1, rfl⟩, []), (⟨List.replicate 16 2, rfl⟩, List.replicate 2000 7)]

/-- Their four fragments, last first. -/
theorem twoMessages_reversed : Inflight twoMessages ∧
    (Reassembler.empty.pushAll (twoMessages.flatMap fragmentsOf).reverse).1 = Reassembler.empty := by
  have hin : Inflight twoMessages := by
    refine ⟨by decide, by decide, ?_⟩
    refine List.forall_mem_cons.mpr ⟨Nat.zero_le _, List.forall_mem_singleton.mpr ?_⟩
    show (List.replicate 2000 _).length ≤ maxMessageSize
    rw [List.length_replicate]
    decide
  exact ⟨hin, ((fragments_reassemble hin).2 _ (List.reverse_perm _)).1⟩

end Peerless.Onion
