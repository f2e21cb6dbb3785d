import Peerless.Lib.Mealy
import Peerless.Onion.Reassembly
import Mathlib.Data.List.Sort

/-!
# Reassembly of hostile fragments

Whoever can send fragments chooses every field of them.  `push` enters a message into the table before
most of its checks and fills a slot before the last one, so an error can leave something behind.

* `reassembly_bounded` — after any fragments the table is bounded, and a message that comes
  out is made of exactly the fragments accepted for it.
-/

namespace Peerless.Onion

open Text Wire

/-! ### What a push does -/

/-- The slot of a fragment is free and its bytes fit in. -/
structure PartialMessage.Fits (p : PartialMessage) (f : Fragment) : Prop where
  count : p.count = f.count
  total : p.totalLen = f.totalLen
  free : p.fragments.getD f.index.toNat none = none
  bytes : p.receivedBytes + f.bytes.length ≤ p.totalLen.toNat

/-- The message with the fragment in its slot. -/
def PartialMessage.fill (p : PartialMessage) (f : Fragment) : PartialMessage :=
  { p with receivedBytes := p.receivedBytes + f.bytes.length
           fragments := p.fragments.set f.index.toNat (some f.bytes) }

/-- No slot is free. -/
def PartialMessage.Full (p : PartialMessage) : Prop := p.fragments.any Option.isNone = false

/-- The table has an entry or a place for the fragment's message. -/
def Reassembler.Room (r : Reassembler) (f : Fragment) : Prop :=
  (r.messages.lookup f.messageId).isNone → HashMap.size r.messages < maxInflightMessages

theorem Reassembler.entry_of_lookup {r : Reassembler} {f : Fragment} {p : PartialMessage}
    (h : r.messages.lookup f.messageId = some p) : r.entry f = p := by
  rw [Reassembler.entry, h, Option.getD_some]

/-- The table with an entry for the fragment's message. -/
def Reassembler.store (r : Reassembler) (f : Fragment) (p : PartialMessage) : Reassembler :=
  ⟨r.messages.insert f.messageId p⟩

/-- **What a push can do**: refuse the fragment without looking at its message; refuse it with the
message's entry in the table; fill a slot; fill the last slot of a message of the wrong length; complete
the message. -/
inductive Reassembler.Pushed (r : Reassembler) (f : Fragment) :
    Reassembler × Except OnionError (Option Bytes) → Prop
  | ignored (err : OnionError) (h : ¬ (f.Valid ∧ r.Room f)) : Pushed r f (r, .error err)
  | opened (err : OnionError) (hvalid : f.Valid) (hroom : r.Room f) (h : ¬ (r.entry f).Fits f) :
    Pushed r f (r.store f (r.entry f), .error err)
  | taken (hvalid : f.Valid) (hroom : r.Room f) (h : (r.entry f).Fits f)
    (hmissing : ¬ ((r.entry f).fill f).Full) : Pushed r f (r.store f ((r.entry f).fill f), .ok none)
  | stuck (err : OnionError) (hvalid : f.Valid) (hroom : r.Room f) (h : (r.entry f).Fits f)
    (hfull : ((r.entry f).fill f).Full) : Pushed r f (r.store f ((r.entry f).fill f), .error err)
  | completed (hvalid : f.Valid) (hroom : r.Room f) (h : (r.entry f).Fits f)
    (hfull : ((r.entry f).fill f).Full)
    (htotal : ((r.entry f).fill f).receivedBytes = f.totalLen.toNat) :
    Pushed r f (⟨r.messages.erase f.messageId⟩,
      .ok (some (((r.entry f).fill f).fragments.filterMap id).flatten))

/-- **The effect of a push**, one case for each exit of the function. -/
theorem Reassembler.push_cases (r : Reassembler) (f : Fragment) : r.Pushed f (r.push f) := by
  unfold Reassembler.push
  cases hvalidate : f.validate with
  | error err =>
    refine .ignored err fun h => ?_
    rw [(Fragment.validate_ok_iff f).mpr h.1] at hvalidate
    cases hvalidate
  | ok _ =>
    have hvalid := (Fragment.validate_ok_iff f).mp hvalidate
    dsimp only
    split
    · rename_i hfull
      exact .ignored _ fun h => absurd (h.2 hfull.1) (not_lt.mpr hfull.2)
    rename_i hplace
    have hroom : r.Room f := fun hnone => not_le.mp fun hsize => hplace ⟨hnone, hsize⟩
    split
    · rename_i hother
      exact .opened _ hvalid hroom fun h => hother.elim (absurd h.count) (absurd h.total)
    rename_i hsame
    obtain ⟨hcount, htotal⟩ := not_or.mp hsame
    rw [not_not] at hcount htotal
    split
    · rename_i hslot
      refine .opened _ hvalid hroom fun h => ?_
      rw [h.free] at hslot
      cases hslot
    rename_i hslot
    have hfree : (r.entry f).fragments.getD f.index.toNat none = none := by
      simpa using hslot
    split
    · rename_i hhuge
      -- a message this long is longer than any declared length
      refine .opened _ hvalid hroom fun h => ?_
      have hbytes := h.bytes
      have htotal := (r.entry f).totalLen.toNat_lt
      omega
    split
    · rename_i hlong
      exact .opened _ hvalid hroom fun h => absurd h.bytes (not_le.mpr hlong)
    rename_i hfits
    have hfits : (r.entry f).Fits f := ⟨hcount, htotal, hfree, not_lt.mp hfits⟩
    split
    · rename_i hmissing
      exact .taken hvalid hroom hfits fun hfull => Bool.false_ne_true (hfull.symm.trans hmissing)
    rename_i hfull
    have hfull : ((r.entry f).fill f).Full := by
      rw [PartialMessage.Full, ← Bool.not_eq_true]
      exact hfull
    split
    · exact .stuck _ hvalid hroom hfits hfull
    · rename_i hlength
      refine .completed hvalid hroom hfits hfull ?_
      rw [not_not] at hlength
      rw [← htotal]
      exact hlength

/-! ### The entry of a message -/

/-- The bytes in the slots. -/
def slotBytes (slots : List (Option Bytes)) : ℕ := ((slots.filterMap id).map List.length).sum

/-- An entry with its bounds: as many slots as declared, between 1 and 1024; the counter is the sum of
the slots and within the declared length, which is within the limit. -/
structure PartialMessage.Sound (p : PartialMessage) : Prop where
  slots : p.fragments.length = p.count.toNat
  count_pos : 1 ≤ p.count.toNat
  count_le : p.count.toNat ≤ 1024
  received : p.receivedBytes = slotBytes p.fragments
  within : p.receivedBytes ≤ p.totalLen.toNat
  total_le : p.totalLen.toNat ≤ maxMessageSize

/-- The slots hold the fragments of a list, which all declare what the entry declares. -/
structure PartialMessage.Collected (p : PartialMessage) (accepted : List Fragment) : Prop where
  declared : ∀ g ∈ accepted, g.count = p.count ∧ g.totalLen = p.totalLen
  slots : ∀ i b, p.fragments[i]? = some (some b) ↔ ∃ g ∈ accepted, g.index.toNat = i ∧ g.bytes = b
  indices : (accepted.map fun g => g.index.toNat).Nodup

theorem slotBytes_replicate (n : ℕ) : slotBytes (List.replicate n none) = 0 := by
  simp [slotBytes]

theorem slotBytes_set (b : Bytes) : ∀ (slots : List (Option Bytes)) (i : ℕ), slots[i]? = some none →
    slotBytes (slots.set i (some b)) = slotBytes slots + b.length := by
  intro slots
  induction slots with
  | nil => intro i h; cases h
  | cons slot slots ih =>
    intro i h
    cases i with
    | zero =>
      obtain rfl : slot = none := Option.some.inj h
      show ((b :: slots.filterMap id).map List.length).sum =
        ((slots.filterMap id).map List.length).sum + b.length
      rw [List.map_cons, List.sum_cons, Nat.add_comm]
    | succ i =>
      have hrest := ih i h
      cases slot with
      | none => exact hrest
      | some c =>
        show ((c :: (slots.set i (some b)).filterMap id).map List.length).sum =
          ((c :: slots.filterMap id).map List.length).sum + b.length
        rw [List.map_cons, List.sum_cons, List.map_cons, List.sum_cons, Nat.add_assoc]
        exact congrArg (c.length + ·) hrest

variable {r : Reassembler} {f : Fragment} {p : PartialMessage} {accepted : List Fragment}

theorem PartialMessage.Fits.slot (h : p.Fits f) (hp : p.Sound) (hvalid : f.Valid) :
    p.fragments[f.index.toNat]? = some none := by
  have hlt : f.index.toNat < p.fragments.length := by
    rw [hp.slots, h.count]
    exact hvalid.index_lt
  have hfree := h.free
  rw [List.getD_eq_getElem?_getD, List.getElem?_eq_getElem hlt, Option.getD_some] at hfree
  rw [List.getElem?_eq_getElem hlt, hfree]

theorem PartialMessage.Sound.fill (hp : p.Sound) (hvalid : f.Valid) (h : p.Fits f) :
    (p.fill f).Sound where
  slots := (List.length_set).trans hp.slots
  count_pos := hp.count_pos
  count_le := hp.count_le
  received := by
    show p.receivedBytes + f.bytes.length = slotBytes (p.fragments.set f.index.toNat (some f.bytes))
    rw [slotBytes_set _ _ _ (h.slot hp hvalid), hp.received]
  within := h.bytes
  total_le := hp.total_le

theorem PartialMessage.Collected.index_ne (hc : p.Collected accepted) {i : ℕ}
    (hfree : p.fragments[i]? = some none) {g : Fragment} (hg : g ∈ accepted) : g.index.toNat ≠ i := by
  intro heq
  have hset := (hc.slots i g.bytes).mpr ⟨g, hg, heq, rfl⟩
  rw [hfree] at hset
  cases hset

theorem PartialMessage.Collected.fill (hc : p.Collected accepted) (hp : p.Sound) (hvalid : f.Valid)
    (h : p.Fits f) : (p.fill f).Collected (accepted ++ [f]) where
  declared g hg := by
    rcases List.mem_append.mp hg with hg | hg
    · exact hc.declared g hg
    · rw [List.mem_singleton.mp hg]
      exact ⟨h.count.symm, h.total.symm⟩
  slots i b := by
    show (p.fragments.set f.index.toNat (some f.bytes))[i]? = some (some b) ↔ _
    by_cases hi : f.index.toNat = i
    · subst hi
      rw [List.getElem?_set_self', h.slot hp hvalid]
      constructor
      · intro hb
        exact ⟨f, List.mem_append_right _ List.mem_cons_self, rfl,
          Option.some.inj (Option.some.inj hb)⟩
      · rintro ⟨g, hg, hindex, rfl⟩
        rcases List.mem_append.mp hg with hg | hg
        · exact absurd hindex (hc.index_ne (h.slot hp hvalid) hg)
        · rw [List.mem_singleton.mp hg]
          rfl
    · rw [List.getElem?_set_ne hi, hc.slots]
      constructor
      · rintro ⟨g, hg, hindex, hbytes⟩
        exact ⟨g, List.mem_append_left _ hg, hindex, hbytes⟩
      · rintro ⟨g, hg, hindex, hbytes⟩
        rcases List.mem_append.mp hg with hg | hg
        · exact ⟨g, hg, hindex, hbytes⟩
        · rw [List.mem_singleton.mp hg] at hindex
          exact absurd hindex hi
  indices := by
    rw [List.map_append, List.map_singleton]
    refine List.nodup_append.mpr ⟨hc.indices, List.nodup_singleton _, ?_⟩
    intro i hi j hj heq
    obtain ⟨g, hg, rfl⟩ := List.mem_map.mp hi
    rw [List.mem_singleton.mp hj] at heq
    exact hc.index_ne (h.slot hp hvalid) hg heq

/-- **A full entry, by index.**  The accepted fragments, put in order, are the slots. -/
theorem PartialMessage.Collected.parts (hc : p.Collected accepted) (hp : p.Sound) (hfull : p.Full) :
    ∃ parts : List Fragment, parts.Perm accepted ∧
      parts.map (fun g => g.index.toNat) = List.range p.count.toNat ∧
      p.fragments = parts.map fun g => some g.bytes := by
  have hfilled : ∀ i, i < p.count.toNat → ∃ b, p.fragments[i]? = some (some b) := by
    intro i hi
    rw [← hp.slots] at hi
    have hnone := List.any_eq_false.mp hfull _ (List.getElem_mem hi)
    cases hslot : p.fragments[i] with
    | none => rw [hslot] at hnone; exact absurd rfl hnone
    | some b => exact ⟨b, by rw [List.getElem?_eq_getElem hi, hslot]⟩
  -- the fragments in the order of their indices
  let parts := accepted.mergeSort fun g g' => decide (g.index.toNat ≤ g'.index.toNat)
  have hperm : parts.Perm accepted := List.mergeSort_perm _ _
  have hsorted : (parts.map fun g => g.index.toNat).Pairwise (· ≤ ·) := by
    rw [List.pairwise_map]
    refine (List.pairwise_mergeSort ?_ ?_ accepted).imp fun h => of_decide_eq_true h
    · intro a b c hab hbc
      simp only [decide_eq_true_eq] at hab hbc ⊢
      exact hab.trans hbc
    · intro a b
      simp only [Bool.or_eq_true, decide_eq_true_eq]
      exact le_total _ _
  have hindices : parts.map (fun g => g.index.toNat) = List.range p.count.toNat := by
    refine List.Perm.eq_of_pairwise ?_ hsorted List.pairwise_le_range ?_
    · intro a b _ _ hab hba
      exact le_antisymm hab hba
    · rw [List.perm_ext_iff_of_nodup ((hperm.map _).nodup_iff.mpr hc.indices) List.nodup_range]
      intro i
      rw [(hperm.map _).mem_iff, List.mem_map, List.mem_range]
      constructor
      · rintro ⟨g, hg, rfl⟩
        have hset := (hc.slots _ _).mpr ⟨g, hg, rfl, rfl⟩
        obtain ⟨hlt, _⟩ := List.getElem?_eq_some_iff.mp hset
        rw [← hp.slots]
        exact hlt
      · intro hi
        obtain ⟨b, hb⟩ := hfilled i hi
        obtain ⟨g, hg, hindex, _⟩ := (hc.slots i b).mp hb
        exact ⟨g, hg, hindex⟩
  refine ⟨parts, hperm, hindices, List.ext_getElem? fun i => ?_⟩
  rw [List.getElem?_map]
  cases hpart : parts[i]? with
  | none =>
    rw [List.getElem?_eq_none_iff] at hpart
    have hlength := congrArg List.length hindices
    rw [List.length_map, List.length_range, ← hp.slots] at hlength
    rw [List.getElem?_eq_none_iff.mpr (hlength ▸ hpart)]
    rfl
  | some g =>
    refine (hc.slots i g.bytes).mpr ⟨g, hperm.mem_iff.mp (List.mem_of_getElem? hpart), ?_, rfl⟩
    have hi := congrArg (·[i]?) hindices
    simp only [List.getElem?_map, hpart, Option.map_some] at hi
    obtain ⟨_, hrange⟩ := List.getElem?_eq_some_iff.mp hi.symm
    rw [← hrange, List.getElem_range]

/-! ### The table and its history -/

/-- The fragments accepted for each message that has not come out yet, after one more push: an error
accepts nothing, and a message that comes out starts again. -/
def record (accepted : Octets 16 → List Fragment)
    (entry : Fragment × Except OnionError (Option Bytes)) : Octets 16 → List Fragment :=
  match entry.2 with
  | .error _ => accepted
  | .ok none => Function.update accepted entry.1.messageId (accepted entry.1.messageId ++ [entry.1])
  | .ok (some _) => Function.update accepted entry.1.messageId []

/-- The table is bounded, and an entry with a free slot holds the fragments accepted for it. -/
structure Tracked (r : Reassembler) (accepted : Octets 16 → List Fragment) : Prop where
  size : HashMap.size r.messages ≤ maxInflightMessages
  absent : ∀ id, r.messages.lookup id = none → accepted id = []
  sound : ∀ id p, r.messages.lookup id = some p → p.Sound
  collected : ∀ id p, r.messages.lookup id = some p → ¬ p.Full → p.Collected (accepted id)

section History

variable {history : Octets 16 → List Fragment}

theorem tracked_empty : Tracked .empty fun _ => [] where
  size := Nat.zero_le _
  absent _ _ := rfl
  sound id p h := by cases h
  collected id p h := by cases h

/-- The entry a valid fragment meets, a fresh one included. -/
theorem Tracked.entry (ht : Tracked r history) (hvalid : f.Valid) :
    (r.entry f).Sound ∧ (¬ (r.entry f).Full → (r.entry f).Collected (history f.messageId)) := by
  unfold Reassembler.entry
  cases hlookup : r.messages.lookup f.messageId with
  | some p => exact ⟨ht.sound _ p hlookup, ht.collected _ p hlookup⟩
  | none =>
    refine ⟨⟨List.length_replicate, hvalid.count_pos, hvalid.count_le, (slotBytes_replicate _).symm,
      Nat.zero_le _, hvalid.total_le⟩, fun _ => ?_⟩
    rw [ht.absent _ hlookup]
    refine ⟨by simp, fun i b => ?_, List.nodup_nil⟩
    simp only [Option.getD_none, List.getElem?_replicate, List.not_mem_nil, false_and, exists_false,
      iff_false]
    split <;> simp

theorem Tracked.store {history' : Octets 16 → List Fragment} (ht : Tracked r history)
    (hroom : r.Room f) (hp : p.Sound) (hother : ∀ id, id ≠ f.messageId → history' id = history id)
    (hown : ¬ p.Full → p.Collected (history' f.messageId)) : Tracked (r.store f p) history' where
  size := by
    show HashMap.size (r.messages.insert f.messageId p) ≤ _
    cases hlookup : r.messages.lookup f.messageId with
    | none =>
      rw [HashMap.size_insert_of_none p hlookup]
      exact hroom (by rw [hlookup]; rfl)
    | some q =>
      rw [HashMap.size_insert_of_some p hlookup]
      exact ht.size
  absent id h := by
    by_cases hid : id = f.messageId
    · rw [hid, Reassembler.store, AList.lookup_insert] at h
      cases h
    · rw [Reassembler.store, AList.lookup_insert_ne hid] at h
      rw [hother id hid]
      exact ht.absent id h
  sound id q h := by
    by_cases hid : id = f.messageId
    · rw [hid, Reassembler.store, AList.lookup_insert] at h
      rw [← Option.some.inj h]
      exact hp
    · rw [Reassembler.store, AList.lookup_insert_ne hid] at h
      exact ht.sound id q h
  collected id q h hmissing := by
    by_cases hid : id = f.messageId
    · rw [hid, Reassembler.store, AList.lookup_insert] at h
      obtain rfl := Option.some.inj h
      rw [hid]
      exact hown hmissing
    · rw [Reassembler.store, AList.lookup_insert_ne hid] at h
      rw [hother id hid]
      exact ht.collected id q h hmissing

theorem Tracked.erase (ht : Tracked r history) (messageId : Octets 16) :
    Tracked ⟨r.messages.erase messageId⟩ (Function.update history messageId []) where
  size := (HashMap.size_erase_le _ _).trans ht.size
  absent id h := by
    by_cases hid : id = messageId
    · rw [hid, Function.update_self]
    · rw [Function.update_of_ne hid]
      rw [AList.lookup_erase_ne hid] at h
      exact ht.absent id h
  sound id p h := ht.sound id p (HashMap.lookup_of_erase h)
  collected id p h hmissing := by
    have hid : id ≠ messageId := by
      rintro rfl
      rw [AList.lookup_erase] at h
      cases h
    rw [Function.update_of_ne hid]
    exact ht.collected id p (HashMap.lookup_of_erase h) hmissing

/-- A free slot is free because the entry is not full. -/
theorem PartialMessage.Fits.not_full (h : p.Fits f) (hp : p.Sound) (hvalid : f.Valid) : ¬ p.Full := by
  intro hfull
  have hnone := List.any_eq_false.mp hfull none (List.mem_of_getElem? (h.slot hp hvalid))
  exact hnone rfl

/-- **Every push keeps the bounds and the record.** -/
theorem Tracked.push (ht : Tracked r history) (f : Fragment) :
    Tracked (r.push f).1 (record history (f, (r.push f).2)) := by
  have hpushed := r.push_cases f
  generalize r.push f = out at hpushed ⊢
  cases hpushed with
  | ignored err h => exact ht
  | opened err hvalid hroom h =>
    obtain ⟨hsound, hcollected⟩ := ht.entry hvalid
    exact ht.store hroom hsound (fun _ _ => rfl) hcollected
  | taken hvalid hroom h hmissing =>
    obtain ⟨hsound, hcollected⟩ := ht.entry hvalid
    refine ht.store hroom (hsound.fill hvalid h) (fun id hid => Function.update_of_ne hid _ _) fun _ => ?_
    show PartialMessage.Collected _ (Function.update history f.messageId _ f.messageId)
    rw [Function.update_self]
    exact (hcollected (h.not_full hsound hvalid)).fill hsound hvalid h
  | stuck err hvalid hroom h hfull =>
    obtain ⟨hsound, _⟩ := ht.entry hvalid
    exact ht.store hroom (hsound.fill hvalid h) (fun _ _ => rfl) fun hmissing => absurd hfull hmissing
  | completed hvalid hroom h hfull htotal => exact ht.erase f.messageId

/-- What comes out is made of the fragments accepted for it. -/
theorem Tracked.returned (ht : Tracked r history) {message : Bytes}
    (hout : (r.push f).2 = .ok (some message)) :
    ∃ parts : List Fragment, parts.Perm (history f.messageId ++ [f]) ∧
      parts.map (fun g => g.index.toNat) = List.range f.count.toNat ∧
      (∀ g ∈ parts, g.count = f.count ∧ g.totalLen = f.totalLen) ∧
      message = (parts.map Fragment.bytes).flatten ∧ message.length = f.totalLen.toNat := by
  have hpushed := r.push_cases f
  generalize r.push f = out at hpushed hout
  cases hpushed with
  | ignored err h => cases hout
  | opened err hvalid hroom h => cases hout
  | taken hvalid hroom h hmissing => cases hout
  | stuck err hvalid hroom h hfull => cases hout
  | completed hvalid hroom h hfull htotal =>
    obtain ⟨hsound, hcollected⟩ := ht.entry hvalid
    have hsound' := hsound.fill hvalid h
    have hcollected' := (hcollected (h.not_full hsound hvalid)).fill hsound hvalid h
    obtain ⟨parts, hperm, hindices, hslots⟩ := hcollected'.parts hsound' hfull
    have hmessage : (((r.entry f).fill f).fragments.filterMap id).flatten =
        (parts.map Fragment.bytes).flatten := by
      rw [hslots, List.filterMap_map]
      exact congrArg List.flatten (congrFun (List.filterMap_eq_map (f := Fragment.bytes)) parts)
    obtain rfl : (((r.entry f).fill f).fragments.filterMap id).flatten = message :=
      Option.some.inj (Except.ok.inj hout)
    refine ⟨parts, hperm, ?_, fun g hg => ?_, hmessage, ?_⟩
    · rw [hindices]
      exact congrArg (fun n : UInt32 => List.range n.toNat) h.count
    · obtain ⟨hcount, htotal⟩ := hcollected'.declared g (hperm.mem_iff.mp hg)
      exact ⟨hcount.trans h.count, htotal.trans h.total⟩
    · rw [List.length_flatten, ← htotal, hsound'.received]
      rfl

theorem Tracked.run : ∀ (fs : List Fragment) {r : Reassembler} {history : Octets 16 → List Fragment},
    Tracked r history → Tracked (Mealy.after Reassembler.push r fs)
      ((Mealy.trace Reassembler.push r fs).foldl record history) := by
  intro fs
  induction fs with
  | nil => intro r history ht; exact ht
  | cons f fs ih => intro r history ht; exact ih (ht.push f)

end History

/-- The reassembler after pushes of the given fragments. -/
def reassemblerAfter (fs : List Fragment) : Reassembler := Mealy.after Reassembler.push .empty fs

/-- The fragments that were accepted for each message since it last came out. -/
def acceptedAfter (fs : List Fragment) : Octets 16 → List Fragment :=
  (Mealy.trace Reassembler.push .empty fs).foldl record fun _ => []

theorem tracked_after (fs : List Fragment) : Tracked (reassemblerAfter fs) (acceptedAfter fs) :=
  tracked_empty.run fs

/-- **Reassembly stays bounded under attack.**  After any fragments, refused ones included, there are at
most 16 messages; each has as many slots as it declares, between 1 and 1024, a counter that is the sum of
its filled slots and within the declared length, and a declared length within the limit.  A message that
comes out at the next push is, by index, the fragments accepted for its id since the id last came out,
and has the length all of them declared. -/
theorem reassembly_bounded (fs : List Fragment) :
    HashMap.size (reassemblerAfter fs).messages ≤ 16 ∧
    (∀ messageId p, (reassemblerAfter fs).messages.lookup messageId = some p →
      1 ≤ p.fragments.length ∧ p.fragments.length ≤ 1024 ∧ p.fragments.length = p.count.toNat ∧
      p.receivedBytes = ((p.fragments.filterMap id).map List.length).sum ∧
      p.receivedBytes ≤ p.totalLen.toNat ∧ p.totalLen.toNat ≤ maxMessageSize) ∧
    ∀ f message, ((reassemblerAfter fs).push f).2 = .ok (some message) →
      ∃ parts : List Fragment, parts.Perm (acceptedAfter fs f.messageId ++ [f]) ∧
        parts.map (fun g => g.index.toNat) = List.range f.count.toNat ∧
        (∀ g ∈ parts, g.count = f.count ∧ g.totalLen = f.totalLen) ∧
        message = (parts.map Fragment.bytes).flatten ∧ message.length = f.totalLen.toNat := by
  have ht := tracked_after fs
  refine ⟨ht.size, fun messageId p hp => ?_, fun f message => ht.returned⟩
  have hsound := ht.sound messageId p hp
  have hpos := hsound.count_pos
  have hle := hsound.count_le
  rw [← hsound.slots] at hpos hle
  exact ⟨hpos, hle, hsound.slots, hsound.received, hsound.within, hsound.total_le⟩

/-- The message id of the samples. -/
def sampleMessageId (n : UInt8) : Octets 16 := ⟨n :: List.replicate 15 0, rfl⟩

/-- A fragment that is too long opens its message; two that fit complete it, the second one first. -/
def lateFragments : List Fragment :=
  [⟨sampleMessageId 1, 0, 2, 3, [1, 2, 3, 4]⟩, ⟨sampleMessageId 1, 1, 2, 3, [9]⟩]

theorem lateFragments_complete :
    ((reassemblerAfter lateFragments).push ⟨sampleMessageId 1, 0, 2, 3, [7, 8]⟩).2 =
      .ok (some [7, 8, 9]) ∧
    ∃ parts : List Fragment, parts.Perm (acceptedAfter lateFragments (sampleMessageId 1) ++
        [⟨sampleMessageId 1, 0, 2, 3, [7, 8]⟩]) ∧
      [7, 8, 9] = (parts.map Fragment.bytes).flatten := by
  have hout : ((reassemblerAfter lateFragments).push ⟨sampleMessageId 1, 0, 2, 3, [7, 8]⟩).2 =
      .ok (some [7, 8, 9]) := by decide
  obtain ⟨parts, hperm, _, _, hmessage, _⟩ := (reassembly_bounded lateFragments).2.2 _ _ hout
  exact ⟨hout, parts, hperm, hmessage⟩

end Peerless.Onion
