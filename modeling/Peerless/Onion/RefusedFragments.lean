import Peerless.Lib.Runs
import Peerless.Onion.HostileFragments

/-!
# Refused fragments

An error of `push` should mean that the fragment was turned away.  A fragment of a new message, though,
has its message entered into the table before it is found not to fit, and the fragment that fills the
last slot is stored before the length of the whole is checked.

* `refused_unchanged_iff` — which refusals leave the table as it was, after any fragments.
-/

namespace Peerless.Onion

open Text Wire

/-- Two tables with the same messages, slots and counters. -/
def SameMessages (r r' : Reassembler) : Prop :=
  ∀ messageId, r'.messages.lookup messageId = r.messages.lookup messageId

/-- The fragments a refusal of which leaves nothing behind: those `validate` rejects, those of a new
message when the table is full, and those of a message in the table that do not fit into it. -/
def Reassembler.Harmless (r : Reassembler) (f : Fragment) : Prop :=
  ¬ f.Valid ∨ (r.messages.lookup f.messageId = none ∧ maxInflightMessages ≤ HashMap.size r.messages) ∨
    ∃ p, r.messages.lookup f.messageId = some p ∧ ¬ p.Fits f

variable {r : Reassembler} {f : Fragment}

theorem Reassembler.harmless_iff (hvalid : f.Valid) (hroom : r.Room f) :
    r.Harmless f ↔ ∃ p, r.messages.lookup f.messageId = some p ∧ ¬ p.Fits f := by
  constructor
  · rintro (hinvalid | ⟨hnone, hfull⟩ | hp)
    · exact absurd hvalid hinvalid
    · exact absurd (hroom (by rw [hnone]; rfl)) (not_lt.mpr hfull)
    · exact hp
  · exact fun hp => Or.inr (Or.inr hp)

/-- A stored entry that is not the one before it shows. -/
theorem sameMessages_store_iff {p : PartialMessage} :
    SameMessages r (r.store f p) ↔ r.messages.lookup f.messageId = some p := by
  constructor
  · intro h
    have hown := h f.messageId
    rw [Reassembler.store, AList.lookup_insert] at hown
    exact hown.symm
  · intro h messageId
    by_cases hid : messageId = f.messageId
    · rw [hid, Reassembler.store, AList.lookup_insert, h]
    · rw [Reassembler.store, AList.lookup_insert_ne hid]

theorem PartialMessage.Fits.fill_ne {p : PartialMessage} (h : p.Fits f) (hp : p.Sound) (hvalid : f.Valid) :
    p.fill f ≠ p := by
  intro heq
  have hslot := congrArg (fun q : PartialMessage => q.fragments[f.index.toNat]?) heq
  have hset : (p.fill f).fragments[f.index.toNat]? = some (some f.bytes) := by
    show (p.fragments.set f.index.toNat (some f.bytes))[f.index.toNat]? = _
    rw [List.getElem?_set_self', h.slot hp hvalid]
    rfl
  rw [hset, h.slot hp hvalid] at hslot
  cases hslot

/-- **Which refused fragments leave the table alone.** -/
theorem Tracked.refused_iff {history : Octets 16 → List Fragment} (ht : Tracked r history)
    {err : OnionError} (hrefused : (r.push f).2 = .error err) :
    SameMessages r (r.push f).1 ↔ r.Harmless f := by
  have hpushed := r.push_cases f
  generalize r.push f = out at hpushed hrefused ⊢
  cases hpushed with
  | ignored err h =>
    refine ⟨fun _ => ?_, fun _ _ => rfl⟩
    by_cases hvalid : f.Valid
    · have hfull : ¬ r.Room f := fun hroom => h ⟨hvalid, hroom⟩
      obtain ⟨hnone, hsize⟩ := Classical.not_imp.mp hfull
      exact Or.inr (Or.inl ⟨Option.isNone_iff_eq_none.mp hnone, not_lt.mp hsize⟩)
    · exact Or.inl hvalid
  | opened err hvalid hroom h =>
    rw [sameMessages_store_iff, Reassembler.harmless_iff hvalid hroom]
    constructor
    · exact fun hlookup => ⟨_, hlookup, h⟩
    · rintro ⟨p, hlookup, _⟩
      rw [hlookup, Reassembler.entry_of_lookup hlookup]
  | stuck err hvalid hroom h hfull =>
    rw [sameMessages_store_iff, Reassembler.harmless_iff hvalid hroom]
    have hsound := (ht.entry hvalid).1
    constructor
    · intro hlookup
      exact absurd (Reassembler.entry_of_lookup hlookup).symm (h.fill_ne hsound hvalid)
    · rintro ⟨p, hlookup, hp⟩
      rw [Reassembler.entry_of_lookup hlookup] at h
      exact absurd h hp
  | taken hvalid hroom h hmissing => cases hrefused
  | completed hvalid hroom h hfull htotal => cases hrefused

theorem Tracked.refused_run : ∀ (gs : List Fragment) {r : Reassembler}
    {history : Octets 16 → List Fragment}, Tracked r history →
    Runs.Meets (fun r f => some (r.push f).1)
      (fun r f => (∃ err, (r.push f).2 = .error err) ∧ r.Harmless f) r gs →
    SameMessages r (Mealy.after Reassembler.push r gs) := by
  intro gs
  induction gs with
  | nil => intro r history _ _ messageId; rfl
  | cons g gs ih =>
    intro r history ht hmeets messageId
    obtain ⟨⟨⟨err, herr⟩, hharmless⟩, hrest⟩ := hmeets
    have hfirst := (ht.refused_iff herr).mpr hharmless
    exact (ih (ht.push g) (hrest _ rfl) messageId).trans (hfirst messageId)

/-- **Refused fragments.**  After any fragments, a refused one leaves messages, slots and counters as they
were exactly if it is invalid, or of a new message that finds no place, or does not fit into a message of
the table; and then so does any number of them. -/
theorem refused_unchanged_iff (fs : List Fragment) :
    (∀ f err, ((reassemblerAfter fs).push f).2 = .error err →
      (SameMessages (reassemblerAfter fs) ((reassemblerAfter fs).push f).1 ↔
        (reassemblerAfter fs).Harmless f)) ∧
    ∀ gs : List Fragment,
      Runs.Meets (fun r f => some (r.push f).1)
        (fun r f => (∃ err, (r.push f).2 = .error err) ∧ r.Harmless f) (reassemblerAfter fs) gs →
      SameMessages (reassemblerAfter fs) (Mealy.after Reassembler.push (reassemblerAfter fs) gs) := by
  have ht := tracked_after fs
  exact ⟨fun f err => ht.refused_iff, fun gs => ht.refused_run gs⟩

/-- A fragment that comes twice is refused the second time and changes nothing. -/
theorem repeated_fragment_harmless :
    ((reassemblerAfter [⟨sampleMessageId 1, 0, 2, 3, [7, 8]⟩]).push
      ⟨sampleMessageId 1, 0, 2, 3, [7, 8]⟩).2 = .error .replay ∧
    SameMessages (reassemblerAfter [⟨sampleMessageId 1, 0, 2, 3, [7, 8]⟩])
      ((reassemblerAfter [⟨sampleMessageId 1, 0, 2, 3, [7, 8]⟩]).push
        ⟨sampleMessageId 1, 0, 2, 3, [7, 8]⟩).1 := by
  have hrefused : ((reassemblerAfter [⟨sampleMessageId 1, 0, 2, 3, [7, 8]⟩]).push
      ⟨sampleMessageId 1, 0, 2, 3, [7, 8]⟩).2 = .error .replay := by decide
  refine ⟨hrefused, ((refused_unchanged_iff _).1 _ _ hrefused).mpr (Or.inr (Or.inr ?_))⟩
  refine ⟨⟨2, 3, 2, [some [7, 8], none]⟩, by decide, fun hfits => ?_⟩
  have hfree := hfits.free
  revert hfree
  decide

/-- One fragment of two bytes for a message of one, for each of sixteen ids. -/
def overlongFragments : List Fragment :=
  (List.range 16).map fun n => ⟨sampleMessageId (UInt8.ofNat n), 0, 1, 1, [0, 0]⟩

/-- All sixteen are refused, but each leaves its message in the table; the next message, which a fresh
reassembler returns at once, finds no place. -/
theorem refused_fragments_fill_table :
    (∀ entry ∈ Mealy.trace Reassembler.push .empty overlongFragments,
      entry.2 = .error .invalidEncoding) ∧
    HashMap.size (reassemblerAfter overlongFragments).messages = 16 ∧
    ¬ SameMessages .empty (reassemblerAfter overlongFragments) ∧
    ((reassemblerAfter overlongFragments).push ⟨sampleMessageId 16, 0, 1, 1, [7]⟩).2 =
      .error .fragmentCapacity ∧
    (Reassembler.empty.push ⟨sampleMessageId 16, 0, 1, 1, [7]⟩).2 = .ok (some [7]) := by
  refine ⟨by decide, by decide, fun hsame => ?_, by decide, by decide⟩
  have hkept := hsame (sampleMessageId 0)
  revert hkept
  decide

end Peerless.Onion
