import Peerless.Lib.HashMap
import Peerless.Onion.Fragment
import Mathlib.Algebra.Order.BigOperators.Group.List

/-!
# Reassembly

The receiver of a message collects its fragments in a table of partial messages.
-/

namespace Peerless.Onion

open Text Wire

/-! ### The reassembler -/

def maxInflightMessages : ℕ := 16

structure PartialMessage where
  count : UInt32
  totalLen : UInt32
  receivedBytes : ℕ
  fragments : List (Option Bytes)
  deriving DecidableEq

structure Reassembler where
  messages : HashMap.Map (Octets 16) PartialMessage

/-- `Reassembler::default`. -/
def Reassembler.empty : Reassembler := ⟨∅⟩

/-- The entry a fragment meets: a fresh one for a new message. -/
def Reassembler.entry (r : Reassembler) (f : Fragment) : PartialMessage :=
  (r.messages.lookup f.messageId).getD ⟨f.count, f.totalLen, 0, List.replicate f.count.toNat none⟩

def Reassembler.push (r : Reassembler) (f : Fragment) : Reassembler × Except OnionError (Option Bytes) :=
  match f.validate with
  | .error err => (r, .error err)
  | .ok () =>
    if (r.messages.lookup f.messageId).isNone ∧ HashMap.size r.messages ≥ maxInflightMessages then
      (r, .error .fragmentCapacity)
    else
      -- `or_insert_with`: from here on the entry is in the table
      let entry := r.entry f
      let opened : Reassembler := ⟨r.messages.insert f.messageId entry⟩
      if entry.count ≠ f.count ∨ entry.totalLen ≠ f.totalLen then (opened, .error .invalidEncoding)
      else if (entry.fragments.getD f.index.toNat none).isSome then (opened, .error .replay)
      else
        let receivedBytes := entry.receivedBytes + f.bytes.length
        if receivedBytes ≥ 2 ^ 64 then (opened, .error .payloadTooLarge)
        else if receivedBytes > entry.totalLen.toNat then (opened, .error .invalidEncoding)
        else
          let filled : PartialMessage :=
            { entry with receivedBytes
                         fragments := entry.fragments.set f.index.toNat (some f.bytes) }
          let stored : Reassembler := ⟨r.messages.insert f.messageId filled⟩
          if filled.fragments.any Option.isNone then (stored, .ok none)
          else if filled.receivedBytes ≠ filled.totalLen.toNat then (stored, .error .invalidEncoding)
          else (⟨r.messages.erase f.messageId⟩, .ok (some (filled.fragments.filterMap id).flatten))

/-- Fragments pushed one after another. -/
def Reassembler.pushAll (r : Reassembler) :
    List Fragment → Reassembler × List (Except OnionError (Option Bytes))
  | [] => (r, [])
  | f :: fs =>
    let pushed := r.push f
    let rest := pushed.1.pushAll fs
    (rest.1, pushed.2 :: rest.2)

/-! ### Fragments of one message -/

/-- The piece of a message at an index. -/
def piece (message : Bytes) (i : ℕ) : Bytes := chunkAt Fragment.maxBytes message i

/-- The partial message of which the fragments `seen` have arrived. -/
def partialOf (message : Bytes) (seen : List ℕ) : PartialMessage where
  count := UInt32.ofNat (fragmentCount message)
  totalLen := UInt32.ofNat message.length
  receivedBytes := (seen.map fun i => (piece message i).length).sum
  fragments := (List.range (fragmentCount message)).map fun i =>
    if i ∈ seen then some (piece message i) else none

/-- The table holds a message's fragments `seen`, and has room for it. -/
structure Holds (r : Reassembler) (messageId : Octets 16) (message : Bytes) (seen : List ℕ) : Prop where
  lookup : r.messages.lookup messageId = if seen = [] then none else some (partialOf message seen)
  room : seen = [] → HashMap.size r.messages < maxInflightMessages
  nodup : seen.Nodup
  below : ∀ i ∈ seen, i < fragmentCount message

variable {message : Bytes}

theorem sum_pieces (h : message.length ≤ maxMessageSize) :
    ((List.range (fragmentCount message)).map fun i => (piece message i).length).sum =
      message.length := by
  obtain ⟨_, _, hcover, _⟩ := fragmentCount_bounds h
  have hflat := congrArg List.length
    (flatten_chunkAt Fragment.maxBytes message (fragmentCount message))
  rw [List.length_flatten, List.map_map, List.take_of_length_le hcover] at hflat
  exact hflat

variable {seen : List ℕ}

/-- Distinct fragments have at most the length of the message between them. -/
theorem sum_seen_le (h : message.length ≤ maxMessageSize) (hnodup : seen.Nodup)
    (hbelow : ∀ i ∈ seen, i < fragmentCount message) :
    (seen.map fun i => (piece message i).length).sum ≤ message.length := by
  have hsub : seen.Subperm (List.range (fragmentCount message)) :=
    List.subperm_of_subset hnodup fun i hi => List.mem_range.mpr (hbelow i hi)
  obtain ⟨l, hperm, hsublist⟩ := hsub
  rw [← sum_pieces h, ← (hperm.map _).sum_eq]
  exact (hsublist.map _).sum_le_sum fun x _ => Nat.zero_le x

variable {r : Reassembler} {messageId : Octets 16}

theorem entry_fragmentAt (hsize : message.length ≤ maxMessageSize) (hr : Holds r messageId message seen)
    (i : ℕ) : r.entry (fragmentAt messageId message i) = partialOf message seen := by
  have hlookup : r.messages.lookup (fragmentAt messageId message i).messageId =
      if seen = [] then none else some (partialOf message seen) := hr.lookup
  rw [Reassembler.entry, hlookup]
  split
  · rename_i hnil
    subst hnil
    obtain ⟨_, hcount, _, _⟩ := fragmentCount_bounds hsize
    have hcountNat : (UInt32.ofNat (fragmentCount message)).toNat = fragmentCount message :=
      toNat_ofNat_uint32 (by omega)
    show PartialMessage.mk _ _ _ _ = PartialMessage.mk _ _ _ _
    simp only [fragmentAt, hcountNat, PartialMessage.mk.injEq, true_and]
    refine ⟨rfl, ?_⟩
    simp [List.map_const']
  · rfl

theorem partialOf_set (seen : List ℕ) (i : ℕ) :
    (partialOf message seen).fragments.set i (some (piece message i)) =
      (partialOf message (i :: seen)).fragments := by
  refine List.ext_getElem (by simp [partialOf]) fun j hj hj' => ?_
  rw [List.getElem_set]
  by_cases hij : i = j
  · subst hij
    simp [partialOf]
  · have hji : j ≠ i := fun h => hij h.symm
    simp [partialOf, hij, hji]

theorem partialOf_any_isNone (seen : List ℕ) :
    (partialOf message seen).fragments.any Option.isNone = true ↔
      ¬ ∀ j, j < fragmentCount message → j ∈ seen := by
  simp only [partialOf, List.any_eq_true, List.mem_map, List.mem_range, not_forall]
  constructor
  · rintro ⟨slot, ⟨j, hj, rfl⟩, hnone⟩
    refine ⟨j, hj, fun hmem => ?_⟩
    rw [if_pos hmem] at hnone
    cases hnone
  · rintro ⟨j, hj, hmem⟩
    exact ⟨none, ⟨j, hj, if_neg hmem⟩, rfl⟩

theorem partialOf_complete (h : message.length ≤ maxMessageSize)
    (hall : ∀ j, j < fragmentCount message → j ∈ seen) :
    ((partialOf message seen).fragments.filterMap id).flatten = message := by
  obtain ⟨_, _, hcover, _⟩ := fragmentCount_bounds h
  have hslots : (partialOf message seen).fragments =
      ((List.range (fragmentCount message)).map (chunkAt Fragment.maxBytes message)).map some := by
    rw [List.map_map]
    refine List.map_congr_left fun j hj => ?_
    exact if_pos (hall j (List.mem_range.mp hj))
  rw [hslots, List.filterMap_map]
  show (List.filterMap some _).flatten = message
  rw [List.filterMap_some, flatten_chunkAt, List.take_of_length_le hcover]

theorem sum_seen_complete (h : message.length ≤ maxMessageSize) (hnodup : seen.Nodup)
    (hbelow : ∀ i ∈ seen, i < fragmentCount message) (hall : ∀ j, j < fragmentCount message → j ∈ seen) :
    (seen.map fun i => (piece message i).length).sum = message.length := by
  have hperm : seen.Perm (List.range (fragmentCount message)) := by
    rw [List.perm_ext_iff_of_nodup hnodup List.nodup_range]
    exact fun i => ⟨fun hi => List.mem_range.mpr (hbelow i hi), fun hi => hall i (List.mem_range.mp hi)⟩
  rw [(hperm.map _).sum_eq, sum_pieces h]

/-- **A missing fragment is taken**, and the last missing one completes the message. -/
theorem push_fragmentAt (hsize : message.length ≤ maxMessageSize) (hr : Holds r messageId message seen)
    {i : ℕ} (hi : i < fragmentCount message) (hnew : i ∉ seen) :
    r.push (fragmentAt messageId message i) =
      if ∀ j, j < fragmentCount message → j ∈ i :: seen then
        (⟨r.messages.erase messageId⟩, .ok (some message))
      else (⟨r.messages.insert messageId (partialOf message (i :: seen))⟩, .ok none) := by
  obtain ⟨_, hcount, _, _⟩ := fragmentCount_bounds hsize
  have hnodup : (i :: seen).Nodup := List.nodup_cons.mpr ⟨hnew, hr.nodup⟩
  have hbelow : ∀ j ∈ i :: seen, j < fragmentCount message := by
    intro j hj
    rcases List.mem_cons.mp hj with rfl | hj
    · exact hi
    · exact hr.below j hj
  have hindex : (fragmentAt messageId message i).index.toNat = i := toNat_ofNat_uint32 (by omega)
  have htotal : (partialOf message seen).totalLen.toNat = message.length :=
    toNat_ofNat_uint32 (by simp only [maxMessageSize] at hsize; omega)
  have hcapacity : ¬ ((r.messages.lookup (fragmentAt messageId message i).messageId).isNone ∧
      HashMap.size r.messages ≥ maxInflightMessages) := by
    rw [show r.messages.lookup (fragmentAt messageId message i).messageId = _ from hr.lookup]
    rintro ⟨hnone, hfull⟩
    split at hnone
    · exact absurd (hr.room ‹_›) (not_lt.mpr hfull)
    · cases hnone
  have hslot : ¬ ((partialOf message seen).fragments.getD i none).isSome = true := by
    have hget : (partialOf message seen).fragments[i]? = some none := by
      simp [partialOf, hi, hnew]
    rw [List.getD_eq_getElem?_getD, hget]
    simp
  have hreceived : (partialOf message seen).receivedBytes + (piece message i).length =
      (partialOf message (i :: seen)).receivedBytes := by
    simp only [partialOf, List.map_cons, List.sum_cons]
    exact Nat.add_comm _ _
  have hid : (fragmentAt messageId message i).messageId = messageId := rfl
  have hbytes : (fragmentAt messageId message i).bytes = piece message i := rfl
  have hle : (partialOf message (i :: seen)).receivedBytes ≤ message.length :=
    sum_seen_le hsize hnodup hbelow
  unfold Reassembler.push
  rw [(Fragment.validate_ok_iff _).mpr (fragmentAt_valid messageId hsize hi)]
  simp only [entry_fragmentAt hsize hr, hid, hindex, hbytes, hreceived, htotal, partialOf_set]
  rw [if_neg hcapacity, if_neg (by simp [partialOf, fragmentAt]), if_neg hslot,
    if_neg (by simp only [maxMessageSize] at hsize; omega), if_neg (not_lt.mpr hle)]
  by_cases hall : ∀ j, j < fragmentCount message → j ∈ i :: seen
  · rw [if_neg (by rw [partialOf_any_isNone, not_not]; exact hall), if_pos hall,
      partialOf_complete hsize hall, if_neg]
    · rw [not_not]
      exact sum_seen_complete hsize hnodup hbelow hall
  · rw [if_pos (by rw [partialOf_any_isNone]; exact hall), if_neg hall]
    rfl

theorem Holds.push (hr : Holds r messageId message seen) {i : ℕ} (hi : i < fragmentCount message)
    (hnew : i ∉ seen) :
    Holds ⟨r.messages.insert messageId (partialOf message (i :: seen))⟩ messageId message
      (i :: seen) where
  lookup := by
    rw [if_neg (List.cons_ne_nil i seen)]
    exact AList.lookup_insert _
  room h := absurd h (List.cons_ne_nil i seen)
  nodup := List.nodup_cons.mpr ⟨hnew, hr.nodup⟩
  below j hj := by
    rcases List.mem_cons.mp hj with rfl | hj
    · exact hi
    · exact hr.below j hj

/-- **The remaining fragments in order complete the message.** -/
theorem pushAll_fragments (hsize : message.length ≤ maxMessageSize) :
    ∀ (k m : ℕ) (r : Reassembler) (seen : List ℕ), m + (k + 1) = fragmentCount message →
      (∀ j, j ∈ seen ↔ j < m) → Holds r messageId message seen →
      (r.pushAll ((List.range' m (k + 1)).map (fragmentAt messageId message))).2 =
        List.replicate k (.ok none) ++ [.ok (some message)] := by
  intro k
  induction k with
  | zero =>
    intro m r seen hm hseen hr
    have hnew : m ∉ seen := fun h => absurd ((hseen m).mp h) (by omega)
    have hall : ∀ j, j < fragmentCount message → j ∈ m :: seen := by
      intro j hj
      rw [List.mem_cons, hseen]
      omega
    show [(r.push (fragmentAt messageId message m)).2] = _
    rw [push_fragmentAt hsize hr (by omega) hnew, if_pos hall]
    rfl
  | succ k ih =>
    intro m r seen hm hseen hr
    have hnew : m ∉ seen := fun h => absurd ((hseen m).mp h) (by omega)
    have hmissing : ¬ ∀ j, j < fragmentCount message → j ∈ m :: seen := by
      intro hall
      have hmem := hall (m + 1) (by omega)
      rw [List.mem_cons, hseen] at hmem
      omega
    have hpush := push_fragmentAt hsize hr (by omega : m < fragmentCount message) hnew
    rw [if_neg hmissing] at hpush
    rw [List.range'_succ, List.map_cons, Reassembler.pushAll, hpush, List.replicate_succ,
      List.cons_append]
    refine congrArg (_ :: ·) ?_
    refine ih (m + 1) _ (m :: seen) (by omega) ?_ (hr.push (by omega) hnew)
    intro j
    rw [List.mem_cons, hseen]
    omega

end Peerless.Onion
