import Peerless.Lib.HashMap
import Mathlib.Data.Set.Insert

/-!
# Items, slots and deferred removals

A table of items and a table of values the items own, each value in the slot its owner's tag determines.
Several tags may share a slot, so a slot serves one item at a time.  Items and values are removed apart
from each other and some time after they were marked: `pending` holds the marked items, `claimed` the
tags whose value is in place before their item is.

* `Safe.collect`, `Safe.dropSlot`, `Safe.dropItem`, `Safe.claim`, `Safe.publish` — **the rules**: each
  update keeps this, a value being put in place only if no marked item shares its slot.
-/

namespace Slots

open HashMap

variable {κ δ β ι ν : Type*} [DecidableEq κ] [DecidableEq ι] {tag : δ → β} {slotOf : β → Option ι}
  {tagOf : ν → Option β}

/-- The two tables agree up to the marked items. -/
structure Safe (tag : δ → β) (slotOf : β → Option ι) (tagOf : ν → Option β) (items : Map κ δ)
    (slots : Map ι ν) (pending : Set (κ × β)) (claimed : Set β) : Prop where
  slot : ∀ k d, items.lookup k = some d → ∃ i, slotOf (tag d) = some i
  own : ∀ k d i, items.lookup k = some d → slotOf (tag d) = some i →
    (∃ v, slots.lookup i = some v ∧ tagOf v = some (tag d)) ∨ (k, tag d) ∈ pending
  apart : ∀ k l d e, items.lookup k = some d → items.lookup l = some e →
    slotOf (tag d) = slotOf (tag e) → k = l
  named : ∀ x ∈ pending, ∀ k d, items.lookup k = some d → slotOf (tag d) = slotOf x.2 →
    k = x.1 ∧ tag d = x.2
  held : ∀ b ∈ claimed, ∃ i v, slotOf b = some i ∧ slots.lookup i = some v ∧ tagOf v = some b
  fresh : ∀ b ∈ claimed, ∀ k d, items.lookup k = some d → slotOf (tag d) ≠ slotOf b
  unmarked : ∀ b ∈ claimed, ∀ x ∈ pending, slotOf x.2 ≠ slotOf b

variable {items : Map κ δ} {slots : Map ι ν} {pending pending' : Set (κ × β)} {claimed claimed' : Set β}

theorem safe_empty : Safe tag slotOf tagOf (∅ : Map κ δ) (∅ : Map ι ν) ∅ ∅ where
  slot := fun k d h => by cases h
  own := fun k d i h => by cases h
  apart := fun k l d e h => by cases h
  named := fun x h => by cases h
  held := fun b h => by cases h
  fresh := fun b h => by cases h
  unmarked := fun b h => by cases h

variable {k : κ} {d : δ}

/-- **An item that is not marked has its own value in its slot.** -/
theorem Safe.owned (h : Safe tag slotOf tagOf items slots pending claimed) (hd : items.lookup k = some d)
    (hmark : (k, tag d) ∉ pending) :
    ∃ i v, slotOf (tag d) = some i ∧ slots.lookup i = some v ∧ tagOf v = some (tag d) := by
  obtain ⟨i, hi⟩ := h.slot k d hd
  rcases h.own k d i hd hi with ⟨v, hv, htag⟩ | hpending
  · exact ⟨i, v, hi, hv, htag⟩
  · exact absurd hpending hmark

theorem Safe.abandon (h : Safe tag slotOf tagOf items slots pending claimed) (hle : claimed' ⊆ claimed) :
    Safe tag slotOf tagOf items slots pending claimed' where
  slot := h.slot
  own := h.own
  apart := h.apart
  named := h.named
  held := fun b hb => h.held b (hle hb)
  fresh := fun b hb => h.fresh b (hle hb)
  unmarked := fun b hb => h.unmarked b (hle hb)

theorem Safe.collect (h : Safe tag slotOf tagOf items slots pending claimed)
    (hle : pending ⊆ pending')
    (hnew : ∀ x ∈ pending', x ∈ pending ∨ ∃ d, items.lookup x.1 = some d ∧ tag d = x.2) :
    Safe tag slotOf tagOf items slots pending' claimed where
  slot := h.slot
  own := by
    intro k d i hd hi
    exact (h.own k d i hd hi).imp_right fun hmark => hle hmark
  apart := h.apart
  named := by
    intro x hx k d hd hslot
    rcases hnew x hx with hold | ⟨e, he, htag⟩
    · exact h.named x hold k d hd hslot
    · rw [← htag] at hslot
      obtain rfl := h.apart k x.1 d e hd he hslot
      obtain rfl := Option.some.inj (hd.symm.trans he)
      exact ⟨rfl, htag⟩
  held := h.held
  fresh := h.fresh
  unmarked := by
    intro b hb x hx
    rcases hnew x hx with hold | ⟨e, he, htag⟩
    · exact h.unmarked b hb x hold
    · rw [← htag]
      exact h.fresh b hb x.1 e he

variable {i : ι}

theorem Safe.dropSlot (h : Safe tag slotOf tagOf items slots pending claimed) {x : κ × β}
    (hx : x ∈ pending) (hi : slotOf x.2 = some i) :
    Safe tag slotOf tagOf items (slots.erase i) pending claimed where
  slot := h.slot
  own := by
    intro k d j hd hj
    by_cases hji : j = i
    · -- the only item of this slot is the marked one
      subst hji
      obtain ⟨rfl, htag⟩ := h.named x hx k d hd (hj.trans hi.symm)
      right
      rw [htag]
      exact hx
    · rw [AList.lookup_erase_ne hji]
      exact h.own k d j hd hj
  apart := h.apart
  named := h.named
  held := by
    intro b hb
    obtain ⟨j, v, hj, hv, htag⟩ := h.held b hb
    refine ⟨j, v, hj, ?_, htag⟩
    rw [AList.lookup_erase_ne, hv]
    rintro rfl
    exact h.unmarked b hb x hx (hi.trans hj.symm)
  fresh := h.fresh
  unmarked := h.unmarked

theorem Safe.dropItem (h : Safe tag slotOf tagOf items slots pending claimed) {x : κ × β}
    (hle : pending' ⊆ pending) (hrest : ∀ y ∈ pending, y ≠ x → y ∈ pending') :
    Safe tag slotOf tagOf (items.erase x.1) slots pending' claimed where
  slot := fun k d hd => h.slot k d (lookup_of_erase hd)
  own := by
    intro k d i hd hi
    refine (h.own k d i (lookup_of_erase hd) hi).imp_right fun hmark => hrest _ hmark ?_
    intro heq
    rw [← heq, AList.lookup_erase] at hd
    cases hd
  apart := fun k l d e hd he => h.apart k l d e (lookup_of_erase hd) (lookup_of_erase he)
  named := fun y hy k d hd => h.named y (hle hy) k d (lookup_of_erase hd)
  held := h.held
  fresh := fun b hb k d hd => h.fresh b hb k d (lookup_of_erase hd)
  unmarked := fun b hb y hy => h.unmarked b hb y (hle hy)

/-- A slot without a value serves no item, unless a marked one. -/
theorem Safe.vacant (h : Safe tag slotOf tagOf items slots pending claimed)
    (hfree : slots.lookup i = none) (hmark : ∀ x ∈ pending, slotOf x.2 ≠ some i)
    (hd : items.lookup k = some d) : slotOf (tag d) ≠ some i := by
  intro hi
  rcases h.own k d i hd hi with ⟨v, hv, _⟩ | hpending
  · rw [hfree] at hv
    cases hv
  · exact hmark _ hpending hi

/-- **Putting a value in place** before its item, in a slot that is free and that no marked item will
clear. -/
theorem Safe.claim (h : Safe tag slotOf tagOf items slots pending claimed) {b : β} {v : ν}
    (hi : slotOf b = some i) (htag : tagOf v = some b) (hfree : slots.lookup i = none)
    (hmark : ∀ x ∈ pending, slotOf x.2 ≠ some i) (hle : claimed' ⊆ insert b claimed) :
    Safe tag slotOf tagOf items (slots.insert i v) pending claimed' where
  slot := h.slot
  own := by
    intro k d j hd hj
    have hji : j ≠ i := fun heq => h.vacant hfree hmark hd (heq ▸ hj)
    rw [AList.lookup_insert_ne hji]
    exact h.own k d j hd hj
  apart := h.apart
  named := h.named
  held := by
    intro c hc
    rcases Set.mem_insert_iff.mp (hle hc) with rfl | hold
    · exact ⟨i, v, hi, AList.lookup_insert _, htag⟩
    · obtain ⟨j, w, hj, hw, hown⟩ := h.held c hold
      refine ⟨j, w, hj, ?_, hown⟩
      rw [AList.lookup_insert_ne, hw]
      rintro rfl
      rw [hfree] at hw
      cases hw
  fresh := by
    intro c hc k d hd
    rcases Set.mem_insert_iff.mp (hle hc) with rfl | hold
    · rw [hi]
      exact h.vacant hfree hmark hd
    · exact h.fresh c hold k d hd
  unmarked := by
    intro c hc x hx
    rcases Set.mem_insert_iff.mp (hle hc) with rfl | hold
    · rw [hi]
      exact hmark x hx
    · exact h.unmarked c hold x hx

/-- **Storing the item** of a value in place; the other claimed tags have other slots. -/
theorem Safe.publish (h : Safe tag slotOf tagOf items slots pending claimed) (hd : tag d ∈ claimed)
    (hle : claimed' ⊆ claimed) (hother : ∀ b ∈ claimed', slotOf (tag d) ≠ slotOf b) :
    Safe tag slotOf tagOf (items.insert k d) slots pending claimed' := by
  obtain ⟨i, v, hi, hv, htag⟩ := h.held _ hd
  have hlookup : ∀ l e, (items.insert k d).lookup l = some e →
      (l = k ∧ e = d) ∨ items.lookup l = some e := by
    intro l e he
    by_cases hl : l = k
    · rw [hl, AList.lookup_insert] at he
      exact Or.inl ⟨hl, (Option.some.inj he).symm⟩
    · rw [AList.lookup_insert_ne hl] at he
      exact Or.inr he
  refine ⟨?_, ?_, ?_, ?_, fun b hb => h.held b (hle hb), ?_, fun b hb => h.unmarked b (hle hb)⟩
  · intro l e he
    rcases hlookup l e he with ⟨_, rfl⟩ | hold
    · exact ⟨i, hi⟩
    · exact h.slot l e hold
  · intro l e j he hj
    rcases hlookup l e he with ⟨_, rfl⟩ | hold
    · obtain rfl := Option.some.inj (hi.symm.trans hj)
      exact Or.inl ⟨v, hv, htag⟩
    · exact h.own l e j hold hj
  · intro l m e f he hf hslot
    rcases hlookup l e he with ⟨rfl, rfl⟩ | hold
    · rcases hlookup m f hf with ⟨rfl, _⟩ | hold'
      · rfl
      · exact absurd hslot.symm (h.fresh _ hd m f hold')
    · rcases hlookup m f hf with ⟨rfl, rfl⟩ | hold'
      · exact absurd hslot (h.fresh _ hd l e hold)
      · exact h.apart l m e f hold hold' hslot
  · intro x hx l e he hslot
    rcases hlookup l e he with ⟨rfl, rfl⟩ | hold
    · exact absurd hslot.symm (h.unmarked _ hd x hx)
    · exact h.named x hx l e hold hslot
  · intro b hb l e he
    rcases hlookup l e he with ⟨_, rfl⟩ | hold
    · exact hother b hb
    · exact h.fresh b (hle hb) l e hold

end Slots
