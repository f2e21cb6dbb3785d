import Mathlib.Data.List.Induction

/-!
# Hash-linked lists

Blocks that name the hash of the block before them; the first one names none.

* `eq_of_tip` — linked lists with one tip are equal, whatever their lengths, unless two
  different blocks of them have one hash.
-/

namespace HashChain

variable {β δ : Type*}

def tip (hash : β → δ) (l : List β) : Option δ := l.getLast?.map hash

inductive Linked (hash : β → δ) (prev : β → Option δ) : List β → Prop
  | nil : Linked hash prev []
  | concat {l : List β} {b : β} : Linked hash prev l → prev b = tip hash l →
      Linked hash prev (l ++ [b])

variable {hash : β → δ} {prev : β → Option δ}

@[simp] theorem tip_nil : tip hash [] = none := rfl

@[simp] theorem tip_concat (l : List β) (b : β) : tip hash (l ++ [b]) = some (hash b) := by
  rw [tip, List.getLast?_concat]
  rfl

theorem Linked.of_concat {l : List β} {b : β} (h : Linked hash prev (l ++ [b])) :
    Linked hash prev l ∧ prev b = tip hash l := by
  generalize hm : l ++ [b] = m at h
  cases h with
  | nil => exact absurd hm (by simp)
  | @concat l' b' hl' hprev =>
    obtain ⟨rfl, hb⟩ := List.append_inj' hm rfl
    obtain rfl := List.singleton_inj.mp hb
    exact ⟨hl', hprev⟩

theorem eq_of_tip : ∀ l m : List β, Linked hash prev l → Linked hash prev m →
    (∀ a ∈ l, ∀ b ∈ m, hash a = hash b → a = b) → tip hash l = tip hash m → l = m := by
  -- backwards along both lists: equal last blocks name one tip for the rest
  intro l
  induction l using List.reverseRecOn with
  | nil =>
    intro m _ _ _ htip
    induction m using List.reverseRecOn with
    | nil => rfl
    | append_singleton m b _ =>
      rw [tip_concat, tip_nil] at htip
      cases htip
  | append_singleton l a ih =>
    intro m hl hm hinj htip
    induction m using List.reverseRecOn with
    | nil =>
      rw [tip_concat, tip_nil] at htip
      cases htip
    | append_singleton m b _ =>
      rw [tip_concat, tip_concat] at htip
      have hab : a = b := hinj a (by simp) b (by simp) (Option.some.inj htip)
      obtain ⟨hl, hprevl⟩ := hl.of_concat
      obtain ⟨hm, hprevm⟩ := hm.of_concat
      have hrest : tip hash l = tip hash m := by
        rw [← hprevl, ← hprevm, hab]
      rw [ih m hl hm (fun x hx y hy => hinj x (List.mem_append_left _ hx) y
        (List.mem_append_left _ hy)) hrest, hab]

end HashChain
