import Mathlib.Data.List.Basic
import Mathlib.Tactic.Common

/-!
# Tables of handles

A table of handles numbers its handles by creation: a new handle goes to the end, and a dropped
handle leaves a hole, so that a number is never used twice. `countHandles` counts the handles with
a property, such as those that refer to one object.

## Main definitions

* `HandleAt` — handle `k` of the table is alive.
* `countHandles` — the number of handles with a property.

## Main results

* `countHandles_append`, `countHandles_drop`, `countHandles_replace`.
-/

namespace ZprUtils

variable {β : Type*}

/-- A list split at one of its elements, and the effect of replacing it. -/
theorem exists_split_of_getElem? {l : List β} {k : Nat} {b : β} (h : l[k]? = some b) :
    ∃ l₁ l₂, l = l₁ ++ b :: l₂ ∧ l₁.length = k ∧ ∀ b', l.set k b' = l₁ ++ b' :: l₂ := by
  obtain ⟨hk, rfl⟩ := List.getElem?_eq_some_iff.mp h
  refine ⟨l.take k, l.drop (k + 1), ?_, ?_, fun b' => List.set_eq_take_append_cons_drop.trans ?_⟩
  · rw [List.getElem_cons_drop, List.take_append_drop]
  · rw [List.length_take, Nat.min_eq_left (Nat.le_of_lt hk)]
  · rw [if_pos hk]

theorem modify_eq_set_of_getElem? {l : List β} {k : Nat} {b : β} (h : l[k]? = some b)
    (f : β → β) : l.modify k f = l.set k (f b) := by
  refine List.ext_getElem? fun j => ?_
  rw [List.getElem?_modify, List.getElem?_set]
  by_cases hj : k = j
  · subst hj
    obtain ⟨hk, rfl⟩ := List.getElem?_eq_some_iff.mp h
    simp [hk]
  · simp [hj]

theorem set_self_of_getElem? {l : List β} {k : Nat} {b : β} (h : l[k]? = some b) :
    l.set k b = l := by
  obtain ⟨l₁, l₂, hl, -, hset⟩ := exists_split_of_getElem? h
  rw [hset, hl]

/-- Handle `k` of the table is alive, and is `b`. -/
def HandleAt (l : List (Option β)) (k : Nat) (b : β) : Prop := l[k]? = some (some b)

/-- The number of handles with the property `p`. -/
def countHandles (p : β → Bool) (l : List (Option β)) : Nat := l.countP fun o => o.any p

section

variable {l : List (Option β)} {k : Nat} {b : β} {p : β → Bool}

theorem handleAt_iff_join : HandleAt l k b ↔ l[k]?.join = some b := by
  rw [HandleAt, Option.join_eq_some_iff]

theorem HandleAt.mem (h : HandleAt l k b) : some b ∈ l := List.mem_of_getElem? h

theorem exists_handleAt (h : some b ∈ l) : ∃ k, HandleAt l k b := List.getElem?_of_mem h

theorem HandleAt.inj {b' : β} (h : HandleAt l k b) (h' : HandleAt l k b') : b = b' := by
  simpa using h.symm.trans h'

theorem HandleAt.append {k' : Nat} {o : Option β} (h : HandleAt l k' b) :
    HandleAt (l ++ [o]) k' b := by
  rw [HandleAt, List.getElem?_append_left (List.getElem?_eq_some_iff.mp h).1]
  exact h

theorem handleAt_append {b' : β} : HandleAt (l ++ [some b']) k b ↔
    HandleAt l k b ∨ k = l.length ∧ b = b' := by
  rcases Nat.lt_trichotomy k l.length with hk | rfl | hk
  · simp [HandleAt, List.getElem?_append_left hk, Nat.ne_of_lt hk]
  · simp [HandleAt, eq_comm]
  · have hlong : (l ++ [some b']).length ≤ k := by
      rw [List.length_append, List.length_singleton]
      exact hk
    simp [HandleAt, List.getElem?_eq_none hlong, Nat.ne_of_gt hk,
      List.getElem?_eq_none (Nat.le_of_lt hk)]

theorem handleAt_set {k' : Nat} {o : Option β} : HandleAt (l.set k o) k' b ↔
    (k' ≠ k ∧ HandleAt l k' b) ∨ k' = k ∧ k < l.length ∧ o = some b := by
  rw [HandleAt, List.getElem?_set]
  by_cases hk : k = k'
  · subst hk
    by_cases hlt : k < l.length <;> simp [hlt]
  · simp [hk, Ne.symm hk, HandleAt]

/-- A handle that survives a drop was there before. The numbers of the others do not move, because a
dropped handle leaves a hole. -/
theorem HandleAt.of_drop {k' : Nat} (h : HandleAt (l.set k none) k' b) :
    k' ≠ k ∧ HandleAt l k' b := by
  rcases handleAt_set.mp h with h | ⟨-, -, h⟩
  · exact h
  · exact absurd h (by simp)

theorem countHandles_append {o : Option β} :
    countHandles p (l ++ [o]) = countHandles p l + (o.any p).toNat := by
  rw [countHandles, List.countP_append, List.countP_singleton]
  cases o.any p <;> rfl

/-- Replacing a handle by a hole or by another handle, as an equation between counts: what is put in
is added on one side, what is taken out on the other. -/
theorem countHandles_set {o : Option β} (h : HandleAt l k b) :
    countHandles p (l.set k o) + (p b).toNat = countHandles p l + (o.any p).toNat := by
  obtain ⟨l₁, l₂, hl, -, hset⟩ := exists_split_of_getElem? h
  rw [hset, hl]
  simp only [countHandles, List.countP_append, List.countP_cons, Option.any_some]
  by_cases hb : p b = true <;> by_cases ho : o.any p = true <;> simp [hb, ho] <;> omega

theorem countHandles_drop (h : HandleAt l k b) :
    countHandles p (l.set k none) + (p b).toNat = countHandles p l :=
  countHandles_set h

theorem countHandles_replace {b' : β} (h : HandleAt l k b) (hp : p b' = p b) :
    countHandles p (l.set k (some b')) = countHandles p l := by
  have hset := countHandles_set (o := some b') (p := p) h
  rw [Option.any_some, hp] at hset
  omega

theorem countHandles_pos (h : HandleAt l k b) (hp : p b = true) : 0 < countHandles p l :=
  List.countP_pos_iff.mpr ⟨some b, h.mem, hp⟩

theorem exists_handleAt_of_countHandles (h : 0 < countHandles p l) :
    ∃ k b, HandleAt l k b ∧ p b = true := by
  obtain ⟨o, ho, hp⟩ := List.countP_pos_iff.mp h
  cases o with
  | none => simp at hp
  | some b =>
    obtain ⟨k, hk⟩ := exists_handleAt ho
    exact ⟨k, b, hk, hp⟩

end

end ZprUtils
