import Mathlib.Data.List.Range
import Mathlib.Tactic.Common

/-!
# Linked segments

A segment of an intrusive linked list, given by its link relation: `LinkedTo R stop a l` says that
the links lead from `a` through the nodes `l` to `stop`. Nothing is said about how the links are
stored, so a pointer, an index or a relative offset are all instances.

## Main results

* `LinkedTo.frame` — a segment survives any change of the links outside of its nodes.
-/

namespace ZprUtils

variable {α : Type*} {R R' : α → α → Prop} {stop : α}

/-- The links `R` lead from `a` through the nodes `l`, in order, to `stop`. -/
inductive LinkedTo (R : α → α → Prop) (stop : α) : α → List α → Prop
  | nil : LinkedTo R stop stop []
  | cons {a b : α} {l : List α} (hab : R a b) (hl : LinkedTo R stop b l) :
      LinkedTo R stop a (a :: l)

namespace LinkedTo

/-- A segment survives any change of the links outside of its nodes. This is the frame rule of a
list in a table: the nodes are the list itself. -/
theorem frame {a : α} {l : List α} (h : LinkedTo R stop a l)
    (hR : ∀ x ∈ l, ∀ y, R x y → R' x y) : LinkedTo R' stop a l := by
  induction h with
  | nil => exact .nil
  | @cons a b l hab hl ih =>
    exact .cons (hR a List.mem_cons_self b hab) (ih fun x hx => hR x (List.mem_cons_of_mem a hx))

theorem eq_stop {a : α} (h : LinkedTo R stop a []) : a = stop := by
  cases h with
  | nil => rfl

theorem cons_inv {a x : α} {l : List α} (h : LinkedTo R stop a (x :: l)) :
    a = x ∧ ∃ b, R x b ∧ LinkedTo R stop b l := by
  cases h with
  | cons hab hl => exact ⟨rfl, _, hab, hl⟩

theorem eq_stop_or_mem {a : α} {l : List α} (h : LinkedTo R stop a l) : a = stop ∨ a ∈ l := by
  cases h with
  | nil => exact Or.inl rfl
  | cons hab hl => exact Or.inr List.mem_cons_self

end LinkedTo

/-- Links to the neighbour lead through a range. -/
theorem linkedTo_range' {R : Nat → Nat → Prop} (a k : Nat)
    (hR : ∀ i, a ≤ i → i < a + k → R i (i + 1)) :
    LinkedTo R (a + k) a (List.range' a k) := by
  induction k generalizing a with
  | zero => exact .nil
  | succ k ih =>
    rw [List.range'_succ]
    refine .cons (hR a le_rfl (by omega)) ?_
    have htail := ih (a + 1) fun i hi hik => hR i (by omega) (by omega)
    rwa [show a + 1 + k = a + (k + 1) by omega] at htail

end ZprUtils
