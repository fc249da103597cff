import Mathlib.Order.Lattice
import Mathlib.Order.Nat
import Mathlib.Tactic.Common

/-!
# Release and acquire with one writer

The memory of a program with one writer and any number of readers is the history of the stores to
each location. A store with release order carries the writer's knowledge of all its earlier stores,
a relaxed one carries none. A reader may load any message that is not older than what it knows of
the location; a load with acquire order adds the knowledge that the message carries.

Knowledge is a view: for each location, the position of the newest message that is known.

## Main definitions

* `Message`, `Memory` — a store, and the histories of all locations.
* `Memory.store` — a store of the writer.
* `viewAfter` — the view of a reader after a load.

## Main results

* `Memory.forall_store` — what holds of all messages and of a new one.
* `le_viewAfter`, `view_le_viewAfter` — a load forgets nothing, and an acquire load learns what the
  message carries.
-/

namespace ZprUtils

/-- The order of a store. -/
inductive StoreOrder where
  | relaxed
  | release
  deriving DecidableEq, Repr

/-- The order of a load. -/
inductive LoadOrder where
  | relaxed
  | acquire
  deriving DecidableEq, Repr

/-- A store: its value and the knowledge that it carries. -/
structure Message (ι β : Type) where
  val : β
  view : ι → Nat

/-- The history of each location, which starts with its initial value. -/
structure Memory (ι : Type) (V : ι → Type) where
  hist : (l : ι) → List (Message ι (V l))
  hist_ne_nil : ∀ l, hist l ≠ []

variable {ι : Type} {V : ι → Type}

namespace Memory

/-- The memory before the first store. -/
def init (v : (l : ι) → V l) : Memory ι V := ⟨fun l => [⟨v l, ⊥⟩], fun _ => by simp⟩

/-- The value of the newest message of a location. -/
def last (m : Memory ι V) (l : ι) : V l := ((m.hist l).getLast (m.hist_ne_nil l)).val

/-- The knowledge of the writer: all messages. -/
def now (m : Memory ι V) : ι → Nat := fun l => (m.hist l).length - 1

/-- What a new message carries. -/
def carried (m : Memory ι V) : StoreOrder → ι → Nat
  | .relaxed => ⊥
  | .release => m.now

variable [DecidableEq ι] {m : Memory ι V} {l l' : ι} {v : V l} {o : StoreOrder}

/-- A store of the writer. -/
def store (m : Memory ι V) (l : ι) (v : V l) (o : StoreOrder) : Memory ι V where
  hist := Function.update m.hist l (m.hist l ++ [⟨v, m.carried o⟩])
  hist_ne_nil l' := by
    by_cases hl : l' = l
    · subst hl
      simp
    · rw [Function.update_of_ne hl]
      exact m.hist_ne_nil l'

@[simp] theorem hist_store_self : (m.store l v o).hist l = m.hist l ++ [⟨v, m.carried o⟩] :=
  Function.update_self ..

theorem hist_store_of_ne (hl : l' ≠ l) : (m.store l v o).hist l' = m.hist l' :=
  Function.update_of_ne hl ..

@[simp] theorem last_store_self : (m.store l v o).last l = v := by
  simp [last]

theorem last_store_of_ne (hl : l' ≠ l) : (m.store l v o).last l' = m.last l' := by
  simp only [last, hist_store_of_ne hl]

/-- A message stays where it is. -/
theorem getElem?_store {t : Nat} {msg : Message ι (V l')} (h : (m.hist l')[t]? = some msg) :
    ((m.store l v o).hist l')[t]? = some msg := by
  by_cases hl : l' = l
  · subst hl
    rw [hist_store_self, List.getElem?_append_left (List.getElem?_eq_some_iff.mp h).1, h]
  · rwa [hist_store_of_ne hl]

/-- **What holds of all messages** after a store: it held of those before and holds of the new one.
A store adds its message at the end of the history of its location, and changes no other. -/
theorem forall_store {P : (l : ι) → Nat → Message ι (V l) → Prop}
    (hold : ∀ l t msg, (m.hist l)[t]? = some msg → P l t msg)
    (hnew : P l (m.hist l).length ⟨v, m.carried o⟩) (l' : ι) (t : Nat) (msg : Message ι (V l'))
    (h : ((m.store l v o).hist l')[t]? = some msg) : P l' t msg := by
  by_cases hl : l' = l
  · subst hl
    rw [hist_store_self, List.getElem?_append] at h
    split_ifs at h with ht
    · exact hold l' t msg h
    · obtain rfl : t = (m.hist l').length := by
        have hlt := (List.getElem?_eq_some_iff.mp h).1
        rw [List.length_singleton] at hlt
        omega
      rw [Nat.sub_self, List.getElem?_cons_zero, Option.some.injEq] at h
      exact h ▸ hnew
  · rw [hist_store_of_ne hl] at h
    exact hold l' t msg h

end Memory

/-! ### Loads -/

variable [DecidableEq ι]

/-- The view of a reader that has loaded message `t` of location `l`. -/
def viewAfter (view : ι → Nat) (l : ι) (t : Nat) (msg : ι → Nat) : LoadOrder → ι → Nat
  | .relaxed => Function.update view l t
  | .acquire => Function.update view l t ⊔ msg

variable {view msg : ι → Nat} {l : ι} {t : Nat}

/-- A load forgets nothing: the view of the reader after it is at least the one before. -/
theorem le_viewAfter (ht : view l ≤ t) (o : LoadOrder) : view ≤ viewAfter view l t msg o := by
  have hle : view ≤ Function.update view l t := le_update_iff.mpr ⟨ht, fun _ _ => le_rfl⟩
  cases o with
  | relaxed => exact hle
  | acquire => exact hle.trans le_sup_left

/-- **Message passing**: an acquire load learns what the message carries, besides what its thread
knew. -/
theorem view_le_viewAfter : msg ≤ viewAfter view l t msg .acquire := le_sup_right

end ZprUtils
