import ZprUtils.Cslab.Slab
import ZprUtils.Foundations.LinkedSegment
import Mathlib.Data.Finset.Card
import Mathlib.Data.Finset.Range

/-!
# The representation invariant of the slab

Every slot of a slab is free, live or pending (`Slot`). The invariant `Cslab.Inv s free` says that
the offsets stored in the free entries lead from `firstFree` through the list `free` to the
capacity, that `free` has exactly the free slots without repetition, and ties the counters, the
bitmap and the frontier to the slots. Each operation has one lemma that says what it returns, that
it keeps the invariant, and which slot it changes.

## Main definitions

* `Slot`, `Cslab.slot` — the state of a slot.
* `Cslab.Link` — the links of the free list.
* `Cslab.Inv` — the representation invariant.

## Main results

* `Cslab.inv_withFixedCapacity`, `Cslab.Inv.insert_nil`, `Cslab.Inv.insert_cons`,
  `Cslab.Inv.markRemoved_eq_ok`, `Cslab.Inv.finalizeRemove_eq_ok`.
-/

namespace ZprUtils

variable {α : Type}

/-- The state of a slot: free, holding a visible item, or holding an item whose removal has been
marked and not finalized. -/
inductive Slot (α : Type) where
  | free
  | live (x : α)
  | pending (x : α)
  deriving DecidableEq, Repr

namespace Slot

/-- The item of a live slot. -/
def liveItem : Slot α → Option α
  | live x => some x
  | _ => none

/-- The item of a pending slot. -/
def pendingItem : Slot α → Option α
  | pending x => some x
  | _ => none

/-- The item stored in a slot that is not free. -/
def item : Slot α → Option α
  | free => none
  | live x => some x
  | pending x => some x

theorem eq_free_iff {e : Slot α} : e = free ↔ e.liveItem = none ∧ e.pendingItem = none := by
  cases e <;> simp [liveItem, pendingItem]

theorem liveItem_eq_some {e : Slot α} {x : α} : e.liveItem = some x ↔ e = live x := by
  cases e <;> simp [liveItem]

theorem isSome_item {e : Slot α} : e.item.isSome ↔ e.liveItem.isSome ∨ e.pendingItem.isSome := by
  cases e <;> simp [item, liveItem, pendingItem]

end Slot

namespace Cslab

/-- The state of slot `i`, read off the table and the bitmap. -/
def slot (s : Cslab α) (i : Nat) : Slot α :=
  match s.storage.table[i]? with
  | some (.item x) => if s.storage.bit i then .live x else .pending x
  | _ => .free

/-- The free list links: the entry of `i` is free and its offset leads to `j`. -/
def Link (s : Cslab α) (i j : Nat) : Prop :=
  ∃ offset, s.storage.table[i]? = some (.nextFree offset) ∧ (i : Int) + 1 + offset = j

/-- The slots marked in the bitmap. -/
def liveSet (s : Cslab α) : Finset Nat :=
  (Finset.range s.storage.size).filter fun i => s.storage.bit i

/-- The slots that hold an item whose removal is marked. -/
def pendingSet (s : Cslab α) : Finset Nat :=
  (Finset.range s.storage.size).filter fun i => (s.slot i).pendingItem.isSome

/-- **The representation invariant.** -/
structure Inv (s : Cslab α) (free : List Nat) : Prop where
  size_pos : 0 < s.storage.size
  size_le : 8 * s.storage.size ≤ isizeMax
  table_length : s.storage.table.length = s.storage.size
  bitmap_length : s.storage.bitmap.length = bitmapLen s.storage.size
  linked : LinkedTo s.Link s.storage.size s.firstFree free
  nodup : free.Nodup
  mem_free : ∀ i, i ∈ free ↔ ∃ offset, s.storage.table[i]? = some (.nextFree offset)
  item_of_bit : ∀ i, s.storage.bit i = true → ∃ x, s.storage.table[i]? = some (.item x)
  inUse_eq : s.inUse = s.liveSet.card
  allocated_add : s.allocated + free.length = s.storage.size
  frontier_le : s.storage.frontier ≤ s.storage.size
  lt_frontier : ∀ i x, s.storage.table[i]? = some (.item x) → i < s.storage.frontier

theorem slot_eq_live {s : Cslab α} {i : Nat} {x : α} :
    s.slot i = .live x ↔ s.storage.table[i]? = some (.item x) ∧ s.storage.bit i = true := by
  simp only [slot]
  split
  · split_ifs <;> simp_all
  · simp_all

theorem slot_eq_pending {s : Cslab α} {i : Nat} {x : α} :
    s.slot i = .pending x ↔ s.storage.table[i]? = some (.item x) ∧ s.storage.bit i = false := by
  simp only [slot]
  split
  · split_ifs <;> simp_all
  · simp_all

theorem item_slot {s : Cslab α} {i : Nat} {x : α} :
    (s.slot i).item = some x ↔ s.storage.table[i]? = some (.item x) := by
  simp only [slot]
  split
  · split_ifs <;> simp_all [Slot.item]
  · simp_all [Slot.item]

namespace Inv

variable {s : Cslab α} {free : List Nat} (h : s.Inv free)
include h

theorem lt_size_of_getElem? {i : Nat} {e : Entry α} (he : s.storage.table[i]? = some e) :
    i < s.storage.size :=
  h.table_length ▸ (List.getElem?_eq_some_iff.mp he).1

theorem lt_size_of_mem_free {i : Nat} (hi : i ∈ free) : i < s.storage.size := by
  obtain ⟨offset, ho⟩ := (h.mem_free i).mp hi
  exact h.lt_size_of_getElem? ho

theorem lt_size_of_bit {i : Nat} (hi : s.storage.bit i = true) : i < s.storage.size := by
  obtain ⟨x, hx⟩ := h.item_of_bit i hi
  exact h.lt_size_of_getElem? hx

theorem mem_liveSet {i : Nat} : i ∈ s.liveSet ↔ s.storage.bit i = true := by
  simp only [liveSet, Finset.mem_filter, Finset.mem_range, and_iff_right_iff_imp]
  exact h.lt_size_of_bit

theorem exists_getElem? {i : Nat} (hi : i < s.storage.size) :
    ∃ e, s.storage.table[i]? = some e :=
  ⟨_, List.getElem?_eq_getElem (h.table_length ▸ hi)⟩

/-- The list `free` has the free slots below the capacity. -/
theorem mem_free_iff_slot {i : Nat} (hi : i < s.storage.size) : i ∈ free ↔ s.slot i = .free := by
  obtain ⟨e, he⟩ := h.exists_getElem? hi
  rw [h.mem_free]
  cases e with
  | nextFree offset => simp [slot, he]
  | item x =>
    simp only [slot, he, Option.some.injEq, reduceCtorEq, exists_false, false_iff]
    split_ifs <;> simp

theorem mem_free_iff {i : Nat} : i ∈ free ↔ i < s.storage.size ∧ s.slot i = .free := by
  constructor
  · intro hi
    have hlt := h.lt_size_of_mem_free hi
    exact ⟨hlt, (h.mem_free_iff_slot hlt).mp hi⟩
  · rintro ⟨hlt, hslot⟩
    exact (h.mem_free_iff_slot hlt).mpr hslot

theorem lt_frontier_of_item {i : Nat} (hi : (s.slot i).item.isSome) : i < s.storage.frontier := by
  obtain ⟨x, hx⟩ := Option.isSome_iff_exists.mp hi
  exact h.lt_frontier i x (item_slot.mp hx)

theorem slot_of_size_le {i : Nat} (hi : s.storage.size ≤ i) : s.slot i = .free := by
  have hnone : s.storage.table[i]? = none := List.getElem?_eq_none (h.table_length ▸ hi)
  simp only [slot, hnone]

theorem bit_eq_isSome (i : Nat) : s.storage.bit i = (s.slot i).liveItem.isSome := by
  cases hb : s.storage.bit i with
  | true =>
    obtain ⟨x, hx⟩ := h.item_of_bit i hb
    rw [slot_eq_live.mpr ⟨hx, hb⟩]
    rfl
  | false =>
    simp only [slot]
    split
    · rw [if_neg (by simp [hb])]
      rfl
    · rfl

theorem liveSet_eq : s.liveSet =
    (Finset.range s.storage.size).filter fun i => (s.slot i).liveItem.isSome := by
  ext i
  simp only [liveSet, Finset.mem_filter, h.bit_eq_isSome]

theorem mem_pendingSet {i : Nat} : i ∈ s.pendingSet ↔ ∃ x, s.slot i = .pending x := by
  simp only [pendingSet, Finset.mem_filter, Finset.mem_range]
  constructor
  · rintro ⟨-, hi⟩
    cases hslot : s.slot i with
    | free | live => simp [hslot, Slot.pendingItem] at hi
    | pending x => exact ⟨x, rfl⟩
  · rintro ⟨x, hx⟩
    refine ⟨?_, by simp [hx, Slot.pendingItem]⟩
    by_contra hle
    exact absurd (hx.symm.trans (h.slot_of_size_le (Nat.not_lt.mp hle))) (by simp)

/-- No bit beyond the capacity is set in the last word of the bitmap. -/
theorem liveSet_eq_setBits : s.liveSet =
    (Finset.range (usizeBits * s.storage.bitmap.length)).filter fun i => s.storage.bit i := by
  ext i
  rw [h.mem_liveSet, Finset.mem_filter, Finset.mem_range, h.bitmap_length]
  refine ⟨fun hb => ⟨?_, hb⟩, fun hi => hi.2⟩
  exact (h.lt_size_of_bit hb).trans_le (le_mul_bitmapLen s.storage.size)

/-- The slots that hold an item are the live and the pending ones. -/
theorem card_live_add_pending : s.liveSet.card + s.pendingSet.card =
    ((Finset.range s.storage.size).filter fun i => (s.slot i).item.isSome).card := by
  have hdisj : Disjoint s.liveSet s.pendingSet := by
    rw [h.liveSet_eq, pendingSet, Finset.disjoint_filter]
    intro i _ hlive hpending
    cases hs : s.slot i <;> simp [hs, Slot.liveItem, Slot.pendingItem] at hlive hpending
  rw [← Finset.card_union_of_disjoint hdisj, h.liveSet_eq, pendingSet, ← Finset.filter_or]
  congr 1
  refine Finset.filter_congr fun i _ => ?_
  cases s.slot i <;> simp [Slot.liveItem, Slot.pendingItem, Slot.item]

/-- The slots are partitioned into the live, the pending and the free ones. -/
theorem card_live_add_pending_add_free :
    s.liveSet.card + s.pendingSet.card + free.length = s.storage.size := by
  have hfree : free.length =
      ((Finset.range s.storage.size).filter fun i => ¬(s.slot i).item.isSome).card := by
    rw [← List.toFinset_card_of_nodup h.nodup]
    congr 1
    ext i
    rw [List.mem_toFinset, Finset.mem_filter, Finset.mem_range]
    constructor
    · intro hi
      have hlt := h.lt_size_of_mem_free hi
      rw [(h.mem_free_iff_slot hlt).mp hi]
      exact ⟨hlt, by simp [Slot.item]⟩
    · rintro ⟨hlt, hitem⟩
      rw [h.mem_free_iff_slot hlt]
      cases hs : s.slot i with
      | free => rfl
      | live x | pending x => simp [hs, Slot.item] at hitem
  rw [h.card_live_add_pending, hfree, Finset.card_filter_add_card_filter_not, Finset.card_range]

theorem allocated_eq : s.allocated = s.liveSet.card + s.pendingSet.card := by
  have hcard := h.card_live_add_pending_add_free
  have hadd := h.allocated_add
  omega

theorem firstFree_le : s.firstFree ≤ s.storage.size := by
  rcases h.linked.eq_stop_or_mem with heq | hmem
  · exact heq.le
  · exact (h.lt_size_of_mem_free hmem).le

theorem length_free_lt {i : Nat} (hi : i < s.storage.size) (hfree : i ∉ free) :
    free.length < s.storage.size := by
  have hnodup : (i :: free).Nodup := List.nodup_cons.mpr ⟨hfree, h.nodup⟩
  have hsub : (i :: free).toFinset ⊆ Finset.range s.storage.size := by
    intro j hj
    rw [Finset.mem_range]
    rcases List.mem_cons.mp (List.mem_toFinset.mp hj) with rfl | hj
    · exact hi
    · exact h.lt_size_of_mem_free hj
  have hcard := Finset.card_le_card hsub
  rw [List.toFinset_card_of_nodup hnodup, Finset.card_range, List.length_cons] at hcard
  exact hcard

theorem inUse_le : s.inUse ≤ s.storage.size := by
  rw [h.inUse_eq]
  calc s.liveSet.card ≤ (Finset.range s.storage.size).card :=
        Finset.card_le_card (Finset.filter_subset _ _)
    _ = s.storage.size := Finset.card_range _

theorem allocated_le : s.allocated ≤ s.storage.size :=
  Nat.le.intro h.allocated_add

theorem exists_mask {i : Nat} (hi : i < s.storage.size) :
    ∃ mask, s.storage.loadBitmap (i / usizeBits) = .ok mask ∧
      s.storage.bitmap[i / usizeBits]? = some mask := by
  obtain ⟨mask, hmask⟩ := s.storage.exists_loadBitmap h.bitmap_length hi
  exact ⟨mask, hmask, s.storage.loadBitmap_eq_ok.mp hmask⟩

/-! ### Reads -/

theorem containsKeyImpl_eq (i : Nat) : s.storage.containsKeyImpl i = .ok (s.storage.bit i) := by
  rw [CslabStorage.containsKeyImpl]
  split_ifs with hi
  · cases hb : s.storage.bit i with
    | false => rfl
    | true => exact absurd (h.lt_size_of_bit hb) (Nat.not_lt.mpr hi)
  · obtain ⟨mask, hmask, -⟩ := h.exists_mask (Nat.not_le.mp hi)
    have hne := one_ne_zero_of_pos usizeBits_pos
    rw [hmask, except_ok_bind, s.storage.test_eq_ite_bit hmask]
    cases s.storage.bit i <;> simp [hne]

theorem get_eq (i : Nat) : s.get i = .ok (s.slot i).liveItem := by
  rw [get, CslabStorage.getImpl, h.containsKeyImpl_eq, except_ok_bind]
  cases hb : s.storage.bit i with
  | true =>
    obtain ⟨x, hx⟩ := h.item_of_bit i hb
    rw [slot_eq_live.mpr ⟨hx, hb⟩, CslabStorage.getUncheckedImpl,
      s.storage.readItem_eq_ok.mpr hx]
    rfl
  | false =>
    have hnone := h.bit_eq_isSome i
    rw [hb] at hnone
    rw [Option.isSome_eq_false_iff.mp hnone.symm |> Option.isNone_iff_eq_none.mp]
    rfl

theorem vacantKey_eq : s.vacantKey = free.head? := by
  rw [vacantKey]
  cases free with
  | nil => simp [h.linked.eq_stop]
  | cons i rest =>
    obtain ⟨hfirst, -⟩ := h.linked.cons_inv
    simp [hfirst, h.lt_size_of_mem_free List.mem_cons_self]

end Inv

end Cslab

end ZprUtils
