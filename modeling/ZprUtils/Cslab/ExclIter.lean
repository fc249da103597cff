import ZprUtils.Cslab.Iter
import ZprUtils.Cslab.Refinement

/-!
# The exclusive iterator and its length

`ExclIter` is an `Iter` together with the number of items of the slab when the iterator was made,
which it reports as its length. While it is alive nothing visible of the slab can change: the slab
is not written, although removals that were marked before may be finalized. The iterator is
therefore run over a sequence of slabs that show the same items (`Cslab.SameView`).

## Main definitions

* `Cslab.SameView` — two slabs that show the same items.
* `ExclIter` — the iterator, `ExclIter.call` a call on either end.
* `ExclIter.remaining` — the number of items it will still yield.

## Main results

* `Cslab.SameView.next_eq`, `Cslab.SameView.items_eq` — iteration depends on the view only.
* `ExclIter.run_spec` — every item that is yielded shortens what is left by one.
* `ExclIter.exact_iff` — the reported length is what is left only before the first item.
-/

namespace ZprUtils

variable {α : Type}

/-! ### Slabs that show the same items -/

namespace Cslab

/-- The two slabs have the same capacity, frontier and bitmap, and show the same items. -/
structure SameView (c c' : Cslab α) : Prop where
  size : c'.storage.size = c.storage.size
  frontier : c'.storage.frontier = c.storage.frontier
  bitmap : c'.storage.bitmap = c.storage.bitmap
  live : ∀ i, (c'.slot i).liveItem = (c.slot i).liveItem

namespace SameView

variable {c c' c'' : Cslab α}

theorem refl (c : Cslab α) : SameView c c := ⟨rfl, rfl, rfl, fun _ => rfl⟩

theorem trans (h : SameView c c') (h' : SameView c' c'') : SameView c c'' :=
  ⟨h'.size.trans h.size, h'.frontier.trans h.frontier, h'.bitmap.trans h.bitmap,
    fun i => (h'.live i).trans (h.live i)⟩

theorem bit_eq (h : SameView c c') (i : Nat) : c'.storage.bit i = c.storage.bit i := by
  rw [CslabStorage.bit, CslabStorage.bit, h.bitmap]

theorem live_iff (h : SameView c c') {i : Nat} {x : α} :
    c'.slot i = .live x ↔ c.slot i = .live x := by
  rw [← Slot.liveItem_eq_some, ← Slot.liveItem_eq_some, h.live]

variable {free free' : List Nat} (hc : c.Inv free) (hc' : c'.Inv free') (h : SameView c c')
include hc hc' h

theorem get_eq (i : Nat) : c'.get i = c.get i := by
  rw [hc'.get_eq, hc.get_eq, h.live]

/-- The first visible item of a range is the same. -/
theorem next_eq {it : Iter} (htail : it.tail ≤ c.storage.size) :
    it.next c'.storage = it.next c.storage := by
  rcases hc.next_eq it htail with ⟨hok, habsent⟩
    | ⟨i, x, it₁, hok, hlive, hle, hlt, habsent, hh, ht⟩
  · rcases hc'.next_eq it (h.size ▸ htail) with ⟨hok', -⟩ | ⟨j, y, it₂, -, hlive', hle', hlt', -⟩
    · rw [hok, hok']
    · have hbit := habsent j hle' hlt'
      rw [(slot_eq_live.mp (h.live_iff.mp hlive')).2] at hbit
      exact absurd hbit nofun
  · rcases hc'.next_eq it (h.size ▸ htail) with
      ⟨-, habsent'⟩ | ⟨j, y, it₂, hok', hlive', hle', -, habsent', hh', ht'⟩
    · have hbit := habsent' i hle hlt
      rw [(slot_eq_live.mp (h.live_iff.mpr hlive)).2] at hbit
      exact absurd hbit nofun
    · obtain rfl : i = j := by
        rcases Nat.lt_trichotomy i j with hij | hij | hij
        · have hbit := habsent' i hle hij
          rw [(slot_eq_live.mp (h.live_iff.mpr hlive)).2] at hbit
          exact absurd hbit nofun
        · exact hij
        · have hbit := habsent j hle' hij
          rw [(slot_eq_live.mp (h.live_iff.mp hlive')).2] at hbit
          exact absurd hbit nofun
      obtain rfl : x = y := Slot.live.inj (hlive.symm.trans (h.live_iff.mp hlive'))
      rw [hok, hok', show it₁ = it₂ from Iter.ext (hh.trans hh'.symm) (ht.trans ht'.symm)]

/-- Forward iteration yields the same items. -/
theorem forEach_eq (fuel : Nat) {it : Iter} (htail : it.tail ≤ c.storage.size) :
    it.forEach c'.storage fuel = it.forEach c.storage fuel := by
  induction fuel generalizing it with
  | zero => rfl
  | succ fuel ih =>
    rw [Iter.forEach, Iter.forEach, next_eq hc hc' h htail]
    rcases hc.next_eq it htail with ⟨hok, -⟩ | ⟨i, x, it', hok, -, -, -, -, -, ht⟩
    · rw [hok]
      rfl
    · rw [hok]
      simp only [except_ok_bind, ih (show it'.tail ≤ c.storage.size by omega)]

theorem items_eq : Iter.items c'.storage = Iter.items c.storage := by
  rw [Iter.items, Iter.items, h.frontier, Iter.new, Iter.new]
  simp only [h.frontier]
  exact forEach_eq hc hc' h _ hc.frontier_le

end SameView

end Cslab

/-! ### The iterator -/

/-- An iterator that also knows the number of items. -/
structure ExclIter where
  iter : Iter
  inUse : Nat
  deriving DecidableEq, Repr

/-- The end of an iterator on which a call is made. -/
inductive IterEnd where
  | front
  | back
  deriving DecidableEq, Repr

/-- A call on one end of an iterator. -/
def Iter.advance (it : Iter) (storage : CslabStorage α) :
    IterEnd → Except RustFault (Option (Nat × α) × Iter)
  | .front => it.next storage
  | .back => it.nextBack storage

/-- The index `i` is still before the iterator. -/
def Iter.Covers (it : Iter) (i : Nat) : Prop := it.head ≤ i ∧ i < it.tail

namespace ExclIter

/-- An iterator over the whole slab, with the number of items in it. -/
def new (storage : CslabStorage α) (inUse : Nat) : ExclIter := ⟨.new storage, inUse⟩

/-- The call to the inner iterator. The stored number of items stays as it is. -/
def next (it : ExclIter) (storage : CslabStorage α) :
    Except RustFault (Option (Nat × α) × ExclIter) := do
  let (item, iter) ← it.iter.next storage
  return (item, { it with iter })

/-- The call to the inner iterator. The stored number of items stays as it is. -/
def nextBack (it : ExclIter) (storage : CslabStorage α) :
    Except RustFault (Option (Nat × α) × ExclIter) := do
  let (item, iter) ← it.iter.nextBack storage
  return (item, { it with iter })

/-- The number of items when the iterator was made, as both bounds. -/
def sizeHint (it : ExclIter) : Nat × Option Nat := (it.inUse, some it.inUse)

/-- The number of items when the iterator was made. -/
def count (it : ExclIter) : Nat := it.inUse

/-- A call on one of the two ends. -/
def call (it : ExclIter) (storage : CslabStorage α) :
    IterEnd → Except RustFault (Option (Nat × α) × ExclIter)
  | .front => it.next storage
  | .back => it.nextBack storage

/-- The items that the iterator will still yield. -/
def rest (it : ExclIter) (storage : CslabStorage α) : Except RustFault (List (Nat × α)) :=
  it.iter.forEach storage (it.iter.tail - it.iter.head + 1)

/-- The reported length is the number of items that the iterator will still yield. -/
def Exact (it : ExclIter) (storage : CslabStorage α) : Prop :=
  ∃ l, it.rest storage = .ok l ∧ it.sizeHint = (l.length, some l.length) ∧ it.count = l.length

end ExclIter

/-- An iterator over the slab. -/
def Cslab.iter (c : Cslab α) : ExclIter := .new c.storage c.inUse

/-! ### What is left of an iteration -/

/-- The number of visible items in the range of the iterator. -/
def Cslab.left (c : Cslab α) (it : Iter) : Nat :=
  ((List.range' it.head (it.tail - it.head)).filter fun i => c.storage.bit i).length

theorem Cslab.left_eq_zero {c : Cslab α} {it : Iter}
    (habsent : c.storage.AbsentIn it.head it.tail) : c.left it = 0 := by
  rw [Cslab.left, habsent.filter_range']
  rfl

/-- The index `i` of a found item splits what is before the iterator. -/
theorem Cslab.left_split {c : Cslab α} {it : Iter} {i : Nat} {x : α} (hlive : c.slot i = .live x)
    (hle : it.head ≤ i) (hlt : i < it.tail) :
    c.left it = ((List.range' it.head (i - it.head)).filter fun j => c.storage.bit j).length +
      (((List.range' (i + 1) (it.tail - (i + 1))).filter fun j => c.storage.bit j).length + 1) := by
  rw [Cslab.left, range'_split hle hlt, List.filter_append,
    List.filter_cons_of_pos (slot_eq_live.mp hlive).2, List.length_append, List.length_cons]

namespace Cslab.Inv

variable {c : Cslab α} {free : List Nat} (h : c.Inv free)
include h

theorem rest_eq {it : ExclIter} (htail : it.iter.tail ≤ c.storage.size) :
    ∃ l, it.rest c.storage = .ok l ∧ l.length = c.left it.iter := by
  obtain ⟨l, hl, hmap, -⟩ := h.forEach_eq _ it.iter (Nat.lt_succ_self _) htail
  exact ⟨l, hl, by rw [Cslab.left, ← hmap, List.length_map]⟩

/-- A new iterator has all items before it. -/
theorem left_new : c.left (.new c.storage) = c.inUse := by
  have hset : c.liveSet =
      ((List.range' 0 c.storage.frontier).filter fun i => c.storage.bit i).toFinset := by
    ext i
    rw [h.mem_liveSet, List.mem_toFinset, List.mem_filter, List.mem_range'_1]
    refine ⟨fun hb => ⟨⟨Nat.zero_le _, ?_⟩, hb⟩, fun hi => hi.2⟩
    obtain ⟨x, hx⟩ := h.item_of_bit i hb
    simpa using h.lt_frontier i x hx
  rw [h.inUse_eq, hset, List.toFinset_card_of_nodup (List.Nodup.filter _ (List.nodup_range' 1))]
  rfl

theorem inUse_le_frontier : c.inUse ≤ c.storage.frontier := by
  rw [← h.left_new, Cslab.left]
  exact (List.length_filter_le _ _).trans List.length_range'.le

/-- **A call on either end** finds the first item at that end and leaves the others before the
iterator, or there was nothing left. The number of items that are left goes down by the one that is
found. -/
theorem advance_eq (e : IterEnd) (it : Iter) (htail : it.tail ≤ c.storage.size) :
    (∃ it', it.advance c.storage e = .ok (none, it') ∧ it'.tail ≤ c.storage.size ∧
      (∀ j, it.Covers j → c.storage.bit j = false) ∧ (∀ j, ¬it'.Covers j) ∧ c.left it = 0 ∧
      c.left it' = 0) ∨
    ∃ i x it', it.advance c.storage e = .ok (some (i, x), it') ∧ it'.tail ≤ c.storage.size ∧
      c.slot i = .live x ∧ it.Covers i ∧ ¬it'.Covers i ∧ (∀ j, it'.Covers j → it.Covers j) ∧
      (∀ j, c.storage.bit j = true → it.Covers j → j = i ∨ it'.Covers j) ∧
      c.left it = c.left it' + 1 := by
  have hempty : ∀ n : Nat, c.left ⟨n, n, le_rfl⟩ = 0 := fun n => by simp [Cslab.left]
  have hnone : ∀ n j : Nat, ¬(⟨n, n, le_rfl⟩ : Iter).Covers j := by
    rintro n j ⟨hle, hlt⟩
    exact absurd hlt (Nat.not_lt.mpr hle)
  have hle := it.head_le
  cases e with
  | front =>
    rcases h.next_eq it htail with
      ⟨hok, habsent⟩ | ⟨i, x, it', hok, hlive, hle, hlt, habsent, hh, ht⟩
    · exact Or.inl ⟨_, hok, htail, fun j hj => habsent j hj.1 hj.2, hnone _, left_eq_zero habsent,
        hempty _⟩
    · refine Or.inr ⟨i, x, it', hok, by omega, hlive, ⟨hle, hlt⟩, ?_, ?_, fun j hj => ?_, ?_⟩
      · rintro ⟨hle', -⟩
        omega
      · rintro j ⟨hle', hlt'⟩
        exact ⟨by omega, by omega⟩
      · have hnot : ¬(it.head ≤ j ∧ j < i) := fun hmem =>
          absurd (habsent j hmem.1 hmem.2) (by simp [hj])
        simp only [Iter.Covers, hh, ht]
        omega
      · rw [left_split hlive hle hlt, habsent.filter_range', List.length_nil, Nat.zero_add,
          Cslab.left, hh, ht]
  | back =>
    rcases h.nextBack_eq it htail with
      ⟨hok, habsent⟩ | ⟨i, x, it', hok, hlive, hle, hlt, habsent, hh, ht⟩
    · exact Or.inl ⟨_, hok, by simp only; omega, fun j hj => habsent j hj.1 hj.2, hnone _,
        left_eq_zero habsent, hempty _⟩
    · refine Or.inr ⟨i, x, it', hok, by omega, hlive, ⟨hle, hlt⟩, ?_, ?_, fun j hj => ?_, ?_⟩
      · rintro ⟨-, hlt'⟩
        omega
      · rintro j ⟨hle', hlt'⟩
        exact ⟨by omega, by omega⟩
      · have hnot : ¬(i + 1 ≤ j ∧ j < it.tail) := fun hmem =>
          absurd (habsent j hmem.1 hmem.2) (by simp [hj])
        simp only [Iter.Covers, hh, ht]
        omega
      · rw [left_split hlive hle hlt, habsent.filter_range', List.length_nil, Nat.zero_add,
          Cslab.left, hh, ht]

/-- A call of the exclusive iterator yields an item and leaves one less, or there was nothing
left. -/
theorem call_eq {it : ExclIter} (e : IterEnd) (htail : it.iter.tail ≤ c.storage.size) :
    ∃ item it', it.call c.storage e = .ok (item, it') ∧ it'.inUse = it.inUse ∧
      it'.iter.tail ≤ c.storage.size ∧ c.left it.iter = c.left it'.iter + item.isSome.toNat ∧
      (item = none → c.left it.iter = 0) := by
  have hcall : ∀ item iter, it.iter.advance c.storage e = .ok (item, iter) →
      it.call c.storage e = .ok (item, { it with iter }) := by
    intro item iter hok
    cases e with
    | front =>
      simp only [Iter.advance] at hok
      simp only [ExclIter.call, ExclIter.next, hok, except_ok_bind, except_pure]
    | back =>
      simp only [Iter.advance] at hok
      simp only [ExclIter.call, ExclIter.nextBack, hok, except_ok_bind, except_pure]
  rcases h.advance_eq e it.iter htail with
    ⟨it', hok, htail', -, -, hzero, hzero'⟩ | ⟨i, x, it', hok, htail', -, -, -, -, -, hleft⟩
  · exact ⟨none, _, hcall _ _ hok, rfl, htail', hzero.trans hzero'.symm, fun _ => hzero⟩
  · exact ⟨some (i, x), _, hcall _ _ hok, rfl, htail', hleft, nofun⟩

end Cslab.Inv

theorem Cslab.SameView.left_eq {c c' : Cslab α} (h : c.SameView c') (it : Iter) :
    c'.left it = c.left it := by
  simp only [Cslab.left, h.bit_eq]

/-! ### Sequences of calls -/

namespace ExclIter

/-- The calls on an iterator, each with the slab at its time. -/
def run (it : ExclIter) (calls : List (IterEnd × Cslab α)) :
    Except RustFault (List (Option (Nat × α)) × ExclIter) :=
  runOps (fun it p => it.call p.2.storage p.1) it calls

variable {c : Cslab α} {free : List Nat} {it it' : ExclIter} {calls : List (IterEnd × Cslab α)}

/-- **A sequence of calls** on an iterator while the slab shows the same items: what was left is
what is still left and the items that were yielded, and the first call yields an item if one was
left. -/
theorem run_spec
    (hcalls : ∀ p ∈ calls, c.SameView p.2 ∧ ∃ free', p.2.Inv free')
    (htail : it.iter.tail ≤ c.storage.size) :
    ∃ rs it', it.run calls = .ok (rs, it') ∧ it'.inUse = it.inUse ∧
      it'.iter.tail ≤ c.storage.size ∧
      c.left it.iter = c.left it'.iter + rs.countP (·.isSome) ∧
      (calls ≠ [] → 0 < c.left it.iter → 0 < rs.countP (·.isSome)) := by
  induction calls generalizing it with
  | nil => exact ⟨[], it, rfl, rfl, htail, rfl, fun h => absurd rfl h⟩
  | cons p calls ih =>
    obtain ⟨hview, free', hinv⟩ := hcalls p List.mem_cons_self
    obtain ⟨item, it₁, hok, huse, htail₁, hleft, hnone⟩ :=
      hinv.call_eq p.1 (show it.iter.tail ≤ p.2.storage.size by rw [hview.size]; exact htail)
    rw [hview.left_eq, hview.left_eq] at hleft
    rw [hview.left_eq] at hnone
    rw [hview.size] at htail₁
    obtain ⟨rs, it', hrun, huse', htail', hleft', -⟩ :=
      ih (fun q hq => hcalls q (List.mem_cons_of_mem p hq)) htail₁
    refine ⟨item :: rs, it', runOps_cons_ok hok hrun, huse'.trans huse, htail', ?_, ?_⟩
    · rw [List.countP_cons]
      cases item <;> simp at hleft ⊢ <;> omega
    · intro _ hpos
      cases item with
      | none => exact absurd (hnone rfl) (by omega)
      | some q => simp

/-- **The reported length** of an iterator of the slab, after any calls on it, is the number of
items it will still yield if and only if no call was made or the slab has no items. The iterator
reports the number of items that it was made with, and no call changes it. -/
theorem exact_iff (h : c.Inv free)
    (hcalls : ∀ p ∈ calls, c.SameView p.2 ∧ ∃ free', p.2.Inv free') :
    ∃ rs it', c.iter.run calls = .ok (rs, it') ∧ it'.iter.tail ≤ c.storage.size ∧
      ∀ c' : Cslab α, c.SameView c' → (∃ free', c'.Inv free') →
        (it'.Exact c'.storage ↔ calls = [] ∨ c.len = 0) := by
  obtain ⟨rs, it', hrun, huse, htail, hleft, hfirst⟩ := @run_spec _ c c.iter _ hcalls h.frontier_le
  have hnew : c.left c.iter.iter = c.len := h.left_new
  have hinUse : it'.inUse = c.len := huse
  rw [hnew] at hleft hfirst
  refine ⟨rs, it', hrun, htail, fun c' hview hinv => ?_⟩
  obtain ⟨free', hinv⟩ := hinv
  obtain ⟨l, hl, hlen⟩ := hinv.rest_eq (show it'.iter.tail ≤ c'.storage.size by rwa [hview.size])
  rw [hview.left_eq] at hlen
  have hexact : it'.Exact c'.storage ↔ c.len = l.length := by
    constructor
    · rintro ⟨l', hl', -, hcount⟩
      obtain rfl : l = l' := Except.ok.inj (hl.symm.trans hl')
      exact hinUse.symm.trans hcount
    · intro hlen
      refine ⟨l, hl, ?_, hinUse.trans hlen⟩
      rw [sizeHint, hinUse, hlen]
  rw [hexact, hlen]
  constructor
  · intro heq
    by_contra hnot
    obtain ⟨hne, hpos⟩ := not_or.mp hnot
    have := hfirst hne (Nat.pos_of_ne_zero hpos)
    omega
  · rintro (rfl | hzero)
    · obtain ⟨rfl, rfl⟩ := Prod.mk.inj (Except.ok.inj hrun)
      simpa using hleft
    · omega

end ExclIter

end ZprUtils
