import ZprUtils.Cslab.Invariant

/-!
# The operations keep the representation invariant

One lemma for each operation of the slab: the value it returns, the free list after it, and the one
slot it changes. Later modules use only these lemmas.

## Main results

* `Cslab.inv_withFixedCapacity` — a new slab.
* `Cslab.Inv.insert_nil`, `Cslab.Inv.insert_cons` — insertion into a full slab and otherwise.
* `Cslab.Inv.markRemoved_eq_ok`, `Cslab.Inv.markRemoved_eq_panic`.
* `Cslab.Inv.finalizeRemove_eq_ok`.
-/

namespace ZprUtils

variable {α : Type}

namespace Cslab

/-! ### A new slab -/

theorem withFixedCapacity_eq_ok {t : Layout} {n : Nat} {s : Cslab α}
    (h : withFixedCapacity .memory t n = .ok s) :
    0 < n ∧ 8 * n ≤ isizeMax ∧ s = ⟨0, 0, 0, ⟨n, 0, List.replicate n (.nextFree 0),
      List.replicate (bitmapLen n) 0⟩⟩ := by
  obtain ⟨storage, hstorage, hs⟩ := except_bind_eq_ok.mp h
  rw [CslabStorage.withFixedCapacity] at hstorage
  by_cases hn : n = 0
  · simp [hn] at hstorage
  rw [if_neg hn] at hstorage
  obtain ⟨layout, hlayout, hok⟩ := except_bind_eq_ok.mp hstorage
  rw [except_pure, Except.ok.injEq] at hs hok
  rw [← hs, ← hok]
  exact ⟨Nat.pos_of_ne_zero hn, eight_mul_le_isizeMax hlayout, rfl⟩

/-- The zeroed table of a new slab links all slots in increasing order. -/
theorem inv_withFixedCapacity {t : Layout} {n : Nat} {s : Cslab α}
    (h : withFixedCapacity .memory t n = .ok s) :
    s.Inv (List.range n) ∧ s.storage.size = n ∧ s.storage.frontier = 0 ∧
      s.slot = fun _ => .free := by
  obtain ⟨hpos, hle, rfl⟩ := withFixedCapacity_eq_ok h
  have hget : ∀ i, (List.replicate n (.nextFree 0 : Entry α))[i]? =
      if i < n then some (.nextFree 0) else none := fun i => List.getElem?_replicate
  have hbit : ∀ i, bitAt (List.replicate (bitmapLen n) (0 : Word)) i = false :=
    bitAt_replicate_zero (bitmapLen n)
  refine ⟨⟨hpos, hle, List.length_replicate, List.length_replicate, ?_, List.nodup_range, ?_, ?_,
    ?_, ?_, Nat.zero_le _, ?_⟩, rfl, rfl, ?_⟩
  · rw [List.range_eq_range']
    have hlinks := linkedTo_range' (R := Link (⟨0, 0, 0, ⟨n, 0, List.replicate n (.nextFree 0),
      List.replicate (bitmapLen n) 0⟩⟩ : Cslab α)) 0 n fun i _ hi =>
        ⟨0, by simp [show i < n by omega], by simp⟩
    rwa [Nat.zero_add] at hlinks
  · intro i
    simp only [hget, List.mem_range]
    split_ifs with hi <;> simp [hi]
  · intro i hi
    exact absurd ((hbit i).symm.trans hi) Bool.false_ne_true
  · simp only [liveSet, CslabStorage.bit, hbit, Bool.false_eq_true, Finset.filter_false,
      Finset.card_empty]
  · simp
  · intro i x hx
    simp only [hget] at hx
    split_ifs at hx
    simp at hx
  · funext i
    simp only [slot, hget]
    split_ifs <;> rfl

variable {s : Cslab α} {free rest : List Nat} {i : Nat} {x : α}

/-! ### Insertion -/

/-- A full slab rejects an item and stays as it is. -/
theorem Inv.insert_nil (h : s.Inv []) (x : α) : s.insert x = .ok (none, s) := by
  have hfull : s.firstFree ≥ s.storage.size := h.linked.eq_stop.ge
  simp [insert, hfull]

/-- The slab after an insertion at `i`, with `next` the next free slot. -/
def inserted (s : Cslab α) (i next : Nat) (mask : Word) (x : α) : Cslab α :=
  ⟨next, s.inUse + 1, s.allocated + 1, { s.storage with
    frontier := max s.storage.frontier (i + 1)
    table := s.storage.table.set i (.item x)
    bitmap := s.storage.bitmap.set (i / usizeBits) (mask ||| (1 : Word) <<< (i % usizeBits)) }⟩

theorem Inv.insert_eq_ok (h : s.Inv (i :: rest)) (x : α) :
    ∃ next mask, s.Link i next ∧ LinkedTo s.Link s.storage.size next rest ∧
      s.storage.bitmap[i / usizeBits]? = some mask ∧ s.storage.bit i = false ∧
      s.insert x = .ok (some i, s.inserted i next mask x) := by
  obtain ⟨hfirst, next, ⟨offset, hoffset, hnext⟩, hrest⟩ := h.linked.cons_inv
  have hi := h.lt_size_of_mem_free List.mem_cons_self
  have hsize := h.size_le
  have hnextle : next ≤ s.storage.size := by
    rcases hrest.eq_stop_or_mem with heq | hmem
    · exact heq.le
    · exact (h.lt_size_of_mem_free (List.mem_cons_of_mem i hmem)).le
  have hbit : s.storage.bit i = false := by
    cases hb : s.storage.bit i with
    | false => rfl
    | true =>
      obtain ⟨y, hy⟩ := h.item_of_bit i hb
      exact absurd (hy.symm.trans hoffset) (by simp)
  obtain ⟨mask, hload, hmask⟩ := h.exists_mask hi
  have hmax : usizeMax = 2 ^ 64 - 1 := rfl
  have hmaxi : isizeMax = 2 ^ 63 - 1 := rfl
  have hinUse := h.inUse_le
  have hallocated := h.allocated_le
  refine ⟨next, mask, ⟨offset, hoffset, hnext⟩, hrest, hmask, hbit, ?_⟩
  have hadd1 : isizeAdd (asIsize i) 1 = .ok ((i : Int) + 1) := by
    rw [asIsize_of_le (by omega)]
    exact isizeAdd_eq_ok (isIsize_of_abs_le (by omega) (by omega))
  have hadd2 : isizeAdd ((i : Int) + 1) offset = .ok (next : Int) := by
    rw [← hnext]
    exact isizeAdd_eq_ok (isIsize_of_abs_le (by omega) (by omega))
  have htest : (mask >>> (i % usizeBits)) &&& (1 : Word) = (0 : Word) := by
    rw [s.storage.test_eq_ite_bit hload, hbit]
    rfl
  have hlen : ¬i ≥ s.storage.size := Nat.not_le.mpr hi
  have hread := s.storage.readNextFree_eq_ok.mpr hoffset
  have hfrontier : s.storage.raiseFrontier i = .ok (max s.storage.frontier (i + 1)) := by
    rw [CslabStorage.raiseFrontier]
    split_ifs with hge
    · rw [usizeAdd_eq_ok (by omega), Nat.max_eq_right (by omega)]
    · rw [Nat.max_eq_left (by omega)]
  simp only [insert, hfirst, if_neg hlen, hread, except_ok_bind, hadd1, hadd2,
    asUsize_natCast (show next ≤ usizeMax by omega), hfrontier, hload, htest]
  simp only [ne_eq, not_true_eq_false, if_false, except_ok_bind,
    usizeAdd_eq_ok (show s.inUse + 1 ≤ usizeMax by omega),
    usizeAdd_eq_ok (show s.allocated + 1 ≤ usizeMax by omega)]
  rfl

theorem inserted_slot {next : Nat} {mask : Word} (hi : i < s.storage.table.length)
    (hmask : s.storage.bitmap[i / usizeBits]? = some mask) :
    (s.inserted i next mask x).slot = Function.update s.slot i (.live x) := by
  have hbit : ∀ j, (s.inserted i next mask x).storage.bit j =
      (decide (j = i) || s.storage.bit j) := bitAt_set_or usizeBits_pos hmask
  funext j
  by_cases hj : j = i
  · subst hj
    rw [Function.update_self, slot_eq_live]
    exact ⟨List.getElem?_set_self hi, by rw [hbit]; simp⟩
  · have htable : (s.inserted i next mask x).storage.table[j]? = s.storage.table[j]? :=
      List.getElem?_set_ne (Ne.symm hj)
    rw [Function.update_of_ne hj, slot, slot, htable, hbit]
    simp [hj]

/-- **Insertion.** The item goes to the first free slot, and the offset that was stored there leads
to the rest of the free list, which stays. The frontier moves over the slot, and both counters go up
by one; nothing overflows. -/
theorem Inv.insert_cons (h : s.Inv (i :: rest)) (x : α) :
    ∃ s', s.insert x = .ok (some i, s') ∧ s'.Inv rest ∧
      s'.slot = Function.update s.slot i (.live x) ∧ s'.storage.size = s.storage.size ∧
      s'.storage.frontier = max s.storage.frontier (i + 1) ∧ s'.inUse = s.inUse + 1 ∧
      s'.allocated = s.allocated + 1 := by
  obtain ⟨next, mask, hlink, hrest, hmask, hfalse, hok⟩ := h.insert_eq_ok x
  have hi := h.lt_size_of_mem_free List.mem_cons_self
  have hi' : i < s.storage.table.length := h.table_length ▸ hi
  refine ⟨_, hok, ?_, inserted_slot hi' hmask, rfl, rfl, rfl, rfl⟩
  obtain ⟨hnotin, hnodup⟩ := List.nodup_cons.mp h.nodup
  have hbit : ∀ j, (s.inserted i next mask x).storage.bit j =
      (decide (j = i) || s.storage.bit j) := bitAt_set_or usizeBits_pos hmask
  have htable : ∀ j, j ≠ i → (s.inserted i next mask x).storage.table[j]? = s.storage.table[j]? :=
    fun j hj => List.getElem?_set_ne (Ne.symm hj)
  have hself : (s.inserted i next mask x).storage.table[i]? = some (.item x) :=
    List.getElem?_set_self hi'
  refine ⟨h.size_pos, h.size_le, ?_, ?_, ?_, hnodup, ?_, ?_, ?_, ?_, ?_, ?_⟩
  · exact (List.length_set ..).trans h.table_length
  · exact (List.length_set ..).trans h.bitmap_length
  · refine hrest.frame fun j hj k hjk => ?_
    obtain ⟨offset, hoffset, hk⟩ := hjk
    exact ⟨offset, by rw [htable j (fun hji => hnotin (hji ▸ hj)), hoffset], hk⟩
  · intro j
    by_cases hj : j = i
    · subst hj
      simp [hself, hnotin]
    · rw [htable j hj, ← h.mem_free, List.mem_cons, or_iff_right hj]
  · intro j hj
    by_cases hji : j = i
    · exact ⟨x, hji ▸ hself⟩
    · rw [htable j hji]
      exact h.item_of_bit j (by simpa [hbit, hji] using hj)
  · have hset : (s.inserted i next mask x).liveSet = Insert.insert i s.liveSet := by
      ext j
      simp only [liveSet, Finset.mem_filter, Finset.mem_insert, hbit]
      by_cases hj : j = i
      · simpa [hj, inserted] using hi
      · simp [hj, inserted]
    have hmem : i ∉ s.liveSet := by simp [liveSet, hfalse]
    rw [hset, Finset.card_insert_of_notMem hmem, ← h.inUse_eq]
    rfl
  · have hadd := h.allocated_add
    simp only [List.length_cons] at hadd
    simp only [inserted]
    omega
  · exact Nat.max_le.mpr ⟨h.frontier_le, hi⟩
  · intro j y hy
    by_cases hj : j = i
    · subst hj
      exact Nat.lt_of_lt_of_le (Nat.lt_succ_self j) (Nat.le_max_right _ _)
    · rw [htable j hj] at hy
      exact Nat.lt_of_lt_of_le (h.lt_frontier j y hy) (Nat.le_max_left _ _)

/-- An insertion that returns an index took it from the front of the free list. The entry that the
slot held is read before the item is written over it, so the rest of the list is found again. -/
theorem Inv.of_insert {c : Cslab α} (h : s.Inv free) (hok : s.insert x = .ok (some i, c)) :
    ∃ rest, free = i :: rest ∧ c.Inv rest ∧ c.slot = Function.update s.slot i (.live x) ∧
      c.storage.size = s.storage.size ∧ s.slot i = .free := by
  cases free with
  | nil =>
    rw [h.insert_nil] at hok
    simp at hok
  | cons j rest =>
    obtain ⟨s', hs', hinv, hslot, hsize, -⟩ := h.insert_cons x
    rw [hs'] at hok
    simp only [Except.ok.injEq, Prod.mk.injEq, Option.some.injEq] at hok
    obtain ⟨rfl, rfl⟩ := hok
    exact ⟨rest, rfl, hinv, hslot, hsize, (h.mem_free_iff.mp List.mem_cons_self).2⟩

/-! ### The two phases of a removal -/

/-- The slab after slot `i` is marked removed. -/
def marked (s : Cslab α) (i : Nat) (mask : Word) : Cslab α :=
  { s with
    inUse := s.inUse - 1
    storage := { s.storage with
      bitmap := s.storage.bitmap.set (i / usizeBits)
        (mask &&& ~~~((1 : Word) <<< (i % usizeBits))) } }

/-- **Marking.** A live slot becomes pending: its bit is cleared, and its item stays in the table.
Only the number of items in use goes down; the slot stays allocated, and the free list is not
touched. -/
theorem Inv.markRemoved_eq_ok (h : s.Inv free) (hi : s.slot i = .live x) :
    ∃ s', s.markRemoved i = .ok s' ∧ s'.Inv free ∧
      s'.slot = Function.update s.slot i (.pending x) ∧ s'.storage.size = s.storage.size ∧
      s'.storage.frontier = s.storage.frontier ∧ s'.inUse + 1 = s.inUse ∧
      s'.allocated = s.allocated ∧ s'.firstFree = s.firstFree := by
  obtain ⟨hx, hb⟩ := slot_eq_live.mp hi
  obtain ⟨mask, hload, hmask⟩ := h.exists_mask (h.lt_size_of_getElem? hx)
  have hmem : i ∈ s.liveSet := h.mem_liveSet.mpr hb
  have hpos : 1 ≤ s.inUse := by
    rw [h.inUse_eq]
    exact Finset.card_pos.mpr ⟨i, hmem⟩
  have hok : s.markRemoved i = .ok (s.marked i mask) := by
    have htest : (mask >>> (i % usizeBits)) &&& (1 : Word) = (1 : Word) := by
      rw [s.storage.test_eq_ite_bit hload, hb]
      rfl
    simp only [markRemoved, hload, except_ok_bind, htest, ne_eq, not_true_eq_false, if_false,
      usizeSub_eq_ok hpos]
    rfl
  have hbit : ∀ j, (s.marked i mask).storage.bit j = (decide (j ≠ i) && s.storage.bit j) :=
    bitAt_set_andNot usizeBits_pos hmask
  refine ⟨_, hok, ?_, ?_, rfl, rfl, Nat.sub_add_cancel hpos, rfl, rfl⟩
  · refine ⟨h.size_pos, h.size_le, h.table_length, ?_, h.linked, h.nodup, h.mem_free, ?_, ?_,
      h.allocated_add, h.frontier_le, h.lt_frontier⟩
    · exact (List.length_set ..).trans h.bitmap_length
    · intro j hj
      rw [hbit, Bool.and_eq_true] at hj
      exact h.item_of_bit j hj.2
    · have hset : (s.marked i mask).liveSet = s.liveSet.erase i := by
        ext j
        simp only [liveSet, Finset.mem_filter, Finset.mem_erase, hbit]
        by_cases hj : j = i <;> simp [hj, marked]
      rw [hset, Finset.card_erase_of_mem hmem, ← h.inUse_eq]
      rfl
  · funext j
    by_cases hj : j = i
    · subst hj
      rw [Function.update_self, slot_eq_pending]
      exact ⟨hx, by rw [hbit]; simp⟩
    · rw [Function.update_of_ne hj, slot, slot, hbit]
      simp [hj, marked]

/-- Marking a slot without a visible item panics. -/
theorem Inv.markRemoved_eq_panic (h : s.Inv free) (hb : s.storage.bit i = false) :
    s.markRemoved i = .error .panic := by
  cases hload : s.storage.loadBitmap (i / usizeBits) with
  | error e =>
    obtain rfl := s.storage.loadBitmap_eq_panic h.bitmap_length hload
    simp [markRemoved, hload]
  | ok mask =>
    have htest : (mask >>> (i % usizeBits)) &&& (1 : Word) = (0 : Word) := by
      rw [s.storage.test_eq_ite_bit hload, hb]
      rfl
    have hne : (0 : Word) ≠ (1 : Word) := (one_ne_zero_of_pos usizeBits_pos).symm
    simp only [markRemoved, hload, except_ok_bind, htest, if_pos hne, except_throw,
      except_error_bind]

/-- A mark clears one bit of the storage and changes nothing else of it. -/
theorem markRemoved_storage {c : Cslab α} (hok : s.markRemoved i = .ok c) :
    ∃ mask, s.storage.bitmap[i / usizeBits]? = some mask ∧ c.storage = { s.storage with
      bitmap := s.storage.bitmap.set (i / usizeBits)
        (mask &&& ~~~((1 : Word) <<< (i % usizeBits))) } := by
  obtain ⟨mask, hload, hrest⟩ := except_bind_eq_ok.mp hok
  refine ⟨mask, s.storage.loadBitmap_eq_ok.mp hload, ?_⟩
  split_ifs at hrest with htest
  · exact absurd hrest nofun
  · obtain ⟨inUse, -, hret⟩ := except_bind_eq_ok.mp hrest
    obtain rfl := Except.ok.inj hret
    rfl

/-- A mark that does not panic was on a live slot. The slot leaves the bitmap and becomes pending;
it is not on the free list yet, so no insertion can take it. -/
theorem Inv.of_markRemoved {c : Cslab α} (h : s.Inv free) (hok : s.markRemoved i = .ok c) :
    ∃ x, s.slot i = .live x ∧ c.Inv free ∧ c.slot = Function.update s.slot i (.pending x) ∧
      c.storage.size = s.storage.size := by
  cases hb : s.storage.bit i with
  | false =>
    rw [h.markRemoved_eq_panic hb] at hok
    simp at hok
  | true =>
    obtain ⟨x, hx⟩ := h.item_of_bit i hb
    have hlive := slot_eq_live.mpr ⟨hx, hb⟩
    obtain ⟨s', hs', hinv, hslot, hsize, -⟩ := h.markRemoved_eq_ok hlive
    rw [hs', Except.ok.injEq] at hok
    subst hok
    exact ⟨x, hlive, hinv, hslot, hsize⟩

/-- The slab after the item of slot `i` has been taken out. -/
def finalized (s : Cslab α) (i : Nat) : Cslab α :=
  { s with
    firstFree := i
    allocated := s.allocated - 1
    storage := { s.storage with
      table := s.storage.table.set i (.nextFree ((s.firstFree : Int) - i - 1)) } }

theorem finalized_getElem?_of_ne (s : Cslab α) {j : Nat} (hj : j ≠ i) :
    (s.finalized i).storage.table[j]? = s.storage.table[j]? :=
  List.getElem?_set_ne (Ne.symm hj)

theorem finalized_getElem?_self (hi : i < s.storage.table.length) :
    (s.finalized i).storage.table[i]? = some (.nextFree ((s.firstFree : Int) - i - 1)) :=
  List.getElem?_set_self hi

theorem finalized_slot (hi : i < s.storage.table.length) :
    (s.finalized i).slot = Function.update s.slot i .free := by
  funext j
  by_cases hj : j = i
  · subst hj
    rw [Function.update_self, slot, finalized_getElem?_self hi]
  · rw [Function.update_of_ne hj, slot, slot, finalized_getElem?_of_ne s hj]
    rfl

section

variable (h : s.Inv free) (hi : s.slot i = .pending x)
include h hi

theorem Inv.lt_table_length_of_pending : i < s.storage.table.length :=
  h.table_length ▸ h.lt_size_of_getElem? (slot_eq_pending.mp hi).1

theorem Inv.notMem_free_of_pending : i ∉ free := by
  rw [h.mem_free]
  rintro ⟨offset, hoffset⟩
  exact absurd ((slot_eq_pending.mp hi).1.symm.trans hoffset) (by simp)

theorem Inv.allocated_pos_of_pending : 1 ≤ s.allocated := by
  have hlen := h.length_free_lt (h.lt_size_of_getElem? (slot_eq_pending.mp hi).1)
    (h.notMem_free_of_pending hi)
  have hadd := h.allocated_add
  omega

theorem Inv.finalizeRemove_eq : s.finalizeRemove i = .ok (x, s.finalized i) := by
  obtain ⟨hx, hb⟩ := slot_eq_pending.mp hi
  have hlt := h.lt_size_of_getElem? hx
  obtain ⟨mask, hload, hmask⟩ := h.exists_mask hlt
  have hfirst := h.firstFree_le
  have hsize := h.size_le
  have htest : (mask >>> (i % usizeBits)) &&& (1 : Word) = (0 : Word) := by
    rw [s.storage.test_eq_ite_bit hload, hb]
    rfl
  have hsub1 : isizeSub (asIsize s.firstFree) (asIsize i) = .ok ((s.firstFree : Int) - i) := by
    rw [asIsize_of_le (by omega), asIsize_of_le (by omega)]
    exact isizeSub_eq_ok (isIsize_of_abs_le (by omega) (by omega))
  have hsub2 : isizeSub ((s.firstFree : Int) - i) 1 = .ok ((s.firstFree : Int) - i - 1) :=
    isizeSub_eq_ok (isIsize_of_abs_le (by omega) (by omega))
  simp only [finalizeRemove, hload, except_ok_bind, htest, ne_eq, not_true_eq_false, if_false,
    s.storage.readItem_eq_ok.mpr hx, hsub1, hsub2, usizeSub_eq_ok (h.allocated_pos_of_pending hi)]
  rfl

/-- The slot is put before the free list. Its entry gets the distance to the former front, so the
list is linked again in whatever order slots are finalized. -/
theorem Inv.finalized : (s.finalized i).Inv (i :: free) := by
  obtain ⟨-, hb⟩ := slot_eq_pending.mp hi
  have hnotin := h.notMem_free_of_pending hi
  have hself := finalized_getElem?_self (h.lt_table_length_of_pending hi)
  refine ⟨h.size_pos, h.size_le, ?_, h.bitmap_length, ?_, List.nodup_cons.mpr ⟨hnotin, h.nodup⟩,
    ?_, ?_, h.inUse_eq, ?_, h.frontier_le, ?_⟩
  · exact (List.length_set ..).trans h.table_length
  · have hlink : (s.finalized i).Link i s.firstFree := ⟨_, hself, by omega⟩
    refine .cons hlink (h.linked.frame fun j hj k hjk => ?_)
    obtain ⟨offset, hoffset, hk⟩ := hjk
    have hji : j ≠ i := fun hji => hnotin (hji ▸ hj)
    exact ⟨offset, by rw [finalized_getElem?_of_ne s hji, hoffset], hk⟩
  · intro j
    by_cases hj : j = i
    · subst hj
      simp [hself]
    · rw [List.mem_cons, or_iff_right hj, finalized_getElem?_of_ne s hj, h.mem_free]
  · intro j hj
    have hji : j ≠ i := by
      rintro rfl
      exact absurd (hb.symm.trans hj) (by simp)
    rw [finalized_getElem?_of_ne s hji]
    exact h.item_of_bit j hj
  · have hadd := h.allocated_add
    have hpos := h.allocated_pos_of_pending hi
    simp only [Cslab.finalized, List.length_cons]
    omega
  · intro j y hy
    by_cases hj : j = i
    · subst hj
      rw [hself] at hy
      simp at hy
    · rw [finalized_getElem?_of_ne s hj] at hy
      exact h.lt_frontier j y hy

/-- **Finalization.** A pending slot becomes free and the first of the free list; its item is
returned. The offset that is stored in its place leads to the slot that was the first before. -/
theorem Inv.finalizeRemove_eq_ok :
    ∃ s', s.finalizeRemove i = .ok (x, s') ∧ s'.Inv (i :: free) ∧
      s'.slot = Function.update s.slot i .free ∧ s'.storage.size = s.storage.size ∧
      s'.storage.frontier = s.storage.frontier ∧ s'.storage.bitmap = s.storage.bitmap ∧
      s'.inUse = s.inUse ∧ s'.allocated + 1 = s.allocated :=
  ⟨s.finalized i, h.finalizeRemove_eq hi, h.finalized hi,
    finalized_slot (h.lt_table_length_of_pending hi), rfl, rfl, rfl, rfl,
    Nat.sub_add_cancel (h.allocated_pos_of_pending hi)⟩

end

/-- A finalization that neither panics nor reads a free slot was on a pending slot. -/
theorem Inv.of_finalizeRemove {c : Cslab α} (h : s.Inv free)
    (hok : s.finalizeRemove i = .ok (x, c)) :
    s.slot i = .pending x ∧ c.Inv (i :: free) ∧ c.slot = Function.update s.slot i .free ∧
      c.storage.size = s.storage.size := by
  have hpending : s.slot i = .pending x := by
    obtain ⟨mask, hload, hrest⟩ := except_bind_eq_ok.mp hok
    have htest := s.storage.test_eq_ite_bit hload
    cases hb : s.storage.bit i with
    | true =>
      have hne : (mask >>> (i % usizeBits)) &&& (1 : Word) ≠ (0 : Word) := by
        rw [htest, hb]
        exact one_ne_zero_of_pos usizeBits_pos
      simp only [if_pos hne, except_throw, except_error_bind] at hrest
      exact absurd hrest nofun
    | false =>
      have heq : (mask >>> (i % usizeBits)) &&& (1 : Word) = (0 : Word) := by
        rw [htest, hb]
        rfl
      simp only [heq, ne_eq, not_true_eq_false, if_false, except_pure] at hrest
      obtain ⟨y, hread, -⟩ := except_bind_eq_ok.mp hrest
      have hpending := slot_eq_pending.mpr ⟨s.storage.readItem_eq_ok.mp hread, hb⟩
      obtain ⟨s', hs', -⟩ := h.finalizeRemove_eq_ok hpending
      rw [hs', Except.ok.injEq, Prod.mk.injEq] at hok
      rw [hpending, hok.1]
  obtain ⟨s', hs', hinv, hslot, hsize, -⟩ := h.finalizeRemove_eq_ok hpending
  rw [hs', Except.ok.injEq, Prod.mk.injEq] at hok
  obtain ⟨-, rfl⟩ := hok
  exact ⟨hpending, hinv, hslot, hsize⟩

end Cslab

end ZprUtils
