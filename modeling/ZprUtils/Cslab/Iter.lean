import ZprUtils.Cslab.Operations

/-!
# Iteration over the bitmap

An iterator is a range of indices still to be visited, and it shrinks from both ends. It skips the
absent indices of a bitmap word at once: one round of its loop loads one word and either finds an
item, or exhausts the range, or moves to the next word.

## Main definitions

* `Iter`, `Iter.nextRound`, `Iter.nextBackRound` — the range and one round of either loop.
* `Iter.next`, `Iter.nextBack` — the loops on a storage that does not change.
* `Iter.forEach` — forward iteration to the end.

## Main results

* `Cslab.Inv.next_eq`, `Cslab.Inv.nextBack_eq` — the first and last visible item of the range.
* `Cslab.Inv.forEach_eq` — all visible items of the range, in increasing order.
-/

namespace ZprUtils

variable {α : Type}

/-- The range of indices still to be visited, from `head` (inclusive) to `tail` (exclusive). -/
@[ext] structure Iter where
  head : Nat
  tail : Nat
  head_le : head ≤ tail
  deriving DecidableEq, Repr

/-- The outcome of one round of the search loop. -/
inductive Round where
  | done (it : Iter)
  | found (idx : Nat) (it : Iter)
  | more (it : Iter)
  deriving DecidableEq, Repr

namespace Iter

/-- An iterator over the slots below the frontier, which is loaded once. -/
def new (storage : CslabStorage α) : Iter := ⟨0, storage.frontier, Nat.zero_le _⟩

/-- One round of the loop of `next`, on the bitmap word of `head`. -/
def nextRound (it : Iter) (word : Word) : Round :=
  let bme := word >>> (it.head % usizeBits)
  -- distance from head to the next item, or the next bitmap entry
  let d := if bme = 0 then usizeBits - it.head % usizeBits else bme.ctz.toNat
  if hd : d ≥ it.tail - it.head then .done ⟨it.tail, it.tail, le_rfl⟩
  else if bme = 0 then .more ⟨it.head + d, it.tail, by omega⟩
  else .found (it.head + d) ⟨it.head + d + 1, it.tail, by omega⟩

/-- One round of the loop of `next_back`, on the bitmap word of the last index. -/
def nextBackRound (it : Iter) (word : Word) : Round :=
  let bme := word <<< (usizeBits - ((it.tail - 1) % usizeBits + 1))
  -- distance from tail to the previous item, or the previous bitmap entry
  let d := if bme = 0 then (it.tail - 1) % usizeBits + 1 else bme.clz.toNat
  if hd : d ≥ it.tail - it.head then .done ⟨it.head, it.head, le_rfl⟩
  else if bme = 0 then .more ⟨it.head, it.tail - d, by omega⟩
  else .found (it.tail - d - 1) ⟨it.head, it.tail - d - 1, by omega⟩

/-- The loop of `next`. A round that goes on shortens the range, so its length bounds the rounds. -/
def nextLoop (storage : CslabStorage α) : Nat → Iter → Except RustFault (Option (Nat × α) × Iter)
  | 0, it => .ok (none, it)
  | fuel + 1, it => do
    let word ← storage.loadBitmap (it.head / usizeBits)
    match it.nextRound word with
    | .done it' => return (none, it')
    | .found idx it' => return (some (idx, ← storage.getUncheckedImpl idx), it')
    | .more it' => nextLoop storage fuel it'

/-- The next item from the front, with its index. -/
def next (it : Iter) (storage : CslabStorage α) : Except RustFault (Option (Nat × α) × Iter) :=
  if it.head ≥ it.tail then .ok (none, it) else nextLoop storage (it.tail - it.head) it

/-- The loop of `next_back`. -/
def nextBackLoop (storage : CslabStorage α) :
    Nat → Iter → Except RustFault (Option (Nat × α) × Iter)
  | 0, it => .ok (none, it)
  | fuel + 1, it => do
    let word ← storage.loadBitmap ((it.tail - 1) / usizeBits)
    match it.nextBackRound word with
    | .done it' => return (none, it')
    | .found idx it' => return (some (idx, ← storage.getUncheckedImpl idx), it')
    | .more it' => nextBackLoop storage fuel it'

/-- The next item from the back, with its index. -/
def nextBack (it : Iter) (storage : CslabStorage α) : Except RustFault (Option (Nat × α) × Iter) :=
  if it.tail ≤ it.head then .ok (none, it) else nextBackLoop storage (it.tail - it.head) it

/-- Forward iteration to the end; every item shortens the range. -/
def forEach (storage : CslabStorage α) : Nat → Iter → Except RustFault (List (Nat × α))
  | 0, _ => .ok []
  | fuel + 1, it => do
    match ← it.next storage with
    | (none, _) => return []
    | (some p, it') => return p :: (← forEach storage fuel it')

/-- The items an iterator over the storage yields. -/
def items (storage : CslabStorage α) : Except RustFault (List (Nat × α)) :=
  forEach storage (storage.frontier + 1) (new storage)

end Iter

/-! ### One round -/

/-- What one round of `next` finds out about the bits from `head` on: the first one that is set in
the word of `head`, or that there is none up to the end of this word. -/
theorem Iter.nextRound_spec {ws : List Word} {it : Iter} {word : Word}
    (hword : ws[it.head / usizeBits]? = some word) (hlt : it.head < it.tail) :
    match it.nextRound word with
    | .done it' => it' = ⟨it.tail, it.tail, le_rfl⟩ ∧
        ∀ i, it.head ≤ i → i < it.tail → bitAt ws i = false
    | .found idx it' => it.head ≤ idx ∧ idx < it.tail ∧ bitAt ws idx = true ∧
        (∀ i, it.head ≤ i → i < idx → bitAt ws i = false) ∧ it'.head = idx + 1 ∧ it'.tail = it.tail
    | .more it' => it.head < it'.head ∧ it'.head < it'.tail ∧ it'.tail = it.tail ∧
        ∀ i, it.head ≤ i → i < it'.head → bitAt ws i = false := by
  have hmod := Nat.mod_lt it.head usizeBits_pos
  by_cases hzero : word >>> (it.head % usizeBits) = 0
  · have hfalse : ∀ i, it.head ≤ i → i < it.head + (usizeBits - it.head % usizeBits) →
        bitAt ws i = false := by
      intro i hle hi
      obtain ⟨k, rfl⟩ := Nat.exists_eq_add_of_le hle
      rw [bitAt_add hword (by omega), hzero]
      exact BitVec.getLsbD_zero
    simp only [nextRound, hzero, if_true]
    split_ifs with hd
    · exact ⟨rfl, fun i hle hi => hfalse i hle (by omega)⟩
    · exact ⟨by simp only; omega, by simp only; omega, rfl, hfalse⟩
  · obtain ⟨htrue, hbelow⟩ := bitAt_ctz hword hzero
    simp only [nextRound, if_neg hzero]
    split_ifs with hd
    · refine ⟨rfl, fun i hle hi => ?_⟩
      obtain ⟨k, rfl⟩ := Nat.exists_eq_add_of_le hle
      exact hbelow k (by omega)
    · refine ⟨Nat.le_add_right _ _, by omega, htrue, fun i hle hi => ?_, rfl, rfl⟩
      obtain ⟨k, rfl⟩ := Nat.exists_eq_add_of_le hle
      exact hbelow k (by omega)

/-- What one round of `next_back` finds out about the bits below `tail`: the last one that is set in
the word before `tail`, or that there is none down to the start of this word. -/
theorem Iter.nextBackRound_spec {ws : List Word} {it : Iter} {word : Word}
    (hword : ws[(it.tail - 1) / usizeBits]? = some word) (hlt : it.head < it.tail) :
    match it.nextBackRound word with
    | .done it' => it' = ⟨it.head, it.head, le_rfl⟩ ∧
        ∀ i, it.head ≤ i → i < it.tail → bitAt ws i = false
    | .found idx it' => it.head ≤ idx ∧ idx < it.tail ∧ bitAt ws idx = true ∧
        (∀ i, idx < i → i < it.tail → bitAt ws i = false) ∧ it'.head = it.head ∧ it'.tail = idx
    | .more it' => it'.head = it.head ∧ it'.head < it'.tail ∧ it'.tail < it.tail ∧
        ∀ i, it'.tail ≤ i → i < it.tail → bitAt ws i = false := by
  have hmod := Nat.mod_lt (it.tail - 1) usizeBits_pos
  have hmodle := Nat.mod_le (it.tail - 1) usizeBits
  by_cases hzero : word <<< (usizeBits - ((it.tail - 1) % usizeBits + 1)) = 0
  · have hfalse : ∀ i, it.tail - ((it.tail - 1) % usizeBits + 1) ≤ i → i < it.tail →
        bitAt ws i = false := by
      intro i hle hi
      have hsub := bitAt_sub usizeBits_pos hword (k := it.tail - 1 - i) (by omega)
      rw [show it.tail - 1 - (it.tail - 1 - i) = i by omega, hzero] at hsub
      exact hsub.trans BitVec.getLsbD_zero
    simp only [nextBackRound, hzero, if_true]
    split_ifs with hd
    · exact ⟨rfl, fun i hle hi => hfalse i (by omega) hi⟩
    · exact ⟨rfl, by simp only; omega, by simp only; omega, hfalse⟩
  · obtain ⟨hle, htrue, habove⟩ := bitAt_clz usizeBits_pos hword hzero
    have hfalse : ∀ i,
        it.tail - 1 - (word <<< (usizeBits - ((it.tail - 1) % usizeBits + 1))).clz.toNat < i →
        i < it.tail → bitAt ws i = false := by
      intro i hi hi'
      have hk := habove (it.tail - 1 - i) (by omega)
      rwa [show it.tail - 1 - (it.tail - 1 - i) = i by omega] at hk
    simp only [nextBackRound, if_neg hzero]
    split_ifs with hd
    · exact ⟨rfl, fun i hi hi' => hfalse i (by omega) hi'⟩
    · rw [Nat.sub_right_comm] at htrue
      refine ⟨by omega, by omega, htrue, fun i hi hi' => hfalse i (by omega) hi', rfl, rfl⟩

/-! ### The loops -/

/-- No index from `lo` up to `hi` is present. -/
def CslabStorage.AbsentIn (storage : CslabStorage α) (lo hi : Nat) : Prop :=
  ∀ i, lo ≤ i → i < hi → storage.bit i = false

theorem CslabStorage.AbsentIn.append {storage : CslabStorage α} {lo mid hi : Nat}
    (h : storage.AbsentIn lo mid) (h' : storage.AbsentIn mid hi) : storage.AbsentIn lo hi := by
  intro i hlo hhi
  rcases Nat.lt_or_ge i mid with hi | hi
  · exact h i hlo hi
  · exact h' i hi hhi

/-- A range of indices split at one of them. -/
theorem range'_split {lo hi i : Nat} (hlo : lo ≤ i) (hhi : i < hi) :
    List.range' lo (hi - lo) =
      List.range' lo (i - lo) ++ i :: List.range' (i + 1) (hi - (i + 1)) := by
  rw [← List.range'_succ, show hi - (i + 1) + 1 = hi - i by omega]
  have happend := List.range'_append_1 (s := lo) (m := i - lo) (n := hi - i)
  rw [Nat.add_sub_cancel' hlo, show i - lo + (hi - i) = hi - lo by omega] at happend
  exact happend.symm

theorem CslabStorage.AbsentIn.filter_range' {storage : CslabStorage α} {lo hi : Nat}
    (h : storage.AbsentIn lo hi) :
    (List.range' lo (hi - lo)).filter (fun i => storage.bit i) = [] := by
  rw [List.filter_eq_nil_iff]
  intro j hj
  obtain ⟨hj₁, hj₂⟩ := List.mem_range'_1.mp hj
  rw [h j hj₁ (by omega)]
  exact Bool.false_ne_true

namespace Cslab.Inv

variable {s : Cslab α} {free : List Nat} (h : s.Inv free)
include h

theorem getUncheckedImpl_of_bit {i : Nat} (hb : s.storage.bit i = true) :
    ∃ x, s.slot i = .live x ∧ s.storage.getUncheckedImpl i = .ok x := by
  obtain ⟨x, hx⟩ := h.item_of_bit i hb
  exact ⟨x, slot_eq_live.mpr ⟨hx, hb⟩, s.storage.readItem_eq_ok.mpr hx⟩

private theorem nextLoop_eq (fuel : Nat) (it : Iter) (hlt : it.head < it.tail)
    (hfuel : it.tail - it.head ≤ fuel) (htail : it.tail ≤ s.storage.size) :
    (it.nextLoop s.storage fuel = .ok (none, ⟨it.tail, it.tail, le_rfl⟩) ∧
        s.storage.AbsentIn it.head it.tail) ∨
      ∃ i x it', it.nextLoop s.storage fuel = .ok (some (i, x), it') ∧ s.slot i = .live x ∧
        it.head ≤ i ∧ i < it.tail ∧ s.storage.AbsentIn it.head i ∧
        it'.head = i + 1 ∧ it'.tail = it.tail := by
  induction fuel generalizing it with
  | zero => omega
  | succ fuel ih =>
    obtain ⟨word, hload, hword⟩ := h.exists_mask (hlt.trans_le htail)
    have hround := Iter.nextRound_spec hword hlt
    simp only [Iter.nextLoop, hload, except_ok_bind]
    cases hr : it.nextRound word with
    | done it' =>
      simp only [hr] at hround
      obtain ⟨rfl, habsent⟩ := hround
      exact Or.inl ⟨rfl, habsent⟩
    | found i it' =>
      simp only [hr] at hround
      obtain ⟨hle, hi, hb, habsent, hhead, htail'⟩ := hround
      obtain ⟨x, hslot, hx⟩ := h.getUncheckedImpl_of_bit hb
      refine Or.inr ⟨i, x, it', ?_, hslot, hle, hi, habsent, hhead, htail'⟩
      simp only [hx, except_ok_bind, except_pure]
    | more it' =>
      simp only [hr] at hround
      obtain ⟨hhead, hlt', htail', habsent⟩ := hround
      have habsent' : s.storage.AbsentIn it.head it'.head := habsent
      rcases ih it' hlt' (by omega) (by omega) with ⟨hok, hrest⟩ | ⟨i, x, it'', hok, hslot, hi⟩
      · refine Or.inl ⟨?_, habsent'.append (htail' ▸ hrest)⟩
        simp only [hok, htail']
      · obtain ⟨hle, hi, hrest, hhead', htail''⟩ := hi
        exact Or.inr ⟨i, x, it'', hok, hslot, by omega, by omega, habsent'.append hrest, hhead',
          htail''.trans htail'⟩

/-- **`next`** finds the first visible item of the range, and leaves the range behind it; if there
is none, the range is empty afterwards. By induction on the rounds of its loop: a round without a
result has seen a whole rest of a bitmap word without a set bit. -/
theorem next_eq (it : Iter) (htail : it.tail ≤ s.storage.size) :
    (it.next s.storage = .ok (none, ⟨it.tail, it.tail, le_rfl⟩) ∧
        s.storage.AbsentIn it.head it.tail) ∨
      ∃ i x it', it.next s.storage = .ok (some (i, x), it') ∧ s.slot i = .live x ∧
        it.head ≤ i ∧ i < it.tail ∧ s.storage.AbsentIn it.head i ∧
        it'.head = i + 1 ∧ it'.tail = it.tail := by
  rw [Iter.next]
  split_ifs with hge
  · have heq : it.head = it.tail := le_antisymm it.head_le hge
    refine Or.inl ⟨?_, fun i hle hi => by omega⟩
    congr 2
    exact Iter.ext heq rfl
  · exact h.nextLoop_eq _ it (Nat.not_le.mp hge) le_rfl htail

private theorem nextBackLoop_eq (fuel : Nat) (it : Iter) (hlt : it.head < it.tail)
    (hfuel : it.tail - it.head ≤ fuel) (htail : it.tail ≤ s.storage.size) :
    (it.nextBackLoop s.storage fuel = .ok (none, ⟨it.head, it.head, le_rfl⟩) ∧
        s.storage.AbsentIn it.head it.tail) ∨
      ∃ i x it', it.nextBackLoop s.storage fuel = .ok (some (i, x), it') ∧ s.slot i = .live x ∧
        it.head ≤ i ∧ i < it.tail ∧ s.storage.AbsentIn (i + 1) it.tail ∧
        it'.head = it.head ∧ it'.tail = i := by
  induction fuel generalizing it with
  | zero => omega
  | succ fuel ih =>
    obtain ⟨word, hload, hword⟩ := h.exists_mask (show it.tail - 1 < s.storage.size by omega)
    have hround := Iter.nextBackRound_spec hword hlt
    simp only [Iter.nextBackLoop, hload, except_ok_bind]
    cases hr : it.nextBackRound word with
    | done it' =>
      simp only [hr] at hround
      obtain ⟨rfl, habsent⟩ := hround
      exact Or.inl ⟨rfl, habsent⟩
    | found i it' =>
      simp only [hr] at hround
      obtain ⟨hle, hi, hb, habsent, hhead, htail'⟩ := hround
      obtain ⟨x, hslot, hx⟩ := h.getUncheckedImpl_of_bit hb
      refine Or.inr ⟨i, x, it', ?_, hslot, hle, hi, habsent, hhead, htail'⟩
      simp only [hx, except_ok_bind, except_pure]
    | more it' =>
      simp only [hr] at hround
      obtain ⟨hhead, hlt', htail', habsent⟩ := hround
      have habsent' : s.storage.AbsentIn it'.tail it.tail := habsent
      rcases ih it' hlt' (by omega) (by omega) with ⟨hok, hrest⟩ | ⟨i, x, it'', hok, hslot, hi⟩
      · refine Or.inl ⟨?_, (hhead ▸ hrest).append habsent'⟩
        simp only [hok, hhead]
      · obtain ⟨hle, hi, hrest, hhead', htail''⟩ := hi
        exact Or.inr ⟨i, x, it'', hok, hslot, by omega, by omega, hrest.append habsent',
          hhead'.trans hhead, htail''⟩

/-- **`next_back`** finds the last visible item of the range, and leaves the range before it; if
there is none, the range is empty afterwards. It is `next` seen from the other end, with the leading
instead of the trailing zeros of the words. -/
theorem nextBack_eq (it : Iter) (htail : it.tail ≤ s.storage.size) :
    (it.nextBack s.storage = .ok (none, ⟨it.head, it.head, le_rfl⟩) ∧
        s.storage.AbsentIn it.head it.tail) ∨
      ∃ i x it', it.nextBack s.storage = .ok (some (i, x), it') ∧ s.slot i = .live x ∧
        it.head ≤ i ∧ i < it.tail ∧ s.storage.AbsentIn (i + 1) it.tail ∧
        it'.head = it.head ∧ it'.tail = i := by
  rw [Iter.nextBack]
  split_ifs with hge
  · have heq : it.head = it.tail := le_antisymm it.head_le hge
    refine Or.inl ⟨?_, fun i hle hi => by omega⟩
    congr 2
    exact Iter.ext rfl heq.symm
  · exact h.nextBackLoop_eq _ it (Nat.not_le.mp hge) le_rfl htail

/-- **Forward iteration** yields the visible items of the range, in increasing order, each with the
item of its slot. By induction on the length of the range, which every item makes shorter. -/
theorem forEach_eq (fuel : Nat) (it : Iter) (hfuel : it.tail - it.head < fuel)
    (htail : it.tail ≤ s.storage.size) :
    ∃ l, it.forEach s.storage fuel = .ok l ∧
      l.map Prod.fst =
        (List.range' it.head (it.tail - it.head)).filter (fun i => s.storage.bit i) ∧
      ∀ p ∈ l, s.slot p.1 = .live p.2 := by
  induction fuel generalizing it with
  | zero => omega
  | succ fuel ih =>
    rcases h.next_eq it htail with ⟨hok, habsent⟩
      | ⟨i, x, it', hok, hslot, hle, hi, habsent, hh, ht⟩
    · refine ⟨[], by simp only [Iter.forEach, hok, except_ok_bind, except_pure], ?_, by simp⟩
      rw [List.map_nil, habsent.filter_range']
    · obtain ⟨l, hl, hmap, hmem⟩ := ih it' (by omega) (by omega)
      refine ⟨(i, x) :: l, by simp only [Iter.forEach, hok, except_ok_bind, hl, except_pure],
        ?_, ?_⟩
      · rw [range'_split hle hi, List.filter_append, habsent.filter_range', List.nil_append,
          List.filter_cons_of_pos (slot_eq_live.mp hslot).2, List.map_cons, hmap, hh, ht]
      · intro p hp
        rcases List.mem_cons.mp hp with rfl | hp
        · exact hslot
        · exact hmem p hp

/-- An iterator over the storage yields every visible item once. -/
theorem items_eq : ∃ l, Iter.items s.storage = .ok l ∧ (l.map Prod.fst).Nodup ∧
    ∀ p, p ∈ l ↔ s.slot p.1 = .live p.2 := by
  obtain ⟨l, hl, hmap, hmem⟩ := h.forEach_eq (s.storage.frontier + 1) (Iter.new s.storage)
    (by simp [Iter.new]) h.frontier_le
  have hnodup : (l.map Prod.fst).Nodup := by
    rw [hmap]
    exact List.Nodup.filter _ (List.nodup_range' 1)
  refine ⟨l, hl, hnodup, fun p => ⟨hmem p, fun hp => ?_⟩⟩
  obtain ⟨hx, hb⟩ := slot_eq_live.mp hp
  have hfst : p.1 ∈ l.map Prod.fst := by
    rw [hmap, List.mem_filter, List.mem_range'_1]
    exact ⟨⟨Nat.zero_le _, by simpa [Iter.new] using h.lt_frontier _ _ hx⟩, hb⟩
  obtain ⟨q, hq, hqp⟩ := List.mem_map.mp hfst
  have hlive := hmem q hq
  rw [hqp, hp, Slot.live.injEq] at hlive
  rwa [show p = q from Prod.ext hqp.symm hlive]

end Cslab.Inv

end ZprUtils
