import Mathlib.Tactic.Common

/-!
# Bits packed into words

A list of words of width `w` stores bit `i` of a bitmap at position `i % w` of the word `i / w`.
Replacing one word by itself with one bit set or cleared changes exactly that bit of the bitmap.

## Main definitions

* `bitAt` — a bit of a packed bitmap.

## Main results

* `bitAt_set_or`, `bitAt_set_andNot` — setting and clearing one bit.
* `bitAt_ctz`, `bitAt_clz` — searching a word upwards and downwards from a position.
-/

namespace ZprUtils

variable {w : Nat}

/-- Bit `i` of the bitmap packed into the words `ws`. -/
def bitAt (ws : List (BitVec w)) (i : Nat) : Bool :=
  match ws[i / w]? with
  | some word => word.getLsbD (i % w)
  | none => false

theorem bitAt_eq_getLsbD {ws : List (BitVec w)} {i : Nat} {word : BitVec w}
    (h : ws[i / w]? = some word) : bitAt ws i = word.getLsbD (i % w) := by
  simp only [bitAt, h]

theorem getElem?_of_bitAt {ws : List (BitVec w)} {i : Nat} (h : bitAt ws i = true) :
    ∃ word, ws[i / w]? = some word ∧ word.getLsbD (i % w) = true := by
  simp only [bitAt] at h
  split at h
  · exact ⟨_, by assumption, h⟩
  · exact absurd h (by simp)

theorem bitAt_replicate_zero (n i : Nat) : bitAt (List.replicate n (0#w)) i = false := by
  simp only [bitAt, List.getElem?_replicate]
  split_ifs with h
  · simp
  · rfl

/-- The test of one bit by shifting it to position zero. -/
theorem ushiftRight_and_one (x : BitVec w) (k : Nat) :
    (x >>> k) &&& 1#w = if x.getLsbD k then 1#w else 0#w := by
  refine BitVec.eq_of_getLsbD_eq fun i hi => ?_
  rw [BitVec.getLsbD_and, BitVec.getLsbD_ushiftRight, BitVec.getLsbD_one]
  by_cases hi0 : i = 0
  · subst hi0
    split_ifs with h <;> simp [h, hi]
  · split_ifs <;> simp [hi0]

theorem one_ne_zero_of_pos (hw : 0 < w) : (1#w) ≠ 0#w := by
  intro h
  have hbit := congrArg (fun x => BitVec.getLsbD x 0) h
  simp [hw] at hbit

private theorem mod_ne_of_div_eq {i j : Nat} (hij : j ≠ i) (hdiv : j / w = i / w) :
    j % w ≠ i % w := by
  intro hmod
  exact hij (by rw [← Nat.div_add_mod j w, ← Nat.div_add_mod i w, hdiv, hmod])

/-- Setting bit `i` of its word sets bit `i` of the bitmap and no other. -/
theorem bitAt_set_or (hw : 0 < w) {ws : List (BitVec w)} {i : Nat} {word : BitVec w}
    (h : ws[i / w]? = some word) (j : Nat) :
    bitAt (ws.set (i / w) (word ||| 1#w <<< (i % w))) j = (decide (j = i) || bitAt ws j) := by
  obtain ⟨hlt, -⟩ := List.getElem?_eq_some_iff.mp h
  by_cases hdiv : j / w = i / w
  · have hset : (ws.set (i / w) (word ||| 1#w <<< (i % w)))[j / w]? =
        some (word ||| 1#w <<< (i % w)) := by
      rw [hdiv, List.getElem?_set_self hlt]
    rw [bitAt_eq_getLsbD hset, bitAt_eq_getLsbD (hdiv ▸ h), BitVec.getLsbD_or,
      ← BitVec.twoPow_eq, BitVec.getLsbD_twoPow]
    by_cases hij : j = i
    · subst hij
      simp [Nat.mod_lt j hw]
    · simp [hij, (mod_ne_of_div_eq hij hdiv).symm]
  · have hij : j ≠ i := fun hji => hdiv (by rw [hji])
    simp only [bitAt, List.getElem?_set_ne (Ne.symm hdiv), hij, decide_false, Bool.false_or]

/-- Clearing bit `i` of its word clears bit `i` of the bitmap and no other. -/
theorem bitAt_set_andNot (hw : 0 < w) {ws : List (BitVec w)} {i : Nat} {word : BitVec w}
    (h : ws[i / w]? = some word) (j : Nat) :
    bitAt (ws.set (i / w) (word &&& ~~~(1#w <<< (i % w)))) j = (decide (j ≠ i) && bitAt ws j) := by
  obtain ⟨hlt, -⟩ := List.getElem?_eq_some_iff.mp h
  by_cases hdiv : j / w = i / w
  · have hset : (ws.set (i / w) (word &&& ~~~(1#w <<< (i % w))))[j / w]? =
        some (word &&& ~~~(1#w <<< (i % w))) := by
      rw [hdiv, List.getElem?_set_self hlt]
    rw [bitAt_eq_getLsbD hset, bitAt_eq_getLsbD (hdiv ▸ h), BitVec.getLsbD_and,
      BitVec.getLsbD_not, ← BitVec.twoPow_eq, BitVec.getLsbD_twoPow]
    by_cases hij : j = i
    · subst hij
      simp [Nat.mod_lt j hw]
    · simp [hij, (mod_ne_of_div_eq hij hdiv).symm, Nat.mod_lt j hw, Bool.and_comm]
  · have hij : j ≠ i := fun hji => hdiv (by rw [hji])
    simp only [bitAt, List.getElem?_set_ne (Ne.symm hdiv), hij, ne_eq, not_false_eq_true,
      decide_true, Bool.true_and]

/-! ### Searching a word -/

/-- A bit in the same word as bit `i`. -/
theorem bitAt_of_same_word {ws : List (BitVec w)} {i j r : Nat} {word : BitVec w}
    (h : ws[i / w]? = some word) (hr : r < w) (hj : j = w * (i / w) + r) :
    bitAt ws j = word.getLsbD r := by
  have hw : 0 < w := by omega
  have hdiv : j / w = i / w := by
    rw [hj, Nat.mul_add_div hw, Nat.div_eq_of_lt hr, Nat.add_zero]
  have hmod : j % w = r := by rw [hj, Nat.mul_add_mod, Nat.mod_eq_of_lt hr]
  rw [bitAt_eq_getLsbD (hdiv ▸ h), hmod]

theorem bitAt_add {ws : List (BitVec w)} {i : Nat} {word : BitVec w} (h : ws[i / w]? = some word)
    {k : Nat} (hk : i % w + k < w) : bitAt ws (i + k) = (word >>> (i % w)).getLsbD k := by
  have hsplit := Nat.div_add_mod i w
  rw [bitAt_of_same_word h hk (by omega), BitVec.getLsbD_ushiftRight]

theorem bitAt_sub {ws : List (BitVec w)} {i : Nat} {word : BitVec w} (hw : 0 < w)
    (h : ws[i / w]? = some word) {k : Nat} (hk : k ≤ i % w) :
    bitAt ws (i - k) = (word <<< (w - (i % w + 1))).getLsbD (w - 1 - k) := by
  have hlt := Nat.mod_lt i hw
  have hsplit := Nat.div_add_mod i w
  rw [bitAt_of_same_word h (show i % w - k < w by omega) (by omega), BitVec.getLsbD_shiftLeft,
    show w - 1 - k - (w - (i % w + 1)) = i % w - k by omega]
  simp [show w - 1 - k < w by omega, show ¬w - 1 - k < w - (i % w + 1) by omega]

/-- The lowest set bit of the shifted word is the first set bit of the bitmap from `i` on. -/
theorem bitAt_ctz {ws : List (BitVec w)} {i : Nat} {word : BitVec w} (h : ws[i / w]? = some word)
    (hne : word >>> (i % w) ≠ 0#w) :
    bitAt ws (i + (word >>> (i % w)).ctz.toNat) = true ∧
      ∀ k < (word >>> (i % w)).ctz.toNat, bitAt ws (i + k) = false := by
  have htrue := BitVec.getLsbD_true_ctz_of_ne_zero hne
  have hlt : i % w + (word >>> (i % w)).ctz.toNat < w := by
    rw [BitVec.getLsbD_ushiftRight] at htrue
    exact BitVec.lt_of_getLsbD htrue
  refine ⟨by rw [bitAt_add h hlt, htrue], fun k hk => ?_⟩
  rw [bitAt_add h (by omega), BitVec.getLsbD_false_of_lt_ctz hk]

/-- The highest set bit of the shifted word is the last set bit of the bitmap up to `i`. -/
theorem bitAt_clz {ws : List (BitVec w)} {i : Nat} {word : BitVec w} (hw : 0 < w)
    (h : ws[i / w]? = some word) (hne : word <<< (w - (i % w + 1)) ≠ 0#w) :
    (word <<< (w - (i % w + 1))).clz.toNat ≤ i ∧
      bitAt ws (i - (word <<< (w - (i % w + 1))).clz.toNat) = true ∧
      ∀ k < (word <<< (w - (i % w + 1))).clz.toNat, bitAt ws (i - k) = false := by
  set bme := word <<< (w - (i % w + 1)) with hbme
  have hmod := Nat.mod_lt i hw
  have hmsb : ∀ k < w, bme.reverse.getLsbD k = bme.getLsbD (w - 1 - k) := by
    intro k hk
    rw [BitVec.getLsbD_reverse, BitVec.getMsbD_eq_getLsbD]
    simp [hk]
  have htrue : bme.reverse.getLsbD bme.clz.toNat = true := by
    rw [BitVec.clz_eq_reverse_ctz]
    exact BitVec.getLsbD_true_ctz_of_ne_zero (by rwa [ne_eq, BitVec.reverse_eq_zero_iff])
  have hlt : bme.clz.toNat < w := BitVec.lt_of_getLsbD htrue
  rw [hmsb _ hlt] at htrue
  -- a set bit of the word cannot have been shifted in from below
  have hle : bme.clz.toNat ≤ i % w := by
    have hpos := htrue
    rw [hbme, BitVec.getLsbD_shiftLeft, ← hbme] at hpos
    simp only [Bool.and_eq_true, Bool.not_eq_true', decide_eq_false_iff_not] at hpos
    omega
  refine ⟨Nat.le_trans hle (Nat.mod_le i w), by rw [bitAt_sub hw h hle, htrue], fun k hk => ?_⟩
  rw [bitAt_sub hw h (by omega), ← hbme, ← hmsb k (by omega)]
  rw [BitVec.clz_eq_reverse_ctz] at hk
  exact BitVec.getLsbD_false_of_lt_ctz hk

end ZprUtils
