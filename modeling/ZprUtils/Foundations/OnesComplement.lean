import Mathlib.Data.Nat.ModEq
import Mathlib.Tactic.Ring

/-!
# One's-complement sums

Sums of words below a base `b` in which the carry out of the highest digit is added at the lowest
one. The all-ones word `b - 1` and `0` both stand for zero: a sum is determined by its residue
modulo `b - 1` and by whether it is zero. So words can be added one by one with an end-around carry
(`addCarry`), or exactly and folded once at the end (`foldCarry`), with the same result.

## Main definitions

* `addCarry` — the addition of two words with an end-around carry.
* `foldCarry` — the carries of an exact sum folded into one word.
* `beWords` — the big-endian 16-bit words of a string of bytes.

## Main results

* `foldCarry_eq_iff` — the folded sum, by its residue.
* `foldl_addCarry` — adding words one by one gives the folded exact sum.
* `foldCarry_eq_pred_iff`, `foldCarry_add_eq_pred_iff` — the sums that fold to the all-ones word.
* `sum_beWords_set` — the sum of the words when one byte changes.
-/

namespace ZprUtils

variable {b : Nat}

/-- The sum of two words with an end-around carry. -/
def addCarry (b x y : Nat) : Nat := (x + y) % b + (x + y) / b

/-- The sum of the digits is smaller than a number of several digits. -/
theorem mod_add_div_lt {s : Nat} (hb : 2 ≤ b) (hs : b ≤ s) : s % b + s / b < s := by
  have hdiv : 1 ≤ s / b := (Nat.one_le_div_iff (by omega)).mpr hs
  have hmul : 2 * (s / b) ≤ b * (s / b) := Nat.mul_le_mul_right _ hb
  have hsum := Nat.mod_add_div s b
  omega

/-- The carries of an exact sum are added to its lowest digit until one word is left. -/
def foldCarry (b s : Nat) : Nat :=
  if 2 ≤ b ∧ b ≤ s then foldCarry b (s % b + s / b) else s
termination_by s
decreasing_by
  rename_i h
  exact mod_add_div_lt h.1 h.2

theorem mod_add_div_modEq (s : Nat) (hb : 1 ≤ b) : s % b + s / b ≡ s [MOD b - 1] := by
  have hdiv : s / b ≡ b * (s / b) [MOD b - 1] := by
    have hone : 1 ≡ b [MOD b - 1] := (Nat.modEq_iff_dvd' hb).mpr dvd_rfl
    simpa using hone.mul_right (s / b)
  calc s % b + s / b ≡ s % b + b * (s / b) [MOD b - 1] := hdiv.add_left _
    _ = s := Nat.mod_add_div s b

theorem mod_add_div_eq_zero_iff {s : Nat} : s % b + s / b = 0 ↔ s = 0 := by
  constructor
  · intro h
    have hsum := Nat.mod_add_div s b
    obtain ⟨hmod, hdiv⟩ := Nat.add_eq_zero_iff.mp h
    rw [hmod, hdiv] at hsum
    simpa using hsum.symm
  · rintro rfl
    simp

section

variable (hb : 2 ≤ b) (s : Nat)
include hb

theorem foldCarry_lt : foldCarry b s < b := by
  induction s using Nat.strong_induction_on with
  | _ s ih =>
    rw [foldCarry]
    split
    · next h => exact ih _ (mod_add_div_lt h.1 h.2)
    · omega

theorem foldCarry_modEq : foldCarry b s ≡ s [MOD b - 1] := by
  induction s using Nat.strong_induction_on with
  | _ s ih =>
    rw [foldCarry]
    split
    · next h => exact (ih _ (mod_add_div_lt h.1 h.2)).trans (mod_add_div_modEq s (by omega))
    · rfl

end

theorem foldCarry_eq_zero_iff (s : Nat) : foldCarry b s = 0 ↔ s = 0 := by
  induction s using Nat.strong_induction_on with
  | _ s ih =>
    rw [foldCarry]
    split
    · next h => exact (ih _ (mod_add_div_lt h.1 h.2)).trans mod_add_div_eq_zero_iff
    · rfl

/-- Two positive words with the same residue are equal. Zero and the all-ones word have the same
residue, which is the double zero of the arithmetic. -/
theorem eq_of_modEq_pred {x y : Nat} (hx : x < b) (hy : y < b) (h : x ≡ y [MOD b - 1])
    (hzero : x = 0 ↔ y = 0) : x = y := by
  by_cases hx₀ : x = 0
  · rw [hx₀, hzero.mp hx₀]
  · have hy₀ : y ≠ 0 := fun hy₀ => hx₀ (hzero.mpr hy₀)
    have hpred : x - 1 ≡ y - 1 [MOD b - 1] := by
      refine Nat.ModEq.add_right_cancel' 1 ?_
      rwa [Nat.sub_add_cancel (by omega), Nat.sub_add_cancel (by omega)]
    have heq := hpred.eq_of_lt_of_lt (by omega) (by omega)
    omega

/-- **The folded sum** is the word with the residue of the sum that is zero exactly when the sum is.
In one's-complement arithmetic zero has two words, and a sum of words that are not all zero folds to
the one with all bits set. -/
theorem foldCarry_eq_iff (hb : 2 ≤ b) {r s : Nat} :
    foldCarry b s = r ↔ r < b ∧ r ≡ s [MOD b - 1] ∧ (r = 0 ↔ s = 0) := by
  constructor
  · rintro rfl
    exact ⟨foldCarry_lt hb s, foldCarry_modEq hb s, foldCarry_eq_zero_iff s⟩
  · rintro ⟨hlt, hmod, hzero⟩
    exact eq_of_modEq_pred (foldCarry_lt hb s) hlt ((foldCarry_modEq hb s).trans hmod.symm)
      ((foldCarry_eq_zero_iff s).trans hzero.symm)

theorem foldCarry_of_lt {s : Nat} (hs : s < b) : foldCarry b s = s := by
  rw [foldCarry, if_neg (by omega)]

theorem addCarry_eq_ite {x y : Nat} (hx : x < b) (hy : y < b) :
    addCarry b x y = if x + y < b then x + y else x + y - b + 1 := by
  rw [addCarry]
  split
  · next h => rw [Nat.mod_eq_of_lt h, Nat.div_eq_of_lt h, Nat.add_zero]
  · next h =>
    have hdiv : (x + y) / b = 1 := Nat.div_eq_of_lt_le (by omega) (by omega)
    rw [Nat.mod_eq_sub_mod (by omega), Nat.mod_eq_of_lt (by omega), hdiv]

/-- One end-around carry is enough for two words: their sum is below `2 * b`, so after adding the
carry nothing is left to fold. -/
theorem addCarry_eq_foldCarry (hb : 2 ≤ b) {x y : Nat} (hx : x < b) (hy : y < b) :
    addCarry b x y = foldCarry b (x + y) := by
  refine ((foldCarry_eq_iff hb).mpr ⟨?_, mod_add_div_modEq _ (by omega),
    mod_add_div_eq_zero_iff⟩).symm
  change addCarry b x y < b
  rw [addCarry_eq_ite hx hy]
  split <;> omega

theorem foldCarry_foldCarry_add (hb : 2 ≤ b) (s t : Nat) :
    foldCarry b (foldCarry b s + t) = foldCarry b (s + t) := by
  refine (foldCarry_eq_iff hb).mpr ⟨foldCarry_lt hb _, ?_, ?_⟩
  · exact (foldCarry_modEq hb _).trans ((foldCarry_modEq hb s).symm.add_right t)
  · have hs : foldCarry b s = 0 ↔ s = 0 := foldCarry_eq_zero_iff s
    rw [foldCarry_eq_zero_iff]
    omega

/-- **Adding words one by one** with the carry brought around gives the folded exact sum. So a sum
can be taken in pieces, and its words in any order. -/
theorem foldl_addCarry (hb : 2 ≤ b) {ws : List Nat} (hws : ∀ w ∈ ws, w < b) {x : Nat} (hx : x < b) :
    ws.foldl (addCarry b) x = foldCarry b (x + ws.sum) := by
  induction ws generalizing x with
  | nil => simp [foldCarry_of_lt hx]
  | cons w ws ih =>
    have hw := hws w List.mem_cons_self
    have hlt : addCarry b x w < b := by
      rw [addCarry_eq_foldCarry hb hx hw]
      exact foldCarry_lt hb _
    rw [List.foldl_cons, ih (fun v hv => hws v (List.mem_cons_of_mem w hv)) hlt,
      addCarry_eq_foldCarry hb hx hw, foldCarry_foldCarry_add hb, List.sum_cons, Nat.add_assoc]

/-- **The sums that fold to the all-ones word** are the positive multiples of it. This is what a
receiver tests when it finds a zero complement. -/
theorem foldCarry_eq_pred_iff (hb : 2 ≤ b) {s : Nat} :
    foldCarry b s = b - 1 ↔ s ≠ 0 ∧ b - 1 ∣ s := by
  have hself : b - 1 ≡ 0 [MOD b - 1] := Nat.modEq_zero_iff_dvd.mpr dvd_rfl
  rw [foldCarry_eq_iff hb]
  constructor
  · rintro ⟨-, hmod, hzero⟩
    exact ⟨fun hs => absurd (hzero.mpr hs) (by omega),
      Nat.modEq_zero_iff_dvd.mp (hmod.symm.trans hself)⟩
  · rintro ⟨hs, hdvd⟩
    exact ⟨by omega, hself.trans (Nat.modEq_zero_iff_dvd.mpr hdvd).symm, by omega⟩

/-- **What completes a sum to the all-ones word** is its complement, or the all-ones word itself
when the sum is already one. In the second case there are two words for the checksum field. -/
theorem foldCarry_add_eq_pred_iff (hb : 2 ≤ b) (s : Nat) {c : Nat} (hc : c < b) :
    foldCarry b (s + c) = b - 1 ↔
      c = b - 1 - foldCarry b s ∨ b - 1 - foldCarry b s = 0 ∧ c = b - 1 := by
  have hlt := foldCarry_lt hb s
  rw [← foldCarry_foldCarry_add hb, ← addCarry_eq_foldCarry hb hlt hc, addCarry_eq_ite hlt hc]
  split <;> omega

/-! ### Words of bytes -/

/-- The big-endian 16-bit words of a string; an odd last byte is padded with a zero byte. -/
def beWords : List UInt8 → List Nat
  | [] => []
  | [x] => [x.toNat * 256]
  | x :: y :: l => (x.toNat * 256 + y.toNat) :: beWords l

theorem beWords_lt (l : List UInt8) : ∀ w ∈ beWords l, w < 2 ^ 16 := by
  induction l using beWords.induct with
  | case1 => simp [beWords]
  | case2 x =>
    have hx := x.toNat_lt
    simp only [beWords, List.mem_singleton, forall_eq]
    omega
  | case3 x y l ih =>
    have hx := x.toNat_lt
    have hy := y.toNat_lt
    simp only [beWords, List.mem_cons, forall_eq_or_imp]
    exact ⟨by omega, ih⟩

/-- Pieces of even length keep the alignment of what follows. Only the last piece of a checksum may
have odd length, since it is padded. -/
theorem beWords_append {l : List UInt8} (hl : l.length % 2 = 0) (l' : List UInt8) :
    beWords (l ++ l') = beWords l ++ beWords l' := by
  induction l using beWords.induct with
  | case1 => rfl
  | case2 x => exact absurd hl (by simp)
  | case3 x y l ih =>
    simp only [List.cons_append, beWords, List.cons.injEq, true_and]
    exact ih (by simp only [List.length_cons] at hl; omega)

/-- What the byte at an index counts in its word. -/
def byteWeight (i : Nat) : Nat := if i % 2 = 0 then 256 else 1

theorem byteWeight_add_two (i : Nat) : byteWeight (i + 2) = byteWeight i := by
  simp [byteWeight]

theorem sum_beWords_set (l : List UInt8) {i : Nat} {x : UInt8} (hi : l[i]? = some x) (y : UInt8) :
    (beWords (l.set i y)).sum + x.toNat * byteWeight i =
      (beWords l).sum + y.toNat * byteWeight i := by
  induction l using beWords.induct generalizing i with
  | case1 => simp at hi
  | case2 z =>
    cases i with
    | zero =>
      simp only [List.getElem?_cons_zero, Option.some.injEq] at hi
      simp [beWords, byteWeight, hi, Nat.add_comm]
    | succ i => simp at hi
  | case3 z z' l ih =>
    match i with
    | 0 =>
      simp only [List.getElem?_cons_zero, Option.some.injEq] at hi
      simp only [List.set_cons_zero, beWords, List.sum_cons, hi, show byteWeight 0 = 256 from rfl]
      omega
    | 1 =>
      simp only [List.getElem?_cons_succ, List.getElem?_cons_zero, Option.some.injEq] at hi
      simp only [List.set_cons_succ, List.set_cons_zero, beWords, List.sum_cons, hi,
        show byteWeight 1 = 1 from rfl]
      omega
    | i + 2 =>
      simp only [List.getElem?_cons_succ] at hi
      simp only [List.set_cons_succ, beWords, List.sum_cons, byteWeight_add_two]
      have hset := ih hi
      omega

end ZprUtils
