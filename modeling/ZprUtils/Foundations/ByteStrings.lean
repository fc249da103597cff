import Mathlib.Algebra.Ring.Int.Defs
import Mathlib.Algebra.Ring.Nat
import Mathlib.Data.Nat.Basic
import Mathlib.Tactic.Common

/-!
# Numbers in byte strings

Little-endian numbers of a fixed width, and the replacement of a part of a byte string.

## Main definitions

* `leBytes`, `leValue` — the bytes of a number and the number of given bytes.
* `splice` — a string with some bytes overwritten.

## Main results

* `leValue_leBytes` — the round trip.
* `length_splice` — overwriting inside a string keeps its length.
-/

namespace ZprUtils

/-- The `k` low bytes of a number, the lowest one first. -/
def leBytes : Nat → Nat → List UInt8
  | 0, _ => []
  | k + 1, n => UInt8.ofNat n :: leBytes k (n / 256)

/-- The number with the given bytes, the lowest one first. -/
def leValue : List UInt8 → Nat
  | [] => 0
  | x :: l => x.toNat + 256 * leValue l

@[simp] theorem length_leBytes (k n : Nat) : (leBytes k n).length = k := by
  induction k generalizing n with
  | zero => rfl
  | succ k ih => simp [leBytes, ih]

theorem leValue_leBytes {k n : Nat} (hn : n < 256 ^ k) : leValue (leBytes k n) = n := by
  induction k generalizing n with
  | zero =>
    rw [Nat.pow_zero] at hn
    simp only [leBytes, leValue]
    omega
  | succ k ih =>
    have hdiv : n / 256 < 256 ^ k := by
      rw [Nat.pow_succ] at hn
      exact Nat.div_lt_of_lt_mul (by rwa [Nat.mul_comm])
    simp only [leBytes, leValue, ih hdiv, UInt8.toNat_ofNat']
    omega

/-- The string `l` with `new` written at the offset `i`. -/
def splice (l : List UInt8) (i : Nat) (new : List UInt8) : List UInt8 :=
  l.take i ++ new ++ l.drop (i + new.length)

theorem length_splice {l new : List UInt8} {i : Nat} (h : i + new.length ≤ l.length) :
    (splice l i new).length = l.length := by
  simp only [splice, List.length_append, List.length_take, List.length_drop]
  omega

end ZprUtils
