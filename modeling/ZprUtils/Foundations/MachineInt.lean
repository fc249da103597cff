import ZprUtils.Foundations.Except

/-!
# Machine integers and faults

Arithmetic of `usize` and `isize` on a 64-bit machine. A `usize` is a natural number and an
`isize` an integer; an operation whose exact result is not representable reports
`RustFault.overflow`, so that a computation without a fault is one in which every operation
returned the exact result. Casts wrap, as they do in the language.

## Main definitions

* `RustFault` — what a computation can do instead of returning.
* `usizeAdd`, `usizeSub`, `isizeAdd`, `isizeSub`, `asIsize`, `asUsize`.
-/

namespace ZprUtils

/-- What a computation can do instead of returning a value. -/
inductive RustFault where
  /-- A failed assertion, an index out of bounds or an unwrapped error. -/
  | panic
  /-- An integer operation whose exact result is not representable. -/
  | overflow
  /-- Undefined behaviour, such as reading the inactive field of a union. -/
  | undefined
  deriving DecidableEq, Repr

/-- `usize::BITS`. -/
def usizeBits : Nat := 64

/-- `usize::MAX`. -/
def usizeMax : Nat := 2 ^ 64 - 1

/-- `isize::MAX`. -/
def isizeMax : Nat := 2 ^ 63 - 1

theorem usizeBits_pos : 0 < usizeBits := by decide

/-- `a + b` in `usize`, if it is representable. -/
def usizeAdd (a b : Nat) : Except RustFault Nat :=
  if a + b ≤ usizeMax then .ok (a + b) else .error .overflow

/-- `a - b` in `usize`, if it is representable. -/
def usizeSub (a b : Nat) : Except RustFault Nat :=
  if b ≤ a then .ok (a - b) else .error .overflow

/-- The integer is an `isize`. -/
def IsIsize (z : Int) : Prop := -(isizeMax : Int) - 1 ≤ z ∧ z ≤ isizeMax

instance (z : Int) : Decidable (IsIsize z) := inferInstanceAs (Decidable (_ ∧ _))

/-- `a + b` in `isize`, if it is representable. -/
def isizeAdd (a b : Int) : Except RustFault Int :=
  if IsIsize (a + b) then .ok (a + b) else .error .overflow

/-- `a - b` in `isize`, if it is representable. -/
def isizeSub (a b : Int) : Except RustFault Int :=
  if IsIsize (a - b) then .ok (a - b) else .error .overflow

/-- The cast of a `usize` to `isize`. -/
def asIsize (n : Nat) : Int := if n ≤ isizeMax then n else n - 2 ^ 64

/-- The cast of an `isize` to `usize`. -/
def asUsize (z : Int) : Nat := (z % 2 ^ 64).toNat

theorem usizeAdd_eq_ok {a b : Nat} (h : a + b ≤ usizeMax) : usizeAdd a b = .ok (a + b) :=
  if_pos h

theorem usizeSub_eq_ok {a b : Nat} (h : b ≤ a) : usizeSub a b = .ok (a - b) :=
  if_pos h

theorem isizeAdd_eq_ok {a b : Int} (h : IsIsize (a + b)) : isizeAdd a b = .ok (a + b) :=
  if_pos h

theorem isizeSub_eq_ok {a b : Int} (h : IsIsize (a - b)) : isizeSub a b = .ok (a - b) :=
  if_pos h

theorem asIsize_of_le {n : Nat} (h : n ≤ isizeMax) : asIsize n = n :=
  if_pos h

theorem asUsize_natCast {n : Nat} (h : n ≤ usizeMax) : asUsize n = n := by
  have hmax : usizeMax = 2 ^ 64 - 1 := rfl
  rw [asUsize, Int.emod_eq_of_lt (by omega) (by omega), Int.toNat_natCast]

theorem isIsize_of_abs_le {z : Int} (hlo : -(isizeMax : Int) ≤ z) (hhi : z ≤ isizeMax) :
    IsIsize z :=
  ⟨by omega, hhi⟩

end ZprUtils
