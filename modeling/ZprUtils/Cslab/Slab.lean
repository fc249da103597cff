import ZprUtils.Cslab.Storage

/-!
# The concurrent slab

`Cslab` is a slab with a fixed capacity. Its free slots form a list that starts at `firstFree` and
is linked by relative offsets stored in the free entries; an index equal to the capacity ends it.
Removal has two phases: `markRemoved` clears the presence bit and leaves the item where it is,
`finalizeRemove` takes the item out and puts the slot at the front of the free list.

An operation that panics does so before it changes the slab, so a fault carries no state.

## Main definitions

* `Cslab`, `Cslab.withFixedCapacity`.
* `Cslab.insert`, `Cslab.vacantKey`, `Cslab.markRemoved`, `Cslab.finalizeRemove`.
* `VacantEntry` — a reserved slot.
-/

namespace ZprUtils

/-- A concurrent slab. -/
structure Cslab (α : Type) where
  firstFree : Nat
  inUse : Nat
  allocated : Nat
  storage : CslabStorage α
  deriving DecidableEq, Repr

namespace Cslab

variable {α : Type}

/-- An empty slab of `capacity` slots for items of layout `t`. -/
def withFixedCapacity (alloc : Alloc) (t : Layout) (capacity : Nat) :
    Except RustFault (Cslab α) := do
  return ⟨0, 0, 0, ← CslabStorage.withFixedCapacity alloc t capacity⟩

variable (s : Cslab α)

/-- The number of slots. -/
def capacity : Nat := s.storage.size

/-- The number of visible items. -/
def len : Nat := s.inUse

/-- The item of slot `idx` if it is visible. -/
def get (idx : Nat) : Except RustFault (Option α) := s.storage.getImpl idx

/-- Allocate a slot and insert the item into it. The result is the index, or `none` for the error
of a full slab. -/
def insert (x : α) : Except RustFault (Option Nat × Cslab α) := do
  let idx := s.firstFree
  if idx ≥ s.storage.size then return (none, s)
  -- update the free list
  let offset ← s.storage.readNextFree idx
  let neighbour ← isizeAdd (asIsize idx) 1
  let firstFree := asUsize (← isizeAdd neighbour offset)
  -- store the item
  let table := s.storage.table.set idx (.item x)
  -- update the highest used index
  let frontier ← s.storage.raiseFrontier idx
  -- mark in the bitmap
  let mask ← s.storage.loadBitmap (idx / usizeBits)
  if (mask >>> (idx % usizeBits)) &&& (1 : Word) ≠ (0 : Word) then throw .panic
  let bitmap := s.storage.bitmap.set (idx / usizeBits) (mask ||| (1 : Word) <<< (idx % usizeBits))
  let inUse ← usizeAdd s.inUse 1
  let allocated ← usizeAdd s.allocated 1
  return (some idx, ⟨firstFree, inUse, allocated, { s.storage with frontier, table, bitmap }⟩)

/-- The index of the next allocation, or `none` for the error of a full slab. -/
def vacantKey : Option Nat :=
  if s.firstFree ≥ s.storage.size then none else some s.firstFree

/-- Mark an element to be removed. Panics if no element is present. -/
def markRemoved (idx : Nat) : Except RustFault (Cslab α) := do
  let mask ← s.storage.loadBitmap (idx / usizeBits)
  -- confirm that something present is deleted
  if (mask >>> (idx % usizeBits)) &&& (1 : Word) ≠ (1 : Word) then throw .panic
  let bitmap :=
    s.storage.bitmap.set (idx / usizeBits) (mask &&& ~~~((1 : Word) <<< (idx % usizeBits)))
  let inUse ← usizeSub s.inUse 1
  return { s with inUse, storage := { s.storage with bitmap } }

/-- Free an index that has been marked, and return its item. -/
def finalizeRemove (idx : Nat) : Except RustFault (α × Cslab α) := do
  -- confirm that the item is not visible
  let mask ← s.storage.loadBitmap (idx / usizeBits)
  if (mask >>> (idx % usizeBits)) &&& (1 : Word) ≠ (0 : Word) then throw .panic
  -- take the item
  let x ← s.storage.readItem idx
  -- add the entry to the front of the free list
  let offset ← isizeSub (← isizeSub (asIsize s.firstFree) (asIsize idx)) 1
  let table := s.storage.table.set idx (.nextFree offset)
  let allocated ← usizeSub s.allocated 1
  return (x, { s with firstFree := idx, allocated, storage := { s.storage with table } })

end Cslab

/-- A reserved slot: the exclusive borrow of a slab that is not full. -/
structure VacantEntry (α : Type) where
  slab : Cslab α
  not_full : slab.firstFree < slab.storage.size

/-- Reserve a slot, unless the slab is full. -/
def Cslab.vacantEntry {α : Type} (s : Cslab α) : Option (VacantEntry α) :=
  if h : s.firstFree < s.storage.size then some ⟨s, h⟩ else none

namespace VacantEntry

variable {α : Type} (e : VacantEntry α)

/-- The index that is reserved. -/
def key : Nat := e.slab.firstFree

/-- Insert an item at the reserved index; the error of a full slab is unwrapped. -/
def insert (x : α) : Except RustFault (Nat × Cslab α) := do
  match ← e.slab.insert x with
  | (some idx, s) => return (idx, s)
  | (none, _) => throw .panic

end VacantEntry

end ZprUtils
