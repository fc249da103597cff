import ZprUtils.Cslab.Iter
import ZprUtils.Foundations.Call

/-!
# The RCU slab: generations and handles

An `RcuCslab` puts a slab behind a mutex and defers the finalization of removals until no reader
can see the removed items. Removals are recorded in the current generation; a generation is
reference counted by the slab, by its readers, by the entries of a mutable iteration and by its
predecessor, and finalizes its removals when the last reference is dropped.

The state has everything that the handles of one slab share, with the strong counts of the three
kinds of reference counted objects: the generations, the mutex (`writer`) and the storage. Handles
are numbered by creation; a dropped handle leaves a hole. The log records what an outside observer
of the items sees; no call reads it.

## Main definitions

* `State` — the slab, its generations and all handles.
* `Event` — an entry of the log.
* `withLock`, `releaseGen`, `advanceGeneration`, `addReader` — the calls' building blocks.
-/

namespace ZprUtils.RcuCslab

/-- A generation: its strong count, the indices to finalize when it is dropped, and the reference
to its successor. A strong count of zero means that it has been dropped. -/
structure Gen where
  strong : Nat
  pendingRemoves : List Nat
  nextGen : Option Nat
  deriving DecidableEq, Repr

/-- The owner of the slab. -/
structure Slab where
  capacity : Nat
  curGen : Nat
  deriving DecidableEq, Repr

/-- A read handle of a generation, and the iterators that borrow it. -/
structure Reader where
  gen : Nat
  iters : List Iter
  deriving DecidableEq, Repr

/-- A mutable iteration. -/
structure IterMut where
  iter : Iter
  remaining : Nat
  deriving DecidableEq, Repr

/-- A removable entry of a mutable iteration. -/
structure Entry (α : Type) where
  idx : Nat
  value : α
  gen : Nat
  deriving DecidableEq, Repr

/-- The place in which an item is destroyed. -/
inductive DropSite where
  /-- By an insertion that fails. -/
  | rejected
  /-- By the drop of a generation, which took the item out of a slot. -/
  | gen (gen idx : Nat)
  /-- By the drop of the storage, in its slot. -/
  | storage (idx : Nat)
  deriving DecidableEq, Repr

/-- What happens to the items. -/
inductive Event (α : Type) where
  | inserted (idx : Nat) (x : α)
  | marked (gen idx : Nat)
  /-- A new generation is the current one. -/
  | advanced (gen : Nat)
  /-- The drop of a generation takes an item out of its slot. -/
  | finalized (gen idx : Nat) (x : α)
  | storageDropped
  /-- The destructor of an item runs, with or without the mutex held. -/
  | destroyed (site : DropSite) (x : α) (locked : Bool)
  deriving DecidableEq, Repr

/-- The slab behind its mutex, the generations and all handles. -/
structure State (α : Type) where
  cslab : Cslab α
  poisoned : Bool
  /-- The mutex is held: between calls, by a vacant entry. -/
  locked : Bool
  writerStrong : Nat
  storageStrong : Nat
  gens : List Gen
  slab : Option Slab
  iterMut : Option IterMut
  entries : List (Option (Entry α))
  readers : List (Option Reader)
  /-- The process has been aborted by a panic during unwinding. -/
  aborted : Bool
  log : List (Event α)
  deriving DecidableEq, Repr

variable {α β : Type}

/-- A new slab with its mutex, its own reader and the first generation. The allocator answers
`alloc`. -/
def withFixedCapacity (alloc : Alloc) (t : Layout) (capacity : Nat) :
    Except RustFault (State α) := do
  let cslab ← Cslab.withFixedCapacity alloc t capacity
  return {
    cslab
    poisoned := false
    locked := false
    -- the slab and the first generation
    writerStrong := 2
    -- the slab's reader and the writer
    storageStrong := 2
    gens := [⟨1, [], none⟩]
    slab := some ⟨capacity, 0⟩
    iterMut := none
    entries := []
    readers := []
    aborted := false
    log := [] }

/-! ### The mutex -/

/-- A computation on the slab behind the mutex. -/
def onCslab (f : Cslab α → Except RustFault (β × Cslab α)) : Call (State α) β := fun s =>
  match f s.cslab with
  | .ok (b, cslab) => (.ok b, { s with cslab })
  | .error fault => (.error (.panicked fault), s)

/-- Log events. -/
def emit (events : List (Event α)) : Call (State α) Unit :=
  .modify fun s => { s with log := s.log ++ events }

/-- The destructors of items. -/
def destroy (items : List (DropSite × α)) : Call (State α) Unit :=
  .modify fun s =>
    { s with log := s.log ++ items.map fun p => .destroyed p.1 p.2 s.locked }

/-- `lock().unwrap()` -/
def lock : Call (State α) Unit := fun s =>
  if s.locked then (.error .blocked, s)
  else if s.poisoned then (.error (.panicked .panic), s)
  else (.ok (), { s with locked := true })

/-- The drop of the guard of a thread that does not panic. -/
def unlock : Call (State α) Unit := .modify fun s => { s with locked := false }

/-- The drop of the guard of a thread that panics. -/
def unlockPoisoned : Call (State α) Unit :=
  .modify fun s => { s with locked := false, poisoned := true }

/-- Run `m` with the guard in scope. -/
def underGuard (m : Call (State α) β) : Call (State α) β := fun s =>
  match m s with
  | (.error (.panicked fault), s') => (.error (.panicked fault), (unlockPoisoned s').2)
  | (r, s') => (r, (unlock s').2)

/-- `lock().unwrap()` with a guard that lives for the computation `m`. -/
def withLock (m : Call (State α) β) : Call (State α) β := do
  lock
  underGuard m

/-! ### Reference counts -/

/-- Change generation `g` by `f`. -/
def modifyGen (g : Nat) (f : Gen → Gen) : Call (State α) Unit :=
  .modify fun s => { s with gens := s.gens.modify g f }

/-- A new reference to generation `g`. -/
def acquireGen (g : Nat) : Call (State α) Unit :=
  modifyGen g fun gen => { gen with strong := gen.strong + 1 }

/-- Drop a reference to the storage. The last one destroys the items that are present. -/
def releaseStorage : Call (State α) Unit := do
  .modify fun s => { s with storageStrong := s.storageStrong - 1 }
  let s ← .get
  if s.storageStrong = 0 then
    emit [.storageDropped]
    let items ← .liftFault (Iter.items s.cslab.storage)
    destroy (items.map fun p => (.storage p.1, p.2))

/-- Drop a reference to the mutex. The last one drops the slab behind it. -/
def releaseWriter : Call (State α) Unit := do
  .modify fun s => { s with writerStrong := s.writerStrong - 1 }
  let s ← .get
  if s.writerStrong = 0 then releaseStorage

/-- Finalize the removals `indices` in order. -/
def finalizeAll : List Nat → Cslab α → Except RustFault (List α × Cslab α)
  | [], c => .ok ([], c)
  | idx :: indices, c => do
    let (x, c) ← c.finalizeRemove idx
    let (items, c) ← finalizeAll indices c
    return (x :: items, c)

/-- The destructor of generation `g`, without its fields. -/
def dropGen (g : Nat) (gen : Gen) : Call (State α) Unit := do
  let pendingDrops ← withLock do
    let items ← onCslab (finalizeAll gen.pendingRemoves)
    emit ((gen.pendingRemoves.zip items).map fun p => .finalized g p.1 p.2)
    return items
  -- drop items outside the mutex
  destroy ((gen.pendingRemoves.zip pendingDrops).map fun p => (.gen g p.1, p.2))

/-- Drop a reference to generation `g`. The last one runs its destructor and then drops its fields,
the last of which is the reference to the next generation. -/
def releaseGen : Nat → Nat → Call (State α) Unit
  | 0, _ => pure ()
  | fuel + 1, g => do
    modifyGen g fun gen => { gen with strong := gen.strong - 1 }
    let s ← .get
    match s.gens[g]? with
    | none => pure ()
    | some gen =>
      if gen.strong ≠ 0 then pure ()
      else
        (dropGen g gen).andDrop do
          releaseWriter
          match gen.nextGen with
          | none => pure ()
          | some next => releaseGen fuel next

/-- Drop a reference to generation `g`; the chain of generations is no longer than their number. -/
def dropGenRef (g : Nat) : Call (State α) Unit := do
  let s ← .get
  releaseGen (s.gens.length + 1) g

/-! ### Generations -/

/-- Mark an element to be removed, and record the removal in generation `g`. -/
def markRemovedIn (g idx : Nat) : Call (State α) Unit := do
  withLock (onCslab fun c => return ((), ← c.markRemoved idx))
  modifyGen g fun gen => { gen with pendingRemoves := gen.pendingRemoves ++ [idx] }
  emit [.marked g idx]

/-- Replace the current generation by a new one. The old generation keeps a reference to the new
one, and loses the reference of the slab. -/
def advanceGeneration (slab : Slab) : Call (State α) Unit := do
  let s ← .get
  let next := s.gens.length
  .modify fun s => { s with
    writerStrong := s.writerStrong + 1
    gens := (s.gens.modify slab.curGen fun gen => { gen with nextGen := some next }) ++
      [⟨2, [], none⟩]
    slab := some { slab with curGen := next } }
  emit [.advanced next]
  dropGenRef slab.curGen

/-- A new read handle of generation `g`. -/
def addReader (g : Nat) : Call (State α) Nat := do
  let s ← .get
  acquireGen g
  .modify fun s => { s with
    storageStrong := s.storageStrong + 1
    readers := s.readers ++ [some ⟨g, []⟩] }
  return s.readers.length

end ZprUtils.RcuCslab
