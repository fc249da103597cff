import ZprUtils.RcuCslab.Invariant
import ZprUtils.Threads.Model

/-!
# What the threads own

A destructor in progress owns the references that it still has to drop, a call on an entry owns the
reference of the entry, and a thread in a critical section owns the guard of the mutex. Each of them
is a weight on threads, whose total over all threads enters the counts of the invariant.

## Main definitions

* `Thread.genRefs`, `Thread.writerRefs`, `Thread.storageRefs` — references of a thread.
* `Thread.guards` — guards of the mutex.
* `Thread.records` — removals that are marked and neither recorded in a generation that is alive nor
  finalized.
* `Thread.marks` — entries that the thread is about to mark.
-/

namespace ZprUtils.RcuCslab

variable {α : Type}

/-! ### Destructors -/

/-- The references to generation `g`. -/
def Drop.genRefs (g : Nat) : Drop α → Nat
  | .gen g' => (g' == g).toNat
  | .finalize _ _ next | .finalizing _ _ _ next | .items _ _ next => (next == some g).toNat
  | .storage | .writer => 0

/-- The references to the mutex. -/
def Drop.writerRefs : Drop α → Nat
  | .writer | .finalize _ _ _ | .finalizing _ _ _ _ | .items _ _ _ => 1
  | .storage | .gen _ => 0

/-- The references to the storage. -/
def Drop.storageRefs : Drop α → Nat
  | .storage => 1
  | _ => 0

/-- The guards of the mutex. -/
def Drop.guards : Drop α → Nat
  | .finalizing _ _ _ _ => 1
  | _ => 0

/-- How often slot `i` is still to be finalized. -/
def Drop.records (i : Nat) : Drop α → Nat
  | .finalize _ indices _ | .finalizing _ indices _ _ => indices.count i
  | _ => 0

/-! ### Calls -/

/-- The reference of the entry that a removal is for. -/
def MarkFor.genRefs (g : Nat) : MarkFor → Nat
  | .entry g' | .clear g' => (g' == g).toNat
  | .markRemoved | .remove => 0

/-- The references to generation `g` of the call itself, those of an entry that is being removed. -/
def Pc.genRefs (g : Nat) : Pc α → Nat
  | .mark m _ | .markLocked m _ | .markUnlock m _ | .record m _ => m.genRefs g
  | _ => 0

@[simp] theorem Pc.genRefs_idle (g : Nat) : (Pc.idle : Pc α).genRefs g = 0 := rfl

@[simp] theorem Pc.genRefs_record (m : MarkFor) (idx g : Nat) :
    (Pc.record m idx : Pc α).genRefs g = m.genRefs g := rfl

/-- The thread is inside a critical section of the mutex. -/
def Pc.guards : Pc α → Nat
  | .observed | .insertLocked _ _ | .unlock | .markLocked _ _ | .markUnlock _ _
  | .iterMutLocked _ | .iterMutUnlock _ _ => 1
  | _ => 0

/-- Slot `i` is marked and not yet recorded. -/
def Pc.records (i : Nat) : Pc α → Nat
  | .markUnlock _ j | .record _ j => (j == i).toNat
  | _ => 0

/-- The removal is of an entry, which names a slot of its own. -/
def MarkFor.ofEntry : MarkFor → Bool
  | .entry _ | .clear _ => true
  | .markRemoved | .remove => false

/-- The thread is about to mark the entry of slot `i`. -/
def Pc.marks (i : Nat) : Pc α → Nat
  | .mark m j | .markLocked m j => (m.ofEntry && j == i).toNat
  | _ => 0

/-! ### Threads -/

namespace Thread

variable (th : Thread α)

/-- The references to generation `g` that the thread owns. -/
def genRefs (g : Nat) : Nat := total (Drop.genRefs g) th.drops + th.pc.genRefs g

/-- The references to the mutex that the thread owns. -/
def writerRefs : Nat := total Drop.writerRefs th.drops

/-- The references to the storage that the thread owns. -/
def storageRefs : Nat := total Drop.storageRefs th.drops

/-- The guards of the mutex that the thread owns. -/
def guards : Nat := total Drop.guards th.drops + th.pc.guards

/-- How often slot `i` is in the hands of the thread between its mark and its finalization. -/
def records (i : Nat) : Nat := total (Drop.records i) th.drops + th.pc.records i

/-- How often the thread is about to mark the entry of slot `i`. -/
def marks (i : Nat) : Nat := th.pc.marks i

end Thread

end ZprUtils.RcuCslab
