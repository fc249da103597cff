import ZprUtils.Foundations.Handles
import ZprUtils.RcuCslab.State

/-!
# The RCU slab: public calls

Every public call of the slab, its readers, its entries and its vacant entries, and the step
relation of the whole system, in which each call is one atomic step. `step` refuses a call that the
borrow rules exclude: while a vacant entry, a mutable iteration or one of its entries is alive, the
slab is exclusively borrowed. A call that has to wait for the mutex leaves the state as it is.

## Main definitions

* `Op`, `Ret` — the calls and what they return.
* `State.usable` — the slab exists and is not borrowed.
* `step` — one call.
* `Allowed` — the calls that the borrow rules allow, each with what it runs on.
-/

namespace ZprUtils.RcuCslab

variable {α : Type}

/-! ### The slab -/

/-- The number of items, read under the mutex. -/
def len : Call (State α) Nat :=
  withLock (onCslab fun c => .ok (c.len, c))

/-- The number of slots in use, those of removed items included, read under the mutex. -/
def allocated : Call (State α) Nat :=
  withLock (onCslab fun c => .ok (c.allocated, c))

/-- The index of the next insertion, read under the mutex, or `none` for `Err` when the slab is
full. -/
def vacantKey : Call (State α) (Option Nat) :=
  withLock (onCslab fun c => .ok (c.vacantKey, c))

/-- A look at an index, without the mutex. -/
def get (idx : Nat) : Call (State α) (Option α) := do
  let s ← .get
  .liftFault (s.cslab.storage.getImpl idx)

/-- An insertion on the locked slab. An item that is rejected is destroyed by the call. -/
def insertLocked (x : α) : Call (State α) (Option Nat) := do
  let key ← onCslab (·.insert x)
  match key with
  | some idx => emit [.inserted idx x]
  | none => destroy [(.rejected, x)]
  return key

/-- `lock().unwrap()` in a call that owns the item `x`, which is destroyed when the call unwinds. -/
def lockOwning (x : α) : Call (State α) Unit := fun s =>
  match lock s with
  | (.error (.panicked fault), s') =>
    (.error (.panicked fault), (destroy [(.rejected, x)] s').2)
  | r => r

/-- Insert an item under the mutex. -/
def insert (x : α) : Call (State α) (Option Nat) := do
  lockOwning x
  underGuard (insertLocked x)

/-- Mark an element to be removed with the current generation. -/
def markRemoved (slab : Slab) (idx : Nat) : Call (State α) Unit :=
  markRemovedIn slab.curGen idx

/-- A read handle of the current generation. -/
def reader : Call (State α) (Option Nat) := do
  let s ← .get
  match s.slab with
  | some slab => return some (← addReader slab.curGen)
  | none => return none

/-- Close the current generation. The call returns a reader of the new one. -/
def scheduleFinalization (slab : Slab) : Call (State α) (Option Nat) := do
  advanceGeneration slab
  reader

/-- Mark an element to be removed, and close the current generation. -/
def remove (slab : Slab) (idx : Nat) : Call (State α) (Option Nat) := do
  markRemoved slab idx
  scheduleFinalization slab

/-- The drop of the slab: its reference to the mutex, its reader and its current generation. -/
def dropSlab (slab : Slab) : Call (State α) Unit := do
  .modify fun s => { s with slab := none }
  releaseWriter
  releaseStorage
  dropGenRef slab.curGen

/-! ### Vacant entries -/

/-- Lock the slab and keep the guard, unless the slab is full. -/
def vacantEntry : Call (State α) Bool := do
  lock
  let s ← .get
  if s.cslab.vacantKey.isNone then
    unlock
    return false
  else return true

/-- The key of a vacant entry; the error of a full slab is unwrapped. -/
def vacantEntryKey : Call (State α) Nat := do
  let s ← .get
  match s.cslab.vacantKey with
  | some idx => return idx
  | none =>
    unlockPoisoned
    .interrupt (.panicked .panic)

/-- Insert an item at the key of a vacant entry; the error of a full slab is unwrapped. -/
def vacantEntryInsert (x : α) : Call (State α) Nat :=
  underGuard do
    match ← insertLocked x with
    | some idx => return idx
    | none => .interrupt (.panicked .panic)

/-! ### Mutable iteration -/

/-- Begin a mutable iteration. The number of items is read under the mutex, the frontier without it.
-/
def iterMut : Call (State α) Unit := do
  let remaining ← len
  .modify fun s => { s with iterMut := some ⟨Iter.new s.cslab.storage, remaining⟩ }

/-- Yield the item that the iterator found as an entry of the current generation. -/
def yieldEntry (slab : Slab) (im : IterMut)
    (found : Except RustFault (Option (Nat × α) × Iter)) :
    Call (State α) (Option (Nat × Entry α)) := do
  let (item, iter) ← .liftFault found
  .modify fun s => { s with iterMut := some { im with iter } }
  match item with
  | none => return none
  | some (idx, value) =>
    let remaining ← .liftFault (usizeSub im.remaining 1)
    let s ← .get
    acquireGen slab.curGen
    let entry : Entry α := ⟨idx, value, slab.curGen⟩
    .modify fun s => { s with
      iterMut := some ⟨iter, remaining⟩
      entries := s.entries ++ [some entry] }
    return some (s.entries.length, entry)

/-- The next entry from the front. -/
def iterMutNext (slab : Slab) (im : IterMut) : Call (State α) (Option (Nat × Entry α)) := do
  let s ← .get
  yieldEntry slab im (im.iter.next s.cslab.storage)

/-- The next entry from the back. -/
def iterMutNextBack (slab : Slab) (im : IterMut) : Call (State α) (Option (Nat × Entry α)) := do
  let s ← .get
  yieldEntry slab im (im.iter.nextBack s.cslab.storage)

/-- The drop of the iterator schedules the finalization. -/
def dropIterMut (slab : Slab) : Call (State α) Unit := do
  .modify fun s => { s with iterMut := none }
  advanceGeneration slab

/-- The drop of an entry: its reference to the generation of the iteration. -/
def dropEntry (k : Nat) (e : Entry α) : Call (State α) Unit := do
  .modify fun s => { s with entries := s.entries.set k none }
  dropGenRef e.gen

/-- Remove the element of an entry, in the generation of the iteration. The entry is consumed, also
when the call panics. -/
def entryRemove (k : Nat) (e : Entry α) : Call (State α) Unit :=
  (markRemovedIn e.gen e.idx).andDrop (dropEntry k e)

/-- The loop of `clear`; every round shortens the range of the iterator. -/
def clearLoop (slab : Slab) : Nat → Call (State α) Unit
  | 0 => pure ()
  | fuel + 1 => do
    let s ← .get
    match s.iterMut with
    | none => pure ()
    | some im =>
      match ← iterMutNext slab im with
      | none => pure ()
      | some (k, e) =>
        entryRemove k e
        clearLoop slab fuel

/-- Remove all elements by one mutable iteration, whose end closes the current generation. The call
returns a reader of the new one. -/
def clear (slab : Slab) : Call (State α) (Option Nat) := do
  iterMut
  let s ← .get
  (clearLoop slab (s.cslab.storage.frontier + 1)).andDrop (dropIterMut slab)
  reader

/-! ### Readers -/

/-- The drop of a reader: its reference to the storage, and then the one to its generation. -/
def readerDrop (h : Nat) (r : Reader) : Call (State α) Unit := do
  .modify fun s => { s with readers := s.readers.set h none }
  releaseStorage
  dropGenRef r.gen

/-- A look at an index through a reader. -/
def readerGet (idx : Nat) : Call (State α) (Option α) := do
  let s ← .get
  .liftFault (s.cslab.storage.getImpl idx)

/-- Whether there is an item at an index, through a reader. -/
def readerContainsKey (idx : Nat) : Call (State α) Bool := do
  let s ← .get
  .liftFault (s.cslab.storage.containsKeyImpl idx)

/-- The item at an index, without a look at the bitmap. -/
def readerGetUnchecked (idx : Nat) : Call (State α) α := do
  let s ← .get
  .liftFault (s.cslab.storage.getUncheckedImpl idx)

/-- A new iterator that borrows the reader. -/
def readerIter (h : Nat) (r : Reader) : Call (State α) Nat := do
  .modify fun s => { s with
    readers := s.readers.set h (some { r with iters := r.iters ++ [Iter.new s.cslab.storage] }) }
  return r.iters.length

/-- Store the iterator after a call and return what it found. -/
def readerAdvance (h k : Nat) (r : Reader) (found : Except RustFault (Option (Nat × α) × Iter)) :
    Call (State α) (Option (Nat × α)) := do
  let (item, iter) ← .liftFault found
  .modify fun s => { s with
    readers := s.readers.set h (some { r with iters := r.iters.set k iter }) }
  return item

/-- The next item of an iterator from the front. -/
def readerNext (h k : Nat) (r : Reader) (it : Iter) : Call (State α) (Option (Nat × α)) := do
  let s ← .get
  readerAdvance h k r (it.next s.cslab.storage)

/-- The next item of an iterator from the back. -/
def readerNextBack (h k : Nat) (r : Reader) (it : Iter) : Call (State α) (Option (Nat × α)) := do
  let s ← .get
  readerAdvance h k r (it.nextBack s.cslab.storage)

/-! ### The step relation -/

/-- The public calls. Handles are given by their number. -/
inductive Op (α : Type) where
  | len
  | allocated
  | vacantKey
  | get (idx : Nat)
  | insert (x : α)
  | markRemoved (idx : Nat)
  | reader
  | scheduleFinalization
  | remove (idx : Nat)
  | clear
  | drop
  | vacantEntry
  | vacantEntryKey
  | vacantEntryInsert (x : α)
  | vacantEntryDrop
  /-- The holder of a vacant entry panics and drops it while unwinding. -/
  | vacantEntryPanic
  | iterMut
  | iterMutNext
  | iterMutNextBack
  | iterMutDrop
  | entryRemove (k : Nat)
  | entryDrop (k : Nat)
  | readerClone (h : Nat)
  | readerDrop (h : Nat)
  | readerGet (h idx : Nat)
  | readerContainsKey (h idx : Nat)
  | readerIter (h : Nat)
  | readerNext (h k : Nat)
  | readerNextBack (h k : Nat)
  deriving DecidableEq, Repr

/-- What a call returns. -/
inductive Ret (α : Type) where
  | unit
  | num (n : Nat)
  | bool (b : Bool)
  | key (idx : Option Nat)
  | item (x : Option α)
  | indexed (p : Option (Nat × α))
  | entry (k : Option (Nat × Entry α))
  | handle (h : Option Nat)
  deriving DecidableEq, Repr

/-- The slab exists and is not exclusively borrowed. -/
def State.usable (s : State α) : Bool :=
  s.slab.isSome && !s.locked && s.iterMut.isNone && s.entries.all (·.isNone)

/-- The call of an operation, if the borrow rules allow it in the state `s`. -/
def call (s : State α) : Op α → Option (Call (State α) (Ret α))
  | .len => if s.usable then some (.num <$> len) else none
  | .allocated => if s.usable then some (.num <$> allocated) else none
  | .vacantKey => if s.usable then some (.key <$> vacantKey) else none
  | .get idx => if s.usable then some (.item <$> get idx) else none
  | .insert x => if s.usable then some (.key <$> insert x) else none
  | .reader => if s.usable then some (.handle <$> reader) else none
  | .vacantEntry => if s.usable then some (.bool <$> vacantEntry) else none
  | .iterMut => if s.usable then some ((fun _ => .unit) <$> iterMut) else none
  | .markRemoved idx =>
    if s.usable then s.slab.map fun slab => (fun _ => .unit) <$> markRemoved slab idx else none
  | .scheduleFinalization =>
    if s.usable then s.slab.map fun slab => .handle <$> scheduleFinalization slab else none
  | .remove idx => if s.usable then s.slab.map fun slab => .handle <$> remove slab idx else none
  | .clear => if s.usable then s.slab.map fun slab => .handle <$> clear slab else none
  | .drop => if s.usable then s.slab.map fun slab => (fun _ => .unit) <$> dropSlab slab else none
  | .vacantEntryKey => if s.locked then some (.num <$> vacantEntryKey) else none
  | .vacantEntryInsert x => if s.locked then some (.num <$> vacantEntryInsert x) else none
  | .vacantEntryDrop => if s.locked then some ((fun _ => .unit) <$> unlock) else none
  | .vacantEntryPanic => if s.locked then some ((fun _ => .unit) <$> unlockPoisoned) else none
  | .iterMutNext =>
    match s.slab, s.iterMut with
    | some slab, some im => some (.entry <$> iterMutNext slab im)
    | _, _ => none
  | .iterMutNextBack =>
    match s.slab, s.iterMut with
    | some slab, some im => some (.entry <$> iterMutNextBack slab im)
    | _, _ => none
  | .iterMutDrop =>
    match s.slab, s.iterMut with
    | some slab, some _ => some ((fun _ => .unit) <$> dropIterMut slab)
    | _, _ => none
  | .entryRemove k => s.entries[k]?.join.map fun e => (fun _ => .unit) <$> entryRemove k e
  | .entryDrop k => s.entries[k]?.join.map fun e => (fun _ => .unit) <$> dropEntry k e
  | .readerClone h =>
      s.readers[h]?.join.map fun r => (fun h => .handle (some h)) <$> addReader r.gen
  | .readerDrop h => s.readers[h]?.join.map fun r => (fun _ => .unit) <$> readerDrop h r
  | .readerGet h idx => s.readers[h]?.join.map fun _ => .item <$> readerGet idx
  | .readerContainsKey h idx => s.readers[h]?.join.map fun _ => .bool <$> readerContainsKey idx
  | .readerIter h => s.readers[h]?.join.map fun r => .num <$> readerIter h r
  | .readerNext h k => s.readers[h]?.join.bind fun r =>
      r.iters[k]?.map fun it => .indexed <$> readerNext h k r it
  | .readerNextBack h k => s.readers[h]?.join.bind fun r =>
      r.iters[k]?.map fun it => .indexed <$> readerNextBack h k r it

/-- The outcome of a call that was started in the state `s`. A call that waits has not happened
yet; after an abort nothing happens any more. -/
def settle (s : State α) :
    Except Interrupt (Ret α) × State α → Except Interrupt (Ret α) × State α
  | (.error .blocked, _) => (.error .blocked, s)
  | (.error .aborted, s') => (.error .aborted, { s' with aborted := true })
  | r => r

/-- The outcomes: a call that waits is undone, an abort is the end, and every other outcome
stands. -/
theorem settle_cases (s : State α) (r : Except Interrupt (Ret α) × State α) :
    (r.1 = .error .blocked ∧ settle s r = (.error .blocked, s)) ∨
      (r.1 = .error .aborted ∧ settle s r = (.error .aborted, { r.2 with aborted := true })) ∨
      r.1 ≠ .error .blocked ∧ r.1 ≠ .error .aborted ∧ settle s r = r := by
  obtain ⟨o, s'⟩ := r
  cases o with
  | ok ret => exact Or.inr (Or.inr ⟨by simp, by simp, rfl⟩)
  | error e =>
    cases e with
    | blocked => exact Or.inl ⟨rfl, rfl⟩
    | aborted => exact Or.inr (Or.inl ⟨rfl, rfl⟩)
    | panicked fault => exact Or.inr (Or.inr ⟨by simp, by simp, rfl⟩)

/-- One call. -/
def step (s : State α) (op : Op α) : Option (Except Interrupt (Ret α) × State α) :=
  if s.aborted then none else (call s op).map fun m => settle s (m s)

/-! ### The calls that the borrow rules allow -/

/-- The calls of `call`, each with the handles it runs on. -/
inductive Allowed (s : State α) : Op α → Call (State α) (Ret α) → Prop
  | len (husable : s.usable = true) : Allowed s .len (.num <$> len)
  | allocated (husable : s.usable = true) : Allowed s .allocated (.num <$> allocated)
  | vacantKey (husable : s.usable = true) : Allowed s .vacantKey (.key <$> vacantKey)
  | get {idx : Nat} (husable : s.usable = true) : Allowed s (.get idx) (.item <$> get idx)
  | insert {x : α} (husable : s.usable = true) : Allowed s (.insert x) (.key <$> insert x)
  | reader (husable : s.usable = true) : Allowed s .reader (.handle <$> reader)
  | vacantEntry (husable : s.usable = true) : Allowed s .vacantEntry (.bool <$> vacantEntry)
  | iterMut (husable : s.usable = true) : Allowed s .iterMut ((fun _ => .unit) <$> iterMut)
  | markRemoved {idx : Nat} {slab : Slab} (husable : s.usable = true) (hslab : s.slab = some slab) :
      Allowed s (.markRemoved idx) ((fun _ => .unit) <$> markRemoved slab idx)
  | scheduleFinalization {slab : Slab} (husable : s.usable = true) (hslab : s.slab = some slab) :
      Allowed s .scheduleFinalization (.handle <$> scheduleFinalization slab)
  | remove {idx : Nat} {slab : Slab} (husable : s.usable = true) (hslab : s.slab = some slab) :
      Allowed s (.remove idx) (.handle <$> remove slab idx)
  | clear {slab : Slab} (husable : s.usable = true) (hslab : s.slab = some slab) :
      Allowed s .clear (.handle <$> clear slab)
  | drop {slab : Slab} (husable : s.usable = true) (hslab : s.slab = some slab) :
      Allowed s .drop ((fun _ => .unit) <$> dropSlab slab)
  | vacantEntryKey (hlocked : s.locked = true) :
      Allowed s .vacantEntryKey (.num <$> vacantEntryKey)
  | vacantEntryInsert {x : α} (hlocked : s.locked = true) :
      Allowed s (.vacantEntryInsert x) (.num <$> vacantEntryInsert x)
  | vacantEntryDrop (hlocked : s.locked = true) :
      Allowed s .vacantEntryDrop ((fun _ => .unit) <$> unlock)
  | vacantEntryPanic (hlocked : s.locked = true) :
      Allowed s .vacantEntryPanic ((fun _ => .unit) <$> unlockPoisoned)
  | iterMutNext {slab : Slab} {im : IterMut} (hslab : s.slab = some slab)
      (him : s.iterMut = some im) : Allowed s .iterMutNext (.entry <$> iterMutNext slab im)
  | iterMutNextBack {slab : Slab} {im : IterMut} (hslab : s.slab = some slab)
      (him : s.iterMut = some im) : Allowed s .iterMutNextBack (.entry <$> iterMutNextBack slab im)
  | iterMutDrop {slab : Slab} {im : IterMut} (hslab : s.slab = some slab)
      (him : s.iterMut = some im) :
      Allowed s .iterMutDrop ((fun _ => .unit) <$> dropIterMut slab)
  | entryRemove {k : Nat} {e : Entry α} (hk : HandleAt s.entries k e) :
      Allowed s (.entryRemove k) ((fun _ => .unit) <$> entryRemove k e)
  | entryDrop {k : Nat} {e : Entry α} (hk : HandleAt s.entries k e) :
      Allowed s (.entryDrop k) ((fun _ => .unit) <$> dropEntry k e)
  | readerClone {h : Nat} {r : Reader} (hh : HandleAt s.readers h r) :
      Allowed s (.readerClone h) ((fun h => .handle (some h)) <$> addReader r.gen)
  | readerDrop {h : Nat} {r : Reader} (hh : HandleAt s.readers h r) :
      Allowed s (.readerDrop h) ((fun _ => .unit) <$> readerDrop h r)
  | readerGet {h idx : Nat} {r : Reader} (hh : HandleAt s.readers h r) :
      Allowed s (.readerGet h idx) (.item <$> readerGet idx)
  | readerContainsKey {h idx : Nat} {r : Reader} (hh : HandleAt s.readers h r) :
      Allowed s (.readerContainsKey h idx) (.bool <$> readerContainsKey idx)
  | readerIter {h : Nat} {r : Reader} (hh : HandleAt s.readers h r) :
      Allowed s (.readerIter h) (.num <$> readerIter h r)
  | readerNext {h k : Nat} {r : Reader} {it : Iter} (hh : HandleAt s.readers h r)
      (hit : r.iters[k]? = some it) :
      Allowed s (.readerNext h k) (.indexed <$> readerNext h k r it)
  | readerNextBack {h k : Nat} {r : Reader} {it : Iter} (hh : HandleAt s.readers h r)
      (hit : r.iters[k]? = some it) :
      Allowed s (.readerNextBack h k) (.indexed <$> readerNextBack h k r it)

theorem allowed_of_call {s : State α} {op : Op α} {m : Call (State α) (Ret α)}
    (hcall : call s op = some m) : Allowed s op m := by
  cases op with
  | len | allocated | vacantKey | get _ | insert _ | reader | vacantEntry | iterMut
  | vacantEntryKey | vacantEntryInsert _ | vacantEntryDrop | vacantEntryPanic =>
    obtain ⟨hguard, hm⟩ := Option.ite_none_right_eq_some.mp hcall
    obtain rfl := Option.some.inj hm
    constructor
    exact hguard
  | markRemoved _ | scheduleFinalization | remove _ | clear | drop =>
    obtain ⟨husable, hm⟩ := Option.ite_none_right_eq_some.mp hcall
    obtain ⟨slab, hslab, rfl⟩ := Option.map_eq_some_iff.mp hm
    constructor
    · exact husable
    · exact hslab
  | iterMutNext | iterMutNextBack | iterMutDrop =>
    simp only [call] at hcall
    split at hcall
    · rename_i slab im hslab him
      obtain rfl := Option.some.inj hcall
      constructor
      · exact hslab
      · exact him
    · exact absurd hcall nofun
  | entryRemove _ | entryDrop _ | readerClone _ | readerDrop _ | readerGet _ _
  | readerContainsKey _ _ | readerIter _ =>
    obtain ⟨r, hh, rfl⟩ := Option.map_eq_some_iff.mp hcall
    constructor
    exact handleAt_iff_join.mpr hh
  | readerNext _ _ | readerNextBack _ _ =>
    obtain ⟨r, hh, hcall⟩ := Option.bind_eq_some_iff.mp hcall
    obtain ⟨it, hit, rfl⟩ := Option.map_eq_some_iff.mp hcall
    constructor
    · exact handleAt_iff_join.mpr hh
    · exact hit

end ZprUtils.RcuCslab
