import ZprUtils.Foundations.Runs
import ZprUtils.Foundations.ThreadPool
import ZprUtils.RcuCslab.Calls

/-!
# The RCU slab under many threads

The calls of an RCU slab do not happen at once. A call takes the mutex, works on the slab, gives the
mutex back and goes on; the drop of a reference may be the last one, and then runs the destructor of
a generation, which waits for the mutex, finalizes its removals one by one, drops the items, and
drops the references of the generation in turn. Between any two of these steps other threads make
steps of their own.

A thread is in one call at a time. `Pc` is where it is in the code of that call and `Drop` is a
destructor that it has to finish first; unwinding after a panic goes on with what the abandoned
frames own. The slab, its generations and its handles are the `State` of the calls, whose mutex is
now held by the thread that is inside a critical section. An access to an object whose strong count
is zero is undefined behaviour.

## Main definitions

* `Drop`, `Pc`, `Thread`, `Config` — destructors, program points, threads and the whole system.
* `runDrop`, `runPc`, `Config.exec` — one step of a thread.
* `Config.invoke` — a thread starts a call that the borrow rules allow.
* `Config.step` — one step of the system.
-/

namespace ZprUtils.RcuCslab

/-! ### Threads -/

/-- A destructor in progress. -/
inductive Drop (α : Type) where
  | storage
  | writer
  | gen (g : Nat)
  /-- The destructor of a generation, waiting for the mutex. -/
  | finalize (g : Nat) (indices : List Nat) (next : Option Nat)
  /-- The same with the mutex held: what is left to finalize and the items taken out so far. -/
  | finalizing (g : Nat) (indices : List Nat) (items : List (Nat × α)) (next : Option Nat)
  /-- The items are dropped outside the mutex. -/
  | items (g : Nat) (items : List (Nat × α)) (next : Option Nat)
  deriving DecidableEq, Repr

/-- What a removal is marked for. -/
inductive MarkFor where
  | markRemoved
  | remove
  /-- An entry, which owns a reference to its generation. -/
  | entry (gen : Nat)
  /-- An entry in the loop of `clear`. -/
  | clear (gen : Nat)
  deriving DecidableEq, Repr

/-- How a call in progress borrows the slab: shared, exclusively, or through the iterator and the
entries of a mutable iteration. -/
inductive Borrow where
  | shared
  | call
  | clear
  | iter
  deriving DecidableEq, Repr

/-- Where a thread is in the code of a call. -/
inductive Pc (α : Type) where
  | idle
  /-- `len`, `allocated` and `vacant_key`: before and after the mutex is taken. -/
  | observe
  | observed
  | insert (x : α)
  /-- An insertion with the mutex held; a vacant entry unwraps the result. -/
  | insertLocked (unwrap : Bool) (x : α)
  /-- The end of an exclusive call that holds the mutex. -/
  | unlock
  | vacantEntry
  | mark (m : MarkFor) (idx : Nat)
  | markLocked (m : MarkFor) (idx : Nat)
  | markUnlock (m : MarkFor) (idx : Nat)
  /-- The removal is marked in the slab and not yet recorded in the generation. -/
  | record (m : MarkFor) (idx : Nat)
  /-- `iter_mut`, called by `clear` or by the owner. -/
  | iterMut (clear : Bool)
  | iterMutLocked (clear : Bool)
  | iterMutUnlock (clear : Bool) (remaining : Nat)
  | startIter (clear : Bool) (remaining : Nat)
  | clearLoop
  /-- The drop of the iterator of `clear`. -/
  | dropIterMut
  /-- `advance_generation`, called by `schedule_finalization` or by the drop of an iterator. -/
  | advance (dropIter : Bool)
  /-- A reader for the result of the call. -/
  | newReader (clear : Bool)
  /-- The call returns when its destructors are done. -/
  | ret (b : Borrow)
  deriving DecidableEq, Repr

/-- A thread: its destructors, innermost first, and its place in a call. -/
structure Thread (α : Type) where
  drops : List (Drop α)
  pc : Pc α
  /-- The thread has panicked and runs destructors. -/
  unwinding : Bool
  deriving DecidableEq, Repr

/-- The slab, the thread that holds a vacant entry of it, and all threads. -/
structure Config (α : Type) where
  state : State α
  vacant : Option Nat
  threads : List (Thread α)
  deriving DecidableEq, Repr

variable {α : Type}

/-- How the removal borrows the slab. -/
def MarkFor.borrow : MarkFor → Borrow
  | .markRemoved | .remove => .call
  | .entry _ => .iter
  | .clear _ => .clear

/-- The generation in which a removal is recorded. -/
def MarkFor.target (s : State α) : MarkFor → Option Nat
  | .markRemoved | .remove => s.slab.map (·.curGen)
  | .entry g | .clear g => some g

/-- What is dropped after a removal, or when it unwinds: the reference of an entry. -/
def MarkFor.drops : MarkFor → List (Drop α)
  | .markRemoved | .remove => []
  | .entry g | .clear g => [.gen g]

/-- Where a call goes on after a removal. -/
def MarkFor.next : MarkFor → Pc α
  | .markRemoved => .idle
  | .remove => .advance false
  | .entry _ => .ret .iter
  | .clear _ => .clearLoop

/-- How a call borrows the slab. -/
def Pc.borrow : Pc α → Option Borrow
  | .idle => none
  | .observe | .observed => some .shared
  | .insert _ | .insertLocked _ _ | .unlock | .vacantEntry => some .call
  | .mark m _ | .markLocked m _ | .markUnlock m _ | .record m _ => some m.borrow
  | .iterMut clear | .iterMutLocked clear | .iterMutUnlock clear _ | .startIter clear _ =>
    some (if clear then .clear else .call)
  | .clearLoop | .dropIterMut => some .clear
  | .advance dropIter => some (if dropIter then .iter else .call)
  | .newReader clear => some (if clear then .clear else .call)
  | .ret b => some b

/-- Unwinding: what the abandoned frames drop, and the iterator of `clear`, which is dropped by
`dropIterMut`. -/
def Pc.unwind : Pc α → List (Drop α) × Pc α
  | .idle => ([], .idle)
  | .mark (.clear g) _ | .markLocked (.clear g) _ | .markUnlock (.clear g) _
  | .record (.clear g) _ => ([.gen g], .dropIterMut)
  | .mark m _ | .markLocked m _ | .markUnlock m _ | .record m _ => (m.drops, .ret m.borrow)
  | .clearLoop | .dropIterMut => ([], .dropIterMut)
  | pc => ([], .ret (pc.borrow.getD .call))

/-! ### One step of a thread -/

/-- What a step of a thread does. -/
inductive Turn (α : Type) where
  /-- The thread waits for the mutex. -/
  | waits
  /-- The thread has more to drop and goes on at `pc`. -/
  | goes (s : State α) (drops : List (Drop α)) (pc : Pc α)
  /-- The call returns a vacant entry, with the mutex held. -/
  | reserves (s : State α)
  /-- The thread panics; what the panicking destructor owns is dropped first. -/
  | panics (s : State α) (drops : List (Drop α))
  /-- An assertion on the internals of the slab fails, or the behaviour is undefined. -/
  | faults (fault : RustFault)
  deriving DecidableEq, Repr

/-- `lock().unwrap()` -/
def takeLock (s : State α) (poisoned : Turn α) (locked : State α → Turn α) : Turn α :=
  if s.writerStrong = 0 then .faults .undefined
  else if s.locked then .waits
  else if s.poisoned then poisoned
  else locked { s with locked := true }

/-- The drop of the guard. -/
def dropGuard (s : State α) (k : State α → Turn α) : Turn α :=
  if s.writerStrong = 0 then .faults .undefined else k { s with locked := false }

/-- The drop of the guard while unwinding. -/
def State.poison (s : State α) : State α := { s with locked := false, poisoned := true }

/-- An access to the storage. -/
def onStorage {β : Type} (s : State α) (f : Except RustFault β) (k : β → Turn α) : Turn α :=
  if s.storageStrong = 0 then .faults .undefined
  else
    match f with
    | .ok b => k b
    | .error fault => .faults fault

/-- An access to generation `g`. -/
def onGen (s : State α) (g : Nat) (k : Gen → Turn α) : Turn α :=
  match s.gens[g]? with
  | none => .faults .undefined
  | some gen => if gen.strong = 0 then .faults .undefined else k gen

/-- An access through the slab. -/
def onSlab (s : State α) (k : Slab → Turn α) : Turn α :=
  match s.slab with
  | none => .faults .undefined
  | some slab => k slab

/-- The fields of a generation, which are dropped after its destructor. -/
def genFields (next : Option Nat) : List (Drop α) := .writer :: next.toList.map .gen

/-- One step of a destructor. -/
def runDrop (s : State α) (pc : Pc α) : Drop α → Turn α
  | .storage =>
    match s.storageStrong with
    | 0 => .faults .undefined
    | 1 =>
      onStorage s (Iter.items s.cslab.storage) fun items =>
        .goes { s with
          storageStrong := 0
          log := s.log ++ .storageDropped ::
            items.map fun p => .destroyed (.storage p.1) p.2 false } [] pc
    | n + 2 => .goes { s with storageStrong := n + 1 } [] pc
  | .writer =>
    match s.writerStrong with
    | 0 => .faults .undefined
    -- the slab behind the mutex has a reference to the storage
    | 1 => .goes { s with writerStrong := 0 } [.storage] pc
    | n + 2 => .goes { s with writerStrong := n + 1 } [] pc
  | .gen g =>
    onGen s g fun gen =>
      if gen.strong = 1 then
        .goes { s with gens := s.gens.set g { gen with strong := 0 } }
          [.finalize g gen.pendingRemoves gen.nextGen] pc
      else .goes { s with gens := s.gens.set g { gen with strong := gen.strong - 1 } } [] pc
  | .finalize g indices next =>
    takeLock s (.panics s (genFields next)) fun s => .goes s [.finalizing g indices [] next] pc
  | .finalizing g (idx :: indices) items next =>
    onStorage s (s.cslab.finalizeRemove idx) fun (x, cslab) =>
      .goes { s with cslab, log := s.log ++ [.finalized g idx x] }
        [.finalizing g indices (items ++ [(idx, x)]) next] pc
  | .finalizing g [] items next => dropGuard s fun s => .goes s [.items g items next] pc
  | .items g ((idx, x) :: items) next =>
    .goes { s with log := s.log ++ [.destroyed (.gen g idx) x false] } [.items g items next] pc
  | .items _ [] next => .goes s (genFields next) pc

/-- The state after `advance_generation`, before the old generation is released. -/
def State.nextGeneration (s : State α) (slab : Slab) (gen : Gen) : State α :=
  { s with
    writerStrong := s.writerStrong + 1
    gens := s.gens.set slab.curGen { gen with nextGen := some s.gens.length } ++ [⟨2, [], none⟩]
    slab := some { slab with curGen := s.gens.length }
    log := s.log ++ [.advanced s.gens.length] }

/-- `advance_generation`, with its assertion. -/
def runAdvance (s : State α) (pc : Pc α) : Turn α :=
  onSlab s fun slab => onGen s slab.curGen fun gen =>
    if gen.nextGen.isSome then .faults .panic
    else .goes (s.nextGeneration slab gen) [.gen slab.curGen] pc

/-- The state with another reader of generation `g`. -/
def State.withReader (s : State α) (g : Nat) (gen : Gen) : State α :=
  { s with
    gens := s.gens.set g { gen with strong := gen.strong + 1 }
    storageStrong := s.storageStrong + 1
    readers := s.readers ++ [some ⟨g, []⟩] }

/-- One round of the loop of `clear`. -/
def runClearLoop (s : State α) : Turn α :=
  onSlab s fun slab =>
    match s.iterMut with
    | none => .faults .undefined
    | some im =>
      onStorage s (im.iter.next s.cslab.storage) fun
        | (none, iter) => .goes { s with iterMut := some { im with iter } } [] .dropIterMut
        | (some (idx, _), iter) =>
          onStorage s (usizeSub im.remaining 1) fun remaining =>
            onGen s slab.curGen fun gen =>
              .goes { s with
                iterMut := some ⟨iter, remaining⟩
                gens := s.gens.set slab.curGen { gen with strong := gen.strong + 1 } }
                [] (.mark (.clear slab.curGen) idx)

/-- One step of a call. -/
def runPc (s : State α) (unwinding : Bool) : Pc α → Turn α
  | .idle => .waits
  | .observe => takeLock s (.panics s []) fun s => .goes s [] .observed
  | .observed => dropGuard s fun s => .goes s [] .idle
  | .insert x =>
    takeLock s (.panics { s with log := s.log ++ [.destroyed .rejected x false] } []) fun s =>
      .goes s [] (.insertLocked false x)
  | .insertLocked unwrap x =>
    onStorage s (s.cslab.insert x) fun
      | (some idx, cslab) =>
        .goes { s with cslab, log := s.log ++ [.inserted idx x] } [] .unlock
      | (none, _) =>
        let s := { s with log := s.log ++ [.destroyed .rejected x true] }
        if unwrap then .panics s.poison [] else .goes s [] .unlock
  | .unlock => dropGuard s fun s => .goes s [] .idle
  | .vacantEntry =>
    takeLock s (.panics s []) fun s =>
      onStorage s (.ok s.cslab.vacantKey) fun key =>
        if key.isNone then .goes s [] .unlock else .reserves s
  | .mark m idx => takeLock s (.panics s []) fun s => .goes s [] (.markLocked m idx)
  | .markLocked m idx =>
    match s.cslab.markRemoved idx with
    -- there is no element at the index
    | .error .panic => .panics s.poison []
    | marked => onStorage s marked fun cslab => .goes { s with cslab } [] (.markUnlock m idx)
  | .markUnlock m idx => dropGuard s fun s => .goes s [] (.record m idx)
  | .record m idx =>
    match m.target s with
    | none => .faults .undefined
    | some g =>
      onGen s g fun gen =>
        .goes { s with
          gens := s.gens.set g { gen with pendingRemoves := gen.pendingRemoves ++ [idx] }
          log := s.log ++ [.marked g idx] } m.drops m.next
  | .iterMut clear => takeLock s (.panics s []) fun s => .goes s [] (.iterMutLocked clear)
  | .iterMutLocked clear => .goes s [] (.iterMutUnlock clear s.cslab.len)
  | .iterMutUnlock clear remaining => dropGuard s fun s => .goes s [] (.startIter clear remaining)
  | .startIter clear remaining =>
    onStorage s (.ok (Iter.new s.cslab.storage)) fun iter =>
      .goes { s with iterMut := some ⟨iter, remaining⟩ } [] (if clear then .clearLoop else .idle)
  | .clearLoop => runClearLoop s
  | .dropIterMut =>
    runAdvance { s with iterMut := none } (if unwinding then .ret .clear else .newReader true)
  | .advance dropIter => runAdvance s (if dropIter then .ret .iter else .newReader false)
  | .newReader _ =>
    onSlab s fun slab => onGen s slab.curGen fun gen =>
      .goes (s.withReader slab.curGen gen) [] .idle
  | .ret _ => .goes s [] .idle

/-! ### The system -/

namespace Config

variable (c : Config α)

/-- The system after an outcome of thread `t`, which has the destructors `rest` left. -/
def settle (t : Nat) (th : Thread α) (rest : List (Drop α)) :
    Turn α → Option (Except RustFault (Config α))
  | .waits => none
  | .goes s drops pc =>
    some (.ok ⟨s, c.vacant, c.threads.set t { th with drops := drops ++ rest, pc }⟩)
  | .reserves s => some (.ok ⟨s, some t, c.threads.set t { th with drops := rest, pc := .idle }⟩)
  | .panics s drops =>
    -- a panic of a destructor during unwinding aborts the process
    if th.unwinding then some (.ok { c with state := { s with aborted := true } })
    else some (.ok ⟨s, c.vacant,
      c.threads.set t ⟨drops ++ rest ++ th.pc.unwind.1, th.pc.unwind.2, true⟩⟩)
  | .faults fault => some (.error fault)

/-- A step of thread `t`, if it does not wait. -/
def exec (t : Nat) : Option (Except RustFault (Config α)) :=
  if c.state.aborted then none
  else
    match c.threads[t]? with
    | none => none
    | some th =>
      match th.drops with
      | d :: rest => c.settle t th rest (runDrop c.state th.pc d)
      | [] => c.settle t th [] (runPc c.state th.unwinding th.pc)

/-- The slab exists and nothing between calls borrows it exclusively. -/
def present : Bool :=
  c.state.slab.isSome && c.vacant.isNone && c.state.iterMut.isNone &&
    c.state.entries.all (·.isNone)

/-- The slab may be borrowed shared. -/
def sharable : Bool :=
  c.present && c.threads.all fun th => th.pc.borrow.all (· == .shared)

/-- The slab may be borrowed exclusively. -/
def usable : Bool := c.present && c.threads.all fun th => th.pc.borrow.isNone

/-- Nothing uses the iterator of the owner. -/
def iterable : Bool := c.threads.all fun th => th.pc.borrow != some .clear

/-- Thread `t` enters a call. -/
def enter (t : Nat) (s : State α) (drops : List (Drop α)) (pc : Pc α) : Config α :=
  { c with state := s, threads := c.threads.set t ⟨drops, pc, false⟩ }

/-- Thread `t` enters an exclusive call. -/
def enterCall (t : Nat) (pc : Pc α) : Option (Except RustFault (Config α)) :=
  if c.usable then some (.ok (c.enter t c.state [] pc)) else none

/-- Thread `t` enters `len`, `allocated` or `vacant_key`. -/
def enterShared (t : Nat) : Option (Except RustFault (Config α)) :=
  if c.sharable then some (.ok (c.enter t c.state [] .observe)) else none

/-- A read of the storage, which is done in one step. -/
def read {β : Type} (found : Except RustFault β) (k : β → State α) :
    Except RustFault (Config α) :=
  if c.state.storageStrong = 0 then .error .undefined
  else do return { c with state := k (← found) }

/-- A new reader of generation `g`. -/
def addReader (g : Nat) : Except RustFault (Config α) :=
  match c.state.gens[g]? with
  | none => .error .undefined
  | some gen =>
    if gen.strong = 0 then .error .undefined
    else .ok { c with state := c.state.withReader g gen }

/-- The iterator of the owner found an item, which it yields as an entry. -/
def yieldEntry (slab : Slab) (im : IterMut)
    (found : Except RustFault (Option (Nat × α) × Iter)) : Except RustFault (Config α) :=
  if c.state.storageStrong = 0 then .error .undefined
  else do
    let (item, iter) ← found
    match item with
    | none => return { c with state := { c.state with iterMut := some { im with iter } } }
    | some (idx, value) =>
      let remaining ← usizeSub im.remaining 1
      match c.state.gens[slab.curGen]? with
      | none => .error .undefined
      | some gen =>
        return { c with state := { c.state with
          iterMut := some ⟨iter, remaining⟩
          gens := c.state.gens.set slab.curGen { gen with strong := gen.strong + 1 }
          entries := c.state.entries ++ [some ⟨idx, value, slab.curGen⟩] } }

/-- The call of an operation by thread `t`. -/
def start (t : Nat) : Op α → Option (Except RustFault (Config α))
  | .len | .allocated | .vacantKey => c.enterShared t
  | .get idx =>
    if c.sharable then some (c.read (c.state.cslab.storage.getImpl idx) fun _ => c.state) else none
  | .reader =>
    if c.sharable then c.state.slab.map fun slab => c.addReader slab.curGen else none
  | .insert x => c.enterCall t (.insert x)
  | .markRemoved idx => c.enterCall t (.mark .markRemoved idx)
  | .scheduleFinalization => c.enterCall t (.advance false)
  | .remove idx => c.enterCall t (.mark .remove idx)
  | .clear => c.enterCall t (.iterMut true)
  | .iterMut => c.enterCall t (.iterMut false)
  | .vacantEntry => c.enterCall t .vacantEntry
  | .drop =>
    if c.usable then c.state.slab.map fun slab =>
      .ok (c.enter t { c.state with slab := none } [.writer, .storage, .gen slab.curGen] .idle)
    else none
  | .vacantEntryKey =>
    if c.vacant = some t then
      if c.state.cslab.vacantKey.isNone then some (.error .panic) else some (.ok c)
    else none
  | .vacantEntryInsert x =>
    if c.vacant = some t then
      some (.ok ({ c with vacant := none }.enter t c.state [] (.insertLocked true x)))
    else none
  | .vacantEntryDrop =>
    if c.vacant = some t then some (.ok ({ c with vacant := none }.enter t c.state [] .unlock))
    else none
  | .vacantEntryPanic =>
    if c.vacant = some t then some (.ok { c with vacant := none, state := c.state.poison })
    else none
  | .iterMutNext =>
    match c.state.slab, c.state.iterMut with
    | some slab, some im =>
      if c.iterable then some (c.yieldEntry slab im (im.iter.next c.state.cslab.storage)) else none
    | _, _ => none
  | .iterMutNextBack =>
    match c.state.slab, c.state.iterMut with
    | some slab, some im =>
      if c.iterable then some (c.yieldEntry slab im (im.iter.nextBack c.state.cslab.storage))
      else none
    | _, _ => none
  | .iterMutDrop =>
    if c.state.iterMut.isSome && c.iterable then
      some (.ok (c.enter t { c.state with iterMut := none } [] (.advance true)))
    else none
  | .entryRemove k => c.state.entries[k]?.join.map fun e =>
      .ok (c.enter t { c.state with entries := c.state.entries.set k none } []
        (.mark (.entry e.gen) e.idx))
  | .entryDrop k => c.state.entries[k]?.join.map fun e =>
      .ok (c.enter t { c.state with entries := c.state.entries.set k none } [.gen e.gen]
        (.ret .iter))
  | .readerClone h => c.state.readers[h]?.join.map fun r => c.addReader r.gen
  | .readerDrop h => c.state.readers[h]?.join.map fun r =>
      .ok (c.enter t { c.state with readers := c.state.readers.set h none }
        [.storage, .gen r.gen] .idle)
  | .readerGet h idx => c.state.readers[h]?.join.map fun _ =>
      c.read (c.state.cslab.storage.getImpl idx) fun _ => c.state
  | .readerContainsKey h idx => c.state.readers[h]?.join.map fun _ =>
      c.read (c.state.cslab.storage.containsKeyImpl idx) fun _ => c.state
  | .readerIter h => c.state.readers[h]?.join.map fun r =>
      c.read (.ok (Iter.new c.state.cslab.storage)) fun iter =>
        { c.state with
          readers := c.state.readers.set h (some { r with iters := r.iters ++ [iter] }) }
  | .readerNext h k => c.state.readers[h]?.join.bind fun r => r.iters[k]?.map fun it =>
      c.read (it.next c.state.cslab.storage) fun found =>
        { c.state with
          readers := c.state.readers.set h (some { r with iters := r.iters.set k found.2 }) }
  | .readerNextBack h k => c.state.readers[h]?.join.bind fun r => r.iters[k]?.map fun it =>
      c.read (it.nextBack c.state.cslab.storage) fun found =>
        { c.state with
          readers := c.state.readers.set h (some { r with iters := r.iters.set k found.2 }) }

/-- A thread between two calls starts a call. -/
def invoke (t : Nat) (op : Op α) : Option (Except RustFault (Config α)) :=
  if c.state.aborted then none
  else
    match c.threads[t]? with
    | some ⟨[], .idle, _⟩ => c.start t op
    | _ => none

end Config

/-- What a thread does next. -/
inductive Label (α : Type) where
  | invoke (t : Nat) (op : Op α)
  | exec (t : Nat)
  deriving DecidableEq, Repr

/-- One step of the system. -/
def Config.step (c : Config α) : Label α → Option (Except RustFault (Config α))
  | .invoke t op => c.invoke t op
  | .exec t => c.exec t

/-- A new slab and `n` threads between calls. -/
def Config.withFixedCapacity (alloc : Alloc) (t : Layout) (capacity n : Nat) :
    Except RustFault (Config α) := do
  return ⟨← RcuCslab.withFixedCapacity alloc t capacity, none, List.replicate n ⟨[], .idle, false⟩⟩

/-- A run of the system: the threads' steps in any order. -/
def Interleaving (c : Config α) (labels : List (Label α)) (c' : Config α) : Prop :=
  Steps (fun c l c' => Config.step c l = some (.ok c')) c labels c'

/-- The run of the steps `labels`, if each of them can be taken. -/
def Config.run (c : Config α) : List (Label α) → Option (Config α)
  | [] => some c
  | l :: labels => (c.step l).bind fun r => r.toOption.bind fun c' => c'.run labels

theorem interleaving_of_run {c c' : Config α} {labels : List (Label α)}
    (h : c.run labels = some c') : Interleaving c labels c' := by
  induction labels generalizing c with
  | nil =>
    obtain rfl := Option.some.inj h
    exact .nil c
  | cons l labels ih =>
    obtain ⟨r, hr, h⟩ := Option.bind_eq_some_iff.mp h
    obtain ⟨c₁, hc₁, h⟩ := Option.bind_eq_some_iff.mp h
    rw [except_toOption_eq_some.mp hc₁] at hr
    rw [← List.singleton_append]
    exact (Steps.single hr).append (ih h)

/-- What `f` sees after the steps `labels` of `n` threads on a new slab. -/
def Config.observe {β : Type} (t : Layout) (capacity n : Nat) (labels : List (Label α))
    (f : Config α → β) : Option β :=
  (Config.withFixedCapacity .memory t capacity n).toOption.bind fun c => (c.run labels).map f

theorem exists_interleaving_of_observe {β : Type} {t : Layout} {capacity n : Nat}
    {labels : List (Label α)} {f : Config α → β} {b : β}
    (h : Config.observe t capacity n labels f = some b) :
    ∃ c₀ c, Config.withFixedCapacity .memory t capacity n = .ok c₀ ∧ Interleaving c₀ labels c ∧
      f c = b := by
  obtain ⟨c₀, hnew, h⟩ := Option.bind_eq_some_iff.mp h
  obtain ⟨c, hrun, hf⟩ := Option.map_eq_some_iff.mp h
  exact ⟨c₀, c, except_toOption_eq_some.mp hnew, interleaving_of_run hrun, hf⟩

end ZprUtils.RcuCslab
