import ZprUtils.RcuCslab.Returns

/-!
# What the parts of the calls keep to

Whether a call leaves something alone, or keeps to the discipline of the mutex, is decided by a few
kinds of parts of which the calls consist: changes of counters and handles, events, destructors of
items, and computations under the mutex. A contract that these parts keep to is kept by the calls,
whatever the state and however the call ends. This is checked once, along the source.

The first use is for properties of the readers and of the log. They are kept by every call that does
not insert and does not change a read handle, if they are kept when a reader is added and when
something other than an insertion is logged.

## Main definitions

* `Blocks` — contracts that the parts of the calls keep to.
* `Op.composed` — the calls that consist of such parts only.
* `Framed` — a property of the readers and of the log.
* `Op.framed` — the calls that keep it.

## Main results

* `Blocks.releaseGen`, `Blocks.clear` — the cascade of generation drops and the longest call.
* `Blocks.of_call` — all calls that consist of such parts only.
* `Framed.of_call`, `Framed.settle` — the calls, and their outcomes.
-/

namespace ZprUtils.RcuCslab

variable {α β : Type} {s s' : State α}

/-- The event is an insertion. -/
def Event.isInsertion : Event α → Bool
  | .inserted .. => true
  | _ => false

/-- The event is neither an insertion nor the destructor of an item. -/
def Event.isBookkeeping : Event α → Bool
  | .inserted .. | .destroyed .. => false
  | _ => true

theorem Event.not_isInsertion {e : Event α} (h : e.isBookkeeping = true) :
    e.isInsertion = false := by
  cases e <;> simp_all [isBookkeeping, isInsertion]

/-! ### The parts of the calls -/

/-- Contracts that the parts of the calls keep to: `C false` is the one of parts that start with the
mutex free, `C true` the one of computations on the slab with the mutex held. -/
structure Blocks (C : Bool → Call.Contract (State α)) : Prop where
  /-- Only the readers, the log and the mutex matter. -/
  same : ∀ {b : Bool} {s s' : State α}, (C b).inv s → s'.readers = s.readers → s'.log = s.log →
    s'.locked = s.locked → (C b).Allows s s'
  emit : ∀ {b : Bool} {s : State α} {events : List (Event α)}, (C b).inv s →
    (∀ e ∈ events, e.isBookkeeping = true) → (C b).Allows s { s with log := s.log ++ events }
  /-- Items are destroyed with the mutex free. -/
  destroy : ∀ {s : State α} (items : List (DropSite × α)), (C false).inv s →
    (C false).Allows s
      { s with log := s.log ++ items.map fun p => .destroyed p.1 p.2 s.locked }
  addReader : ∀ {b : Bool} {s : State α} {r : Reader}, (C b).inv s →
    (C b).Allows s { s with readers := s.readers ++ [some r] }
  withLock : ∀ {β : Type} {m : Call (State α) β}, m.Respects (C true) →
    (withLock m).Respects (C false)

namespace Blocks

variable {C : Bool → Call.Contract (State α)} (hC : Blocks C) {b : Bool}
include hC

/-- A change of anything but the readers, the log and the mutex. -/
theorem modify {f : State α → State α} (hreaders : ∀ s, (f s).readers = s.readers)
    (hlog : ∀ s, (f s).log = s.log) (hlocked : ∀ s, (f s).locked = s.locked) :
    (Call.modify f).Respects (C b) :=
  .modify fun s hs => hC.same hs (hreaders s) (hlog s) (hlocked s)

theorem onCslab (f : Cslab α → Except RustFault (β × Cslab α)) :
    (onCslab f).Respects (C b) := by
  intro s hs
  rw [RcuCslab.onCslab]
  split
  · exact ⟨hC.same hs rfl rfl rfl, by simp⟩
  · exact ⟨.of_refl hs, by simp⟩

theorem emitted {events : List (Event α)} (hevents : ∀ e ∈ events, e.isBookkeeping = true) :
    (RcuCslab.emit events).Respects (C b) :=
  .modify fun _ hs => hC.emit hs hevents

theorem destroyed (items : List (DropSite × α)) :
    (RcuCslab.destroy items).Respects (C false) :=
  .modify fun _ hs => hC.destroy items hs

theorem modifyGen (g : Nat) (f : Gen → Gen) :
    (modifyGen g f : Call (State α) Unit).Respects (C b) :=
  hC.modify (fun _ => rfl) (fun _ => rfl) fun _ => rfl

theorem releaseStorage : (releaseStorage : Call (State α) Unit).Respects (C false) := by
  refine .bind (hC.modify (fun _ => rfl) (fun _ => rfl) fun _ => rfl) fun _ =>
    .bind .get fun s => ?_
  split
  · exact .bind (hC.emitted (by simp [Event.isBookkeeping])) fun _ =>
      .bind (.liftFault _) fun _ => hC.destroyed _
  · exact .pure ()

theorem releaseWriter : (releaseWriter : Call (State α) Unit).Respects (C false) := by
  refine .bind (hC.modify (fun _ => rfl) (fun _ => rfl) fun _ => rfl) fun _ =>
    .bind .get fun s => ?_
  split
  · exact hC.releaseStorage
  · exact .pure ()

/-- The destructor of a generation gives the mutex back before it destroys the items. -/
theorem dropGen (g : Nat) (gen : Gen) :
    (dropGen g gen : Call (State α) Unit).Respects (C false) := by
  refine .bind (hC.withLock (.bind (hC.onCslab _) fun items => .bind (hC.emitted fun e he => ?_)
    fun _ => .pure _)) fun _ => hC.destroyed _
  obtain ⟨p, -, rfl⟩ := List.mem_map.mp he
  rfl

/-- The cascade of generation drops, by induction on its length. -/
theorem releaseGen (fuel g : Nat) :
    (releaseGen fuel g : Call (State α) Unit).Respects (C false) := by
  induction fuel generalizing g with
  | zero => exact .pure ()
  | succ fuel ih =>
    refine .bind (hC.modifyGen _ _) fun _ => .bind .get fun s => ?_
    split
    · exact .pure ()
    · split
      · exact .pure ()
      · refine .andDrop (hC.dropGen _ _) (.bind hC.releaseWriter fun _ => ?_)
        split
        · exact .pure ()
        · exact ih _

theorem dropGenRef (g : Nat) : (dropGenRef g : Call (State α) Unit).Respects (C false) :=
  .bind .get fun _ => hC.releaseGen _ g

theorem markRemovedIn (g idx : Nat) :
    (markRemovedIn g idx : Call (State α) Unit).Respects (C false) :=
  .bind (hC.withLock (hC.onCslab _)) fun _ => .bind (hC.modifyGen _ _) fun _ =>
    hC.emitted (by simp [Event.isBookkeeping])

theorem advanceGeneration (slab : Slab) :
    (advanceGeneration slab : Call (State α) Unit).Respects (C false) :=
  .bind .get fun _ => .bind (hC.modify (fun _ => rfl) (fun _ => rfl) fun _ => rfl) fun _ =>
    .bind (hC.emitted (by simp [Event.isBookkeeping])) fun _ => hC.dropGenRef _

theorem newReader (g : Nat) : (RcuCslab.addReader g : Call (State α) Nat).Respects (C b) := by
  refine .bind .get fun _ => .bind (hC.modifyGen _ _) fun _ => .bind (.modify fun s hs => ?_)
    fun _ => .pure _
  have hadded : (C b).Allows s { s with readers := s.readers ++ [some ⟨g, []⟩] } := hC.addReader hs
  exact hadded.trans (hC.same hadded.inv rfl rfl rfl)

/-! ### The calls -/

theorem len : (len : Call (State α) Nat).Respects (C false) := hC.withLock (hC.onCslab _)

theorem reader : (reader : Call (State α) (Option Nat)).Respects (C b) := by
  refine .bind .get fun s => ?_
  split
  · exact .bind (hC.newReader _) fun _ => .pure _
  · exact .pure _

theorem scheduleFinalization (slab : Slab) :
    (scheduleFinalization slab : Call (State α) (Option Nat)).Respects (C false) :=
  .bind (hC.advanceGeneration slab) fun _ => hC.reader

theorem dropSlab (slab : Slab) : (dropSlab slab : Call (State α) Unit).Respects (C false) :=
  .bind (hC.modify (fun _ => rfl) (fun _ => rfl) fun _ => rfl) fun _ =>
    .bind hC.releaseWriter fun _ => .bind hC.releaseStorage fun _ => hC.dropGenRef _

theorem iterMut : (iterMut : Call (State α) Unit).Respects (C false) :=
  .bind hC.len fun _ => hC.modify (fun _ => rfl) (fun _ => rfl) fun _ => rfl

theorem yieldEntry (slab : Slab) (im : IterMut)
    (found : Except RustFault (Option (Nat × α) × Iter)) :
    (yieldEntry slab im found).Respects (C b) := by
  refine .bind (.liftFault _) fun p =>
    .bind (hC.modify (fun _ => rfl) (fun _ => rfl) fun _ => rfl) fun _ => ?_
  obtain ⟨item, iter⟩ := p
  cases item with
  | none => exact .pure _
  | some item =>
    exact .bind (.liftFault _) fun _ => .bind .get fun _ => .bind (hC.modifyGen _ _) fun _ =>
      .bind (hC.modify (fun _ => rfl) (fun _ => rfl) fun _ => rfl) fun _ => .pure _

theorem iterMutNext (slab : Slab) (im : IterMut) :
    (iterMutNext slab im : Call (State α) (Option (Nat × Entry α))).Respects (C b) :=
  .bind .get fun _ => hC.yieldEntry slab im _

theorem iterMutNextBack (slab : Slab) (im : IterMut) :
    (iterMutNextBack slab im : Call (State α) (Option (Nat × Entry α))).Respects (C b) :=
  .bind .get fun _ => hC.yieldEntry slab im _

theorem dropIterMut (slab : Slab) :
    (dropIterMut slab : Call (State α) Unit).Respects (C false) :=
  .bind (hC.modify (fun _ => rfl) (fun _ => rfl) fun _ => rfl) fun _ => hC.advanceGeneration slab

theorem dropEntry (k : Nat) (e : Entry α) : (dropEntry k e).Respects (C false) :=
  .bind (hC.modify (fun _ => rfl) (fun _ => rfl) fun _ => rfl) fun _ => hC.dropGenRef _

theorem entryRemove (k : Nat) (e : Entry α) : (entryRemove k e).Respects (C false) :=
  .andDrop (hC.markRemovedIn _ _) (hC.dropEntry k e)

theorem clearLoop (slab : Slab) (fuel : Nat) :
    (clearLoop slab fuel : Call (State α) Unit).Respects (C false) := by
  induction fuel with
  | zero => exact .pure ()
  | succ fuel ih =>
    refine .bind .get fun s => ?_
    split
    · exact .pure ()
    · refine .bind (hC.iterMutNext _ _) fun found => ?_
      split
      · exact .pure ()
      · exact .bind (hC.entryRemove _ _) fun _ => ih

theorem clear (slab : Slab) : (clear slab : Call (State α) (Option Nat)).Respects (C false) :=
  .bind hC.iterMut fun _ => .bind .get fun _ =>
    .bind (.andDrop (hC.clearLoop slab _) (hC.dropIterMut slab)) fun _ => hC.reader

/-- The drop of a read handle, apart from the handle itself. -/
theorem readerDrop {k : Nat} (r : Reader)
    (hdrop : ∀ s : State α, (C false).inv s →
      (C false).Allows s { s with readers := s.readers.set k none }) :
    (readerDrop k r : Call (State α) Unit).Respects (C false) :=
  .bind (.modify hdrop) fun _ => .bind hC.releaseStorage fun _ => hC.dropGenRef _

end Blocks

/-- The calls that neither insert, nor keep the mutex beyond their end, nor change a read handle. -/
def Op.composed : Op α → Bool
  | .insert _ | .vacantEntry | .vacantEntryKey | .vacantEntryInsert _ | .vacantEntryDrop
  | .vacantEntryPanic | .readerDrop _ | .readerIter _ | .readerNext _ _ | .readerNextBack _ _ =>
    false
  | _ => true

/-- **Every call that consists of the building blocks** keeps to a contract that they keep to. A
contract is closed under sequences and scopes, so that there is one line for each call. -/
theorem Blocks.of_call {C : Bool → Call.Contract (State α)} (hC : Blocks C) {op : Op α}
    {m : Call (State α) (Ret α)} (hop : op.composed = true) (hcall : call s op = some m) :
    m.Respects (C false) := by
  cases allowed_of_call hcall with
  | len | allocated | vacantKey => exact .map (hC.withLock (hC.onCslab _))
  | get | readerGet | readerContainsKey => exact .map (.bind .get fun _ => .liftFault _)
  | markRemoved => exact .map (hC.markRemovedIn _ _)
  | reader => exact .map hC.reader
  | scheduleFinalization => exact .map (hC.scheduleFinalization _)
  | remove => exact .map (.bind (hC.markRemovedIn _ _) fun _ => hC.scheduleFinalization _)
  | clear => exact .map (hC.clear _)
  | drop => exact .map (hC.dropSlab _)
  | iterMut => exact .map hC.iterMut
  | iterMutNext => exact .map (hC.iterMutNext _ _)
  | iterMutNextBack => exact .map (hC.iterMutNextBack _ _)
  | iterMutDrop => exact .map (hC.dropIterMut _)
  | entryRemove => exact .map (hC.entryRemove _ _)
  | entryDrop => exact .map (hC.dropEntry _ _)
  | readerClone => exact .map (hC.newReader _)
  | _ => exact absurd hop nofun

/-! ### Properties of the readers and of the log -/

/-- A property of the readers and of the log that new readers and events other than insertions do
not disturb. -/
structure Framed (P : State α → Prop) : Prop where
  same : ∀ {s s' : State α}, P s → s'.readers = s.readers → s'.log = s.log → P s'
  emit : ∀ {s : State α} {events : List (Event α)}, P s → (∀ e ∈ events, e.isInsertion = false) →
    P { s with log := s.log ++ events }
  addReader : ∀ {s : State α} {r : Reader}, P s → P { s with readers := s.readers ++ [some r] }

/-- The calls that insert nothing and change no read handle. -/
def Op.framed : Op α → Bool
  | .insert _ | .vacantEntryInsert _ | .readerDrop _ | .readerIter _ | .readerNext _ _
  | .readerNextBack _ _ => false
  | _ => true

namespace Framed

variable {P : State α → Prop} (hP : Framed P)
include hP

/-- A change of anything but the readers and the log. -/
theorem modify {f : State α → State α} (hreaders : ∀ s, (f s).readers = s.readers)
    (hlog : ∀ s, (f s).log = s.log) : (Call.modify f).Respects (.preserving P) :=
  .modify fun s hs => .preserving (hP.same hs (hreaders s) (hlog s))

theorem lock : (lock : Call (State α) Unit).Respects (.preserving P) := by
  intro s hs
  refine ⟨.preserving ?_, fun _ => trivial⟩
  rw [RcuCslab.lock]
  split_ifs
  · exact hs
  · exact hs
  · exact hP.same hs rfl rfl

theorem unlock : (unlock : Call (State α) Unit).Respects (.preserving P) :=
  hP.modify (fun _ => rfl) fun _ => rfl

theorem unlockPoisoned : (unlockPoisoned : Call (State α) Unit).Respects (.preserving P) :=
  hP.modify (fun _ => rfl) fun _ => rfl

theorem underGuard {m : Call (State α) β} (hm : m.Respects (.preserving P)) :
    (underGuard m).Respects (.preserving P) := by
  intro s hs
  obtain ⟨hms, -⟩ := hm s hs
  refine ⟨.preserving ?_, fun _ => trivial⟩
  rw [RcuCslab.underGuard]
  rcases hr : m s with ⟨r, s'⟩
  rw [hr] at hms
  cases r with
  | ok b => exact (hP.unlock _ hms.inv).1.inv
  | error e =>
    cases e with
    | panicked fault => exact (hP.unlockPoisoned _ hms.inv).1.inv
    | blocked | aborted => exact (hP.unlock _ hms.inv).1.inv

theorem blocks : Blocks fun _ => .preserving P where
  same hs hreaders hlog _ := .preserving (hP.same hs hreaders hlog)
  emit hs hevents := .preserving (hP.emit hs fun e he => Event.not_isInsertion (hevents e he))
  destroy items hs := by
    refine .preserving (hP.emit hs fun e he => ?_)
    obtain ⟨p, -, rfl⟩ := List.mem_map.mp he
    rfl
  addReader hs := .preserving (hP.addReader hs)
  withLock hm := .bind hP.lock fun _ => hP.underGuard hm

theorem vacantEntry : (vacantEntry : Call (State α) Bool).Respects (.preserving P) := by
  refine .bind hP.lock fun _ => .bind .get fun s => ?_
  split
  · exact .bind hP.unlock fun _ => .pure _
  · exact .pure _

theorem vacantEntryKey : (vacantEntryKey : Call (State α) Nat).Respects (.preserving P) := by
  refine .bind .get fun s => ?_
  split
  · exact .pure _
  · exact .bind hP.unlockPoisoned fun _ => .panicked _

/-! ### One step -/

/-- A call that waits is undone. -/
theorem settle {r : Except Interrupt (Ret α) × State α} (hs : P s) (hr : P r.2) :
    P (settle s r).2 := by
  rcases settle_cases s r with ⟨-, hsettle⟩ | ⟨-, hsettle⟩ | ⟨-, -, hsettle⟩
  · rw [hsettle]
    exact hs
  · rw [hsettle]
    exact hP.same hr rfl rfl
  · rw [hsettle]
    exact hr

/-- **Every call** that inserts nothing and changes no read handle keeps a property of the readers
and of the log, those of a vacant entry included. -/
theorem of_call {op : Op α} {m : Call (State α) (Ret α)} (hop : op.framed = true)
    (hcall : call s op = some m) : m.Respects (.preserving P) := by
  cases hcomposed : op.composed with
  | true => exact hP.blocks.of_call hcomposed hcall
  | false =>
    cases allowed_of_call hcall with
    | vacantEntry => exact .map hP.vacantEntry
    | vacantEntryKey => exact .map hP.vacantEntryKey
    | vacantEntryDrop => exact .map hP.unlock
    | vacantEntryPanic => exact .map hP.unlockPoisoned
    | insert | vacantEntryInsert | readerDrop | readerIter | readerNext | readerNextBack =>
      simp [Op.framed] at hop
    | _ => exact absurd hcomposed nofun

end Framed

end ZprUtils.RcuCslab
