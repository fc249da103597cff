import ZprUtils.RcuCslab.Destruction
import ZprUtils.RcuCslab.Frames

/-!
# The mutex of the RCU slab

A call that starts with the mutex free takes it only for computations on the slab that request
nothing, and runs the destructors of items after it has given the mutex back. This is a contract
that the parts of the calls keep to, and so do the calls that consist of them. Two calls are
different. An insertion into a full slab destroys its item before the guard is dropped, and the drop
of the last handle of a generation requests the mutex although a vacant entry may hold it.

## Main definitions

* `mutexContract` — the contract of not waiting and destroying no item under the mutex.
* `WaitsForItself`, `InsertsFull` — the two exceptions.

## Main results

* `blocks_mutexContract` — the parts of the calls keep to the contract.
* `step_blocked_iff`, `no_self_deadlock` — when a step waits for a mutex that its thread holds.
* `step_destroys_iff`, `destroys_outside_mutex` — when a destructor runs under the mutex.
-/

namespace ZprUtils.RcuCslab

variable {α β γ : Type} {s s' : State α} {b : Bool}

/-! ### Calls that neither wait nor destroy items under the mutex -/

/-- The event is the destructor of an item that runs with the mutex held. -/
def Event.underMutex : Event α → Bool
  | .destroyed _ _ locked => locked
  | _ => false

/-- The outcome of a call from the state `s` that did not wait and ran no destructor of an item
under the mutex. -/
structure Harmless (s : State α) (r : Except Interrupt β × State α) : Prop where
  not_blocked : r.1 ≠ .error .blocked
  log : ∃ events, r.2.log = s.log ++ events ∧ ∀ e ∈ events, e.underMutex = false

/-- The contract of calls that start with the mutex held or not, as `b` says: they leave it so, log
no destructor of an item under the mutex, and do not wait. -/
def mutexContract (b : Bool) : Call.Contract (State α) where
  inv s := s.locked = b
  rel s s' := ∃ events, s'.log = s.log ++ events ∧ ∀ e ∈ events, e.underMutex = false
  waits := False
  refl s := ⟨[], (List.append_nil _).symm, by simp⟩
  trans := by
    rintro s s' s'' ⟨events, hlog, hev⟩ ⟨events', hlog', hev'⟩
    refine ⟨events ++ events', ?_, List.forall_mem_append.mpr ⟨hev, hev'⟩⟩
    rw [hlog', hlog, List.append_assoc]

/-- An outcome without new events. -/
theorem Harmless.of_log {r : Except Interrupt β × State α} (hr : r.1 ≠ .error .blocked)
    (hlog : r.2.log = s.log) : Harmless s r :=
  ⟨hr, [], by rw [hlog, List.append_nil], by simp⟩

theorem Harmless.map {m : Call (State α) β} {f : β → γ} (h : Harmless s (m s)) :
    Harmless s ((f <$> m) s) := by
  obtain ⟨hr, hlog⟩ := h
  rcases hm : m s with ⟨r, t⟩
  rw [hm] at hr hlog
  cases r with
  | ok x =>
    rw [Call.map_apply_ok hm]
    exact ⟨nofun, hlog⟩
  | error e =>
    rw [Call.map_apply_error hm]
    exact ⟨fun h => hr (congrArg _ (Except.error.inj h)), hlog⟩

theorem Harmless.of_respects {m : Call (State α) β} (hm : m.Respects (mutexContract b))
    (hlocked : s.locked = b) : Harmless s (m s) := by
  obtain ⟨hallows, hwaits⟩ := hm s hlocked
  exact ⟨hwaits, hallows.rel⟩

/-- A change of the state that leaves the mutex and the log alone. -/
theorem mutexContract_allows (hb : s.locked = b) (hlog : s'.log = s.log)
    (hlocked : s'.locked = s.locked) : (mutexContract b).Allows s s' :=
  ⟨hlocked.trans hb, [], by rw [hlog, List.append_nil], by simp⟩

/-- A computation under the mutex that requests nothing. -/
theorem mutexContract_withLock {m : Call (State α) β} (hm : m.Respects (mutexContract true)) :
    (withLock m).Respects (mutexContract false) := by
  intro s (hb : s.locked = false)
  rcases Bool.eq_false_or_eq_true s.poisoned with hpoison | hpoison
  · rw [withLock_poisoned hb hpoison]
    exact ⟨.of_refl hb, by simp⟩
  · obtain ⟨⟨-, hlog⟩, hr⟩ := hm { s with locked := true } rfl
    have hlock : lock s = (.ok (), { s with locked := true }) := by simp [lock, hb, hpoison]
    rw [withLock, Call.bind_apply_ok hlock, underGuard]
    rcases hms : m { s with locked := true } with ⟨r, t⟩
    rw [hms] at hr hlog
    cases r with
    | ok x => exact ⟨⟨rfl, hlog⟩, by simp⟩
    | error e =>
      cases e with
      | panicked fault => exact ⟨⟨rfl, hlog⟩, by simp⟩
      | blocked => exact (hr rfl).elim
      | aborted => exact ⟨⟨rfl, hlog⟩, by simp⟩

/-- **The parts of the calls neither wait nor destroy items under the mutex.** Only the last part is
about the mutex itself: it is taken when it is free, and given back whatever happens under it. -/
theorem blocks_mutexContract : Blocks (mutexContract (α := α)) where
  same hb _ hlog hlocked := mutexContract_allows hb hlog hlocked
  emit hb hevents := by
    refine ⟨hb, _, rfl, fun e he => ?_⟩
    have hevent := hevents e he
    cases e with
    | destroyed => exact absurd hevent nofun
    | _ => rfl
  destroy items hb := by
    refine ⟨hb, _, rfl, fun e he => ?_⟩
    obtain ⟨p, -, rfl⟩ := List.mem_map.mp he
    exact hb
  addReader hb := mutexContract_allows hb rfl rfl
  withLock := mutexContract_withLock

/-! ### Read handles -/

theorem mutexContract_readerDrop (k : Nat) (r : Reader) :
    (readerDrop k r : Call (State α) Unit).Respects (mutexContract false) :=
  blocks_mutexContract.readerDrop r fun _ hb => mutexContract_allows hb rfl rfl

theorem mutexContract_readerIter (k : Nat) (r : Reader) :
    (readerIter k r : Call (State α) Nat).Respects (mutexContract b) :=
  .bind (.modify fun _ hb => mutexContract_allows hb rfl rfl) fun _ => .pure _

theorem mutexContract_readerAdvance (k j : Nat) (r : Reader)
    (found : Except RustFault (Option (Nat × α) × Iter)) :
    (readerAdvance k j r found).Respects (mutexContract b) :=
  .bind (.liftFault _) fun _ => .bind (.modify fun _ hb => mutexContract_allows hb rfl rfl)
    fun _ => .pure _

/-! ### The exceptions -/

/-- The thread that holds a vacant entry drops the last handle of a generation. -/
def WaitsForItself (s : State α) : Op α → Prop
  | .readerDrop k => s.locked = true ∧
      ∃ r, HandleAt s.readers k r ∧ strongAt s.gens r.gen = 1
  | _ => False

/-- An insertion into a full slab. -/
def InsertsFull (s : State α) : Op α → Prop
  | .insert _ => s.poisoned = false ∧ s.cslab.vacantKey = none
  | _ => False

/-- The drop of a reader while a vacant entry holds the mutex: it waits when the reader is the last
handle of its generation, and only gives back references otherwise. -/
theorem readerDrop_locked {k : Nat} {r : Reader} (hi : Inv {} s) (hk : HandleAt s.readers k r)
    (hlocked : s.locked = true) :
    (strongAt s.gens r.gen = 1 ∧ (readerDrop k r s).1 = .error .blocked) ∨
      strongAt s.gens r.gen ≠ 1 ∧ ∃ t, readerDrop k r s = (.ok (), t) ∧ t.log = s.log := by
  have hslab : s.slab.isSome = true := (State.usable_iff.mp (State.usable_of_locked hi hlocked)).1
  have hcount : 0 < s.readerCount := countHandles_pos hk rfl
  obtain ⟨gen, hgen, halive⟩ := hi.refs.alive_of_reader hk
  have hwriter := hi.refs.writer
  have hstorage := hi.refs.storage
  have hgens : 0 < s.gens.countP Gen.alive :=
    List.countP_pos_iff.mpr ⟨gen, List.mem_of_getElem? hgen, halive⟩
  have hne : (s.writerStrong != 0).toNat = 1 := by
    rw [bne_iff_ne.mpr (by rw [hwriter]; omega), Bool.toNat_true]
  rw [hne, hslab, Bool.toNat_true] at hstorage
  have hlast : ¬s.storageStrong - 1 = 0 := by omega
  have hself : (s.gens.set r.gen { gen with strong := gen.strong - 1 })[r.gen]? =
      some { gen with strong := gen.strong - 1 } :=
    List.getElem?_set_self (List.getElem?_eq_some_iff.mp hgen).1
  have hmodify := modify_eq_set_of_getElem? hgen fun gen => { gen with strong := gen.strong - 1 }
  have hpos : gen.strong ≠ 0 := by simpa [Gen.alive] using halive
  rw [strongAt_of_getElem? hgen]
  simp only [readerDrop, releaseStorage, dropGenRef, releaseGen, modifyGen, Call.bind_bind_apply,
    Call.modify_bind_apply, Call.get_bind_apply, if_neg hlast, Call.pure_bind_apply, hmodify, hself]
  by_cases hone : gen.strong = 1
  · refine Or.inl ⟨hone, ?_⟩
    simp only [hone, Nat.sub_self, ne_eq, not_true_eq_false, if_false]
    have hwait : ∀ (gen : Gen) (t : State α), t.locked = true →
        dropGen r.gen gen t = (.error .blocked, t) := by
      intro gen t ht
      simp [dropGen, withLock, lock, ht, bind]
    exact congrArg Prod.fst (Call.andDrop_apply_blocked (hwait _ _ (by exact hlocked)))
  · have hmore : gen.strong - 1 ≠ 0 := by omega
    rw [if_pos hmore]
    exact Or.inr ⟨hone, _, rfl, rfl⟩

/-- With the mutex free every call but an insertion into a full slab is harmless. The calls are
traversed once; this is the contract of the mutex at each of them. -/
theorem harmless_call {op : Op α} {m : Call (State α) (Ret α)} (hi : Inv {} s)
    (hcall : call s op = some m) (hlocked : s.locked = false) (hfull : ¬InsertsFull s op) :
    Harmless s (m s) := by
  cases hcomposed : op.composed with
  | true => exact .of_respects (blocks_mutexContract.of_call hcomposed hcall) hlocked
  | false =>
    cases allowed_of_call hcall with
    | @insert x =>
      refine Harmless.map ?_
      rcases insert_eq (x := x) hi hlocked with ⟨-, h⟩ | ⟨hpoison, hkey, -⟩ | ⟨i, c, -, -, h⟩
      · rw [h]
        exact ⟨by simp, _, rfl, by simp [Event.underMutex]⟩
      · exact absurd ⟨hpoison, hkey⟩ hfull
      · rw [h]
        exact ⟨by simp, _, rfl, by simp [Event.underMutex]⟩
    | vacantEntry =>
      refine Harmless.map ?_
      rcases Bool.eq_false_or_eq_true s.poisoned with hpoison | hpoison
      · have hlock : lock s = (.error (.panicked .panic), s) := by simp [lock, hlocked, hpoison]
        rw [vacantEntry, Call.bind_apply_error hlock]
        exact .of_log (by simp) rfl
      · have hlock : lock s = (.ok (), { s with locked := true }) := by simp
        [lock, hlocked, hpoison]
        rw [vacantEntry, Call.bind_apply_ok hlock, Call.get_bind_apply]
        split
        · exact .of_log (by simp [unlock]) rfl
        · exact .of_log (by simp) rfl
    | vacantEntryKey h | vacantEntryInsert h | vacantEntryDrop h | vacantEntryPanic h =>
      exact absurd (hlocked.symm.trans h) (by simp)
    | readerDrop => exact .of_respects (.map (mutexContract_readerDrop _ _)) hlocked
    | readerIter => exact .of_respects (.map (mutexContract_readerIter _ _)) hlocked
    | readerNext | readerNextBack =>
      exact .of_respects (.map (.bind .get fun _ => mutexContract_readerAdvance _ _ _ _)) hlocked
    | _ => simp [Op.composed] at hcomposed

/-- While a vacant entry holds the mutex only readers and the entry can be used: every such call but
the drop of the last handle of a generation is harmless. -/
theorem harmless_call_locked {op : Op α} {m : Call (State α) (Ret α)} (hi : Inv {} s)
    (hcall : call s op = some m) (hlocked : s.locked = true) (hwaits : ¬WaitsForItself s op) :
    Harmless s (m s) := by
  have of_respects : ∀ {β : Type} {m : Call (State α) β} {f : β → Ret α},
      m.Respects (mutexContract true) → Harmless s ((f <$> m) s) :=
    fun hm => .of_respects hm.map hlocked
  obtain ⟨him, hentries, -⟩ := hi.borrows.locked hlocked
  have hunusable : s.usable = true → False := fun h =>
    absurd (hlocked.symm.trans (State.usable_iff.mp h).2.1) nofun
  cases allowed_of_call hcall with
  | len h | allocated h | vacantKey h | get h | insert h | markRemoved h | reader h
  | scheduleFinalization h | remove h | clear h | drop h | vacantEntry h | iterMut h =>
    exact (hunusable h).elim
  | vacantEntryKey =>
    obtain ⟨i, -, hkey⟩ := vacantEntryKey_eq hi hlocked
    refine Harmless.map ?_
    rw [hkey]
    exact .of_log nofun rfl
  | @vacantEntryInsert x =>
    obtain ⟨i, c, -, hins⟩ := vacantEntryInsert_eq hi hlocked x
    refine Harmless.map ?_
    rw [hins]
    exact ⟨nofun, _, rfl, by simp [Event.underMutex]⟩
  | vacantEntryDrop | vacantEntryPanic => exact Harmless.map (.of_log nofun rfl)
  | iterMutNext _ h | iterMutNextBack _ h | iterMutDrop _ h =>
    exact absurd (him.symm.trans h) nofun
  | entryRemove hk | entryDrop hk => exact absurd hk (hentries _ _)
  | readerClone => exact of_respects (blocks_mutexContract.newReader _)
  | readerDrop hh =>
    refine Harmless.map ?_
    rcases readerDrop_locked hi hh hlocked with ⟨hone, -⟩ | ⟨-, t, hdrop, hlog⟩
    · exact absurd ⟨hlocked, _, hh, hone⟩ hwaits
    · rw [hdrop]
      exact .of_log nofun hlog
  | readerGet | readerContainsKey => exact of_respects (.bind .get fun _ => .liftFault _)
  | readerIter => exact of_respects (mutexContract_readerIter _ _)
  | readerNext | readerNextBack =>
    exact of_respects (.bind .get fun _ => mutexContract_readerAdvance _ _ _ _)

/-! ### Steps -/

/-- A harmless call is not undone. -/
theorem Harmless.settle {r : Except Interrupt (Ret α) × State α} (h : Harmless s r) :
    Harmless s (settle s r) := by
  rcases settle_cases s r with ⟨ho, -⟩ | ⟨-, hsettle⟩ | ⟨-, -, hsettle⟩
  · exact absurd ho h.1
  · rw [hsettle]
    exact ⟨by simp, h.2⟩
  · rw [hsettle]
    exact h

/-- Every step but the two exceptions is harmless: it does not wait, and it destroys no item while
the mutex is held. -/
theorem harmless_step {op : Op α} {o : Except Interrupt (Ret α)} (hi : Inv {} s)
    (hstep : step s op = some (o, s')) (hwaits : ¬WaitsForItself s op)
    (hfull : ¬InsertsFull s op) : Harmless s (o, s') := by
  obtain ⟨m, hcall, hsettle⟩ := step_eq_some hstep
  rw [← hsettle]
  refine Harmless.settle ?_
  rcases Bool.eq_false_or_eq_true s.locked with hlocked | hlocked
  · exact harmless_call_locked hi hcall hlocked hwaits
  · exact harmless_call hi hcall hlocked hfull

/-- The drop of the last handle of a generation waits for the vacant entry of its own thread.
Nothing changes, since the one that could give the mutex back is the one that waits. -/
theorem step_waits {op : Op α} {o : Except Interrupt (Ret α)} (hi : Inv {} s)
    (hstep : step s op = some (o, s')) (hwaits : WaitsForItself s op) :
    o = .error .blocked ∧ s' = s := by
  obtain ⟨m, hcall, hsettle⟩ := step_eq_some hstep
  cases allowed_of_call hcall with
  | @readerDrop k r hk' =>
    obtain ⟨hlocked, r, hk, hone⟩ := hwaits
    obtain rfl := hk.inj hk'
    rcases readerDrop_locked hi hk hlocked with ⟨-, hblocked⟩ | ⟨hne, -⟩
    · rcases hdrop : readerDrop k r s with ⟨r', t⟩
      rw [hdrop] at hblocked
      obtain rfl : r' = .error .blocked := hblocked
      rw [Call.map_apply_error hdrop] at hsettle
      obtain ⟨rfl, rfl⟩ := Prod.mk.inj hsettle
      exact ⟨rfl, rfl⟩
    · exact absurd hone hne
  | _ => exact hwaits.elim

/-- An insertion into a full slab destroys its item under the mutex: the item was moved into the
call, which returns an error while the guard is still in scope. -/
theorem step_insertsFull {op : Op α} {o : Except Interrupt (Ret α)} (hi : Inv {} s)
    (hstep : step s op = some (o, s')) (hfull : InsertsFull s op) :
    o ≠ .error .blocked ∧ ∃ x, s'.log = s.log ++ [.destroyed .rejected x true] := by
  obtain ⟨m, hcall, hsettle⟩ := step_eq_some hstep
  cases allowed_of_call hcall with
  | @insert x husable =>
    rcases insert_eq (x := x) hi (State.usable_iff.mp husable).2.1 with
      ⟨hpoison, -⟩ | ⟨-, -, h⟩ | ⟨i, c, -, hok, -⟩
    · exact absurd (hpoison.symm.trans hfull.1) nofun
    · obtain ⟨ho, hs'⟩ := settle_map_ok hsettle h
      rw [ho, hs']
      exact ⟨nofun, x, rfl⟩
    · obtain ⟨free, hinv⟩ := hi.pending.cslab
      have hkey := hinv.vacantKey_eq
      rw [hfull.2] at hkey
      cases free with
      | nil =>
        rw [hinv.insert_nil] at hok
        exact absurd hok nofun
      | cons j rest => exact absurd hkey nofun
  | _ => exact hfull.elim

/-- **A step waits for itself** exactly when it is the drop of the last handle of a generation while
a vacant entry is alive. The drop finalizes the generation, for which it requests the mutex that the
vacant entry holds. -/
theorem step_blocked_iff {op : Op α} {o : Except Interrupt (Ret α)} (hi : Inv {} s)
    (hstep : step s op = some (o, s')) : o = .error .blocked ↔ WaitsForItself s op := by
  refine ⟨fun ho => ?_, fun hwaits => (step_waits hi hstep hwaits).1⟩
  by_contra hwaits
  by_cases hfull : InsertsFull s op
  · exact (step_insertsFull hi hstep hfull).1 ho
  · exact (harmless_step hi hstep hwaits hfull).not_blocked ho

/-- **A step destroys an item under the mutex** exactly when it is an insertion into a full slab:
the item is an argument of the call, and is dropped before the guard is. -/
theorem step_destroys_iff {op : Op α} {o : Except Interrupt (Ret α)} (hi : Inv {} s)
    (hstep : step s op = some (o, s')) :
    ∃ events, s'.log = s.log ++ events ∧
      ((∀ e ∈ events, e.underMutex = false) ↔ ¬InsertsFull s op) := by
  by_cases hfull : InsertsFull s op
  · obtain ⟨-, x, hlog⟩ := step_insertsFull hi hstep hfull
    refine ⟨_, hlog, fun h => ?_, fun h => absurd hfull h⟩
    exact absurd (h _ (List.mem_singleton_self _)) nofun
  · by_cases hwaits : WaitsForItself s op
    · obtain ⟨-, rfl⟩ := step_waits hi hstep hwaits
      exact ⟨[], (List.append_nil _).symm, by simp [hfull]⟩
    · obtain ⟨-, events, hlog, hev⟩ := harmless_step hi hstep hwaits hfull
      exact ⟨events, hlog, fun _ => hfull, fun _ => hev⟩

/-! ### Runs -/

/-- What holds after a run: its steps were taken from states with the invariant, and the items were
destroyed outside the mutex unless an insertion went into a full slab. -/
structure LockInv (es : List (State α × Op α × Except Interrupt (Ret α))) (s : State α) : Prop where
  inv : Inv {} s
  blocked_iff : ∀ e ∈ es, e.2.2 = .error .blocked ↔ WaitsForItself e.1 e.2.1
  destroys_iff : (∀ e ∈ s.log, e.underMutex = false) ↔ ∀ e ∈ es, ¬InsertsFull e.1 e.2.1

theorem lockInv_of_run {t : Layout} {capacity : Nat} {s₀ : State α}
    {es : List (State α × Op α × Except Interrupt (Ret α))}
    (hnew : withFixedCapacity .memory t capacity = .ok s₀) (hrun : Steps TracedStep s₀ es s) :
    LockInv es s := by
  refine Steps.history (P := LockInv) ?_ hrun ⟨inv_withFixedCapacity hnew, by simp, ?_⟩
  · rintro es s ⟨s₁, op, o⟩ s' ⟨hi, hblocked, hdestroys⟩ ⟨rfl, hstep⟩
    refine ⟨step_inv hi hstep, ?_, ?_⟩
    · rw [List.forall_mem_append, List.forall_mem_singleton]
      exact ⟨hblocked, step_blocked_iff hi hstep⟩
    · obtain ⟨events, hlog, hev⟩ := step_destroys_iff hi hstep
      rw [hlog, List.forall_mem_append, List.forall_mem_append, List.forall_mem_singleton,
        hdestroys, hev]
  · have hlog : s₀.log = [] := congrArg Ledger.log (ledger_withFixedCapacity hnew)
    simp [hlog]

/-- **Self-deadlock on the writer mutex.** In a run of calls of one thread no call requests the
mutex while the thread holds it, if and only if no call of the run drops the last handle of a
generation while a vacant entry is alive. -/
theorem no_self_deadlock {t : Layout} {capacity : Nat} {s₀ : State α}
    {es : List (State α × Op α × Except Interrupt (Ret α))}
    (hnew : withFixedCapacity .memory t capacity = .ok s₀) (hrun : Steps TracedStep s₀ es s) :
    (∀ e ∈ es, e.2.2 ≠ .error .blocked) ↔ ∀ e ∈ es, ¬WaitsForItself e.1 e.2.1 := by
  have hinv := lockInv_of_run hnew hrun
  constructor
  · intro h e he hwaits
    exact h e he ((hinv.blocked_iff e he).mpr hwaits)
  · intro h e he hblocked
    exact h e he ((hinv.blocked_iff e he).mp hblocked)

/-- A reader of the current generation is dropped while a vacant entry is alive: the slab holds that
generation too. -/
theorem no_self_deadlock_current :
    ∃ (s₀ s : State Nat) (es : List (State Nat × Op Nat × Except Interrupt (Ret Nat))),
      withFixedCapacity .memory ⟨4, 4⟩ 2 = .ok s₀ ∧ Steps TracedStep s₀ es s ∧
      (∃ e ∈ es, e.2 = (.readerDrop 0, .ok .unit)) ∧ ∀ e ∈ es, ¬WaitsForItself e.1 e.2.1 := by
  have hobserve : @observe Nat _ ⟨4, 4⟩ 2
      [.reader, .vacantEntry, .readerDrop 0, .vacantEntryInsert 7]
      (fun p => (([Op.reader, .vacantEntry, .readerDrop 0, .vacantEntryInsert 7].zip p.1).contains
        (Op.readerDrop 0, .ok .unit), p.1.all (· != .error .blocked))) = some (true, true) := by
    decide +kernel
  obtain ⟨s₀, rs, s, hnew, hrun, hsees⟩ := exists_run_of_observe hobserve
  simp only [Prod.mk.injEq, List.contains_iff_mem, List.all_eq_true, bne_iff_ne] at hsees
  obtain ⟨hmem, hall⟩ := hsees
  obtain ⟨es, hes, htraced⟩ := Steps.traced (Run.of_runOps hrun)
  rw [← hes] at hmem
  refine ⟨s₀, s, es, hnew, htraced, List.mem_map.mp hmem,
    (no_self_deadlock hnew htraced).mp fun e he => ?_⟩
  have hpair := List.mem_map_of_mem (f := Prod.snd) he
  rw [hes] at hpair
  exact hall _ (List.of_mem_zip hpair).2

/-- A thread drops the last reader of an old generation while it holds a vacant entry: the drop
finalizes that generation and waits for the mutex that the vacant entry holds. -/
theorem self_deadlock_vacantEntry :
    ∃ (s₀ s : State Nat) (es : List (State Nat × Op Nat × Except Interrupt (Ret Nat))),
      withFixedCapacity .memory ⟨4, 4⟩ 2 = .ok s₀ ∧ Steps TracedStep s₀ es s ∧
      ∃ e ∈ es, e.2 = (.readerDrop 0, .error .blocked) := by
  have hobserve : @observe Nat _ ⟨4, 4⟩ 2
      [.reader, .scheduleFinalization, .vacantEntry, .readerDrop 0]
      (fun p => ([Op.reader, .scheduleFinalization, .vacantEntry, .readerDrop 0].zip p.1).contains
        ((Op.readerDrop 0 : Op Nat), .error .blocked)) = some true := by
    decide +kernel
  obtain ⟨s₀, rs, s, hnew, hrun, hsees⟩ := exists_run_of_observe hobserve
  obtain ⟨es, hes, htraced⟩ := Steps.traced (Run.of_runOps hrun)
  rw [List.contains_iff_mem, ← hes] at hsees
  exact ⟨s₀, s, es, hnew, htraced, List.mem_map.mp hsees⟩

/-- **Item destructors and the mutex.** In a run no destructor of an item is executed with the mutex
held, if and only if no call of the run inserts into a full slab whose mutex is not poisoned. With a
poisoned mutex the insertion panics before it has a guard. -/
theorem destroys_outside_mutex {t : Layout} {capacity : Nat} {s₀ : State α}
    {es : List (State α × Op α × Except Interrupt (Ret α))}
    (hnew : withFixedCapacity .memory t capacity = .ok s₀) (hrun : Steps TracedStep s₀ es s) :
    (∀ site x locked, .destroyed site x locked ∈ s.log → locked = false) ↔
      ∀ e ∈ es, ¬InsertsFull e.1 e.2.1 := by
  rw [← (lockInv_of_run hnew hrun).destroys_iff]
  constructor
  · intro h e he
    cases e with
    | destroyed site x locked => exact h site x locked he
    | _ => rfl
  · intro h site x locked hmem
    exact h _ hmem

/-- An item is removed and finalized, another one is destroyed with the storage. -/
theorem destroys_outside_mutex_remove :
    ∃ (s₀ s : State Nat) (es : List (State Nat × Op Nat × Except Interrupt (Ret Nat))),
      withFixedCapacity .memory ⟨4, 4⟩ 2 = .ok s₀ ∧ Steps TracedStep s₀ es s ∧
      .destroyed (.gen 0 0) 7 false ∈ s.log ∧ ∀ e ∈ es, ¬InsertsFull e.1 e.2.1 := by
  have hobserve : @observe Nat _ ⟨4, 4⟩ 2
      [.insert 7, .insert 8, .remove 0, .drop, .readerDrop 0]
      (fun p => (p.2.log.contains (.destroyed (.gen 0 0) 7 false),
        p.2.log.all fun e => !e.underMutex)) = some (true, true) := by
    decide +kernel
  obtain ⟨s₀, rs, s, hnew, hrun, hsees⟩ := exists_run_of_observe hobserve
  simp only [Prod.mk.injEq, List.contains_iff_mem, List.all_eq_true] at hsees
  obtain ⟨hmem, hall⟩ := hsees
  obtain ⟨es, -, htraced⟩ := Steps.traced (Run.of_runOps hrun)
  refine ⟨s₀, s, es, hnew, htraced, hmem, (destroys_outside_mutex hnew htraced).mp ?_⟩
  intro site x locked hmem
  exact Bool.not_eq_true' _ ▸ hall _ hmem

/-- The second insertion into a slab of one slot destroys its item while the guard is alive. -/
theorem destroyed_under_mutex :
    ∃ (s₀ s : State Nat) (es : List (State Nat × Op Nat × Except Interrupt (Ret Nat))),
      withFixedCapacity .memory ⟨4, 4⟩ 1 = .ok s₀ ∧ Steps TracedStep s₀ es s ∧
      .destroyed .rejected 8 true ∈ s.log := by
  have hobserve : @observe Nat _ ⟨4, 4⟩ 1 [.insert 7, .insert 8]
      (fun p => p.2.log.contains (.destroyed .rejected 8 true)) = some true := by
    decide +kernel
  obtain ⟨s₀, rs, s, hnew, hrun, hsees⟩ := exists_run_of_observe hobserve
  obtain ⟨es, -, htraced⟩ := Steps.traced (Run.of_runOps hrun)
  exact ⟨s₀, s, es, hnew, htraced, List.contains_iff_mem.mp hsees⟩

end ZprUtils.RcuCslab
