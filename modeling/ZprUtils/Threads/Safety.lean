import ZprUtils.RcuCslab.Preservation
import ZprUtils.Threads.Iterating

/-!
# Safety of every interleaving

The invariant holds for a new slab and is kept by every move of every thread, so it holds after
every interleaving. Hence no step of any thread is undefined behaviour, fails an assertion of the
slab, or underflows a counter, whatever the other threads are doing; and the mutex is poisoned only
by the two panics that a caller can cause.

## Main results

* `threadInv_of_interleaving` — the invariant holds after every interleaving.
* `interleaving_never_faults` — no step faults.
* `poisoned_iff_of_interleaving` — what poisons the mutex.
* `iteration_exact` — the length of a mutable iteration.
-/

namespace ZprUtils.RcuCslab

variable {α : Type} {c c' : Config α} {t : Nat} {th : Thread α} {p : Site α} {s : State α}

/-! ### Steps -/

/-- **Every move keeps the invariant.** Its parts are the references, the guards, the removals in
flight, the borrow rules, and what the program points and the iteration say. -/
theorem Move.inv (h : Move c t th p) (hi : ThreadInv c) (ht : c.ThreadAt t th) :
    ThreadInv (c.place t p) where
  refs := h.refs (genRefs_place ht p) (writerRefs_place ht p) (storageRefs_place ht p) hi ht
  guards := h.guards hi ht (total_set ht p.thread)
  removals := h.removals hi ht (load_place ht p)
  loans := h.loans hi ht
  iteration := h.iteration hi ht

/-- The abort of the process changes nothing that the invariant speaks of. -/
theorem ThreadInv.abort (hi : ThreadInv c) :
    ThreadInv { c with state := { c.state with aborted := true } } where
  refs := hi.refs.congr rfl rfl rfl rfl rfl rfl
  guards := hi.guards
  removals := hi.removals.congr rfl (fun _ => rfl) id
  loans := ⟨hi.loans.dropped, hi.loans.vacant, hi.loans.exclusive, hi.loans.call, hi.loans.shared⟩
  iteration := by
    obtain ⟨hreserved, hthreads, him, hiters, hmarks, hmarked, hentry, hgen, hreaders⟩ :=
      hi.iteration
    refine ⟨hreserved, fun t th ht => ?_, him, hiters, hmarks, hmarked, hentry, hgen, hreaders⟩
    obtain ⟨hinsert, hstarting, hcounted, hclear, hunwinding, hdropping⟩ := hthreads t th ht
    exact ⟨hinsert, hstarting, hcounted, hclear, hunwinding, hdropping⟩

theorem Stepped.inv {l : Label α} (h : Stepped c l c') (hi : ThreadInv c) : ThreadInv c' := by
  cases h with
  | stays => exact hi
  | aborts hpoison => exact hi.abort
  | moves ht hmove hl => exact hmove.inv hi ht

/-! ### Runs -/

theorem threadAt_replicate {n : Nat} (ht : (⟨s, none, .replicate n ⟨[], .idle, false⟩⟩ :
    Config α).ThreadAt t th) : th = ⟨[], .idle, false⟩ :=
  (List.mem_replicate.mp (List.mem_of_getElem? ht)).2

/-- A slab between calls, without a mutable iteration and without entries, and threads that have
not yet called it. -/
theorem threadInv_of_inv {n : Nat} (hi : Inv {} s) (hlocked : s.locked = false)
    (him : s.iterMut = none) (hentries : ∀ k e, ¬HandleAt s.entries k e) :
    ThreadInv ⟨s, none, .replicate n ⟨[], .idle, false⟩⟩ := by
  have hzero : ∀ w : Thread α → Nat, w ⟨[], .idle, false⟩ = 0 →
      total w (.replicate n ⟨[], .idle, false⟩) = 0 := fun w hw => total_replicate hw
  have hnoentries : (⟨s, none, .replicate n ⟨[], .idle, false⟩⟩ : Config α).NoEntries := hentries
  have hmarks : ∀ i, (⟨s, none, .replicate n ⟨[], .idle, false⟩⟩ : Config α).marks i = 0 := by
    intro i
    rw [Config.marks, hzero _ rfl, Config.countHandles_of_noEntries hnoentries]
  refine ⟨?_, ?_, ?_, ?_, ?_⟩
  · refine (show RefCounts (fun _ => 0) 0 0 s from ⟨hi.refs.nextGen, hi.refs.curGen,
      hi.refs.strong, hi.refs.writer, hi.refs.storage⟩).recount (fun g => ?_) ?_ ?_
    · exact hzero _ rfl
    · exact hzero _ rfl
    · exact hzero _ rfl
  · rw [hzero _ rfl, hlocked]
    rfl
  · refine ⟨hi.pending.cslab, fun i => ?_, fun i hpos => ?_, fun hp i x hx => ?_⟩
    · rw [Config.load, hzero _ rfl, Nat.add_zero]
      exact List.nodup_iff_count_le_one.mp hi.pending.nodup i
    · rw [Config.load, hzero _ rfl, Nat.add_zero] at hpos
      exact hi.pending.slot i (List.count_pos_iff.mp hpos)
    · rw [Config.load, hzero _ rfl, Nat.add_zero]
      exact List.count_pos_iff.mpr (hi.pending.mem hp i x hx)
  · have hnone : (⟨s, none, .replicate n ⟨[], .idle, false⟩⟩ : Config α).NoBorrow := by
      intro t th ht
      rw [threadAt_replicate ht]
      rfl
    exact Config.loans_of_sole (t := 0) ⟨him, hentries, fun t th ht _ => hnone t th ht⟩
      (Or.inl rfl) (Or.inr ⟨hnone, rfl⟩)
  · refine ⟨fun t ht => absurd ht (by simp), fun t th ht => ?_, fun im h => ?_, ?_, fun i => ?_,
      fun i hpos => ?_, fun k e hk => absurd hk (hentries k e), fun g hg => ?_,
      hi.borrows.reader_iter⟩
    · rw [threadAt_replicate ht]
      exact consistent_of_plain rfl (fun hb => absurd hb (by simp [Pc.borrow]))
        (fun hu => absurd hu (by simp)) fun hne => absurd rfl hne
    · exact absurd (him.symm.trans h) (by simp)
    · rw [Config.iterators, hzero _ rfl, him]
      exact Nat.zero_le 1
    · rw [hmarks]
      exact Nat.zero_le 1
    · exact absurd (hmarks i) hpos.ne'
    · refine absurd hg (Config.not_entryGen hnoentries fun t th ht => ?_)
      rw [threadAt_replicate ht]
      rfl

variable {l : Layout} {capacity n : Nat} {c₀ : Config α} {labels : List (Label α)}

theorem threadInv_withFixedCapacity
    (hnew : Config.withFixedCapacity .memory l capacity n = .ok c₀) :
    ThreadInv c₀ := by
  obtain ⟨s, hs, hret⟩ := except_bind_eq_ok.mp hnew
  obtain rfl := Except.ok.inj hret
  obtain ⟨cslab, -, hret⟩ := except_bind_eq_ok.mp hs
  have hinv := inv_withFixedCapacity hs
  obtain rfl := Except.ok.inj hret
  exact threadInv_of_inv hinv rfl rfl fun k e hk => absurd hk (by simp [HandleAt])

/-- **The invariant holds after every interleaving** of steps, whichever thread takes the next one.
-/
theorem Interleaving.inv (hrun : Interleaving c labels c') (hi : ThreadInv c) : ThreadInv c' := by
  refine Steps.invariant (fun c l c' hi hstep => ?_) hrun hi
  obtain ⟨c'', hok, hstepped⟩ := step_cases hi hstep
  obtain rfl := Except.ok.inj hok
  exact hstepped.inv hi

theorem threadInv_of_interleaving (hnew : Config.withFixedCapacity .memory l capacity n = .ok c₀)
    (hrun : Interleaving c₀ labels c) : ThreadInv c :=
  hrun.inv (threadInv_withFixedCapacity hnew)

/-- **No step faults.** Whatever the threads have done, the next step of a thread is no undefined
behaviour, no failed assertion and no underflow; and the mutex is held exactly when one thread is in
a critical section or has the vacant entry. -/
theorem interleaving_never_faults (hnew : Config.withFixedCapacity .memory l capacity n = .ok c₀)
    (hrun : Interleaving c₀ labels c) :
    (∀ label fault, c.step label ≠ some (.error fault)) ∧
      total Thread.guards c.threads + c.vacant.isSome.toNat = c.state.locked.toNat := by
  have hi := threadInv_of_interleaving hnew hrun
  refine ⟨fun label fault h => ?_, hi.guards⟩
  obtain ⟨c', hok, -⟩ := step_cases hi h
  exact absurd hok (by simp)

/-- A thread is in the destructor of a generation, with the mutex held, and another one waits to
insert. -/
theorem interleaving_never_faults_finalizing :
    ∃ (c₀ c : Config Nat) (labels : List (Label Nat)),
      Config.withFixedCapacity .memory ⟨4, 4⟩ 2 2 = .ok c₀ ∧ Interleaving c₀ labels c ∧
      c.threads.map (·.pc) = [.insert 8, .idle] ∧ total Thread.guards c.threads = 1 ∧
      c.step (.exec 0) = none ∧ ∀ label fault, c.step label ≠ some (.error fault) := by
  obtain ⟨c₀, c, hnew, hrun, hc⟩ := exists_interleaving_of_observe (α := Nat) (t := ⟨4, 4⟩)
    (n := 2) (f := fun c => (c.threads.map (·.pc), total Thread.guards c.threads,
      (c.step (.exec 0)).isNone))
    (show Config.observe ⟨4, 4⟩ 2 2 [.invoke 0 (.insert 7), .exec 0, .exec 0, .exec 0,
      .invoke 0 .reader, .invoke 0 (.remove 0), .exec 0, .exec 0, .exec 0, .exec 0, .exec 0,
      .exec 0, .exec 0, .invoke 1 (.readerDrop 0), .exec 1, .exec 1, .exec 1,
      .invoke 0 (.insert 8)] _ = some ([.insert 8, .idle], 1, true) by decide)
  simp only [Prod.mk.injEq, Option.isNone_iff_eq_none] at hc
  exact ⟨c₀, c, _, hnew, hrun, hc.1, hc.2.1, hc.2.2, (interleaving_never_faults hnew hrun).1⟩

/-! ### Poisoning -/

/-- The two panics that poison the mutex: a removal of an index without an item, and a panic of the
caller that has the vacant entry. -/
inductive Poisons (c : Config α) : Label α → Prop
  | removal {t : Nat} {m : MarkFor} {idx : Nat} {u : Bool}
      (ht : c.ThreadAt t ⟨[], .markLocked m idx, u⟩) (hm : m = .markRemoved ∨ m = .remove)
      (habsent : ∀ x, c.state.cslab.slot idx ≠ .live x) : Poisons c (.exec t)
  | vacant {t : Nat} (hv : c.vacant = some t) : Poisons c (.invoke t .vacantEntryPanic)

section

variable {β : Type} {found : Except RustFault β} {k : β → State α}

theorem poisoned_of_read (h : c.read found k = .ok c')
    (hk : ∀ b, (k b).poisoned = c.state.poisoned) : c'.state.poisoned = c.state.poisoned := by
  rw [Config.read] at h
  split_ifs at h
  obtain ⟨b, -, hret⟩ := except_bind_eq_ok.mp h
  obtain rfl := Except.ok.inj hret
  exact hk b

theorem poisoned_of_addReader {g : Nat} (h : c.addReader g = .ok c') :
    c'.state.poisoned = c.state.poisoned := by
  rw [Config.addReader] at h
  split at h
  · exact absurd h (by simp)
  · split_ifs at h
    obtain rfl := Except.ok.inj h
    rfl

theorem poisoned_of_yieldEntry {slab : Slab} {im : IterMut}
    {found : Except RustFault (Option (Nat × α) × Iter)}
    (h : c.yieldEntry slab im found = .ok c') : c'.state.poisoned = c.state.poisoned := by
  rw [Config.yieldEntry] at h
  split_ifs at h
  obtain ⟨⟨item, iter⟩, -, h⟩ := except_bind_eq_ok.mp h
  cases item with
  | none =>
    obtain rfl := Except.ok.inj h
    rfl
  | some p =>
    obtain ⟨remaining, -, h⟩ := except_bind_eq_ok.mp h
    split at h
    · exact absurd h (by simp)
    · obtain rfl := Except.ok.inj h
      rfl

theorem poisoned_of_guarded {P : Prop} [Decidable P] {c₁ : Config α}
    (h : (if P then some (.ok c₁) else none : Option (Except RustFault (Config α))) = some (.ok c'))
    (hc₁ : c₁.state.poisoned = c.state.poisoned) : c'.state.poisoned = c.state.poisoned := by
  obtain ⟨-, hr⟩ := Option.ite_none_right_eq_some.mp h
  obtain rfl := Except.ok.inj (Option.some.inj hr)
  exact hc₁

end

/-- Only a panic of the caller poisons the mutex at the start of a call. -/
theorem poisoned_of_start {op : Op α} (h : c.start t op = some (.ok c'))
    (hop : op ≠ .vacantEntryPanic) : c'.state.poisoned = c.state.poisoned := by
  cases op with
  | vacantEntryPanic => exact absurd rfl hop
  | len | allocated | vacantKey => exact poisoned_of_guarded h rfl
  | insert _ | markRemoved _ | remove _ | scheduleFinalization | clear | iterMut | vacantEntry =>
    exact poisoned_of_guarded h rfl
  | get idx =>
    obtain ⟨-, hr⟩ := Option.ite_none_right_eq_some.mp h
    exact poisoned_of_read (Option.some.inj hr) fun _ => rfl
  | reader =>
    obtain ⟨-, hr⟩ := Option.ite_none_right_eq_some.mp h
    obtain ⟨slab, -, hr⟩ := Option.map_eq_some_iff.mp hr
    exact poisoned_of_addReader hr
  | drop =>
    obtain ⟨-, hr⟩ := Option.ite_none_right_eq_some.mp h
    obtain ⟨slab, -, hr⟩ := Option.map_eq_some_iff.mp hr
    obtain rfl := Except.ok.inj hr
    rfl
  | vacantEntryKey =>
    obtain ⟨-, hr⟩ := Option.ite_none_right_eq_some.mp h
    split_ifs at hr
    · exact absurd (Option.some.inj hr) (by simp)
    · obtain rfl := Except.ok.inj (Option.some.inj hr)
      rfl
  | vacantEntryInsert x => exact poisoned_of_guarded h rfl
  | vacantEntryDrop => exact poisoned_of_guarded h rfl
  | iterMutNext | iterMutNextBack =>
    simp only [Config.start] at h
    split at h
    · obtain ⟨-, hr⟩ := Option.ite_none_right_eq_some.mp h
      exact poisoned_of_yieldEntry (Option.some.inj hr)
    · exact absurd h (by simp)
  | iterMutDrop => exact poisoned_of_guarded h rfl
  | entryRemove k | entryDrop k | readerDrop k =>
    obtain ⟨e, -, hr⟩ := Option.map_eq_some_iff.mp h
    obtain rfl := Except.ok.inj hr
    rfl
  | readerClone k =>
    obtain ⟨r, -, hr⟩ := Option.map_eq_some_iff.mp h
    exact poisoned_of_addReader hr
  | readerGet k idx | readerContainsKey k idx | readerIter k =>
    obtain ⟨r, -, hr⟩ := Option.map_eq_some_iff.mp h
    exact poisoned_of_read hr fun _ => rfl
  | readerNext k j | readerNextBack k j =>
    obtain ⟨r, -, h⟩ := Option.bind_eq_some_iff.mp h
    obtain ⟨it, -, hr⟩ := Option.map_eq_some_iff.mp h
    exact poisoned_of_read hr fun _ => rfl

/-- Only the removal of an index without an item poisons the mutex in the middle of a call: the
assertion fails under the guard, and unwinding drops the guard. -/
theorem Move.poisoned_of_exec (h : Move c t th p)
    (hv : c.vacant = some t → th.drops ≠ [] ∨ th.pc ≠ .idle) :
    p.state.poisoned = c.state.poisoned ∨
      ∃ m idx, th = ⟨[], .markLocked m idx, false⟩ ∧ (m = .markRemoved ∨ m = .remove) ∧
        ∀ x, c.state.cslab.slot idx ≠ .live x := by
  cases h with
  | @poison m idx hm hbit =>
    refine Or.inr ⟨m, idx, rfl, ?_, fun x hx => ?_⟩
    · cases m with
      | markRemoved => exact Or.inl rfl
      | remove => exact Or.inr rfl
      | entry g | clear g => exact absurd hm (by simp [MarkFor.ofEntry])
    · exact absurd (hbit.symm.trans (Cslab.slot_eq_live.mp hx).2) (by simp)
  | panicVacant hv' =>
    rcases hv hv' with hne | hne
    · exact absurd rfl hne
    · exact absurd rfl hne
  | _ => exact Or.inl rfl

/-- **One step** poisons the mutex only by one of the two panics: a removal of an index without an
item, under the mutex, and a panic of the holder of a vacant entry. -/
theorem poisoned_step_iff {label : Label α} (hi : ThreadInv c)
    (hstep : c.step label = some (.ok c')) :
    c'.state.poisoned = true ↔ c.state.poisoned = true ∨ Poisons c label := by
  obtain ⟨c'', hok, hstepped⟩ := step_cases hi hstep
  obtain rfl := Except.ok.inj hok
  constructor
  · intro hp
    by_cases hold : c.state.poisoned = true
    · exact Or.inl hold
    refine Or.inr ?_
    cases label with
    | invoke t op =>
      simp only [Config.step, Config.invoke] at hstep
      split_ifs at hstep
      split at hstep
      · by_cases hop : op = .vacantEntryPanic
        · subst hop
          obtain ⟨hv, -⟩ := Option.ite_none_right_eq_some.mp hstep
          exact .vacant hv
        · exact absurd ((poisoned_of_start hstep hop).symm.trans hp) hold
      · exact absurd hstep (by simp)
    | exec t =>
      cases hstepped with
      | stays | aborts hpoison => exact absurd hp hold
      | @moves t' th p ht hmove hl =>
        obtain rfl : t = t' := hl
        have hbusy : c.vacant = some t → th.drops ≠ [] ∨ th.pc ≠ .idle := by
          intro _
          by_contra hne
          rw [not_or, not_not, not_not] at hne
          obtain ⟨drops, pc, u⟩ := th
          obtain ⟨rfl, rfl⟩ : drops = [] ∧ pc = .idle := hne
          simp only [Config.step, Config.exec] at hstep
          split_ifs at hstep
          rw [show c.threads[t]? = _ from ht] at hstep
          exact absurd hstep (by simp [runPc, Config.settle])
        rcases hmove.poisoned_of_exec hbusy with heq | ⟨m, idx, rfl, hm, habsent⟩
        · exact absurd (heq.symm.trans hp) hold
        · exact .removal ht hm habsent
  · rintro (hp | hpoisons)
    · cases hstepped with
      | stays | aborts hpoison => exact hp
      | moves ht hmove hl => exact hmove.poisoned hp
    · cases hpoisons with
      | @removal t m idx u ht hm habsent =>
        obtain ⟨free, hc⟩ := hi.removals.cslab
        have hbit : c.state.cslab.storage.bit idx = false := by
          cases hb : c.state.cslab.storage.bit idx with
          | false => rfl
          | true =>
            obtain ⟨x, hx⟩ := hc.item_of_bit idx hb
            exact absurd (Cslab.slot_eq_live.mpr ⟨hx, hb⟩) (habsent x)
        obtain rfl := not_unwinding hi ht rfl
        simp only [Config.step, Config.exec] at hstep
        split_ifs at hstep
        rw [show c.threads[t]? = _ from ht] at hstep
        simp only [runPc, hc.markRemoved_eq_panic hbit, Config.settle, Bool.false_eq_true,
          if_false, Option.some.injEq, Except.ok.injEq] at hstep
        rw [← hstep]
        rfl
      | @vacant t hv =>
        simp only [Config.step, Config.invoke] at hstep
        split_ifs at hstep
        split at hstep
        · obtain ⟨-, hr⟩ := Option.ite_none_right_eq_some.mp hstep
          obtain rfl := Except.ok.inj (Option.some.inj hr)
          rfl
        · exact absurd hstep (by simp)

/-- The steps of a run, each with the system before it. -/
def TracedRun (c : Config α) (es : List (Config α × Label α)) (c' : Config α) : Prop :=
  Steps (fun c e c' => e.1 = c ∧ Config.step c e.2 = some (.ok c')) c es c'

theorem Move.aborted (h : Move c t th p) : p.state.aborted = c.state.aborted := by
  cases h <;> rfl

/-- **Poisoning.** The mutex is poisoned exactly when a step of the run was one of the two panics;
a thread unwinds and the process aborts only after that. -/
theorem poisoned_iff_of_interleaving {es : List (Config α × Label α)}
    (hnew : Config.withFixedCapacity .memory l capacity n = .ok c₀) (hrun : TracedRun c₀ es c) :
    (c.state.poisoned = true ↔ ∃ e ∈ es, Poisons e.1 e.2) ∧
      (c.state.aborted = true ∨ (∃ t th, c.ThreadAt t th ∧ th.unwinding = true) →
        c.state.poisoned = true) := by
  have hsound : c₀.state.poisoned = false ∧ c₀.state.aborted = false := by
    obtain ⟨s, hs, hret⟩ := except_bind_eq_ok.mp hnew
    obtain rfl := Except.ok.inj hret
    obtain ⟨cslab, -, hret⟩ := except_bind_eq_ok.mp hs
    obtain rfl := Except.ok.inj hret
    exact ⟨rfl, rfl⟩
  have hhistory := Steps.history (P := fun es (c : Config α) => ThreadInv c ∧
    (c.state.aborted = true → c.state.poisoned = true) ∧
      (c.state.poisoned = true ↔ ∃ e ∈ es, Poisons e.1 e.2)) ?_ hrun
    ⟨threadInv_withFixedCapacity hnew, by simp [hsound.2], by simp [hsound.1]⟩
  · obtain ⟨hi, haborted, hiff⟩ := hhistory
    refine ⟨hiff, ?_⟩
    rintro (h | ⟨t, th, ht, hu⟩)
    · exact haborted h
    · exact ((hi.iteration.threads t th ht).unwinding hu).1
  · rintro es c e c' ⟨hi, haborted, hiff⟩ ⟨rfl, hstep⟩
    have hone := poisoned_step_iff hi hstep
    obtain ⟨c'', hok, hstepped⟩ := step_cases hi hstep
    obtain rfl := Except.ok.inj hok
    refine ⟨hstepped.inv hi, fun habort => ?_, ?_⟩
    · cases hstepped with
      | stays => exact haborted habort
      | aborts hpoison => exact hpoison
      | moves ht hmove hl => exact hmove.poisoned (haborted (hmove.aborted.symm.trans habort))
    · rw [hone, hiff]
      simp only [List.mem_append, List.mem_singleton, or_and_right, exists_or, exists_eq_left]

/-- A removal of an empty slot by one thread poisons the mutex for the destructor that another
thread runs, which unwinds. -/
theorem poisoned_iff_of_interleaving_unwinds :
    ∃ (c₀ c : Config Nat) (es : List (Config Nat × Label Nat)),
      Config.withFixedCapacity .memory ⟨4, 4⟩ 2 2 = .ok c₀ ∧ TracedRun c₀ es c ∧
      c.threads.map (·.unwinding) = [true, true] ∧ ∃ e ∈ es, Poisons e.1 e.2 := by
  obtain ⟨c₀, c, hnew, hrun, hc⟩ := exists_interleaving_of_observe (α := Nat) (t := ⟨4, 4⟩)
    (n := 2) (f := fun c => (c.threads.map (·.unwinding), c.state.poisoned))
    (show Config.observe ⟨4, 4⟩ 2 2 [.invoke 0 .reader, .invoke 0 .scheduleFinalization, .exec 0,
      .exec 0, .exec 0, .invoke 0 (.remove 1), .exec 0, .exec 0, .invoke 1 (.readerDrop 0),
      .exec 1, .exec 1, .exec 1] _ = some ([true, true], true) by decide)
  simp only [Prod.mk.injEq] at hc
  obtain ⟨es, -, htraced⟩ := hrun.traced
  exact ⟨c₀, c, es, hnew, htraced, hc.1,
    (poisoned_iff_of_interleaving hnew htraced).1.mp hc.2⟩

/-! ### Mutable iterations -/

/-- **Mutable iterations are exact.** Whatever the other threads drop, the length that the iterator
of a mutable iteration reports is the number of items that it has still to yield, and the entries
are of different slots, which it has passed and which still have the items of the entries. -/
theorem iteration_exact (hnew : Config.withFixedCapacity .memory l capacity n = .ok c₀)
    (hrun : Interleaving c₀ labels c) :
    (∀ im, c.state.iterMut = some im → im.remaining = c.state.cslab.left im.iter) ∧
      (∀ k e, HandleAt c.state.entries k e → c.state.cslab.slot e.idx = .live e.value ∧
        ∀ im, c.state.iterMut = some im → ¬im.iter.Covers e.idx) ∧
      ∀ k k' e e', HandleAt c.state.entries k e → HandleAt c.state.entries k' e' →
        e.idx = e'.idx → k = k' := by
  have hi := (threadInv_of_interleaving hnew hrun).iteration
  have hmarks : ∀ k e, HandleAt c.state.entries k e → 0 < c.marks e.idx := by
    intro k e hk
    have hpos := countHandles_pos (p := fun e' : Entry α => e'.idx == e.idx) hk
      (beq_self_eq_true _)
    rw [Config.marks]
    omega
  refine ⟨fun im him => (hi.iterMut im him).2.2, fun k e hk => ⟨hi.entry k e hk, ?_⟩,
    fun k k' e e' hk hk' hidx => ?_⟩
  · exact (hi.marked e.idx (hmarks k e hk)).2.2
  · by_contra hne
    have hdrop := countHandles_drop (p := fun e' : Entry α => e'.idx == e.idx) hk
    have hother : HandleAt (c.state.entries.set k none) k' e' :=
      handleAt_set.mpr (Or.inl ⟨Ne.symm hne, hk'⟩)
    have hpos := countHandles_pos (p := fun e' : Entry α => e'.idx == e.idx) hother
      (by simp [hidx])
    have honce := hi.marks e.idx
    rw [Config.marks] at honce
    simp only [beq_self_eq_true, Bool.toNat_true] at hdrop
    omega

/-- The owner has one entry and two items to go when another thread finalizes a removal. -/
theorem iteration_exact_finalizing :
    ∃ (c₀ c : Config Nat) (labels : List (Label Nat)) (im : IterMut),
      Config.withFixedCapacity .memory ⟨4, 4⟩ 4 2 = .ok c₀ ∧ Interleaving c₀ labels c ∧
      total Thread.guards c.threads = 1 ∧ c.state.iterMut = some im ∧ im.remaining = 2 ∧
      c.state.cslab.left im.iter = 2 := by
  obtain ⟨c₀, c, hnew, hrun, hc⟩ := exists_interleaving_of_observe (α := Nat) (t := ⟨4, 4⟩)
    (n := 2) (f := fun c => (total Thread.guards c.threads, c.state.iterMut.map (·.remaining)))
    (show Config.observe ⟨4, 4⟩ 4 2 [.invoke 0 (.insert 5), .exec 0, .exec 0, .exec 0,
      .invoke 0 (.insert 6), .exec 0, .exec 0, .exec 0, .invoke 0 (.insert 7), .exec 0, .exec 0,
      .exec 0, .invoke 0 (.insert 8), .exec 0, .exec 0, .exec 0, .invoke 0 .reader,
      .invoke 0 (.remove 0), .exec 0, .exec 0, .exec 0, .exec 0, .exec 0, .exec 0, .exec 0,
      .invoke 0 .iterMut, .exec 0, .exec 0, .exec 0, .exec 0, .invoke 1 (.readerDrop 0), .exec 1,
      .exec 1, .exec 1, .invoke 0 .iterMutNext] _ = some (1, some 2) by decide +kernel)
  simp only [Prod.mk.injEq] at hc
  obtain ⟨im, him, hremaining⟩ := Option.map_eq_some_iff.mp hc.2
  have hexact := (iteration_exact hnew hrun).1 im him
  exact ⟨c₀, c, _, im, hnew, hrun, hc.1, him, hremaining, hexact ▸ hremaining⟩

end ZprUtils.RcuCslab
