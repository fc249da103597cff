import ZprUtils.RcuCslab.Generations
import ZprUtils.RcuCslab.Panics

/-!
# Every item is destroyed exactly once

When the slab and all handles have been dropped, the history of every slot is a sequence of complete
lives: each item that was inserted is destroyed once, by the drop of the generation in which its
removal was marked or by the drop of the storage, and the storage is dropped after all removals are
finalized. This holds unless a call panics with the mutex held while a removal is pending: from then
on the drop of a generation panics instead of finalizing its removals, and their items are leaked.

## Main definitions

* `State.AllDropped` — the slab and all handles are dropped.
* `PanicsPending` — a call panics with the mutex held while a removal is pending.

## Main results

* `destroyed_exactly_once` — every run without such a panic.
* `leaked_after_panic` — the items that are leaked.
-/

namespace ZprUtils.RcuCslab

variable {α : Type} {s s' : State α}

/-- The slab and all its handles are dropped, and the process goes on. -/
structure State.AllDropped (s : State α) : Prop where
  slab : s.slab = none
  readers : ∀ k r, ¬HandleAt s.readers k r
  entries : ∀ k e, ¬HandleAt s.entries k e
  aborted : s.aborted = false

/-- The call panics with the mutex held, and some removal is not finalized yet. -/
def PanicsPending (s : State α) (op : Op α) : Prop :=
  PanicsLocked s op ∧ ∃ i x, s.cslab.slot i = .pending x

/-! ### After a panic -/

theorem Action.poisoned {p q : Held × State α} (ha : Action p q) : q.2.poisoned = p.2.poisoned := by
  cases ha with
  | release hrelease => exact hrelease.frame.2.1
  | _ => rfl

/-- With the mutex poisoned, the slots do not change: every action on the slots is made under the
mutex, and `lock` no longer returns a guard. -/
theorem Action.cslab_of_poisoned {p q : Held × State α} (ha : Action p q) (hi : Inv p.1 p.2)
    (hpoison : p.2.poisoned = true) : q.2.cslab = p.2.cslab := by
  have hno : ∀ {s : State α}, s.poisoned = true → s.poisoned = false → False := by
    intro s h h'
    exact absurd (h.symm.trans h') (by simp)
  cases ha with
  | insert _ h | mark _ h => exact (hno hpoison h).elim
  | removeEntry hk => exact (hno hpoison (hi.borrows.entry_live _ _ hk).1).elim
  | release hrelease =>
    cases hrelease with
    | finalizeGen _ _ h => exact (hno hpoison h).elim
    | _ => rfl
  | _ => rfl

theorem Reach.cslab_of_poisoned {p q : Held × State α} (h : Reach p q) (hi : Inv p.1 p.2)
    (hpoison : p.2.poisoned = true) : q.2.cslab = p.2.cslab ∧ q.2.poisoned = true := by
  induction h with
  | refl => exact ⟨rfl, hpoison⟩
  | tail hreach ha ih =>
    obtain ⟨hcslab, hpoison'⟩ := ih
    exact ⟨(ha.cslab_of_poisoned (Reach.inv hreach hi) hpoison').trans hcslab,
      ha.poisoned.trans hpoison'⟩

theorem Reach.poisoned {p q : Held × State α} (h : Reach p q) :
    q.2.poisoned = p.2.poisoned := by
  induction h with
  | refl => rfl
  | tail _ ha ih => exact ha.poisoned.trans ih

/-- The slots with a removal that will never be finalized stay so. -/
theorem step_of_poisoned {op : Op α} {o : Except Interrupt (Ret α)} (hi : Inv {} s)
    (hpoison : s.poisoned = true) (hstep : step s op = some (o, s')) :
    s'.cslab = s.cslab ∧ s'.poisoned = true := by
  rcases step_effect hi hstep with hreach | ⟨-, hpoison'⟩
  · exact hreach.cslab_of_poisoned hi hpoison
  · cases hpoison'
    exact ⟨rfl, rfl⟩

/-- A step that does not panic with a removal pending. What holds of the pending slots of a poisoned
slab is that there are none, and only such a panic could break it. -/
theorem settled_step {op : Op α} {o : Except Interrupt (Ret α)} (hi : Inv {} s)
    (hs : s.poisoned = true → ∀ i x, s.cslab.slot i ≠ .pending x)
    (hstep : step s op = some (o, s')) (hsafe : ¬PanicsPending s op) :
    s'.poisoned = true → ∀ i x, s'.cslab.slot i ≠ .pending x := by
  cases hpoison : s.poisoned with
  | true =>
    intro _
    rw [(step_of_poisoned hi hpoison hstep).1]
    exact hs hpoison
  | false =>
    intro hpoison'
    rcases step_effect hi hstep with hreach | ⟨hpanics, hp⟩
    · have hsame : s'.poisoned = s.poisoned := hreach.poisoned
      exact absurd (hpoison'.symm.trans (hsame.trans hpoison)) (by simp)
    · cases hp
      exact fun i x hx => hsafe ⟨hpanics, i, x, hx⟩

/-- A call that panics with the mutex held poisons it, and leaves the slots alone: the assertion
fails before anything is written. -/
theorem step_of_panicsLocked {op : Op α} {o : Except Interrupt (Ret α)} (hi : Inv {} s)
    (hpanics : PanicsLocked s op) (hstep : step s op = some (o, s')) :
    s'.cslab = s.cslab ∧ s'.poisoned = true := by
  have hpanics' : Panics s op := by
    cases op with
    | markRemoved _ | remove _ => exact hpanics.2
    | vacantEntryPanic => exact trivial
    | _ => exact hpanics.elim
  obtain ⟨rfl, -⟩ := step_of_panics hi hpanics' hstep
  exact ⟨rfl, rfl⟩

/-! ### The end of a run -/

/-- Without handles no generation is alive, and the storage has been dropped: with all counts
balanced there is nobody left to refer to them. -/
theorem State.AllDropped.dropped (hend : s.AllDropped) (hi : Inv {} s) :
    (∀ g, ¬Alive s.gens g) ∧ s.storageStrong = 0 := by
  have hdead : ∀ g, ¬Alive s.gens g := by
    intro g halive
    obtain ⟨-, g₀, -, hheld⟩ := (alive_iff_holdsGen hi.refs).mp halive
    rcases hheld with ⟨slab, hslab, -⟩ | ⟨k, r, hk, -⟩ | ⟨k, e, hk, -⟩
    · exact absurd (hslab.symm.trans hend.slab) (by simp)
    · exact hend.readers k r hk
    · exact hend.entries k e hk
  refine ⟨hdead, ?_⟩
  have hcount : s.gens.countP Gen.alive = 0 := by
    rw [List.countP_eq_zero]
    intro gen hgen halive
    obtain ⟨g, hg⟩ := List.getElem?_of_mem hgen
    exact hdead g ⟨gen, hg, halive⟩
  have hreaders : s.readerCount = 0 := by
    by_contra h
    obtain ⟨k, r, hk, -⟩ := exists_handleAt_of_countHandles (Nat.pos_of_ne_zero h)
    exact hend.readers k r hk
  have hwriter := hi.refs.writer
  have hstorage := hi.refs.storage
  rw [hend.slab, hcount] at hwriter
  rw [hend.slab, hreaders, hwriter] at hstorage
  exact hstorage

/-- The history of every slot consists of complete lives, and nothing is finalized after the drop of
the storage. -/
def DestroyedOnce (s : State α) : Prop :=
  (∀ i, ∃ lives : List (Life α), slotLog i s.log = lives.flatMap (Life.events i)) ∧
    s.log.Pairwise fun e e' => e = .storageDropped → finalizedBy e' = none

/-- Complete lives have as many insertions as destructions. The log of a slot is a list of lives, of
which only the last may be incomplete. -/
theorem countP_lives (i : Nat) (lives : List (Life α)) :
    (lives.flatMap (Life.events i)).countP (fun e => e matches .inserted ..) =
      (lives.flatMap (Life.events i)).countP fun e => e matches .destroyed .. := by
  induction lives with
  | nil => rfl
  | cons life lives ih =>
    rw [List.flatMap_cons, List.countP_append, List.countP_append, ih]
    cases life <;> rfl

/-- An item whose removal is never finalized is never destroyed: the destructor of the storage looks
at the bitmap, and the bit of a pending slot is clear. -/
theorem not_destroyedOnce_of_pending {i : Nat} {x : α} (hl : s.ledger.Inv)
    (hslot : s.cslab.slot i = .pending x) : ¬DestroyedOnce s := by
  rintro ⟨hlives, -⟩
  obtain ⟨lives, hlog⟩ := hlives i
  obtain ⟨lives', g, hlog', -⟩ := hl.history.of_pending hslot
  have heq : lives.flatMap (Life.events i) =
      lives'.flatMap (Life.events i) ++ [.inserted i x, .marked g i] := hlog.symm.trans hlog'
  have hcount := countP_lives i lives
  rw [heq, List.countP_append, List.countP_append, countP_lives] at hcount
  simp at hcount

theorem destroyedOnce_of_not_pending (hl : s.ledger.Inv) (hdropped : s.storageStrong = 0)
    (hslot : ∀ i x, s.cslab.slot i ≠ .pending x) : DestroyedOnce s := by
  refine ⟨fun i => ?_, hl.droppedLast.after⟩
  obtain ⟨lives, begun, hlog, hbegun⟩ := hl.history i
  cases hbegun with
  | free | dropped => exact ⟨lives, by rw [← List.append_nil (lives.flatMap _)]; exact hlog⟩
  | live _ h => exact absurd h (by simp [State.ledger, hdropped])
  | pending h => exact absurd h (hslot i _)

/-- One step, with the state before it, its call and its outcome. -/
def TracedStep (s : State α) (e : State α × Op α × Except Interrupt (Ret α)) (s' : State α) :
    Prop :=
  e.1 = s ∧ Step s e.2 s'

/-- What holds after a run: without a panic while a removal is pending, no removal is pending when
the mutex is poisoned; after such a panic some removal stays pending. -/
structure RunInv (es : List (State α × Op α × Except Interrupt (Ret α))) (s : State α) : Prop where
  inv : Inv {} s
  ledger : s.ledger.Inv
  settled : (∀ e ∈ es, ¬PanicsPending e.1 e.2.1) → s.poisoned = true →
    ∀ i x, s.cslab.slot i ≠ .pending x
  leaks : (∃ e ∈ es, PanicsPending e.1 e.2.1) →
    s.poisoned = true ∧ ∃ i x, s.cslab.slot i = .pending x

theorem runInv_of_run {t : Layout} {capacity : Nat} {s₀ s : State α}
    {es : List (State α × Op α × Except Interrupt (Ret α))}
    (hnew : withFixedCapacity .memory t capacity = .ok s₀) (hrun : Steps TracedStep s₀ es s) :
    RunInv es s := by
  refine Steps.history (P := RunInv) ?_ hrun ⟨inv_withFixedCapacity hnew,
    ledger_withFixedCapacity hnew ▸ Ledger.inv_init, fun _ hpoison => ?_, by simp⟩
  · rintro es s ⟨s₁, op, o⟩ s' ⟨hi, hl, hsettled, hleaks⟩ ⟨rfl, hstep⟩
    refine ⟨step_inv hi hstep, step_ledger (fun _ _ h => h.inv) hi hstep hl, fun hsafe => ?_,
      fun hpanics => ?_⟩
    · rw [List.forall_mem_append, List.forall_mem_singleton] at hsafe
      exact settled_step hi (hsettled hsafe.1) hstep hsafe.2
    · obtain ⟨e, he, hpanics⟩ := hpanics
      rcases List.mem_append.mp he with he | he
      · obtain ⟨hpoison, i, x, hx⟩ := hleaks ⟨e, he, hpanics⟩
        obtain ⟨hcslab, hpoison'⟩ := step_of_poisoned hi hpoison hstep
        exact ⟨hpoison', i, x, hcslab ▸ hx⟩
      · obtain rfl := List.mem_singleton.mp he
        obtain ⟨hlocked, i, x, hx⟩ := hpanics
        obtain ⟨hcslab, hpoison'⟩ := step_of_panicsLocked hi hlocked hstep
        exact ⟨hpoison', i, x, hcslab ▸ hx⟩
  · have hledger := congrArg Ledger.poisoned (ledger_withFixedCapacity hnew)
    exact absurd (hpoison.symm.trans hledger) (by simp [Ledger.init])

/-- **Exactly-once destruction.** In every run that ends with the slab and all handles dropped,
every item accepted by an insertion is destroyed exactly once, in the drop of the generation in
which its removal was marked or, if it was never removed, in the drop of the storage, which comes
after all finalizations, if and only if no call of the run panics with the mutex held while a
removal is pending. -/
theorem destroyed_exactly_once {t : Layout} {capacity : Nat} {s₀ s : State α}
    {es : List (State α × Op α × Except Interrupt (Ret α))}
    (hnew : withFixedCapacity .memory t capacity = .ok s₀) (hrun : Steps TracedStep s₀ es s)
    (hend : s.AllDropped) :
    DestroyedOnce s ↔ ∀ e ∈ es, ¬PanicsPending e.1 e.2.1 := by
  obtain ⟨hi, hl, hsettled, hleaks⟩ := runInv_of_run hnew hrun
  obtain ⟨hdead, hdropped⟩ := hend.dropped hi
  constructor
  · intro honce e he hpanics
    obtain ⟨-, i, x, hx⟩ := hleaks ⟨e, he, hpanics⟩
    exact not_destroyedOnce_of_pending hl hx honce
  · intro hsafe
    refine destroyedOnce_of_not_pending hl hdropped fun i x hx => ?_
    cases hpoison : s.poisoned with
    | true => exact hsettled hsafe hpoison i x hx
    | false =>
      obtain ⟨g, gen, hgen, halive, -⟩ := mem_livePending.mp (hi.pending.mem hpoison i x hx)
      exact hdead g ⟨gen, hgen, halive⟩

theorem State.AllDropped.of_eval (hslab : s.slab = none)
    (hreaders : s.readers.all (·.isNone) = true) (hentries : s.entries.all (·.isNone) = true)
    (haborted : s.aborted = false) : s.AllDropped := by
  rw [List.all_eq_true] at hreaders hentries
  exact ⟨hslab, fun k r hk => absurd (hreaders _ hk.mem) (by simp),
    fun k e hk => absurd (hentries _ hk.mem) (by simp), haborted⟩

/-- Two items are cleared, and the slab is dropped before the readers. -/
theorem destroyed_exactly_once_clear :
    ∃ (s₀ s : State Nat) (es : List (State Nat × Op Nat × Except Interrupt (Ret Nat))),
      withFixedCapacity .memory ⟨4, 4⟩ 2 = .ok s₀ ∧ Steps TracedStep s₀ es s ∧ s.AllDropped ∧
      .inserted 0 7 ∈ s.log ∧ DestroyedOnce s := by
  have hobserve : @observe Nat _ ⟨4, 4⟩ 2
      [.insert 7, .insert 8, .reader, .clear, .drop, .readerDrop 0, .readerDrop 1]
      (fun p => (p.2.slab, p.2.readers.all (·.isNone), p.2.entries.all (·.isNone), p.2.aborted,
        p.2.log.contains (.inserted 0 7))) = some (none, true, true, false, true) := by
    decide +kernel
  obtain ⟨s₀, rs, s, hnew, hrun, hsees⟩ := exists_run_of_observe hobserve
  simp only [Prod.mk.injEq, List.contains_iff_mem] at hsees
  obtain ⟨hslab, hreaders, hentries, haborted, hmem⟩ := hsees
  have hend : s.AllDropped := .of_eval hslab hreaders hentries haborted
  obtain ⟨es, hes, htraced⟩ := Steps.traced (Run.of_runOps hrun)
  refine ⟨s₀, s, es, hnew, htraced, hend, hmem,
    (destroyed_exactly_once hnew htraced hend).mpr fun e he => ?_⟩
  -- none of these calls can panic with the mutex held
  have hop :
      e.2.1 ∈ [Op.insert 7, .insert 8, .reader, .clear, .drop, .readerDrop 0, .readerDrop 1] := by
    have hpair := List.mem_map_of_mem (f := Prod.snd) he
    rw [hes] at hpair
    exact (List.of_mem_zip hpair).1
  simp only [List.mem_cons, List.not_mem_nil, or_false] at hop
  rintro ⟨hlocked, -⟩
  rcases hop with h | h | h | h | h | h | h <;> simp [h, PanicsLocked] at hlocked

/-- The event destroys an item. -/
def Event.isDestruction : Event α → Bool
  | .destroyed .. => true
  | _ => false

/-- The second removal of an index panics and poisons the mutex: the drop of the slab panics too,
and the item that was removed is never destroyed. -/
theorem leaked_after_panic :
    ∃ (s₀ s : State Nat) (es : List (State Nat × Op Nat × Except Interrupt (Ret Nat))),
      withFixedCapacity .memory ⟨4, 4⟩ 2 = .ok s₀ ∧ Steps TracedStep s₀ es s ∧ s.AllDropped ∧
      .inserted 0 7 ∈ s.log ∧ ∀ site locked, .destroyed site 7 locked ∉ s.log := by
  have hobserve : @observe Nat _ ⟨4, 4⟩ 2
      [.insert 7, .markRemoved 0, .markRemoved 0, .drop]
      (fun p => (p.2.slab, p.2.readers.all (·.isNone), p.2.entries.all (·.isNone), p.2.aborted,
        p.2.log.contains (.inserted 0 7), p.2.log.all fun e => !e.isDestruction)) =
      some (none, true, true, false, true, true) := by decide +kernel
  obtain ⟨s₀, rs, s, hnew, hrun, hsees⟩ := exists_run_of_observe hobserve
  simp only [Prod.mk.injEq, List.contains_iff_mem, List.all_eq_true] at hsees
  obtain ⟨hslab, hreaders, hentries, haborted, hmem, hnone⟩ := hsees
  obtain ⟨es, -, htraced⟩ := Steps.traced (Run.of_runOps hrun)
  refine ⟨s₀, s, es, hnew, htraced, .of_eval hslab (List.all_eq_true.mpr hreaders)
    (List.all_eq_true.mpr hentries) haborted, hmem, fun site locked hmem => ?_⟩
  exact absurd (hnone _ hmem) (by simp [Event.isDestruction])

end ZprUtils.RcuCslab
