import ZprUtils.RcuCslab.Returns

/-!
# Panics with the mutex held

A removal of an index without a visible item panics, as its documentation says, and the holder of a
vacant entry may panic. Both happen while a guard of the mutex is alive. The panic leaves the slots,
the generations and all handles as they were, but the drop of the guard poisons the mutex, and every
later call that takes it panics in turn.

## Main definitions

* `Panics` — the calls that panic with the mutex held.
* `PanicHarmless` — a panic after which the slab is used as if the call had not been made.

## Main results

* `step_of_panics` — the state after the panic.
* `panic_not_harmless` — no such panic is harmless.
-/

namespace ZprUtils.RcuCslab

variable {α : Type} {s s' : State α} {op : Op α} {o : Except Interrupt (Ret α)}

/-- A removal of an index without a visible item, or a panic of the holder of a vacant entry. -/
def Panics (s : State α) : Op α → Prop
  | .markRemoved idx | .remove idx => (s.cslab.slot idx).liveItem = none
  | .vacantEntryPanic => True
  | _ => False

/-- The mutex is poisoned, and everything else is as it was before the call. -/
def State.afterPanic (s : State α) : State α := { s with locked := false, poisoned := true }

/-- A removal of an index without a visible item panics, with a poisoned mutex before or after:
either `lock` fails, or the assertion fails under the guard. -/
theorem markRemoved_of_absent {slab : Slab} {idx : Nat} (hi : Inv {} s) (husable : s.usable = true)
    (hnone : (s.cslab.slot idx).liveItem = none) :
    markRemoved slab idx s = (.error (.panicked .panic), s.afterPanic) := by
  have hlocked := (State.usable_iff.mp husable).2.1
  rcases markRemovedIn_eq slab.curGen idx hi hlocked with ⟨hpoison, h⟩ | ⟨-, -, h⟩ | ⟨c, -, hok, -⟩
  · have hsame : s.afterPanic = s := by rw [State.afterPanic, ← hlocked, ← hpoison]
    rw [hsame]
    exact h
  · exact h
  · obtain ⟨free, hinv⟩ := hi.pending.cslab
    obtain ⟨x, hlive, -⟩ := hinv.of_markRemoved hok
    rw [hlive] at hnone
    exact absurd hnone nofun

/-- **The state after a panic with the mutex held.** The mutex is free and poisoned, and everything
else is as it was: no slot, counter or generation has been changed when the assertion fails. -/
theorem step_of_panics (hi : Inv {} s) (hpanics : Panics s op) (hstep : step s op = some (o, s')) :
    s' = s.afterPanic ∧ s'.usable = true ∧
      (op = .vacantEntryPanic ∨ o = .error (.panicked .panic)) := by
  obtain ⟨m, hcall, hsettle⟩ := step_eq_some hstep
  cases allowed_of_call hcall with
  | markRemoved husable =>
    rw [Call.map_apply_error (markRemoved_of_absent hi husable hpanics)] at hsettle
    obtain ⟨rfl, rfl⟩ := Prod.mk.inj hsettle
    obtain ⟨hslab, -, hborrows⟩ := State.usable_iff.mp husable
    exact ⟨rfl, State.usable_iff.mpr ⟨hslab, rfl, hborrows⟩, Or.inr rfl⟩
  | @remove idx slab husable =>
    have hremove : remove slab idx s = (.error (.panicked .panic), s.afterPanic) :=
      Call.bind_apply_error (markRemoved_of_absent hi husable hpanics)
    rw [Call.map_apply_error hremove] at hsettle
    obtain ⟨rfl, rfl⟩ := Prod.mk.inj hsettle
    obtain ⟨hslab, -, hborrows⟩ := State.usable_iff.mp husable
    exact ⟨rfl, State.usable_iff.mpr ⟨hslab, rfl, hborrows⟩, Or.inr rfl⟩
  | vacantEntryPanic hlocked =>
    obtain ⟨-, rfl⟩ := Prod.mk.inj hsettle
    obtain ⟨hslab, -, hborrows⟩ := State.usable_iff.mp (State.usable_of_locked hi hlocked)
    exact ⟨rfl, State.usable_iff.mpr ⟨hslab, rfl, hborrows⟩, Or.inl rfl⟩
  | _ => exact hpanics.elim

/-! ### Later calls -/

/-- The calls that do not panic by themselves. -/
def Ordinary (s : State α) : Op α → Prop
  | .len | .allocated | .vacantKey | .get _ | .insert _ | .scheduleFinalization | .clear
  | .readerDrop _ | .drop => True
  | .markRemoved idx | .remove idx => (s.cslab.slot idx).liveItem.isSome = true
  | _ => False

/-- A panic from the state `s` that leaves `s'` is harmless: the slots, the freelist, the counts and
the removals of every generation are as before, later calls return what they would have returned
without the panicking call, and the next call succeeds. -/
structure PanicHarmless (s s' : State α) : Prop where
  cslab : s'.cslab = s.cslab
  gens : s'.gens = s.gens
  later : ∀ ops, (runOps step s' ops).map Prod.fst =
    (runOps step { s with locked := false } ops).map Prod.fst
  succeeds : ∀ op o t, Ordinary s' op → step s' op = some (o, t) → ∃ ret, o = .ok ret

/-- Once the mutex is poisoned the length of the slab cannot be read any more. -/
theorem step_len_of_poisoned (haborted : s.aborted = false) (husable : s.usable = true)
    (hpoison : s.poisoned = true) : step s .len = some (.error (.panicked .panic), s) := by
  have hlen : len s = (.error (.panicked .panic), s) :=
    withLock_poisoned (State.usable_iff.mp husable).2.1 hpoison
  have hcall : call s .len = some (.num <$> len) := if_pos husable
  rw [step, haborted, if_neg Bool.false_ne_true, hcall, Option.map_some, Call.map_apply_error hlen]
  rfl

theorem not_panicHarmless_of_panics (hi : Inv {} s) (hpanics : Panics s op)
    (hstep : step s op = some (o, s')) : ¬PanicHarmless s s' := by
  obtain ⟨rfl, husable, -⟩ := step_of_panics hi hpanics hstep
  have haborted : s.afterPanic.aborted = false := by
    rw [step] at hstep
    split_ifs at hstep with haborted
    exact Bool.not_eq_true _ ▸ haborted
  intro hharmless
  obtain ⟨ret, hret⟩ :=
    hharmless.succeeds .len _ _ trivial (step_len_of_poisoned haborted husable rfl)
  simp at hret

/-- **No panic with the mutex held is harmless.** In every reachable state a removal of an index
without a visible item panics; such a removal, and a panic of the holder of a vacant entry, leave
the slots, the freelist, the counts and the generations as they were, but the slab is not usable as
before: the next call that takes the mutex panics. -/
theorem panic_not_harmless {t : Layout} {capacity : Nat} {s₀ : State α}
    {es : List (Op α × Except Interrupt (Ret α))}
    (hnew : withFixedCapacity .memory t capacity = .ok s₀) (hrun : Run s₀ es s)
    (hpanics : Panics s op)
    (hstep : step s op = some (o, s')) :
    (op = .vacantEntryPanic ∨ o = .error (.panicked .panic)) ∧ s'.cslab = s.cslab ∧
      s'.gens = s.gens ∧ ¬PanicHarmless s s' := by
  have hi := inv_of_run hnew hrun
  obtain ⟨hs', -, ho⟩ := step_of_panics hi hpanics hstep
  refine ⟨ho, ?_, ?_, not_panicHarmless_of_panics hi hpanics hstep⟩
  · rw [hs']
    rfl
  · rw [hs']
    rfl

/-- What a run and one more call show. The run is evaluated, so a fact about particular calls is
closed by computation and still speaks of `Run` and `step`. -/
theorem exists_step_of_observe {β : Type} {t : Layout} {capacity : Nat} {ops : List (Op α)}
    {op : Op α} {f : List (Except Interrupt (Ret α)) × State α → β} {b : β}
    (h : (observe t capacity ops fun p => (f p, (step p.2 op).isSome)) = some (b, true)) :
    ∃ s₀ rs s o s', withFixedCapacity .memory t capacity = .ok s₀ ∧ Run s₀ (ops.zip rs) s ∧
      step s op = some (o, s') ∧ f (rs, s) = b := by
  obtain ⟨s₀, rs, s, hnew, hrun, hsees⟩ := exists_run_of_observe h
  obtain ⟨hf, hsome⟩ := Prod.mk.inj hsees
  obtain ⟨⟨o, s'⟩, hstep⟩ := Option.isSome_iff_exists.mp hsome
  exact ⟨s₀, rs, s, o, s', hnew, Run.of_runOps hrun, hstep, hf⟩

/-- The holder of a vacant entry panics while a removal is pending. -/
theorem panic_not_harmless_vacantEntry :
    ∃ (s₀ s s' : State Nat) (es : List (Op Nat × Except Interrupt (Ret Nat)))
      (o : Except Interrupt (Ret Nat)), withFixedCapacity .memory ⟨4, 4⟩ 2 = .ok s₀ ∧ Run s₀ es s ∧
      step s .vacantEntryPanic = some (o, s') ∧ s.cslab.allocated = 1 ∧ s'.gens = s.gens ∧
      ¬PanicHarmless s s' := by
  have hobserve : (@observe Nat _ ⟨4, 4⟩ 2 [.insert 7, .markRemoved 0, .vacantEntry]
      fun p => (p.2.cslab.allocated, (step p.2 .vacantEntryPanic).isSome)) = some (1, true) := by
    decide +kernel
  obtain ⟨s₀, rs, s, o, s', hnew, hrun, hstep, hallocated⟩ := exists_step_of_observe hobserve
  have hpanics : Panics s .vacantEntryPanic := trivial
  obtain ⟨-, -, hgens, hnot⟩ := panic_not_harmless hnew hrun hpanics hstep
  exact ⟨s₀, s, s', _, o, hnew, hrun, hstep, hallocated, hgens, hnot⟩

/-- A removal of an index without an item: the item at index `0` is visible before and after, and
the length can no longer be read. -/
theorem panic_blocks_len :
    ¬∀ (s₀ s s' : State Nat) (es : List (Op Nat × Except Interrupt (Ret Nat)))
      (o : Except Interrupt (Ret Nat)), withFixedCapacity .memory ⟨4, 4⟩ 2 = .ok s₀ → Run s₀ es s →
      Panics s (.markRemoved 1) → step s (.markRemoved 1) = some (o, s') → PanicHarmless s s' := by
  intro h
  have hobserve : (@observe Nat _ ⟨4, 4⟩ 2 [.insert 7]
      fun p => ((p.2.cslab.slot 1).liveItem, (step p.2 (.markRemoved 1)).isSome)) =
      some (none, true) := by
    decide +kernel
  obtain ⟨s₀, rs, s, o, s', hnew, hrun, hstep, hnone⟩ := exists_step_of_observe hobserve
  have hpanics : Panics s (.markRemoved 1) := hnone
  exact not_panicHarmless_of_panics (inv_of_run hnew hrun) hpanics hstep
    (h s₀ s s' _ o hnew hrun hpanics hstep)

end ZprUtils.RcuCslab
