import ZprUtils.RcuCslab.Bookkeeping
import ZprUtils.RcuCslab.Frames

/-!
# Only insertions fill slots

The log grows by an insertion only in the two calls that insert. Between insertions a visible item
can be marked and a marked one finalized, and nothing else can happen to a slot; once nothing is
visible, no removal is recorded any more.

## Main definitions

* `insertions` — the number of insertions in a log.
* `Ledger.Fades` — what can happen between insertions.

## Main results

* `Ledger.Fades.next` — one transition.
* `fades_of_run` — a run without insertions.
-/

namespace ZprUtils.RcuCslab

variable {α : Type} {s s' : State α}

/-- The number of insertions in a log. -/
def insertions (log : List (Event α)) : Nat := log.countP Event.isInsertion

/-- The calls that insert an item. -/
def Op.inserts : Op α → Bool
  | .insert _ | .vacantEntryInsert _ => true
  | _ => false

section

variable {log events : List (Event α)}

theorem insertions_append : insertions (log ++ events) = insertions log + insertions events :=
  List.countP_append

theorem insertions_eq_zero (h : ∀ e ∈ events, e.isInsertion = false) : insertions events = 0 :=
  List.countP_eq_zero.mpr fun e he => by simp [h e he]

end

/-! ### The ledger -/

namespace Ledger

variable {l₀ l l' : Ledger α}

/-- What can have happened since `l₀` if nothing was inserted. -/
structure Fades (l₀ l : Ledger α) : Prop where
  slot : ∀ i, l.slot i = l₀.slot i ∨ l.slot i = .free ∨
    ∃ x, l₀.slot i = .live x ∧ l.slot i = .pending x
  pending : (∀ i x, l₀.slot i ≠ .live x) → pendingOf l.records = pendingOf l₀.records

theorem Fades.refl (l : Ledger α) : Fades l l := ⟨fun _ => Or.inl rfl, fun _ => rfl⟩

theorem Fades.free (h : Fades l₀ l) {i : Nat} (hi : l₀.slot i = .free) : l.slot i = .free := by
  rcases h.slot i with heq | hfree | ⟨x, hlive, -⟩
  · exact heq.trans hi
  · exact hfree
  · exact absurd (hi.symm.trans hlive) nofun

theorem Fades.live (h : Fades l₀ l) {i : Nat} {x : α} (hi : l.slot i = .live x) :
    l₀.slot i = .live x := by
  rcases h.slot i with heq | hfree | ⟨y, -, hpending⟩
  · exact heq.symm.trans hi
  · exact absurd (hfree.symm.trans hi) nofun
  · exact absurd (hpending.symm.trans hi) nofun

theorem Next.insertions_le (h : Next l l') : insertions l.log ≤ insertions l'.log := by
  cases h with
  | insert | reject | mark | advance | dropStorage =>
    rw [insertions_append]
    omega
  | finalize =>
    rw [insertions_append, insertions_append]
    omega
  | leak | poison => exact le_rfl

/-- **One transition** without an insertion. A slot can only go from live to pending and from
pending to free, and where nothing was live at the start nothing is marked. -/
theorem Fades.next (h : Fades l₀ l) (hnext : Next l l')
    (hlog : insertions l'.log = insertions l.log) : Fades l₀ l' := by
  cases hnext with
  | @insert i x _ _ =>
    rw [insertions_append] at hlog
    exact absurd hlog (Nat.succ_ne_self _)
  | reject | dropStorage | poison => exact ⟨h.slot, h.pending⟩
  | @mark g i r x hlive hr _ _ =>
    have hstart := h.live hlive
    refine ⟨fun j => ?_, fun hnone => absurd hstart (hnone i x)⟩
    by_cases hj : j = i
    · subst hj
      exact Or.inr (Or.inr ⟨x, hstart, Function.update_self _ _ _⟩)
    · simp only [Function.update_of_ne hj]
      exact h.slot j
  | advance =>
    refine ⟨h.slot, fun hnone => ?_⟩
    rw [← h.pending hnone]
    exact funext pendingOf_push
  | @finalize g r items hr _ _ _ _ _ =>
    refine ⟨fun j => ?_, fun hnone => (pendingOf_kill hr).trans (h.pending hnone)⟩
    by_cases hj : j ∈ r.pending
    · exact Or.inr (Or.inl (if_pos hj))
    · simp only [if_neg hj]
      exact h.slot j
  | leak hr => exact ⟨h.slot, fun hnone => (pendingOf_kill hr).trans (h.pending hnone)⟩

/-- Along any transitions the insertions grow, and nothing but fading has happened while they do
not. -/
def FadesUntilInsertion (l₀ l : Ledger α) : Prop :=
  insertions l₀.log ≤ insertions l.log ∧ (insertions l.log = insertions l₀.log → Fades l₀ l)

theorem FadesUntilInsertion.next (h : FadesUntilInsertion l₀ l) (hnext : Next l l') :
    FadesUntilInsertion l₀ l' := by
  obtain ⟨hle, hfades⟩ := h
  have hle' := hnext.insertions_le
  refine ⟨hle.trans hle', fun heq => ?_⟩
  exact (hfades (by omega)).next hnext (by omega)

end Ledger

/-! ### Runs -/

theorem framed_insertions (n : Nat) : Framed fun s : State α => insertions s.log = n where
  same hs _ hlog := by
    rw [hlog]
    exact hs
  emit hs hevents := by
    rw [insertions_append, insertions_eq_zero hevents]
    exact hs
  addReader hs := hs

/-- Only the calls that insert log an insertion. -/
theorem insertions_of_step {op : Op α} {o : Except Interrupt (Ret α)} (hop : op.inserts = false)
    (hstep : step s op = some (o, s')) : insertions s'.log = insertions s.log := by
  obtain ⟨m, hcall, hsettle⟩ := step_eq_some hstep
  have hP := framed_insertions (α := α) (insertions s.log)
  have hm : insertions (m s).2.log = insertions s.log := by
    cases hframed : op.framed with
    | true => exact (hP.of_call hframed hcall s rfl).1.inv
    | false =>
      cases allowed_of_call hcall with
      | readerDrop => exact ((hP.blocks.readerDrop _ fun _ hs => .preserving hs).map s rfl).1.inv
      | readerIter => rfl
      | @readerNext k j r it _ _ =>
        rw [Call.map_snd, readerNext, Call.get_bind_apply]
        cases it.next s.cslab.storage <;> rfl
      | @readerNextBack k j r it _ _ =>
        rw [Call.map_snd, readerNextBack, Call.get_bind_apply]
        cases it.nextBack s.cslab.storage <;> rfl
      | insert | vacantEntryInsert => exact absurd hop nofun
      | _ => exact absurd hframed nofun
  have hsettled := hP.settle (s := s) rfl hm
  rwa [hsettle] at hsettled

/-- **A run without insertions.** Every slot is as it was, or has been freed, or its item has been
marked; and if there were no items at the start, the pending removals are the same. -/
theorem fades_of_run {es : List (Op α × Except Interrupt (Ret α))} (hi : Inv {} s)
    (hrun : Run s es s') (hops : ∀ e ∈ es, e.1.inserts = false) :
    s.ledger.Fades s'.ledger := by
  have hP : Inv {} s' ∧ s.ledger.FadesUntilInsertion s'.ledger := by
    refine Steps.invariant (P := fun s' => Inv {} s' ∧ s.ledger.FadesUntilInsertion s'.ledger) ?_
      hrun ⟨hi, le_rfl, fun _ => .refl _⟩
    rintro s₁ e s₂ ⟨hi₁, h⟩ hstep
    exact ⟨step_inv hi₁ hstep, step_ledger (fun _ _ hnext h => h.next hnext) hi₁ hstep h⟩
  have hlog : insertions s'.log = insertions s.log := by
    refine Steps.history (P := fun es s' => (∀ e ∈ es, e.1.inserts = false) →
      insertions s'.log = insertions s.log) ?_ hrun (fun _ => rfl) hops
    intro es s₁ e s₂ ih hstep hops
    rw [List.forall_mem_append, List.forall_mem_singleton] at hops
    exact (insertions_of_step hops.2 hstep).trans (ih hops.1)
  exact hP.2.2 hlog

end ZprUtils.RcuCslab
