import ZprUtils.Foundations.MachineInt
import ZprUtils.Foundations.Runs

/-!
# Loops over the readiness of a socket

An event queue keeps two flags for a socket, set by events. A loop waits for one of the flags and
then tries its operation under an interest: the operation is made only if the flag of that interest
is set, and the flag is cleared when the operation would block. The loop waits again after an
attempt that would block. When both interests are the same the loop makes progress; its iterations
are paid for by events.

## Main definitions

* `Readiness`, `ReadinessLoop`, `LoopState` — the flags, a loop, and its state.
* `ReadinessLoop.step` — one step of the loop, or an event.
* `ReadinessLoop.Progresses` — a step is part of an iteration that makes progress.

## Main results

* `ReadinessLoop.tryIo_cases` — what an attempt does.
* `ReadinessLoop.progresses_of_matched` — a loop that tries what it awaits makes progress.
* `ReadinessLoop.passes_le` — its iterations are at most one more than the events.
-/

namespace ZprUtils

/-- A direction of a socket. -/
inductive Interest where
  | readable
  | writable
  deriving DecidableEq, Repr

/-- The other direction. -/
def Interest.other : Interest → Interest
  | readable => writable
  | writable => readable

/-- The flags of a socket. -/
structure Readiness where
  read : Bool
  write : Bool
  deriving DecidableEq, Repr

namespace Readiness

/-- The flag of a direction. -/
def get (r : Readiness) : Interest → Bool
  | .readable => r.read
  | .writable => r.write

/-- Set the flag of a direction. -/
def set (r : Readiness) : Interest → Bool → Readiness
  | .readable, b => { r with read := b }
  | .writable, b => { r with write := b }

@[simp] theorem get_set_self (r : Readiness) (i : Interest) (b : Bool) :
    (r.set i b).get i = b := by
  cases i <;> rfl

@[simp] theorem get_set_other (r : Readiness) (i : Interest) (b : Bool) :
    (r.set i b).get i.other = r.get i.other := by
  cases i <;> rfl

theorem get_set_of_ne (r : Readiness) {i j : Interest} (hne : j ≠ i) (b : Bool) :
    (r.set i b).get j = r.get j := by
  cases i <;> cases j <;> first | rfl | exact absurd rfl hne

end Readiness

/-- A loop: what it waits for, the interest under which it tries its operation, the operation, and
the results after which it waits again. -/
structure ReadinessLoop (α ω ε ρ : Type) where
  awaits : Interest
  tries : Interest
  op : α → ω → Except RustFault (Except ε ρ × α)
  wouldBlock : Except ε ρ → Bool

/-- Where a loop is: it waits, it has been woken up, or it has ended. -/
inductive LoopPc (ε ρ : Type) where
  | waiting
  | passed
  | finished (res : Except ε ρ)
  | faulted (fault : RustFault)

/-- The state of a loop. It counts the calls of the operation, and records whether an event of the
awaited kind arrived since the loop was last woken up. -/
structure LoopState (α ε ρ : Type) where
  ready : Readiness
  pc : LoopPc ε ρ
  data : α
  calls : Nat
  fresh : Bool

/-- The steps: an event, the end of the wait, an error of the wait, and an attempt with the outcome
of its system call. -/
inductive LoopAct (ω ε : Type) where
  | event (i : Interest)
  | pass
  | awaitFails (err : ε)
  | tryIo (w : ω)

namespace ReadinessLoop

variable {α ω ε ρ : Type} (L : ReadinessLoop α ω ε ρ)

/-- An attempt. The result `none` is the error that stands for "would block". -/
def tryIo (s : LoopState α ε ρ) (w : ω) :
    Except RustFault (Option (Except ε ρ)) × LoopState α ε ρ :=
  if s.ready.get L.tries then
    let s := { s with calls := s.calls + 1 }
    match L.op s.data w with
    | .error fault => (.error fault, s)
    | .ok (res, data) =>
      let s := { s with data := data }
      if L.wouldBlock res then (.ok none, { s with ready := s.ready.set L.tries false })
      else (.ok (some res), s)
  else
    (.ok none, s)

/-- One step of the loop or of its environment. An event sets a flag; a pass through the wait leaves
it set, and only a call that would block clears the flag of the direction that it tries. -/
def step (s : LoopState α ε ρ) : LoopAct ω ε → Option (LoopState α ε ρ)
  | .event i =>
    some { s with ready := s.ready.set i true, fresh := s.fresh || i == L.awaits }
  | .pass =>
    match s.pc with
    | .waiting =>
      if s.ready.get L.awaits then some { s with pc := .passed, fresh := false } else none
    | _ => none
  | .awaitFails err =>
    match s.pc with
    | .waiting => some { s with pc := .finished (.error err) }
    | _ => none
  | .tryIo w =>
    match s.pc with
    | .passed =>
      let (res, s) := L.tryIo s w
      match res with
      | .error fault => some { s with pc := .faulted fault }
      | .ok none => some { s with pc := .waiting }
      | .ok (some res) => some { s with pc := .finished res }
    | _ => none

/-- A run, with the states around each step. -/
def Run (s : LoopState α ε ρ) (es : List (LoopState α ε ρ × LoopAct ω ε × LoopState α ε ρ))
    (s' : LoopState α ε ρ) : Prop :=
  Steps (fun s (e : LoopState α ε ρ × LoopAct ω ε × LoopState α ε ρ) s' =>
    e.1 = s ∧ e.2.2 = s' ∧ L.step s e.2.1 = some s') s es s'

/-- What is expected of a step: an attempt makes the call, the loop waits again only with the
awaited flag clear or after a new event, and the loop never touches the other flag. -/
structure Progresses (s : LoopState α ε ρ) (act : LoopAct ω ε) (s' : LoopState α ε ρ) : Prop where
  runs : ∀ w, act = .tryIo w → s'.calls = s.calls + 1
  clears : ∀ w, act = .tryIo w → s'.pc = .waiting → s'.ready.get L.awaits = true → s.fresh = true
  other : (∀ i, act ≠ .event i) → s'.ready.get L.awaits.other = s.ready.get L.awaits.other

variable {L} {s s' : LoopState α ε ρ} {w : ω}

theorem Run.snoc {es : List (LoopState α ε ρ × LoopAct ω ε × LoopState α ε ρ)} {act : LoopAct ω ε}
    {s'' : LoopState α ε ρ} (hrun : L.Run s es s') (h : L.step s' act = some s'') :
    L.Run s (es ++ [(s', act, s'')]) s'' :=
  Steps.snoc hrun ⟨rfl, rfl, h⟩

/-- **What an attempt does.** With its flag clear it is not made, and the loop waits again.
Otherwise it is made: it faults, or it would block and clears its flag, or the loop returns its
result. -/
theorem tryIo_cases (h : L.step s (.tryIo w) = some s') :
    s.pc = .passed ∧
      (s.ready.get L.tries = false ∧ s' = { s with pc := .waiting } ∨
      s.ready.get L.tries = true ∧
        ((∃ fault, L.op s.data w = .error fault ∧
          s' = { s with pc := .faulted fault, calls := s.calls + 1 }) ∨
        ∃ res data, L.op s.data w = .ok (res, data) ∧
          ((L.wouldBlock res = true ∧ s' = { s with
            pc := .waiting, calls := s.calls + 1, data := data,
            ready := s.ready.set L.tries false }) ∨
          (L.wouldBlock res = false ∧ s' = { s with
            pc := .finished res, calls := s.calls + 1, data := data })))) := by
  simp only [step] at h
  split at h
  · next hpc =>
    refine ⟨hpc, ?_⟩
    cases hflag : s.ready.get L.tries with
    | false =>
      simp only [tryIo, hflag, Bool.false_eq_true, if_false, Option.some.injEq] at h
      exact Or.inl ⟨rfl, h.symm⟩
    | true =>
      refine Or.inr ⟨rfl, ?_⟩
      cases hop : L.op s.data w with
      | error fault =>
        simp only [tryIo, hflag, if_true, hop, Option.some.injEq] at h
        exact Or.inl ⟨fault, rfl, h.symm⟩
      | ok p =>
        obtain ⟨res, data⟩ := p
        refine Or.inr ⟨res, data, rfl, ?_⟩
        cases hblock : L.wouldBlock res with
        | true =>
          simp only [tryIo, hflag, if_true, hop, hblock, Option.some.injEq] at h
          exact Or.inl ⟨rfl, h.symm⟩
        | false =>
          simp only [tryIo, hflag, if_true, hop, hblock, Bool.false_eq_true, if_false,
            Option.some.injEq] at h
          exact Or.inr ⟨rfl, h.symm⟩
  · exact absurd h nofun

theorem pass_cases (h : L.step s .pass = some s') :
    s.pc = .waiting ∧ s.ready.get L.awaits = true ∧
      s' = { s with pc := .passed, fresh := false } := by
  simp only [step] at h
  split at h
  · next hpc =>
    split at h
    · next hflag => exact ⟨hpc, hflag, (Option.some.inj h).symm⟩
    · exact absurd h nofun
  · exact absurd h nofun

theorem awaitFails_cases {err : ε} (h : L.step s (.awaitFails err) = some s') :
    s.pc = .waiting ∧ s' = { s with pc := .finished (.error err) } := by
  simp only [step] at h
  split at h
  · next hpc => exact ⟨hpc, (Option.some.inj h).symm⟩
  · exact absurd h nofun

/-! ### Loops that try what they await -/

/-- A loop that was woken up and has not yet made its attempt finds the awaited flag set. -/
def Armed (L : ReadinessLoop α ω ε ρ) (s : LoopState α ε ρ) : Prop :=
  s.pc = .passed → s.ready.get L.awaits = true

/-- A step of a loop that tries what it awaits: the flag that the wait has seen is the one that
`try_io` looks at, so no iteration goes by without a call. -/
theorem progresses_step {act : LoopAct ω ε} (hmatched : L.tries = L.awaits) (harmed : L.Armed s)
    (h : L.step s act = some s') : L.Progresses s act s' ∧ L.Armed s' := by
  cases act with
  | event i =>
    obtain rfl := Option.some.inj h
    refine ⟨⟨nofun, nofun, fun hevent => absurd rfl (hevent i)⟩, fun hpc => ?_⟩
    by_cases hi : L.awaits = i
    · rw [hi]
      exact Readiness.get_set_self ..
    · exact (Readiness.get_set_of_ne _ hi _).trans (harmed hpc)
  | pass =>
    obtain ⟨-, hflag, rfl⟩ := pass_cases h
    exact ⟨⟨nofun, nofun, fun _ => rfl⟩, fun _ => hflag⟩
  | awaitFails err =>
    obtain ⟨-, rfl⟩ := awaitFails_cases h
    exact ⟨⟨nofun, nofun, fun _ => rfl⟩, nofun⟩
  | tryIo w =>
    obtain ⟨hpc, hcases⟩ := tryIo_cases h
    have hflag := harmed hpc
    rw [hmatched] at hcases
    rcases hcases with ⟨hclear, -⟩ | ⟨-, ⟨fault, -, rfl⟩ | ⟨res, data, -, ⟨-, rfl⟩ | ⟨-, rfl⟩⟩⟩
    · exact absurd (hflag.symm.trans hclear) nofun
    · exact ⟨⟨fun _ _ => rfl, nofun, fun _ => rfl⟩, nofun⟩
    · refine ⟨⟨fun _ _ => rfl, fun _ _ _ hset => ?_, fun _ => Readiness.get_set_other ..⟩, nofun⟩
      exact absurd ((Readiness.get_set_self ..).symm.trans hset) nofun
    · exact ⟨⟨fun _ _ => rfl, nofun, fun _ => rfl⟩, nofun⟩

/-- **A loop that tries what it awaits makes progress** in every run: the wait ends only with the
flag set that the attempt needs, so that every pass through the wait leads to a call. -/
theorem progresses_of_matched {es : List (LoopState α ε ρ × LoopAct ω ε × LoopState α ε ρ)}
    (hmatched : L.tries = L.awaits) (hs : s.pc = .waiting) (hrun : L.Run s es s') :
    ∀ e ∈ es, L.Progresses e.1 e.2.1 e.2.2 := by
  refine (Steps.history (P := fun es s' =>
    (∀ e ∈ es, L.Progresses e.1 e.2.1 e.2.2) ∧ L.Armed s') ?_ hrun ⟨by simp, ?_⟩).1
  · rintro es s₁ ⟨s₂, act, s₃⟩ s₄ ⟨ih, harmed⟩ ⟨rfl, rfl, hstep⟩
    obtain ⟨hprogress, harmed'⟩ := progresses_step hmatched harmed hstep
    rw [List.forall_mem_append, List.forall_mem_singleton]
    exact ⟨⟨ih, hprogress⟩, harmed'⟩
  · intro hpc
    rw [hs] at hpc
    exact absurd hpc nofun

/-- What a loop can still use without a new event. -/
def credit (L : ReadinessLoop α ω ε ρ) (s : LoopState α ε ρ) : Nat :=
  match s.pc with
  | .waiting => (s.ready.get L.awaits).toNat
  | _ => 0

/-- The step is a pass through the wait. -/
def isPass : LoopAct ω ε → Bool
  | .pass => true
  | _ => false

/-- The step is an event in the direction that the loop awaits. -/
def isEvent (L : ReadinessLoop α ω ε ρ) : LoopAct ω ε → Bool
  | .event i => i == L.awaits
  | _ => false

theorem credit_le_one (s : LoopState α ε ρ) : L.credit s ≤ 1 := by
  rw [credit]
  split
  · exact Bool.toNat_le _
  · exact Nat.zero_le 1

/-- An iteration uses what an event gave. Summed over a run this bounds the iterations by the
events, which excludes a loop that spins. -/
theorem credit_step {act : LoopAct ω ε} (hmatched : L.tries = L.awaits) (harmed : L.Armed s)
    (h : L.step s act = some s') :
    (isPass act).toNat + L.credit s' ≤ L.credit s + (L.isEvent act).toNat := by
  cases act with
  | event i =>
    obtain rfl := Option.some.inj h
    by_cases hi : L.awaits = i
    · have hevent : L.isEvent (.event i : LoopAct ω ε) = true := by simp [isEvent, hi]
      have hle := credit_le_one (L := L)
        { s with ready := s.ready.set i true, fresh := s.fresh || i == L.awaits }
      rw [hevent, show isPass (.event i : LoopAct ω ε) = false from rfl]
      simp only [Bool.toNat_true, Bool.toNat_false]
      omega
    · have hsame := Readiness.get_set_of_ne s.ready hi true
      simp [credit, hsame, isPass]
  | pass =>
    obtain ⟨hpc, hflag, rfl⟩ := pass_cases h
    simp [credit, hpc, hflag, isPass, isEvent]
  | awaitFails err =>
    obtain ⟨-, rfl⟩ := awaitFails_cases h
    simp [credit, isPass]
  | tryIo w =>
    obtain ⟨hpc, hcases⟩ := tryIo_cases h
    have hflag := harmed hpc
    rw [hmatched] at hcases
    rcases hcases with ⟨hclear, -⟩ | ⟨-, ⟨fault, -, rfl⟩ | ⟨res, data, -, ⟨-, rfl⟩ | ⟨-, rfl⟩⟩⟩
    · exact absurd (hflag.symm.trans hclear) nofun
    · simp [credit, isPass]
    · simp [credit, isPass]
    · simp [credit, isPass]

/-- **The loop does not spin.** The iterations of a loop that tries what it awaits are at most one
more than the events: an iteration that does not return clears the flag of the next wait. -/
theorem passes_le {es : List (LoopState α ε ρ × LoopAct ω ε × LoopState α ε ρ)}
    (hmatched : L.tries = L.awaits) (hs : s.pc = .waiting) (hrun : L.Run s es s') :
    es.countP (fun e => isPass e.2.1) ≤ es.countP (fun e => L.isEvent e.2.1) + 1 := by
  have key : L.Armed s' ∧ es.countP (fun e => isPass e.2.1) + L.credit s' ≤
      L.credit s + es.countP (fun e => L.isEvent e.2.1) := by
    refine Steps.history (P := fun es s' => L.Armed s' ∧
      es.countP (fun e => isPass e.2.1) + L.credit s' ≤
        L.credit s + es.countP (fun e => L.isEvent e.2.1)) ?_ hrun ⟨?_, by simp⟩
    · rintro es s₁ ⟨s₂, act, s₃⟩ s₄ ⟨harmed, ih⟩ ⟨rfl, rfl, hstep⟩
      have hcredit := credit_step hmatched harmed hstep
      change _ + L.credit s₂ ≤ _ at ih
      refine ⟨(progresses_step hmatched harmed hstep).2, ?_⟩
      simp only [List.countP_append, List.countP_singleton]
      cases hpass : isPass act <;> cases hevent : L.isEvent act <;>
        simp only [hpass, hevent, Bool.toNat_true, Bool.toNat_false, Bool.false_eq_true, if_true,
          if_false] at hcredit ⊢ <;> omega
    · intro hpc
      rw [hs] at hpc
      exact absurd hpc nofun
  have hle := credit_le_one (L := L) s
  have hcount := key.2
  omega

end ReadinessLoop

end ZprUtils
