import ZprUtils.Rcu.Locked
import ZprUtils.Rcu.EpochAtomic

/-!
# No update is lost

The five implementations of the box are all atomic: every call takes effect at one moment between
its invocation and its response. The moments order the writes and the updates. An update that
returns `Ok` puts what its closure makes of the value before it in the box, and one that returns
`Err` changes nothing. What `inspect` and `get` see is the value at the moment of the call, and the
guard that `get` returns refers to it for as long as the guard is alive.

## Main definitions

* `Variant`, `RcuBox` — the implementations.
* `RcuBox.Run` — any interleaving of the atomic steps of any number of calls.

## Main results

* `RcuBox.no_lost_update` — every run is atomic.
-/

namespace ZprUtils.Rcu

variable {V : Type}

/-- The implementations, after the features that choose them. -/
inductive Variant where
  | rwlock
  | mutexArc
  | crossbeamEpoch
  | aarc
  | arcSwap
  deriving DecidableEq, Repr

/-- A box of one of the implementations. -/
inductive RcuBox (V : Type) where
  | locked (mode : ReadMode) (s : LockedBox V)
  | epoch (s : EpochBox V)

namespace RcuBox

/-- A new box of one of the variants. -/
def new (value : V) : Variant → RcuBox V
  | .rwlock => .locked .shared (.new value)
  | .mutexArc => .locked .exclusive (.new value)
  | .crossbeamEpoch => .epoch (.new value)
  | .aarc | .arcSwap => .locked .lockFree (.new value)

/-- The value in the box. -/
def value : RcuBox V → V
  | .locked _ s => s.value
  | .epoch s => s.valueAt s.ptr

/-- The value that the guard of call `c` refers to. -/
def deref : RcuBox V → Nat → Option V
  | .locked _ s => s.deref
  | .epoch s => s.deref

/-- One atomic step. -/
inductive Step : RcuBox V → CallEvent Nat (BoxOp V) (BoxRet V) → RcuBox V → Prop
  | locked {mode : ReadMode} {s s' : LockedBox V} {e : CallEvent Nat (BoxOp V) (BoxRet V)}
      (hstep : s.Step mode e s') : Step (.locked mode s) e (.locked mode s')
  | epoch {s s' : EpochBox V} {e : CallEvent Nat (BoxOp V) (BoxRet V)} (hstep : s.Step e s') :
      Step (.epoch s) e (.epoch s')

/-- A run, with the state before each step and what is seen of it. -/
def Run (s : RcuBox V) (es : List (RcuBox V × CallEvent Nat (BoxOp V) (BoxRet V)))
    (s' : RcuBox V) : Prop :=
  Steps (fun s (e : RcuBox V × CallEvent Nat (BoxOp V) (BoxRet V)) s' => e.1 = s ∧ s.Step e.2 s')
    s es s'

/-! ### Every step is one of an atomic box -/

/-- The atomic box of which the box is an implementation. -/
def abs : RcuBox V → AtomicState Nat V (BoxOp V) (BoxRet V)
  | .locked _ s => s.abs
  | .epoch s => s.abs

/-- The invariant of the implementation. -/
def Inv : RcuBox V → Prop
  | .locked mode s => s.Inv mode
  | .epoch s => s.Inv

/-- What the caller of a `get` that has returned sees. -/
def look (s : RcuBox V) (c : Nat) : Option (BoxRet V) := (s.deref c).map .seen

variable {s s' : RcuBox V} {e : CallEvent Nat (BoxOp V) (BoxRet V)}

theorem value_abs (s : RcuBox V) : s.abs.value = s.value := by
  cases s <;> rfl

theorem Inv.of_step (h : s.Inv) (hstep : s.Step e s') : s'.Inv := by
  cases hstep with
  | locked hstep => exact (LockedBox.stepOk h hstep).inv
  | epoch hstep => exact (EpochBox.stepOk h hstep).inv

theorem Inv.atomic (h : s.Inv) (hstep : s.Step e s') : AtomicStep BoxOp.spec s.abs e s'.abs := by
  cases hstep with
  | locked hstep => exact (LockedBox.stepOk h hstep).atomic
  | epoch hstep => exact (EpochBox.stepOk h hstep).atomic

theorem Inv.look (h : s.Inv) (hstep : s.Step e s') {c : Nat} {ret : BoxRet V}
    (hlook : s'.look c = some ret) : s.look c = some ret ∨ e = .respond c ret := by
  cases hstep with
  | locked hstep => exact (LockedBox.stepOk h hstep).look c ret hlook
  | epoch hstep => exact (EpochBox.stepOk h hstep).look c ret hlook

theorem status_of_look {c : Nat} {ret : BoxRet V} (h : s.look c = some ret) :
    s.abs.status c = .returned := by
  cases s with
  | locked mode s => exact LockedBox.status_of_look h
  | epoch s => exact EpochBox.status_of_look h

theorem inv_new (value : V) (variant : Variant) : (new value variant).Inv := by
  cases variant with
  | crossbeamEpoch => exact EpochBox.inv_new value
  | rwlock | mutexArc | aarc | arcSwap => exact LockedBox.inv_new value

theorem status_new (value : V) (variant : Variant) (c : Nat) :
    (new value variant).abs.status c = .idle := by
  cases variant <;> rfl

/-- **No update is lost.** In every run of every implementation the calls take effect at moments
between their invocations and their responses, and a guard refers to the value that its `get` has
seen. -/
theorem no_lost_update (variant : Variant) (value : V)
    {es : List (RcuBox V × CallEvent Nat (BoxOp V) (BoxRet V))} {s : RcuBox V}
    (hrun : (new value variant).Run es s) :
    (∃ moment, TakesEffect BoxOp.spec (es.map Prod.snd) (es.map (·.1.value) ++ [s.value]) moment) ∧
      ∀ c ret v, .respond c ret ∈ es.map Prod.snd → s.deref c = some v → ret = .seen v := by
  have hinv : ∀ (s : RcuBox V) e s', s.Inv → s.Step e s' → s'.Inv := fun _ _ _ => Inv.of_step
  have hatomic : ∀ (s : RcuBox V) e s', s.Inv → s.Step e s' →
      AtomicStep BoxOp.spec s.abs e s'.abs := fun _ _ _ => Inv.atomic
  constructor
  · obtain ⟨moment, h⟩ := exists_takesEffect hinv hatomic (inv_new value variant)
      (status_new value variant) hrun
    simp only [value_abs] at h
    exact ⟨moment, h⟩
  · intro c ret v hc hv
    have hlook : s.look c = some (.seen v) := by rw [RcuBox.look, hv]; rfl
    exact (eq_of_responded hinv hatomic (fun _ _ _ => status_of_look)
      (fun _ _ _ _ _ h hstep => h.look hstep) (inv_new value variant) hrun hc hlook).symm

theorem exists_run_of_acts {s s' : EpochBox V} {acts : List (EpochAct V)}
    {rs : List (CallEvent Nat (BoxOp V) (BoxRet V))}
    (h : runOps EpochBox.step s acts = some (rs, s')) :
    ∃ es, (RcuBox.epoch s).Run es (.epoch s') ∧ es.map Prod.snd = (acts.zip rs).map Prod.snd := by
  have hsteps : Steps Step (.epoch s) ((acts.zip rs).map Prod.snd) (.epoch s') := by
    refine (Steps.of_runOps h).map fun s₁ e s₂ hstep => ?_
    exact .epoch ⟨e.1, hstep⟩
  obtain ⟨es, hes, hrun⟩ := hsteps.traced
  exact ⟨es, hrun, hes⟩

/-- Two updates that add one. The second overtakes the first, whose exchange then fails. -/
def overtaken : List (EpochAct Nat) :=
  let succ : BoxOp Nat := .update fun v => some (v + 1)
  [.invoke 0 succ, .pin 0, .load 0, .fill 0 1, .invoke 1 succ, .pin 1, .load 1, .fill 1 2,
    .exchange 1 false, .retire 1, .unpin 1, .respond 1, .exchange 0 false, .fill 0 3,
    .exchange 0 false, .retire 0, .unpin 0, .respond 0]

/-- Both updates return `Ok`, and both are made. -/
theorem no_lost_update_overtaken : ∃ es s, (new 0 .crossbeamEpoch).Run es s ∧ s.value = 2 ∧
    .respond 0 (.updated true) ∈ es.map Prod.snd ∧
    .respond 1 (.updated true) ∈ es.map Prod.snd ∧
    ∃ moment,
      TakesEffect BoxOp.spec (es.map Prod.snd) (es.map (·.1.value) ++ [s.value]) moment := by
  have hacts : ∃ rs s, runOps EpochBox.step (.new 0) overtaken = some (rs, s) ∧
      s.valueAt s.ptr = 2 ∧
      ((overtaken.zip rs).map Prod.snd)[17]? = some (.respond 0 (.updated true)) ∧
      ((overtaken.zip rs).map Prod.snd)[11]? = some (.respond 1 (.updated true)) :=
    ⟨_, _, rfl, rfl, rfl, rfl⟩
  obtain ⟨rs, s, hacts, hvalue, h₀, h₁⟩ := hacts
  obtain ⟨es, hrun, hes⟩ := exists_run_of_acts hacts
  refine ⟨es, .epoch s, hrun, hvalue, ?_, ?_, (no_lost_update .crossbeamEpoch 0 hrun).1⟩
  · rw [hes]
    exact List.mem_of_getElem? h₀
  · rw [hes]
    exact List.mem_of_getElem? h₁

end RcuBox

end ZprUtils.Rcu
