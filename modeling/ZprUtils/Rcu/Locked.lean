import ZprUtils.Rcu.Box

/-!
# RCU boxes with a lock

Four of the implementations of the box serialize `write` and `update` with a lock. They differ in
how values are read: `rcu-rwlock` takes the lock shared, and a guard of `get` keeps it and refers to
the value in the box; `rcu-mutex-arc` takes the lock exclusively and clones a reference to the
value; `rcu-aarc` and `rcu-arc-swap` load the reference without the lock. An update loads the value,
computes the new one and stores it, with the lock held.

## Main definitions

* `ReadMode` — how values are read.
* `LockedBox`, `LockedBox.step` — the box and one atomic step of a call.
* `LockedBox.deref` — the value that the guard of a call refers to.

## Main results

* `LockedBox.stepOk` — every step is one of an atomic box.
* `LockedBox.look_of_frame` — the value that a guard refers to stays.
-/

namespace ZprUtils.Rcu

variable {V : Type}

/-- How the value is read. -/
inductive ReadMode where
  | shared
  | exclusive
  | lockFree
  deriving DecidableEq, Repr

/-- How the lock is held. -/
inductive LockKind where
  | shared
  | exclusive
  deriving DecidableEq, Repr

/-- The lock that a call takes. -/
def ReadMode.lockOf (mode : ReadMode) : BoxOp V → Option LockKind
  | .write _ | .update _ => some .exclusive
  | .inspect | .get =>
    match mode with
    | .shared => some .shared
    | .exclusive => some .exclusive
    | .lockFree => none

/-- The guard that `get` returns keeps the lock. -/
def ReadMode.keepsLock (mode : ReadMode) : BoxOp V → Bool
  | .get => mode = .shared
  | _ => false

theorem ReadMode.lockOf_of_keepsLock {mode : ReadMode} {op : BoxOp V} (h : mode.keepsLock op) :
    mode.lockOf op = some .shared := by
  cases op with
  | get =>
    obtain rfl : mode = .shared := of_decide_eq_true h
    rfl
  | inspect | write | update => exact absurd h nofun

/-- Where a call is. -/
inductive LockedPc (V : Type) where
  | idle
  | ready (op : BoxOp V)
  /-- The lock is held, if the call takes one. -/
  | locked (op : BoxOp V)
  /-- The closure of an update has returned a new value. -/
  | computed (f : V → Option V) (newValue : V)
  /-- The result is known and the lock is still held. -/
  | leaving (op : BoxOp V) (ret : BoxRet V)
  | unlocked (op : BoxOp V) (ret : BoxRet V)
  /-- The call has returned a guard: it has a reference to a value or keeps the lock. -/
  | guarding (arc : Option V)
  | finished

/-- After the response to a call that has dropped its lock. -/
def LockedPc.afterRespond : BoxOp V → BoxRet V → LockedPc V
  | .get, .seen v => .guarding (some v)
  | _, _ => .finished

/-- The box: its value, the lock, and its calls, which are numbered. -/
structure LockedBox (V : Type) where
  value : V
  writer : Option Nat
  readers : List Nat
  pc : Nat → LockedPc V

/-- The next atomic step of call `c`. -/
inductive LockedAct (V : Type) where
  | invoke (c : Nat) (op : BoxOp V)
  | acquire (c : Nat)
  | run (c : Nat)
  | release (c : Nat)
  | respond (c : Nat)
  | dropGuard (c : Nat)

namespace LockedBox

/-- A new box, which nobody uses. -/
def new (value : V) : LockedBox V := ⟨value, none, [], fun _ => .idle⟩

/-- Call `c` goes on to `pc`. -/
def goto (s : LockedBox V) (c : Nat) (pc : LockedPc V) : LockedBox V :=
  { s with pc := Function.update s.pc c pc }

/-- Call `c` drops the lock. -/
def unlock (s : LockedBox V) (c : Nat) : Option LockKind → LockedBox V
  | some .exclusive => { s with writer := none }
  | some .shared => { s with readers := s.readers.erase c }
  | none => s

/-- The work of a call with the lock held. -/
def work (s : LockedBox V) (c : Nat) : BoxOp V → LockedBox V
  | .write newValue => { s.goto c (.leaving (.write newValue) .written) with value := newValue }
  | .update f =>
    match f s.value with
    | none => s.goto c (.leaving (.update f) (.updated false))
    | some newValue => s.goto c (.computed f newValue)
  | op => s.goto c (.leaving op (.seen s.value))

/-- One atomic step of a call, and what is seen of it. -/
def step (mode : ReadMode) (s : LockedBox V) :
    LockedAct V → Option (CallEvent Nat (BoxOp V) (BoxRet V) × LockedBox V)
  | .invoke c op =>
    match s.pc c with
    | .idle => some (.invoke c op, s.goto c (.ready op))
    | _ => none
  | .acquire c =>
    match s.pc c with
    | .ready op =>
      match mode.lockOf op with
      | some .exclusive =>
        if s.writer = none ∧ s.readers = [] then
          some (.silent, { s.goto c (.locked op) with writer := some c })
        else none
      | some .shared =>
        if s.writer = none then
          some (.silent, { s.goto c (.locked op) with readers := c :: s.readers })
        else none
      | none => some (.silent, s.goto c (.locked op))
    | _ => none
  | .run c =>
    match s.pc c with
    | .locked op => some (.silent, s.work c op)
    | .computed f newValue =>
      some (.silent, { s.goto c (.leaving (.update f) (.updated true)) with value := newValue })
    | _ => none
  | .release c =>
    match s.pc c with
    | .leaving op ret =>
      if mode.keepsLock op then none
      else some (.silent, (s.goto c (.unlocked op ret)).unlock c (mode.lockOf op))
    | _ => none
  | .respond c =>
    match s.pc c with
    | .unlocked op ret => some (.respond c ret, s.goto c (.afterRespond op ret))
    | .leaving op ret =>
      if mode.keepsLock op then some (.respond c ret, s.goto c (.guarding none)) else none
    | _ => none
  | .dropGuard c =>
    match s.pc c with
    | .guarding none => some (.silent, (s.goto c .finished).unlock c (some .shared))
    | .guarding (some _) => some (.silent, s.goto c .finished)
    | _ => none

/-- One step of one of the calls. -/
def Step (mode : ReadMode) (s : LockedBox V) (e : CallEvent Nat (BoxOp V) (BoxRet V))
    (s' : LockedBox V) : Prop :=
  ∃ act, s.step mode act = some (e, s')

/-- The value that the guard of call `c` refers to. -/
def deref (s : LockedBox V) (c : Nat) : Option V :=
  match s.pc c with
  | .guarding arc => some (arc.getD s.value)
  | _ => none

/-- What the caller of a `get` that has returned sees. -/
def look (s : LockedBox V) (c : Nat) : Option (BoxRet V) := (s.deref c).map .seen

end LockedBox

/-! ### The atomic box that is implemented -/

/-- Where the call of an atomic box is. -/
def LockedPc.status : LockedPc V → CallStatus (BoxOp V) (BoxRet V)
  | .idle => .idle
  | .ready op | .locked op => .pending op
  | .computed f _ => .pending (.update f)
  | .leaving op ret | .unlocked op ret => .decided op ret
  | .guarding _ | .finished => .returned

theorem LockedPc.status_afterRespond (op : BoxOp V) (ret : BoxRet V) :
    (afterRespond op ret).status = .returned := by
  cases op <;> cases ret <;> rfl

theorem LockedPc.afterRespond_eq_guarding {op : BoxOp V} {ret : BoxRet V} {arc : Option V}
    (h : afterRespond op ret = .guarding arc) : ∃ v, arc = some v ∧ ret = .seen v := by
  cases op with
  | get =>
    cases ret with
    | seen v => exact ⟨v, (LockedPc.guarding.inj h).symm, rfl⟩
    | written | updated => exact absurd h nofun
  | inspect | write | update => exact absurd h nofun

namespace LockedBox

/-- The atomic box of which `s` is an implementation: its value, and how far each call has come. -/
def abs (s : LockedBox V) : AtomicState Nat V (BoxOp V) (BoxRet V) :=
  ⟨s.value, fun c => (s.pc c).status⟩

/-- What the lock gives call `c`, in the place `p`: who holds it exclusively is the writer, who
holds it shared is a reader, and the value that the call has seen stays. -/
def CallOk (mode : ReadMode) (s : LockedBox V) (c : Nat) : LockedPc V → Prop
  | .locked op =>
    (mode.lockOf op = some .exclusive → s.writer = some c) ∧
      (mode.lockOf op = some .shared → c ∈ s.readers)
  | .leaving op ret =>
    (mode.lockOf op = some .exclusive → s.writer = some c) ∧
      (mode.lockOf op = some .shared → c ∈ s.readers ∧ ret = .seen s.value)
  | .computed f newValue => s.writer = some c ∧ f s.value = some newValue
  | .guarding none => c ∈ s.readers
  | _ => True

/-- The lock is held exclusively or shared. -/
structure Inv (mode : ReadMode) (s : LockedBox V) : Prop where
  readers : s.writer ≠ none → s.readers = []
  call : ∀ c, s.CallOk mode c (s.pc c)

variable {mode : ReadMode} {s s' : LockedBox V} {c : Nat} {p : LockedPc V}

theorem status_of_ne (hpc : s'.pc = Function.update s.pc c p) (c' : Nat) (hc : c' ≠ c) :
    s'.abs.status c' = s.abs.status c' := by
  change (s'.pc c').status = (s.pc c').status
  rw [hpc, Function.update_of_ne hc]

theorem status_self (hpc : s'.pc = Function.update s.pc c p) : s'.abs.status c = p.status := by
  change (s'.pc c).status = p.status
  rw [hpc, Function.update_self]

/-- A step of call `c` takes no lock from another call, and changes the value only as the writer. -/
structure Frame (s : LockedBox V) (c : Nat) (p : LockedPc V) (s' : LockedBox V) : Prop where
  pc : s'.pc = Function.update s.pc c p
  writer : s'.writer = s.writer ∨ s.writer = none ∨ s.writer = some c
  readers : ∀ c' ≠ c, c' ∈ s.readers → c' ∈ s'.readers
  value : s'.value = s.value ∨ s.writer = some c

/-- A step that leaves the lock and the value alone. -/
theorem Frame.goto (s : LockedBox V) (c : Nat) (p : LockedPc V) : s.Frame c p (s.goto c p) :=
  ⟨rfl, Or.inl rfl, fun _ _ h => h, Or.inl rfl⟩

theorem Frame.writer_of_ne (h : s.Frame c p s') {c' : Nat} (hc : c' ≠ c)
    (hwriter : s.writer = some c') : s'.writer = some c' := by
  rcases h.writer with hsame | hnone | hself
  · rw [hsame, hwriter]
  · exact absurd (hnone.symm.trans hwriter) nofun
  · exact absurd (Option.some.inj (hself.symm.trans hwriter)).symm hc

/-- The value stays while another call holds the lock, shared or exclusive: a step that writes is
one of the writer, and there is no other one. -/
theorem Frame.value_of_ne (h : s.Frame c p s') (hinv : s.Inv mode) {c' : Nat} (hc : c' ≠ c)
    (hlock : s.writer = some c' ∨ c' ∈ s.readers) : s'.value = s.value := by
  refine h.value.resolve_right fun hself => ?_
  rcases hlock with hwriter | hreader
  · exact hc (Option.some.inj (hself.symm.trans hwriter)).symm
  · rw [hinv.readers (by rw [hself]; nofun)] at hreader
    exact absurd hreader List.not_mem_nil

theorem CallOk.frame (h : s.Frame c p s') (hinv : s.Inv mode) {c' : Nat} (hc : c' ≠ c)
    {q : LockedPc V} (hcall : s.CallOk mode c' q) : s'.CallOk mode c' q := by
  cases q with
  | locked op =>
    exact ⟨fun hlock => h.writer_of_ne hc (hcall.1 hlock),
      fun hlock => h.readers c' hc (hcall.2 hlock)⟩
  | leaving op ret =>
    refine ⟨fun hlock => h.writer_of_ne hc (hcall.1 hlock), fun hlock => ?_⟩
    obtain ⟨hreader, hret⟩ := hcall.2 hlock
    rw [h.value_of_ne hinv hc (Or.inr hreader)]
    exact ⟨h.readers c' hc hreader, hret⟩
  | computed f newValue =>
    obtain ⟨hwriter, hf⟩ := hcall
    refine ⟨h.writer_of_ne hc hwriter, ?_⟩
    rw [h.value_of_ne hinv hc (Or.inl hwriter)]
    exact hf
  | guarding arc =>
    cases arc with
    | none => exact h.readers c' hc hcall
    | some v => trivial
  | idle => trivial
  | ready => trivial
  | unlocked => trivial
  | finished => trivial

/-- What a step of call `c` keeps. -/
theorem Inv.of_frame (hinv : s.Inv mode) (h : s.Frame c p s')
    (hreaders : s'.writer ≠ none → s'.readers = []) (hcall : s'.CallOk mode c p) : s'.Inv mode := by
  refine ⟨hreaders, fun c' => ?_⟩
  by_cases hc : c' = c
  · rw [hc, h.pc, Function.update_self]
    exact hcall
  · rw [h.pc, Function.update_of_ne hc]
    exact (hinv.call c').frame h hinv hc

theorem look_eq_some {ret : BoxRet V} :
    s.look c = some ret ↔ ∃ arc, s.pc c = .guarding arc ∧ ret = .seen (arc.getD s.value) := by
  rw [look, deref]
  constructor
  · intro h
    split at h
    · rename_i arc hpc
      exact ⟨arc, hpc, (Option.some.inj h).symm⟩
    · exact absurd h nofun
  · rintro ⟨arc, hpc, rfl⟩
    rw [hpc]
    rfl

/-- What a guard refers to stays, and only a response makes a guard. It is this that the
observations of later steps are compared with. -/
theorem look_of_frame {e : CallEvent Nat (BoxOp V) (BoxRet V)} (hinv : s.Inv mode)
    (h : s.Frame c p s')
    (hguard : ∀ arc, p = .guarding arc → e = .respond c (.seen (arc.getD s'.value)))
    (c' : Nat) (ret : BoxRet V) (hlook : s'.look c' = some ret) :
    s.look c' = some ret ∨ e = .respond c' ret := by
  obtain ⟨arc, hpc, rfl⟩ := look_eq_some.mp hlook
  rw [h.pc] at hpc
  by_cases hc : c' = c
  · rw [hc, Function.update_self] at hpc
    exact Or.inr (hc ▸ hguard arc hpc)
  · rw [Function.update_of_ne hc] at hpc
    refine Or.inl (look_eq_some.mpr ⟨arc, hpc, ?_⟩)
    cases arc with
    | some v => rfl
    | none =>
      have hreader := hinv.call c'
      rw [hpc] at hreader
      rw [h.value_of_ne hinv hc (Or.inr hreader)]

/-- What a step has to do. -/
structure StepOk (mode : ReadMode) (s : LockedBox V) (e : CallEvent Nat (BoxOp V) (BoxRet V))
    (s' : LockedBox V) : Prop where
  inv : s'.Inv mode
  atomic : AtomicStep BoxOp.spec s.abs e s'.abs
  look : ∀ c ret, s'.look c = some ret → s.look c = some ret ∨ e = .respond c ret

section

variable {op : BoxOp V} {ret : BoxRet V} (hinv : s.Inv mode) (h : s.Frame c p s')
  (hreaders : s'.writer ≠ none → s'.readers = []) (hcall : s'.CallOk mode c p)
include hinv h hreaders hcall

/-- A step that nothing is seen of. -/
theorem stepOk_silent (hvalue : s'.value = s.value) (hstatus : p.status = (s.pc c).status)
    (hguard : ∀ arc, p ≠ .guarding arc) : StepOk mode s .silent s' := by
  refine ⟨hinv.of_frame h hreaders hcall, .of_silent hvalue fun c' => ?_,
    look_of_frame hinv h fun arc hp => absurd hp (hguard arc)⟩
  by_cases hc : c' = c
  · rw [hc, status_self h.pc, hstatus]
    rfl
  · exact status_of_ne h.pc c' hc

/-- The step in which a call takes effect: its specification is applied to the value under the lock,
and what it will return is settled. -/
theorem stepOk_decide (hpending : (s.pc c).status = .pending op)
    (hdecided : p.status = .decided op ret) (hspec : op.spec s.value = (ret, s'.value)) :
    StepOk mode s .silent s' := by
  refine ⟨hinv.of_frame h hreaders hcall,
    .of_decide hpending hspec ((status_self h.pc).trans hdecided) (status_of_ne h.pc),
    look_of_frame hinv h fun arc hp => ?_⟩
  rw [hp] at hdecided
  exact absurd hdecided nofun

theorem stepOk_respond (hvalue : s'.value = s.value) (hdecided : (s.pc c).status = .decided op ret)
    (hreturned : p.status = .returned)
    (hguard : ∀ arc, p = .guarding arc → ret = .seen (arc.getD s'.value)) :
    StepOk mode s (.respond c ret) s' :=
  ⟨hinv.of_frame h hreaders hcall,
    .of_respond hdecided hvalue ((status_self h.pc).trans hreturned) (status_of_ne h.pc),
    look_of_frame hinv h fun arc hp => by rw [hguard arc hp]⟩

end

theorem stepOk_acquire (hinv : s.Inv mode) {e : CallEvent Nat (BoxOp V) (BoxRet V)}
    (hstep : s.step mode (.acquire c) = some (e, s')) : StepOk mode s e s' := by
  rw [step] at hstep
  split at hstep
  · rename_i op hpc
    split at hstep
    · rename_i hlock
      split_ifs at hstep with hfree
      obtain ⟨rfl, rfl⟩ := Prod.mk.inj (Option.some.inj hstep)
      refine stepOk_silent hinv ⟨rfl, Or.inr (Or.inl hfree.1), fun _ _ h => h, Or.inl rfl⟩
        (fun _ => hfree.2) ⟨fun _ => rfl, fun hshared => ?_⟩ rfl (by rw [hpc]; rfl) nofun
      exact absurd (hlock.symm.trans hshared) nofun
    · rename_i hlock
      split_ifs at hstep with hfree
      obtain ⟨rfl, rfl⟩ := Prod.mk.inj (Option.some.inj hstep)
      refine stepOk_silent hinv
        ⟨rfl, Or.inl rfl, fun _ _ h => List.mem_cons_of_mem c h, Or.inl rfl⟩
        (fun hwriter => absurd hfree hwriter)
        ⟨fun hexclusive => ?_, fun _ => List.mem_cons_self⟩ rfl (by rw [hpc]; rfl) nofun
      exact absurd (hlock.symm.trans hexclusive) nofun
    · rename_i hlock
      obtain ⟨rfl, rfl⟩ := Prod.mk.inj (Option.some.inj hstep)
      refine stepOk_silent hinv (.goto s c _) hinv.readers
        ⟨fun hexclusive => ?_, fun hshared => ?_⟩ rfl (by rw [hpc]; rfl) nofun
      · exact absurd (hlock.symm.trans hexclusive) nofun
      · exact absurd (hlock.symm.trans hshared) nofun
  · exact absurd hstep nofun

/-- The work of a call, which is done in one step while it holds the lock. -/
theorem stepOk_work {op : BoxOp V} (hinv : s.Inv mode) (hpc : s.pc c = .locked op) :
    StepOk mode s .silent (s.work c op) := by
  have hcall := hinv.call c
  rw [hpc] at hcall
  obtain ⟨hwriter, hreader⟩ := hcall
  have hpending : (s.pc c).status = .pending op := by rw [hpc]; rfl
  cases op with
  | write newValue =>
    exact stepOk_decide hinv ⟨rfl, Or.inl rfl, fun _ _ h => h, Or.inr (hwriter rfl)⟩ hinv.readers
      ⟨hwriter, nofun⟩ hpending rfl rfl
  | update f =>
    rw [work]
    split
    · rename_i hf
      exact stepOk_decide hinv (.goto s c _) hinv.readers ⟨hwriter, nofun⟩ hpending rfl
        (BoxOp.spec_update_of_none hf)
    · rename_i newValue hf
      exact stepOk_silent hinv (.goto s c _) hinv.readers ⟨hwriter rfl, hf⟩ rfl
        (by rw [hpending]; rfl) nofun
  | inspect | get =>
    exact stepOk_decide hinv (.goto s c _) hinv.readers
      ⟨hwriter, fun hlock => ⟨hreader hlock, rfl⟩⟩ hpending rfl rfl

theorem stepOk_run (hinv : s.Inv mode) {e : CallEvent Nat (BoxOp V) (BoxRet V)}
    (hstep : s.step mode (.run c) = some (e, s')) : StepOk mode s e s' := by
  rw [step] at hstep
  split at hstep
  · rename_i op hpc
    obtain ⟨rfl, rfl⟩ := Prod.mk.inj (Option.some.inj hstep)
    exact stepOk_work hinv hpc
  · rename_i f newValue hpc
    obtain ⟨rfl, rfl⟩ := Prod.mk.inj (Option.some.inj hstep)
    have hcall := hinv.call c
    rw [hpc] at hcall
    obtain ⟨hwriter, hf⟩ := hcall
    exact stepOk_decide hinv ⟨rfl, Or.inl rfl, fun _ _ h => h, Or.inr hwriter⟩ hinv.readers
      ⟨fun _ => hwriter, nofun⟩ (by rw [hpc]; rfl) rfl (BoxOp.spec_update_of_some hf)
  · exact absurd hstep nofun

/-- Dropping the lock. -/
theorem Frame.unlock {kind : Option LockKind}
    (hwriter : kind = some .exclusive → s.writer = some c) :
    s.Frame c p ((s.goto c p).unlock c kind) := by
  match kind with
  | none => exact .goto s c p
  | some .shared =>
    exact ⟨rfl, Or.inl rfl, fun c' hc h => (List.mem_erase_of_ne hc).mpr h, Or.inl rfl⟩
  | some .exclusive =>
    exact ⟨rfl, Or.inr (Or.inr (hwriter rfl)), fun _ _ h => h, Or.inl rfl⟩

theorem readers_unlock (hinv : s.Inv mode) (kind : Option LockKind)
    (h : ((s.goto c p).unlock c kind).writer ≠ none) :
    ((s.goto c p).unlock c kind).readers = [] := by
  match kind with
  | none => exact hinv.readers h
  | some .shared =>
    change s.readers.erase c = []
    rw [hinv.readers h, List.erase_nil]
  | some .exclusive => exact absurd rfl h

theorem value_unlock (s : LockedBox V) (c : Nat) (kind : Option LockKind) :
    (s.unlock c kind).value = s.value := by
  match kind with
  | none | some .shared | some .exclusive => rfl

theorem stepOk_release (hinv : s.Inv mode) {e : CallEvent Nat (BoxOp V) (BoxRet V)}
    (hstep : s.step mode (.release c) = some (e, s')) : StepOk mode s e s' := by
  rw [step] at hstep
  split at hstep
  · rename_i op ret hpc
    split_ifs at hstep with hkeeps
    obtain ⟨rfl, rfl⟩ := Prod.mk.inj (Option.some.inj hstep)
    have hcall := hinv.call c
    rw [hpc] at hcall
    exact stepOk_silent hinv (.unlock hcall.1) (readers_unlock hinv _) trivial
      (value_unlock ..) (by rw [hpc]; rfl) nofun
  · exact absurd hstep nofun

theorem stepOk_respondAct (hinv : s.Inv mode) {e : CallEvent Nat (BoxOp V) (BoxRet V)}
    (hstep : s.step mode (.respond c) = some (e, s')) : StepOk mode s e s' := by
  rw [step] at hstep
  split at hstep
  · rename_i op ret hpc
    obtain ⟨rfl, rfl⟩ := Prod.mk.inj (Option.some.inj hstep)
    have hcall : (s.goto c (.afterRespond op ret)).CallOk mode c (.afterRespond op ret) := by
      cases op <;> cases ret <;> trivial
    refine stepOk_respond hinv (.goto s c _) hinv.readers hcall rfl (by rw [hpc]; rfl)
      (LockedPc.status_afterRespond op ret) fun arc hp => ?_
    obtain ⟨v, rfl, rfl⟩ := LockedPc.afterRespond_eq_guarding hp
    rfl
  · rename_i op ret hpc
    split_ifs at hstep with hkeeps
    obtain ⟨rfl, rfl⟩ := Prod.mk.inj (Option.some.inj hstep)
    have hcall := hinv.call c
    rw [hpc] at hcall
    obtain ⟨hreader, hret⟩ := hcall.2 (ReadMode.lockOf_of_keepsLock hkeeps)
    refine stepOk_respond hinv (.goto s c _) hinv.readers hreader rfl (by rw [hpc]; rfl) rfl
      fun arc hp => ?_
    obtain rfl := LockedPc.guarding.inj hp
    exact hret
  · exact absurd hstep nofun

theorem stepOk_dropGuard (hinv : s.Inv mode) {e : CallEvent Nat (BoxOp V) (BoxRet V)}
    (hstep : s.step mode (.dropGuard c) = some (e, s')) : StepOk mode s e s' := by
  rw [step] at hstep
  split at hstep
  · rename_i hpc
    obtain ⟨rfl, rfl⟩ := Prod.mk.inj (Option.some.inj hstep)
    exact stepOk_silent hinv (.unlock nofun) (readers_unlock hinv _) trivial rfl
      (by rw [hpc]; rfl) nofun
  · rename_i hpc
    obtain ⟨rfl, rfl⟩ := Prod.mk.inj (Option.some.inj hstep)
    exact stepOk_silent hinv (.goto s c _) hinv.readers trivial rfl (by rw [hpc]; rfl) nofun
  · exact absurd hstep nofun

/-- **One step** of the box is one of an atomic box. A call is decided at its work under the lock,
or when it loads the pointer where reads need no lock; the other calls keep what the lock gives
them. -/
theorem stepOk (hinv : s.Inv mode) {e : CallEvent Nat (BoxOp V) (BoxRet V)}
    (hstep : s.Step mode e s') : StepOk mode s e s' := by
  obtain ⟨act, hstep⟩ := hstep
  cases act with
  | acquire c => exact stepOk_acquire hinv hstep
  | run c => exact stepOk_run hinv hstep
  | release c => exact stepOk_release hinv hstep
  | respond c => exact stepOk_respondAct hinv hstep
  | dropGuard c => exact stepOk_dropGuard hinv hstep
  | invoke c op =>
    rw [step] at hstep
    split at hstep
    · rename_i hpc
      obtain ⟨rfl, rfl⟩ := Prod.mk.inj (Option.some.inj hstep)
      have hidle : s.abs.status c = .idle := by
        change (s.pc c).status = .idle
        rw [hpc]
        rfl
      exact ⟨hinv.of_frame (.goto s c _) hinv.readers trivial,
        .of_invoke hidle rfl (status_self (p := .ready op) rfl) (status_of_ne rfl),
        look_of_frame hinv (.goto s c (.ready op)) nofun⟩
    · exact absurd hstep nofun

theorem inv_new (value : V) : (new value).Inv mode := ⟨nofun, fun _ => trivial⟩

theorem status_of_look {ret : BoxRet V} (h : s.look c = some ret) : s.abs.status c = .returned := by
  obtain ⟨arc, hpc, -⟩ := look_eq_some.mp h
  change (s.pc c).status = .returned
  rw [hpc]
  rfl

end LockedBox

end ZprUtils.Rcu
