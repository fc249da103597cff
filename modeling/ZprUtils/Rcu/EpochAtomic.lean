import ZprUtils.Rcu.Epoch

/-!
# The RCU box with deferred destruction is atomic

A pointer that a call has loaded stays good: it is current, or taken out of the box and not retired,
or retired when the guard of the call was already alive. So nothing is destroyed that a call still
looks at, and no address comes back while the call can compare with it: an exchange that succeeds
replaces the very value that the closure has seen.

## Main definitions

* `EpochBox.Safe` — a pointer that a call may use.
* `EpochBox.Inv` — every pointer of every call is safe.
* `EpochBox.abs` — the atomic box that is implemented.

## Main results

* `EpochBox.stepOk` — every step is one of an atomic box, and what a guard refers to stays.
-/

namespace ZprUtils.Rcu

variable {V : Type}

/-- The guard of call `c` keeps a cell that is used so. -/
def CellUse.Protects (c : Nat) : CellUse → Prop
  | .current | .unlinked _ => True
  | .retired pins => c ∈ pins
  | _ => False

namespace EpochBox

/-- Call `c` may use the pointer. -/
def Safe (s : EpochBox V) (c ptr : Nat) : Prop :=
  c ∈ s.pinned ∧ (s.heap ptr).use.Protects c

/-- What call `c` relies on, in the place `p`. -/
def CallOk (s : EpochBox V) (c : Nat) : EpochPc V → Prop
  | .pinned _ => c ∈ s.pinned
  | .filled newValue a => (s.heap a).use = .owned c ∧ s.valueAt a = newValue
  | .reading _ ptr | .loaded _ ptr | .guarding ptr => s.Safe c ptr
  | .produced f ptr a =>
    s.Safe c ptr ∧ (s.heap a).use = .owned c ∧ f (s.valueAt ptr) = some (s.valueAt a)
  | .replaced _ _ old => (s.heap old).use = .unlinked c
  | _ => True

/-- One cell is the current one, and every call may use its pointers. -/
structure Inv (s : EpochBox V) : Prop where
  ptr : ∀ a, (s.heap a).use = .current ↔ a = s.ptr
  call : ∀ c, s.CallOk c (s.pc c)

/-- Where a call of the atomic box is. An update whose closure will return `None` is decided as soon
as the pointer is loaded. -/
def status (s : EpochBox V) : EpochPc V → CallStatus (BoxOp V) (BoxRet V)
  | .idle => .idle
  | .ready op | .pinned op => .pending op
  | .filled newValue _ => .pending (.write newValue)
  | .reading op ptr => .decided op (.seen (s.valueAt ptr))
  | .loaded f ptr =>
    match f (s.valueAt ptr) with
    | none => .decided (.update f) (.updated false)
    | some _ => .pending (.update f)
  | .produced f _ _ => .pending (.update f)
  | .replaced op ret _ | .leaving op ret | .unpinned op ret => .decided op ret
  | .guarding _ | .finished => .returned

/-- The atomic box of which `s` is an implementation: the value at the pointer, and how far each
call has come. -/
def abs (s : EpochBox V) : AtomicState Nat V (BoxOp V) (BoxRet V) :=
  ⟨s.valueAt s.ptr, fun c => s.status (s.pc c)⟩

variable {s s' s'' : EpochBox V} {c c' a : Nat} {p : EpochPc V}

/-! ### The calls that do not take a step -/

/-- A step keeps what call `c` relies on. -/
structure Keeps (s s' : EpochBox V) (c : Nat) : Prop where
  pc : s'.pc c = s.pc c
  pinned : c ∈ s.pinned → c ∈ s'.pinned
  safe : ∀ a, s.Safe c a → s'.Safe c a ∧ s'.valueAt a = s.valueAt a
  own : ∀ a, (s.heap a).use = .owned c ∨ (s.heap a).use = .unlinked c → s'.heap a = s.heap a

namespace Keeps

theorem trans (h : Keeps s s' c) (h' : Keeps s' s'' c) : Keeps s s'' c := by
  refine ⟨h'.pc.trans h.pc, fun hc => h'.pinned (h.pinned hc), fun a ha => ?_, fun a ha => ?_⟩
  · obtain ⟨hsafe, hvalue⟩ := h.safe a ha
    obtain ⟨hsafe', hvalue'⟩ := h'.safe a hsafe
    exact ⟨hsafe', hvalue'.trans hvalue⟩
  · have hheap := h.own a ha
    exact (h'.own a (by rwa [hheap])).trans hheap

/-- A step that leaves the heap alone and drops no guard of the call. -/
theorem of_heap (hpc : s'.pc c = s.pc c) (hheap : s'.heap = s.heap)
    (hpinned : c ∈ s.pinned → c ∈ s'.pinned) : Keeps s s' c := by
  refine ⟨hpc, hpinned, fun a ha => ⟨⟨hpinned ha.1, ?_⟩, ?_⟩, fun a _ => by rw [hheap]⟩
  · rw [hheap]
    exact ha.2
  · rw [valueAt, hheap, valueAt]

theorem goto (s : EpochBox V) (p : EpochPc V) (hc : c' ≠ c) : Keeps s (s.goto c p) c' :=
  of_heap (Function.update_of_ne hc ..) rfl id

/-- A step that changes one cell, which the call does not use. -/
theorem update {cell : Cell V} (hpc : s'.pc c = s.pc c) (hpinned : s'.pinned = s.pinned)
    (hheap : s'.heap = Function.update s.heap a cell)
    (hsafe : s.Safe c a → cell.use.Protects c ∧ cell.value = s.valueAt a)
    (hown : (s.heap a).use ≠ .owned c ∧ (s.heap a).use ≠ .unlinked c) : Keeps s s' c := by
  refine ⟨hpc, fun hc => by rwa [hpinned], fun b hb => ?_, fun b hb => ?_⟩
  · by_cases hba : b = a
    · subst hba
      obtain ⟨hprotects, hvalue⟩ := hsafe hb
      rw [Safe, hpinned, hheap, valueAt, hheap, Function.update_self]
      exact ⟨⟨hb.1, hprotects⟩, hvalue⟩
    · rw [Safe, hpinned, hheap, valueAt, hheap, Function.update_of_ne hba]
      exact ⟨hb, rfl⟩
  · have hba : b ≠ a := by
      rintro rfl
      exact hb.elim hown.1 hown.2
    rw [hheap, Function.update_of_ne hba]

theorem mark {use : CellUse} (hsafe : s.Safe c a → use.Protects c)
    (hown : (s.heap a).use ≠ .owned c ∧ (s.heap a).use ≠ .unlinked c) :
    Keeps s (s.mark a use) c :=
  update rfl rfl rfl (fun h => ⟨hsafe h, rfl⟩) hown

theorem alloc (hfree : (s.heap a).use = .free) (v : V) : Keeps s (s.alloc c a v) c' := by
  refine update rfl rfl rfl (fun h => ?_) (by rw [hfree]; exact ⟨nofun, nofun⟩)
  have hprotects := h.2
  rw [hfree] at hprotects
  exact hprotects.elim

theorem install (hinv : s.Inv) (howned : (s.heap a).use = .owned c) (hc : c' ≠ c) :
    Keeps s (s.install c a) c' := by
  have hcurrent : (s.heap s.ptr).use = .current := (hinv.ptr s.ptr).mpr rfl
  have hne : a ≠ s.ptr := by
    rintro rfl
    exact absurd (howned.symm.trans hcurrent) nofun
  have hmark : ((s.mark s.ptr (.unlinked c)).heap a).use = .owned c := by
    change (Function.update s.heap s.ptr _ a).use = _
    rw [Function.update_of_ne hne, howned]
  have hunlink : Keeps s (s.mark s.ptr (.unlinked c)) c' :=
    mark (fun _ => trivial) (by rw [hcurrent]; exact ⟨nofun, nofun⟩)
  have hlink :
      Keeps (s.mark s.ptr (.unlinked c)) ((s.mark s.ptr (.unlinked c)).mark a .current) c' := by
    refine mark (fun _ => trivial) ?_
    rw [hmark]
    refine ⟨fun h => hc (CellUse.owned.inj h).symm, nofun⟩
  exact (hunlink.trans hlink).trans (of_heap rfl rfl id)

theorem callOk (h : Keeps s s' c) (hcall : s.CallOk c p) : s'.CallOk c p := by
  cases p with
  | pinned op => exact h.pinned hcall
  | filled newValue a =>
    obtain ⟨howned, hvalue⟩ := hcall
    rw [CallOk, valueAt, h.own a (Or.inl howned)]
    exact ⟨howned, hvalue⟩
  | reading op ptr => exact (h.safe ptr hcall).1
  | loaded f ptr => exact (h.safe ptr hcall).1
  | guarding ptr => exact (h.safe ptr hcall).1
  | produced f ptr a =>
    obtain ⟨hsafe, howned, hf⟩ := hcall
    obtain ⟨hsafe', hvalue⟩ := h.safe ptr hsafe
    have hheap := h.own a (Or.inl howned)
    have hproduced : s'.valueAt a = s.valueAt a := by rw [valueAt, hheap, valueAt]
    rw [CallOk, hvalue, hproduced, hheap]
    exact ⟨hsafe', howned, hf⟩
  | replaced op ret old =>
    rw [CallOk, h.own old (Or.inr hcall)]
    exact hcall
  | idle => trivial
  | ready => trivial
  | leaving => trivial
  | unpinned => trivial
  | finished => trivial

theorem status (h : Keeps s s' c) (hcall : s.CallOk c p) : s'.status p = s.status p := by
  cases p with
  | reading op ptr => rw [EpochBox.status, (h.safe ptr hcall).2, EpochBox.status]
  | loaded f ptr => rw [EpochBox.status, (h.safe ptr hcall).2, EpochBox.status]
  | _ => rfl

end Keeps

theorem look_eq_some {ret : BoxRet V} :
    s.look c = some ret ↔ ∃ ptr, s.pc c = .guarding ptr ∧ ret = .seen (s.valueAt ptr) := by
  rw [look, deref]
  constructor
  · intro h
    split at h
    · rename_i ptr hpc
      exact ⟨ptr, hpc, (Option.some.inj h).symm⟩
    · exact absurd h nofun
  · rintro ⟨ptr, hpc, rfl⟩
    rw [hpc]
    rfl

theorem Keeps.look {ret : BoxRet V} (h : Keeps s s' c) (hinv : s.Inv)
    (hlook : s'.look c = some ret) : s.look c = some ret := by
  obtain ⟨ptr, hpc, rfl⟩ := look_eq_some.mp hlook
  rw [h.pc] at hpc
  have hcall := hinv.call c
  rw [hpc] at hcall
  exact look_eq_some.mpr ⟨ptr, hpc, by rw [(h.safe ptr hcall).2]⟩

/-! ### One step -/

/-- What a step has to do. -/
structure StepOk (s : EpochBox V) (e : CallEvent Nat (BoxOp V) (BoxRet V)) (s' : EpochBox V) :
    Prop where
  inv : s'.Inv
  atomic : AtomicStep BoxOp.spec s.abs e s'.abs
  look : ∀ c ret, s'.look c = some ret → s.look c = some ret ∨ e = .respond c ret

section

variable {op : BoxOp V} {ret : BoxRet V} (hinv : s.Inv)

/-- What a step of call `c` leaves to prove. -/
structure CallStep (s : EpochBox V) (c : Nat) (p : EpochPc V) (s' : EpochBox V) : Prop where
  pc : s'.pc c = p
  keeps : ∀ c' ≠ c, Keeps s s' c'
  ptr : ∀ a, (s'.heap a).use = .current ↔ a = s'.ptr
  call : s'.CallOk c p

include hinv

theorem CallStep.inv (h : s.CallStep c p s') : s'.Inv := by
  refine ⟨h.ptr, fun c' => ?_⟩
  by_cases hc : c' = c
  · rw [hc, h.pc]
    exact h.call
  · rw [(h.keeps c' hc).pc]
    exact (h.keeps c' hc).callOk (hinv.call c')

theorem CallStep.status_of_ne (h : s.CallStep c p s') (c' : Nat) (hc : c' ≠ c) :
    s'.abs.status c' = s.abs.status c' := by
  change s'.status (s'.pc c') = s.status (s.pc c')
  rw [(h.keeps c' hc).pc]
  exact (h.keeps c' hc).status (hinv.call c')

omit hinv in
theorem CallStep.status_self (h : s.CallStep c p s') : s'.abs.status c = s'.status p := by
  change s'.status (s'.pc c) = s'.status p
  rw [h.pc]

theorem CallStep.look (h : s.CallStep c p s') {e : CallEvent Nat (BoxOp V) (BoxRet V)}
    (hguard : ∀ ptr, p = .guarding ptr → e = .respond c (.seen (s'.valueAt ptr))) (c' : Nat)
    (ret : BoxRet V) (hlook : s'.look c' = some ret) :
    s.look c' = some ret ∨ e = .respond c' ret := by
  by_cases hc : c' = c
  · obtain ⟨ptr, hpc, rfl⟩ := look_eq_some.mp hlook
    rw [hc, h.pc] at hpc
    exact Or.inr (hc ▸ hguard ptr hpc)
  · exact Or.inl ((h.keeps c' hc).look hinv hlook)

/-- A step that nothing is seen of: the value in the box is the same and the status of the call is
the same, so the abstract box stays where it is. -/
theorem CallStep.silent (h : s.CallStep c p s') (hvalue : s'.valueAt s'.ptr = s.valueAt s.ptr)
    (hstatus : s'.status p = s.status (s.pc c)) (hguard : ∀ ptr, p ≠ .guarding ptr) :
    StepOk s .silent s' := by
  refine ⟨h.inv hinv, .of_silent hvalue fun c' => ?_,
    h.look hinv fun ptr hp => absurd hp (hguard ptr)⟩
  by_cases hc : c' = c
  · rw [hc, h.status_self, hstatus]
    rfl
  · exact h.status_of_ne hinv c' hc

/-- The step in which a call takes effect: its status goes from pending to decided, and its
specification is applied to the value that is in the box just then. -/
theorem CallStep.decide (h : s.CallStep c p s') (hpending : s.status (s.pc c) = .pending op)
    (hdecided : s'.status p = .decided op ret)
    (hspec : op.spec (s.valueAt s.ptr) = (ret, s'.valueAt s'.ptr)) : StepOk s .silent s' := by
  refine ⟨h.inv hinv,
    .of_decide hpending hspec (h.status_self.trans hdecided) (h.status_of_ne hinv),
    h.look hinv fun ptr hp => ?_⟩
  rw [hp] at hdecided
  exact absurd hdecided nofun

theorem CallStep.respond (h : s.CallStep c p s') (hvalue : s'.valueAt s'.ptr = s.valueAt s.ptr)
    (hdecided : s.status (s.pc c) = .decided op ret) (hreturned : s'.status p = .returned)
    (hguard : ∀ ptr, p = .guarding ptr → ret = .seen (s'.valueAt ptr)) :
    StepOk s (.respond c ret) s' :=
  ⟨h.inv hinv, .of_respond hdecided hvalue (h.status_self.trans hreturned) (h.status_of_ne hinv),
    h.look hinv fun ptr hp => by rw [hguard ptr hp]⟩

/-- Loading the pointer decides an update whose closure returns `None`: the call will return without
an exchange, so this is where it has seen the box. -/
theorem CallStep.load {f : V → Option V} (h : s.CallStep c (.loaded f s'.ptr) s')
    (hvalue : s'.valueAt s'.ptr = s.valueAt s.ptr)
    (hpending : s.status (s.pc c) = .pending (.update f)) : StepOk s .silent s' := by
  cases hf : f (s'.valueAt s'.ptr) with
  | none =>
    refine h.decide hinv hpending (by rw [status, hf]) ?_
    rw [hvalue] at hf ⊢
    exact BoxOp.spec_update_of_none hf
  | some newValue => exact h.silent hinv hvalue (by rw [hpending, status, hf]) nofun

omit hinv in
/-- A step that leaves the heap and the pointer alone. -/
theorem CallStep.of_heap (hinv : s.Inv) (hpc : s'.pc = Function.update s.pc c p)
    (hheap : s'.heap = s.heap) (hptr : s'.ptr = s.ptr)
    (hpinned : ∀ c' ≠ c, c' ∈ s.pinned → c' ∈ s'.pinned) (hcall : s'.CallOk c p) :
    s.CallStep c p s' where
  pc := by rw [hpc, Function.update_self]
  keeps c' hc := .of_heap (by rw [hpc, Function.update_of_ne hc]) hheap (hpinned c' hc)
  ptr := by
    rw [hheap, hptr]
    exact hinv.ptr
  call := hcall

theorem CallStep.goto (hcall : (s.goto c p).CallOk c p) : s.CallStep c p (s.goto c p) :=
  .of_heap hinv rfl rfl rfl (fun _ _ h => h) hcall

end

/-! ### Steps that change the heap -/

@[simp] theorem valueAt_mark (s : EpochBox V) (a b : Nat) (use : CellUse) :
    (s.mark a use).valueAt b = s.valueAt b := by
  change (Function.update s.heap a _ b).value = (s.heap b).value
  by_cases hba : b = a
  · rw [hba, Function.update_self]
  · rw [Function.update_of_ne hba]

@[simp] theorem valueAt_install (s : EpochBox V) (c a b : Nat) :
    (s.install c a).valueAt b = s.valueAt b := by
  change ((s.mark s.ptr (.unlinked c)).mark a .current).valueAt b = s.valueAt b
  rw [valueAt_mark, valueAt_mark]

theorem valueAt_alloc_self (s : EpochBox V) (c a : Nat) (v : V) :
    (s.alloc c a v).valueAt a = v := by
  change (Function.update s.heap a _ a).value = v
  rw [Function.update_self]

theorem valueAt_alloc_of_ne (s : EpochBox V) (c : Nat) (v : V) {b : Nat} (hba : b ≠ a) :
    (s.alloc c a v).valueAt b = s.valueAt b := by
  change (Function.update s.heap a _ b).value = (s.heap b).value
  rw [Function.update_of_ne hba]

theorem use_alloc_self (s : EpochBox V) (c a : Nat) (v : V) :
    ((s.alloc c a v).heap a).use = .owned c := by
  change (Function.update s.heap a _ a).use = _
  rw [Function.update_self]

theorem use_mark_self (s : EpochBox V) (a : Nat) (use : CellUse) :
    ((s.mark a use).heap a).use = use := by
  change (Function.update s.heap a _ a).use = use
  rw [Function.update_self]

theorem use_mark_of_ne (s : EpochBox V) (use : CellUse) {b : Nat} (hba : b ≠ a) :
    ((s.mark a use).heap b).use = (s.heap b).use := by
  change (Function.update s.heap a _ b).use = (s.heap b).use
  rw [Function.update_of_ne hba]

theorem Inv.ne_ptr (h : s.Inv) (ha : (s.heap a).use ≠ .current) : a ≠ s.ptr := fun heq =>
  ha ((h.ptr a).mpr heq)

/-- The current cell stays the current one when another is changed. -/
theorem Inv.ptr_update (h : s.Inv) {cell : Cell V} (ha : (s.heap a).use ≠ .current)
    (hcell : cell.use ≠ .current) (b : Nat) :
    (Function.update s.heap a cell b).use = .current ↔ b = s.ptr := by
  by_cases hba : b = a
  · rw [hba, Function.update_self]
    exact ⟨fun hc => absurd hc hcell, fun hb => absurd hb (h.ne_ptr ha)⟩
  · rw [Function.update_of_ne hba]
    exact h.ptr b

theorem Inv.ptr_install (h : s.Inv) (c : Nat) (b : Nat) :
    ((s.install c a).heap b).use = .current ↔ b = a := by
  change (((s.mark s.ptr (.unlinked c)).mark a .current).heap b).use = .current ↔ b = a
  by_cases hba : b = a
  · rw [hba, use_mark_self]
    exact ⟨fun _ => rfl, fun _ => rfl⟩
  · rw [use_mark_of_ne _ _ hba]
    refine ⟨fun hb => ?_, fun hb => absurd hb hba⟩
    by_cases hbp : b = s.ptr
    · rw [hbp, use_mark_self] at hb
      exact absurd hb nofun
    · rw [use_mark_of_ne _ _ hbp] at hb
      exact absurd ((h.ptr b).mp hb) hbp

section

variable {f : V → Option V} {op : BoxOp V} {ret : BoxRet V} (hinv : s.Inv)
include hinv

/-- Moving a value to a free cell. -/
theorem CallStep.alloc {v : V} (hfree : (s.heap a).use = .free)
    (hcall : (s.alloc c a v).CallOk c p) : s.CallStep c p ((s.alloc c a v).goto c p) where
  pc := Function.update_self ..
  keeps _ hc := (Keeps.alloc hfree v).trans (.goto _ _ hc)
  ptr := hinv.ptr_update (by rw [hfree]; nofun) nofun
  call := by cases p <;> exact hcall

/-- Putting the own cell in the place of the current one. The cell that is replaced becomes one that
the call has to retire. -/
theorem CallStep.install (howned : (s.heap a).use = .owned c) :
    s.CallStep c (.replaced op ret s.ptr) ((s.install c a).goto c (.replaced op ret s.ptr)) where
  pc := Function.update_self ..
  keeps _ hc := (Keeps.install hinv howned hc).trans (.goto _ _ hc)
  ptr := hinv.ptr_install c
  call := by
    have hne : s.ptr ≠ a := (hinv.ne_ptr (by rw [howned]; nofun)).symm
    change (((s.mark s.ptr (.unlinked c)).mark a .current).heap s.ptr).use = .unlinked c
    rw [use_mark_of_ne _ _ hne, use_mark_self]

/-- Giving up a cell of the call. -/
theorem CallStep.mark {use : CellUse}
    (hown : (s.heap a).use = .owned c ∨ (s.heap a).use = .unlinked c)
    (huse : ∀ c', s.Safe c' a → use.Protects c') (hcurrent : use ≠ .current)
    (hcall : (s.mark a use).CallOk c p) : s.CallStep c p ((s.mark a use).goto c p) where
  pc := Function.update_self ..
  keeps c' hc := by
    refine (Keeps.mark (huse c') ?_).trans (.goto _ _ hc)
    rcases hown with hown | hown <;> rw [hown]
    · exact ⟨fun h => hc (CellUse.owned.inj h).symm, nofun⟩
    · exact ⟨nofun, fun h => hc (CellUse.unlinked.inj h).symm⟩
  ptr := by
    refine hinv.ptr_update ?_ hcurrent
    rcases hown with hown | hown <;> rw [hown] <;> nofun
  call := by cases p <;> exact hcall

end

section

variable {e : CallEvent Nat (BoxOp V) (BoxRet V)} (hinv : s.Inv)
include hinv

theorem callOk_of_pc (hpc : s.pc c = p) : s.CallOk c p := hpc ▸ hinv.call c

/-- The current cell is safe for every call with a guard: if it is replaced, it is retired with that
guard among those to wait for. -/
theorem safe_ptr (hpinned : c ∈ s.pinned) : s.Safe c s.ptr := by
  refine ⟨hpinned, ?_⟩
  rw [(hinv.ptr s.ptr).mpr rfl]
  trivial

theorem stepOk_load {op : BoxOp V} (hpc : s.pc c = .pinned op)
    (hop : op = .inspect ∨ op = .get) : StepOk s .silent (s.goto c (.reading op s.ptr)) := by
  have hsafe := safe_ptr hinv (callOk_of_pc hinv hpc)
  refine CallStep.decide hinv (.goto hinv hsafe) (by rw [hpc]; rfl) rfl ?_
  rcases hop with rfl | rfl <;> rfl

theorem stepOk_fill {newValue : V} (hpc : s.pc c = .pinned (.write newValue))
    (hfree : (s.heap a).use = .free) :
    StepOk s .silent ((s.alloc c a newValue).goto c (.filled newValue a)) := by
  have hptr : s.ptr ≠ a := (hinv.ne_ptr (by rw [hfree]; nofun)).symm
  exact CallStep.silent hinv
    (.alloc hinv hfree ⟨use_alloc_self s c a newValue, valueAt_alloc_self ..⟩)
    (valueAt_alloc_of_ne s c newValue hptr) (by rw [hpc]; rfl) nofun

theorem stepOk_produce {ptr : Nat} {f : V → Option V} {newValue : V} (hpc : s.pc c = .loaded f ptr)
    (hf : f (s.valueAt ptr) = some newValue) (hfree : (s.heap a).use = .free) :
    StepOk s .silent ((s.alloc c a newValue).goto c (.produced f ptr a)) := by
  have hptr : s.ptr ≠ a := (hinv.ne_ptr (by rw [hfree]; nofun)).symm
  have hsafe : s.Safe c ptr := callOk_of_pc hinv hpc
  have hne : ptr ≠ a := by
    rintro rfl
    have hprotects := hsafe.2
    rw [hfree] at hprotects
    exact hprotects
  refine CallStep.silent hinv
    (.alloc hinv hfree ⟨⟨hsafe.1, ?_⟩, use_alloc_self s c a newValue, ?_⟩)
    (valueAt_alloc_of_ne s c newValue hptr) (by rw [hpc, status, status, hf]) nofun
  · change (Function.update s.heap a _ ptr).use.Protects c
    rw [Function.update_of_ne hne]
    exact hsafe.2
  · rw [valueAt_alloc_of_ne s c newValue hne, valueAt_alloc_self, hf]

theorem stepOk_swap {newValue : V} (hpc : s.pc c = .filled newValue a) :
    StepOk s .silent ((s.install c a).goto c (.replaced (.write newValue) .written s.ptr)) := by
  obtain ⟨howned, hvalue⟩ := callOk_of_pc hinv hpc
  refine CallStep.decide hinv (.install hinv howned) (by rw [hpc]; rfl) rfl ?_
  change _ = (_, (s.install c a).valueAt a)
  rw [valueAt_install, hvalue]
  rfl

/-- An exchange that succeeds: the pointer still points to the value that the closure has seen. A
cell is not used again while a guard protects it, so an equal pointer is an equal value. -/
theorem stepOk_exchange {f : V → Option V} (hpc : s.pc c = .produced f s.ptr a) :
    StepOk s .silent
      ((s.install c a).goto c (.replaced (.update f) (.updated true) s.ptr)) := by
  obtain ⟨-, howned, hf⟩ := callOk_of_pc hinv hpc
  refine CallStep.decide hinv (.install hinv howned) (by rw [hpc]; rfl) rfl ?_
  change _ = (_, (s.install c a).valueAt a)
  rw [valueAt_install]
  exact BoxOp.spec_update_of_some hf

theorem stepOk_retry {ptr : Nat} {f : V → Option V} (hpc : s.pc c = .produced f ptr a) :
    StepOk s .silent ((s.mark a .leaked).goto c (.loaded f s.ptr)) := by
  obtain ⟨hsafe, howned, -⟩ := callOk_of_pc hinv hpc
  have hnotSafe : ∀ c', s.Safe c' a → CellUse.leaked.Protects c' := by
    intro c' hc'
    have hprotects := hc'.2
    rwa [howned] at hprotects
  have hptr : s.ptr ≠ a := (hinv.ne_ptr (by rw [howned]; nofun)).symm
  have hsafe' : (s.mark a .leaked).Safe c s.ptr := by
    refine ⟨hsafe.1, ?_⟩
    rw [use_mark_of_ne _ _ hptr]
    exact (safe_ptr hinv hsafe.1).2
  have hcall : s.CallStep c (.loaded f s.ptr) ((s.mark a .leaked).goto c (.loaded f s.ptr)) :=
    .mark hinv (Or.inl howned) hnotSafe nofun hsafe'
  exact CallStep.load hinv hcall (valueAt_mark ..) (by rw [hpc]; rfl)

theorem stepOk_retire {old : Nat} {op : BoxOp V} {ret : BoxRet V}
    (hpc : s.pc c = .replaced op ret old) :
    StepOk s .silent ((s.mark old (.retired s.pinned)).goto c (.leaving op ret)) := by
  have hunlinked : (s.heap old).use = .unlinked c := callOk_of_pc hinv hpc
  exact CallStep.silent hinv
    (.mark hinv (Or.inr hunlinked) (fun c' hc' => hc'.1) nofun trivial)
    (valueAt_mark ..) (by rw [hpc]; rfl) nofun

theorem stepOk_respondGuard {ptr : Nat} (hpc : s.pc c = .reading .get ptr) :
    StepOk s (.respond c (.seen (s.valueAt ptr))) (s.goto c (.guarding ptr)) := by
  have hsafe : s.Safe c ptr := callOk_of_pc hinv hpc
  have hcall : s.CallStep c (.guarding ptr) (s.goto c (.guarding ptr)) := .goto hinv hsafe
  refine hcall.respond hinv rfl (by rw [hpc]; rfl) rfl fun ptr' hp => ?_
  obtain rfl := EpochPc.guarding.inj hp
  rfl

omit hinv in
/-- A retired cell whose guards are all gone is not in use. -/
theorem not_safe_of_retired {pins : List Nat} (huse : (s.heap a).use = .retired pins)
    (hpins : ∀ c ∈ pins, c ∉ s.pinned) (c : Nat) : ¬ s.Safe c a := by
  rintro ⟨hpinned, hprotects⟩
  rw [huse] at hprotects
  exact hpins c hprotects hpinned

/-- Nothing is destroyed that a call may use: the collector waits for all guards that were there
when the cell was retired, and later ones cannot reach it. -/
theorem stepOk_destroy {junk : V} {pins : List Nat} (huse : (s.heap a).use = .retired pins)
    (hpins : ∀ c ∈ pins, c ∉ s.pinned) :
    StepOk s .silent { s with
      heap := Function.update s.heap a ⟨junk, (s.heap a).serial, .free⟩
      destroyed := s.destroyed ++ [(s.heap a).serial] } := by
  have hcurrent : (s.heap a).use ≠ .current := by rw [huse]; nofun
  have hkeeps : ∀ c', Keeps s { s with
      heap := Function.update s.heap a ⟨junk, (s.heap a).serial, .free⟩
      destroyed := s.destroyed ++ [(s.heap a).serial] } c' := fun c' =>
    .update rfl rfl rfl (fun h => absurd h (not_safe_of_retired huse hpins c'))
      (by rw [huse]; exact ⟨nofun, nofun⟩)
  refine ⟨⟨hinv.ptr_update hcurrent nofun, fun c' => (hkeeps c').callOk (hinv.call c')⟩,
    .of_silent ?_ fun c' => (hkeeps c').status (hinv.call c'),
    fun c' ret hlook => Or.inl ((hkeeps c').look hinv hlook)⟩
  change (Function.update s.heap a _ s.ptr).value = (s.heap s.ptr).value
  rw [Function.update_of_ne (hinv.ne_ptr hcurrent).symm]

/-- **One step** of the box is one of an atomic box: the swap of a write and the exchange of an
update that succeeds replace the value, a load decides the calls that only read, and all other steps
are silent. The other calls keep what they rely on. -/
theorem stepOk (hstep : s.Step e s') : StepOk s e s' := by
  obtain ⟨act, hstep⟩ := hstep
  cases moves_of_step hstep with
  | load hpc hop => exact stepOk_load hinv hpc hop
  | fill hpc hfree => exact stepOk_fill hinv hpc hfree
  | produce hpc hf hfree => exact stepOk_produce hinv hpc hf hfree
  | swap hpc => exact stepOk_swap hinv hpc
  | exchange hpc => exact stepOk_exchange hinv hpc
  | retry hpc => exact stepOk_retry hinv hpc
  | retire hpc => exact stepOk_retire hinv hpc
  | respondGuard hpc => exact stepOk_respondGuard hinv hpc
  | destroy huse hpins => exact stepOk_destroy hinv huse hpins
  | @invoke c op hpc =>
    have hcall : s.CallStep c (.ready op)
        { s.goto c (.ready op) with borrows := c :: s.borrows } :=
      .of_heap hinv rfl rfl rfl (fun _ _ h => h) trivial
    have hidle : s.abs.status c = .idle := by
      change s.status (s.pc c) = .idle
      rw [hpc]
      rfl
    exact ⟨hcall.inv hinv, .of_invoke hidle rfl hcall.status_self (hcall.status_of_ne hinv),
      hcall.look hinv nofun⟩
  | @pin c op hpc =>
    have hcall : s.CallStep c (.pinned op)
        { s.goto c (.pinned op) with pinned := c :: s.pinned } :=
      .of_heap hinv rfl rfl rfl (fun _ _ h => List.mem_cons_of_mem c h) List.mem_cons_self
    exact hcall.silent hinv rfl (by rw [hpc]; rfl) nofun
  | loadUpdate hpc =>
    have hsafe := safe_ptr hinv (callOk_of_pc hinv hpc)
    exact CallStep.load hinv (.goto hinv hsafe) rfl (by rw [hpc]; rfl)
  | inspect hpc => exact CallStep.silent hinv (.goto hinv trivial) rfl (by rw [hpc]; rfl) nofun
  | refuse hpc hf =>
    exact CallStep.silent hinv (.goto hinv trivial) rfl (by rw [hpc, status, status, hf]) nofun
  | @unpin c op ret hpc =>
    have hcall : s.CallStep c (.unpinned op ret)
        { s.goto c (.unpinned op ret) with pinned := s.pinned.erase c } :=
      .of_heap hinv rfl rfl rfl (fun _ hc h => (List.mem_erase_of_ne hc).mpr h) trivial
    exact hcall.silent hinv rfl (by rw [hpc]; rfl) nofun
  | @respond c op ret hpc =>
    have hcall : s.CallStep c .finished
        { s.goto c .finished with borrows := s.borrows.erase c } :=
      .of_heap hinv rfl rfl rfl (fun _ _ h => h) trivial
    exact hcall.respond hinv rfl (by rw [hpc]; rfl) rfl nofun
  | @dropGuard c ptr hpc =>
    have hcall : s.CallStep c .finished { s.goto c .finished with
        pinned := s.pinned.erase c
        borrows := s.borrows.erase c } :=
      .of_heap hinv rfl rfl rfl (fun _ hc h => (List.mem_erase_of_ne hc).mpr h) trivial
    exact hcall.silent hinv rfl (by rw [hpc]; rfl) nofun
  | dropBox =>
    have hkeeps : ∀ c', Keeps s { s with dropped := true } c' := fun c' => .of_heap rfl rfl id
    exact ⟨⟨hinv.ptr, fun c' => (hkeeps c').callOk (hinv.call c')⟩,
      .of_silent rfl fun c' => (hkeeps c').status (hinv.call c'),
      fun c' ret hlook => Or.inl ((hkeeps c').look hinv hlook)⟩

end

theorem inv_new (value : V) : (new value).Inv := by
  refine ⟨fun a => ?_, fun _ => trivial⟩
  change (if a = 0 then (⟨value, 0, .current⟩ : Cell V) else ⟨value, 0, .free⟩).use = .current ↔
    a = 0
  by_cases ha : a = 0
  · simp [ha]
  · simp [ha]

theorem status_of_look {ret : BoxRet V} (h : s.look c = some ret) : s.abs.status c = .returned := by
  obtain ⟨ptr, hpc, -⟩ := look_eq_some.mp h
  change s.status (s.pc c) = .returned
  rw [hpc]
  rfl

end EpochBox

end ZprUtils.Rcu
