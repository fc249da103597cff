import ZprUtils.Rcu.Box

/-!
# The RCU box with deferred destruction

The box of `rcu-crossbeam-epoch` is an atomic pointer to a value on the heap. A call pins a guard
first. `inspect` and `get` load the pointer; `write` swaps it with a pointer to the new value;
`update` loads it, calls its closure, moves the result to the heap, and exchanges the pointers, and
does this again when the exchange fails. A pointer that was replaced is handed over for destruction,
which comes after every guard that is alive at that time is gone, and its address is used again.

The cells are numbered in the order in which they are filled. What a cell is used for is written
beside it. Only a free cell is allocated and only a retired one is destroyed; otherwise the mark is
not looked at. The memory of a cell that is destroyed holds anything.

## Main definitions

* `EpochBox`, `EpochBox.step` — the box and one atomic step of a call.
* `EpochBox.deref` — the value that the guard of a call refers to.
* `EpochBox.Moves` — all that a step can do.

## Main results

* `EpochBox.moves_of_step` — every step is one of the branches.
-/

namespace ZprUtils.Rcu

variable {V : Type}

/-- What a cell is used for. -/
inductive CellUse where
  | free
  /-- The box points to it. -/
  | current
  /-- Filled by call `c`, and not in the box yet. -/
  | owned (c : Nat)
  /-- Taken out of the box by call `c`. -/
  | unlinked (c : Nat)
  /-- Handed over for destruction when the guards of the calls `pins` were alive. -/
  | retired (pins : List Nat)
  /-- Filled by an attempt whose exchange has failed. -/
  | leaked
  deriving DecidableEq, Repr

/-- A cell of the heap, with the number of the value that was moved to it last. -/
structure Cell (V : Type) where
  value : V
  serial : Nat
  use : CellUse

/-- Where a call is. -/
inductive EpochPc (V : Type) where
  | idle
  | ready (op : BoxOp V)
  | pinned (op : BoxOp V)
  /-- A write has moved its value to `a`. -/
  | filled (newValue : V) (a : Nat)
  /-- An `inspect` or `get` has loaded `ptr`. -/
  | reading (op : BoxOp V) (ptr : Nat)
  /-- An update has loaded `ptr`. -/
  | loaded (f : V → Option V) (ptr : Nat)
  /-- The closure of an update has returned a new value for the one at `ptr`, now at `a`. -/
  | produced (f : V → Option V) (ptr a : Nat)
  /-- The call has taken `old` out of the box. -/
  | replaced (op : BoxOp V) (ret : BoxRet V) (old : Nat)
  /-- The result is known and the guard is still alive. -/
  | leaving (op : BoxOp V) (ret : BoxRet V)
  | unpinned (op : BoxOp V) (ret : BoxRet V)
  /-- A `get` has returned its guard. -/
  | guarding (ptr : Nat)
  | finished

/-- The box: its heap and pointer, the guards that are alive, and its calls, which are numbered. -/
structure EpochBox (V : Type) where
  heap : Nat → Cell V
  ptr : Nat
  /-- The calls whose guards are alive. -/
  pinned : List Nat
  /-- The calls and guards that borrow the box. -/
  borrows : List Nat
  dropped : Bool
  /-- How many values there have been. -/
  made : Nat
  destroyed : List Nat
  pc : Nat → EpochPc V

/-- An atomic step: of a call, of the owner of the box, or of the collector. -/
inductive EpochAct (V : Type) where
  | invoke (c : Nat) (op : BoxOp V)
  | pin (c : Nat)
  | load (c : Nat)
  | deref (c : Nat)
  /-- Move a value to the free cell `a`. -/
  | fill (c a : Nat)
  | swap (c : Nat)
  | exchange (c : Nat) (spurious : Bool)
  | retire (c : Nat)
  | unpin (c : Nat)
  | respond (c : Nat)
  | dropGuard (c : Nat)
  | dropBox
  /-- Destroy the value at `a`, which leaves `junk`. -/
  | destroy (a : Nat) (junk : V)

namespace EpochBox

/-- `RcuBox::new`. -/
def new (value : V) : EpochBox V where
  heap := fun a => if a = 0 then ⟨value, 0, .current⟩ else ⟨value, 0, .free⟩
  ptr := 0
  pinned := []
  borrows := []
  dropped := false
  made := 1
  destroyed := []
  pc := fun _ => .idle

/-- Call `c` goes on to `pc`. -/
def goto (s : EpochBox V) (c : Nat) (pc : EpochPc V) : EpochBox V :=
  { s with pc := Function.update s.pc c pc }

/-- The cell `a` is used for something else. -/
def mark (s : EpochBox V) (a : Nat) (use : CellUse) : EpochBox V :=
  { s with heap := Function.update s.heap a { s.heap a with use } }

/-- Call `c` moves `v` to the cell `a`. -/
def alloc (s : EpochBox V) (c a : Nat) (v : V) : EpochBox V :=
  { s with
    heap := Function.update s.heap a ⟨v, s.made, .owned c⟩
    made := s.made + 1 }

/-- Call `c` puts the cell `a` in the place of the current one. -/
def install (s : EpochBox V) (c a : Nat) : EpochBox V :=
  { (s.mark s.ptr (.unlinked c)).mark a .current with ptr := a }

/-- The value at `a`. -/
def valueAt (s : EpochBox V) (a : Nat) : V := (s.heap a).value

/-- One atomic step, and what is seen of it. -/
def step (s : EpochBox V) :
    EpochAct V → Option (CallEvent Nat (BoxOp V) (BoxRet V) × EpochBox V)
  | .invoke c op =>
    match s.pc c with
    | .idle =>
      if s.dropped then none
      else some (.invoke c op, { s.goto c (.ready op) with borrows := c :: s.borrows })
    | _ => none
  | .pin c =>
    match s.pc c with
    | .ready op => some (.silent, { s.goto c (.pinned op) with pinned := c :: s.pinned })
    | _ => none
  | .load c =>
    match s.pc c with
    | .pinned .inspect => some (.silent, s.goto c (.reading .inspect s.ptr))
    | .pinned .get => some (.silent, s.goto c (.reading .get s.ptr))
    | .pinned (.update f) => some (.silent, s.goto c (.loaded f s.ptr))
    | _ => none
  | .deref c =>
    match s.pc c with
    | .reading .inspect ptr => some (.silent, s.goto c (.leaving .inspect (.seen (s.valueAt ptr))))
    | .loaded f ptr =>
      match f (s.valueAt ptr) with
      | none => some (.silent, s.goto c (.leaving (.update f) (.updated false)))
      | some _ => none
    | _ => none
  | .fill c a =>
    if (s.heap a).use = .free then
      match s.pc c with
      | .pinned (.write newValue) =>
          some (.silent, (s.alloc c a newValue).goto c (.filled newValue a))
      | .loaded f ptr =>
        match f (s.valueAt ptr) with
        | none => none
        | some newValue => some (.silent, (s.alloc c a newValue).goto c (.produced f ptr a))
      | _ => none
    else none
  | .swap c =>
    match s.pc c with
    | .filled newValue a =>
      some (.silent, (s.install c a).goto c (.replaced (.write newValue) .written s.ptr))
    | _ => none
  | .exchange c spurious =>
    match s.pc c with
    | .produced f ptr a =>
      if s.ptr = ptr ∧ spurious = false then
        some (.silent, (s.install c a).goto c (.replaced (.update f) (.updated true) ptr))
      else
        -- a failed exchange loads the pointer; nothing refers to the new value any more
        some (.silent, (s.mark a .leaked).goto c (.loaded f s.ptr))
    | _ => none
  | .retire c =>
    match s.pc c with
    | .replaced op ret old =>
        some (.silent, (s.mark old (.retired s.pinned)).goto c (.leaving op ret))
    | _ => none
  | .unpin c =>
    match s.pc c with
    | .leaving op ret =>
      some (.silent, { s.goto c (.unpinned op ret) with pinned := s.pinned.erase c })
    | _ => none
  | .respond c =>
    match s.pc c with
    | .unpinned _ ret =>
      some (.respond c ret, { s.goto c .finished with borrows := s.borrows.erase c })
    | .reading .get ptr => some (.respond c (.seen (s.valueAt ptr)), s.goto c (.guarding ptr))
    | _ => none
  | .dropGuard c =>
    match s.pc c with
    | .guarding _ =>
      some (.silent, { s.goto c .finished with
        pinned := s.pinned.erase c
        borrows := s.borrows.erase c })
    | _ => none
  | .dropBox =>
    -- there is no `Drop` for the box, and the atomic pointer does not drop what it points to
    if s.borrows = [] ∧ s.dropped = false then some (.silent, { s with dropped := true }) else none
  | .destroy a junk =>
    match (s.heap a).use with
    | .retired pins =>
      if pins.all (· ∉ s.pinned) then
        some (.silent, { s with
          heap := Function.update s.heap a ⟨junk, (s.heap a).serial, .free⟩
          destroyed := s.destroyed ++ [(s.heap a).serial] })
      else none
    | _ => none

/-- One step. -/
def Step (s : EpochBox V) (e : CallEvent Nat (BoxOp V) (BoxRet V)) (s' : EpochBox V) : Prop :=
  ∃ act, s.step act = some (e, s')

/-- The value that the guard of call `c` refers to. -/
def deref (s : EpochBox V) (c : Nat) : Option V :=
  match s.pc c with
  | .guarding ptr => some (s.valueAt ptr)
  | _ => none

/-- What the caller of a `get` that has returned sees. -/
def look (s : EpochBox V) (c : Nat) : Option (BoxRet V) := (s.deref c).map .seen

/-! ### All that a step can do -/

/-- The branches of a step, with the action, what is seen of it, and the state after it. -/
inductive Moves (s : EpochBox V) :
    EpochAct V → CallEvent Nat (BoxOp V) (BoxRet V) → EpochBox V → Prop
  | invoke {c : Nat} {op : BoxOp V} (hpc : s.pc c = .idle) :
      Moves s (.invoke c op) (.invoke c op) { s.goto c (.ready op) with borrows := c :: s.borrows }
  | pin {c : Nat} {op : BoxOp V} (hpc : s.pc c = .ready op) :
      Moves s (.pin c) .silent { s.goto c (.pinned op) with pinned := c :: s.pinned }
  | load {c : Nat} {op : BoxOp V} (hpc : s.pc c = .pinned op) (hop : op = .inspect ∨ op = .get) :
      Moves s (.load c) .silent (s.goto c (.reading op s.ptr))
  | loadUpdate {c : Nat} {f : V → Option V} (hpc : s.pc c = .pinned (.update f)) :
      Moves s (.load c) .silent (s.goto c (.loaded f s.ptr))
  | inspect {c ptr : Nat} (hpc : s.pc c = .reading .inspect ptr) :
      Moves s (.deref c) .silent (s.goto c (.leaving .inspect (.seen (s.valueAt ptr))))
  | refuse {c ptr : Nat} {f : V → Option V} (hpc : s.pc c = .loaded f ptr)
      (hf : f (s.valueAt ptr) = none) :
      Moves s (.deref c) .silent (s.goto c (.leaving (.update f) (.updated false)))
  | fill {c a : Nat} {newValue : V} (hpc : s.pc c = .pinned (.write newValue))
      (hfree : (s.heap a).use = .free) :
      Moves s (.fill c a) .silent ((s.alloc c a newValue).goto c (.filled newValue a))
  | produce {c ptr a : Nat} {f : V → Option V} {newValue : V} (hpc : s.pc c = .loaded f ptr)
      (hf : f (s.valueAt ptr) = some newValue) (hfree : (s.heap a).use = .free) :
      Moves s (.fill c a) .silent ((s.alloc c a newValue).goto c (.produced f ptr a))
  | swap {c a : Nat} {newValue : V} (hpc : s.pc c = .filled newValue a) :
      Moves s (.swap c) .silent
        ((s.install c a).goto c (.replaced (.write newValue) .written s.ptr))
  | exchange {c a : Nat} {f : V → Option V} (hpc : s.pc c = .produced f s.ptr a) :
      Moves s (.exchange c false) .silent
        ((s.install c a).goto c (.replaced (.update f) (.updated true) s.ptr))
  | retry {c ptr a : Nat} {f : V → Option V} {spurious : Bool} (hpc : s.pc c = .produced f ptr a)
      (hfail : ptr = s.ptr → spurious = true) :
      Moves s (.exchange c spurious) .silent ((s.mark a .leaked).goto c (.loaded f s.ptr))
  | retire {c old : Nat} {op : BoxOp V} {ret : BoxRet V} (hpc : s.pc c = .replaced op ret old) :
      Moves s (.retire c) .silent ((s.mark old (.retired s.pinned)).goto c (.leaving op ret))
  | unpin {c : Nat} {op : BoxOp V} {ret : BoxRet V} (hpc : s.pc c = .leaving op ret) :
      Moves s (.unpin c) .silent { s.goto c (.unpinned op ret) with pinned := s.pinned.erase c }
  | respond {c : Nat} {op : BoxOp V} {ret : BoxRet V} (hpc : s.pc c = .unpinned op ret) :
      Moves s (.respond c) (.respond c ret) { s.goto c .finished with borrows := s.borrows.erase c }
  | respondGuard {c ptr : Nat} (hpc : s.pc c = .reading .get ptr) :
      Moves s (.respond c) (.respond c (.seen (s.valueAt ptr))) (s.goto c (.guarding ptr))
  | dropGuard {c ptr : Nat} (hpc : s.pc c = .guarding ptr) :
      Moves s (.dropGuard c) .silent { s.goto c .finished with
        pinned := s.pinned.erase c
        borrows := s.borrows.erase c }
  | dropBox : Moves s .dropBox .silent { s with dropped := true }
  | destroy {a : Nat} {junk : V} {pins : List Nat} (huse : (s.heap a).use = .retired pins)
      (hpins : ∀ c ∈ pins, c ∉ s.pinned) :
      Moves s (.destroy a junk) .silent { s with
        heap := Function.update s.heap a ⟨junk, (s.heap a).serial, .free⟩
        destroyed := s.destroyed ++ [(s.heap a).serial] }

section

variable {s s' : EpochBox V} {e : CallEvent Nat (BoxOp V) (BoxRet V)} {c a : Nat}

theorem moves_load (hstep : s.step (.load c) = some (e, s')) : s.Moves (.load c) e s' := by
  rw [step] at hstep
  split at hstep
  · rename_i hpc
    obtain ⟨rfl, rfl⟩ := Prod.mk.inj (Option.some.inj hstep)
    exact .load hpc (Or.inl rfl)
  · rename_i hpc
    obtain ⟨rfl, rfl⟩ := Prod.mk.inj (Option.some.inj hstep)
    exact .load hpc (Or.inr rfl)
  · rename_i hpc
    obtain ⟨rfl, rfl⟩ := Prod.mk.inj (Option.some.inj hstep)
    exact .loadUpdate hpc
  · exact absurd hstep nofun

theorem moves_deref (hstep : s.step (.deref c) = some (e, s')) : s.Moves (.deref c) e s' := by
  rw [step] at hstep
  split at hstep
  · rename_i hpc
    obtain ⟨rfl, rfl⟩ := Prod.mk.inj (Option.some.inj hstep)
    exact .inspect hpc
  · rename_i hpc
    split at hstep
    · rename_i hf
      obtain ⟨rfl, rfl⟩ := Prod.mk.inj (Option.some.inj hstep)
      exact .refuse hpc hf
    · exact absurd hstep nofun
  · exact absurd hstep nofun

theorem moves_fill (hstep : s.step (.fill c a) = some (e, s')) : s.Moves (.fill c a) e s' := by
  rw [step] at hstep
  split_ifs at hstep with hfree
  split at hstep
  · rename_i hpc
    obtain ⟨rfl, rfl⟩ := Prod.mk.inj (Option.some.inj hstep)
    exact .fill hpc hfree
  · rename_i hpc
    split at hstep
    · exact absurd hstep nofun
    · rename_i hf
      obtain ⟨rfl, rfl⟩ := Prod.mk.inj (Option.some.inj hstep)
      exact .produce hpc hf hfree
  · exact absurd hstep nofun

theorem moves_exchange {spurious : Bool} (hstep : s.step (.exchange c spurious) = some (e, s')) :
    s.Moves (.exchange c spurious) e s' := by
  rw [step] at hstep
  split at hstep
  · rename_i hpc
    split_ifs at hstep with hsame
    · obtain ⟨rfl, rfl⟩ := Prod.mk.inj (Option.some.inj hstep)
      obtain ⟨rfl, rfl⟩ := hsame
      exact .exchange hpc
    · obtain ⟨rfl, rfl⟩ := Prod.mk.inj (Option.some.inj hstep)
      refine .retry hpc fun hptr => ?_
      by_contra hne
      exact hsame ⟨hptr.symm, by simpa using hne⟩
  · exact absurd hstep nofun

theorem moves_respond (hstep : s.step (.respond c) = some (e, s')) :
    s.Moves (.respond c) e s' := by
  rw [step] at hstep
  split at hstep
  · rename_i hpc
    obtain ⟨rfl, rfl⟩ := Prod.mk.inj (Option.some.inj hstep)
    exact .respond hpc
  · rename_i hpc
    obtain ⟨rfl, rfl⟩ := Prod.mk.inj (Option.some.inj hstep)
    exact .respondGuard hpc
  · exact absurd hstep nofun

theorem moves_destroy {junk : V} (hstep : s.step (.destroy a junk) = some (e, s')) :
    s.Moves (.destroy a junk) e s' := by
  rw [step] at hstep
  split at hstep
  · rename_i pins huse
    split_ifs at hstep with hpins
    obtain ⟨rfl, rfl⟩ := Prod.mk.inj (Option.some.inj hstep)
    exact .destroy huse fun c hc => of_decide_eq_true (List.all_eq_true.mp hpins c hc)
  · exact absurd hstep nofun

/-- **Every step** is one of the branches. What follows about the box is shown for the branches; the
step function itself is looked at only here. -/
theorem moves_of_step {act : EpochAct V} (hstep : s.step act = some (e, s')) :
    s.Moves act e s' := by
  cases act with
  | load c => exact moves_load hstep
  | deref c => exact moves_deref hstep
  | fill c a => exact moves_fill hstep
  | exchange c spurious => exact moves_exchange hstep
  | respond c => exact moves_respond hstep
  | destroy a junk => exact moves_destroy hstep
  | invoke c op =>
    rw [step] at hstep
    split at hstep
    · rename_i hpc
      split_ifs at hstep
      obtain ⟨rfl, rfl⟩ := Prod.mk.inj (Option.some.inj hstep)
      exact .invoke hpc
    · exact absurd hstep nofun
  | pin c =>
    rw [step] at hstep
    split at hstep
    · rename_i hpc
      obtain ⟨rfl, rfl⟩ := Prod.mk.inj (Option.some.inj hstep)
      exact .pin hpc
    · exact absurd hstep nofun
  | swap c =>
    rw [step] at hstep
    split at hstep
    · rename_i hpc
      obtain ⟨rfl, rfl⟩ := Prod.mk.inj (Option.some.inj hstep)
      exact .swap hpc
    · exact absurd hstep nofun
  | retire c =>
    rw [step] at hstep
    split at hstep
    · rename_i hpc
      obtain ⟨rfl, rfl⟩ := Prod.mk.inj (Option.some.inj hstep)
      exact .retire hpc
    · exact absurd hstep nofun
  | unpin c =>
    rw [step] at hstep
    split at hstep
    · rename_i hpc
      obtain ⟨rfl, rfl⟩ := Prod.mk.inj (Option.some.inj hstep)
      exact .unpin hpc
    · exact absurd hstep nofun
  | dropGuard c =>
    rw [step] at hstep
    split at hstep
    · rename_i hpc
      obtain ⟨rfl, rfl⟩ := Prod.mk.inj (Option.some.inj hstep)
      exact .dropGuard hpc
    · exact absurd hstep nofun
  | dropBox =>
    rw [step] at hstep
    split_ifs at hstep
    obtain ⟨rfl, rfl⟩ := Prod.mk.inj (Option.some.inj hstep)
    exact .dropBox

end

end EpochBox

end ZprUtils.Rcu
