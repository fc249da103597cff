import ZprUtils.Threads.Safety

/-!
# Every call returns

A thread in a call has a bounded number of steps left: the steps of its own code, the destructors
that it has to run, and those that it may have to run because it drops the last reference to a
generation. The work of the system counts all of them, so that every step of a thread in a call
makes it smaller, however the threads are scheduled. A thread waits only for the mutex, and the
thread that holds the mutex never waits; so when no thread can go on, all calls have returned,
unless a caller keeps a vacant entry.

## Main definitions

* `Config.work` — a bound on the number of steps of all calls in progress.

## Main results

* `Move.work_lt` — every step of a thread in a call makes the work smaller.
* `calls_return` — under every schedule all calls return after at most that many steps.
-/

namespace ZprUtils.RcuCslab

variable {α : Type} {c c' : Config α} {t u : Nat} {th uh : Thread α} {p : Site α} {s s' : State α}

/-! ### Work -/

/-- The steps of a destructor, without those of a generation that dies. -/
def Drop.work : Drop α → Nat
  | .storage | .gen _ => 1
  | .writer => 2
  | .finalize _ indices _ => 2 * indices.length + 6
  | .finalizing _ indices taken _ => 2 * indices.length + taken.length + 5
  | .items _ taken _ => taken.length + 4

/-- The steps of the destructor of a generation. -/
def Gen.work (gen : Gen) : Nat := if gen.alive then 2 * gen.pendingRemoves.length + 6 else 0

/-- The steps from the loop of `clear` to its end, when `n` items are left. -/
def clearWork (n : Nat) : Nat := 8 * n + 10

/-- The number of items that are left to `clear`. -/
def State.remaining (s : State α) : Nat := (s.iterMut.map (·.remaining)).getD 0

/-- The steps after a removal has been recorded. -/
def MarkFor.work (s : State α) : MarkFor → Nat
  | .markRemoved => 0
  | .remove => 9
  | .entry _ => 2
  | .clear _ => clearWork s.remaining + 1

/-- The steps of a call. -/
def Pc.work (s : State α) : Pc α → Nat
  | .idle => 0
  | .ret _ | .newReader _ | .observed | .unlock => 1
  | .observe | .insertLocked _ _ | .vacantEntry => 2
  | .insert _ => 3
  | .advance _ | .dropIterMut => 9
  | .record m _ => m.work s + 3
  | .markUnlock m _ => m.work s + 4
  | .markLocked m _ => m.work s + 5
  | .mark m _ => m.work s + 6
  | .clearLoop => clearWork s.remaining
  | .startIter clear n => if clear then clearWork n + 1 else 1
  | .iterMutUnlock clear n => if clear then clearWork n + 2 else 2
  | .iterMutLocked clear => if clear then clearWork s.cslab.len + 3 else 3
  | .iterMut clear => if clear then clearWork s.cslab.len + 4 else 4

/-- The steps that a thread can still take: those of its destructors and of its call. -/
def Thread.work (s : State α) (th : Thread α) : Nat := total Drop.work th.drops + th.pc.work s

/-- **The work** of all calls in progress. -/
def Config.work (c : Config α) : Nat :=
  total (Thread.work c.state) c.threads + total Gen.work c.state.gens

/-- The work of a call depends on the slab only in `clear`. -/
theorem Pc.work_congr {pc : Pc α} (h : pc.borrow = some .clear → s'.iterMut = s.iterMut ∧
    s'.cslab.len = s.cslab.len) : pc.work s' = pc.work s := by
  cases pc with
  | record m idx | markUnlock m idx | markLocked m idx | mark m idx =>
    cases m with
    | clear g => simp only [Pc.work, MarkFor.work, State.remaining, (h rfl).1]
    | markRemoved | remove | entry g => rfl
  | iterMutLocked clear | iterMut clear =>
    cases clear with
    | true => simp only [Pc.work, (h rfl).2]
    | false => rfl
  | clearLoop => simp only [Pc.work, State.remaining, (h rfl).1]
  | _ => rfl

theorem Move.work_other (h : Move c t th p) (hi : ThreadInv c) (ht : c.ThreadAt t th)
    (hu : c.ThreadAt u uh) (hne : u ≠ t) : uh.work p.state = uh.work c.state := by
  rw [Thread.work, Thread.work, Pc.work_congr]
  intro hclear
  obtain ⟨-, him, hlen, -⟩ := h.frame_of_exclusive hi ht hu hne (Or.inr hclear)
  exact ⟨him, hlen⟩

/-- The books of the work after a move: only the thread that moves and the generations count, since
the others stay where they are. -/
theorem Move.work_place (h : Move c t th p) (hi : ThreadInv c) (ht : c.ThreadAt t th) :
    (c.place t p).work + th.work c.state + total Gen.work c.state.gens =
      c.work + p.thread.work p.state + total Gen.work p.state.gens := by
  have htotal : total (Thread.work p.state) (c.threads.set t p.thread) + th.work c.state =
      total (Thread.work c.state) c.threads + p.thread.work p.state :=
    total_set_of_others ht (fun u uh hu hne => h.work_other hi ht hu hne) p.thread
  simp only [Config.work, Config.place]
  omega

/-! ### One step -/

theorem genFields_work (next : Option Nat) :
    total Drop.work (genFields next : List (Drop α)) ≤ 3 := by
  cases next <;> simp [genFields, Drop.work]

/-- What unwinding still has to do. -/
theorem Pc.work_unwind (pc : Pc α) :
    total Drop.work pc.unwind.1 + pc.unwind.2.work s ≤ pc.work s ∧
      (pc.waiting = true → total Drop.work pc.unwind.1 + pc.unwind.2.work s < pc.work s) := by
  cases pc with
  | mark m idx | markLocked m idx | markUnlock m idx | record m idx =>
    cases m <;> simp [Pc.unwind, Pc.work, MarkFor.work, MarkFor.drops, MarkFor.borrow, Drop.work,
      Pc.waiting, clearWork]
  | iterMut clear | iterMutLocked clear | iterMutUnlock clear n | startIter clear n =>
    cases clear <;> simp [Pc.unwind, Pc.work, Pc.borrow, Pc.waiting, clearWork]
  | clearLoop => simp [Pc.unwind, Pc.work, Pc.waiting, clearWork]
  | _ => simp [Pc.unwind, Pc.work, Pc.borrow, Pc.waiting]

theorem Pc.work_of_locks {pc pc' : Pc α} (h : pc.locks = some pc') :
    pc'.work s < pc.work s := by
  cases pc with
  | iterMut clear =>
    obtain rfl := Option.some.inj h
    cases clear <;> simp [Pc.work]
  | observe | insert x | mark m idx =>
    obtain rfl := Option.some.inj h
    simp [Pc.work]
  | _ => exact absurd h (by simp [Pc.locks])

theorem Pc.work_of_unlocks {pc pc' : Pc α} (h : pc.unlocks = some pc') :
    pc'.work s < pc.work s := by
  cases pc with
  | iterMutUnlock clear n =>
    obtain rfl := Option.some.inj h
    cases clear <;> simp [Pc.work]
  | observed | unlock | markUnlock m idx =>
    obtain rfl := Option.some.inj h
    simp [Pc.work]
  | _ => exact absurd h (by simp [Pc.unlocks])

/-- A change of a generation that keeps its work. -/
theorem total_work_set {gens : List Gen} {g : Nat} {gen : Gen} (h : gens[g]? = some gen)
    (gen' : Gen) (hwork : gen'.work = gen.work) :
    total Gen.work (gens.set g gen') = total Gen.work gens := by
  have hset := total_set (w := Gen.work) h gen'
  omega

theorem Gen.work_acquired {gen : Gen} (halive : gen.alive = true) :
    Gen.work { gen with strong := gen.strong + 1 } = gen.work := by
  rw [Gen.work, Gen.work, alive_acquired halive]

/-- The record of a removal in a generation that is alive. -/
theorem Gen.work_record {gen : Gen} {idx : Nat} (halive : gen.alive = true) :
    Gen.work { gen with pendingRemoves := gen.pendingRemoves ++ [idx] } = gen.work + 2 := by
  have halive' : ({ gen with pendingRemoves := gen.pendingRemoves ++ [idx] } : Gen).alive = true :=
    halive
  rw [Gen.work, Gen.work, if_pos halive, if_pos halive', List.length_append, List.length_singleton]
  omega

theorem MarkFor.work_next (m : MarkFor) :
    total Drop.work (m.drops : List (Drop α)) + (m.next : Pc α).work s = m.work s := by
  cases m <;> simp [MarkFor.drops, MarkFor.next, MarkFor.work, Pc.work, Drop.work, Nat.add_comm]

/-- The work of the thread that moves and of the generations goes down in every step of a call. What
a destructor has to do is counted in the generation before it starts. -/
theorem Move.work_self (h : Move c t th p) (hi : ThreadInv c) (ht : c.ThreadAt t th)
    (hbusy : th.drops ≠ [] ∨ th.pc ≠ .idle) :
    p.thread.work p.state + total Gen.work p.state.gens <
      th.work c.state + total Gen.work c.state.gens := by
  have hidle : th = ⟨[], .idle, th.unwinding⟩ → False := by
    intro heq
    rw [heq] at hbusy
    rcases hbusy with hne | hne <;> exact hne rfl
  have hsame : ∀ pc : Pc α, p.state.iterMut = c.state.iterMut →
      p.state.cslab.len = c.state.cslab.len → pc.work p.state = pc.work c.state :=
    fun pc him hlen => Pc.work_congr fun _ => ⟨him, hlen⟩
  simp only [Thread.work]
  cases h with
  | @storage ds pc u hmore | @storageLast ds pc u items hlast hitems
  | @writer ds pc u hmore | @writerLast ds pc u hlast | @finalize ds pc u g indices next hl hp
  | @finalized ds pc u g items next | @dropItem ds pc u g idx x items next =>
    have hpc := hsame pc rfl rfl
    simp only [total_cons, Drop.work, List.length_cons, List.length_nil] at hpc ⊢
    omega
  | @gen ds pc u g x hx hmore =>
    have hpc := hsame pc rfl rfl
    have halive : ({ x with strong := x.strong - 1 } : Gen).alive = x.alive := by
      rw [Bool.eq_iff_iff]
      simp only [Gen.alive, bne_iff_ne, ne_eq]
      omega
    have hgens := total_work_set hx { x with strong := x.strong - 1 }
      (by rw [Gen.work, Gen.work, halive])
    simp only [total_cons, Drop.work, hgens] at hpc ⊢
    omega
  | @genLast ds pc u g x hx hlast =>
    have hpc := hsame pc rfl rfl
    have hgens := total_set (w := Gen.work) hx { x with strong := 0 }
    have hwork : x.work = 2 * x.pendingRemoves.length + 6 := by simp [Gen.work, Gen.alive, hlast]
    have hdead : Gen.work { x with strong := 0 } = 0 := rfl
    simp only [total_cons, Drop.work] at hpc ⊢
    omega
  | @leak ds pc g indices next hpoison =>
    have hfields := genFields_work (α := α) next
    have hpc := (pc.work_unwind (s := c.state)).1
    simp only [total_cons, total_append, Drop.work]
    omega
  | @finalizing ds pc u g idx indices items next x cslab hfinalize =>
    obtain ⟨free, hc⟩ := hi.removals.cslab
    have hpc := hsame pc rfl (hc.view_of_finalizeRemove hfinalize).2
    simp only [total_cons, Drop.work, List.length_cons, List.length_append,
      List.length_nil] at hpc ⊢
    omega
  | @dropFields ds pc u g next =>
    have hfields := genFields_work (α := α) next
    simp only [total_cons, total_append, Drop.work, List.length_nil]
    omega
  | @lock pc pc' u hpc hlocked hpoison =>
    have hlt := Pc.work_of_locks (s := c.state) hpc
    have hpc' := hsame pc' rfl rfl
    simp only [total_nil] at hpc' ⊢
    omega
  | @unlock pc pc' u hpc =>
    have hlt := Pc.work_of_unlocks (s := c.state) hpc
    have hpc' := hsame pc' rfl rfl
    simp only [total_nil] at hpc' ⊢
    omega
  | @unwind pc log hpc hpoison hlog =>
    have hlt := (pc.work_unwind (s := c.state)).2 hpc
    have hpc' := hsame pc.unwind.2 rfl rfl
    simp only [total_nil] at hpc' ⊢
    omega
  | full | reserve | insert | reject | ret =>
    simp only [total_nil, Pc.work]
    omega
  | @mark u m idx cslab hmark =>
    have hm : m.work { c.state with cslab } = m.work c.state := by cases m <;> rfl
    simp only [total_nil, Pc.work] at hm ⊢
    omega
  | poison hm hbit =>
    simp only [total_nil, Pc.work, State.poison]
    omega
  | @record u m idx g x htarget hx halive =>
    have hgens := total_set (w := Gen.work) hx
      { x with pendingRemoves := x.pendingRemoves ++ [idx] }
    rw [Gen.work_record halive] at hgens
    have hnext := m.work_next (α := α) (s := c.state)
    have hpc := hsame m.next rfl rfl
    have hrec : (Pc.record m idx : Pc α).work c.state = m.work c.state + 3 := rfl
    simp only [total_nil, hrec] at hpc ⊢
    omega
  | @count u clear =>
    cases clear <;> simp only [total_nil, Pc.work, if_true, Bool.false_eq_true,
      if_false] <;> omega
  | @startIter u clear remaining =>
    cases clear <;> simp only [total_nil, Pc.work, if_true, Bool.false_eq_true,
      if_false, State.remaining, Option.map_some, Option.getD_some] <;> omega
  | exhaust him hnext =>
    simp only [total_nil, Pc.work, clearWork]
    omega
  | @clearNext u slab im idx x it y hslab him hnext hy halive =>
    obtain ⟨free, hc⟩ := hi.removals.cslab
    obtain ⟨-, htail, hleft⟩ := hi.iteration.iterMut im him
    have hgens := total_work_set hy _ (Gen.work_acquired halive)
    have hpos : 0 < im.remaining := by
      rcases hc.advance_eq .front im.iter htail with
        ⟨it', hok', -⟩ | ⟨i, x, it', hok', -, -, -, -, -, -, hleft'⟩
      · exact absurd (hnext.symm.trans hok') (by simp)
      · omega
    simp only [total_nil, Pc.work, MarkFor.work, clearWork, State.remaining, him,
      Option.map_some, Option.getD_some, hgens]
    omega
  | @advance pc pc' u slab x im hpc him hslab hx =>
    have hgens : total Gen.work (c.state.nextGeneration slab x).gens =
        total Gen.work c.state.gens + 6 := by
      have hset := total_work_set hx { x with nextGen := some c.state.gens.length } rfl
      simp only [State.nextGeneration, total_append, hset, total_cons, total_nil]
      rfl
    have hpcs : pc.work c.state = 9 ∧ pc'.work { c.state.nextGeneration slab x with
        iterMut := im } = 1 := by
      cases hpc <;> exact ⟨rfl, rfl⟩
    simp only [total_cons, total_nil, Drop.work, hpcs.1, hpcs.2, hgens]
    omega
  | @newReader pc u g x hkind hx halive =>
    have hgens : total Gen.work (c.state.withReader g x).gens = total Gen.work c.state.gens :=
      total_work_set hx _ (Gen.work_acquired halive)
    rcases borrow_of_newReader hkind with rfl | ⟨clear, rfl⟩
    · exact (hidle rfl).elim
    · simp only [total_nil, Pc.work, hgens]
      omega
  | observe | enter | dropSlab | fillVacant | dropVacant | panicVacant | iterNone | iterNext
  | iterDrop | entryRemove | entryDrop | readerDrop | setIters => exact (hidle rfl).elim

/-- **Every step of a thread in a call makes the work smaller**: it comes nearer to the end of its
call or of a destructor, and what a destructor starts is counted in the work of its owner. -/
theorem Move.work_lt (h : Move c t th p) (hi : ThreadInv c) (ht : c.ThreadAt t th)
    (hbusy : th.drops ≠ [] ∨ th.pc ≠ .idle) : (c.place t p).work < c.work := by
  have hplace := h.work_place hi ht
  have hself := h.work_self hi ht hbusy
  omega

/-! ### Threads that cannot go on -/

/-- Only the innermost destructor can hold the mutex. -/
def Thread.Ordered (th : Thread α) : Prop := total Drop.guards th.drops.tail = 0

theorem genFields_tail_guards (next : Option Nat) (ds : List (Drop α)) :
    total Drop.guards (genFields next ++ ds).tail = total Drop.guards ds := by
  cases next <;> simp [genFields, Drop.guards]

theorem Move.ordered (h : Move c t th p) (hi : ThreadInv c) (ht : c.ThreadAt t th)
    (ho : th.Ordered) : p.thread.Ordered := by
  have htail : ∀ ds : List (Drop α), total Drop.guards ds = 0 → total Drop.guards ds.tail = 0 := by
    intro ds hds
    cases ds with
    | nil => rfl
    | cons d ds =>
      rw [total_cons] at hds
      exact Nat.eq_zero_of_add_eq_zero_left hds
  cases h with
  | storage | storageLast | writer | gen => exact htail _ ho
  | writerLast | genLast | finalize | finalizing | finalized | dropItem => exact ho
  | @leak ds pc g indices next hpoison =>
    obtain ⟨hnil, -⟩ :=
      Pc.refs_of_quiet ((hi.iteration.threads t _ ht).dropping (List.cons_ne_nil _ _))
    rw [Thread.Ordered]
    simp only [hnil, List.append_nil]
    rw [genFields_tail_guards]
    exact ho
  | @dropFields ds pc u g next =>
    rw [Thread.Ordered]
    simp only
    rw [genFields_tail_guards]
    exact ho
  | @unwind pc log hpc hpoison hlog =>
    cases pc with
    | mark m idx => cases m <;> rfl
    | observe | insert x | iterMut clear | vacantEntry => rfl
    | _ => exact absurd hpc (by simp [Pc.waiting])
  | @record u m idx g x htarget hx halive => cases m <;> rfl
  | _ => rfl

/-- The thread waits for the mutex. -/
def Thread.Waits (th : Thread α) : Prop :=
  (∃ g indices next ds, th.drops = .finalize g indices next :: ds) ∨
    th.drops = [] ∧ th.pc.waiting = true

theorem takeLock_eq_waits {poisoned : Turn α} {locked : State α → Turn α}
    (h : takeLock s poisoned locked = .waits) (hp : poisoned ≠ .waits)
    (hl : locked { s with locked := true } ≠ .waits) : s.locked = true := by
  rw [takeLock] at h
  split_ifs at h with hw hlocked hpoisoned
  · exact hlocked
  · exact absurd h hp
  · exact absurd h hl

theorem dropGuard_ne_waits {k : State α → Turn α} (hk : k { s with locked := false } ≠ .waits) :
    dropGuard s k ≠ .waits := by
  rw [dropGuard]
  split_ifs
  · simp
  · exact hk

theorem onStorage_ne_waits {β : Type} {f : Except RustFault β} {k : β → Turn α}
    (hk : ∀ b, k b ≠ .waits) : onStorage s f k ≠ .waits := by
  unfold onStorage
  split_ifs
  · simp
  · split
    · exact hk _
    · simp

theorem onGen_ne_waits {g : Nat} {k : Gen → Turn α} (hk : ∀ gen, k gen ≠ .waits) :
    onGen s g k ≠ .waits := by
  rw [onGen]
  split
  · simp
  · split_ifs
    · simp
    · exact hk _

theorem onSlab_ne_waits {k : Slab → Turn α} (hk : ∀ slab, k slab ≠ .waits) :
    onSlab s k ≠ .waits := by
  rw [onSlab]
  split
  · simp
  · exact hk _

theorem runAdvance_ne_waits {pc : Pc α} : runAdvance s pc ≠ .waits := by
  refine onSlab_ne_waits fun slab => onGen_ne_waits fun gen => ?_
  split_ifs <;> simp

/-- A destructor waits only for the mutex. -/
theorem runDrop_eq_waits {pc : Pc α} {d : Drop α} (h : runDrop s pc d = .waits) :
    s.locked = true ∧ ∃ g indices next, d = .finalize g indices next := by
  cases d with
  | finalize g indices next =>
    rw [runDrop] at h
    exact ⟨takeLock_eq_waits h (by simp) (by simp), g, indices, next, rfl⟩
  | storage =>
    rw [runDrop] at h
    split at h
    · simp at h
    · exact absurd h (onStorage_ne_waits fun _ => by simp)
    · simp at h
  | writer =>
    rw [runDrop] at h
    split at h <;> simp at h
  | gen g =>
    refine absurd h (onGen_ne_waits fun gen => ?_)
    split_ifs <;> simp
  | finalizing g indices items next =>
    cases indices with
    | nil =>
      rw [runDrop] at h
      exact absurd h (dropGuard_ne_waits (by simp))
    | cons idx indices => exact absurd h (onStorage_ne_waits fun _ => by simp)
  | items g items next =>
    cases items with
    | nil => simp [runDrop] at h
    | cons p items => simp [runDrop] at h

/-- A call waits only for the mutex. -/
theorem runPc_eq_waits {pc : Pc α} {b : Bool} (h : runPc s b pc = .waits) (hpc : pc ≠ .idle) :
    s.locked = true ∧ pc.waiting = true := by
  cases pc with
  | idle => exact absurd rfl hpc
  | observe | insert x | mark m idx | iterMut clear =>
    rw [runPc] at h
    exact ⟨takeLock_eq_waits h (by simp) (by simp), rfl⟩
  | vacantEntry =>
    rw [runPc] at h
    refine ⟨takeLock_eq_waits h (by simp) (onStorage_ne_waits fun key => ?_), rfl⟩
    split_ifs <;> simp
  | observed | unlock | markUnlock m idx | iterMutUnlock clear n =>
    rw [runPc] at h
    exact absurd h (dropGuard_ne_waits (by simp))
  | insertLocked unwrap x =>
    refine absurd h (onStorage_ne_waits fun found => ?_)
    obtain ⟨idx, cslab⟩ := found
    cases idx with
    | none =>
      simp only
      split_ifs <;> simp
    | some i => simp
  | markLocked m idx =>
    rw [runPc] at h
    split at h
    · simp at h
    · exact absurd h (onStorage_ne_waits fun _ => by simp)
  | record m idx =>
    rw [runPc] at h
    split at h
    · simp at h
    · exact absurd h (onGen_ne_waits fun _ => by simp)
  | iterMutLocked clear => simp [runPc] at h
  | startIter clear n =>
    rw [runPc] at h
    exact absurd h (onStorage_ne_waits fun _ => by simp)
  | clearLoop =>
    refine absurd h (onSlab_ne_waits fun slab => ?_)
    split
    · simp
    · refine onStorage_ne_waits fun found => ?_
      obtain ⟨item, iter⟩ := found
      cases item with
      | none => simp
      | some q => exact onStorage_ne_waits fun _ => onGen_ne_waits fun _ => by simp
  | dropIterMut => exact absurd h runAdvance_ne_waits
  | advance dropIter => exact absurd h runAdvance_ne_waits
  | newReader clear =>
    exact absurd h (onSlab_ne_waits fun slab => onGen_ne_waits fun gen => by simp)
  | ret b => simp [runPc] at h

theorem settle_eq_none {rest : List (Drop α)} {o : Turn α} (h : c.settle t th rest o = none) :
    o = .waits := by
  cases o with
  | waits => rfl
  | panics s drops =>
    simp only [Config.settle] at h
    split_ifs at h
  | _ => simp [Config.settle] at h

/-- A thread that cannot go on has returned, or waits for the mutex. There is no other wait in the
source. -/
theorem exec_eq_none (h : c.exec t = none) (habort : c.state.aborted = false)
    (ht : c.ThreadAt t th) :
    th.drops = [] ∧ th.pc = .idle ∨ c.state.locked = true ∧ th.Waits := by
  obtain ⟨drops, pc, b⟩ := th
  simp only [Config.exec, habort, Bool.false_eq_true, if_false,
    show c.threads[t]? = _ from ht] at h
  cases drops with
  | nil =>
    by_cases hpc : pc = .idle
    · exact Or.inl ⟨rfl, hpc⟩
    · obtain ⟨hlocked, hwaiting⟩ := runPc_eq_waits (settle_eq_none h) hpc
      exact Or.inr ⟨hlocked, Or.inr ⟨rfl, hwaiting⟩⟩
  | cons d ds =>
    obtain ⟨hlocked, g, indices, next, rfl⟩ := runDrop_eq_waits (settle_eq_none h)
    exact Or.inr ⟨hlocked, Or.inl ⟨g, indices, next, ds, rfl⟩⟩

/-- A thread that waits does not hold the mutex. So the holder, if it is a thread in a call, can go
on. -/
theorem guards_of_waits (hi : ThreadInv c) (ht : c.ThreadAt t th) (ho : th.Ordered)
    (hw : th.Waits) : th.guards = 0 := by
  rcases hw with ⟨g, indices, next, ds, hdrops⟩ | ⟨hdrops, hpc⟩
  · have hquiet := (hi.iteration.threads t th ht).dropping (by rw [hdrops]; simp)
    obtain ⟨-, -, hguards, -⟩ := Pc.refs_of_quiet hquiet
    rw [Thread.Ordered, hdrops] at ho
    rw [Thread.guards, hguards, hdrops, total_cons]
    simpa [Drop.guards] using ho
  · rw [Thread.guards, hdrops, total_nil, Nat.zero_add]
    cases hpc' : th.pc with
    | observe | insert x | mark m idx | iterMut clear | vacantEntry => rfl
    | _ =>
      rw [hpc'] at hpc
      exact absurd hpc (by simp [Pc.waiting])

/-- **No deadlock.** When no thread can go on, every call has returned, or waits for the mutex of a
vacant entry: a thread in a critical section can always go on. -/
theorem returned_of_stuck (hi : ThreadInv c) (ho : ∀ t th, c.ThreadAt t th → th.Ordered)
    (habort : c.state.aborted = false) (hstuck : ∀ t, c.exec t = none) (ht : c.ThreadAt t th) :
    th.drops = [] ∧ th.pc = .idle ∨ c.vacant.isSome = true ∧ th.Waits := by
  rcases exec_eq_none (hstuck t) habort ht with hreturned | ⟨hlocked, hwaits⟩
  · exact Or.inl hreturned
  refine Or.inr ⟨?_, hwaits⟩
  by_contra hnone
  have hguards := hi.guards
  rw [hlocked, Bool.toNat_true, Bool.eq_false_iff.mpr hnone, Bool.toNat_false] at hguards
  have hholder : 0 < total Thread.guards c.threads := by omega
  obtain ⟨u, uh, hu, hpos⟩ := total_pos.mp hholder
  -- the holder of the mutex can go on
  rcases exec_eq_none (hstuck u) habort hu with ⟨hdrops, hpc⟩ | ⟨-, hwaits'⟩
  · rw [Thread.guards, hdrops, hpc] at hpos
    exact absurd hpos (by simp [Pc.guards])
  · rw [guards_of_waits hi hu (ho u uh hu) hwaits'] at hpos
    exact absurd hpos (Nat.lt_irrefl 0)

/-! ### Runs -/

theorem Stepped.ordered {l : Label α} (h : Stepped c l c') (hi : ThreadInv c)
    (ho : ∀ t th, c.ThreadAt t th → th.Ordered) : ∀ t th, c'.ThreadAt t th → th.Ordered := by
  cases h with
  | stays => exact ho
  | aborts hpoison => exact ho
  | moves ht hmove hl =>
    intro u uh hu
    rcases (threadAt_place ht).mp hu with ⟨-, rfl⟩ | ⟨-, hu⟩
    · exact hmove.ordered hi ht (ho _ _ ht)
    · exact ho u uh hu

theorem Interleaving.ordered {labels : List (Label α)} (hrun : Interleaving c labels c')
    (hi : ThreadInv c) (ho : ∀ t th, c.ThreadAt t th → th.Ordered) :
    ∀ t th, c'.ThreadAt t th → th.Ordered := by
  refine (Steps.invariant (P := fun c : Config α => ThreadInv c ∧
    ∀ t th, c.ThreadAt t th → th.Ordered) (fun c l c' h hstep => ?_) hrun ⟨hi, ho⟩).2
  obtain ⟨c'', hok, hstepped⟩ := step_cases h.1 hstep
  obtain rfl := Except.ok.inj hok
  exact ⟨hstepped.inv h.1, hstepped.ordered h.1 h.2⟩

theorem Pc.work_pos {pc : Pc α} (h : pc ≠ .idle) : 0 < pc.work s := by
  cases pc with
  | idle => exact absurd rfl h
  | startIter clear n | iterMutUnlock clear n | iterMutLocked clear | iterMut clear =>
    cases clear <;> exact Nat.succ_pos _
  | clearLoop => exact Nat.succ_pos _
  | _ => exact Nat.succ_pos _

theorem Thread.work_pos (h : th.drops ≠ [] ∨ th.pc ≠ .idle) : 0 < th.work s := by
  rw [Thread.work]
  rcases h with hne | hne
  · cases hdrops : th.drops with
    | nil => exact absurd hdrops hne
    | cons d ds =>
      rw [total_cons]
      cases d <;> simp only [Drop.work] <;> omega
  · have hpos := Pc.work_pos (s := s) hne
    omega

/-- A step of a thread in a call: the work goes down, or the process aborts, after which there is
nothing more to do. -/
theorem work_of_exec (hi : ThreadInv c) (h : c.exec t = some (.ok c')) :
    c'.work < c.work ∨ c'.state.aborted = true ∧ 0 < c.work := by
  obtain ⟨c'', hok, hstepped⟩ := step_cases (l := .exec t) hi h
  obtain rfl := Except.ok.inj hok
  -- a thread that has returned makes no step
  have hbusy : ∀ th, c.ThreadAt t th → th.drops ≠ [] ∨ th.pc ≠ .idle := by
    intro th ht
    by_contra hne
    rw [not_or, not_not, not_not] at hne
    obtain ⟨drops, pc, b⟩ := th
    obtain ⟨rfl, rfl⟩ : drops = [] ∧ pc = .idle := hne
    simp only [Config.exec] at h
    split_ifs at h
    rw [show c.threads[t]? = _ from ht] at h
    exact absurd h (by simp [runPc, Config.settle])
  have hpos : 0 < c.work := by
    simp only [Config.exec] at h
    split_ifs at h
    split at h
    · exact absurd h (by simp)
    · rename_i th ht
      have hle := le_total (w := Thread.work c.state) ht
      have hself := Thread.work_pos (s := c.state) (hbusy th ht)
      rw [Config.work]
      omega
  cases hstepped with
  | stays hl => exact absurd hl (by simp)
  | aborts hpoison => exact Or.inr ⟨rfl, hpos⟩
  | @moves t' th p ht hmove hl =>
    obtain rfl : t = t' := hl
    exact Or.inl (hmove.work_lt hi ht (hbusy th ht))

/-- The steps of calls in progress are bounded by their work, in whatever order the threads take
them. -/
theorem length_le_work {labels : List (Label α)} (hi : ThreadInv c)
    (hrun : Interleaving c labels c') (hexec : ∀ l ∈ labels, ∃ t, l = .exec t) :
    labels.length ≤ c.work := by
  refine (Steps.history (P := fun labels (c' : Config α) => (∀ l ∈ labels, ∃ t, l = .exec t) →
    ThreadInv c' ∧ labels.length ≤ c.work ∧
      (c'.state.aborted = false → labels.length + c'.work ≤ c.work)) ?_ hrun
    (fun _ => ⟨hi, Nat.zero_le _, fun _ => (Nat.zero_add _).le⟩) hexec).2.1
  intro labels c₁ l c₂ ih hstep hlabels
  obtain ⟨hi₁, -, hwork⟩ := ih fun l hl => hlabels l (List.mem_append_left _ hl)
  obtain ⟨t, rfl⟩ := hlabels l (List.mem_append_right _ List.mem_cons_self)
  have halive : c₁.state.aborted = false := by
    by_contra habort
    rw [Config.step, Config.exec, if_pos (by simpa using habort)] at hstep
    exact absurd hstep (by simp)
  obtain ⟨c'', hok, hstepped⟩ := step_cases hi₁ hstep
  obtain rfl := Except.ok.inj hok
  have hle := hwork halive
  rw [List.length_append, List.length_singleton]
  rcases work_of_exec hi₁ hstep with hlt | ⟨habort, hpos⟩
  · exact ⟨hstepped.inv hi₁, by omega, fun _ => by omega⟩
  · refine ⟨hstepped.inv hi₁, by omega, fun h => ?_⟩
    exact absurd (habort.symm.trans h) (by simp)

variable {l : Layout} {capacity n : Nat} {c₀ : Config α} {labels : List (Label α)} {ts : List Nat}

/-- **Every call returns.** From whatever the threads are doing, every schedule of the calls in
progress ends after at most `c.work` steps; when it cannot go on, every thread has returned from its
call, unless the process has been aborted or the thread waits for the mutex of a vacant entry. -/
theorem calls_return (hnew : Config.withFixedCapacity .memory l capacity n = .ok c₀)
    (hrun : Interleaving c₀ labels c) (hexec : Interleaving c (ts.map .exec) c') :
    ts.length ≤ c.work ∧
      ((∀ t, c'.exec t = none) → c'.state.aborted = false → ∀ t th, c'.ThreadAt t th →
        th.drops = [] ∧ th.pc = .idle ∨ c'.vacant.isSome = true ∧ th.Waits) := by
  have hi := threadInv_of_interleaving hnew hrun
  constructor
  · have hle := length_le_work hi hexec fun l hl => by
      obtain ⟨t, -, rfl⟩ := List.mem_map.mp hl
      exact ⟨t, rfl⟩
    rwa [List.length_map] at hle
  · intro hstuck habort t th ht
    have hordered : ∀ t th, c₀.ThreadAt t th → th.Ordered := by
      intro t th ht
      obtain ⟨s, -, hret⟩ := except_bind_eq_ok.mp hnew
      obtain rfl := Except.ok.inj hret
      rw [threadAt_replicate ht]
      rfl
    have hinit := threadInv_withFixedCapacity hnew
    exact returned_of_stuck (hexec.inv hi) (hexec.ordered hi (hrun.ordered hinit hordered)) habort
      hstuck ht

/-- A destructor that holds the mutex and an insertion that waits for it are scheduled until both
have returned. -/
theorem calls_return_both :
    ∃ (c₀ c c' : Config Nat) (labels : List (Label Nat)),
      Config.withFixedCapacity .memory ⟨4, 4⟩ 2 2 = .ok c₀ ∧ Interleaving c₀ labels c ∧
      c.threads.map (·.pc) = [.insert 8, .idle] ∧
      Interleaving c ([1, 1, 0, 1, 0, 0, 1, 1, 1].map .exec) c' ∧ 9 ≤ c.work ∧
      ∀ t th, c'.ThreadAt t th → th.drops = [] ∧ th.pc = .idle := by
  obtain ⟨c₀, c, hnew, hrun, hc⟩ := exists_interleaving_of_observe (α := Nat) (t := ⟨4, 4⟩)
    (n := 2) (f := fun c => (c.threads.map (·.pc), (c.run ([1, 1, 0, 1, 0, 0, 1, 1, 1].map
      .exec)).map fun c' => (c'.threads, c'.state.aborted, c'.vacant)))
    (show Config.observe ⟨4, 4⟩ 2 2 [.invoke 0 (.insert 7), .exec 0, .exec 0, .exec 0,
      .invoke 0 .reader, .invoke 0 (.remove 0), .exec 0, .exec 0, .exec 0, .exec 0, .exec 0,
      .exec 0, .exec 0, .invoke 1 (.readerDrop 0), .exec 1, .exec 1, .exec 1,
      .invoke 0 (.insert 8)] _ = some ([.insert 8, .idle],
        some ([⟨[], .idle, false⟩, ⟨[], .idle, false⟩], false, none)) by decide)
  simp only [Prod.mk.injEq] at hc
  obtain ⟨hpcs, hrun'⟩ := hc
  obtain ⟨c', hrun', hthreads⟩ := Option.map_eq_some_iff.mp hrun'
  simp only [Prod.mk.injEq] at hthreads
  obtain ⟨hthreads, habort, hv⟩ := hthreads
  have hexec := interleaving_of_run hrun'
  have hreturn := calls_return hnew hrun hexec
  refine ⟨c₀, c, c', _, hnew, hrun, hpcs, hexec, hreturn.1, fun t th ht => ?_⟩
  have hstuck : ∀ t, c'.exec t = none := by
    intro t
    simp only [Config.exec, habort, hthreads]
    rcases t with _ | _ | t <;> rfl
  rcases hreturn.2 hstuck habort t th ht with hdone | ⟨hsome, -⟩
  · exact hdone
  · rw [hv] at hsome
    exact absurd hsome (by simp)

end ZprUtils.RcuCslab
