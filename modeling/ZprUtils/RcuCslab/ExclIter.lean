import ZprUtils.RcuCslab.Panics
import ZprUtils.RcuCslab.SharedCalls

/-!
# The exclusive iterator of the RCU slab

An iterator of the slab borrows it. Until it is dropped, only calls that share the slab can be made:
looks at the slab, new readers, and all calls of readers, whose drops may finalize removals. None of
them changes what is visible, so the iterator yields the items that were there when it was made. The
length it reports is the number of these items, whatever it has yielded since.

## Main definitions

* `iter` — an iterator over the slab.
* `Iterates` — calls on an iterator among calls that share the slab.

## Main results

* `Iterates.sameView` — nothing visible changes during an iteration.
* `exclIter_exact_iff` — when the reported length is the number of items that are left.
-/

namespace ZprUtils.RcuCslab

variable {α : Type} {s s' s'' : State α}

/-- An iterator over the slab. -/
def iter : Call (State α) ExclIter := do
  let inUse ← len
  let s ← .get
  return .new s.cslab.storage inUse

/-! ### Iteration -/

/-- The calls `calls` on an iterator of the slab, each with the slab at its time, and any calls in
between that share the slab. -/
inductive Iterates : State α → List (IterEnd × Cslab α) → State α → Prop
  | nil (s : State α) : Iterates s [] s
  | shared {s s' s'' : State α} {calls : List (IterEnd × Cslab α)} {op : Op α}
      {o : Except Interrupt (Ret α)} (hshared : op.shared = true)
      (hstep : step s op = some (o, s')) (hrest : Iterates s' calls s'') : Iterates s calls s''
  | call {s s' : State α} {calls : List (IterEnd × Cslab α)} (e : IterEnd)
      (hrest : Iterates s calls s') : Iterates s ((e, s.cslab) :: calls) s'

/-- **Every call on the iterator** finds the items that were visible at the start. The slab is
borrowed, and what readers on other threads can do meanwhile frees only slots that are not visible.
-/
theorem Iterates.sameView {calls : List (IterEnd × Cslab α)} (h : Iterates s calls s')
    (hi : Inv {} s) :
    Inv {} s' ∧ s.cslab.SameView s'.cslab ∧
      ∀ p ∈ calls, s.cslab.SameView p.2 ∧ ∃ free, p.2.Inv free := by
  induction h with
  | nil s => exact ⟨hi, .refl _, nofun⟩
  | shared hshared hstep _ ih =>
    have hview := (shares_of_step hi hshared hstep).unseen.view
    obtain ⟨hi', hview', hcalls⟩ := ih (step_inv hi hstep)
    refine ⟨hi', hview.trans hview', fun p hp => ?_⟩
    obtain ⟨hp, hinv⟩ := hcalls p hp
    exact ⟨hview.trans hp, hinv⟩
  | call e _ ih =>
    obtain ⟨hi', hview', hcalls⟩ := ih hi
    refine ⟨hi', hview', fun p hp => ?_⟩
    rcases List.mem_cons.mp hp with rfl | hp
    · exact ⟨.refl _, hi.pending.cslab⟩
    · exact hcalls p hp

theorem iter_eq_ok {it : ExclIter} (husable : s.usable = true) (h : iter s = (.ok it, s')) :
    s' = s ∧ it = s.cslab.iter := by
  have hlen : len s = (if s.poisoned then .error (.panicked .panic) else .ok s.cslab.len, s) :=
    withLock_read (State.usable_iff.mp husable).2.1
  cases hpoison : s.poisoned with
  | true =>
    rw [hpoison, if_pos rfl] at hlen
    rw [iter, Call.bind_apply_error hlen] at h
    exact absurd (Prod.mk.inj h).1 nofun
  | false =>
    rw [hpoison, if_neg Bool.false_ne_true] at hlen
    rw [iter, Call.bind_apply_ok hlen, Call.get_bind_apply, Call.pure_apply] at h
    obtain ⟨hit, hs'⟩ := Prod.mk.inj h
    exact ⟨hs'.symm, (Except.ok.inj hit).symm⟩

/-- **The reported length** of an iterator of a reachable slab, or of a reachable RCU slab with any
calls in between that share it, is the number of items that the iterator will still yield if and
only if no call was made on it or the slab has no items. -/
theorem exclIter_exact_iff :
    (∀ (t : Layout) (n : Nat) (c₀ c : Cslab α) (a : AbsSlab α) (ops : List (SlabOp α))
      (rs : List (SlabRet α)) (ends : List IterEnd), Cslab.withFixedCapacity .memory t n = .ok c₀ →
      runOps AbsSlab.step (.init n) ops = some (rs, a) → runOps Cslab.step c₀ ops = .ok (rs, c) →
      ∃ items it, c.iter.run (ends.map fun e => (e, c)) = .ok (items, it) ∧
        (it.Exact c.storage ↔ ends = [] ∨ c.len = 0)) ∧
    (∀ (t : Layout) (n : Nat) (s₀ s s' s'' : State α)
      (es : List (Op α × Except Interrupt (Ret α))) (it : ExclIter)
      (calls : List (IterEnd × Cslab α)), withFixedCapacity .memory t n = .ok s₀ → Run s₀ es s →
      s.usable = true → iter s = (.ok it, s') → Iterates s' calls s'' →
      ∃ items it', it.run calls = .ok (items, it') ∧
        (it'.Exact s''.cslab.storage ↔ calls = [] ∨ s.cslab.len = 0)) := by
  constructor
  · intro t n c₀ c a ops rs ends hnew habs hrun
    obtain ⟨c', hrun', hrep, -⟩ := (Cslab.represents_init hnew).run habs
    obtain rfl : c = c' := by simpa [hrun] using hrun'
    have hcalls : ∀ p ∈ ends.map fun e => (e, c), c.SameView p.2 ∧ ∃ free, p.2.Inv free := by
      intro p hp
      obtain ⟨e, -, rfl⟩ := List.mem_map.mp hp
      exact ⟨.refl _, _, hrep.inv⟩
    obtain ⟨items, it, hit, -, hexact⟩ := ExclIter.exact_iff hrep.inv hcalls
    exact ⟨items, it, hit, by simpa using hexact c (.refl _) ⟨_, hrep.inv⟩⟩
  · intro t n s₀ s s' s'' es it calls hnew hrun husable hiter hcalls
    have hi := inv_of_run hnew hrun
    obtain ⟨rfl, rfl⟩ := iter_eq_ok husable hiter
    obtain ⟨free, hinv⟩ := hi.pending.cslab
    obtain ⟨hi'', hview, hcalls⟩ := hcalls.sameView hi
    obtain ⟨items, it', hit, -, hexact⟩ := ExclIter.exact_iff hinv hcalls
    exact ⟨items, it', hit, hexact _ hview hi''.pending.cslab⟩

/-- Before the first call on the iterator of a slab with one item the length is exact. An iterator
of an RCU slab reports the wrong length after one call, with a reader dropped before the call. -/
theorem exclIter_exact_before_first_call :
    (∃ (c₀ c : Cslab Nat) (items : List (Option (Nat × Nat))) (it : ExclIter),
      Cslab.withFixedCapacity .memory ⟨4, 4⟩ 2 = .ok c₀ ∧
      runOps Cslab.step c₀ [.insert 7] = .ok ([.inserted (some 0)], c) ∧
      c.iter.run (([] : List IterEnd).map fun e => (e, c)) = .ok (items, it) ∧
      it.Exact c.storage) ∧
    ∃ (s₀ s s' : State Nat) (es : List (Op Nat × Except Interrupt (Ret Nat))) (it it' : ExclIter)
      (items : List (Option (Nat × Nat))),
      withFixedCapacity .memory ⟨4, 4⟩ 2 = .ok s₀ ∧ Run s₀ es s ∧ iter s = (.ok it, s) ∧
      Iterates s [(.front, s'.cslab)] s' ∧ it.run [(.front, s'.cslab)] = .ok (items, it') ∧
      ¬it'.Exact s'.cslab.storage := by
  constructor
  · obtain ⟨items, it, hit, hexact⟩ :=
      (@exclIter_exact_iff Nat).1 ⟨4, 4⟩ 2 _ _ _ [.insert 7] _ [] rfl rfl rfl
    exact ⟨_, _, items, it, rfl, rfl, hit, hexact.mpr (Or.inl rfl)⟩
  · have hobserve : (@observe Nat _ ⟨4, 4⟩ 2
        [.insert 7, .insert 8, .reader, .markRemoved 0, .scheduleFinalization]
        fun p => ((p.2.usable, p.2.poisoned, p.2.cslab.len), (step p.2 (.readerDrop 0)).isSome)) =
        some ((true, false, 1), true) := by
      decide +kernel
    obtain ⟨s₀, rs, s, o, s', hnew, hrun, hstep, hsees⟩ := exists_step_of_observe hobserve
    simp only [Prod.mk.injEq] at hsees
    obtain ⟨husable, hpoison, hlen⟩ := hsees
    have hread : len s = (.ok s.cslab.len, s) := by
      rw [len, withLock_read (State.usable_iff.mp husable).2.1, hpoison]
      rfl
    have hiter : iter s = (.ok s.cslab.iter, s) := by
      rw [iter, Call.bind_apply_ok hread]
      rfl
    have hcalls : Iterates s [(.front, s'.cslab)] s' := .shared rfl hstep (.call .front (.nil s'))
    obtain ⟨items, it', hit, hexact⟩ :=
      exclIter_exact_iff.2 _ _ _ _ _ _ _ _ _ hnew hrun husable hiter hcalls
    refine ⟨s₀, s, s', _, _, it', items, hnew, hrun, hiter, hcalls, hit, fun h => ?_⟩
    rcases hexact.mp h with hnil | hzero
    · exact absurd hnil nofun
    · exact absurd (hlen.symm.trans hzero) nofun

/-- After one call on the iterator of a slab with one item the reported length is wrong. -/
theorem exclIter_length_stale :
    ∃ (c₀ c : Cslab Nat) (items : List (Option (Nat × Nat))) (it : ExclIter),
      Cslab.withFixedCapacity .memory ⟨4, 4⟩ 2 = .ok c₀ ∧
      runOps Cslab.step c₀ [.insert 7] = .ok ([.inserted (some 0)], c) ∧
      c.iter.run [(.front, c)] = .ok (items, it) ∧ ¬it.Exact c.storage := by
  have hnew : @Cslab.withFixedCapacity Nat .memory ⟨4, 4⟩ 2 = .ok _ := rfl
  obtain ⟨c, hrun, hrep, -⟩ :=
    @Cslab.Represents.run Nat _ _ _ (Cslab.represents_init hnew) [.insert 7] _ rfl
  have hlen : c.len = 1 := by
    rw [hrep.len_eq]
    rfl
  have hcalls : ∀ p ∈ [(IterEnd.front, c)], c.SameView p.2 ∧ ∃ free, p.2.Inv free := by
    intro p hp
    obtain rfl := List.mem_singleton.mp hp
    exact ⟨.refl _, _, hrep.inv⟩
  obtain ⟨items, it, hit, -, hexact⟩ := ExclIter.exact_iff hrep.inv hcalls
  refine ⟨_, c, items, it, hnew, hrun, hit, fun h => ?_⟩
  rcases (hexact c (.refl _) ⟨_, hrep.inv⟩).mp h with hnil | hzero
  · exact absurd hnil nofun
  · exact absurd (hlen.symm.trans hzero) nofun

end ZprUtils.RcuCslab
