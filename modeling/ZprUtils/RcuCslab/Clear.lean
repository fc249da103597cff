import ZprUtils.RcuCslab.Destruction
import ZprUtils.RcuCslab.Filling
import ZprUtils.RcuCslab.Insertions
import ZprUtils.RcuCslab.Traversal

/-!
# Clearing the slab

`clear` is a traversal that removes every entry at once: as a run of the calls on the iterator and
on its entries it leaves nothing visible, and the drop of the iterator adds one generation. From
then on, without insertions, what is allocated are the removals of the older generations. They are
finalized with the last handle of these generations, and then the whole capacity is free.

## Main definitions

* `Clears` — the invariant of the loop.
* `Cleared` — what `clear` leaves.

## Main results

* `clear_traverses` — `clear` is a traversal.
* `clear_returns` — `clear` returns.
* `Cleared.allocated_eq`, `Cleared.allocated_eq_zero` — what is allocated.
* `clear_empties` — clearing empties the slab and gives back its capacity.
-/

namespace ZprUtils.RcuCslab

variable {α : Type} {s s' s₁ : State α} {slab : Slab} {ret : Ret α}

/-! ### Clearing is a traversal -/

/-- A call that returns is a step. -/
theorem step_of_ok {β : Type} {op : Op α} {m : Call (State α) β} {f : β → Ret α} {b : β}
    (hcall : call s op = some (f <$> m)) (hm : m s = (.ok b, s')) (haborted : s.aborted = false) :
    step s op = some (.ok (f b), s') := by
  rw [step, if_neg (by simp [haborted]), hcall, Option.map_some, Call.map_apply_ok hm]
  rfl

theorem inserts_of_traverses {op : Op α} (hop : op.traverses = true) : op.inserts = false := by
  cases op with
  | insert | vacantEntryInsert => exact absurd hop nofun
  | _ => rfl

/-- The state of the loop of `clear`: every entry that was yielded has been removed. -/
structure Clears (s : State α) (slab : Slab) (es : List (Op α × Except Interrupt (Ret α)))
    (s' : State α) : Prop where
  traversed : Traversed s slab es s'
  run : ∀ e ∈ es, e.1.traverses = true
  removed : ∀ p ∈ yielded es, p.1 ∈ es.filterMap removedBy
  entries : ∀ k e, ¬HandleAt s'.entries k e
  readers : s'.readers = s.readers
  aborted : s'.aborted = false

/-- The label of a round that yields and removes the entry `e` with the handle `k`. -/
def removalRound (k : Nat) (e : Entry α) : List (Op α × Except Interrupt (Ret α)) :=
  [(.iterMutNext, .ok (.entry (some (k, e)))), (.entryRemove k, .ok .unit)]

theorem iterMutNext_of_step {im : IterMut} {p : Option (Nat × Entry α)} (hslab : s.slab = some slab)
    (him : s.iterMut = some im) (hstep : step s .iterMutNext = some (.ok (.entry p), s')) :
    iterMutNext slab im s = (.ok p, s') := by
  obtain ⟨m, hcall, hsettle⟩ := step_eq_some hstep
  cases allowed_of_call hcall with
  | iterMutNext hslab' him' =>
    obtain rfl := Option.some.inj (hslab.symm.trans hslab')
    obtain rfl := Option.some.inj (him.symm.trans him')
    obtain ⟨b, hb, heq⟩ := settle_map_eq_ok hsettle
    obtain rfl := Ret.entry.inj heq
    exact hb

/-- **One round of the loop**: the iterator is exhausted, or an entry is yielded and removed. In the
second case the round is a run of two public calls, and the number of items that are left is one
less. -/
theorem Clears.round {es : List (Op α × Except Interrupt (Ret α))} {im : IterMut}
    (h : Clears s slab es s') (him : s'.iterMut = some im) :
    (∃ s'' it, iterMutNext slab im s' = (.ok none, s'') ∧
      Run s' [(.iterMutNext, .ok (.entry none))] s'' ∧
      Clears s slab (es ++ [(.iterMutNext, .ok (.entry none))]) s'' ∧
      s''.iterMut = some { im with iter := it }) ∨
    ∃ k e s₁ s₂ it, iterMutNext slab im s' = (.ok (some (k, e)), s₁) ∧
      entryRemove k e s₁ = (.ok (), s₂) ∧ Run s' (removalRound k e) s₂ ∧
      Clears s slab (es ++ removalRound k e) s₂ ∧ s₂.iterMut = some ⟨it, im.remaining - 1⟩ ∧
      0 < im.remaining := by
  obtain ⟨htraversed, hrun, hremoved, hentries, hreaders, haborted⟩ := h
  obtain ⟨hslab, -, htracks⟩ := htraversed.iterating im him
  have hsome : (call s' .iterMutNext).isSome = true := by
    simp only [call, hslab, him, Option.isSome_some]
  obtain ⟨m, hcall⟩ := Option.isSome_iff_exists.mp hsome
  obtain ⟨o, t, hstep⟩ : ∃ o t, step s' (.advance .front) = some (o, t) := by
    refine ⟨(settle s' (m s')).1, (settle s' (m s')).2, ?_⟩
    rw [step, if_neg (by simp [haborted])]
    exact congrArg (Option.map _) hcall
  have htraversed' := htraversed.advance hstep
  rcases step_advance htraversed.inv hslab him htracks.remaining hstep with
    ⟨it, rfl, rfl, -⟩ | ⟨i, x, it, rfl, rfl, -, -, -, -, -, hleft⟩
  · refine Or.inl ⟨_, it, iterMutNext_of_step hslab him hstep, .single hstep, ?_, rfl⟩
    refine ⟨htraversed', ?_, ?_, hentries, hreaders, haborted⟩
    · rw [List.forall_mem_append, List.forall_mem_singleton]
      exact ⟨hrun, rfl⟩
    · rw [yielded_append_none es rfl, removedBy_append_none es rfl]
      exact hremoved
  · -- the entry is removed at once
    have hk : HandleAt (s'.yieldedEntry ⟨it, im.remaining - 1⟩ ⟨i, x, slab.curGen⟩).entries
        s'.entries.length ⟨i, x, slab.curGen⟩ := handleAt_append.mpr (Or.inr ⟨rfl, rfl⟩)
    obtain ⟨s₂, hremove, -, -, -, -, -, -, him₂, hentries₂, -, hreaders₂, haborted₂⟩ :=
      entryRemove_eq htraversed'.inv htraversed'.ledger hk
    have hcall₂ : call (s'.yieldedEntry ⟨it, im.remaining - 1⟩ ⟨i, x, slab.curGen⟩)
        (.entryRemove s'.entries.length) =
        some ((fun _ => .unit) <$> entryRemove s'.entries.length ⟨i, x, slab.curGen⟩) := by
      rw [call, handleAt_iff_join.mp hk, Option.map_some]
    have hstep₂ := step_of_ok hcall₂ hremove haborted
    have htraversed₂ := htraversed'.entryRemove hstep₂
    refine Or.inr ⟨_, _, _, s₂, it, iterMutNext_of_step hslab him hstep, hremove,
      (Steps.single hstep).append (.single hstep₂), ?_, him₂, by omega⟩
    rw [List.append_assoc] at htraversed₂
    refine ⟨htraversed₂, ?_, fun p hp => ?_, fun k e hk' => ?_, hreaders₂.trans hreaders,
      haborted₂.trans haborted⟩
    · rw [List.forall_mem_append]
      refine ⟨hrun, ?_⟩
      rw [removalRound, List.forall_mem_cons, List.forall_mem_singleton]
      exact ⟨rfl, rfl⟩
    · rw [yielded, List.filterMap_append] at hp
      rw [List.filterMap_append]
      rcases List.mem_append.mp hp with hp | hp
      · exact List.mem_append_left _ (hremoved p hp)
      · obtain rfl := List.mem_singleton.mp hp
        exact List.mem_append_right _ List.mem_cons_self
    · rw [hentries₂] at hk'
      obtain ⟨hne, hk'⟩ := hk'.of_drop
      rcases handleAt_append.mp hk' with hk' | ⟨rfl, -⟩
      · exact hentries k e hk'
      · exact hne rfl

/-- **The loop** ends with the iterator exhausted, by induction on its fuel, which is more than the
number of items that are left. -/
theorem Clears.clearLoop {es : List (Op α × Except Interrupt (Ret α))} {im : IterMut}
    (h : Clears s slab es s') (him : s'.iterMut = some im) (fuel : Nat)
    (hfuel : im.remaining < fuel) :
    ∃ es' s'', clearLoop slab fuel s' = (.ok (), s'') ∧ Run s' es' s'' ∧
      Clears s slab (es ++ es') s'' ∧ Exhausted (es ++ es') ∧ s''.iterMut.isSome = true := by
  induction fuel generalizing s' es im with
  | zero => exact absurd hfuel (Nat.not_lt_zero _)
  | succ fuel ih =>
    simp only [RcuCslab.clearLoop, Call.get_bind_apply, him]
    rcases h.round him with ⟨s'', it, hnext, hrun, hc, him''⟩ |
      ⟨k, e, s₁, s₂, it, hnext, hremove, hrun, hc, him₂, hpos⟩
    · refine ⟨_, s'', Call.bind_apply_ok hnext, hrun, hc, ⟨.front, ?_⟩, by rw [him'']; rfl⟩
      exact List.mem_append_right _ List.mem_cons_self
    · have hfuel₂ : (⟨it, im.remaining - 1⟩ : IterMut).remaining < fuel := by
        simp only
        omega
      obtain ⟨es', s'', hloop, hrun', hc', hex, him''⟩ := ih hc him₂ hfuel₂
      rw [List.append_assoc] at hc' hex
      refine ⟨_, s'', ?_, hrun.append hrun', hc', hex, him''⟩
      rw [Call.bind_apply_ok hnext]
      simp only [Call.bind_apply_ok hremove]
      exact hloop

/-- **`clear` is a traversal** that removes every entry it yields, with the iterator exhausted,
followed by the drop of the iterator and a new reader. What is known of traversals by public calls
applies to it. -/
theorem clear_traverses {u : Unit} {s₀ : State α} (hi : Inv {} s) (hl : s.ledger.Inv)
    (hslab : s.slab = some slab) (husable : s.usable = true) (haborted : s.aborted = false)
    (hiter : iterMut s = (.ok u, s₀)) :
    ∃ es s' s₂, Run s ((.iterMut, .ok .unit) :: es) s' ∧ Clears s slab es s' ∧ Exhausted es ∧
      s'.iterMut.isSome = true ∧ step s' .iterMutDrop = some (.ok .unit, s₂) ∧
      s₂.readers = s'.readers ∧ s₂.entries = s'.entries ∧ s₂.aborted = false ∧
      s₂.usable = true ∧ clear slab s = reader s₂ := by
  obtain ⟨-, hlocked, -, hentries⟩ := State.usable_iff.mp husable
  obtain ⟨free, hinv⟩ := hi.pending.cslab
  have hcall₀ : call s .iterMut = some ((fun _ => .unit) <$> iterMut) := if_pos husable
  have hstep₀ := step_of_ok hcall₀ hiter haborted
  have hstart := Traversed.start hi hl hslab hstep₀
  obtain ⟨-, rfl⟩ := iterMut_eq_ok hlocked hiter
  have hc₀ : Clears s slab [] _ := ⟨hstart, by simp, by simp [yielded], hentries, rfl, haborted⟩
  obtain ⟨es, s', hloop, hrun, hc, hex, him⟩ :=
    hc₀.clearLoop rfl (s.cslab.storage.frontier + 1) (Nat.lt_succ_of_le hinv.inUse_le_frontier)
  rw [List.nil_append] at hc hex
  obtain ⟨im, him'⟩ := Option.isSome_iff_exists.mp him
  obtain ⟨hslab₁, -, -⟩ := hc.traversed.iterating im him'
  obtain ⟨o, s₂, hadvance, -, hrel, hok, -⟩ :=
    releases_advanceGeneration hc.traversed.inv hslab₁ hc.traversed.locked (Or.inl him)
  obtain rfl := hok hc.traversed.poisoned
  obtain ⟨hlocked₂, -, hslab₂, him₂, hentries₂, hreaders₂, haborted₂, -⟩ := hrel.frame
  have hdrop : dropIterMut slab s' = (.ok (), s₂) := hadvance
  have hcall₂ : call s' .iterMutDrop = some ((fun _ => .unit) <$> dropIterMut slab) := by
    simp only [call, hslab₁, him']
  obtain ⟨o, hbody, -, ho⟩ := Call.andDrop_apply hloop (Or.inl ⟨(), rfl⟩) hdrop
  obtain rfl := (ho ()).mpr ⟨rfl, rfl⟩
  refine ⟨es, s', s₂, (Steps.single hstep₀).append hrun, hc, hex, him,
    step_of_ok hcall₂ hdrop hc.aborted, hreaders₂, hentries₂, haborted₂.trans hc.aborted, ?_, ?_⟩
  · rw [State.usable_iff, State.Unborrowed, hslab₂, hlocked₂, him₂, hentries₂]
    exact ⟨rfl, hc.traversed.locked, rfl, hc.entries⟩
  · rw [clear, Call.bind_apply_ok hiter, Call.get_bind_apply, Call.bind_apply_ok hbody]

/-- A call of `clear` that returns is such a traversal: a mutable iterator is made, every entry that
it yields is removed, the exhausted iterator is dropped, and the reader that is returned is made at
the end. -/
theorem clear_run (hi : Inv {} s) (hl : s.ledger.Inv) (hslab : s.slab = some slab)
    (hclear : step s .clear = some (.ok ret, s₁)) :
    s.usable = true ∧ s.poisoned = false ∧
    ∃ es s' s₂, Run s ((.iterMut, .ok .unit) :: es) s' ∧ Clears s slab es s' ∧ Exhausted es ∧
      s'.iterMut.isSome = true ∧ step s' .iterMutDrop = some (.ok .unit, s₂) ∧
      s₂.readers = s'.readers ∧ s₂.entries = s'.entries ∧
      step s₂ .reader = some (.ok ret, s₁) := by
  have haborted : s.aborted = false := by
    rw [← Bool.not_eq_true]
    intro haborted
    simp [step, haborted] at hclear
  obtain ⟨m, hcall, hsettle⟩ := step_eq_some hclear
  cases allowed_of_call hcall with
  | clear husable hslab' =>
    obtain rfl := Option.some.inj (hslab.symm.trans hslab')
    obtain ⟨b, hb, rfl⟩ := settle_map_eq_ok hsettle
    obtain ⟨o, s₀, hiter, -⟩ := reach_iterMut husable
    cases o with
    | error e => simp [clear, Call.bind_apply_error hiter] at hb
    | ok u =>
      obtain ⟨es, s', s₂, hrun, hc, hex, him, hdrop, hreaders₂, hentries₂, haborted₂, husable₂,
        hreturns⟩ := clear_traverses hi hl hslab husable haborted hiter
      have hcall₂ : call s₂ .reader = some (.handle <$> reader) := if_pos husable₂
      obtain ⟨hpoison, -⟩ := iterMut_eq_ok (State.usable_iff.mp husable).2.1 hiter
      exact ⟨husable, hpoison, es, s', s₂, hrun, hc, hex, him, hdrop, hreaders₂, hentries₂,
        step_of_ok hcall₂ (hreturns ▸ hb) haborted₂⟩

/-- `clear` returns unless the mutex is poisoned. -/
theorem clear_returns (hi : Inv {} s) (hl : s.ledger.Inv) (husable : s.usable = true)
    (haborted : s.aborted = false) (hpoison : s.poisoned = false) :
    ∃ ret s₁, step s .clear = some (.ok ret, s₁) := by
  obtain ⟨hsome, hlocked, -⟩ := State.usable_iff.mp husable
  obtain ⟨slab, hslab⟩ := Option.isSome_iff_exists.mp hsome
  have hlen := withLock_read (f := Cslab.len) hlocked
  rw [hpoison, if_neg Bool.false_ne_true] at hlen
  obtain ⟨-, -, s₂, -, -, -, -, -, -, -, -, husable₂, hreturns⟩ :=
    clear_traverses hi hl hslab husable haborted (Call.bind_apply_ok hlen)
  obtain ⟨slab₂, hslab₂⟩ := Option.isSome_iff_exists.mp (State.usable_iff.mp husable₂).1
  obtain ⟨s₁, hreader, -⟩ := reach_reader husable₂ hslab₂
  have hcall : call s .clear = some (.handle <$> clear slab) := by
    simp only [call, husable, hslab, if_true, Option.map_some]
  exact ⟨_, s₁, step_of_ok hcall (hreturns.trans hreader) haborted⟩

/-! ### After clearing -/

/-- With the iterator exhausted everything that was visible has been removed: the iterator yields
every visible item, and each entry that is yielded is removed before the next one is asked for. -/
theorem Clears.removedIn {es : List (Op α × Except Interrupt (Ret α))} (h : Clears s slab es s')
    (hex : Exhausted es) {i : Nat} {x : α} (hx : s.cslab.slot i = .live x) : RemovedIn es i := by
  obtain ⟨p, hp, hidx⟩ := List.mem_map.mp (h.traversed.exhausted hex i x hx)
  exact ⟨p, hp, h.removed p hp, hidx⟩

/-- **What `clear` leaves**: nothing is visible, the removals are kept in the generation of the
call, and the generation of the returned reader is new. -/
structure Cleared (s : State α) (slab : Slab) (s₁ : State α) : Prop where
  usable : s.usable = true
  unpoisoned : s.poisoned = false
  inv : Inv {} s₁
  ledger : s₁.ledger.Inv
  poisoned : s₁.poisoned = false
  locked : s₁.locked = false
  fades : s.ledger.Fades s₁.ledger
  empty : ∀ i x, s₁.cslab.slot i ≠ .live x
  fresh : ∀ g, s.gens.length ≤ g → Ledger.pendingOf s₁.ledger.records g = []
  removals : ∀ i x, s.cslab.slot i = .live x → s₁.ledger.Kept slab.curGen i x
  kept : ∀ g i x, s.ledger.Kept g i x → s₁.ledger.Kept g i x
  slab_eq : s₁.slab = some { slab with curGen := s.gens.length }
  gens : s₁.gens.length = s.gens.length + 1
  readers : s₁.readers = s.readers ++ [some ⟨s.gens.length, []⟩]
  entries : ∀ k e, ¬HandleAt s₁.entries k e

theorem cleared_of_step (hi : Inv {} s) (hl : s.ledger.Inv) (hslab : s.slab = some slab)
    (hclear : step s .clear = some (.ok ret, s₁)) :
    ret = .handle (some s.readers.length) ∧ Cleared s slab s₁ := by
  obtain ⟨husable, hpoison, es, s', s₂, hrun, hc, hex, him, hdrop, hreaders₂, hentries₂, hreader⟩ :=
    clear_run hi hl hslab hclear
  have hempty : ∀ i x, s'.ledger.slot i ≠ .live x := by
    intro i x hx
    obtain ⟨hstart, hnot⟩ := (hc.traversed.live i x).mp hx
    exact hnot (hc.removedIn hex hstart)
  obtain ⟨im, him'⟩ := Option.isSome_iff_exists.mp him
  have hlength := (hc.traversed.iterating im him').2.1
  -- the drop of the iterator and the new reader
  have ht₂ := hc.traversed.iterMutDrop hdrop
  have him₂ : s₂.iterMut = none := by
    obtain ⟨m, hcall, hsettle⟩ := step_eq_some hreader
    cases allowed_of_call hcall with
    | reader husable => exact (State.usable_iff.mp husable).2.2.1
  obtain ⟨hslab₂, hgens₂⟩ := ht₂.dropped him₂
  have ht₁ := ht₂.shared (e := (.reader, .ok ret)) rfl hreader
  have hshares := shares_of_step ht₂.inv rfl hreader
  have hrest : Run s' [(.iterMutDrop, .ok .unit), (.reader, .ok ret)] s₁ :=
    (Steps.single hdrop).append (.single hreader)
  have hops : ∀ e ∈ (.iterMut, .ok .unit) :: es ++ [(.iterMutDrop, .ok .unit), (.reader, .ok ret)],
      e.1.inserts = false := by
    rw [List.forall_mem_append, List.forall_mem_cons]
    exact ⟨⟨rfl, fun e he => inserts_of_traverses (hc.run e he)⟩, by simp [Op.inserts]⟩
  have hfades := fades_of_run hc.traversed.inv hrest (by simp [Op.inserts])
  obtain ⟨hret, hreaders⟩ : ret = .handle (some s₂.readers.length) ∧
      s₁.readers = s₂.readers ++ [some ⟨s.gens.length, []⟩] := by
    obtain ⟨m, hcall, hsettle⟩ := step_eq_some hreader
    cases allowed_of_call hcall with
    | reader husable =>
      have heq : reader s₂ = (.ok (some s₂.readers.length), (addReader s.gens.length s₂).2) := by
        simp only [reader, Call.get_bind_apply, hslab₂, Call.bind_apply_ok addReader_eq,
          Call.pure_apply, addReader_eq]
      obtain ⟨ho, rfl⟩ := settle_map_ok hsettle heq
      exact ⟨Except.ok.inj ho, rfl⟩
  rw [hreaders₂, hc.readers] at hret hreaders
  refine ⟨hret, husable, hpoison, ht₁.inv, ht₁.ledger, ht₁.poisoned, ht₁.locked,
    fades_of_run hi (hrun.append hrest) hops, fun i x hx => hempty i x (hfades.live hx),
    fun g hg => ?_, fun i x hx => ?_, fun g i x hk => ?_,
    hshares.unseen.slab.trans hslab₂, hshares.unseen.length_gens.trans hgens₂, hreaders, ?_⟩
  · rw [hfades.pending hempty, Ledger.pendingOf, List.getElem?_eq_none, Option.map_none,
      Option.getD_none]
    simpa [State.ledger, hlength] using hg
  · have hkept := hc.traversed.kept i x (hc.removedIn hex hx) hx
    exact (kept_of_run hkept hc.traversed.inv hc.traversed.ledger hrest).2.2
  · exact (kept_of_run hk hi hl (hrun.append hrest)).2.2
  · rw [hshares.entries, hentries₂]
    exact hc.entries

/-! ### What is allocated -/

namespace Cleared

variable (h : Cleared s slab s₁)
include h

/-- With a handle of an older generation no generation dies, since a generation holds its successor
and the chain from the handle on is kept. -/
theorem alive {g g₀ : Nat} (hi : Inv {} s) (hslab : s.slab = some slab) (hlt : g₀ < s.gens.length)
    (hheld : s₁.HoldsGen g₀) (halive : Alive s.gens g) : Alive s₁.gens g := by
  have hcur := hi.refs.curGen slab hslab
  obtain ⟨hg, g₁, hle, hg₁⟩ := (alive_iff_holdsGen hi.refs).mp halive
  rw [alive_iff_holdsGen h.inv.refs, h.gens]
  refine ⟨by omega, ?_⟩
  rcases hg₁ with ⟨slab', hslab', rfl⟩ | ⟨k, r, hk, rfl⟩ | ⟨k, e, hk, -⟩
  · -- only the slab holds the generation of the call
    obtain rfl := Option.some.inj (hslab.symm.trans hslab')
    exact ⟨g₀, by omega, hheld⟩
  · refine ⟨r.gen, hle, Or.inr (Or.inl ⟨k, r, ?_, rfl⟩)⟩
    rw [h.readers]
    exact hk.append
  · exact absurd hk ((State.usable_iff.mp h.usable).2.2.2 k e)

/-- **With a handle of an older generation** what is allocated stays allocated: the generation of
the traversal is alive, and has not finalized the removals that `clear` recorded in it. -/
theorem allocated_eq {g₀ : Nat} (hi : Inv {} s) (hslab : s.slab = some slab)
    (hsize : s₁.cslab.storage.size = s.cslab.storage.size) (hlt : g₀ < s.gens.length)
    (hheld : s₁.HoldsGen g₀) : s₁.cslab.allocated = s.cslab.allocated := by
  have hcur := hi.refs.curGen slab hslab
  have hitem : ∀ i, (s₁.cslab.slot i).item.isSome = (s.cslab.slot i).item.isSome := by
    intro i
    cases hs : s.cslab.slot i with
    | free =>
      have hfree : s₁.cslab.slot i = .free := h.fades.free hs
      rw [hfree]
    | live x =>
      have hkept := h.removals i x hs
      rw [(pending_of_kept hkept h.inv h.ledger (by omega) hheld).1]
      rfl
    | pending x =>
      obtain ⟨g, gen, hgen, halive, hmem⟩ :=
        mem_livePending.mp (hi.pending.mem h.unpoisoned i x hs)
      have hkept : s.ledger.Kept g i x := by
        refine ⟨?_, fun _ => ⟨⟨gen.record, getElem?_map_record hgen, halive, hmem⟩, hs⟩⟩
        simpa [State.ledger] using (List.getElem?_eq_some_iff.mp hgen).1
      have halive₁ := h.alive hi hslab hlt hheld ⟨gen, hgen, halive⟩
      have hslot : s₁.cslab.slot i = .pending x :=
        ((h.kept g i x hkept).2 (aliveIn_map.mpr halive₁)).2
      rw [hslot]
  obtain ⟨free, hinv⟩ := hi.pending.cslab
  obtain ⟨free₁, hinv₁⟩ := h.inv.pending.cslab
  rw [hinv.allocated_eq, hinv₁.allocated_eq, hinv.card_live_add_pending,
    hinv₁.card_live_add_pending, hsize]
  simp only [hitem]

/-- What the calls see of a cleared slab. -/
theorem sees_nothing : len s₁ = (.ok 0, s₁) ∧ ∀ i, get i s₁ = (.ok none, s₁) ∧
    readerGet i s₁ = (.ok none, s₁) ∧ readerContainsKey i s₁ = (.ok false, s₁) := by
  obtain ⟨free, hinv⟩ := h.inv.pending.cslab
  have hitem : ∀ i, (s₁.cslab.slot i).liveItem = none := by
    intro i
    cases hs : s₁.cslab.slot i with
    | free | pending => rfl
    | live x => exact absurd hs (h.empty i x)
  constructor
  · have hset : s₁.cslab.liveSet = ∅ := by
      rw [hinv.liveSet_eq]
      simp [hitem]
    have hlen : s₁.cslab.len = 0 := by
      rw [Cslab.len, hinv.inUse_eq, hset, Finset.card_empty]
    rw [len, withLock_read h.locked, h.poisoned, if_neg Bool.false_ne_true, hlen]
  · intro i
    have hget : s₁.cslab.storage.getImpl i = .ok none := by rw [getImpl_eq h.inv, hitem]
    have hcontains : s₁.cslab.storage.containsKeyImpl i = .ok false := by
      rw [hinv.containsKeyImpl_eq, hinv.bit_eq_isSome, hitem]
      rfl
    refine ⟨?_, ?_, ?_⟩
    · rw [get, Call.get_bind_apply, hget]
      rfl
    · rw [readerGet, Call.get_bind_apply, hget]
      rfl
    · rw [readerContainsKey, Call.get_bind_apply, hcontains]
      rfl

variable {s₂ : State α} {es : List (Op α × Except Interrupt (Ret α))} (hrun : Run s₁ es s₂)
  (hops : ∀ e ∈ es, e.1.inserts = false)
include hrun hops

/-- **Without a handle of an older generation** nothing is allocated, whatever was called since. A
slot that was in use was removed by `clear` or before, and every generation that could still hold
its removal has been dropped. -/
theorem slot_free (hpoison : s₂.poisoned = false)
    (hnone : ∀ g < s.gens.length, ¬s₂.HoldsGen g) (i : Nat) : s₂.cslab.slot i = .free := by
  have hi₂ := hrun.inv h.inv
  have hfades := fades_of_run h.inv hrun hops
  cases hs : s₂.cslab.slot i with
  | free => rfl
  | live x => exact absurd (hfades.live hs) (h.empty i x)
  | pending x =>
    -- the removal is recorded in a generation that is alive, and new ones have no removals
    obtain ⟨g, gen, hgen, halive, hmem⟩ := mem_livePending.mp (hi₂.pending.mem hpoison i x hs)
    obtain ⟨-, g₀, hle, hg₀⟩ := (alive_iff_holdsGen hi₂.refs).mp ⟨gen, hgen, halive⟩
    have hge : s.gens.length ≤ g := by
      by_contra hlt
      exact hnone g₀ (by omega) hg₀
    have hpending : Ledger.pendingOf s₂.ledger.records g = [] := by
      rw [hfades.pending h.empty]
      exact h.fresh g hge
    have hrecord : Ledger.pendingOf s₂.ledger.records g = gen.pendingRemoves := by
      rw [Ledger.pendingOf, State.ledger, getElem?_map_record hgen]
      rfl
    rw [← hrecord, hpending] at hmem
    exact absurd hmem List.not_mem_nil

theorem allocated_eq_zero (hpoison : s₂.poisoned = false)
    (hnone : ∀ g < s.gens.length, ¬s₂.HoldsGen g) : s₂.cslab.allocated = 0 := by
  obtain ⟨free, hinv⟩ := (hrun.inv h.inv).pending.cslab
  rw [hinv.allocated_eq, hinv.card_live_add_pending]
  simp [h.slot_free hrun hops hpoison hnone, Slot.item]

omit hops in
/-- What was visible stays allocated as long as there is a handle of an older generation: it is
pending then, and pending items are counted. -/
theorem allocated_pos {g i : Nat} {x : α} (hi : Inv {} s) (hslab : s.slab = some slab)
    (hlt : g < s.gens.length) (hheld : s₂.HoldsGen g) (hx : s.cslab.slot i = .live x) :
    0 < s₂.cslab.allocated := by
  have hcur := hi.refs.curGen slab hslab
  obtain ⟨hi₂, hl₂, hkept⟩ := kept_of_run (h.removals i x hx) h.inv h.ledger hrun
  obtain ⟨free, hinv⟩ := hi₂.pending.cslab
  exact hinv.allocated_pos_of_pending (pending_of_kept hkept hi₂ hl₂ (by omega) hheld).1

end Cleared

/-! ### Clearing and what follows -/

/-- Without a panic with the mutex held the mutex is not poisoned. The condition is asked of every
step of the run, each in the state before it. -/
theorem poisoned_of_run {es : List (State α × Op α × Except Interrupt (Ret α))} (hi : Inv {} s)
    (hpoison : s.poisoned = false) (hrun : Steps TracedStep s es s')
    (hsafe : ∀ e ∈ es, ¬PanicsLocked e.1 e.2.1) : s'.poisoned = false := by
  refine (Steps.history (P := fun es s' => (∀ e ∈ es, ¬PanicsLocked e.1 e.2.1) →
    Inv {} s' ∧ s'.poisoned = false) ?_ hrun (fun _ => ⟨hi, hpoison⟩) hsafe).2
  rintro es s₁ ⟨s₂, op, o⟩ s₃ ih ⟨rfl, hstep⟩ hsafe
  rw [List.forall_mem_append, List.forall_mem_singleton] at hsafe
  obtain ⟨hi₁, hpoison₁⟩ := ih hsafe.1
  refine ⟨step_inv hi₁ hstep, ?_⟩
  rcases step_effect hi₁ hstep with hreach | ⟨hpanics, -⟩
  · have hsame : s₃.poisoned = s₂.poisoned := hreach.poisoned
    exact hsame.trans hpoison₁
  · exact absurd hpanics hsafe.2

/-- **Clearing** empties a reachable slab. It returns unless the mutex is poisoned, and then nothing
is visible through the slab or any reader, one generation is added, and the returned reader is one
of it. What is allocated stays allocated if a handle of an older generation is alive, and nothing is
allocated otherwise. From then on, in every run without insertions in which no call panics with the
mutex held, nothing is allocated once the last handle of an older generation is dropped, and not
before if something was visible; and then the whole capacity is there. -/
theorem clear_empties {t : Layout} {capacity : Nat} {s₀ : State α}
    {es₀ : List (Op α × Except Interrupt (Ret α))}
    (hnew : withFixedCapacity .memory t capacity = .ok s₀)
    (hreach : Run s₀ es₀ s) :
    (s.usable = true → s.aborted = false → s.poisoned = false →
      ∃ ret s₁, step s .clear = some (.ok ret, s₁)) ∧
    ∀ ret s₁, step s .clear = some (.ok ret, s₁) →
      (len s₁ = (.ok 0, s₁) ∧ ∀ i, get i s₁ = (.ok none, s₁) ∧ readerGet i s₁ = (.ok none, s₁) ∧
        readerContainsKey i s₁ = (.ok false, s₁)) ∧
      (s₁.gens.length = s.gens.length + 1 ∧
        ∃ k, ret = .handle (some k) ∧ HandleAt s₁.readers k ⟨s.gens.length, []⟩) ∧
      ((∃ g < s.gens.length, s₁.HoldsGen g) → s₁.cslab.allocated = s.cslab.allocated) ∧
      ((∀ g < s.gens.length, ¬s₁.HoldsGen g) → s₁.cslab.allocated = 0) ∧
      ∀ es s₂, Steps TracedStep s₁ es s₂ → (∀ e ∈ es, e.2.1.inserts = false) →
        (∀ e ∈ es, ¬PanicsLocked e.1 e.2.1) →
        ((∃ g < s.gens.length, s₂.HoldsGen g) → (∃ i x, s.cslab.slot i = .live x) →
          0 < s₂.cslab.allocated) ∧
        ((∀ g < s.gens.length, ¬s₂.HoldsGen g) →
          s₂.cslab.allocated = 0 ∧ GivesBack capacity s₂) := by
  have hi := inv_of_run hnew hreach
  have hl := ledger_inv_of_run hnew hreach
  refine ⟨clear_returns hi hl, fun ret s₁ hclear => ?_⟩
  obtain ⟨slab, hslab⟩ : ∃ slab, s.slab = some slab := by
    obtain ⟨m, hcall, -⟩ := step_eq_some hclear
    cases allowed_of_call hcall with
    | clear _ hslab => exact ⟨_, hslab⟩
  obtain ⟨hret, h⟩ := cleared_of_step hi hl hslab hclear
  have hsize : s₁.cslab.storage.size = s.cslab.storage.size := size_eq_of_step hi hclear
  refine ⟨h.sees_nothing, ⟨h.gens, _, hret, ?_⟩, ?_, ?_, fun es s₂ htraced hops hsafe => ⟨?_, ?_⟩⟩
  · rw [h.readers, handleAt_append]
    exact Or.inr ⟨rfl, rfl⟩
  · rintro ⟨g, hlt, hheld⟩
    exact h.allocated_eq hi hslab hsize hlt hheld
  · exact h.allocated_eq_zero (.nil s₁) nofun h.poisoned
  · have hrun : Run s₁ (es.map Prod.snd) s₂ := htraced.map (f := id) fun _ _ _ hstep => hstep.2
    rintro ⟨g, hlt, hheld⟩ ⟨i, x, hx⟩
    exact h.allocated_pos hrun hi hslab hlt hheld hx
  · have hrun : Run s₁ (es.map Prod.snd) s₂ := htraced.map (f := id) fun _ _ _ hstep => hstep.2
    have hops' : ∀ e ∈ es.map Prod.snd, e.1.inserts = false := by
      intro e he
      obtain ⟨e', he', rfl⟩ := List.mem_map.mp he
      exact hops e' he'
    have hpoison := poisoned_of_run h.inv h.poisoned htraced hsafe
    intro hnone
    refine ⟨h.allocated_eq_zero hrun hops' hpoison hnone, ?_⟩
    have hfilled : Filled s₂ [] := ⟨hrun.inv h.inv, hpoison, List.nodup_nil, nofun,
      fun i _ => h.slot_free hrun hops' hpoison hnone i⟩
    have hcapacity : s₂.cslab.storage.size = capacity := by
      rw [size_eq_of_run h.inv hrun, hsize, size_eq_of_run (inv_withFixedCapacity hnew) hreach]
      obtain ⟨cslab, hcslab, hs⟩ := except_bind_eq_ok.mp hnew
      rw [except_pure, Except.ok.injEq] at hs
      rw [← hs]
      exact (Cslab.inv_withFixedCapacity hcslab).2.1
    exact hcapacity ▸ hfilled.givesBack

/-- Every handle is of generation `n` or newer. -/
def State.heldFrom (n : Nat) (s : State α) : Bool :=
  s.slab.all (n ≤ ·.curGen) && s.readers.all (·.all (n ≤ ·.gen)) &&
    s.entries.all (·.all (n ≤ ·.gen))

theorem not_holdsGen_of_heldFrom {n g : Nat} (h : s.heldFrom n = true) (hg : g < n) :
    ¬s.HoldsGen g := by
  simp only [State.heldFrom, Bool.and_eq_true, List.all_eq_true] at h
  obtain ⟨⟨hslab, hreaders⟩, hentries⟩ := h
  rintro (⟨slab, hs, rfl⟩ | ⟨k, r, hk, rfl⟩ | ⟨k, e, hk, rfl⟩)
  · rw [hs, Option.all_some, decide_eq_true_iff] at hslab
    omega
  · have hle := hreaders _ hk.mem
    rw [Option.all_some, decide_eq_true_iff] at hle
    omega
  · have hle := hentries _ hk.mem
    rw [Option.all_some, decide_eq_true_iff] at hle
    omega

/-- Two items are cleared while a reader of the first generation is alive. They stay allocated until
it is dropped, and then two insertions can be made. -/
theorem clear_empties_reader :
    ∃ (s₀ s s₁ s₂ : State Nat) (es₀ : List (Op Nat × Except Interrupt (Ret Nat))) (ret : Ret Nat)
      (es : List (State Nat × Op Nat × Except Interrupt (Ret Nat))),
      withFixedCapacity .memory ⟨4, 4⟩ 2 = .ok s₀ ∧ Run s₀ es₀ s ∧
      step s .clear = some (.ok ret, s₁) ∧ Steps TracedStep s₁ es s₂ ∧
      s₁.cslab.allocated = 2 ∧ s₂.cslab.allocated = 0 ∧ GivesBack 2 s₂ := by
  have hobserve : @observeThen Nat _ ⟨4, 4⟩ 2 [.insert 7, .insert 8, .reader]
      [.clear, .readerDrop 0] (fun s p => ((s.gens.length, s.cslab.allocated,
        s.readers[0]?.join.map (·.gen)), (p.1.head?.bind Except.toOption).isSome, p.2.heldFrom 1)) =
      some ((1, 2, some 0), true, true) := by
    decide +kernel
  obtain ⟨s₀, es₀, s, rs, s₂, hnew, hrun, hruns, hsees⟩ := exists_runs_of_observeThen hobserve
  obtain ⟨r, s₁, rs', hclear, hrest, rfl⟩ := runOps_cons_eq_some.mp hruns
  simp only [Prod.mk.injEq, List.head?_cons, Option.bind_some] at hsees
  obtain ⟨⟨hgens, hallocated, hreader⟩, hret, hheld⟩ := hsees
  obtain ⟨ret, hret⟩ := Option.isSome_iff_exists.mp hret
  obtain rfl := except_toOption_eq_some.mp hret
  obtain ⟨es, hes, htraced⟩ := Steps.traced (Run.of_runOps hrest)
  have hop : ∀ e ∈ es, e.2.1 = .readerDrop 0 := by
    intro e he
    have hpair := List.mem_map_of_mem (f := Prod.snd) he
    rw [hes] at hpair
    exact List.mem_singleton.mp (List.of_mem_zip hpair).1
  obtain ⟨-, -, hkeep, -, hlater⟩ := (clear_empties hnew hrun).2 ret s₁ hclear
  rw [hgens] at hkeep hlater
  -- the reader of the first generation outlives the call
  obtain ⟨reader, hk, hgen⟩ := Option.map_eq_some_iff.mp hreader
  have hhas : HasReader 0 0 s := ⟨reader, handleAt_iff_join.mpr hk, hgen⟩
  obtain ⟨reader₁, hk₁, hgen₁⟩ := hasReader_of_step (by simp) hclear hhas
  obtain ⟨-, hempty⟩ := hlater es s₂ htraced (fun e he => by rw [hop e he]; rfl)
    (fun e he => by rw [hop e he]; exact id)
  obtain ⟨hzero, hgives⟩ := hempty fun g hg => not_holdsGen_of_heldFrom hheld hg
  refine ⟨s₀, s, s₁, s₂, es₀, ret, es, hnew, hrun, hclear, htraced, ?_, hzero, hgives⟩
  exact (hkeep ⟨0, Nat.one_pos, Or.inr (Or.inl ⟨0, reader₁, hk₁, hgen₁⟩)⟩).trans hallocated

/-- After the clearing a removal of an index without an item panics and poisons the mutex: the drop
of the last older reader panics too, and the item that was cleared stays allocated. -/
theorem clear_leaks_after_panic :
    ∃ (s₀ s s₁ s₂ : State Nat) (es₀ es : List (Op Nat × Except Interrupt (Ret Nat)))
      (ret : Ret Nat),
      withFixedCapacity .memory ⟨4, 4⟩ 2 = .ok s₀ ∧ Run s₀ es₀ s ∧
      step s .clear = some (.ok ret, s₁) ∧ Run s₁ es s₂ ∧ (∀ e ∈ es, e.1.inserts = false) ∧
      (∀ g < s.gens.length, ¬s₂.HoldsGen g) ∧ s₂.cslab.allocated = 1 := by
  have hobserve : @observeThen Nat _ ⟨4, 4⟩ 2 [.insert 7, .reader]
      [.clear, .markRemoved 0, .readerDrop 0] (fun s p => (s.gens.length,
        (p.1.head?.bind Except.toOption).isSome, p.2.heldFrom 1, p.2.cslab.allocated)) =
      some (1, true, true, 1) := by
    decide +kernel
  obtain ⟨s₀, es₀, s, rs, s₂, hnew, hrun, hruns, hsees⟩ := exists_runs_of_observeThen hobserve
  obtain ⟨r, s₁, rs', hclear, hrest, rfl⟩ := runOps_cons_eq_some.mp hruns
  simp only [Prod.mk.injEq, List.head?_cons, Option.bind_some] at hsees
  obtain ⟨hgens, hret, hheld, hallocated⟩ := hsees
  obtain ⟨ret, hret⟩ := Option.isSome_iff_exists.mp hret
  obtain rfl := except_toOption_eq_some.mp hret
  refine ⟨s₀, s, s₁, s₂, es₀, _, ret, hnew, hrun, hclear, .of_runOps hrest, fun e he => ?_,
    fun g hg => not_holdsGen_of_heldFrom hheld (hgens ▸ hg), hallocated⟩
  have hops : ∀ op ∈ ([.markRemoved 0, .readerDrop 0] : List (Op Nat)), op.inserts = false := by
    decide
  exact hops e.1 (List.of_mem_zip he).1

end ZprUtils.RcuCslab
