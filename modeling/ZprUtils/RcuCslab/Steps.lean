import ZprUtils.Foundations.Runs
import ZprUtils.RcuCslab.Decomposition

/-!
# Every step is a sequence of actions

The calls that are made of several others, and the step relation: from a state with the invariant,
a step waits, or is a sequence of actions, or is a panic of the thread that holds the mutex. The
latter happens only in a removal of an index without a visible item and in a panic of the user while
a vacant entry is alive; hence the invariant holds after every run.

## Main definitions

* `Effect` — a call waits or is a sequence of actions.
* `PanicsLocked` — the call panics with the mutex held.

## Main results

* `step_effect` — one step.
* `inv_of_run` — the invariant holds after every run.
-/

namespace ZprUtils.RcuCslab

open Relation

variable {α : Type} {s s' : State α}

/-! ### Entries -/

theorem State.not_locked_of_entry {k : Nat} {e : Entry α} (hb : Borrows s)
    (hk : HandleAt s.entries k e) : s.locked = false := by
  cases hlocked : s.locked with
  | false => rfl
  | true => exact absurd hk ((hb.locked hlocked).2.1 k e)

/-- An entry is dropped without waiting and without a panic. -/
theorem releases_dropEntry {k : Nat} {e : Entry α} (hi : Inv {} s) (hk : HandleAt s.entries k e) :
    ∃ s', dropEntry k e s = (.ok (), s') ∧
      Releases (⟨some e.gen, false, false⟩, { s with entries := s.entries.set k none })
        ({}, s') := by
  have hlocked := State.not_locked_of_entry hi.borrows hk
  have hpoison := (hi.borrows.entry_live k e hk).1
  obtain ⟨o, s', hgen, hcases⟩ := releases_dropGenRef ((Action.dropEntry hk).inv hi)
  rcases hcases with ⟨hblocked, -⟩ | ⟨hrel, hends⟩
  · exact absurd (hlocked.symm.trans hblocked) (by simp)
  · obtain rfl := hends.eq_ok hpoison
    exact ⟨s', hgen, hrel⟩

/-- The state in which the entry `e` is gone and its removal is recorded, before its reference to
its generation is released. -/
def State.removedEntry (s : State α) (k : Nat) (e : Entry α) (c : Cslab α) : State α :=
  { s with
    cslab := c
    gens := s.gens.modify e.gen fun gen =>
      { gen with pendingRemoves := gen.pendingRemoves ++ [e.idx] }
    entries := s.entries.set k none
    log := s.log ++ [.marked e.gen e.idx] }

/-- The removal of an entry never fails: its item is visible. The removal is recorded in the
generation of the entry, whose reference is then released. -/
theorem releases_entryRemove {k : Nat} {e : Entry α} (hi : Inv {} s) (hk : HandleAt s.entries k e) :
    ∃ c s', s.cslab.markRemoved e.idx = .ok c ∧ entryRemove k e s = (.ok (), s') ∧
      Inv ⟨some e.gen, false, false⟩ (s.removedEntry k e c) ∧
      Releases (⟨some e.gen, false, false⟩, s.removedEntry k e c) ({}, s') := by
  have hlocked := State.not_locked_of_entry hi.borrows hk
  obtain ⟨hpoison, hlive⟩ := hi.borrows.entry_live k e hk
  rcases markRemovedIn_eq e.gen e.idx hi hlocked with
    ⟨hp, -⟩ | ⟨-, hnone, -⟩ | ⟨c, -, hok, hmark⟩
  · exact absurd (hpoison.symm.trans hp) (by simp)
  · rw [hlive] at hnone
    exact absurd hnone (by simp [Slot.liveItem])
  have hi' := (Action.removeEntry hk hok).inv hi
  obtain ⟨o, s', hgen, hcases⟩ := releases_dropGenRef hi'
  rcases hcases with ⟨hblocked, -⟩ | ⟨hrel, hends⟩
  · exact absurd (hlocked.symm.trans hblocked) (by simp)
  obtain rfl := hends.eq_ok hpoison
  refine ⟨c, s', hok, ?_, hi', hrel⟩
  have hdrop := Call.bind_apply_ok (f := fun _ => pure ()) hgen
  simp only [entryRemove, Call.andDrop, hmark]
  simp only [dropEntry, Call.bind_bind_apply, Call.modify_bind_apply]
  exact hdrop

theorem reach_entryRemove {k : Nat} {e : Entry α} (hi : Inv {} s) (hk : HandleAt s.entries k e) :
    ∃ s', entryRemove k e s = (.ok (), s') ∧ Reach ({}, s) ({}, s') ∧ s'.slab = s.slab ∧
      s'.locked = false ∧ s'.poisoned = false ∧ s'.iterMut = s.iterMut ∧
      s'.entries = s.entries.set k none := by
  have hlocked := State.not_locked_of_entry hi.borrows hk
  have hpoison := (hi.borrows.entry_live k e hk).1
  obtain ⟨c, s', hok, hremove, -, hrel⟩ := releases_entryRemove hi hk
  obtain ⟨hlocked', hpoison', hslab', him', hentries', -⟩ := hrel.frame
  exact ⟨s', hremove, .head (.removeEntry hk hok) hrel.reach, hslab', hlocked'.trans hlocked,
    hpoison'.trans hpoison, him', hentries'⟩

theorem reach_dropIterMut {slab : Slab} (hi : Inv {} s) (hslab : s.slab = some slab)
    (hlocked : s.locked = false) (him : s.iterMut.isSome = true) :
    ∃ o s', dropIterMut slab s = (o, s') ∧ Reach ({}, s) ({}, s') ∧ o ≠ .error .blocked ∧
      s'.slab = some { slab with curGen := s.gens.length } ∧ s'.locked = false ∧
      s'.iterMut = none ∧ s'.entries = s.entries := by
  obtain ⟨o, s', hadvance, hreach, -, hnot, hslab', hlocked', him', hentries', -⟩ :=
    reach_advanceGeneration hi hslab hlocked (Or.inl him)
  exact ⟨o, s', hadvance, hreach, hnot, hslab', hlocked', him', hentries'⟩

/-! ### Clearing -/

/-- The state of the loop of `clear` between two rounds: the iterator is the only borrow. -/
structure Clearing (slab : Slab) (s : State α) : Prop where
  inv : Inv {} s
  slab_eq : s.slab = some slab
  locked : s.locked = false
  iterMut : s.iterMut.isSome = true
  entries : ∀ k e, ¬HandleAt s.entries k e

theorem Clearing.clearLoop {slab : Slab} (hc : Clearing slab s) (fuel : Nat) :
    ∃ o s', clearLoop slab fuel s = (o, s') ∧ Reach ({}, s) ({}, s') ∧ Clearing slab s' ∧
      ((∃ u, o = .ok u) ∨ ∃ fault, o = .error (.panicked fault)) := by
  induction fuel generalizing s with
  | zero => exact ⟨_, s, rfl, .refl, hc, Or.inl ⟨(), rfl⟩⟩
  | succ fuel ih =>
    obtain ⟨im, him⟩ := Option.isSome_iff_exists.mp hc.iterMut
    obtain ⟨free, hinv⟩ := hc.inv.pending.cslab
    have hfound := finds_next hinv (hc.inv.borrows.iterMut im him).2.1
    obtain ⟨o, s₁, hyield, hreach, hslab₁, hlocked₁, -, him₁, hcases⟩ :=
      reach_yieldEntry hc.slab_eq him hfound
    have hi₁ := hreach.inv hc.inv
    simp only [RcuCslab.clearLoop, Call.get_bind_apply, him]
    have hnext : iterMutNext slab im s = (o, s₁) := hyield
    rcases hcases with ⟨ho, hentries⟩ | ⟨e, rfl, -, -, hentries⟩
    · -- the iterator is exhausted, or its count of items was wrong
      have hc₁ : Clearing slab s₁ :=
        ⟨hi₁, hslab₁.trans hc.slab_eq, hlocked₁.trans hc.locked, him₁, by
          rw [hentries]; exact hc.entries⟩
      rcases ho with rfl | ⟨fault, rfl⟩
      · exact ⟨_, s₁, Call.bind_apply_ok hnext, hreach, hc₁, Or.inl ⟨(), rfl⟩⟩
      · exact ⟨_, s₁, Call.bind_apply_error hnext, hreach, hc₁, Or.inr ⟨fault, rfl⟩⟩
    · -- the entry is removed at once, and no entry is left
      have hk : HandleAt s₁.entries s.entries.length e := by
        rw [hentries, handleAt_append]
        exact Or.inr ⟨rfl, rfl⟩
      obtain ⟨s₂, hremove, hreach₂, hslab₂, hlocked₂, -, him₂, hentries₂⟩ :=
        reach_entryRemove hi₁ hk
      have hc₂ : Clearing slab s₂ := by
        refine ⟨hreach₂.inv hi₁, hslab₂.trans (hslab₁.trans hc.slab_eq), hlocked₂, ?_, ?_⟩
        · rw [him₂]
          exact him₁
        · intro k e' hk'
          rw [hentries₂] at hk'
          obtain ⟨hne, hk'⟩ := hk'.of_drop
          rw [hentries, handleAt_append] at hk'
          rcases hk' with hk' | ⟨rfl, -⟩
          · exact hc.entries k e' hk'
          · exact hne rfl
      obtain ⟨o, s₃, hloop, hreach₃, hc₃, ho⟩ := ih hc₂
      refine ⟨o, s₃, ?_, hreach.trans (hreach₂.trans hreach₃), hc₃, ho⟩
      rw [Call.bind_apply_ok hnext]
      simp only [Call.bind_apply_ok hremove]
      exact hloop

/-! ### The effect of a call -/

/-- A call that has to wait, or whose effect is a sequence of actions. -/
def Effect {β : Type} (s : State α) (r : Except Interrupt β × State α) : Prop :=
  r.1 = .error .blocked ∨ Reach ({}, s) ({}, r.2)

namespace Effect

variable {β γ : Type} {m : Call (State α) β}

theorem of_reach {r : Except Interrupt β × State α} {o : Except Interrupt β} (hr : r = (o, s'))
    (hreach : Reach ({}, s) ({}, s')) : Effect s r := by
  rw [hr]
  exact Or.inr hreach

theorem map {f : β → γ} (h : Effect s (m s)) : Effect s ((f <$> m) s) := by
  rcases hm : m s with ⟨r, s'⟩
  rw [hm] at h
  cases r with
  | ok b =>
    rw [Call.map_apply_ok hm]
    exact Or.inr (h.resolve_left (by simp))
  | error e =>
    rw [Call.map_apply_error hm]
    rcases h with h | h
    · exact Or.inl (by simpa using h)
    · exact Or.inr h

/-- A call that waits is undone, and an abort is the end. -/
theorem settle {r : Except Interrupt (Ret α) × State α} (h : Effect s r) :
    Reach ({}, s) ({}, (settle s r).2) := by
  rcases settle_cases s r with ⟨-, hsettle⟩ | ⟨ho, hsettle⟩ | ⟨ho, -, hsettle⟩
  · rw [hsettle]
  · rw [hsettle]
    exact (h.resolve_left (by simp [ho])).tail .abort
  · rw [hsettle]
    exact h.resolve_left ho

/-- A look at the storage. -/
theorem read {r : Except RustFault β} : Effect s (Call.liftFault r s) := by
  cases r with
  | ok b => exact Or.inr .refl
  | error fault => exact Or.inr .refl

end Effect

theorem effect_vacantEntry (husable : s.usable = true) : Effect s (vacantEntry s) := by
  have hlocked := (State.usable_iff.mp husable).2.1
  cases hpoison : s.poisoned with
  | true =>
    have hlock : lock s = (.error (.panicked .panic), s) := by simp [lock, hlocked, hpoison]
    exact .of_reach (Call.bind_apply_error hlock) .refl
  | false =>
    have hlock : lock s = (.ok (), { s with locked := true }) := by simp [lock, hlocked, hpoison]
    rw [vacantEntry, Call.bind_apply_ok hlock, Call.get_bind_apply]
    cases hkey : s.cslab.vacantKey with
    | none =>
      have hback : ((do unlock; pure false) : Call (State α) Bool) { s with locked := true } =
          (.ok false, s) := by
        simp only [unlock, Call.modify_bind_apply, Call.pure_apply]
        rw [State.unlocked_eq hlocked]
      exact .of_reach hback .refl
    | some i =>
      exact .of_reach rfl (.single (.lock husable hpoison (by simp [hkey])))

section

variable (hi : Inv {} s)
include hi

theorem effect_insert (husable : s.usable = true) (x : α) : Effect s (insert x s) := by
  rcases insert_eq (x := x) hi (State.usable_iff.mp husable).2.1 with
    ⟨-, h⟩ | ⟨-, -, h⟩ | ⟨i, c, hpoison, hok, h⟩
  · exact .of_reach h (.single .reject)
  · exact .of_reach h (.single .reject)
  · exact .of_reach h (.single (.insert husable hpoison hok))

theorem State.usable_of_locked (hlocked : s.locked = true) :
    State.usable { s with locked := false } = true := by
  obtain ⟨him, hentries, -⟩ := hi.borrows.locked hlocked
  have hslab : s.slab.isSome = true := by
    rw [Option.isSome_iff_ne_none]
    intro hnone
    exact absurd ((hi.borrows.of_dropped hnone).1.symm.trans hlocked) (by simp)
  exact State.usable_iff.mpr ⟨hslab, rfl, him, hentries⟩

theorem vacantEntryKey_eq (hlocked : s.locked = true) :
    ∃ i, s.cslab.vacantKey = some i ∧ vacantEntryKey s = (.ok i, s) := by
  obtain ⟨i, hkey⟩ := Option.isSome_iff_exists.mp (hi.borrows.locked hlocked).2.2.2
  refine ⟨i, hkey, ?_⟩
  simp only [vacantEntryKey, Call.get_bind_apply, hkey, Call.pure_apply]

/-- An insertion through a vacant entry never fails, because the entry was made only when there was
a free slot and has held the mutex since then. -/
theorem vacantEntryInsert_eq (hlocked : s.locked = true) (x : α) :
    ∃ i c, s.cslab.insert x = .ok (some i, c) ∧ vacantEntryInsert x s =
      (.ok i, { s with cslab := c, locked := false, log := s.log ++ [.inserted i x] }) := by
  obtain ⟨free, hinv⟩ := hi.pending.cslab
  rcases insertLocked_eq (x := x) hinv with ⟨-, hfull⟩ | ⟨i, c, hok, hins⟩
  · have hkey := (hi.borrows.locked hlocked).2.2.2
    rw [hfull] at hkey
    exact absurd hkey (by simp)
  · refine ⟨i, c, hok, ?_⟩
    simp only [vacantEntryInsert, underGuard, Call.bind_apply_ok hins, Call.pure_apply, unlock,
      Call.modify_apply]

theorem effect_vacantEntryInsert (hlocked : s.locked = true) (x : α) :
    Effect s (vacantEntryInsert x s) := by
  obtain ⟨i, c, hok, hins⟩ := vacantEntryInsert_eq hi hlocked x
  have hinsert := Action.insert (State.usable_of_locked hi hlocked)
    (hi.borrows.locked hlocked).2.2.1 hok
  exact .of_reach hins (.head .unlock (.single hinsert))

theorem effect_clear {slab : Slab} (husable : s.usable = true) (hslab : s.slab = some slab) :
    Effect s (clear slab s) := by
  obtain ⟨o, s₁, hiter, hreach, hslab₁, hlocked₁, hentries₁, -, hcases⟩ := reach_iterMut husable
  rcases hcases with ⟨rfl, him₁⟩ | ⟨fault, rfl⟩
  swap
  · exact .of_reach (Call.bind_apply_error hiter) hreach
  have hc₁ : Clearing slab s₁ := by
    refine ⟨hreach.inv hi, hslab₁.trans hslab, hlocked₁, him₁, ?_⟩
    rw [hentries₁]
    exact (State.usable_iff.mp husable).2.2.2
  obtain ⟨r, s₂, hloop, hreach₂, hc₂, hr⟩ := hc₁.clearLoop (s₁.cslab.storage.frontier + 1)
  obtain ⟨r', s₃, hdrop, hreach₃, -, hslab₃, hlocked₃, him₃, hentries₃⟩ :=
    reach_dropIterMut hc₂.inv hc₂.slab_eq hc₂.locked hc₂.iterMut
  obtain ⟨o, hbody, -⟩ := Call.andDrop_apply hloop hr hdrop
  rw [clear, Call.bind_apply_ok hiter, Call.get_bind_apply]
  cases o with
  | error e => exact .of_reach (Call.bind_apply_error hbody) (hreach.trans (hreach₂.trans hreach₃))
  | ok u =>
    rw [Call.bind_apply_ok hbody]
    have husable₃ : s₃.usable = true := by
      rw [State.usable_iff, State.Unborrowed, hslab₃, hlocked₃, him₃, hentries₃]
      exact ⟨rfl, rfl, rfl, hc₂.entries⟩
    obtain ⟨s₄, hreader, hreach₄⟩ := reach_reader husable₃ hslab₃
    exact .of_reach hreader (hreach.trans (hreach₂.trans (hreach₃.trans hreach₄)))

theorem effect_readerDrop {k : Nat} {r : Reader} (hk : HandleAt s.readers k r) :
    Effect s (readerDrop k r s) := by
  obtain ⟨o, s', hdrop, hcases⟩ := releases_readerDrop hi hk
  rcases hcases with ⟨-, rfl⟩ | ⟨hrel, -⟩
  · rw [hdrop]
    exact Or.inl rfl
  · exact .of_reach hdrop (.head (.dropReader hk) hrel.reach)

theorem effect_readerIter {k : Nat} {r : Reader} (hk : HandleAt s.readers k r) :
    Effect s (readerIter k r s) := by
  obtain ⟨free, hinv⟩ := hi.pending.cslab
  refine .of_reach rfl (.single (.setIters hk ?_))
  intro it hit
  rcases List.mem_append.mp hit with hit | hit
  · exact hi.borrows.reader_iter k r hk it hit
  · rw [List.mem_singleton] at hit
    subst hit
    exact hinv.frontier_le

theorem effect_readerAdvance {k j : Nat} {r : Reader} {it : Iter}
    {found : Except RustFault (Option (Nat × α) × Iter)} (hk : HandleAt s.readers k r)
    (hj : r.iters[j]? = some it) (hfound : Finds s it found) :
    Effect s (readerAdvance k j r found s) := by
  have htail : ∀ it', Iter.Shrinks it it' → ∀ it'' ∈ r.iters.set j it',
      it''.tail ≤ s.cslab.storage.size := by
    intro it' hshrinks it'' hit
    rcases List.mem_or_eq_of_mem_set hit with hit | rfl
    · exact hi.borrows.reader_iter k r hk it'' hit
    · exact hshrinks.2.trans (hi.borrows.reader_iter k r hk it (List.mem_of_getElem? hj))
  rcases hfound with ⟨it', rfl, hshrinks⟩ | ⟨i, x, it', rfl, hshrinks, -⟩
  · exact .of_reach rfl (.single (.setIters hk (htail it' hshrinks)))
  · exact .of_reach rfl (.single (.setIters hk (htail it' hshrinks)))

end

/-! ### Steps -/

/-- The call panics while the mutex is held: it removes an index without a visible item, or the
holder of a vacant entry panics. -/
def PanicsLocked (s : State α) : Op α → Prop
  | .markRemoved idx | .remove idx => s.poisoned = false ∧ (s.cslab.slot idx).liveItem = none
  | .vacantEntryPanic => True
  | _ => False

theorem Poison.of_usable (husable : s.usable = true) :
    Poison s { s with locked := false, poisoned := true } := by
  obtain ⟨hslab, -, him, hentries⟩ := State.usable_iff.mp husable
  exact .mk hslab him hentries

/-- A removal is one action, or it panics because of the poisoned mutex, or it poisons the mutex. -/
theorem markRemoved_cases {slab : Slab} (idx : Nat) (hi : Inv {} s) (husable : s.usable = true)
    (hslab : s.slab = some slab) :
    markRemoved slab idx s = (.error (.panicked .panic), s) ∨
      (PanicsLocked s (.markRemoved idx) ∧ markRemoved slab idx s =
        (.error (.panicked .panic), { s with locked := false, poisoned := true })) ∨
      ∃ s', markRemoved slab idx s = (.ok (), s') ∧ Action ({}, s) ({}, s') ∧
        s'.usable = true ∧ s'.slab = some slab := by
  rcases markRemovedIn_eq slab.curGen idx hi (State.usable_iff.mp husable).2.1 with
    ⟨-, h⟩ | ⟨hpoison, hnone, h⟩ | ⟨c, hpoison, hok, h⟩
  · exact Or.inl h
  · exact Or.inr (Or.inl ⟨⟨hpoison, hnone⟩, h⟩)
  · exact Or.inr (Or.inr ⟨_, h, .mark husable hpoison hslab hok, husable, hslab⟩)

/-- The effect of a call, or of its panic with the mutex held. -/
def Outcome (s : State α) (op : Op α) (r : Except Interrupt (Ret α) × State α) : Prop :=
  Effect s r ∨ PanicsLocked s op ∧ Poison s r.2 ∧ r.1 ≠ .error .blocked ∧ r.1 ≠ .error .aborted

theorem outcome_markRemoved {slab : Slab} {idx : Nat} (hi : Inv {} s) (husable : s.usable = true)
    (hslab : s.slab = some slab) :
    Outcome s (.markRemoved idx) (((fun _ => .unit) <$> markRemoved slab idx) s) := by
  rcases markRemoved_cases idx hi husable hslab with h | ⟨hpanics, h⟩ | ⟨s', h, hact, -⟩
  · exact Or.inl (.map (.of_reach h .refl))
  · rw [Call.map_apply_error h]
    exact Or.inr ⟨hpanics, .of_usable husable, by simp, by simp⟩
  · exact Or.inl (.map (.of_reach h (.single hact)))

theorem outcome_remove {slab : Slab} {idx : Nat} (hi : Inv {} s) (husable : s.usable = true)
    (hslab : s.slab = some slab) :
    Outcome s (.remove idx) ((.handle <$> remove slab idx) s) := by
  rcases markRemoved_cases idx hi husable hslab with
    h | ⟨hpanics, h⟩ | ⟨s₁, h, hact, husable₁, hslab₁⟩
  · exact Or.inl (.map (.of_reach (Call.bind_apply_error h) .refl))
  · have hremove : remove slab idx s = (.error (.panicked .panic), _) := Call.bind_apply_error h
    rw [Call.map_apply_error hremove]
    exact Or.inr ⟨hpanics, .of_usable husable, by simp, by simp⟩
  · obtain ⟨o, s₂, hsched, hreach⟩ := reach_scheduleFinalization (hact.inv hi) husable₁ hslab₁
    exact Or.inl (.map (.of_reach ((Call.bind_apply_ok h).trans hsched) (.head hact hreach)))

theorem outcome_iterMutNext {slab : Slab} {im : IterMut} (hi : Inv {} s)
    (hslab : s.slab = some slab) (him : s.iterMut = some im) :
    Effect s (iterMutNext slab im s) ∧ Effect s (iterMutNextBack slab im s) := by
  obtain ⟨free, hinv⟩ := hi.pending.cslab
  have htail := (hi.borrows.iterMut im him).2.1
  obtain ⟨o, s', hnext, hreach, -⟩ := reach_yieldEntry hslab him (finds_next hinv htail)
  obtain ⟨o', s'', hback, hreach', -⟩ := reach_yieldEntry hslab him (finds_nextBack hinv htail)
  exact ⟨.of_reach hnext hreach, .of_reach hback hreach'⟩

theorem effect_dropIterMut {slab : Slab} {im : IterMut} (hi : Inv {} s)
    (hslab : s.slab = some slab) (him : s.iterMut = some im) : Effect s (dropIterMut slab s) := by
  have hlocked : s.locked = false := by
    rw [← Bool.not_eq_true]
    intro hlocked
    exact absurd (him.symm.trans (hi.borrows.locked hlocked).1) (by simp)
  obtain ⟨o, s', hdrop, hreach, -⟩ := reach_dropIterMut hi hslab hlocked (by simp [him])
  exact .of_reach hdrop hreach

/-- Every call of the interface, one case for each operation: it has the effect of a sequence of
actions, or it panics with the mutex held and poisons it. -/
theorem call_outcome {op : Op α} {m : Call (State α) (Ret α)} (hi : Inv {} s)
    (hcall : call s op = some m) : Outcome s op (m s) := by
  obtain ⟨free, hinv⟩ := hi.pending.cslab
  cases allowed_of_call hcall with
  | len husable | allocated husable | vacantKey husable =>
    exact Or.inl (.map (.of_reach (withLock_read (State.usable_iff.mp husable).2.1) .refl))
  | get | readerGet | readerContainsKey => exact Or.inl (.map .read)
  | insert husable => exact Or.inl (.map (effect_insert hi husable _))
  | markRemoved husable hslab => exact outcome_markRemoved hi husable hslab
  | reader husable =>
    obtain ⟨slab, hslab⟩ := Option.isSome_iff_exists.mp (State.usable_iff.mp husable).1
    obtain ⟨s', hreader, hreach⟩ := reach_reader husable hslab
    exact Or.inl (.map (.of_reach hreader hreach))
  | scheduleFinalization husable hslab =>
    obtain ⟨o, s', hsched, hreach⟩ := reach_scheduleFinalization hi husable hslab
    exact Or.inl (.map (.of_reach hsched hreach))
  | remove husable hslab => exact outcome_remove hi husable hslab
  | clear husable hslab => exact Or.inl (.map (effect_clear hi husable hslab))
  | drop husable hslab =>
    obtain ⟨o, s', hdrop, hreach, -⟩ := reach_dropSlab hi husable hslab
    exact Or.inl (.map (.of_reach hdrop hreach))
  | vacantEntry husable => exact Or.inl (.map (effect_vacantEntry husable))
  | vacantEntryKey hlocked =>
    obtain ⟨i, -, hkey⟩ := vacantEntryKey_eq hi hlocked
    exact Or.inl (.map (.of_reach hkey .refl))
  | vacantEntryInsert hlocked => exact Or.inl (.map (effect_vacantEntryInsert hi hlocked _))
  | vacantEntryDrop => exact Or.inl (.map (.of_reach rfl (.single .unlock)))
  | vacantEntryPanic hlocked =>
    obtain ⟨hslab, -, him, hentries⟩ := State.usable_iff.mp (State.usable_of_locked hi hlocked)
    exact Or.inr ⟨trivial, .mk hslab him hentries, nofun, nofun⟩
  | iterMut husable =>
    obtain ⟨o, s', hiter, hreach, -⟩ := reach_iterMut husable
    exact Or.inl (.map (.of_reach hiter hreach))
  | iterMutNext hslab him => exact Or.inl (.map (outcome_iterMutNext hi hslab him).1)
  | iterMutNextBack hslab him => exact Or.inl (.map (outcome_iterMutNext hi hslab him).2)
  | iterMutDrop hslab him => exact Or.inl (.map (effect_dropIterMut hi hslab him))
  | entryRemove hk =>
    obtain ⟨s', hremove, hreach, -⟩ := reach_entryRemove hi hk
    exact Or.inl (.map (.of_reach hremove hreach))
  | entryDrop hk =>
    obtain ⟨s', hdrop, hrel⟩ := releases_dropEntry hi hk
    exact Or.inl (.map (.of_reach hdrop (.head (.dropEntry hk) hrel.reach)))
  | readerClone hh =>
    have hadd := Action.addReader (Or.inr ⟨_, _, hh, rfl⟩)
    exact Or.inl (.map (.of_reach addReader_eq (.single hadd)))
  | readerDrop hh => exact Or.inl (.map (effect_readerDrop hi hh))
  | readerIter hh => exact Or.inl (.map (effect_readerIter hi hh))
  | readerNext hh hit =>
    have htail := hi.borrows.reader_iter _ _ hh _ (List.mem_of_getElem? hit)
    exact Or.inl (.map (effect_readerAdvance hi hh hit (finds_next hinv htail)))
  | readerNextBack hh hit =>
    have htail := hi.borrows.reader_iter _ _ hh _ (List.mem_of_getElem? hit)
    exact Or.inl (.map (effect_readerAdvance hi hh hit (finds_nextBack hinv htail)))

/-- **One step** from a state with the invariant is a sequence of actions, or poisons the mutex by a
panic of its holder. No step faults in any other way. What actions keep is kept by all calls. -/
theorem step_effect {op : Op α} {o : Except Interrupt (Ret α)} (hi : Inv {} s)
    (hstep : step s op = some (o, s')) :
    Reach ({}, s) ({}, s') ∨ PanicsLocked s op ∧ Poison s s' := by
  rw [step] at hstep
  split_ifs at hstep
  obtain ⟨m, hcall, hsettle⟩ := Option.map_eq_some_iff.mp hstep
  have hs' : (settle s (m s)).2 = s' := by rw [hsettle]
  rcases call_outcome hi hcall with heffect | ⟨hpanics, hpoison, hblocked, haborted⟩
  · exact Or.inl (hs' ▸ heffect.settle)
  · refine Or.inr ⟨hpanics, ?_⟩
    have hresult : settle s (m s) = m s := by
      rcases hm : m s with ⟨r, t⟩
      rw [hm] at hblocked haborted
      match r with
      | .ok ret => rfl
      | .error (.panicked fault) => rfl
      | .error .blocked => exact absurd rfl hblocked
      | .error .aborted => exact absurd rfl haborted
    rw [← hs', hresult]
    exact hpoison

theorem step_inv {op : Op α} {o : Except Interrupt (Ret α)} (hi : Inv {} s)
    (hstep : step s op = some (o, s')) : Inv {} s' := by
  rcases step_effect hi hstep with hreach | ⟨-, hpoison⟩
  · exact hreach.inv hi
  · exact hpoison.inv hi

/-- One step, with its call and its outcome. -/
def Step (s : State α) (e : Op α × Except Interrupt (Ret α)) (s' : State α) : Prop :=
  step s e.1 = some (e.2, s')

/-- A run, with the calls and their outcomes. -/
abbrev Run (s : State α) (es : List (Op α × Except Interrupt (Ret α))) (s' : State α) : Prop :=
  ZprUtils.Steps Step s es s'

theorem Run.of_runOps {ops : List (Op α)} {rs : List (Except Interrupt (Ret α))}
    (h : runOps step s ops = some (rs, s')) : Run s (ops.zip rs) s' :=
  Steps.of_runOps h

theorem Run.inv {es : List (Op α × Except Interrupt (Ret α))} (hrun : Run s es s')
    (hi : Inv {} s) : Inv {} s' :=
  Steps.invariant (fun _ _ _ hi hstep => step_inv hi hstep) hrun hi

/-- **The invariant holds after every run** of calls from a new slab, however they end. The results
of the calls, panics included, are part of the run. -/
theorem inv_of_run {t : Layout} {capacity : Nat} {es : List (Op α × Except Interrupt (Ret α))}
    (hnew : withFixedCapacity .memory t capacity = .ok s) (hrun : Run s es s') : Inv {} s' :=
  hrun.inv (inv_withFixedCapacity hnew)

/-- What `f` sees of a run of the calls `ops` on a new slab. -/
def observe {β : Type} (t : Layout) (capacity : Nat) (ops : List (Op α))
    (f : List (Except Interrupt (Ret α)) × State α → β) : Option β :=
  (withFixedCapacity .memory t capacity).toOption.bind fun s => (runOps step s ops).map f

theorem exists_run_of_observe {β : Type} {t : Layout} {capacity : Nat} {ops : List (Op α)}
    {f : List (Except Interrupt (Ret α)) × State α → β} {b : β}
    (h : observe t capacity ops f = some b) :
    ∃ s₀ rs s, withFixedCapacity .memory t capacity = .ok s₀ ∧ runOps step s₀ ops = some (rs, s) ∧
      f (rs, s) = b := by
  obtain ⟨s₀, hnew, hrun⟩ := Option.bind_eq_some_iff.mp h
  obtain ⟨⟨rs, s⟩, hrun, hf⟩ := Option.map_eq_some_iff.mp hrun
  exact ⟨s₀, rs, s, except_toOption_eq_some.mp hnew, hrun, hf⟩

end ZprUtils.RcuCslab
