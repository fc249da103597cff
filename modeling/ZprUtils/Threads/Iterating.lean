import ZprUtils.Threads.Borrowing

/-!
# Mutable iterations over a step

While a mutable iteration is in progress its entries are spread over the threads, and other threads
finalize removals. A finalization takes an item that nobody sees, and the removal of an entry takes
one that the iterator has passed; so what is left of the iteration stays what the iterator counted.

## Main results

* `Move.consistent` — every move keeps what the program points of the threads say.
* `Move.iteration` — every move keeps the facts about iterations and vacant entries.
-/

namespace ZprUtils

/-! ### Changes of the slab -/

namespace Cslab

variable {α : Type} {s c : Cslab α} {free : List Nat} {i : Nat} {x : α}

/-- A finalization takes an item that nobody sees. -/
theorem Inv.view_of_finalizeRemove (h : s.Inv free) (hok : s.finalizeRemove i = .ok (x, c)) :
    s.SameView c ∧ c.inUse = s.inUse := by
  obtain ⟨hpending, -⟩ := h.of_finalizeRemove hok
  obtain ⟨c', hok', -, hslot, hsize, hfrontier, hbitmap, huse, -⟩ := h.finalizeRemove_eq_ok hpending
  rw [hok', Except.ok.injEq, Prod.mk.injEq] at hok
  obtain ⟨-, rfl⟩ := hok
  refine ⟨⟨hsize, hfrontier, hbitmap, fun j => ?_⟩, huse⟩
  by_cases hj : j = i
  · rw [hj, hslot, Function.update_self, hpending]
    rfl
  · rw [hslot, Function.update_of_ne hj]

/-- A mark of a slot that the iterator has passed. -/
theorem left_of_markRemoved {it : Iter} (h : s.Inv free) (hok : s.markRemoved i = .ok c)
    (hpassed : ¬it.Covers i) : c.left it = s.left it := by
  obtain ⟨x, -, hinv, hslot, -⟩ := h.of_markRemoved hok
  rw [left, left]
  congr 1
  refine List.filter_congr fun j hj => ?_
  have hcovers := List.mem_range'_1.mp hj
  have hji : j ≠ i := by
    rintro rfl
    exact hpassed ⟨hcovers.1, by omega⟩
  rw [hinv.bit_eq_isSome, h.bit_eq_isSome, hslot, Function.update_of_ne hji]

end Cslab

namespace RcuCslab

variable {α : Type} {c : Config α} {t u : Nat} {th uh : Thread α} {p : Site α}

/-! ### Threads that wait for another one -/

theorem Pc.exclusive_of_starting {pc : Pc α} (h : pc.starting = true) : pc.Exclusive := by
  cases pc with
  | iterMutLocked clear | iterMutUnlock clear n | startIter clear n =>
    cases clear
    · exact Or.inl rfl
    · exact Or.inr rfl
  | _ => exact absurd h (by simp [Pc.starting])

theorem Pc.starting_of_counted {pc : Pc α} {n : Nat} (h : pc.counted = some n) :
    pc.starting = true := by
  cases pc with
  | iterMutUnlock clear m | startIter clear m => rfl
  | _ => exact absurd h (by simp [Pc.counted])

/-- At most one thread has the guard of the mutex, and a vacant entry counts as a guard that no call
has. -/
theorem guards_add_le (hi : ThreadInv c) (ht : c.ThreadAt t th) (hu : c.ThreadAt u uh)
    (hne : u ≠ t) : th.guards + uh.guards + c.vacant.isSome.toNat ≤ 1 := by
  have hle := add_le_total (w := Thread.guards) ht hu (Ne.symm hne)
  have hguards := hi.guards
  have hbool := c.state.locked.toNat_le
  omega

theorem guards_le (hi : ThreadInv c) (ht : c.ThreadAt t th) :
    th.guards + c.vacant.isSome.toNat ≤ 1 := by
  have hle := le_total (w := Thread.guards) ht
  have hguards := hi.guards
  have hbool := c.state.locked.toNat_le
  omega

/-- While a thread borrows the slab exclusively, the other threads run destructors, which neither
poison the mutex nor change the iterator nor what the slab shows. -/
theorem Move.frame_of_exclusive (h : Move c t th p) (hi : ThreadInv c) (ht : c.ThreadAt t th)
    (hu : c.ThreadAt u uh) (hne : u ≠ t) (hex : uh.pc.Exclusive) :
    p.state.poisoned = c.state.poisoned ∧ p.state.iterMut = c.state.iterMut ∧
      p.state.cslab.len = c.state.cslab.len ∧
      (0 < uh.guards → p.state.cslab = c.state.cslab) := by
  have hborrow : uh.pc.borrow ≠ none := by rcases hex with hb | hb <;> rw [hb] <;> simp
  obtain ⟨hothers, hentries⟩ := hi.loans.exclusive u uh hu hex
  have hidle : th.pc = .idle := Pc.borrow_eq_none.mp (hothers t th ht (Ne.symm hne))
  have hv := hi.loans.vacant_of_borrow hu hborrow
  have hiteration : c.state.iterMut ≠ none → c.iterable = true → False := by
    intro him hiterable
    obtain ⟨-, -, hall⟩ := hi.loans.of_iteration (Or.inl ⟨him, hiterable⟩)
    rcases hall u uh hu with hb | hb <;> rcases hex with hb' | hb' <;> simp_all
  cases h with
  | storage | storageLast | writer | writerLast | gen | genLast | finalize | finalized | leak
  | dropItem | dropFields | newReader | readerDrop | setIters =>
    exact ⟨rfl, rfl, rfl, fun _ => rfl⟩
  | finalizing hfinalize =>
    obtain ⟨free, hc⟩ := hi.removals.cslab
    refine ⟨rfl, rfl, (hc.view_of_finalizeRemove hfinalize).2, fun hguard => ?_⟩
    have hle := guards_add_le hi ht hu hne
    simp only [Thread.guards, total_cons, Drop.guards] at hle hguard
    omega
  | lock hpc | unlock hpc =>
    obtain rfl := hidle
    exact absurd hpc (by simp [Pc.locks, Pc.unlocks])
  | unwind hpc =>
    obtain rfl := hidle
    exact absurd hpc (by simp [Pc.waiting])
  | advance hpc =>
    obtain rfl := hidle
    cases hpc
  | observe hsharable =>
    obtain ⟨-, -, -, -, hall⟩ := Config.sharable_spec hsharable
    rcases hall u uh hu with hb | hb <;> rcases hex with hb' | hb' <;> simp_all
  | enter husable hpc =>
    obtain ⟨-, -, hnone, -⟩ := Config.usable_spec (t := t) husable
    exact absurd (hnone u uh hu) hborrow
  | dropSlab husable hslab =>
    obtain ⟨-, -, hnone, -⟩ := Config.usable_spec (t := t) husable
    exact absurd (hnone u uh hu) hborrow
  | fillVacant hv' | dropVacant hv' | panicVacant hv' =>
    exact absurd (hv'.symm.trans hv) (by simp)
  | iterNone hiterable him hnext | iterNext hiterable hslab him hnext hgen halive =>
    exact (hiteration (by rw [him]; simp) hiterable).elim
  | iterDrop hiterable him =>
    exact (hiteration (fun hnone => by simp [hnone] at him) hiterable).elim
  | @entryRemove u k e hk | @entryDrop u k e hk => exact absurd hk (hentries k e)
  | full | reserve | insert | reject | mark | poison | record | count | startIter | exhaust
  | clearNext | ret => exact absurd hidle (by simp)

/-- **The other threads** stay consistent. What a program point says about the slab is protected by
the mutex or by the borrow of the call, so that a move of another thread cannot touch it. -/
theorem Move.consistent_other (h : Move c t th p) (hi : ThreadInv c) (ht : c.ThreadAt t th)
    (hu : c.ThreadAt u uh) (hne : u ≠ t) (hpoison : c.state.poisoned = true →
      p.state.poisoned = true) : uh.Consistent p.state := by
  have hcons := hi.iteration.threads u uh hu
  have hframe := fun hex => h.frame_of_exclusive hi ht hu hne hex
  refine ⟨fun x hx => ?_, fun hs => ?_, fun n hn => ?_, fun hb => ?_, fun hu => ?_,
    hcons.dropping⟩
  · obtain ⟨-, -, -, hcslab⟩ := hframe (Or.inl (by rw [hx]; rfl))
    rw [hcslab (by simp [Thread.guards, hx, Pc.guards])]
    exact hcons.insert x hx
  · rw [(hframe (Pc.exclusive_of_starting hs)).1]
    exact hcons.starting hs
  · rw [(hframe (Pc.exclusive_of_starting (Pc.starting_of_counted hn))).2.2.1]
    exact hcons.counted n hn
  · rw [(hframe (Or.inr hb)).2.1]
    exact hcons.clear hb
  · obtain ⟨hp, habandoned⟩ := hcons.unwinding hu
    exact ⟨hpoison hp, habandoned⟩

/-! ### The thread that moves -/

/-- A program point that says nothing about the slab outside of `clear`. -/
def Pc.plain : Pc α → Bool
  | .insertLocked true _ | .iterMutLocked _ | .iterMutUnlock _ _ | .startIter _ _ => false
  | _ => true

section

variable {pc pc' : Pc α} {ds : List (Drop α)} {b : Bool} {s : State α}

theorem Pc.plain_of_quiet (h : pc.quiet = true) : pc.plain = true := by
  cases pc <;> first | rfl | exact absurd h (by simp [Pc.quiet])

theorem Pc.unwind_spec (pc : Pc α) : pc.unwind.2.quiet = true ∧ pc.unwind.2.abandoned = true ∧
    pc.unwind.2.iterating = pc.iterating := by
  cases pc with
  | mark m idx | markLocked m idx | markUnlock m idx | record m idx =>
    cases m <;> exact ⟨rfl, rfl, rfl⟩
  | _ => exact ⟨rfl, rfl, rfl⟩

/-- A thread that unwinds has no entry left. -/
theorem Pc.weights_of_abandoned (h : pc.abandoned = true) :
    (∀ i, pc.marks i = 0) ∧ (∀ g, pc.genRefs g = 0) ∧ pc.closing = 0 := by
  cases pc with
  | idle | dropIterMut | ret b => exact ⟨fun _ => rfl, fun _ => rfl, rfl⟩
  | _ => exact absurd h (by simp [Pc.abandoned])

theorem Pc.iterating_of_locks (h : pc.locks = some pc') :
    pc'.iterating = pc.iterating ∧ pc.abandoned = false := by
  cases pc with
  | mark m idx =>
    obtain rfl := Option.some.inj h
    cases m <;> exact ⟨rfl, rfl⟩
  | observe | insert x | iterMut clear =>
    obtain rfl := Option.some.inj h
    exact ⟨rfl, rfl⟩
  | _ => exact absurd h (by simp [Pc.locks])

theorem Pc.iterating_of_unlocks (h : pc.unlocks = some pc') :
    pc'.iterating = pc.iterating ∧ pc.abandoned = false := by
  cases pc with
  | markUnlock m idx =>
    obtain rfl := Option.some.inj h
    cases m <;> exact ⟨rfl, rfl⟩
  | observed | unlock | iterMutUnlock clear n =>
    obtain rfl := Option.some.inj h
    exact ⟨rfl, rfl⟩
  | _ => exact absurd h (by simp [Pc.unlocks])

/-- A thread at a plain program point. -/
theorem consistent_of_plain (hplain : pc.plain = true)
    (hclear : pc.borrow = some .clear → s.iterMut.isSome = pc.iterating)
    (hunwinding : b = true → s.poisoned = true ∧ pc.abandoned = true)
    (hdrops : ds ≠ [] → pc.quiet = true) : (⟨ds, pc, b⟩ : Thread α).Consistent s := by
  have hstarting : pc.starting = false := by
    cases pc <;> first | rfl | exact absurd hplain (by simp [Pc.plain])
  refine ⟨?_, ?_, ?_, hclear, hunwinding, hdrops⟩
  · rintro x rfl
    exact absurd hplain (by simp [Pc.plain])
  · intro hs
    exact absurd (hs.symm.trans hstarting) (by simp)
  · intro n hn
    exact absurd ((Pc.starting_of_counted hn).symm.trans hstarting) (by simp)

end

/-- **The thread that moves** stays consistent: what its new program point says about the slab is
what the move has just done, or what its old one said. -/
theorem Move.consistent_self (h : Move c t th p) (hi : ThreadInv c) (ht : c.ThreadAt t th) :
    p.thread.Consistent p.state := by
  have hcons := hi.iteration.threads t th ht
  cases h with
  | storage | storageLast | writer | writerLast | gen | genLast | finalize | finalizing | finalized
  | dropItem | dropFields =>
    have hquiet := hcons.dropping (List.cons_ne_nil _ _)
    exact consistent_of_plain (Pc.plain_of_quiet hquiet) hcons.clear hcons.unwinding
      fun _ => hquiet
  | @leak ds pc g indices next hpoison =>
    obtain ⟨hquiet, habandoned, hiterating⟩ := pc.unwind_spec
    refine consistent_of_plain (Pc.plain_of_quiet hquiet) (fun hb => ?_)
      (fun _ => ⟨hpoison, habandoned⟩) fun _ => hquiet
    rw [hiterating]
    exact hcons.clear (pc.borrow_unwind ▸ hb)
  | @unwind pc log hpc hpoison hlog =>
    obtain ⟨hquiet, habandoned, hiterating⟩ := pc.unwind_spec
    refine consistent_of_plain (Pc.plain_of_quiet hquiet) (fun hb => ?_)
      (fun _ => ⟨hpoison, habandoned⟩) fun _ => hquiet
    rw [hiterating]
    exact hcons.clear (pc.borrow_unwind ▸ hb)
  | @lock pc pc' u hpc hlocked hpoison =>
    obtain ⟨hiterating, habandoned⟩ := Pc.iterating_of_locks hpc
    refine ⟨fun x hx => ?_, fun _ => hpoison, fun n hn => ?_, fun hb => ?_, fun hu => ?_,
      fun hne => absurd rfl hne⟩
    · cases pc <;> simp [Pc.locks] at hpc <;> subst hpc <;> simp at hx
    · cases pc <;> simp [Pc.locks] at hpc <;> subst hpc <;> simp [Pc.counted] at hn
    · exact hiterating ▸ hcons.clear (Pc.borrow_of_locks hpc ▸ hb)
    · exact absurd (habandoned.symm.trans (hcons.unwinding hu).2) (by simp)
  | @unlock pc pc' u hpc =>
    obtain ⟨hiterating, habandoned⟩ := Pc.iterating_of_unlocks hpc
    refine ⟨fun x hx => ?_, fun hs => ?_, fun n hn => ?_, fun hb => ?_, fun hu => ?_,
      fun hne => absurd rfl hne⟩
    · cases pc <;> simp [Pc.unlocks] at hpc <;> subst hpc <;> simp at hx
    · refine hcons.starting ?_
      cases pc <;> simp [Pc.unlocks] at hpc <;> subst hpc <;> first | rfl | exact hs
    · refine hcons.counted n ?_
      cases pc <;> simp [Pc.unlocks] at hpc <;> subst hpc <;> exact hn
    · rcases Pc.borrow_of_unlocks hpc with hnone | hsame
      · exact absurd (hb.symm.trans hnone) (by simp)
      · exact hiterating ▸ hcons.clear (hsame ▸ hb)
    · exact absurd (habandoned.symm.trans (hcons.unwinding hu).2) (by simp)
  | full | insert | reject =>
    refine consistent_of_plain rfl (fun hb => absurd hb (by simp [Pc.borrow])) (fun hu => ?_)
      fun hne => absurd rfl hne
    exact absurd (hcons.unwinding hu).2 (by simp [Pc.abandoned])
  | reserve =>
    refine consistent_of_plain rfl (fun hb => absurd hb (by simp [Pc.borrow])) (fun hu => ?_)
      fun hne => absurd rfl hne
    exact absurd (hcons.unwinding hu).2 (by simp [Pc.abandoned])
  | @mark u m idx cslab hmark =>
    refine consistent_of_plain rfl (fun hb => ?_) (fun hu => ?_) fun hne => absurd rfl hne
    · have hclear := hcons.clear hb
      cases m <;> exact hclear
    · exact absurd (hcons.unwinding hu).2 (by simp [Pc.abandoned])
  | poison hm hbit =>
    refine consistent_of_plain rfl (fun hb => absurd hb (by simp [Pc.borrow])) (fun _ => ?_)
      fun hne => absurd rfl hne
    exact ⟨rfl, rfl⟩
  | @record u m idx g x htarget hx halive =>
    refine consistent_of_plain ?_ (fun hb => ?_) (fun hu => ?_) fun hne => ?_
    · cases m <;> rfl
    · have hclear := hcons.clear
      cases m <;> first | exact hclear rfl | exact absurd hb (by simp [MarkFor.next, Pc.borrow])
    · exact absurd (hcons.unwinding hu).2 (by simp [Pc.abandoned])
    · cases m <;> first | rfl | exact absurd rfl hne
  | @count u clear =>
    refine ⟨fun x hx => absurd hx (by simp), fun _ => hcons.starting rfl, fun n hn => ?_,
      hcons.clear, fun hu => ?_, fun hne => absurd rfl hne⟩
    · exact (Option.some.inj hn).symm
    · exact absurd (hcons.unwinding hu).2 (by simp [Pc.abandoned])
  | @startIter u clear remaining =>
    refine consistent_of_plain ?_ (fun hb => ?_) (fun hu => ?_) fun hne => absurd rfl hne
    · cases clear <;> rfl
    · cases clear with
      | false => exact absurd hb (by simp [Pc.borrow])
      | true => rfl
    · exact absurd (hcons.unwinding hu).2 (by simp [Pc.abandoned])
  | exhaust him hnext =>
    refine consistent_of_plain rfl (fun _ => rfl) (fun hu => ?_) fun hne => absurd rfl hne
    exact absurd (hcons.unwinding hu).2 (by simp [Pc.abandoned])
  | clearNext hslab him hnext hgen halive =>
    refine consistent_of_plain rfl (fun _ => rfl) (fun hu => ?_) fun hne => absurd rfl hne
    exact absurd (hcons.unwinding hu).2 (by simp [Pc.abandoned])
  | @advance pc pc' u slab x im hpc him hslab hx =>
    refine consistent_of_plain ?_ (fun hb => ?_) (fun hu => ?_) fun _ => ?_
    · cases hpc <;> rfl
    · rw [him]
      cases hpc <;> first | rfl | exact absurd hb (by simp [Pc.borrow])
    · refine ⟨(hcons.unwinding hu).1, ?_⟩
      have habandoned := (hcons.unwinding hu).2
      cases hpc with
      | call | dropIter => exact absurd habandoned (by simp [Pc.abandoned])
      | clear => exact absurd hu (by simp)
      | unwound => rfl
    · cases hpc <;> rfl
  | newReader hg hgen halive =>
    exact consistent_of_plain rfl (fun hb => absurd hb (by simp [Pc.borrow]))
      (fun hu => ⟨(hcons.unwinding hu).1, rfl⟩) fun hne => absurd rfl hne
  | ret =>
    exact consistent_of_plain rfl (fun hb => absurd hb (by simp [Pc.borrow]))
      (fun hu => ⟨(hcons.unwinding hu).1, rfl⟩) fun hne => absurd rfl hne
  | iterNone | iterNext | setIters =>
    exact consistent_of_plain rfl (fun hb => absurd hb (by simp [Pc.borrow]))
      (fun hu => ⟨(hcons.unwinding hu).1, rfl⟩) fun hne => absurd rfl hne
  | panicVacant hv =>
    exact consistent_of_plain rfl (fun hb => absurd hb (by simp [Pc.borrow]))
      (fun _ => ⟨rfl, rfl⟩) fun hne => absurd rfl hne
  | observe | iterDrop | entryRemove | dropVacant =>
    exact consistent_of_plain rfl (fun hb => absurd hb (by simp [Pc.borrow, MarkFor.borrow]))
      (fun hu => absurd hu (by simp)) fun hne => absurd rfl hne
  | entryDrop | readerDrop | dropSlab =>
    exact consistent_of_plain rfl (fun hb => absurd hb (by simp [Pc.borrow]))
      (fun hu => absurd hu (by simp)) fun _ => rfl
  | @enter pc u husable hpc =>
    obtain ⟨-, -, -, hsole⟩ := Config.usable_spec (t := t) husable
    refine consistent_of_plain ?_ (fun hb => ?_) (fun hu => absurd hu (by simp))
      fun hne => absurd rfl hne
    · cases pc <;> first | rfl | exact absurd hpc (by simp [Pc.entersCall])
    · rw [hsole.iterMut]
      cases pc with
      | iterMut clear => rfl
      | mark m idx => cases m <;> first | rfl | exact absurd hpc (by simp [Pc.entersCall])
      | clearLoop | dropIterMut | markLocked m idx | markUnlock m idx | record m idx =>
        exact absurd hpc (by simp [Pc.entersCall])
      | _ => rfl
  | fillVacant hv =>
    refine ⟨fun x _ => (hi.iteration.reserved t hv).2, fun hs => absurd hs (by simp [Pc.starting]),
      fun n hn => absurd hn (by simp [Pc.counted]), fun hb => absurd hb (by simp [Pc.borrow]),
      fun hu => absurd hu (by simp), fun hne => absurd rfl hne⟩

/-- The mutex stays poisoned. -/
theorem Move.poisoned (h : Move c t th p) (hp : c.state.poisoned = true) :
    p.state.poisoned = true := by
  cases h <;> first | exact hp | rfl

/-- **Program points.** Every move keeps what they say about the slab, for the thread that moves and
for all others. -/
theorem Move.consistent (h : Move c t th p) (hi : ThreadInv c) (ht : c.ThreadAt t th)
    (hu : (c.place t p).ThreadAt u uh) : uh.Consistent (c.place t p).state := by
  rcases (threadAt_place ht).mp hu with ⟨-, rfl⟩ | ⟨hne, hu⟩
  · exact h.consistent_self hi ht
  · exact h.consistent_other hi ht hu hne h.poisoned

/-! ### What a move changes -/

/-- Where a move changes the slab. -/
theorem Move.cslab_cases (h : Move c t th p) : p.state.cslab = c.state.cslab ∨
    (∃ i x, c.state.cslab.finalizeRemove i = .ok (x, p.state.cslab) ∧ 0 < th.guards) ∨
    (∃ unwrap x i, th.pc = .insertLocked unwrap x ∧
      c.state.cslab.insert x = .ok (some i, p.state.cslab)) ∨
    ∃ m i, th.pc = .markLocked m i ∧ p.thread.pc = .markUnlock m i ∧
      p.state.entries = c.state.entries ∧ c.state.cslab.markRemoved i = .ok p.state.cslab := by
  cases h with
  | finalizing hfinalize =>
    refine Or.inr (Or.inl ⟨_, _, hfinalize, ?_⟩)
    simp only [Thread.guards, total_cons, Drop.guards]
    omega
  | insert hinsert => exact Or.inr (Or.inr (Or.inl ⟨_, _, _, rfl, hinsert⟩))
  | mark hmark => exact Or.inr (Or.inr (Or.inr ⟨_, _, rfl, rfl, rfl, hmark⟩))
  | _ => exact Or.inl rfl

/-- Where a move changes the iterator of a mutable iteration. -/
theorem Move.iterMut_cases (h : Move c t th p) : p.state.iterMut = c.state.iterMut ∨
    p.state.iterMut = none ∨ (∃ clear n, th.pc = .startIter clear n) ∨
    ∃ im e item it n, c.state.iterMut = some im ∧
      im.iter.advance c.state.cslab.storage e = .ok (item, it) ∧
      p.state.iterMut = some ⟨it, n⟩ := by
  cases h with
  | startIter => exact Or.inr (Or.inr (Or.inl ⟨_, _, rfl⟩))
  | exhaust him hnext | iterNone hiterable him hnext =>
    exact Or.inr (Or.inr (Or.inr ⟨_, _, _, _, _, him, hnext, rfl⟩))
  | clearNext hslab him hnext hgen halive | iterNext hiterable hslab him hnext hgen halive =>
    exact Or.inr (Or.inr (Or.inr ⟨_, _, _, _, _, him, hnext, rfl⟩))
  | iterDrop => exact Or.inr (Or.inl rfl)
  | @advance pc pc' u slab x im hpc him hslab hx =>
    by_cases hiterating : pc.iterating = true
    · exact Or.inr (Or.inl (by rw [him, if_pos hiterating]))
    · exact Or.inl (by rw [him, if_neg hiterating])
  | _ => exact Or.inl rfl

/-- No call is in progress except one that unwinds. -/
structure Config.Still (c : Config α) : Prop where
  vacant : c.vacant = none
  iterMut : c.state.iterMut = none
  entries : c.NoEntries
  threads : ∀ u uh, c.ThreadAt u uh → uh.pc = .idle ∨ uh.pc = .ret .call

/-- The mutex is poisoned only when nothing of an iteration is left. -/
theorem Move.poisoned_cases (h : Move c t th p) (hi : ThreadInv c) (ht : c.ThreadAt t th) :
    p.state.poisoned = c.state.poisoned ∨ (c.place t p).Still := by
  have hstill : c.Sole t → p.vacant = none → p.state.iterMut = c.state.iterMut →
      p.state.entries = c.state.entries → p.thread.pc = .idle ∨ p.thread.pc = .ret .call →
      (c.place t p).Still := by
    intro hsole hv him hentries hpc
    have hsole' := hsole.place ht (him.trans hsole.iterMut) hentries
    refine ⟨hv, hsole'.iterMut, hsole'.entries, fun u uh hu => ?_⟩
    rcases (threadAt_place ht).mp hu with ⟨-, rfl⟩ | ⟨hne, hu⟩
    · exact hpc
    · exact Or.inl (Pc.borrow_eq_none.mp (hsole.others u uh hu hne))
  cases h with
  | @poison m idx hm hbit =>
    have hcall : (Pc.markLocked m idx : Pc α).borrow = some .call := by
      cases m with
      | markRemoved | remove => rfl
      | entry g | clear g => exact absurd hm (by simp [MarkFor.ofEntry])
    have hv := hi.loans.vacant_of_borrow ht (by rw [hcall]; simp)
    exact Or.inr (hstill (hi.loans.sole_of_call ht hcall) hv rfl rfl (Or.inr rfl))
  | panicVacant hv =>
    exact Or.inr (hstill (hi.loans.sole_of_vacant hv) rfl rfl rfl (Or.inl rfl))
  | _ => exact Or.inl rfl

/-- The capacity does not change. -/
theorem Move.size (h : Move c t th p) (hi : ThreadInv c) :
    p.state.cslab.storage.size = c.state.cslab.storage.size := by
  obtain ⟨free, hc⟩ := hi.removals.cslab
  rcases h.cslab_cases with heq | ⟨i, x, hok, -⟩ | ⟨unwrap, x, i, -, hok⟩ | ⟨m, i, -, -, -, hok⟩
  · rw [heq]
  · exact (hc.of_finalizeRemove hok).2.2.2
  · obtain ⟨rest, -, -, -, hsize, -⟩ := hc.of_insert hok
    exact hsize
  · obtain ⟨x, -, -, -, hsize⟩ := hc.of_markRemoved hok
    exact hsize

/-! ### Entries and the threads that mark them -/

theorem Pc.borrow_of_genRefs {pc : Pc α} {g : Nat} (h : 0 < pc.genRefs g) :
    pc.borrow = some .iter ∨ pc.borrow = some .clear := by
  cases pc with
  | mark m j | markLocked m j | markUnlock m j | record m j =>
    cases m with
    | entry g => exact Or.inl rfl
    | clear g => exact Or.inr rfl
    | markRemoved | remove => exact absurd h (by simp [Pc.genRefs, MarkFor.genRefs])
  | _ => exact absurd h (by simp [Pc.genRefs])

namespace Config

theorem countHandles_of_noEntries (h : c.NoEntries) (q : Entry α → Bool) :
    countHandles q c.state.entries = 0 := by
  by_contra hne
  obtain ⟨k, e, hk, -⟩ := exists_handleAt_of_countHandles (Nat.pos_of_ne_zero hne)
  exact h k e hk

/-- When one thread is alone with the entries, they are its own: nobody else has an entry, in a
handle or in a call. -/
theorem marks_eq (hentries : c.NoEntries) (ht : c.ThreadAt t th)
    (hothers : ∀ u uh, c.ThreadAt u uh → u ≠ t → uh.pc.borrow = none) (i : Nat) :
    c.marks i = th.marks i := by
  rw [marks, countHandles_of_noEntries hentries, Nat.zero_add]
  refine total_eq_of_others ht fun u uh hu hne => ?_
  rw [Thread.marks, Pc.borrow_eq_none.mp (hothers u uh hu hne)]
  rfl

theorem marks_of_exclusive (hi : ThreadInv c) (ht : c.ThreadAt t th) (hex : th.pc.Exclusive)
    (i : Nat) : c.marks i = th.marks i := by
  obtain ⟨hothers, hentries⟩ := hi.loans.exclusive t th ht hex
  exact marks_eq hentries ht hothers i

/-- Without entries no generation is that of an entry, except in a call of an iteration. -/
theorem not_entryGen (hentries : c.NoEntries) {g : Nat}
    (hb : ∀ u uh, c.ThreadAt u uh → uh.pc.genRefs g = 0) : ¬c.EntryGen g := by
  rintro (⟨k, e, hk, -⟩ | ⟨u, uh, hu, hpos⟩)
  · exact hentries k e hk
  · exact absurd (hb u uh hu) hpos.ne'

theorem not_entryGen_of_exclusive (hi : ThreadInv c) (ht : c.ThreadAt t th)
    (hex : th.pc.Exclusive) {g : Nat} (hzero : th.pc.genRefs g = 0) : ¬c.EntryGen g := by
  obtain ⟨hothers, hentries⟩ := hi.loans.exclusive t th ht hex
  refine not_entryGen hentries fun u uh hu => ?_
  by_cases hut : u = t
  · subst hut
    rw [ThreadAt, ht, Option.some.injEq] at hu
    exact hu ▸ hzero
  · rw [Pc.borrow_eq_none.mp (hothers u uh hu hut)]
    rfl

namespace Still

variable (h : c.Still)
include h

theorem marks_eq_zero (i : Nat) : c.marks i = 0 := by
  rw [marks, countHandles_of_noEntries h.entries, Nat.zero_add]
  refine total_eq_zero fun u uh hu => ?_
  rcases h.threads u uh hu with hpc | hpc <;> rw [Thread.marks, hpc] <;> rfl

theorem not_entryGen (g : Nat) : ¬c.EntryGen g := by
  refine Config.not_entryGen h.entries fun u uh hu => ?_
  rcases h.threads u uh hu with hpc | hpc <;> rw [hpc] <;> rfl

end Still

end Config

theorem marks_place (ht : c.ThreadAt t th) (p : Site α) (i : Nat) :
    (c.place t p).marks i + th.marks i + countHandles (·.idx == i) c.state.entries =
      c.marks i + p.thread.marks i + countHandles (·.idx == i) p.state.entries := by
  have htotal := total_set (w := (Thread.marks · i)) ht p.thread
  simp only [Config.marks, Config.place] at htotal ⊢
  omega

/-- The thread that moves marks nothing new, and makes no new entry. -/
theorem marks_le (ht : c.ThreadAt t th) {i : Nat} (hentries : p.state.entries = c.state.entries)
    (hle : p.thread.marks i ≤ th.marks i) : (c.place t p).marks i ≤ c.marks i := by
  have hplace := marks_place ht p i
  rw [hentries] at hplace
  omega

/-- An entry is found by the iterator, or was there before. -/
theorem Move.marks_cases (h : Move c t th p) (ht : c.ThreadAt t th) (i : Nat) :
    (c.place t p).marks i ≤ c.marks i ∨
    (c.place t p).marks i = c.marks i + 1 ∧ p.state.cslab = c.state.cslab ∧
      p.state.poisoned = c.state.poisoned ∧ ∃ im e x it n, c.state.iterMut = some im ∧
        im.iter.advance c.state.cslab.storage e = .ok (some (i, x), it) ∧
        p.state.iterMut = some ⟨it, n⟩ := by
  have hplace := marks_place ht p i
  obtain ⟨n, hn⟩ : ∃ n, n = (c.place t p).marks i := ⟨_, rfl⟩
  rw [← hn] at hplace
  cases h with
  | clearNext hslab him hnext hgen halive =>
    rename_i slab im idx x it gen
    by_cases hidx : idx = i
    · subst hidx
      refine Or.inr ⟨?_, rfl, rfl, im, .front, x, it, _, him, hnext, rfl⟩
      simp only [Thread.marks, Pc.marks, MarkFor.ofEntry, Bool.true_and, beq_self_eq_true,
        Bool.toNat_true] at hplace
      rw [← hn]
      omega
    · have hne : (idx == i) = false := by simp [hidx]
      refine Or.inl ?_
      simp only [Thread.marks, Pc.marks, MarkFor.ofEntry, Bool.true_and, hne,
        Bool.toNat_false] at hplace
      rw [← hn]
      omega
  | iterNext hiterable hslab him hnext hgen halive =>
    rename_i e slab im idx x it gen
    have hidle : ∀ b : Bool, (⟨[], .idle, b⟩ : Thread α).marks i = 0 := fun _ => rfl
    simp only [hidle, countHandles_append, Option.any_some] at hplace
    by_cases hidx : idx = i
    · subst hidx
      refine Or.inr ⟨?_, rfl, rfl, im, e, x, it, _, him, hnext, rfl⟩
      rw [beq_self_eq_true, Bool.toNat_true] at hplace
      rw [← hn]
      omega
    · have hne : (idx == i) = false := by simp [hidx]
      refine Or.inl ?_
      rw [hne, Bool.toNat_false] at hplace
      rw [← hn]
      omega
  | @entryRemove u k e hk =>
    refine Or.inl ?_
    rw [← hn]
    have hcount := countHandles_drop (p := fun e : Entry α => e.idx == i) hk
    simp only [Thread.marks, Pc.marks, MarkFor.ofEntry, Bool.true_and] at hplace
    omega
  | @entryDrop u k e hk =>
    refine Or.inl ?_
    rw [← hn]
    have hcount := countHandles_drop (p := fun e : Entry α => e.idx == i) hk
    simp only [Thread.marks, Pc.marks] at hplace
    omega
  | lock hpc hlocked hpoison =>
    exact Or.inl (marks_le ht rfl ((Pc.refs_of_locks hpc).2.2.1 i).le)
  | unlock hpc => exact Or.inl (marks_le ht rfl ((Pc.refs_of_unlocks hpc).2.2.1 i).le)
  | @unwind pc log hpc hpoison hlog =>
    obtain ⟨hzero, -⟩ := Pc.weights_of_abandoned pc.unwind_spec.2.1
    exact Or.inl (marks_le ht rfl ((hzero i).le.trans (Nat.zero_le _)))
  | @leak ds pc g indices next hpoison =>
    obtain ⟨hzero, -⟩ := Pc.weights_of_abandoned pc.unwind_spec.2.1
    exact Or.inl (marks_le ht rfl ((hzero i).le.trans (Nat.zero_le _)))
  | @record u m idx g x htarget hx halive =>
    exact Or.inl (marks_le ht rfl (((MarkFor.refs m).2.2.2.2.2.2.2.2 i).le.trans (Nat.zero_le _)))
  | enter husable hpc =>
    exact Or.inl (marks_le ht rfl (((Pc.refs_of_entersCall hpc).2.2.2 i).le.trans (Nat.zero_le _)))
  | advance hpc him hslab hx =>
    exact Or.inl (marks_le ht rfl ((hpc.refs.2.2.2 i).2.le.trans (Nat.zero_le _)))
  | @startIter u clear remaining =>
    refine Or.inl (marks_le ht rfl ?_)
    cases clear <;> exact Nat.zero_le _
  | storage | storageLast | writer | writerLast | gen | genLast | finalize | finalizing | finalized
  | dropItem | dropFields => exact Or.inl (marks_le ht rfl le_rfl)
  | full | reserve | insert | reject | mark | poison | count | exhaust | newReader | ret | observe
  | dropSlab | fillVacant | dropVacant | panicVacant | iterNone | iterDrop | readerDrop
  | setIters => exact Or.inl (marks_le ht rfl (Nat.zero_le _))

/-- A slot with an entry, before and after a move, shows the same item: only the removal of the
entry itself could hide it. -/
theorem Move.live_of_marks (h : Move c t th p) (hi : ThreadInv c) (ht : c.ThreadAt t th) {i : Nat}
    {x : α} (hbefore : 0 < c.marks i) (hafter : 0 < (c.place t p).marks i)
    (hlive : c.state.cslab.slot i = .live x) : p.state.cslab.slot i = .live x := by
  obtain ⟨free, hc⟩ := hi.removals.cslab
  rcases h.cslab_cases with heq | ⟨j, y, hok, -⟩ | ⟨unwrap, y, j, hpc, hok⟩ |
    ⟨m, j, hpc, hpc', hentries, hok⟩
  · rw [heq, hlive]
  · obtain ⟨hpending, -, hslot, -⟩ := hc.of_finalizeRemove hok
    have hne : i ≠ j := by
      rintro rfl
      exact absurd (hlive.symm.trans hpending) (by simp)
    rw [hslot, Function.update_of_ne hne, hlive]
  · obtain ⟨rest, -, -, hslot, -, hfree⟩ := hc.of_insert hok
    have hne : i ≠ j := by
      rintro rfl
      exact absurd (hlive.symm.trans hfree) (by simp)
    rw [hslot, Function.update_of_ne hne, hlive]
  · obtain ⟨y, -, -, hslot, -⟩ := hc.of_markRemoved hok
    have hne : i ≠ j := by
      rintro rfl
      -- the entry that is marked is the only one of its slot
      have hplace := marks_place ht p i
      rw [hentries] at hplace
      have honce := hi.iteration.marks i
      have hmarked : p.thread.marks i = 0 := by
        rw [Thread.marks, hpc']
        rfl
      cases hm : m.ofEntry with
      | true =>
        have hself : th.marks i = 1 := by
          rw [Thread.marks, hpc]
          simp [Pc.marks, hm]
        omega
      | false =>
        have hcall : th.pc.borrow = some .call := by
          rw [hpc]
          cases m with
          | markRemoved | remove => rfl
          | entry g | clear g => exact absurd hm (by simp [MarkFor.ofEntry])
        have hself : th.marks i = 0 := by
          rw [Thread.marks, hpc]
          simp [Pc.marks, hm]
        have hall := Config.marks_of_exclusive hi ht (Or.inl hcall) i
        omega
    rw [hslot, Function.update_of_ne hne, hlive]

/-- **Entries** are of slots that show their item and that the iterator has passed, until they are
marked; and no slot has two of them. -/
theorem Move.marked (h : Move c t th p) (hi : ThreadInv c) (ht : c.ThreadAt t th) (i : Nat) :
    (c.place t p).marks i ≤ 1 ∧ (0 < (c.place t p).marks i → p.state.poisoned = false ∧
      (∃ x, p.state.cslab.slot i = .live x) ∧
        ∀ im, p.state.iterMut = some im → ¬im.iter.Covers i) := by
  obtain ⟨free, hc⟩ := hi.removals.cslab
  have honce := hi.iteration.marks i
  rcases h.marks_cases ht i with hle | ⟨hone, hcslab, hpoison, im, e, x, it, n, him, hok, him'⟩
  · refine ⟨hle.trans honce, fun hpos => ?_⟩
    obtain ⟨hsound, ⟨x, hlive⟩, hpassed⟩ := hi.iteration.marked i (hpos.trans_le hle)
    refine ⟨?_, ⟨x, h.live_of_marks hi ht (hpos.trans_le hle) hpos hlive⟩, fun im him => ?_⟩
    · rcases h.poisoned_cases hi ht with heq | hstill
      · rw [heq, hsound]
      · exact absurd (hstill.marks_eq_zero i) hpos.ne'
    · rcases h.iterMut_cases with heq | hnone | ⟨clear, n, hpc⟩ |
        ⟨im₀, e, item, it, n, him₀, hok, him'⟩
      · exact hpassed im (heq ▸ him)
      · exact absurd (him.symm.trans hnone) (by simp)
      · -- a new iteration starts without entries
        have hex : th.pc.Exclusive := Pc.exclusive_of_starting (by rw [hpc]; rfl)
        have hzero := Config.marks_of_exclusive hi ht hex i
        rw [Thread.marks, hpc] at hzero
        exact absurd hzero (hpos.trans_le hle).ne'
      · obtain rfl := Option.some.inj (him.symm.trans him')
        have hold := hpassed im₀ him₀
        rcases hc.advance_eq e im₀.iter (hi.iteration.iterMut im₀ him₀).2.1 with
          ⟨it', hok', -, -, hnone, -⟩ | ⟨j, y, it', hok', -, -, -, -, hshrinks, -⟩
        · obtain ⟨-, rfl⟩ := Prod.mk.inj (Except.ok.inj (hok.symm.trans hok'))
          exact hnone i
        · obtain ⟨-, rfl⟩ := Prod.mk.inj (Except.ok.inj (hok.symm.trans hok'))
          exact fun hcovers => hold (hshrinks i hcovers)
  · obtain ⟨hsound, htail, -⟩ := hi.iteration.iterMut im him
    rcases hc.advance_eq e im.iter htail with
      ⟨it', hok', -⟩ | ⟨j, y, it', hok', -, hlive, hcovers, hpassed, -⟩
    · exact absurd (hok.symm.trans hok') (by simp)
    · obtain ⟨heq, rfl⟩ := Prod.mk.inj (Except.ok.inj (hok.symm.trans hok'))
      obtain ⟨rfl, rfl⟩ := Prod.mk.inj (Option.some.inj heq)
      have hzero : c.marks i = 0 := by
        by_contra hne
        exact (hi.iteration.marked i (Nat.pos_of_ne_zero hne)).2.2 im him hcovers
      refine ⟨by omega, fun _ => ⟨by rw [hpoison, hsound], ⟨x, by rw [hcslab, hlive]⟩,
        fun im' him'' => ?_⟩⟩
      obtain rfl := Option.some.inj (him''.symm.trans him')
      exact hpassed

/-- **Vacant entries** keep their slot: nobody else takes it while the mutex is held, and the
mutex is not poisoned. -/
theorem Move.reserved (h : Move c t th p) (hi : ThreadInv c) (ht : c.ThreadAt t th)
    (hv : p.vacant = some u) :
    p.state.poisoned = false ∧ p.state.cslab.vacantKey.isSome = true := by
  have hheld : c.vacant = some u → th.guards = 0 ∧ th.pc.borrow = none := by
    intro hv
    have hle := guards_le hi ht
    rw [hv, Option.isSome_some, Bool.toNat_true] at hle
    exact ⟨by omega, (hi.loans.vacant u hv).1 t th ht⟩
  cases h with
  | finalizing hfinalize =>
    have hguards := (hheld hv).1
    simp only [Thread.guards, total_cons, Drop.guards] at hguards
    omega
  | insert | mark | poison => exact absurd (hheld hv).2 (by simp [Pc.borrow])
  | reserve hlocked hpoison hkey => exact ⟨hpoison, hkey⟩
  | fillVacant | dropVacant | panicVacant => exact absurd hv (by simp)
  | _ => exact hi.iteration.reserved u hv

/-- **What is left of an iteration** is what the iterator counted: the visible slots of its range.
Other threads can finalize removals meanwhile, which are not visible. -/
theorem Move.iterMut (h : Move c t th p) (hi : ThreadInv c) (ht : c.ThreadAt t th) {im : IterMut}
    (him : p.state.iterMut = some im) : p.state.poisoned = false ∧
      im.iter.tail ≤ p.state.cslab.storage.size ∧
      im.remaining = p.state.cslab.left im.iter := by
  obtain ⟨free, hc⟩ := hi.removals.cslab
  have hcall : th.pc.borrow = some .call → c.state.iterMut = none := hi.loans.call t th ht
  cases h with
  | finalizing hfinalize =>
    obtain ⟨hsound, htail, hleft⟩ := hi.iteration.iterMut im him
    obtain ⟨hview, -⟩ := hc.view_of_finalizeRemove hfinalize
    exact ⟨hsound, hview.size ▸ htail, hleft.trans (hview.left_eq im.iter).symm⟩
  | insert hinsert => exact absurd (him.symm.trans (hcall rfl)) (by simp)
  | @mark u m idx cslab hmark =>
    obtain ⟨hsound, htail, hleft⟩ := hi.iteration.iterMut im him
    obtain ⟨x, -, -, -, hsize⟩ := hc.of_markRemoved hmark
    have hpassed : ¬im.iter.Covers idx := by
      cases m with
      | markRemoved | remove => exact absurd (him.symm.trans (hcall rfl)) (by simp)
      | entry g | clear g =>
        exact (hi.iteration.marked idx (marks_pos ht rfl)).2.2 im him
    refine ⟨hsound, ?_, hleft.trans (Cslab.left_of_markRemoved hc hmark hpassed).symm⟩
    simp only [hsize]
    exact htail
  | @poison m idx hm hbit =>
    refine absurd (him.symm.trans (hcall ?_)) (by simp)
    cases m with
    | markRemoved | remove => rfl
    | entry g | clear g => exact absurd hm (by simp [MarkFor.ofEntry])
  | panicVacant hv =>
    exact absurd (him.symm.trans (hi.loans.vacant t hv).2.1) (by simp)
  | @startIter u clear remaining =>
    obtain rfl := Option.some.inj him
    have hcons := hi.iteration.threads t _ ht
    refine ⟨hcons.starting rfl, hc.frontier_le, ?_⟩
    rw [hcons.counted remaining rfl]
    exact hc.left_new.symm
  | exhaust him₀ hnext | iterNone hiterable him₀ hnext =>
    rename_i im₀ it
    obtain rfl := Option.some.inj him
    obtain ⟨hsound, htail, hleft⟩ := hi.iteration.iterMut im₀ him₀
    rcases hc.advance_eq _ im₀.iter htail with
      ⟨it', hok', htail', -, -, hzero, hzero'⟩ | ⟨i, x, it', hok', -⟩
    · obtain ⟨-, rfl⟩ := Prod.mk.inj (Except.ok.inj (hnext.symm.trans hok'))
      exact ⟨hsound, htail', hleft.trans (hzero.trans hzero'.symm)⟩
    · exact absurd (hnext.symm.trans hok') (by simp)
  | clearNext hslab him₀ hnext hgen halive | iterNext hiterable hslab him₀ hnext hgen halive =>
    rename_i im₀ idx x it gen
    obtain rfl := Option.some.inj him
    obtain ⟨hsound, htail, hleft⟩ := hi.iteration.iterMut im₀ him₀
    rcases hc.advance_eq _ im₀.iter htail with
      ⟨it', hok', -⟩ | ⟨i, x, it', hok', htail', -, -, -, -, -, hleft'⟩
    · exact absurd (hnext.symm.trans hok') (by simp)
    · obtain ⟨-, rfl⟩ := Prod.mk.inj (Except.ok.inj (hnext.symm.trans hok'))
      exact ⟨hsound, htail', by simp only; omega⟩
  | @advance pc pc' u slab x im₀ hpc him₀ hslab hx =>
    refine hi.iteration.iterMut im ?_
    rw [← him]
    show c.state.iterMut = im₀
    rw [him₀]
    split_ifs with hiterating
    · rw [show im₀ = some im from him, if_pos hiterating] at him₀
      exact absurd him₀ (by simp)
    · rfl
  | iterDrop => exact absurd him (by simp)
  | _ => exact hi.iteration.iterMut im him

/-- **Entries** show the item of their slot. It is marked only with the entry itself, and finalized
only after that. -/
theorem Move.entry (h : Move c t th p) (hi : ThreadInv c) (ht : c.ThreadAt t th) {k : Nat}
    {e : Entry α} (hk : HandleAt p.state.entries k e) :
    p.state.cslab.slot e.idx = .live e.value := by
  have hmarks : ∀ c : Config α, HandleAt c.state.entries k e → 0 < c.marks e.idx := by
    intro c hk
    have hpos := countHandles_pos (p := fun e' : Entry α => e'.idx == e.idx) hk
      (beq_self_eq_true _)
    rw [Config.marks]
    omega
  have hold : HandleAt c.state.entries k e → p.state.cslab.slot e.idx = .live e.value := by
    intro hk₀
    exact h.live_of_marks hi ht (hmarks c hk₀) (hmarks (c.place t p) hk)
      (hi.iteration.entry k e hk₀)
  cases h with
  | iterNext hiterable hslab him hnext hgen halive =>
    rename_i end' slab im idx x it gen
    rcases handleAt_append.mp hk with hk | ⟨-, rfl⟩
    · exact hold hk
    · obtain ⟨free, hc⟩ := hi.removals.cslab
      rcases hc.advance_eq _ im.iter (hi.iteration.iterMut im him).2.1 with
        ⟨it', hok', -⟩ | ⟨i, y, it', hok', -, hlive, -⟩
      · exact absurd (hnext.symm.trans hok') (by simp)
      · obtain ⟨heq, -⟩ := Prod.mk.inj (Except.ok.inj (hnext.symm.trans hok'))
        obtain ⟨rfl, rfl⟩ := Prod.mk.inj (Option.some.inj heq)
        exact hlive
  | entryRemove hk' | entryDrop hk' => exact hold hk.of_drop.2
  | _ => exact hold hk

/-- **The iterators of readers** stay inside the storage: a new one ends at the frontier, and a step
makes its range shorter. -/
theorem Move.readerIter (h : Move c t th p) (hi : ThreadInv c) {k : Nat} {r : Reader}
    (hk : HandleAt p.state.readers k r) :
    ∀ it ∈ r.iters, it.tail ≤ p.state.cslab.storage.size := by
  rw [h.size hi]
  cases h with
  | @newReader pc u g gen hg hgen halive =>
    rcases handleAt_append.mp hk with hk | ⟨-, rfl⟩
    · exact hi.iteration.readerIter k r hk
    · exact fun it hit => absurd hit List.not_mem_nil
  | readerDrop hk' => exact hi.iteration.readerIter k r hk.of_drop.2
  | @setIters u k' r' iters hk' htail =>
    rcases handleAt_set.mp hk with ⟨-, hk⟩ | ⟨-, -, heq⟩
    · exact hi.iteration.readerIter k r hk
    · obtain rfl := Option.some.inj heq
      exact htail
  | _ => exact hi.iteration.readerIter k r hk

/-! ### The generation of the entries -/

theorem iterators_place (ht : c.ThreadAt t th) (p : Site α) :
    (c.place t p).iterators + c.state.iterMut.isSome.toNat + th.pc.closing =
      c.iterators + p.state.iterMut.isSome.toNat + p.thread.pc.closing := by
  have htotal := total_set (w := fun th : Thread α => th.pc.closing) ht p.thread
  simp only [Config.iterators, Config.place] at htotal ⊢
  omega

theorem iterators_eq (ht : c.ThreadAt t th)
    (him : p.state.iterMut.isSome = c.state.iterMut.isSome)
    (hpc : p.thread.pc.closing = th.pc.closing) : (c.place t p).iterators = c.iterators := by
  have hplace := iterators_place ht p
  rw [him, hpc] at hplace
  omega

theorem Pc.closing_eq_zero {pc : Pc α} (h : pc ≠ .advance true) : pc.closing = 0 := by
  cases pc with
  | advance dropIter =>
    cases dropIter
    · rfl
    · exact absurd rfl h
  | _ => rfl

/-- **Generations and iterators.** The generation advances when an iterator is dropped, and
otherwise only in a call that is alone with the slab. -/
theorem Move.curGen_cases (h : Move c t th p) (hi : ThreadInv c) (ht : c.ThreadAt t th) :
    (c.place t p).iterators = c.iterators ∧
        (∀ slab, p.state.slab = some slab → c.state.slab = some slab) ∨
      th.pc.Exclusive ∧ (∀ g, p.thread.pc.genRefs g = 0) ∧ (c.place t p).iterators ≤ 1 ∧
        p.state.entries = c.state.entries ∨
      c.iterators = 1 ∧ (c.place t p).iterators = 0 ∧
        ∃ slab, c.state.slab = some slab ∧
          p.state.slab = some { slab with curGen := c.state.gens.length } := by
  have hle := hi.iteration.iterators
  have hplace := iterators_place ht p
  obtain ⟨n, hn⟩ : ∃ n, n = (c.place t p).iterators := ⟨_, rfl⟩
  rw [← hn] at hplace ⊢
  cases h with
  | @startIter u clear remaining =>
    have hex : (.startIter clear remaining : Pc α).Exclusive := Pc.exclusive_of_starting rfl
    obtain ⟨hothers, -⟩ := hi.loans.exclusive t _ ht hex
    have hzero := total_eq_of_others (w := fun th : Thread α => th.pc.closing) ht
      fun u uh hu hne => by rw [Pc.borrow_eq_none.mp (hothers u uh hu hne)]; rfl
    refine Or.inr (Or.inl ⟨hex, fun g => ?_, ?_, rfl⟩)
    · cases clear <;> rfl
    · have hpc : (if clear then .clearLoop else .idle : Pc α).closing = 0 := by
        cases clear <;> rfl
      have hstart : (Pc.startIter clear remaining : Pc α).closing = 0 := rfl
      simp only [Config.iterators, hpc, hstart, hzero, Option.isSome_some,
        Bool.toNat_true] at hplace
      omega
  | @advance pc pc' u slab x im hpc him hslab hx =>
    cases hpc with
    | call =>
      refine Or.inr (Or.inl ⟨Or.inl rfl, fun _ => rfl, ?_, rfl⟩)
      rw [hn, iterators_eq ht (by rw [him]; rfl) rfl]
      exact hle
    | clear | unwound =>
      refine Or.inr (Or.inl ⟨Or.inr rfl, fun _ => rfl, ?_, rfl⟩)
      simp only [show im = none from him, Pc.closing, Option.isSome_none,
        Bool.toNat_false] at hplace
      omega
    | dropIter =>
      have hself := le_total (w := fun th : Thread α => th.pc.closing) ht
      have hone : c.iterators = 1 := by
        have hclosing : (Pc.advance true : Pc α).closing = 1 := rfl
        simp only [hclosing] at hself
        rw [Config.iterators] at hle ⊢
        omega
      simp only [show im = c.state.iterMut from him, Pc.closing] at hplace
      exact Or.inr (Or.inr ⟨hone, by omega, slab, hslab, rfl⟩)
  | iterDrop hiterable him =>
    refine Or.inl ⟨?_, fun _ => id⟩
    rw [him] at hplace
    simp only [Pc.closing, Bool.toNat_true, Option.isSome_none, Bool.toNat_false] at hplace
    omega
  | exhaust him hnext | clearNext hslab him hnext hgen halive | iterNone hiterable him hnext
  | iterNext hiterable hslab him hnext hgen halive =>
    exact Or.inl ⟨hn.trans (iterators_eq ht (by rw [him]; rfl) rfl), fun _ => id⟩
  | @lock pc pc' u hpc hlocked hpoison =>
    refine Or.inl ⟨hn.trans (iterators_eq ht rfl ?_), fun _ => id⟩
    cases pc <;> simp [Pc.locks] at hpc <;> subst hpc <;> rfl
  | @unlock pc pc' u hpc =>
    refine Or.inl ⟨hn.trans (iterators_eq ht rfl ?_), fun _ => id⟩
    cases pc <;> simp [Pc.unlocks] at hpc <;> subst hpc <;> rfl
  | @leak ds pc g indices next hpoison =>
    refine Or.inl ⟨hn.trans (iterators_eq ht rfl ?_), fun _ => id⟩
    have hquiet := (hi.iteration.threads t _ ht).dropping (List.cons_ne_nil _ _)
    rw [(Pc.weights_of_abandoned pc.unwind_spec.2.1).2.2, Pc.closing_eq_zero]
    rintro rfl
    exact absurd hquiet (by simp [Pc.quiet])
  | @unwind pc log hpc hpoison hlog =>
    refine Or.inl ⟨hn.trans (iterators_eq ht rfl ?_), fun _ => id⟩
    rw [(Pc.weights_of_abandoned pc.unwind_spec.2.1).2.2, Pc.closing_eq_zero]
    rintro rfl
    exact absurd hpc (by simp [Pc.waiting])
  | @record u m idx g x htarget hx halive =>
    refine Or.inl ⟨hn.trans (iterators_eq ht rfl ?_), fun _ => id⟩
    cases m <;> rfl
  | @enter pc u husable hpc =>
    refine Or.inl ⟨hn.trans (iterators_eq ht rfl (Pc.closing_eq_zero ?_)), fun _ => id⟩
    rintro rfl
    exact absurd hpc (by simp [Pc.entersCall])
  | @newReader pc u g gen hg hgen halive =>
    refine Or.inl ⟨hn.trans (iterators_eq ht rfl (Pc.closing_eq_zero ?_).symm), fun _ => id⟩
    rcases borrow_of_newReader hg with rfl | ⟨clear, rfl⟩ <;> simp
  | dropSlab =>
    exact Or.inl ⟨hn.trans (iterators_eq ht rfl rfl), fun slab hs => absurd hs (by simp)⟩
  | _ => exact Or.inl ⟨hn.trans (iterators_eq ht rfl rfl), fun _ => id⟩

/-- The generation of an entry is an old one, or the current one when the iterator yields. -/
theorem Move.entryGen_cases (h : Move c t th p) (ht : c.ThreadAt t th) {g : Nat}
    (hg : (c.place t p).EntryGen g) : c.EntryGen g ∨
      (∃ slab im, c.state.slab = some slab ∧ slab.curGen = g ∧ c.state.iterMut = some im) ∧
        p.state.readers = c.state.readers ∧ p.state.slab = c.state.slab ∧
        p.state.poisoned = c.state.poisoned := by
  -- an entry or a thread that was there before
  have hself : 0 < th.pc.genRefs g → c.EntryGen g := fun hpos => Or.inr ⟨t, th, ht, hpos⟩
  have hold : p.state.entries = c.state.entries →
      (0 < p.thread.pc.genRefs g → 0 < th.pc.genRefs g) → c.EntryGen g := by
    intro hentries hpc
    rcases hg with ⟨k, e, hk, rfl⟩ | ⟨u, uh, hu, hpos⟩
    · refine Or.inl ⟨k, e, ?_, rfl⟩
      rw [← hentries]
      exact hk
    · rcases (threadAt_place ht).mp hu with ⟨-, rfl⟩ | ⟨-, hu⟩
      · exact hself (hpc hpos)
      · exact Or.inr ⟨u, uh, hu, hpos⟩
  have hzero : p.state.entries = c.state.entries → p.thread.pc.genRefs g = 0 → c.EntryGen g :=
    fun hentries hpc => hold hentries fun hpos => absurd hpc hpos.ne'
  cases h with
  | clearNext hslab him hnext hgen halive =>
    rename_i slab im idx x it gen
    by_cases hcur : slab.curGen = g
    · exact Or.inr ⟨⟨slab, im, hslab, hcur, him⟩, rfl, rfl, rfl⟩
    · exact Or.inl (hzero rfl (by simp [Pc.genRefs, MarkFor.genRefs, hcur]))
  | iterNext hiterable hslab him hnext hgen halive =>
    rename_i e slab im idx x it gen
    by_cases hcur : slab.curGen = g
    · exact Or.inr ⟨⟨slab, im, hslab, hcur, him⟩, rfl, rfl, rfl⟩
    · refine Or.inl ?_
      rcases hg with ⟨k, e, hk, hgen'⟩ | ⟨u, uh, hu, hpos⟩
      · rcases handleAt_append.mp hk with hk | ⟨-, rfl⟩
        · exact Or.inl ⟨k, e, hk, hgen'⟩
        · exact absurd hgen' hcur
      · rcases (threadAt_place ht).mp hu with ⟨-, rfl⟩ | ⟨-, hu⟩
        · exact absurd hpos (by simp [Pc.genRefs])
        · exact Or.inr ⟨u, uh, hu, hpos⟩
  | @entryRemove u k e hk =>
    refine Or.inl ?_
    rcases hg with ⟨k', e', hk', hgen'⟩ | ⟨u, uh, hu, hpos⟩
    · exact Or.inl ⟨k', e', hk'.of_drop.2, hgen'⟩
    · rcases (threadAt_place ht).mp hu with ⟨-, rfl⟩ | ⟨-, hu⟩
      · refine Or.inl ⟨k, e, hk, ?_⟩
        by_contra hne
        exact absurd hpos (by simp [Pc.genRefs, MarkFor.genRefs, hne])
      · exact Or.inr ⟨u, uh, hu, hpos⟩
  | @entryDrop u k e hk =>
    refine Or.inl ?_
    rcases hg with ⟨k', e', hk', hgen'⟩ | ⟨u, uh, hu, hpos⟩
    · exact Or.inl ⟨k', e', hk'.of_drop.2, hgen'⟩
    · rcases (threadAt_place ht).mp hu with ⟨-, rfl⟩ | ⟨-, hu⟩
      · exact absurd hpos (by simp [Pc.genRefs])
      · exact Or.inr ⟨u, uh, hu, hpos⟩
  | lock hpc hlocked hpoison =>
    exact Or.inl (hold rfl fun hpos => (Pc.refs_of_locks hpc).1 g ▸ hpos)
  | unlock hpc => exact Or.inl (hold rfl fun hpos => (Pc.refs_of_unlocks hpc).1 g ▸ hpos)
  | @leak ds pc g' indices next hpoison =>
    exact Or.inl (hzero rfl ((Pc.weights_of_abandoned pc.unwind_spec.2.1).2.1 g))
  | @unwind pc log hpc hpoison hlog =>
    exact Or.inl (hzero rfl ((Pc.weights_of_abandoned pc.unwind_spec.2.1).2.1 g))
  | @record u m idx g' x htarget hx halive =>
    exact Or.inl (hzero rfl ((MarkFor.refs m).2.2.2.2.2.1 g))
  | enter husable hpc => exact Or.inl (hzero rfl ((Pc.refs_of_entersCall hpc).1 g))
  | advance hpc him hslab hx => exact Or.inl (hzero rfl (hpc.refs.1 g).2)
  | @startIter u clear remaining =>
    refine Or.inl (hzero rfl ?_)
    cases clear <;> rfl
  | storage | storageLast | writer | writerLast | gen | genLast | finalize | finalizing | finalized
  | dropItem | dropFields | mark => exact Or.inl (hold rfl id)
  | _ => exact Or.inl (hzero rfl rfl)

/-- A reader of the current generation is made only when there are no entries, so that no reader is
of a later generation than an entry. -/
theorem Move.reader_gen_le (h : Move c t th p) (hi : ThreadInv c) (ht : c.ThreadAt t th) {g k : Nat}
    {r : Reader} (hg : c.EntryGen g) (hk : HandleAt p.state.readers k r) : r.gen ≤ g := by
  have hreaders := (hi.iteration.entryGen g hg).2.2
  cases h with
  | @newReader pc u g' gen hkind hgen halive =>
    rcases handleAt_append.mp hk with hk | ⟨-, rfl⟩
    · exact hreaders k r hk
    · rcases hkind with ⟨-, ⟨clear, rfl⟩ | ⟨rfl, hsharable⟩⟩ | ⟨rfl, k', r', hk', rfl⟩
      · refine absurd hg (Config.not_entryGen_of_exclusive hi ht ?_ rfl)
        cases clear
        · exact Or.inl rfl
        · exact Or.inr rfl
      · obtain ⟨-, -, -, hentries, hall⟩ := Config.sharable_spec hsharable
        refine absurd hg (Config.not_entryGen hentries fun u uh hu => ?_)
        by_contra hne
        have hb := Pc.borrow_of_genRefs (Nat.pos_of_ne_zero hne)
        rcases hall u uh hu with hb' | hb' <;> rcases hb with hb | hb <;> simp_all
      · exact hreaders k' r' hk'
  | readerDrop hk' => exact hreaders k r hk.of_drop.2
  | @setIters u k' r' iters hk' htail =>
    rcases handleAt_set.mp hk with ⟨-, hk⟩ | ⟨-, -, heq⟩
    · exact hreaders k r hk
    · obtain rfl := Option.some.inj heq
      exact hreaders k' r' hk'
  | _ => exact hreaders k r hk

/-- A call that is alone with the slab leaves no entries. -/
theorem not_entryGen_place {g : Nat} (hi : ThreadInv c) (ht : c.ThreadAt t th)
    (hex : th.pc.Exclusive) (hzero : p.thread.pc.genRefs g = 0)
    (hentries : p.state.entries = c.state.entries) : ¬(c.place t p).EntryGen g := by
  obtain ⟨hothers, hnoentries⟩ := hi.loans.exclusive t th ht hex
  refine Config.not_entryGen (fun k e hk => hnoentries k e ?_) fun u uh hu => ?_
  · rw [← hentries]
    exact hk
  · rcases (threadAt_place ht).mp hu with ⟨-, rfl⟩ | ⟨hne, hu⟩
    · exact hzero
    · rw [Pc.borrow_eq_none.mp (hothers u uh hu hne)]
      rfl

/-- **The generation of the entries** is the current one until the iterator is dropped, and then
the one before it. -/
theorem Move.entryGen (h : Move c t th p) (hi : ThreadInv c) (ht : c.ThreadAt t th) {g : Nat}
    (hg : (c.place t p).EntryGen g) : p.state.poisoned = false ∧
      (∀ slab, p.state.slab = some slab →
        slab.curGen = if (c.place t p).iterators = 1 then g else g + 1) ∧
      ∀ k r, HandleAt p.state.readers k r → r.gen ≤ g := by
  have hsound : c.state.poisoned = false → p.state.poisoned = false := by
    intro hp
    rcases h.poisoned_cases hi ht with heq | hstill
    · rw [heq, hp]
    · exact absurd hg (hstill.not_entryGen g)
  rcases h.entryGen_cases ht hg with hold | ⟨⟨slab, im, hslab, rfl, him⟩, hreaders, hslab', -⟩
  · obtain ⟨hp, hcur, -⟩ := hi.iteration.entryGen g hold
    refine ⟨hsound hp, fun slab hs => ?_, fun k r hk => h.reader_gen_le hi ht hold hk⟩
    rcases h.curGen_cases hi ht with ⟨hiter, hsame⟩ | ⟨hex, hzero, -, hentries⟩ |
      ⟨hone, hnone, slab₀, hslab₀, hslab'⟩
    · rw [hiter]
      exact hcur slab (hsame slab hs)
    · exact absurd hg (not_entryGen_place hi ht hex (hzero g) hentries)
    · have hcur₀ := hcur slab₀ hslab₀
      have hlen := hi.refs.curGen slab₀ hslab₀
      rw [if_pos hone] at hcur₀
      rw [hslab', Option.some.injEq] at hs
      rw [hnone, ← hs]
      simp only [Nat.zero_ne_one, if_false]
      omega
  · refine ⟨hsound (hi.iteration.iterMut im him).1, fun slab₁ hs => ?_, fun k r hk => ?_⟩
    · rw [hslab', hslab, Option.some.injEq] at hs
      have hiter : (c.place t p).iterators = 1 := by
        rcases h.curGen_cases hi ht with ⟨hiter, -⟩ | ⟨hex, hzero, -, hentries⟩ |
          ⟨-, -, slab₀, hslab₀, hslab₁⟩
        · have hle := hi.iteration.iterators
          rw [hiter]
          rw [Config.iterators, him, Option.isSome_some, Bool.toNat_true] at hle ⊢
          omega
        · exact absurd hg (not_entryGen_place hi ht hex (hzero _) hentries)
        · have hlen := hi.refs.curGen slab hslab
          rw [hslab', hslab, Option.some.injEq] at hslab₁
          have hcur := congrArg Slab.curGen hslab₁
          simp only at hcur
          omega
      rw [hiter, if_pos rfl, hs]
    · rw [hreaders] at hk
      have hlt := (hi.refs.alive_of_reader hk).lt_length
      have hlen := hi.refs.curGen slab hslab
      omega

theorem Move.iterators_le (h : Move c t th p) (hi : ThreadInv c) (ht : c.ThreadAt t th) :
    (c.place t p).iterators ≤ 1 := by
  rcases h.curGen_cases hi ht with ⟨heq, -⟩ | ⟨-, -, hle, -⟩ | ⟨-, hzero, -⟩
  · rw [heq]
    exact hi.iteration.iterators
  · exact hle
  · rw [hzero]
    exact Nat.zero_le 1

/-- **Iterations and vacant entries.** Every move keeps the facts about them. -/
theorem Move.iteration (h : Move c t th p) (hi : ThreadInv c) (ht : c.ThreadAt t th) :
    (c.place t p).Iteration where
  reserved _ hv := h.reserved hi ht hv
  threads _ _ hu := h.consistent hi ht hu
  iterMut _ him := h.iterMut hi ht him
  iterators := h.iterators_le hi ht
  marks i := (h.marked hi ht i).1
  marked i := (h.marked hi ht i).2
  entry _ _ hk := h.entry hi ht hk
  entryGen _ hg := h.entryGen hi ht hg
  readerIter _ _ hk := h.readerIter hi hk

end RcuCslab

end ZprUtils
