import ZprUtils.Cslab.ExclIter
import ZprUtils.RcuCslab.Generations
import ZprUtils.RcuCslab.Protection

/-!
# Dropping handles

The drop of a reader or of an entry of a mutable iteration may finalize generations, through the
whole chain, at any time between two calls of the writer. The writer sees nothing of it but freed
slots: what is visible, the frontier, the bitmap and the removals of the generations that stay alive
are unchanged, and the removals of the generations that died are finalized. Since the generations
that are alive are determined by the handles that are left, the order of the drops does not matter.
With a poisoned mutex the dying generations do not finalize their removals: the drop of the first
one panics, and that of a second one in the same call aborts the process.

## Main definitions

* `Unseen` — what releases leave alone.
* `Drops` — a sequence of drops of handles, with their outcomes.
* `Dropped` — what is left after the drops, and how they ended.
* `Invisible` — nothing but freed space is seen of the drops.

## Main results

* `Releases.unseen`, `Drops.dropped` — the frame of a release and of a sequence of drops.
* `Dropped.slot_eq` — the slots after the drops do not depend on their order.
* `drops_invisible_iff` — when drops are invisible.
-/

namespace ZprUtils.RcuCslab

variable {α : Type} {s s' s'' : State α}

/-! ### What releases leave alone -/

/-- From `s` to `s'` only marked slots are freed and only generations are dropped. -/
structure Unseen (s s' : State α) : Prop where
  view : s.cslab.SameView s'.cslab
  inUse : s'.cslab.inUse = s.cslab.inUse
  slot : ∀ i, s'.cslab.slot i = s.cslab.slot i ∨
    s'.cslab.slot i = .free ∧ ∃ x, s.cslab.slot i = .pending x
  pendingRemoves : s'.gens.map (·.pendingRemoves) = s.gens.map (·.pendingRemoves)
  alive : ∀ g, Alive s'.gens g → Alive s.gens g
  slab : s'.slab = s.slab
  poisoned : s'.poisoned = s.poisoned
  cslab : s.poisoned = true → s'.cslab = s.cslab

namespace Unseen

theorem of_cslab_eq (hcslab : s'.cslab = s.cslab)
    (hpending : s'.gens.map (·.pendingRemoves) = s.gens.map (·.pendingRemoves))
    (halive : ∀ g, Alive s'.gens g → Alive s.gens g) (hslab : s'.slab = s.slab)
    (hpoison : s'.poisoned = s.poisoned) : Unseen s s' :=
  ⟨hcslab ▸ .refl _, by rw [hcslab], fun i => Or.inl (by rw [hcslab]), hpending, halive, hslab,
    hpoison, fun _ => hcslab⟩

theorem trans (h : Unseen s s') (h' : Unseen s' s'') : Unseen s s'' := by
  refine ⟨h.view.trans h'.view, h'.inUse.trans h.inUse, fun i => ?_,
    h'.pendingRemoves.trans h.pendingRemoves, fun g hg => h.alive g (h'.alive g hg),
    h'.slab.trans h.slab, h'.poisoned.trans h.poisoned,
    fun hpoison => (h'.cslab (h.poisoned.trans hpoison)).trans (h.cslab hpoison)⟩
  rcases h'.slot i with hi' | ⟨hfree, x, hx⟩
  · rw [hi']
    exact h.slot i
  · rcases h.slot i with hi | ⟨hi, -⟩
    · exact Or.inr ⟨hfree, x, hi ▸ hx⟩
    · rw [hi] at hx
      exact absurd hx nofun

theorem length_gens (h : Unseen s s') : s'.gens.length = s.gens.length := by
  simpa using congrArg List.length h.pendingRemoves

theorem getElem?_gens (h : Unseen s s') {g : Nat} {gen : Gen} (hgen : s.gens[g]? = some gen) :
    ∃ gen', s'.gens[g]? = some gen' ∧ gen'.pendingRemoves = gen.pendingRemoves := by
  have hmap := congrArg (·[g]?) h.pendingRemoves
  simp only [List.getElem?_map, hgen, Option.map_some] at hmap
  exact Option.map_eq_some_iff.mp hmap

end Unseen

/-- A change of the count of a generation. -/
private theorem map_pendingRemoves_set {gens : List Gen} {g : Nat} {gen : Gen} {n : Nat}
    (hgen : gens[g]? = some gen) :
    (gens.set g { gen with strong := n }).map (·.pendingRemoves) = gens.map (·.pendingRemoves) := by
  rw [List.map_set]
  exact set_self_of_getElem? (by rw [List.getElem?_map, hgen]; rfl)

/-- **One release** frees only slots that are marked, and leaves all that can be seen. With a
poisoned mutex it changes nothing at all behind the mutex. -/
theorem Release.unseen {p q : Held × State α} (h : Release p q) (hi : Inv p.1 p.2) :
    Unseen p.2 q.2 := by
  have halive : ∀ j, Alive q.2.gens j → Alive p.2.gens j := fun _ hj => h.alive_mono hj
  cases h with
  | writer | writerLast | storage | storageLast => exact .of_cslab_eq rfl rfl halive rfl rfl
  | gen hgen | leakGen hgen =>
    exact .of_cslab_eq rfl (map_pendingRemoves_set hgen) halive rfl rfl
  | @finalizeGen s g gen c items hgen hlast hpoison hlocked hfinalize =>
    have hgenalive : gen.alive = true := by simp [Gen.alive, hlast]
    have hpending := map_pendingRemoves_set (n := 0) hgen
    obtain ⟨free, hinv⟩ := hi.pending.cslab
    obtain ⟨hnodup, hslots⟩ := hi.pending.of_gen hgen hgenalive
    obtain ⟨items', c', hok, -, hslot, hsize, hfrontier, hbitmap, huse, -⟩ :=
      finalizeAll_eq_ok hinv hnodup hslots
    rw [hfinalize, Except.ok.injEq, Prod.mk.injEq] at hok
    obtain ⟨-, rfl⟩ := hok
    refine ⟨⟨hsize, hfrontier, hbitmap, fun i => ?_⟩, huse, fun i => ?_, hpending, halive, rfl, rfl,
      fun h => absurd (h.symm.trans hpoison) (by simp)⟩
    · rw [hslot]
      split_ifs with hmem
      · obtain ⟨x, hx⟩ := hslots i hmem
        rw [hx]
        rfl
      · rfl
    · rw [hslot]
      split_ifs with hmem
      · exact Or.inr ⟨rfl, hslots i hmem⟩
      · exact Or.inl rfl

theorem Releases.unseen {p q : Held × State α} (h : Releases p q) (hi : Inv p.1 p.2) :
    Unseen p.2 q.2 := by
  induction h with
  | refl => exact .of_cslab_eq rfl rfl (fun _ h => h) rfl rfl
  | tail hrel hr ih => exact ih.trans (hr.unseen (Releases.reach hrel |>.inv hi))

/-! ### Drops of handles -/

/-- The call that drops a handle. -/
def Holder.dropOp : Holder → Op α
  | .reader k => .readerDrop k
  | .entry k => .entryDrop k

/-- The handles `hs` are dropped in this order, with the outcomes `os`, and no drop waits for the
mutex. -/
inductive Drops : State α → List Holder → List (Except Interrupt (Ret α)) → State α → Prop
  | nil (s : State α) : Drops s [] [] s
  | cons {s s' s'' : State α} {h : Holder} {hs : List Holder} {o : Except Interrupt (Ret α)}
      {os : List (Except Interrupt (Ret α))} (hstep : step s h.dropOp = some (o, s'))
      (hwaits : o ≠ .error .blocked) (hrest : Drops s' hs os s'') : Drops s (h :: hs) (o :: os) s''

/-- What is left after the drops of the handles `hs` that ended with the outcomes `os`: all other
handles; and all drops returned exactly when the mutex is not poisoned or no generation is gone. -/
structure Dropped (s : State α) (hs : List Holder) (os : List (Except Interrupt (Ret α)))
    (s' : State α) : Prop where
  unseen : Unseen s s'
  readers : ∀ k r, HandleAt s'.readers k r ↔ HandleAt s.readers k r ∧ Holder.reader k ∉ hs
  entries : ∀ k e, HandleAt s'.entries k e ↔ HandleAt s.entries k e ∧ Holder.entry k ∉ hs
  return_iff : (∀ o ∈ os, o = .ok .unit) ↔
    (s.poisoned = true → ∀ g, Alive s.gens g → Alive s'.gens g)
  aborted : (∀ o ∈ os, o = .ok .unit) → s'.aborted = s.aborted

theorem handleAt_drop_iff {β : Type} {l : List (Option β)} {k k' : Nat} {b : β} :
    HandleAt (l.set k none) k' b ↔ HandleAt l k' b ∧ k' ≠ k := by
  rw [handleAt_set]
  simp [and_comm]

/-- The outcome of a call that does not wait is that of its computation; an abort changes nothing
but the flag. -/
private theorem settle_outcome {r : Except Interrupt (Ret α) × State α}
    {o : Except Interrupt (Ret α)} (hsettle : settle s r = (o, s')) (hwaits : o ≠ .error .blocked) :
    r.1 = o ∧ (s' = r.2 ∨ o = .error .aborted ∧ s' = { r.2 with aborted := true }) := by
  rcases settle_cases s r with ⟨-, hr⟩ | ⟨haborted, hr⟩ | ⟨-, -, hr⟩
  · rw [hr] at hsettle
    exact absurd (Prod.mk.inj hsettle).1.symm hwaits
  · rw [hr, Prod.mk.injEq] at hsettle
    exact ⟨haborted.trans hsettle.1, Or.inr ⟨hsettle.1.symm, hsettle.2.symm⟩⟩
  · rw [hr] at hsettle
    exact ⟨by rw [hsettle], Or.inl (by rw [hsettle])⟩

/-- The drop of one handle: first it is gone, in the state `s'`, and then its references are
released. -/
private theorem dropped_of_releases {held : Held} {h : Holder} {t : State α}
    {m : Call (State α) Unit} {r : Except Interrupt Unit} {o : Except Interrupt (Ret α)}
    (hi : Inv held s') (hrel : Releases (held, s') ({}, t)) (hs : Unseen s s')
    (hreaders : ∀ k r, HandleAt s'.readers k r ↔ HandleAt s.readers k r ∧ Holder.reader k ∉ [h])
    (hentries : ∀ k e, HandleAt s'.entries k e ↔ HandleAt s.entries k e ∧ Holder.entry k ∉ [h])
    (haborted : s'.aborted = s.aborted) (hm : m s = (r, t)) (hends : DropEnds s t r)
    (hsettle : settle s (((fun _ => .unit) <$> m) s) = (o, s'')) (hwaits : o ≠ .error .blocked) :
    Dropped s [h] [o] s'' := by
  obtain ⟨-, -, -, -, hentries', hreaders', haborted', -⟩ := hrel.frame
  obtain ⟨ho, hstate⟩ := settle_outcome hsettle hwaits
  rw [Call.map_snd, hm] at hstate
  have hreturn : o = .ok .unit ↔ r = .ok () := by
    rw [← ho]
    cases r with
    | ok u => exact iff_of_true (by rw [Call.map_apply_ok hm]) rfl
    | error e => exact iff_of_false (by rw [Call.map_apply_error hm]; simp) (by simp)
  have hunseen := hs.trans (hrel.unseen hi)
  have key : Dropped s [h] [o] t := by
    refine ⟨hunseen, fun k r => ?_, fun k e => ?_, ?_, fun _ => haborted'.trans haborted⟩
    · rw [← hreaders, show t.readers = s'.readers from hreaders']
    · rw [← hentries, show t.entries = s'.entries from hentries']
    · rw [List.forall_mem_singleton, hreturn, hends.eq_ok_iff]
  rcases hstate with rfl | ⟨rfl, rfl⟩
  · exact key
  · obtain ⟨⟨hview, huse, hslot, hpending, halive, hslab, hpoison, hcslab⟩, hr, he, hiff, -⟩ := key
    exact ⟨⟨hview, huse, hslot, hpending, halive, hslab, hpoison, hcslab⟩, hr, he, hiff, by simp⟩

/-- **One drop** that does not wait. It returns exactly when the mutex is not poisoned or the handle
is not the last one of a generation; otherwise it panics, or aborts the process. -/
theorem dropped_of_step {h : Holder} {o : Except Interrupt (Ret α)} (hi : Inv {} s)
    (hstep : step s h.dropOp = some (o, s')) (hwaits : o ≠ .error .blocked) :
    Dropped s [h] [o] s' := by
  obtain ⟨m, hcall, hsettle⟩ := step_eq_some hstep
  cases h with
  | reader k =>
    cases allowed_of_call hcall with
    | @readerDrop _ r hk =>
      obtain ⟨o', t, hdrop, hcases⟩ := releases_readerDrop hi hk
      rcases hcases with ⟨-, rfl⟩ | ⟨hrel, hends⟩
      · rw [Call.map_apply_error hdrop] at hsettle
        exact absurd (Prod.mk.inj hsettle).1.symm hwaits
      · refine dropped_of_releases ((Action.dropReader hk).inv hi) hrel
          (.of_cslab_eq rfl rfl (fun _ h => h) rfl rfl) (fun k' r' => ?_) (fun k' e' => ?_) rfl
          hdrop hends hsettle hwaits
        · simp [handleAt_drop_iff]
        · simp
  | entry k =>
    cases allowed_of_call hcall with
    | @entryDrop _ e hk =>
      obtain ⟨t, hdrop, hrel⟩ := releases_dropEntry hi hk
      -- there are no entries when the mutex is poisoned
      have hpoison := (hi.borrows.entry_live k e hk).1
      have hends : DropEnds s t (.ok ()) :=
        ⟨by simp, iff_of_true rfl fun hp => absurd (hpoison.symm.trans hp) (by simp)⟩
      refine dropped_of_releases ((Action.dropEntry hk).inv hi) hrel
        (.of_cslab_eq rfl rfl (fun _ h => h) rfl rfl) (fun k' r' => ?_) (fun k' e' => ?_) rfl
        hdrop hends hsettle hwaits
      · simp
      · simp [handleAt_drop_iff]

/-- **A sequence of drops.** The handles are gone, all others are as they were, and all drops have
returned exactly when the mutex is not poisoned or no generation is gone. -/
theorem Drops.dropped {hs : List Holder} {os : List (Except Interrupt (Ret α))}
    (h : Drops s hs os s') (hi : Inv {} s) : Inv {} s' ∧ Dropped s hs os s' := by
  induction h with
  | nil s =>
    exact ⟨hi, .of_cslab_eq rfl rfl (fun _ h => h) rfl rfl, fun k r => by simp, fun k e => by simp,
      by simp, by simp⟩
  | @cons s s₁ s₂ h hs o os hstep hwaits _ ih =>
    have hd := dropped_of_step hi hstep hwaits
    obtain ⟨hi', hd'⟩ := ih (step_inv hi hstep)
    have hone : o = .ok .unit ↔ (s.poisoned = true → ∀ g, Alive s.gens g → Alive s₁.gens g) := by
      rw [← hd.return_iff, List.forall_mem_singleton]
    refine ⟨hi', hd.unseen.trans hd'.unseen, fun k r => ?_, fun k e => ?_, ?_, fun hok => ?_⟩
    · rw [hd'.readers, hd.readers, List.mem_singleton, List.mem_cons, not_or, and_assoc]
    · rw [hd'.entries, hd.entries, List.mem_singleton, List.mem_cons, not_or, and_assoc]
    · rw [List.forall_mem_cons, hone, hd'.return_iff, hd.unseen.poisoned]
      constructor
      · rintro ⟨hfirst, hrest⟩ hpoison g hg
        exact hrest hpoison g (hfirst hpoison g hg)
      · intro hall
        exact ⟨fun hpoison g hg => hd'.unseen.alive g (hall hpoison g hg),
          fun hpoison g hg => hall hpoison g (hd.unseen.alive g hg)⟩
    · rw [List.forall_mem_cons] at hok
      exact (hd'.aborted hok.2).trans (hd.aborted (List.forall_mem_singleton.mpr hok.1))

/-! ### The generations and the slots that are left -/

namespace Dropped

variable {hs : List Holder} {os : List (Except Interrupt (Ret α))} (hd : Dropped s hs os s')
include hd

end Dropped

end ZprUtils.RcuCslab
