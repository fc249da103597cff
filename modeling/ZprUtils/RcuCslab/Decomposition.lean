import ZprUtils.RcuCslab.Preservation
import Mathlib.Logic.Relation

/-!
# Every call is a sequence of actions

For each call, from a state with the invariant: the call waits for the mutex, or its effect on the
state is a sequence of actions. Dropping a reference is a sequence of releases, through the chain of
generations as far as their counts reach zero. It panics, or aborts the process, exactly when a
generation is dropped while the mutex is poisoned.

## Main definitions

* `DropEnds` — how the drop of a reference ends.

## Main results

* `releases_releaseGen` — the cascade of generation drops.
* `reach_advanceGeneration`, `reach_dropSlab` — the drop of the current generation.
-/

namespace ZprUtils.RcuCslab

open Relation

variable {α : Type} {s s' : State α}

/-- A sequence of releases. -/
abbrev Releases (p q : Held × State α) : Prop := ReflTransGen Release p q

/-- A sequence of actions. -/
abbrev Reach (p q : Held × State α) : Prop := ReflTransGen Action p q

theorem Releases.reach {p q : Held × State α} (h : Releases p q) : Reach p q := by
  induction h with
  | refl => exact .refl
  | tail _ hr ih => exact ih.tail (.release hr)

theorem Reach.inv {p q : Held × State α} (h : Reach p q) (hi : Inv p.1 p.2) : Inv q.1 q.2 := by
  induction h with
  | refl => exact hi
  | tail _ ha ih => exact ha.inv ih

/-! ### Dropping references -/

theorem release_releaseStorage {g : Option Nat} (hi : Inv ⟨g, false, true⟩ s) :
    ∃ s', releaseStorage s = (.ok (), s') ∧
      Release (⟨g, false, true⟩, s) (⟨g, false, false⟩, s') := by
  have hstorage := hi.refs.storage
  simp only [Bool.toNat_true] at hstorage
  by_cases hlast : s.storageStrong = 1
  · obtain ⟨free, hinv⟩ := hi.pending.cslab
    obtain ⟨items, hitems, -⟩ := hinv.items_eq
    refine ⟨_, ?_, .storageLast hlast hitems⟩
    simp only [releaseStorage, Call.modify_bind_apply, Call.get_bind_apply, hlast, Nat.sub_self,
      if_true, emit, hitems]
    simp [destroy, Call.liftFault, List.map_map, Function.comp_def]
  · refine ⟨_, ?_, .storage (by omega)⟩
    have hne : ¬s.storageStrong - 1 = 0 := by omega
    simp only [releaseStorage, Call.modify_bind_apply, Call.get_bind_apply, if_neg hne,
      Call.pure_apply]

theorem releases_releaseWriter {g : Option Nat} {storage : Bool}
    (hi : Inv ⟨g, true, storage⟩ s) (hmore : storage = false ∨ 1 < s.writerStrong) :
    ∃ s', releaseWriter s = (.ok (), s') ∧
      Releases (⟨g, true, storage⟩, s) (⟨g, false, storage⟩, s') := by
  have hwriter := hi.refs.writer
  simp only [Bool.toNat_true] at hwriter
  by_cases hlast : s.writerStrong = 1
  · obtain rfl : storage = false := hmore.resolve_right (by omega)
    have hrelease :
        Release (⟨g, true, false⟩, s) (⟨g, false, true⟩, { s with writerStrong := 0 }) :=
      .writerLast hlast
    obtain ⟨s', hs', hrelease'⟩ := release_releaseStorage (hrelease.inv hi)
    refine ⟨s', ?_, (ReflTransGen.single hrelease).tail hrelease'⟩
    simp only [releaseWriter, Call.modify_bind_apply, Call.get_bind_apply, hlast, Nat.sub_self,
      if_true, hs']
  · refine ⟨_, ?_, .single (.writer (by omega))⟩
    have hne : ¬s.writerStrong - 1 = 0 := by omega
    simp only [releaseWriter, Call.modify_bind_apply, Call.get_bind_apply, if_neg hne,
      Call.pure_apply]

/-- Releases leave the handles and the mutex alone. -/
theorem Release.frame {p q : Held × State α} (h : Release p q) :
    q.2.locked = p.2.locked ∧ q.2.poisoned = p.2.poisoned ∧ q.2.slab = p.2.slab ∧
      q.2.iterMut = p.2.iterMut ∧ q.2.entries = p.2.entries ∧ q.2.readers = p.2.readers ∧
      q.2.aborted = p.2.aborted ∧ q.2.gens.length = p.2.gens.length := by
  cases h <;> simp

theorem Releases.frame {p q : Held × State α} (h : Releases p q) :
    q.2.locked = p.2.locked ∧ q.2.poisoned = p.2.poisoned ∧ q.2.slab = p.2.slab ∧
      q.2.iterMut = p.2.iterMut ∧ q.2.entries = p.2.entries ∧ q.2.readers = p.2.readers ∧
      q.2.aborted = p.2.aborted ∧ q.2.gens.length = p.2.gens.length := by
  induction h with
  | refl => simp
  | tail _ hr ih =>
    obtain ⟨h₁, h₂, h₃, h₄, h₅, h₆, h₇, h₈⟩ := hr.frame
    rw [h₁, h₂, h₃, h₄, h₅, h₆, h₇, h₈]
    exact ih

/-- A generation that is alive in spite of a change of the count of an alive one was alive. Used
where counts go down, so that nothing is revived on the way. -/
theorem alive_of_set {gens : List Gen} {g j n : Nat} {gen : Gen} (hgen : gens[g]? = some gen)
    (halive : gen.alive = true) (hj : Alive (gens.set g { gen with strong := n }) j) :
    Alive gens j := by
  rw [alive_iff_strongAt, strongAt_set hgen] at hj
  split_ifs at hj with hjg
  · exact ⟨gen, hjg ▸ hgen, halive⟩
  · exact alive_iff_strongAt.mpr hj

theorem not_alive_set_zero {gens : List Gen} {g : Nat} {gen : Gen} (hgen : gens[g]? = some gen) :
    ¬Alive (gens.set g { gen with strong := 0 }) g := by
  rw [alive_iff_strongAt, strongAt_set hgen, if_pos rfl]
  simp

/-- A release revives no generation. -/
theorem Release.alive_mono {p q : Held × State α} (h : Release p q) {j : Nat}
    (hj : Alive q.2.gens j) : Alive p.2.gens j := by
  cases h with
  | writer | writerLast | storage | storageLast => exact hj
  | gen hgen hmore => exact alive_of_set hgen (by simp [Gen.alive]; omega) hj
  | finalizeGen hgen hlast | leakGen hgen hlast =>
    exact alive_of_set hgen (by simp [Gen.alive, hlast]) hj

theorem Releases.alive_mono {p q : Held × State α} (h : Releases p q) {j : Nat}
    (hj : Alive q.2.gens j) : Alive p.2.gens j := by
  induction h with
  | refl => exact hj
  | tail _ hr ih => exact ih (hr.alive_mono hj)

/-- A reference to the storage is released before any reference to a generation. While a call still
owns one the generations stay as they are. -/
theorem Release.gens_eq {p q : Held × State α} (h : Release p q) (hheld : p.1.storage = true) :
    q.2.gens = p.2.gens := by
  cases h with
  | writer | writerLast | storage | storageLast => rfl
  | gen | finalizeGen | leakGen => exact absurd hheld (by simp)

/-- How the drop of a reference that leads from `s` to `s'` ends: it does not wait, and it returns
exactly when the mutex is not poisoned or no generation is dropped. -/
structure DropEnds (s s' : State α) (o : Except Interrupt Unit) : Prop where
  not_blocked : o ≠ .error .blocked
  eq_ok_iff : o = .ok () ↔ (s.poisoned = true → ∀ j, Alive s.gens j → Alive s'.gens j)

theorem DropEnds.eq_ok {o : Except Interrupt Unit} (h : DropEnds s s' o)
    (hpoison : s.poisoned = false) : o = .ok () :=
  h.eq_ok_iff.mpr fun hp => absurd (hpoison.symm.trans hp) (by simp)

/-- The destructor of a generation whose last reference is gone: it waits for the mutex, or it
finalizes the removals, or it panics because the mutex is poisoned. -/
theorem release_dropGen {g : Nat} {gen : Gen} (hi : Inv ⟨some g, false, false⟩ s)
    (hgen : s.gens[g]? = some gen) (hlast : gen.strong = 1) :
    (s.locked = true ∧ dropGen g { gen with strong := 0 }
        { s with gens := s.gens.set g { gen with strong := 0 } } =
          (.error .blocked, { s with gens := s.gens.set g { gen with strong := 0 } })) ∨
      ∃ o s', dropGen g { gen with strong := 0 }
          { s with gens := s.gens.set g { gen with strong := 0 } } = (o, s') ∧
        Release (⟨some g, false, false⟩, s) (⟨gen.nextGen, true, false⟩, s') ∧
        ¬Alive s'.gens g ∧
        ((s.poisoned = false ∧ o = .ok ()) ∨
          s.poisoned = true ∧ o = .error (.panicked .panic)) := by
  have halive : gen.alive = true := by simp [Gen.alive, hlast]
  cases hlocked : s.locked with
  | true =>
    refine Or.inl ⟨rfl, ?_⟩
    simp [dropGen, withLock, lock, bind]
  | false =>
    right
    cases hpoison : s.poisoned with
    | true =>
      refine ⟨_, _, ?_, .leakGen hgen hlast hpoison, not_alive_set_zero hgen, Or.inr ⟨rfl, rfl⟩⟩
      simp [dropGen, withLock, lock, hlocked, hpoison, bind]
    | false =>
      obtain ⟨free, hinv⟩ := hi.pending.cslab
      obtain ⟨hnodup, hpending⟩ := hi.pending.of_gen hgen halive
      obtain ⟨items, c, hok, -⟩ := finalizeAll_eq_ok hinv hnodup hpending
      refine ⟨_, _, ?_, .finalizeGen hgen hlast hpoison hlocked hok, not_alive_set_zero hgen,
        Or.inl ⟨rfl, rfl⟩⟩
      simp [dropGen, withLock, lock, underGuard, onCslab, emit, destroy, unlock, hlocked, hpoison,
        hok, bind, Call.modify, pure, List.map_map, Function.comp_def]

/-- The destruction of a generation, given the drop `next` of its reference to the next one: the
destructor runs, then the references to the writer and to the next generation are dropped. -/
theorem releases_andDrop_dropGen {g : Nat} {gen : Gen} {next : Call (State α) Unit}
    (hi : Inv ⟨some g, false, false⟩ s) (hgen : s.gens[g]? = some gen) (hlast : gen.strong = 1)
    (hnext : ∀ s₂, Inv ⟨gen.nextGen, false, false⟩ s₂ → s₂.gens.length = s.gens.length →
      ∃ o s', next s₂ = (o, s') ∧
        ((s₂.locked = true ∧ o = .error .blocked) ∨
          Releases (⟨gen.nextGen, false, false⟩, s₂) ({}, s') ∧ DropEnds s₂ s' o)) :
    ∃ o s', (dropGen g { gen with strong := 0 }).andDrop (releaseWriter >>= fun _ => next)
        { s with gens := s.gens.set g { gen with strong := 0 } } = (o, s') ∧
      ((s.locked = true ∧ o = .error .blocked) ∨
        Releases (⟨some g, false, false⟩, s) ({}, s') ∧ DropEnds s s' o) := by
  rcases release_dropGen hi hgen hlast with
    ⟨hlocked, hblocked⟩ | ⟨r, s₁, hdrop, hrelease, hdead, hr⟩
  · exact ⟨_, _, Call.andDrop_apply_blocked hblocked, Or.inl ⟨hlocked, rfl⟩⟩
  have hi₁ := hrelease.inv hi
  obtain ⟨s₂, hwriter, hrel₂⟩ := releases_releaseWriter hi₁ (Or.inl rfl)
  have hi₂ : Inv ⟨gen.nextGen, false, false⟩ s₂ := hrel₂.reach.inv hi₁
  have hrel₁₂ : Releases (⟨some g, false, false⟩, s) (⟨gen.nextGen, false, false⟩, s₂) :=
    .head hrelease hrel₂
  obtain ⟨hlocked₂, hpoison₂, -, -, -, -, -, hlen₂⟩ := hrel₁₂.frame
  simp only at hlocked₂ hpoison₂ hlen₂
  obtain ⟨r', s₃, hrest, hcases⟩ := hnext s₂ hi₂ hlen₂
  rw [hlocked₂] at hcases
  have hcleanup := Call.bind_apply_ok (f := fun _ => next) hwriter
  rw [hrest] at hcleanup
  obtain ⟨o, ho, hwait, hreturn⟩ := Call.andDrop_apply hdrop (by
    rcases hr with ⟨-, rfl⟩ | ⟨-, rfl⟩
    · exact Or.inl ⟨_, rfl⟩
    · exact Or.inr ⟨_, rfl⟩) hcleanup
  refine ⟨o, s₃, ho, ?_⟩
  rcases hcases with ⟨hlocked, hblocked⟩ | ⟨hrel₃, hends⟩
  · exact Or.inl ⟨hlocked, hwait.mpr hblocked⟩
  · refine Or.inr ⟨hrel₁₂.trans hrel₃, fun hblocked => hends.not_blocked (hwait.mp hblocked), ?_⟩
    rw [hreturn ()]
    rcases hr with ⟨hpoison, hr⟩ | ⟨hpoison, rfl⟩
    · exact iff_of_true ⟨hr, hends.eq_ok (hpoison₂.trans hpoison)⟩
        fun hp => absurd (hpoison.symm.trans hp) (by simp)
    · -- the destructor panics, and this generation is gone
      refine iff_of_false (fun h => absurd h.1 (by simp)) fun halive => hdead ?_
      have hgone := halive hpoison g ⟨gen, hgen, by simp [Gen.alive, hlast]⟩
      exact Releases.alive_mono (hrel₂.trans hrel₃) hgone

/-- **The cascade.** Dropping a reference to a generation drops every generation whose count
reaches zero, from this one on; it waits only when the mutex is held, and it returns unless a
generation is dropped while the mutex is poisoned. -/
theorem releases_releaseGen {fuel g : Nat} (hi : Inv ⟨some g, false, false⟩ s)
    (hfuel : s.gens.length < fuel + g) :
    ∃ o s', releaseGen fuel g s = (o, s') ∧
      ((s.locked = true ∧ o = .error .blocked) ∨
        Releases (⟨some g, false, false⟩, s) ({}, s') ∧ DropEnds s s' o) := by
  induction fuel generalizing g s with
  | zero =>
    have hlt := (hi.refs.alive_of_held rfl).lt_length
    omega
  | succ fuel ih =>
    obtain ⟨gen, hgen, halive⟩ := hi.refs.alive_of_held rfl
    have hmodify := modify_eq_set_of_getElem? hgen fun gen => { gen with strong := gen.strong - 1 }
    have hself : (s.gens.set g { gen with strong := gen.strong - 1 })[g]? =
        some { gen with strong := gen.strong - 1 } :=
      List.getElem?_set_self (List.getElem?_eq_some_iff.mp hgen).1
    have hpos : gen.strong ≠ 0 := by simpa [Gen.alive] using halive
    simp only [releaseGen, modifyGen, Call.modify_bind_apply, Call.get_bind_apply, hmodify, hself]
    by_cases hlast : gen.strong = 1
    · simp only [hlast, Nat.sub_self, ne_eq, not_true_eq_false, if_false]
      refine releases_andDrop_dropGen hi hgen hlast fun s₂ hi₂ hlen₂ => ?_
      cases hnext : gen.nextGen with
      | none => exact ⟨_, _, rfl, Or.inr ⟨.refl, by simp, by simp⟩⟩
      | some next =>
        -- the reference to the next generation goes on with the cascade
        have hsucc := hi.refs.nextGen g gen hgen
        rw [hnext] at hsucc hi₂
        split_ifs at hsucc
        rw [Option.some.injEq] at hsucc
        exact ih hi₂ (by omega)
    · have hne : gen.strong - 1 ≠ 0 := by omega
      rw [if_pos hne]
      refine ⟨_, _, rfl, Or.inr ⟨.single (.gen hgen (by omega)), by simp, ?_⟩⟩
      refine iff_of_true rfl fun _ j hj => ?_
      rw [alive_iff_strongAt, strongAt_set hgen]
      split_ifs
      · exact hne
      · exact alive_iff_strongAt.mp hj

theorem releases_dropGenRef {g : Nat} (hi : Inv ⟨some g, false, false⟩ s) :
    ∃ o s', dropGenRef g s = (o, s') ∧
      ((s.locked = true ∧ o = .error .blocked) ∨
        Releases (⟨some g, false, false⟩, s) ({}, s') ∧ DropEnds s s' o) := by
  rw [dropGenRef, Call.get_bind_apply]
  exact releases_releaseGen hi (by omega)

/-! ### Calls under the mutex -/

theorem State.unlocked_eq (h : s.locked = false) : { s with locked := false } = s := by
  rw [← h]

section

variable {β : Type} {m : Call (State α) β}

theorem withLock_poisoned (hlocked : s.locked = false) (hpoison : s.poisoned = true) :
    withLock m s = (.error (.panicked .panic), s) := by
  simp [withLock, lock, hlocked, hpoison, bind]

theorem underGuard_ok {t : State α} {b : β} (hm : m s = (.ok b, t)) :
    underGuard m s = (.ok b, { t with locked := false }) := by
  simp only [underGuard, hm, unlock, Call.modify_apply]

theorem withLock_ok {t : State α} {b : β} (hlocked : s.locked = false)
    (hpoison : s.poisoned = false)
    (hm : m { s with locked := true } = (.ok b, t)) :
    withLock m s = (.ok b, { t with locked := false }) := by
  have hlock : lock s = (.ok (), { s with locked := true }) := by simp [lock, hlocked, hpoison]
  rw [withLock, Call.bind_apply_ok hlock]
  exact underGuard_ok hm

theorem withLock_panicked {t : State α} {fault : RustFault} (hlocked : s.locked = false)
    (hpoison : s.poisoned = false)
    (hm : m { s with locked := true } = (.error (.panicked fault), t)) :
    withLock m s = (.error (.panicked fault), { t with locked := false, poisoned := true }) := by
  have hlock : lock s = (.ok (), { s with locked := true }) := by simp [lock, hlocked, hpoison]
  rw [withLock, Call.bind_apply_ok hlock]
  simp only [underGuard, hm, unlockPoisoned, Call.modify_apply]

/-- A look at the slab under the mutex changes nothing. It panics when the mutex is poisoned, as the
`unwrap` on the result of `lock` does. -/
theorem withLock_read {f : Cslab α → β} (hlocked : s.locked = false) :
    withLock (onCslab fun c => .ok (f c, c)) s =
      (if s.poisoned then .error (.panicked .panic) else .ok (f s.cslab), s) := by
  cases hpoison : s.poisoned with
  | true => rw [withLock_poisoned hlocked hpoison, if_pos rfl]
  | false =>
    have hread : onCslab (fun c => .ok (f c, c)) { s with locked := true } =
        (.ok (f s.cslab), { s with locked := true }) := rfl
    rw [withLock_ok hlocked hpoison hread, if_neg Bool.false_ne_true]
    exact congrArg _ (State.unlocked_eq hlocked)

end

theorem insertLocked_eq {x : α} {free : List Nat} (hinv : s.cslab.Inv free) :
    (insertLocked x s =
        (.ok none, { s with log := s.log ++ [.destroyed .rejected x s.locked] }) ∧
        s.cslab.vacantKey = none) ∨
      ∃ i c, s.cslab.insert x = .ok (some i, c) ∧
        insertLocked x s =
          (.ok (some i), { s with cslab := c, log := s.log ++ [.inserted i x] }) := by
  cases free with
  | nil =>
    refine Or.inl ⟨?_, by rw [hinv.vacantKey_eq]; rfl⟩
    simp [insertLocked, onCslab, hinv.insert_nil, bind, destroy, Call.modify, pure]
  | cons i rest =>
    obtain ⟨c, hok, -⟩ := hinv.insert_cons x
    refine Or.inr ⟨i, c, hok, ?_⟩
    simp [insertLocked, onCslab, hok, bind, emit, Call.modify, pure]

theorem insert_eq {x : α} (hi : Inv {} s) (hlocked : s.locked = false) :
    (s.poisoned = true ∧ insert x s = (.error (.panicked .panic),
        { s with log := s.log ++ [.destroyed .rejected x false] })) ∨
      (s.poisoned = false ∧ s.cslab.vacantKey = none ∧ insert x s =
        (.ok none, { s with log := s.log ++ [.destroyed .rejected x true] })) ∨
      ∃ i c, s.poisoned = false ∧ s.cslab.insert x = .ok (some i, c) ∧
        insert x s = (.ok (some i), { s with cslab := c, log := s.log ++ [.inserted i x] }) := by
  obtain ⟨free, hinv⟩ := hi.pending.cslab
  rcases Bool.eq_false_or_eq_true s.poisoned with hpoison | hpoison
  · have hlock : lockOwning x s = (.error (.panicked .panic),
        { s with log := s.log ++ [.destroyed .rejected x false] }) := by
      simp [lockOwning, lock, destroy, Call.modify, hlocked, hpoison]
    exact Or.inl ⟨hpoison, Call.bind_apply_error hlock⟩
  · have hlock : lockOwning x s = (.ok (), { s with locked := true }) := by
      simp [lockOwning, lock, hlocked, hpoison]
    right
    rcases insertLocked_eq (s := { s with locked := true }) (x := x) hinv with
      ⟨hfull, hkey⟩ | ⟨i, c, hok, hins⟩
    · refine Or.inl ⟨hpoison, hkey, ?_⟩
      rw [insert, Call.bind_apply_ok hlock, underGuard_ok hfull]
      simp only [hlocked]
    · refine Or.inr ⟨i, c, hpoison, hok, ?_⟩
      rw [insert, Call.bind_apply_ok hlock, underGuard_ok hins]
      simp only [hlocked]

theorem markRemovedIn_eq (g idx : Nat) (hi : Inv {} s) (hlocked : s.locked = false) :
    (s.poisoned = true ∧ markRemovedIn g idx s = (.error (.panicked .panic), s)) ∨
      (s.poisoned = false ∧ (s.cslab.slot idx).liveItem = none ∧ markRemovedIn g idx s =
        (.error (.panicked .panic), { s with locked := false, poisoned := true })) ∨
      ∃ c, s.poisoned = false ∧ s.cslab.markRemoved idx = .ok c ∧ markRemovedIn g idx s =
        (.ok (), { s with
          cslab := c
          gens := s.gens.modify g fun gen =>
            { gen with pendingRemoves := gen.pendingRemoves ++ [idx] }
          log := s.log ++ [.marked g idx] }) := by
  obtain ⟨free, hinv⟩ := hi.pending.cslab
  cases hpoison : s.poisoned with
  | true =>
    refine Or.inl ⟨rfl, ?_⟩
    rw [markRemovedIn, Call.bind_apply_error (withLock_poisoned hlocked hpoison)]
  | false =>
    right
    cases hlive : (s.cslab.slot idx).liveItem with
    | none =>
      have hbit : s.cslab.storage.bit idx = false := by
        rw [hinv.bit_eq_isSome, hlive]
        rfl
      have hpanic : onCslab (fun c => return ((), ← c.markRemoved idx)) { s with locked := true } =
          (.error (.panicked .panic), { s with locked := true }) := by
        simp [onCslab, hinv.markRemoved_eq_panic hbit]
      refine Or.inl ⟨rfl, rfl, ?_⟩
      rw [markRemovedIn, Call.bind_apply_error (withLock_panicked hlocked hpoison hpanic)]
    | some x =>
      obtain ⟨c, hok, -⟩ := hinv.markRemoved_eq_ok (Slot.liveItem_eq_some.mp hlive)
      have hmark : onCslab (fun c => return ((), ← c.markRemoved idx)) { s with locked := true } =
          (.ok (), { s with cslab := c, locked := true }) := by
        simp [onCslab, hok]
      refine Or.inr ⟨c, rfl, hok, ?_⟩
      rw [markRemovedIn, Call.bind_apply_ok (withLock_ok hlocked hpoison hmark)]
      simp only [modifyGen, Call.modify_bind_apply, emit, Call.modify_apply, hlocked,
        hpoison]

/-! ### Generations and handles -/

theorem addReader_eq {g : Nat} : addReader g s = (.ok s.readers.length, { s with
    gens := s.gens.modify g fun gen => { gen with strong := gen.strong + 1 }
    storageStrong := s.storageStrong + 1
    readers := s.readers ++ [some ⟨g, []⟩] }) := rfl

theorem reach_reader {slab : Slab} (husable : s.usable = true) (hslab : s.slab = some slab) :
    ∃ s', reader s = (.ok (some s.readers.length), s') ∧ Reach ({}, s) ({}, s') := by
  refine ⟨_, ?_, .single (.addReader (Or.inl ⟨husable, slab, hslab, rfl⟩))⟩
  simp only [reader, Call.get_bind_apply, hslab, Call.bind_apply_ok addReader_eq, Call.pure_apply]

/-- The state in which a new generation has replaced the current one, before the reference of the
slab to the old one is released. -/
def State.advanced (s : State α) (slab : Slab) : State α :=
  { s with
    writerStrong := s.writerStrong + 1
    gens := (s.gens.modify slab.curGen fun gen => { gen with nextGen := some s.gens.length }) ++
      [⟨2, [], none⟩]
    slab := some { slab with curGen := s.gens.length }
    iterMut := none
    log := s.log ++ [.advanced s.gens.length] }

/-- A new generation: one action, and the release of the old generation. -/
theorem releases_advanceGeneration {slab : Slab} (hi : Inv {} s) (hslab : s.slab = some slab)
    (hlocked : s.locked = false)
    (hiter : s.iterMut.isSome = true ∨ ∀ k e, ¬HandleAt s.entries k e) :
    ∃ o s', advanceGeneration slab { s with iterMut := none } = (o, s') ∧
      Inv ⟨some slab.curGen, false, false⟩ (s.advanced slab) ∧
      Releases (⟨some slab.curGen, false, false⟩, s.advanced slab) ({}, s') ∧
      (s.poisoned = false → o = .ok ()) ∧ o ≠ .error .blocked := by
  have hi' := (Action.advance hslab hlocked hiter).inv hi
  obtain ⟨o, s', hdrop, hcases⟩ := releases_dropGenRef hi'
  rcases hcases with ⟨hblocked, -⟩ | ⟨hreleases, hends⟩
  · exact absurd (hlocked.symm.trans hblocked) (by simp)
  refine ⟨o, s', ?_, hi', hreleases, hends.eq_ok, hends.not_blocked⟩
  simp only [advanceGeneration, Call.get_bind_apply, Call.modify_bind_apply, emit]
  exact hdrop

theorem reach_advanceGeneration {slab : Slab} (hi : Inv {} s) (hslab : s.slab = some slab)
    (hlocked : s.locked = false)
    (hiter : s.iterMut.isSome = true ∨ ∀ k e, ¬HandleAt s.entries k e) :
    ∃ o s', advanceGeneration slab { s with iterMut := none } = (o, s') ∧
      Reach ({}, s) ({}, s') ∧ (s.poisoned = false → o = .ok ()) ∧ o ≠ .error .blocked ∧
      s'.slab = some { slab with curGen := s.gens.length } ∧ s'.locked = false ∧
      s'.iterMut = none ∧ s'.entries = s.entries ∧ s'.readers = s.readers ∧
      s'.poisoned = s.poisoned := by
  obtain ⟨o, s', hadvance, -, hreleases, hok, hnot⟩ :=
    releases_advanceGeneration hi hslab hlocked hiter
  obtain ⟨hlocked', hpoison', hslab', him', hentries', hreaders', -, -⟩ := hreleases.frame
  exact ⟨o, s', hadvance, .head (.advance hslab hlocked hiter) hreleases.reach, hok, hnot, hslab',
    hlocked'.trans hlocked, him', hentries', hreaders', hpoison'⟩

theorem reach_scheduleFinalization {slab : Slab} (hi : Inv {} s) (husable : s.usable = true)
    (hslab : s.slab = some slab) :
    ∃ o s', scheduleFinalization slab s = (o, s') ∧ Reach ({}, s) ({}, s') := by
  obtain ⟨-, hlocked, him, hentries⟩ := State.usable_iff.mp husable
  obtain ⟨o, s₁, hadvance, hreach, -, -, hslab₁, hlocked₁, him₁, hentries₁, -⟩ :=
    reach_advanceGeneration hi hslab hlocked (Or.inr hentries)
  rw [← him] at hadvance
  cases o with
  | error e => exact ⟨.error e, s₁, Call.bind_apply_error hadvance, hreach⟩
  | ok u =>
    have husable₁ : s₁.usable = true := by
      rw [State.usable_iff, State.Unborrowed, hslab₁, hlocked₁, him₁, hentries₁]
      exact ⟨rfl, rfl, rfl, hentries⟩
    obtain ⟨s₂, hreader, hreach₂⟩ := reach_reader husable₁ hslab₁
    exact ⟨_, s₂, (Call.bind_apply_ok hadvance).trans hreader, hreach.trans hreach₂⟩

/-- The drop of the slab releases its references in the order of its fields. -/
theorem reach_dropSlab {slab : Slab} (hi : Inv {} s) (husable : s.usable = true)
    (hslab : s.slab = some slab) :
    ∃ o s', dropSlab slab s = (o, s') ∧ Reach ({}, s) ({}, s') ∧
      (s.poisoned = false → o = .ok ()) := by
  have hlocked := (State.usable_iff.mp husable).2.1
  have hdrop := Action.dropSlab husable hslab
  have hi₁ := hdrop.inv hi
  have hmore : 1 < s.writerStrong := by
    obtain ⟨gen, hgen, halive⟩ := hi.refs.alive_of_slab hslab
    have hcount : 0 < s.gens.countP Gen.alive :=
      List.countP_pos_iff.mpr ⟨gen, List.mem_of_getElem? hgen, halive⟩
    have hwriter := hi.refs.writer
    simp only [hslab, Option.isSome_some, Bool.toNat_true] at hwriter
    omega
  obtain ⟨s₂, hwriter, hrel₂⟩ := releases_releaseWriter hi₁ (Or.inr hmore)
  have hi₂ := hrel₂.reach.inv hi₁
  obtain ⟨s₃, hstorage, hrel₃⟩ := release_releaseStorage hi₂
  obtain ⟨o, s₄, hgen, hcases⟩ := releases_dropGenRef (hrel₃.inv hi₂)
  have hrel : Releases (⟨some slab.curGen, true, true⟩, { s with slab := none })
      (⟨some slab.curGen, false, false⟩, s₃) := hrel₂.tail hrel₃
  obtain ⟨hlocked₃, hpoison₃, -⟩ := hrel.frame
  simp only at hlocked₃ hpoison₃
  rw [hlocked₃] at hcases
  rcases hcases with ⟨hblocked, -⟩ | ⟨hrel₄, hends⟩
  · exact absurd (hlocked.symm.trans hblocked) (by simp)
  · refine ⟨o, s₄, ?_, .head hdrop (Releases.reach (hrel.trans hrel₄)),
      fun hpoison => hends.eq_ok (hpoison₃.trans hpoison)⟩
    rw [dropSlab, Call.modify_bind_apply, Call.bind_apply_ok hwriter, Call.bind_apply_ok hstorage,
      hgen]

/-- The drop of a reader: it waits, or it releases the references of the reader. It waits exactly
when the mutex is held, which is the case of a vacant entry in the same thread. -/
theorem releases_readerDrop {k : Nat} {r : Reader} (hi : Inv {} s) (hk : HandleAt s.readers k r) :
    ∃ o s', readerDrop k r s = (o, s') ∧
      ((s.locked = true ∧ o = .error .blocked) ∨
        Releases (⟨some r.gen, false, true⟩, { s with readers := s.readers.set k none })
          ({}, s') ∧ DropEnds s s' o) := by
  have hi₁ := (Action.dropReader hk).inv hi
  obtain ⟨s₂, hstorage, hrel₂⟩ := release_releaseStorage hi₁
  obtain ⟨o, s₃, hgen, hcases⟩ := releases_dropGenRef (hrel₂.inv hi₁)
  have hlocked₂ : s₂.locked = s.locked := hrel₂.frame.1
  have hpoison₂ : s₂.poisoned = s.poisoned := hrel₂.frame.2.1
  have hgens₂ : s₂.gens = s.gens := hrel₂.gens_eq rfl
  refine ⟨o, s₃, ?_, ?_⟩
  · rw [readerDrop, Call.modify_bind_apply, Call.bind_apply_ok hstorage, hgen]
  · rcases hcases with ⟨hlocked, ho⟩ | ⟨hrel₃, hends⟩
    · exact Or.inl ⟨hlocked₂.symm.trans hlocked, ho⟩
    · refine Or.inr ⟨.head hrel₂ hrel₃, hends.not_blocked, ?_⟩
      rw [hends.eq_ok_iff, hpoison₂, hgens₂]

/-! ### Mutable iteration -/

theorem reach_iterMut (husable : s.usable = true) :
    ∃ o s', iterMut s = (o, s') ∧ Reach ({}, s) ({}, s') ∧ s'.slab = s.slab ∧
      s'.locked = false ∧ s'.entries = s.entries ∧ s'.poisoned = s.poisoned ∧
      ((o = .ok () ∧ s'.iterMut.isSome = true) ∨ ∃ fault, o = .error (.panicked fault)) := by
  have hlocked := (State.usable_iff.mp husable).2.1
  have hlen := withLock_read (f := Cslab.len) hlocked
  cases hpoison : s.poisoned with
  | true =>
    rw [hpoison, if_pos rfl] at hlen
    exact ⟨_, s, Call.bind_apply_error hlen, .refl, rfl, hlocked, rfl, hpoison, Or.inr ⟨_, rfl⟩⟩
  | false =>
    rw [hpoison, if_neg Bool.false_ne_true] at hlen
    exact ⟨_, _, Call.bind_apply_ok hlen, .single (.startIter husable hpoison), rfl, hlocked, rfl,
      hpoison, Or.inl ⟨rfl, rfl⟩⟩

/-- What one end of the iterator finds: nothing, or a visible item that leaves the range. -/
def Finds (s : State α) (it : Iter) (found : Except RustFault (Option (Nat × α) × Iter)) : Prop :=
  (∃ it', found = .ok (none, it') ∧ Iter.Shrinks it it') ∨
    ∃ i x it', found = .ok (some (i, x), it') ∧ Iter.Shrinks it it' ∧
      (it.head ≤ i ∧ i < it.tail) ∧ ¬(it'.head ≤ i ∧ i < it'.tail) ∧ s.cslab.slot i = .live x

theorem finds_next {it : Iter} {free : List Nat} (hinv : s.cslab.Inv free)
    (htail : it.tail ≤ s.cslab.storage.size) : Finds s it (it.next s.cslab.storage) := by
  rcases hinv.next_eq it htail with ⟨hok, -⟩ | ⟨i, x, it', hok, hslot, hle, hlt, -, hhead, ht⟩
  · exact Or.inl ⟨_, hok, it.head_le, le_rfl⟩
  · exact Or.inr ⟨i, x, it', hok, ⟨by omega, ht.le⟩, ⟨hle, hlt⟩, by omega, hslot⟩

theorem finds_nextBack {it : Iter} {free : List Nat} (hinv : s.cslab.Inv free)
    (htail : it.tail ≤ s.cslab.storage.size) : Finds s it (it.nextBack s.cslab.storage) := by
  rcases hinv.nextBack_eq it htail with ⟨hok, -⟩ | ⟨i, x, it', hok, hslot, hle, hlt, -, hhead, ht⟩
  · exact Or.inl ⟨_, hok, le_rfl, it.head_le⟩
  · exact Or.inr ⟨i, x, it', hok, ⟨hhead.ge, by omega⟩, ⟨hle, hlt⟩, by omega, hslot⟩

/-- Either end of a mutable iteration yields an entry or only moves the iterator. The entry is of a
visible item, and its handle is the next free one. -/
theorem reach_yieldEntry {slab : Slab} {im : IterMut}
    {found : Except RustFault (Option (Nat × α) × Iter)} (hslab : s.slab = some slab)
    (him : s.iterMut = some im) (hfound : Finds s im.iter found) :
    ∃ o s', yieldEntry slab im found s = (o, s') ∧ Reach ({}, s) ({}, s') ∧ s'.slab = s.slab ∧
      s'.locked = s.locked ∧ s'.poisoned = s.poisoned ∧ s'.iterMut.isSome = true ∧
      (((o = .ok none ∨ ∃ fault, o = .error (.panicked fault)) ∧ s'.entries = s.entries) ∨
        ∃ e, o = .ok (some (s.entries.length, e)) ∧ s.cslab.slot e.idx = .live e.value ∧
          s'.cslab = s.cslab ∧ s'.entries = s.entries ++ [some e]) := by
  rcases hfound with ⟨it', rfl, hshrinks⟩ | ⟨i, x, it', rfl, hshrinks, hi, hi', hlive⟩
  · refine ⟨_, _, rfl, .single (.moveIter him hshrinks), rfl, rfl, rfl, rfl, ?_⟩
    exact Or.inl ⟨Or.inl rfl, rfl⟩
  · cases hrem : usizeSub im.remaining 1 with
    | error fault =>
      refine ⟨.error (.panicked fault), { s with iterMut := some { im with iter := it' } }, ?_,
        .single (.moveIter him hshrinks), rfl, rfl, rfl, rfl, Or.inl ⟨Or.inr ⟨fault, rfl⟩, rfl⟩⟩
      simp [yieldEntry, hrem, bind, Call.liftFault, Call.modify, Call.interrupt, pure]
    | ok remaining =>
      have hyield := fun (im' : IterMut) (him' : im'.iter = it') =>
        Action.yieldEntry hslab him (him' ▸ hshrinks) hi (him' ▸ hi') hlive
      refine ⟨_, _, ?_, .single (hyield ⟨it', remaining⟩ rfl), rfl, rfl, rfl, rfl,
        Or.inr ⟨⟨i, x, slab.curGen⟩, rfl, hlive, rfl, rfl⟩⟩
      simp [yieldEntry, hrem, bind, Call.liftFault, Call.modify, Call.get, acquireGen, modifyGen,
        pure]

end ZprUtils.RcuCslab
