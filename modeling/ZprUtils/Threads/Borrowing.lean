import ZprUtils.Threads.Counting

/-!
# The borrow rules over a step

A call is started only when nothing else borrows the slab in a way that excludes it, and a thread
that goes on in a call keeps its borrow until the call returns. So the system is at any time in one
of a few situations: one thread is alone with the slab, several threads observe it, or a mutable
iteration and its entries are shared out among the threads.

## Main definitions

* `Config.Sole` — one thread is alone with the slab.

## Main results

* `Move.loans` — every move keeps the borrow rules.
-/

namespace ZprUtils.RcuCslab

variable {α : Type} {c : Config α} {t u : Nat} {th uh : Thread α} {p : Site α}

theorem threadAt_place (ht : c.ThreadAt t th) :
    (c.place t p).ThreadAt u uh ↔ u = t ∧ uh = p.thread ∨ u ≠ t ∧ c.ThreadAt u uh := by
  have hlt := (List.getElem?_eq_some_iff.mp ht).1
  simp only [Config.ThreadAt, Config.place, List.getElem?_set]
  by_cases hu : t = u
  · subst hu
    simp [hlt, eq_comm]
  · simp [hu, Ne.symm hu]

theorem Pc.borrow_eq_none {pc : Pc α} : pc.borrow = none ↔ pc = .idle := by
  cases pc <;> simp [Pc.borrow]

/-- A thread that goes on with the mutex held, or gives it back, keeps its borrow or returns. -/
theorem Pc.borrow_of_locks {pc pc' : Pc α} (h : pc.locks = some pc') : pc'.borrow = pc.borrow := by
  cases pc <;> simp only [Pc.locks, reduceCtorEq, Option.some.injEq] at h <;> subst h <;> rfl

theorem Pc.borrow_of_unlocks {pc pc' : Pc α} (h : pc.unlocks = some pc') :
    pc'.borrow = none ∨ pc'.borrow = pc.borrow := by
  cases pc <;> simp only [Pc.unlocks, reduceCtorEq, Option.some.injEq] at h <;> subst h <;>
    first | exact Or.inl rfl | exact Or.inr rfl

theorem Pc.borrow_unwind (pc : Pc α) : pc.unwind.2.borrow = pc.borrow := by
  cases pc with
  | mark m idx | markLocked m idx | markUnlock m idx | record m idx => cases m <;> rfl
  | _ => rfl

theorem Advances.borrow {pc pc' : Pc α} {u : Bool} (h : Advances pc u pc') :
    pc'.borrow = pc.borrow := by
  cases h <;> rfl

theorem MarkFor.borrow_next (m : MarkFor) :
    (m.next : Pc α).borrow = none ∨ (m.next : Pc α).borrow = some m.borrow := by
  cases m <;> first | exact Or.inl rfl | exact Or.inr rfl

/-! ### Situations -/

/-- Thread `t` is alone with the slab. -/
structure Config.Sole (c : Config α) (t : Nat) : Prop where
  iterMut : c.state.iterMut = none
  entries : c.NoEntries
  others : ∀ u uh, c.ThreadAt u uh → u ≠ t → uh.pc.borrow = none

namespace Config

theorem noEntries_of_all (h : c.state.entries.all (·.isNone) = true) : c.NoEntries := by
  intro k e hk
  have hnone := List.all_eq_true.mp h _ hk.mem
  exact absurd hnone (by simp)

theorem present_spec (h : c.present = true) :
    c.state.slab ≠ none ∧ c.vacant = none ∧ c.state.iterMut = none ∧ c.NoEntries := by
  simp only [present, Bool.and_eq_true] at h
  obtain ⟨⟨⟨hslab, hv⟩, him⟩, hentries⟩ := h
  refine ⟨fun hnone => ?_, by simpa using hv, by simpa using him, noEntries_of_all hentries⟩
  rw [hnone] at hslab
  exact absurd hslab (by simp)

theorem usable_spec (h : c.usable = true) :
    c.state.slab ≠ none ∧ c.vacant = none ∧ c.NoBorrow ∧ c.Sole t := by
  simp only [usable, Bool.and_eq_true] at h
  obtain ⟨hslab, hv, him, hentries⟩ := present_spec h.1
  have hnone : c.NoBorrow := by
    intro u uh hu
    simpa using List.all_eq_true.mp h.2 uh (List.mem_of_getElem? hu)
  exact ⟨hslab, hv, hnone, him, hentries, fun u uh hu _ => hnone u uh hu⟩

theorem sharable_spec (h : c.sharable = true) :
    c.state.slab ≠ none ∧ c.vacant = none ∧ c.state.iterMut = none ∧ c.NoEntries ∧
      ∀ u uh, c.ThreadAt u uh → uh.pc.borrow = none ∨ uh.pc.borrow = some .shared := by
  simp only [sharable, Bool.and_eq_true] at h
  obtain ⟨hslab, hv, him, hentries⟩ := present_spec h.1
  refine ⟨hslab, hv, him, hentries, fun u uh hu => ?_⟩
  have hall := List.all_eq_true.mp h.2 uh (List.mem_of_getElem? hu)
  cases hb : uh.pc.borrow with
  | none => exact Or.inl rfl
  | some b =>
    rw [hb, Option.all_some, beq_iff_eq] at hall
    exact Or.inr (by rw [hall])

namespace Loans

/-! ### Where the system is -/

variable (h : c.Loans)
include h

theorem sole_of_call (ht : c.ThreadAt t th) (hcall : th.pc.borrow = some .call) : c.Sole t := by
  obtain ⟨hothers, hentries⟩ := h.exclusive t th ht (Or.inl hcall)
  exact ⟨h.call t th ht hcall, hentries, hothers⟩

theorem sole_of_vacant (hv : c.vacant = some t) : c.Sole t := by
  obtain ⟨hnone, him, hentries⟩ := h.vacant t hv
  exact ⟨him, hentries, fun u uh hu _ => hnone u uh hu⟩

theorem slab_of_vacant (hv : c.vacant = some t) : c.state.slab ≠ none := by
  intro hslab
  rw [(h.dropped hslab).2.1] at hv
  exact absurd hv (by simp)

theorem slab_of_borrow (ht : c.ThreadAt t th) (hb : th.pc.borrow ≠ none) :
    c.state.slab ≠ none :=
  fun hslab => hb ((h.dropped hslab).1 t th ht)

theorem vacant_of_borrow (ht : c.ThreadAt t th) (hb : th.pc.borrow ≠ none) : c.vacant = none := by
  cases hv : c.vacant with
  | none => rfl
  | some u => exact absurd ((h.vacant u hv).1 t th ht) hb

/-- While there is an iterator of the owner or an entry, all borrows are parts of the iteration. So
no vacant entry is alive, and the slab has not been dropped. -/
theorem of_iteration (hiter : c.state.iterMut ≠ none ∧ c.iterable = true ∨ ¬c.NoEntries) :
    c.state.slab ≠ none ∧ c.vacant = none ∧
      ∀ u uh, c.ThreadAt u uh → uh.pc.borrow = none ∨ uh.pc.borrow = some .iter := by
  refine ⟨fun hslab => ?_, ?_, fun u uh hu => ?_⟩
  · obtain ⟨-, -, him, hentries⟩ := h.dropped hslab
    rcases hiter with ⟨hne, -⟩ | hne
    · exact hne him
    · exact hne hentries
  · cases hv : c.vacant with
    | none => rfl
    | some u =>
      obtain ⟨-, him, hentries⟩ := h.vacant u hv
      rcases hiter with ⟨hne, -⟩ | hne
      · exact absurd him hne
      · exact absurd hentries hne
  · cases hb : uh.pc.borrow with
    | none => exact Or.inl rfl
    | some b =>
      cases b with
      | iter => exact Or.inr rfl
      | shared =>
        obtain ⟨him, hentries, -⟩ := h.shared u uh hu hb
        rcases hiter with ⟨hne, -⟩ | hne
        · exact absurd him hne
        · exact absurd hentries hne
      | call =>
        rcases hiter with ⟨hne, -⟩ | hne
        · exact absurd (h.call u uh hu hb) hne
        · exact absurd (h.exclusive u uh hu (Or.inl hb)).2 hne
      | clear =>
        rcases hiter with ⟨-, hiterable⟩ | hne
        · have hall := List.all_eq_true.mp hiterable uh (List.mem_of_getElem? hu)
          exact absurd hb (by simpa using hall)
        · exact absurd (h.exclusive u uh hu (Or.inr hb)).2 hne

end Loans

/-! ### The rules in each situation -/

theorem loans_of_sole (h : c.Sole t) (hv : c.vacant = none ∨ c.NoBorrow)
    (hslab : c.state.slab ≠ none ∨ c.NoBorrow ∧ c.vacant = none) : c.Loans := by
  -- only thread `t` can have a borrow
  have honly : ∀ u uh, c.ThreadAt u uh → uh.pc.borrow ≠ none → u = t := by
    intro u uh hu hb
    by_contra hne
    exact hb (h.others u uh hu hne)
  refine ⟨fun hnone => ?_, fun u hu => ?_, fun u uh hu hex => ?_, fun _ _ _ _ => h.iterMut,
    fun u uh hu hb => ⟨h.iterMut, h.entries, fun w wh hw => ?_⟩⟩
  · rcases hslab with hslab | ⟨hnb, hv⟩
    · exact absurd hnone hslab
    · exact ⟨hnb, hv, h.iterMut, h.entries⟩
  · rcases hv with hv | hnb
    · exact absurd (hu.symm.trans hv) (by simp)
    · exact ⟨hnb, h.iterMut, h.entries⟩
  · obtain rfl := honly u uh hu (by rcases hex with hb | hb <;> rw [hb] <;> simp)
    exact ⟨h.others, h.entries⟩
  · obtain rfl := honly u uh hu (by rw [hb]; simp)
    by_cases hwu : w = u
    · subst hwu
      rw [ThreadAt, hu, Option.some.injEq] at hw
      exact Or.inr (hw ▸ hb)
    · exact Or.inl (h.others w wh hw hwu)

theorem loans_of_iteration (hslab : c.state.slab ≠ none) (hv : c.vacant = none)
    (hb : ∀ u uh, c.ThreadAt u uh → uh.pc.borrow = none ∨ uh.pc.borrow = some .iter) :
    c.Loans := by
  refine ⟨fun hnone => absurd hnone hslab, fun u hu => ?_, fun u uh hu hex => ?_,
    fun u uh hu hcall => ?_, fun u uh hu hshared => ?_⟩
  · exact absurd (hu.symm.trans hv) (by simp)
  · rcases hb u uh hu with hnone | hiter <;> rcases hex with hex | hex <;> simp_all
  · rcases hb u uh hu with hnone | hiter <;> simp_all
  · rcases hb u uh hu with hnone | hiter <;> simp_all

theorem loans_of_shared (hslab : c.state.slab ≠ none) (hv : c.vacant = none)
    (him : c.state.iterMut = none) (hentries : c.NoEntries)
    (hb : ∀ u uh, c.ThreadAt u uh → uh.pc.borrow = none ∨ uh.pc.borrow = some .shared) :
    c.Loans := by
  refine ⟨fun hnone => absurd hnone hslab, fun u hu => ?_, fun u uh hu hex => ?_,
    fun _ _ _ _ => him, fun _ _ _ _ => ⟨him, hentries, hb⟩⟩
  · exact absurd (hu.symm.trans hv) (by simp)
  · rcases hb u uh hu with hnone | hshared <;> rcases hex with hex | hex <;> simp_all

/-- The situation of a thread in `clear`, whose iterator exists. -/
theorem loans_of_clear (hslab : c.state.slab ≠ none) (hv : c.vacant = none) (hentries : c.NoEntries)
    (ht : c.ThreadAt t th) (hclear : th.pc.borrow = some .clear)
    (hothers : ∀ u uh, c.ThreadAt u uh → u ≠ t → uh.pc.borrow = none) : c.Loans := by
  have hb : ∀ u uh, c.ThreadAt u uh → uh.pc.borrow = none ∨ u = t ∧ uh.pc.borrow = some .clear := by
    intro u uh hu
    by_cases hut : u = t
    · subst hut
      rw [ThreadAt, ht, Option.some.injEq] at hu
      exact Or.inr ⟨rfl, hu ▸ hclear⟩
    · exact Or.inl (hothers u uh hu hut)
  refine ⟨fun hnone => absurd hnone hslab, fun u hu => ?_, fun u uh hu hex => ?_,
    fun u uh hu hcall => ?_, fun u uh hu hshared => ?_⟩
  · exact absurd (hu.symm.trans hv) (by simp)
  · rcases hb u uh hu with hnone | ⟨rfl, -⟩
    · rcases hex with hex | hex <;> simp_all
    · exact ⟨hothers, hentries⟩
  · rcases hb u uh hu with hnone | ⟨-, hnone⟩ <;> simp_all
  · rcases hb u uh hu with hnone | ⟨-, hnone⟩ <;> simp_all

/-- A step that gives up what it does not keep: borrows may end in any step, and only the start of a
call makes one. -/
theorem Loans.shrink (h : c.Loans) (ht : c.ThreadAt t th)
    (hslab : p.state.slab = none → c.state.slab = none)
    (hv : ∀ u, p.vacant = some u → c.vacant = some u)
    (him : c.state.iterMut = none → p.state.iterMut = none)
    (hentries : ∀ k e, HandleAt p.state.entries k e → HandleAt c.state.entries k e)
    (hb : p.thread.pc.borrow = none ∨ p.thread.pc.borrow = th.pc.borrow) :
    (c.place t p).Loans := by
  -- every borrow after the step is a borrow before it
  have hold : ∀ u uh, (c.place t p).ThreadAt u uh → uh.pc.borrow ≠ none →
      ∃ uh', c.ThreadAt u uh' ∧ uh'.pc.borrow = uh.pc.borrow := by
    intro u uh hu hne
    rcases (threadAt_place ht).mp hu with ⟨rfl, rfl⟩ | ⟨-, hu⟩
    · rcases hb with hb | hb
      · exact absurd hb hne
      · exact ⟨th, ht, hb.symm⟩
    · exact ⟨uh, hu, rfl⟩
  have hnone : ∀ u uh, (c.place t p).ThreadAt u uh →
      (∀ uh', c.ThreadAt u uh' → uh'.pc.borrow = none) → uh.pc.borrow = none := by
    intro u uh hu hall
    by_contra hne
    obtain ⟨uh', hu', hb'⟩ := hold u uh hu hne
    exact hne (hb' ▸ hall uh' hu')
  have hnoentries : c.NoEntries → (c.place t p).NoEntries :=
    fun hne k e hk => hne k e (hentries k e hk)
  refine ⟨fun hs => ?_, fun u hu => ?_, fun u uh hu hex => ?_, fun u uh hu hcall => ?_,
    fun u uh hu hshared => ?_⟩
  · obtain ⟨hnb, hvac, hi, hne⟩ := h.dropped (hslab hs)
    refine ⟨fun u uh hu => hnone u uh hu fun uh' => hnb u uh', ?_, him hi, hnoentries hne⟩
    cases hpv : p.vacant with
    | none => exact hpv
    | some u => exact absurd ((hv u hpv).symm.trans hvac) (by simp)
  · obtain ⟨hnb, hi, hne⟩ := h.vacant u (hv u hu)
    exact ⟨fun u uh hu => hnone u uh hu fun uh' => hnb u uh', him hi, hnoentries hne⟩
  · obtain ⟨uh', hu', hb'⟩ := hold u uh hu (by rcases hex with hb | hb <;> rw [hb] <;> simp)
    obtain ⟨hothers, hne⟩ := h.exclusive u uh' hu' (by simpa only [Pc.Exclusive, hb'] using hex)
    exact ⟨fun w wh hw hwu => hnone w wh hw fun wh' hw' => hothers w wh' hw' hwu,
      hnoentries hne⟩
  · obtain ⟨uh', hu', hb'⟩ := hold u uh hu (by rw [hcall]; simp)
    exact him (h.call u uh' hu' (hb'.trans hcall))
  · obtain ⟨uh', hu', hb'⟩ := hold u uh hu (by rw [hshared]; simp)
    obtain ⟨hi, hne, hall⟩ := h.shared u uh' hu' (hb'.trans hshared)
    refine ⟨him hi, hnoentries hne, fun w wh hw => ?_⟩
    by_cases hnb : wh.pc.borrow = none
    · exact Or.inl hnb
    · obtain ⟨wh', hw', hbw⟩ := hold w wh hw hnb
      exact hbw ▸ hall w wh' hw'

/-- Thread `t` is alone after a step in which it was alone. -/
theorem Sole.place (h : c.Sole t) (ht : c.ThreadAt t th) (him : p.state.iterMut = none)
    (hentries : p.state.entries = c.state.entries) : (c.place t p).Sole t := by
  refine ⟨him, fun k e hk => h.entries k e ?_, fun u uh hu hne => ?_⟩
  · rw [← hentries]
    exact hk
  · rcases (threadAt_place ht).mp hu with ⟨rfl, -⟩ | ⟨-, hu⟩
    · exact absurd rfl hne
    · exact h.others u uh hu hne

end Config

/-- The program point of a thread at which a reader is made. -/
theorem borrow_of_newReader {pc : Pc α} {g : Nat}
    (hg : (∃ slab, c.state.slab = some slab ∧ slab.curGen = g) ∧
        ((∃ clear, pc = .newReader clear) ∨ pc = .idle ∧ c.sharable = true) ∨
      pc = .idle ∧ ∃ k r, HandleAt c.state.readers k r ∧ r.gen = g) :
    pc = .idle ∨ ∃ clear, pc = .newReader clear := by
  rcases hg with ⟨-, hpc | ⟨hpc, -⟩⟩ | ⟨hpc, -⟩
  · exact Or.inr hpc
  · exact Or.inl hpc
  · exact Or.inl hpc

/-! ### Moves -/

/-- **The borrow rules.** Every move keeps them: a call takes its borrow when it starts, if no other
call has one that excludes it, and gives it back when it returns or unwinds. -/
theorem Move.loans (h : Move c t th p) (hi : ThreadInv c) (ht : c.ThreadAt t th) :
    (c.place t p).Loans := by
  have hl := hi.loans
  cases h with
  | storage | storageLast | writer | writerLast | gen | genLast | finalize | finalizing | finalized
  | dropItem | dropFields =>
    exact hl.shrink ht id (fun _ => id) id (fun _ _ => id) (Or.inr rfl)
  | @leak ds pc g indices next hpoison =>
    exact hl.shrink ht id (fun _ => id) id (fun _ _ => id) (Or.inr pc.borrow_unwind)
  | lock hpc hlocked hpoison =>
    exact hl.shrink ht id (fun _ => id) id (fun _ _ => id) (Or.inr (Pc.borrow_of_locks hpc))
  | unlock hpc =>
    exact hl.shrink ht id (fun _ => id) id (fun _ _ => id) (Pc.borrow_of_unlocks hpc)
  | @unwind pc log hpc hpoison hlog =>
    exact hl.shrink ht id (fun _ => id) id (fun _ _ => id) (Or.inr pc.borrow_unwind)
  | full | insert | reject | mark | count =>
    exact hl.shrink ht id (fun _ => id) id (fun _ _ => id) (Or.inr rfl)
  | @poison m idx hm hbit =>
    refine hl.shrink ht id (fun _ => id) id (fun _ _ => id) (Or.inr ?_)
    cases m with
    | markRemoved | remove => rfl
    | entry g | clear g => exact absurd hm (by simp [MarkFor.ofEntry])
  | @record u m idx g x htarget hx halive =>
    exact hl.shrink ht id (fun _ => id) id (fun _ _ => id) m.borrow_next
  | ret => exact hl.shrink ht id (fun _ => id) id (fun _ _ => id) (Or.inl rfl)
  | exhaust him hnext | clearNext hslab him hnext hgen halive =>
    refine hl.shrink ht id (fun _ => id) (fun hnone => ?_) (fun _ _ => id) (Or.inr rfl)
    exact absurd (him.symm.trans hnone) (by simp)
  | @advance pc pc' u slab x im hpc him hslab hx =>
    refine hl.shrink ht (fun hnone => ?_) (fun _ => id) (fun hnone => ?_) (fun _ _ => id)
      (Or.inr hpc.borrow)
    · exact absurd hnone (by simp [State.nextGeneration])
    · show im = none
      rw [him, hnone, ite_self]
  | newReader hg hgen halive =>
    exact hl.shrink ht id (fun _ => id) id (fun _ _ => id) (Or.inl rfl)
  | iterNone hiterable him hnext =>
    refine hl.shrink ht id (fun _ => id) (fun hnone => ?_) (fun _ _ => id) (Or.inl rfl)
    exact absurd (him.symm.trans hnone) (by simp)
  | readerDrop hk | setIters hk htail =>
    exact hl.shrink ht id (fun _ => id) id (fun _ _ => id) (Or.inl rfl)
  | panicVacant hv =>
    refine hl.shrink ht id (fun u hu => ?_) id (fun _ _ => id) (Or.inl rfl)
    exact absurd hu (by simp)
  | reserve hlocked hpoison hkey =>
    have hsole := hl.sole_of_call ht rfl
    have hslab := hl.slab_of_borrow ht (by simp [Pc.borrow])
    refine Config.loans_of_sole (hsole.place ht hsole.iterMut rfl) (Or.inr fun u uh hu => ?_)
      (Or.inl hslab)
    rcases (threadAt_place ht).mp hu with ⟨-, rfl⟩ | ⟨hne, hu⟩
    · rfl
    · exact hsole.others u uh hu hne
  | @startIter u clear remaining =>
    have hborrow : (Pc.startIter clear remaining : Pc α).borrow ≠ none := by simp [Pc.borrow]
    have hslab := hl.slab_of_borrow ht hborrow
    have hv := hl.vacant_of_borrow ht hborrow
    obtain ⟨hothers, hentries⟩ := hl.exclusive t _ ht (by
      cases clear
      · exact Or.inl rfl
      · exact Or.inr rfl)
    have hothers' : ∀ w wh, (c.place t ⟨{ c.state with
        iterMut := some ⟨.new c.state.cslab.storage, remaining⟩ }, c.vacant,
        ⟨[], if clear then .clearLoop else .idle, u⟩⟩).ThreadAt w wh → w ≠ t →
        wh.pc.borrow = none := by
      intro w wh hw hne
      rcases (threadAt_place ht).mp hw with ⟨rfl, -⟩ | ⟨-, hw⟩
      · exact absurd rfl hne
      · exact hothers w wh hw hne
    cases clear with
    | false =>
      refine Config.loans_of_iteration hslab hv fun w wh hw => ?_
      by_cases hwt : w = t
      · rcases (threadAt_place ht).mp hw with ⟨-, rfl⟩ | ⟨hne, -⟩
        · exact Or.inl rfl
        · exact absurd hwt hne
      · exact Or.inl (hothers' w wh hw hwt)
    | true =>
      exact Config.loans_of_clear hslab hv hentries
        ((threadAt_place ht).mpr (Or.inl ⟨rfl, rfl⟩)) rfl hothers'
  | observe hsharable =>
    obtain ⟨hslab, hv, him, hentries, hall⟩ := Config.sharable_spec hsharable
    refine Config.loans_of_shared hslab hv him hentries fun u uh hu => ?_
    rcases (threadAt_place ht).mp hu with ⟨-, rfl⟩ | ⟨-, hu⟩
    · exact Or.inr rfl
    · exact hall u uh hu
  | enter husable hpc =>
    obtain ⟨hslab, hv, -, hsole⟩ := Config.usable_spec (t := t) husable
    exact Config.loans_of_sole (hsole.place ht hsole.iterMut rfl) (Or.inl hv) (Or.inl hslab)
  | dropSlab husable hslab =>
    obtain ⟨-, hv, hnone, hsole⟩ := Config.usable_spec (t := t) husable
    refine Config.loans_of_sole (hsole.place ht hsole.iterMut rfl) (Or.inl hv)
      (Or.inr ⟨fun u uh hu => ?_, hv⟩)
    rcases (threadAt_place ht).mp hu with ⟨-, rfl⟩ | ⟨-, hu⟩
    · rfl
    · exact hnone u uh hu
  | fillVacant hv | dropVacant hv =>
    have hsole := hl.sole_of_vacant hv
    exact Config.loans_of_sole (hsole.place ht hsole.iterMut rfl) (Or.inl rfl)
      (Or.inl (hl.slab_of_vacant hv))
  | iterNext hiterable hslab him hnext hgen halive =>
    obtain ⟨hslab', hv, hall⟩ := hl.of_iteration (Or.inl ⟨by rw [him]; simp, hiterable⟩)
    refine Config.loans_of_iteration hslab' hv fun u uh hu => ?_
    rcases (threadAt_place ht).mp hu with ⟨-, rfl⟩ | ⟨-, hu⟩
    · exact Or.inl rfl
    · exact hall u uh hu
  | iterDrop hiterable him =>
    obtain ⟨hslab, hv, hall⟩ := hl.of_iteration (Or.inl ⟨fun hnone => by simp [hnone] at him,
      hiterable⟩)
    refine Config.loans_of_iteration hslab hv fun u uh hu => ?_
    rcases (threadAt_place ht).mp hu with ⟨-, rfl⟩ | ⟨-, hu⟩
    · exact Or.inr rfl
    · exact hall u uh hu
  | @entryRemove u k e hk | @entryDrop u k e hk =>
    obtain ⟨hslab, hv, hall⟩ := hl.of_iteration (Or.inr fun hnone => hnone k e hk)
    refine Config.loans_of_iteration hslab hv fun u uh hu => ?_
    rcases (threadAt_place ht).mp hu with ⟨-, rfl⟩ | ⟨-, hu⟩
    · exact Or.inr rfl
    · exact hall u uh hu

end ZprUtils.RcuCslab
