import ZprUtils.Threads.Moves

/-!
# Every step is a move

In a system with the invariant no step of a thread faults. Whatever a thread accesses is kept alive
by a reference that is counted, a removal that is finalized is pending, and the assertions of the
slab hold; so every step waits, is a move, or aborts the process because a destructor panics while
its thread unwinds.

## Main results

* `runDrop_sound`, `runPc_sound` — one step of a destructor and of a call.
* `step_cases` — one step of the system.
-/

namespace ZprUtils.RcuCslab

variable {α : Type} {c c' : Config α} {t : Nat} {th : Thread α}

/-! ### Sound outcomes -/

/-- The outcome of a step of thread `t`, which has the destructors `rest` left, is a move. -/
def Turn.Sound (c : Config α) (t : Nat) (th : Thread α) (rest : List (Drop α)) :
    Turn α → Prop
  | .waits => True
  | .goes s drops pc =>
    Move c t th ⟨s, c.vacant, { th with drops := drops ++ rest, pc }⟩
  | .reserves s =>
    Move c t th ⟨s, some t, { th with drops := rest, pc := .idle }⟩
  | .panics s drops =>
    (th.unwinding = true → s = c.state) ∧
      (th.unwinding = false → Move c t th
        ⟨s, c.vacant, ⟨drops ++ rest ++ th.pc.unwind.1, th.pc.unwind.2, true⟩⟩)
  | .faults _ => False

theorem sound_takeLock {rest : List (Drop α)} {poisoned : Turn α}
    {locked : State α → Turn α} (hwriter : 0 < c.state.writerStrong)
    (hpoisoned : c.state.poisoned = true → poisoned.Sound c t th rest)
    (hlocked : c.state.locked = false → c.state.poisoned = false →
      (locked { c.state with locked := true }).Sound c t th rest) :
    (takeLock c.state poisoned locked).Sound c t th rest := by
  rw [takeLock, if_neg hwriter.ne']
  split_ifs with hl hp
  · trivial
  · exact hpoisoned hp
  · exact hlocked (by simpa using hl) (by simpa using hp)

theorem sound_dropGuard {rest : List (Drop α)} {k : State α → Turn α}
    (hwriter : 0 < c.state.writerStrong)
    (hk : (k { c.state with locked := false }).Sound c t th rest) :
    (dropGuard c.state k).Sound c t th rest := by
  rw [dropGuard, if_neg hwriter.ne']
  exact hk

theorem sound_onStorage {β : Type} {s : State α} {rest : List (Drop α)} {f : Except RustFault β}
    {k : β → Turn α} {b : β} (hstorage : 0 < s.storageStrong) (hf : f = .ok b)
    (hk : (k b).Sound c t th rest) : (onStorage s f k).Sound c t th rest := by
  simp only [onStorage, if_neg hstorage.ne', hf]
  exact hk

theorem sound_onGen {s : State α} {rest : List (Drop α)} {k : Gen → Turn α} {g : Nat}
    (halive : Alive s.gens g)
    (hk : ∀ gen, s.gens[g]? = some gen → gen.alive = true → (k gen).Sound c t th rest) :
    (onGen s g k).Sound c t th rest := by
  obtain ⟨gen, hgen, hgenalive⟩ := halive
  have hne : gen.strong ≠ 0 := by simpa [Gen.alive] using hgenalive
  rw [onGen, hgen]
  simp only [if_neg hne]
  exact hk gen hgen hgenalive

theorem sound_onSlab {s : State α} {rest : List (Drop α)} {k : Slab → Turn α}
    (hslab : s.slab.isSome = true) (hk : ∀ slab, s.slab = some slab → (k slab).Sound c t th rest) :
    (onSlab s k).Sound c t th rest := by
  obtain ⟨slab, hs⟩ := Option.isSome_iff_exists.mp hslab
  simp only [onSlab, hs]
  exact hk slab hs

/-! ### What keeps things alive -/

section

variable (hi : ThreadInv c) (ht : c.ThreadAt t th)
include hi ht

theorem genRefs_pos {g : Nat} (h : 0 < th.genRefs g) : Alive c.state.gens g :=
  hi.refs.alive_of_pos (h.trans_le (le_total (w := (Thread.genRefs · g)) ht))

theorem writerRefs_pos (h : 0 < th.writerRefs) : 0 < c.state.writerStrong :=
  hi.refs.writerStrong_pos (Or.inr (h.trans_le (le_total ht)))

theorem storageRefs_pos (h : 0 < th.storageRefs) : 0 < c.state.storageStrong :=
  hi.refs.storageStrong_pos (Or.inr (Or.inr (h.trans_le (le_total ht))))

/-- A thread that borrows the slab keeps it. -/
theorem slab_of_borrow (h : th.pc.borrow ≠ none) : c.state.slab.isSome = true := by
  cases hslab : c.state.slab with
  | some slab => rfl
  | none => exact absurd ((hi.loans.dropped hslab).1 t th ht) h

theorem writer_of_borrow (h : th.pc.borrow ≠ none) : 0 < c.state.writerStrong :=
  hi.refs.writerStrong_pos (Or.inl (slab_of_borrow hi ht h))

theorem storage_of_borrow (h : th.pc.borrow ≠ none) : 0 < c.state.storageStrong :=
  hi.refs.storageStrong_pos (Or.inl (writer_of_borrow hi ht h))

/-- A slot whose finalization is in flight is pending. -/
theorem pending_of_records {i : Nat} (h : 0 < th.records i) :
    ∃ x, c.state.cslab.slot i = .pending x := by
  refine hi.removals.slot i (h.trans_le ?_)
  have hle := le_total (w := (Thread.records · i)) ht
  rw [Config.load]
  omega

end

/-! ### Destructors -/

/-- **A step of a destructor** is a move. The destructor of a generation takes the mutex, finalizes
its removals, gives the mutex back, destroys the items, and drops its fields; with a poisoned mutex
it panics instead. -/
theorem runDrop_sound {d : Drop α} {ds : List (Drop α)} {pc : Pc α} {u : Bool} (hi : ThreadInv c)
    (ht : c.ThreadAt t ⟨d :: ds, pc, u⟩) :
    (runDrop c.state pc d).Sound c t ⟨d :: ds, pc, u⟩ ds := by
  obtain ⟨free, hc⟩ := hi.removals.cslab
  cases d with
  | storage =>
    have hpos := storageRefs_pos hi ht (by
      simp only [Thread.storageRefs, total_cons, Drop.storageRefs]; omega)
    rw [runDrop]
    split
    · omega
    · rename_i hone
      obtain ⟨items, hitems, -⟩ := hc.items_eq
      refine sound_onStorage hpos hitems ?_
      have hmove : Move c t ⟨.storage :: ds, pc, u⟩ _ := Move.storageLast hone hitems
      rw [hone] at hmove
      exact hmove
    · rename_i n hn
      have hmove : Move c t ⟨.storage :: ds, pc, u⟩ _ := Move.storage (by omega)
      rw [hn] at hmove
      exact hmove
  | writer =>
    have hpos := writerRefs_pos hi ht (by
      simp only [Thread.writerRefs, total_cons, Drop.writerRefs]; omega)
    rw [runDrop]
    split
    · omega
    · rename_i hone
      exact Move.writerLast hone
    · rename_i n hn
      have hmove : Move c t ⟨.writer :: ds, pc, u⟩ _ := Move.writer (by omega)
      rw [hn] at hmove
      exact hmove
  | gen g =>
    have hpos : 0 < (⟨.gen g :: ds, pc, u⟩ : Thread α).genRefs g := by
      simp only [Thread.genRefs, total_cons, Drop.genRefs, beq_self_eq_true, Bool.toNat_true]
      omega
    have halive := genRefs_pos hi ht hpos
    refine sound_onGen halive fun gen hgen hgenalive => ?_
    have hne : gen.strong ≠ 0 := by simpa [Gen.alive] using hgenalive
    split_ifs with hone
    · exact Move.genLast hgen hone
    · exact Move.gen hgen (by omega)
  | finalize g indices next =>
    have hwriter := writerRefs_pos hi ht (by
      simp only [Thread.writerRefs, total_cons, Drop.writerRefs]; omega)
    rw [runDrop]
    refine sound_takeLock hwriter ?_ ?_
    · intro hp
      refine ⟨fun _ => rfl, ?_⟩
      rintro ⟨⟩
      exact Move.leak hp
    · intro hl hp
      exact Move.finalize hl hp
  | finalizing g indices items next =>
    have hwriter := writerRefs_pos hi ht (by
      simp only [Thread.writerRefs, total_cons, Drop.writerRefs]; omega)
    cases indices with
    | nil =>
      rw [runDrop]
      refine sound_dropGuard hwriter ?_
      exact Move.finalized
    | cons idx indices =>
      obtain ⟨x, hx⟩ := pending_of_records hi ht (i := idx)
        (by
          simp only [Thread.records, total_cons, Drop.records, List.count_cons_self]; omega)
      obtain ⟨cslab, hok, -⟩ := hc.finalizeRemove_eq_ok hx
      refine sound_onStorage (hi.refs.storageStrong_pos (Or.inl hwriter)) hok ?_
      exact Move.finalizing hok
  | items g items next =>
    cases items with
    | nil => exact Move.dropFields
    | cons p items => exact Move.dropItem

/-! ### Calls -/

section

variable {pc pc' : Pc α} {u : Bool} (hi : ThreadInv c) (ht : c.ThreadAt t ⟨[], pc, u⟩)
include hi ht

/-- A thread that waits for the mutex does not unwind. -/
theorem not_unwinding (h : pc.abandoned = false) : u = false := by
  cases u with
  | false => rfl
  | true =>
    obtain ⟨-, habandoned⟩ := (hi.iteration.threads t _ ht).unwinding rfl
    exact absurd (h.symm.trans habandoned) (by simp)

theorem sound_panics {log : List (Event α)} (hpc : pc.waiting = true)
    (hpoison : c.state.poisoned = true) (hlog : log = c.state.log ∨
      ∃ x, pc = .insert x ∧ log = c.state.log ++ [.destroyed .rejected x false]) :
    (Turn.panics { c.state with log } []).Sound c t ⟨[], pc, u⟩ [] := by
  obtain rfl : u = false := by
    refine not_unwinding hi ht ?_
    cases pc <;> first | rfl | exact absurd hpc (by simp [Pc.waiting])
  refine ⟨fun h => absurd h (by simp), fun _ => ?_⟩
  exact Move.unwind hpc hpoison hlog

/-- A call that takes the mutex. -/
theorem sound_lock (hpc : pc.locks = some pc') (hwaiting : pc.waiting = true)
    (hborrow : pc.borrow ≠ none) {log : List (Event α)} (hlog : log = c.state.log ∨
      ∃ x, pc = .insert x ∧ log = c.state.log ++ [.destroyed .rejected x false]) :
    (takeLock c.state (.panics { c.state with log } []) fun s => .goes s [] pc').Sound c t
      ⟨[], pc, u⟩ [] := by
  refine sound_takeLock (writer_of_borrow hi ht hborrow) ?_ ?_
  · intro hp
    exact sound_panics hi ht hwaiting hp hlog
  · intro hl hp
    exact Move.lock hpc hl hp

/-- A call that gives the mutex back. -/
theorem sound_unlock (hpc : pc.unlocks = some pc') (hborrow : pc.borrow ≠ none) :
    (dropGuard c.state fun s => .goes s [] pc').Sound c t ⟨[], pc, u⟩ [] := by
  refine sound_dropGuard (writer_of_borrow hi ht hborrow) ?_
  exact Move.unlock hpc

/-- `advance_generation` finds a generation without a successor. -/
theorem sound_advance {im : Option IterMut} (hpc : Advances pc u pc')
    (him : im = if pc.iterating then none else c.state.iterMut) (hborrow : pc.borrow ≠ none) :
    (runAdvance { c.state with iterMut := im } pc').Sound c t ⟨[], pc, u⟩ [] := by
  refine sound_onSlab (slab_of_borrow hi ht hborrow) fun slab hslab => ?_
  refine sound_onGen (hi.refs.alive_of_slab hslab) fun gen hgen _ => ?_
  have hcur := hi.refs.curGen slab hslab
  have hnone : gen.nextGen = none := by
    rw [hi.refs.nextGen _ _ hgen, if_neg (by omega)]
  rw [hnone]
  exact Move.advance hpc him hslab hgen

end

/-- A removal in flight has a generation to be recorded in: the current one, which the slab refers
to, or the one that the entry or the call of `clear` refers to. -/
theorem target_alive {m : MarkFor} {idx : Nat} {u : Bool} (hi : ThreadInv c)
    (ht : c.ThreadAt t ⟨[], .record m idx, u⟩) :
    ∃ g, m.target c.state = some g ∧ Alive c.state.gens g := by
  have hslab := slab_of_borrow hi ht (by simp [Pc.borrow])
  obtain ⟨slab, hs⟩ := Option.isSome_iff_exists.mp hslab
  cases m with
  | markRemoved | remove =>
    exact ⟨slab.curGen, by simp [MarkFor.target, hs], hi.refs.alive_of_slab hs⟩
  | entry g | clear g =>
    refine ⟨g, rfl, genRefs_pos hi ht ?_⟩
    simp [Thread.genRefs, Pc.genRefs, MarkFor.genRefs]

theorem marks_pos {m : MarkFor} {idx : Nat} {u : Bool}
    (ht : c.ThreadAt t ⟨[], .markLocked m idx, u⟩) (hm : m.ofEntry = true) : 0 < c.marks idx := by
  have hle := le_total (w := (Thread.marks · idx)) ht
  have hself : (⟨[], .markLocked m idx, u⟩ : Thread α).marks idx = 1 := by
    simp [Thread.marks, Pc.marks, hm]
  rw [Config.marks]
  omega

/-- **A step of a call** is a move. The invariant excludes the faults: an index that was checked is
present, a counter that is decreased is positive, and so on. -/
theorem runPc_sound {pc : Pc α} {u : Bool} (hi : ThreadInv c) (ht : c.ThreadAt t ⟨[], pc, u⟩) :
    (runPc c.state u pc).Sound c t ⟨[], pc, u⟩ [] := by
  obtain ⟨free, hc⟩ := hi.removals.cslab
  cases pc with
  | idle => trivial
  | observe => exact sound_lock hi ht rfl rfl (by simp [Pc.borrow]) (Or.inl rfl)
  | observed => exact sound_unlock hi ht rfl (by simp [Pc.borrow])
  | insert x =>
    exact sound_lock hi ht rfl rfl (by simp [Pc.borrow]) (Or.inr ⟨x, rfl, rfl⟩)
  | insertLocked unwrap x =>
    have hstorage := storage_of_borrow hi ht (by simp [Pc.borrow])
    cases free with
    | nil =>
      refine sound_onStorage hstorage (hc.insert_nil x) ?_
      cases unwrap with
      | false => exact Move.reject
      | true =>
        have hkey := (hi.iteration.threads t _ ht).insert x rfl
        rw [hc.vacantKey_eq] at hkey
        exact absurd hkey (by simp)
    | cons i rest =>
      obtain ⟨cslab, hok, -⟩ := hc.insert_cons x
      refine sound_onStorage hstorage hok ?_
      exact Move.insert hok
  | unlock => exact sound_unlock hi ht rfl (by simp [Pc.borrow])
  | vacantEntry =>
    rw [runPc]
    refine sound_takeLock (writer_of_borrow hi ht (by simp [Pc.borrow])) ?_ ?_
    · intro hp
      exact sound_panics hi ht rfl hp (Or.inl rfl)
    · intro hl hp
      refine sound_onStorage (storage_of_borrow hi ht (by simp [Pc.borrow])) rfl ?_
      cases hkey : c.state.cslab.vacantKey with
      | none => exact Move.full hl hp
      | some i => exact Move.reserve hl hp (by rw [hkey]; rfl)
  | mark m idx => exact sound_lock hi ht rfl rfl (by simp [Pc.borrow]) (Or.inl rfl)
  | markLocked m idx =>
    have hstorage := storage_of_borrow hi ht (by simp [Pc.borrow])
    rw [runPc]
    cases hb : c.state.cslab.storage.bit idx with
    | true =>
      obtain ⟨x, hx⟩ := hc.item_of_bit idx hb
      obtain ⟨cslab, hok, -⟩ := hc.markRemoved_eq_ok (Cslab.slot_eq_live.mpr ⟨hx, hb⟩)
      rw [hok]
      refine sound_onStorage hstorage rfl ?_
      exact Move.mark hok
    | false =>
      rw [hc.markRemoved_eq_panic hb]
      obtain rfl := not_unwinding hi ht rfl
      refine ⟨fun h => absurd h (by simp), fun _ => ?_⟩
      cases hm : m.ofEntry with
      | true =>
        -- an entry that is about to be marked is visible
        obtain ⟨x, hx⟩ := (hi.iteration.marked idx (marks_pos ht hm)).2.1
        exact absurd (hb.symm.trans (Cslab.slot_eq_live.mp hx).2) (by simp)
      | false =>
        have hmove := Move.poison (c := c) (t := t) hm hb
        cases m with
        | markRemoved | remove => exact hmove
        | entry g | clear g => exact absurd hm (by simp [MarkFor.ofEntry])
  | markUnlock m idx => exact sound_unlock hi ht rfl (by simp [Pc.borrow])
  | record m idx =>
    obtain ⟨g, htarget, halive⟩ := target_alive hi ht
    rw [runPc, htarget]
    refine sound_onGen halive fun gen hgen hgenalive => ?_
    have hmove : Move c t ⟨[], .record m idx, u⟩ _ := Move.record htarget hgen hgenalive
    simpa [Turn.Sound] using hmove
  | iterMut clear => exact sound_lock hi ht rfl rfl (by simp [Pc.borrow]) (Or.inl rfl)
  | iterMutLocked clear => exact Move.count
  | iterMutUnlock clear remaining => exact sound_unlock hi ht rfl (by simp [Pc.borrow])
  | startIter clear remaining =>
    refine sound_onStorage (storage_of_borrow hi ht (by simp [Pc.borrow])) rfl ?_
    exact Move.startIter
  | clearLoop =>
    have hstorage := storage_of_borrow hi ht (by simp [Pc.borrow])
    have hiter := (hi.iteration.threads t _ ht).clear rfl
    obtain ⟨im, him⟩ := Option.isSome_iff_exists.mp (hiter.trans rfl)
    obtain ⟨-, htail, hleft⟩ := hi.iteration.iterMut im him
    refine sound_onSlab (slab_of_borrow hi ht (by simp [Pc.borrow])) fun slab hslab => ?_
    simp only [him]
    rcases hc.advance_eq .front im.iter htail with
      ⟨it, hok, -⟩ | ⟨i, x, it, hok, -, -, -, -, -, -, hleft'⟩
    · refine sound_onStorage hstorage hok ?_
      exact Move.exhaust him hok
    · refine sound_onStorage hstorage hok ?_
      refine sound_onStorage hstorage (usizeSub_eq_ok (b := 1) (by omega)) ?_
      refine sound_onGen (hi.refs.alive_of_slab hslab) fun gen hgen halive => ?_
      exact Move.clearNext hslab him hok hgen halive
  | dropIterMut =>
    refine sound_advance hi ht ?_ rfl (by simp [Pc.borrow])
    cases u with
    | false => exact Advances.clear
    | true => exact Advances.unwound
  | advance dropIter =>
    refine sound_advance hi ht ?_ rfl (by simp [Pc.borrow])
    cases dropIter with
    | false => exact Advances.call
    | true => exact Advances.dropIter
  | newReader clear =>
    refine sound_onSlab (slab_of_borrow hi ht (by simp [Pc.borrow])) fun slab hslab => ?_
    refine sound_onGen (hi.refs.alive_of_slab hslab) fun gen hgen halive => ?_
    exact Move.newReader (Or.inl ⟨⟨slab, hslab, rfl⟩, Or.inl ⟨clear, rfl⟩⟩) hgen halive
  | ret b => exact Move.ret

/-! ### Starts of calls -/

/-- The start of a call by thread `t` changes nothing, or is a move. -/
def Started (c : Config α) (t : Nat) (u : Bool) (r : Except RustFault (Config α)) : Prop :=
  ∃ c', r = .ok c' ∧
    (c' = c ∨ ∃ p, Move c t ⟨[], .idle, u⟩ p ∧ c' = c.place t p)

section

variable {u : Bool} {r : Except RustFault (Config α)} (hi : ThreadInv c)
  (ht : c.ThreadAt t ⟨[], .idle, u⟩)

theorem started_of_place {p : Site α} (h : Move c t ⟨[], .idle, u⟩ p) :
    Started c t u (.ok (c.place t p)) :=
  ⟨_, rfl, Or.inr ⟨p, h, rfl⟩⟩

include ht in
/-- A call that is over in one step changes the shared state only. -/
theorem started_of_state {s : State α} {v : Option Nat}
    (h : Move c t ⟨[], .idle, u⟩ ⟨s, v, ⟨[], .idle, u⟩⟩) :
    Started c t u (.ok { c with state := s, vacant := v }) := by
  refine ⟨_, rfl, Or.inr ⟨_, h, ?_⟩⟩
  rw [Config.place, set_self_of_getElem? ht]

theorem started_enterShared (h : c.enterShared t = some r) : Started c t u r := by
  obtain ⟨hsharable, hr⟩ := Option.ite_none_right_eq_some.mp h
  obtain rfl := Option.some.inj hr
  exact started_of_place (Move.observe hsharable)

theorem started_enterCall {pc : Pc α} (hpc : pc.entersCall = true)
    (h : c.enterCall t pc = some r) : Started c t u r := by
  obtain ⟨husable, hr⟩ := Option.ite_none_right_eq_some.mp h
  obtain rfl := Option.some.inj hr
  exact started_of_place (Move.enter husable hpc)

theorem started_read {β : Type} {found : Except RustFault β} {b : β} {k : β → State α}
    (hstorage : 0 < c.state.storageStrong) (hfound : found = .ok b)
    (hk : Started c t u (.ok { c with state := k b })) : Started c t u (c.read found k) := by
  rw [Config.read, if_neg hstorage.ne', hfound]
  exact hk

include ht in
theorem started_addReader {g : Nat} (halive : Alive c.state.gens g)
    (hg : (∃ slab, c.state.slab = some slab ∧ slab.curGen = g) ∧ c.sharable = true ∨
      ∃ k r, HandleAt c.state.readers k r ∧ r.gen = g) : Started c t u (c.addReader g) := by
  obtain ⟨gen, hgen, hgenalive⟩ := halive
  have hne : gen.strong ≠ 0 := by simpa [Gen.alive] using hgenalive
  simp only [Config.addReader, hgen, if_neg hne]
  refine started_of_state ht (Move.newReader ?_ hgen hgenalive)
  rcases hg with ⟨hslab, hsharable⟩ | hreader
  · exact Or.inl ⟨hslab, Or.inr ⟨rfl, hsharable⟩⟩
  · exact Or.inr ⟨rfl, hreader⟩

include hi ht in
/-- A call of the owner's iterator. -/
theorem started_yieldEntry {slab : Slab} {im : IterMut} {e : IterEnd}
    (hslab : c.state.slab = some slab) (him : c.state.iterMut = some im)
    (hiterable : c.iterable = true) :
    Started c t u (c.yieldEntry slab im (im.iter.advance c.state.cslab.storage e)) := by
  obtain ⟨free, hc⟩ := hi.removals.cslab
  obtain ⟨-, htail, hleft⟩ := hi.iteration.iterMut im him
  have hwriter := hi.refs.writerStrong_pos (Or.inl (by rw [hslab]; rfl))
  have hstorage := hi.refs.storageStrong_pos (Or.inl hwriter)
  rw [Config.yieldEntry, if_neg hstorage.ne']
  rcases hc.advance_eq e im.iter htail with
    ⟨it, hok, -⟩ | ⟨i, x, it, hok, -, -, -, -, -, -, hleft'⟩
  · rw [hok]
    exact started_of_state ht (Move.iterNone hiterable him hok)
  · obtain ⟨gen, hgen, halive⟩ := hi.refs.alive_of_slab hslab
    rw [hok]
    simp only [except_ok_bind, usizeSub_eq_ok (show 1 ≤ im.remaining by omega), hgen, except_pure]
    exact started_of_state ht (Move.iterNext hiterable hslab him hok hgen halive)

theorem storage_of_reader {k : Nat} {rd : Reader} (hi : ThreadInv c)
    (hk : HandleAt c.state.readers k rd) : 0 < c.state.storageStrong := by
  refine hi.refs.storageStrong_pos (Or.inr (Or.inl ?_))
  exact countHandles_pos hk rfl

theorem storage_of_sharable (hi : ThreadInv c) (h : c.sharable = true) :
    0 < c.state.storageStrong := by
  simp only [Config.sharable, Config.present, Bool.and_eq_true, and_assoc] at h
  exact hi.refs.storageStrong_pos (Or.inl (hi.refs.writerStrong_pos (Or.inl h.1)))

include hi ht in
/-- A call of an iterator of a reader. -/
theorem started_readerAdvance {h k : Nat} {rd : Reader} {it : Iter} (e : IterEnd)
    (hk : HandleAt c.state.readers h rd) (hit : rd.iters[k]? = some it) :
    Started c t u (c.read (it.advance c.state.cslab.storage e) fun found =>
      { c.state with
        readers := c.state.readers.set h (some { rd with iters := rd.iters.set k found.2 }) }) := by
  obtain ⟨free, hc⟩ := hi.removals.cslab
  have htail := hi.iteration.readerIter h rd hk it (List.mem_of_getElem? hit)
  obtain ⟨item, it', hok, htail'⟩ : ∃ item it', it.advance c.state.cslab.storage e =
      .ok (item, it') ∧ it'.tail ≤ c.state.cslab.storage.size := by
    rcases hc.advance_eq e it htail with ⟨it', hok, htail', -⟩ | ⟨i, x, it', hok, htail', -⟩
    · exact ⟨none, it', hok, htail'⟩
    · exact ⟨some (i, x), it', hok, htail'⟩
  refine started_read (storage_of_reader hi hk) hok ?_
  refine started_of_state ht (Move.setIters hk fun it₁ hit₁ => ?_)
  rcases List.mem_or_eq_of_mem_set hit₁ with hmem | rfl
  · exact hi.iteration.readerIter h rd hk it₁ hmem
  · exact htail'

include hi ht in
/-- **The start of a call** is a move, if the borrow rules allow the call: it takes what it needs
from the shared state and leaves the rest of the call to later steps. -/
theorem started_of_start {op : Op α} (h : c.start t op = some r) : Started c t u r := by
  obtain ⟨free, hc⟩ := hi.removals.cslab
  have hread : ∀ idx, ∃ item, c.state.cslab.storage.getImpl idx = .ok item :=
    fun idx => ⟨_, hc.get_eq idx⟩
  cases op with
  | len | allocated | vacantKey => exact started_enterShared h
  | insert _ | markRemoved _ | remove _ | scheduleFinalization | clear | iterMut | vacantEntry =>
    refine started_enterCall ?_ h
    rfl
  | get idx =>
    obtain ⟨hsharable, hr⟩ := Option.ite_none_right_eq_some.mp h
    obtain rfl := Option.some.inj hr
    obtain ⟨item, hitem⟩ := hread idx
    exact started_read (storage_of_sharable hi hsharable) hitem ⟨c, rfl, Or.inl rfl⟩
  | reader =>
    obtain ⟨hsharable, hr⟩ := Option.ite_none_right_eq_some.mp h
    obtain ⟨slab, hslab, rfl⟩ := Option.map_eq_some_iff.mp hr
    exact started_addReader ht (hi.refs.alive_of_slab hslab)
      (Or.inl ⟨⟨slab, hslab, rfl⟩, hsharable⟩)
  | drop =>
    obtain ⟨husable, hr⟩ := Option.ite_none_right_eq_some.mp h
    obtain ⟨slab, hslab, rfl⟩ := Option.map_eq_some_iff.mp hr
    exact started_of_place (Move.dropSlab husable hslab)
  | vacantEntryKey =>
    obtain ⟨hv, hr⟩ := Option.ite_none_right_eq_some.mp h
    obtain ⟨-, hkey⟩ := hi.iteration.reserved t hv
    obtain ⟨i, hkey⟩ := Option.isSome_iff_exists.mp hkey
    rw [hkey] at hr
    obtain rfl := Option.some.inj hr
    exact ⟨c, rfl, Or.inl rfl⟩
  | vacantEntryInsert x =>
    obtain ⟨hv, hr⟩ := Option.ite_none_right_eq_some.mp h
    obtain rfl := Option.some.inj hr
    exact ⟨_, rfl, Or.inr ⟨_, Move.fillVacant hv, rfl⟩⟩
  | vacantEntryDrop =>
    obtain ⟨hv, hr⟩ := Option.ite_none_right_eq_some.mp h
    obtain rfl := Option.some.inj hr
    exact ⟨_, rfl, Or.inr ⟨_, Move.dropVacant hv, rfl⟩⟩
  | vacantEntryPanic =>
    obtain ⟨hv, hr⟩ := Option.ite_none_right_eq_some.mp h
    obtain rfl := Option.some.inj hr
    exact started_of_state ht (Move.panicVacant hv)
  | iterMutNext =>
    simp only [Config.start] at h
    split at h
    · rename_i slab im hslab him
      obtain ⟨hiterable, hr⟩ := Option.ite_none_right_eq_some.mp h
      obtain rfl := Option.some.inj hr
      exact started_yieldEntry (e := .front) hi ht hslab him hiterable
    · exact absurd h (by simp)
  | iterMutNextBack =>
    simp only [Config.start] at h
    split at h
    · rename_i slab im hslab him
      obtain ⟨hiterable, hr⟩ := Option.ite_none_right_eq_some.mp h
      obtain rfl := Option.some.inj hr
      exact started_yieldEntry (e := .back) hi ht hslab him hiterable
    · exact absurd h (by simp)
  | iterMutDrop =>
    obtain ⟨hguard, hr⟩ := Option.ite_none_right_eq_some.mp h
    obtain rfl := Option.some.inj hr
    rw [Bool.and_eq_true] at hguard
    exact started_of_place (Move.iterDrop hguard.2 hguard.1)
  | entryRemove k =>
    obtain ⟨e, hk, rfl⟩ := Option.map_eq_some_iff.mp h
    exact started_of_place (Move.entryRemove (handleAt_iff_join.mpr hk))
  | entryDrop k =>
    obtain ⟨e, hk, rfl⟩ := Option.map_eq_some_iff.mp h
    exact started_of_place (Move.entryDrop (handleAt_iff_join.mpr hk))
  | readerClone k =>
    obtain ⟨rd, hk, rfl⟩ := Option.map_eq_some_iff.mp h
    have hk := handleAt_iff_join.mpr hk
    exact started_addReader ht (hi.refs.alive_of_reader hk) (Or.inr ⟨k, rd, hk, rfl⟩)
  | readerDrop k =>
    obtain ⟨rd, hk, rfl⟩ := Option.map_eq_some_iff.mp h
    exact started_of_place (Move.readerDrop (handleAt_iff_join.mpr hk))
  | readerGet k idx =>
    obtain ⟨rd, hk, rfl⟩ := Option.map_eq_some_iff.mp h
    obtain ⟨item, hitem⟩ := hread idx
    exact started_read (storage_of_reader hi (handleAt_iff_join.mpr hk)) hitem
      ⟨c, rfl, Or.inl rfl⟩
  | readerContainsKey k idx =>
    obtain ⟨rd, hk, rfl⟩ := Option.map_eq_some_iff.mp h
    exact started_read (storage_of_reader hi (handleAt_iff_join.mpr hk))
      (hc.containsKeyImpl_eq idx) ⟨c, rfl, Or.inl rfl⟩
  | readerIter k =>
    obtain ⟨rd, hk, rfl⟩ := Option.map_eq_some_iff.mp h
    have hk := handleAt_iff_join.mpr hk
    refine started_read (storage_of_reader hi hk) rfl ?_
    refine started_of_state ht (Move.setIters hk fun it hit => ?_)
    rcases List.mem_append.mp hit with hmem | hmem
    · exact hi.iteration.readerIter k rd hk it hmem
    · obtain rfl := List.mem_singleton.mp hmem
      exact hc.frontier_le
  | readerNext k j =>
    obtain ⟨rd, hk, h⟩ := Option.bind_eq_some_iff.mp h
    obtain ⟨it, hit, rfl⟩ := Option.map_eq_some_iff.mp h
    exact started_readerAdvance hi ht .front (handleAt_iff_join.mpr hk) hit
  | readerNextBack k j =>
    obtain ⟨rd, hk, h⟩ := Option.bind_eq_some_iff.mp h
    obtain ⟨it, hit, rfl⟩ := Option.map_eq_some_iff.mp h
    exact started_readerAdvance hi ht .back (handleAt_iff_join.mpr hk) hit

end

/-! ### Steps of the system -/

/-- The thread that takes a step. -/
def Label.thread : Label α → Nat
  | .invoke t _ | .exec t => t

/-- What a step does that is not a fault. -/
inductive Stepped (c : Config α) (l : Label α) : Config α → Prop
  | stays {t : Nat} {op : Op α} (hl : l = .invoke t op) : Stepped c l c
  | aborts (hpoison : c.state.poisoned = true) :
      Stepped c l { c with state := { c.state with aborted := true } }
  | moves {t : Nat} {th : Thread α} {p : Site α} (ht : c.ThreadAt t th)
      (hmove : Move c t th p) (hl : l.thread = t) : Stepped c l (c.place t p)

theorem stepped_of_settle {rest : List (Drop α)} {o : Turn α} {r : Except RustFault (Config α)}
    (hi : ThreadInv c) (ht : c.ThreadAt t th) (ho : o.Sound c t th rest)
    (h : c.settle t th rest o = some r) :
    ∃ c', r = .ok c' ∧ Stepped c (.exec t) c' := by
  cases o with
  | waits => exact absurd h (by simp [Config.settle])
  | goes s drops pc =>
    obtain rfl := Option.some.inj h
    exact ⟨_, rfl, .moves ht ho rfl⟩
  | reserves s =>
    obtain rfl := Option.some.inj h
    exact ⟨_, rfl, .moves ht ho rfl⟩
  | panics s drops =>
    simp only [Config.settle] at h
    split_ifs at h with hunwinding
    · obtain rfl := Option.some.inj h
      obtain rfl := ho.1 hunwinding
      exact ⟨_, rfl, .aborts ((hi.iteration.threads t th ht).unwinding hunwinding).1⟩
    · obtain rfl := Option.some.inj h
      exact ⟨_, rfl, .moves ht (ho.2 (by simpa using hunwinding)) rfl⟩
  | faults fault => exact ho.elim

/-- **No step faults.** A step of the system with the invariant is a move of one thread, changes
nothing, or aborts the process. -/
theorem step_cases (hi : ThreadInv c) {l : Label α} {r : Except RustFault (Config α)}
    (h : c.step l = some r) : ∃ c', r = .ok c' ∧ Stepped c l c' := by
  cases l with
  | exec t =>
    simp only [Config.step, Config.exec] at h
    split_ifs at h
    split at h
    · exact absurd h (by simp)
    · rename_i th ht
      obtain ⟨drops, pc, u⟩ := th
      cases drops with
      | nil => exact stepped_of_settle hi ht (runPc_sound hi ht) h
      | cons d ds => exact stepped_of_settle hi ht (runDrop_sound hi ht) h
  | invoke t op =>
    simp only [Config.step, Config.invoke] at h
    split_ifs at h
    split at h
    · rename_i u ht
      obtain ⟨c', hr, hc'⟩ := started_of_start hi ht h
      refine ⟨c', hr, ?_⟩
      rcases hc' with rfl | ⟨p, hmove, rfl⟩
      · exact .stays rfl
      · exact .moves ht hmove rfl
    · exact absurd h (by simp)

end ZprUtils.RcuCslab
