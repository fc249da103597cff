import ZprUtils.RcuCslab.Lives
import ZprUtils.RcuCslab.Steps

/-!
# The RCU slab keeps the ledger

The ledger of a state is what remains of it without handles and reference counts. Every action of a
call is a transition of the ledger or leaves it as it is; hence the invariant of the ledger holds
after every run.

## Main definitions

* `State.ledger` — the ledger of a state.

## Main results

* `Action.ledger` — an action is at most one transition of the ledger.
* `ledger_inv_of_run` — the invariant of the ledger holds after every run.
-/

namespace ZprUtils.RcuCslab

variable {α : Type} {s s' : State α}

/-- The removals recorded in a generation, and whether it is alive. -/
def Gen.record (gen : Gen) : Record := ⟨gen.pendingRemoves, gen.alive⟩

/-- The ledger of a state. -/
def State.ledger (s : State α) : Ledger α where
  slot := s.cslab.slot
  records := s.gens.map Gen.record
  poisoned := s.poisoned
  dropped := s.storageStrong == 0
  log := s.log

section

variable {gens : List Gen} {g : Nat} {gen : Gen}

theorem aliveIn_map : AliveIn (gens.map Gen.record) g ↔ Alive gens g := by
  cases hgen : gens[g]? with
  | none => simp [AliveIn, Alive, hgen]
  | some gen => simp [AliveIn, Alive, hgen, Gen.record]

theorem getElem?_map_record (hgen : gens[g]? = some gen) :
    (gens.map Gen.record)[g]? = some gen.record := by
  rw [List.getElem?_map, hgen, Option.map_some]

/-- A change of a generation that the ledger does not see. -/
theorem map_record_set {gen' : Gen} (hgen : gens[g]? = some gen)
    (hrecord : gen'.record = gen.record) :
    (gens.set g gen').map Gen.record = gens.map Gen.record := by
  rw [List.map_set, hrecord, set_self_of_getElem? (getElem?_map_record hgen)]

theorem map_record_modify {f : Gen → Gen} (halive : Alive gens g)
    (hf : ∀ gen, gen.alive = true → (f gen).record = gen.record) :
    (gens.modify g f).map Gen.record = gens.map Gen.record := by
  obtain ⟨gen, hgen, hgenalive⟩ := halive
  rw [modify_eq_set_of_getElem? hgen, map_record_set hgen (hf gen hgenalive)]

theorem record_acquire {gen : Gen} (halive : gen.alive = true) :
    Gen.record { gen with strong := gen.strong + 1 } = gen.record := by
  simp only [Gen.record, halive]
  simp [Gen.alive]

end

theorem Refs.storageStrong_ne_zero {h : Held} (hr : Refs h s) (hslab : s.slab.isSome = true) :
    s.storageStrong ≠ 0 := by
  have hstorage := hr.storage
  rw [hslab, Bool.toNat_true] at hstorage
  omega

theorem ledger_insert {h : Held} {c : Cslab α} {i : Nat} {x : α} (hi : Inv h s)
    (hslab : s.slab.isSome = true) (hinsert : s.cslab.insert x = .ok (some i, c)) :
    Ledger.Next s.ledger (State.ledger { s with cslab := c, log := s.log ++ [.inserted i x] }) := by
  obtain ⟨free, hinv⟩ := hi.pending.cslab
  obtain ⟨rest, -, -, hslot, -, hfree⟩ := hinv.of_insert hinsert
  have hledger : State.ledger { s with cslab := c, log := s.log ++ [.inserted i x] } =
      { s.ledger with
        slot := Function.update s.ledger.slot i (.live x)
        log := s.ledger.log ++ [.inserted i x] } := by
    simp only [State.ledger, hslot]
  rw [hledger]
  exact .insert hfree (beq_eq_false_iff_ne.mpr (hi.refs.storageStrong_ne_zero hslab))

theorem ledger_mark {h : Held} {c : Cslab α} {i g : Nat} (hi : Inv h s)
    (hslab : s.slab.isSome = true) (hmark : s.cslab.markRemoved i = .ok c)
    (halive : Alive s.gens g) (hcslab : s'.cslab = c)
    (hgens : s'.gens = s.gens.modify g fun gen =>
      { gen with pendingRemoves := gen.pendingRemoves ++ [i] })
    (hpoison : s'.poisoned = s.poisoned) (hstorage : s'.storageStrong = s.storageStrong)
    (hlog : s'.log = s.log ++ [.marked g i]) : Ledger.Next s.ledger s'.ledger := by
  obtain ⟨free, hinv⟩ := hi.pending.cslab
  obtain ⟨x, hlive, -, hslot, -⟩ := hinv.of_markRemoved hmark
  obtain ⟨gen, hgen, hgenalive⟩ := halive
  have hledger : s'.ledger = { s.ledger with
      slot := Function.update s.ledger.slot i (.pending x)
      records := s.ledger.records.set g
        { gen.record with pending := gen.record.pending ++ [i] }
      log := s.ledger.log ++ [.marked g i] } := by
    simp only [State.ledger, hcslab, hslot, hpoison, hstorage, hlog, hgens,
      modify_eq_set_of_getElem? hgen, List.map_set, Gen.record, Gen.alive]
  rw [hledger]
  exact .mark hlive (getElem?_map_record hgen) hgenalive
    (beq_eq_false_iff_ne.mpr (hi.refs.storageStrong_ne_zero hslab))

theorem ledger_advance {h : Held} {slab : Slab} (hi : Inv h s) (hslab : s.slab = some slab)
    (hgens : s'.gens = (s.gens.modify slab.curGen fun gen =>
      { gen with nextGen := some s.gens.length }) ++ [⟨2, [], none⟩])
    (hcslab : s'.cslab = s.cslab) (hpoison : s'.poisoned = s.poisoned)
    (hstorage : s'.storageStrong = s.storageStrong)
    (hlog : s'.log = s.log ++ [.advanced s.gens.length]) : Ledger.Next s.ledger s'.ledger := by
  have hsame := map_record_modify (f := fun gen => { gen with nextGen := some s.gens.length })
    (hi.refs.alive_of_slab hslab) fun _ _ => rfl
  have hledger : s'.ledger = { s.ledger with
      records := s.ledger.records ++ [⟨[], true⟩]
      log := s.ledger.log ++ [.advanced s.ledger.records.length] } := by
    simp only [State.ledger, hcslab, hpoison, hstorage, hlog, hgens, List.map_append, hsame,
      List.length_map]
    rfl
  rw [hledger]
  exact .advance (beq_eq_false_iff_ne.mpr (hi.refs.storageStrong_ne_zero (by simp [hslab])))

/-- The last reference to the storage is not that of the slab or of a generation: when the storage
is dropped nothing that could finalize a removal is left. -/
theorem Refs.of_last_storage {g : Option Nat} (hr : Refs ⟨g, false, true⟩ s)
    (hlast : s.storageStrong = 1) : s.slab = none ∧ ∀ g, ¬Alive s.gens g := by
  have hstorage := hr.storage
  have hwriter := hr.writer
  simp only [hlast, Bool.toNat_true] at hstorage hwriter
  constructor
  · cases hslab : s.slab with
    | none => rfl
    | some slab =>
      rw [hslab, Option.isSome_some, Bool.toNat_true] at hstorage
      omega
  · rintro g ⟨gen, hgen, halive⟩
    have hpos : 0 < s.gens.countP Gen.alive :=
      List.countP_pos_iff.mpr ⟨gen, List.mem_of_getElem? hgen, halive⟩
    have hne : (s.writerStrong != 0) = true := by
      rw [bne_iff_ne]
      omega
    rw [hne, Bool.toNat_true] at hstorage
    omega

/-- A release that drops nothing changes nothing; the last reference to a generation finalizes its
removals, and the last one to the storage destroys what is left. -/
theorem Release.ledger {p q : Held × State α} (hrelease : Release p q) (hi : Inv p.1 p.2) :
    q.2.ledger = p.2.ledger ∨ Ledger.Next p.2.ledger q.2.ledger := by
  cases hrelease with
  | writer | writerLast => exact Or.inl rfl
  | @storage s gen hmore =>
    left
    have hdropped : (s.storageStrong - 1 == 0) = (s.storageStrong == 0) := by
      rw [beq_eq_false_iff_ne.mpr (by omega), beq_eq_false_iff_ne.mpr (by omega)]
    simp only [State.ledger, hdropped]
  | @storageLast s gen items hlast hitems =>
    right
    obtain ⟨hslab, hdead⟩ := hi.refs.of_last_storage hlast
    have hunlocked := (hi.borrows.of_dropped hslab).1
    obtain ⟨free, hinv⟩ := hi.pending.cslab
    obtain ⟨items', hitems', hnodup, hmem⟩ := hinv.items_eq
    obtain rfl := Except.ok.inj (hitems.symm.trans hitems')
    have hdropped : (s.storageStrong == 0) = false := by simp [hlast]
    simp only at hunlocked
    simp only [hunlocked]
    exact .dropStorage hdropped (fun g hg => hdead g (aliveIn_map.mp hg)) hnodup hmem
  | @gen s g gen hgen hmore =>
    left
    have halive : gen.alive = true := by simp [Gen.alive]; omega
    have hrecord : Gen.record { gen with strong := gen.strong - 1 } = gen.record := by
      have hpos : gen.strong - 1 ≠ 0 := by omega
      simp only [Gen.record, halive]
      simp [Gen.alive, hpos]
    simp only [State.ledger, map_record_set hgen hrecord]
  | @finalizeGen s g gen c items hgen hlast hpoison hlocked hfinalize =>
    right
    have halive : gen.alive = true := by simp [Gen.alive, hlast]
    have hfirst := hi.refs.not_alive_of_lt rfl ((strongAt_of_getElem? hgen).trans hlast)
    obtain ⟨free, hinv⟩ := hi.pending.cslab
    obtain ⟨hnodup, hpending⟩ := hi.pending.of_gen hgen halive
    obtain ⟨items', c', hok, -, hslot, -, -, -, -, -, hlen, hzip⟩ :=
      finalizeAll_eq_ok hinv hnodup hpending
    obtain ⟨rfl, rfl⟩ := Prod.mk.inj (Except.ok.inj (hok.symm.trans hfinalize))
    have hledger : State.ledger { s with
        cslab := c'
        gens := s.gens.set g { gen with strong := 0 }
        log := s.log ++
          (gen.pendingRemoves.zip items').map (fun p => .finalized g p.1 p.2) ++
          (gen.pendingRemoves.zip items').map (fun p => .destroyed (.gen g p.1) p.2 false) } =
        { s.ledger with
          slot := fun j => if j ∈ gen.record.pending then .free else s.ledger.slot j
          records := s.ledger.records.set g { gen.record with alive := false }
          log := s.ledger.log ++
            (gen.record.pending.zip items').map (fun p => .finalized g p.1 p.2) ++
            (gen.record.pending.zip items').map
              (fun p => .destroyed (.gen g p.1) p.2 false) } := by
      simp only [State.ledger, funext hslot, List.map_set]
      rfl
    rw [hledger]
    exact .finalize (getElem?_map_record hgen) halive
      (fun j hj hg => hfirst j hj (aliveIn_map.mp hg)) hpoison hlen hzip
  | @leakGen s g gen hgen hlast hpoison =>
    right
    have hfirst := hi.refs.not_alive_of_lt rfl ((strongAt_of_getElem? hgen).trans hlast)
    have hledger : State.ledger { s with gens := s.gens.set g { gen with strong := 0 } } =
        { s.ledger with records := s.ledger.records.set g { gen.record with alive := false } } := by
      simp only [State.ledger, List.map_set]
      rfl
    rw [hledger]
    exact .leak (getElem?_map_record hgen) (fun j hj hg => hfirst j hj (aliveIn_map.mp hg)) hpoison

/-- **One action** is at most one transition of the ledger. The ledger forgets the handles and the
reference counts, which decide when a transition happens, and keeps what happens to the items. -/
theorem Action.ledger {p q : Held × State α} (ha : Action p q) (hi : Inv p.1 p.2) :
    q.2.ledger = p.2.ledger ∨ Ledger.Next p.2.ledger q.2.ledger := by
  cases ha with
  | insert husable _ hinsert =>
    exact Or.inr (ledger_insert hi (State.usable_iff.mp husable).1 hinsert)
  | reject => exact Or.inr .reject
  | mark _ _ hslab hmark =>
    exact Or.inr (ledger_mark hi (by simp [hslab]) hmark (hi.refs.alive_of_slab hslab)
      rfl rfl rfl rfl rfl)
  | @removeEntry s k e c hk hmark =>
    have hslab : s.slab.isSome = true := by
      rw [Option.isSome_iff_ne_none]
      intro hnone
      exact (hi.borrows.of_dropped hnone).2.2 k e hk
    exact Or.inr (ledger_mark hi hslab hmark (hi.refs.alive_of_entry hk) rfl rfl rfl rfl rfl)
  | advance hslab => exact Or.inr (ledger_advance hi hslab rfl rfl rfl rfl rfl)
  | yieldEntry hslab =>
    left
    simp only [State.ledger,
      map_record_modify (hi.refs.alive_of_slab hslab) fun _ halive => record_acquire halive]
  | @addReader s g hg =>
    left
    have halive : Alive s.gens g ∧ s.storageStrong ≠ 0 := by
      rcases hg with ⟨husable, slab, hslab, rfl⟩ | ⟨k, r, hk, rfl⟩
      · exact ⟨hi.refs.alive_of_slab hslab,
          hi.refs.storageStrong_ne_zero (State.usable_iff.mp husable).1⟩
      · have hstorage := hi.refs.storage
        have hpos : 0 < s.readerCount := countHandles_pos hk rfl
        simp only at hstorage
        exact ⟨hi.refs.alive_of_reader hk, by omega⟩
    have hdropped : (s.storageStrong + 1 == 0) = (s.storageStrong == 0) := by
      rw [beq_eq_false_iff_ne.mpr (by omega), beq_eq_false_iff_ne.mpr halive.2]
    simp only [State.ledger, hdropped,
      map_record_modify halive.1 fun _ halive => record_acquire halive]
  | release hrelease => exact hrelease.ledger hi
  | lock | unlock | startIter | moveIter | dropEntry | setIters | dropReader | dropSlab | abort =>
    exact Or.inl rfl

theorem Poison.ledger (h : Poison s s') : Ledger.Next s.ledger s'.ledger := by
  cases h
  exact .poison

/-- What every entry of the ledger preserves holds after a sequence of actions. A call is such a
sequence, so a fact about the ledger is proved once for each kind of entry and never for a call. -/
theorem Reach.ledger {P : Ledger α → Prop} {p q : Held × State α}
    (hP : ∀ l l', Ledger.Next l l' → P l → P l') (h : Reach p q) (hi : Inv p.1 p.2)
    (hp : P p.2.ledger) : P q.2.ledger := by
  induction h with
  | refl => exact hp
  | tail hreach ha ih =>
    rcases ha.ledger (Reach.inv hreach hi) with heq | hnext
    · rw [heq]
      exact ih
    · exact hP _ _ hnext ih

/-- What every transition of the ledger preserves holds after a step, however the call ends. -/
theorem step_ledger {P : Ledger α → Prop} {op : Op α} {o : Except Interrupt (Ret α)}
    (hP : ∀ l l', Ledger.Next l l' → P l → P l') (hi : Inv {} s)
    (hstep : step s op = some (o, s')) (hs : P s.ledger) : P s'.ledger := by
  rcases step_effect hi hstep with hreach | ⟨-, hpoison⟩
  · exact Reach.ledger hP hreach hi hs
  · exact hP _ _ hpoison.ledger hs

theorem ledger_withFixedCapacity {t : Layout} {capacity : Nat}
    (hnew : withFixedCapacity .memory t capacity = .ok s) : s.ledger = .init := by
  obtain ⟨cslab, hcslab, hs⟩ := except_bind_eq_ok.mp hnew
  obtain ⟨-, -, -, hslot⟩ := Cslab.inv_withFixedCapacity hcslab
  rw [except_pure, Except.ok.injEq] at hs
  subst hs
  simp only [State.ledger, hslot]
  rfl

/-- **The invariant of the ledger holds after every run**, panics with the mutex held included: a
step is a sequence of actions, or it poisons the mutex, which is a transition too. -/
theorem ledger_inv_of_run {t : Layout} {capacity : Nat}
    {es : List (Op α × Except Interrupt (Ret α))}
    (hnew : withFixedCapacity .memory t capacity = .ok s)
    (hrun : Run s es s') : s'.ledger.Inv := by
  have hboth : Inv {} s' ∧ s'.ledger.Inv := by
    refine Steps.invariant (P := fun s => Inv {} s ∧ s.ledger.Inv) ?_ hrun
      ⟨inv_withFixedCapacity hnew, ledger_withFixedCapacity hnew ▸ Ledger.inv_init⟩
    rintro s e s' ⟨hi, hl⟩ hstep
    exact ⟨step_inv hi hstep, step_ledger (fun _ _ h => h.inv) hi hstep hl⟩
  exact hboth.2

end ZprUtils.RcuCslab
