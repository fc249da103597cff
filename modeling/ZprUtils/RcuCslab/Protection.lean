import ZprUtils.RcuCslab.Returns

/-!
# Readers are protected from the removal of what they have seen

An item that a read handle has seen stays in its slot as long as the handle is alive: it is visible,
or its removal is recorded in a generation not older than the one of the handle, and such a
generation is not dropped while the handle is alive. An entry of a mutable iteration excludes every
removal of its item by the borrow rules.

## Main definitions

* `Guarded` — the item of a slot is safe from finalization for the handles of a generation.
* `Holder`, `Observes` — the handles, and what a call shows to one of them.

## Main results

* `Action.guarded` — one action of a call.
* `reader_protection` — every run.
-/

namespace ZprUtils.RcuCslab

variable {α : Type} {s s' : State α} {g i : Nat} {x : α}

/-! ### Recorded removals -/

/-- The removal of `i` is recorded in generation `g`, which is alive. -/
def Recorded (gens : List Gen) (g i : Nat) : Prop :=
  ∃ gen, gens[g]? = some gen ∧ gen.alive = true ∧ i ∈ gen.pendingRemoves

namespace Recorded

variable {gens : List Gen} {j : Nat}

theorem modify {f : Gen → Gen} (h : Recorded gens g i)
    (hf : ∀ gen, gen.alive = true → (f gen).alive = true)
    (hmem : ∀ gen, i ∈ gen.pendingRemoves → i ∈ (f gen).pendingRemoves) :
    Recorded (gens.modify j f) g i := by
  obtain ⟨gen, hgen, halive, hi⟩ := h
  by_cases hj : j = g
  · subst hj
    exact ⟨f gen, by simp [hgen], hf gen halive, hmem gen hi⟩
  · exact ⟨gen, by simp [hgen, hj], halive, hi⟩

theorem append {gen : Gen} (h : Recorded gens g i) : Recorded (gens ++ [gen]) g i := by
  obtain ⟨gen', hgen, halive, hi⟩ := h
  refine ⟨gen', ?_, halive, hi⟩
  rw [List.getElem?_append_left (List.getElem?_eq_some_iff.mp hgen).1, hgen]

theorem set_ne {gen : Gen} (h : Recorded gens g i) (hne : j ≠ g) :
    Recorded (gens.set j gen) g i := by
  obtain ⟨gen', hgen, halive, hi⟩ := h
  exact ⟨gen', by rw [List.getElem?_set_ne hne, hgen], halive, hi⟩

theorem set {gen gen' : Gen} (h : Recorded gens g i) (hgen : gens[j]? = some gen)
    (halive : gen'.alive = true) (hpending : gen'.pendingRemoves = gen.pendingRemoves) :
    Recorded (gens.set j gen') g i := by
  by_cases hj : j = g
  · subst hj
    obtain ⟨gen₁, hgen₁, -, hi⟩ := h
    obtain rfl := Option.some.inj (hgen.symm.trans hgen₁)
    refine ⟨gen', ?_, halive, hpending ▸ hi⟩
    rw [List.getElem?_set_self (List.getElem?_eq_some_iff.mp hgen).1]
  · exact h.set_ne hj

theorem push {gen : Gen} (hgen : gens[g]? = some gen) (halive : gen.alive = true) :
    Recorded (gens.modify g fun gen => { gen with pendingRemoves := gen.pendingRemoves ++ [i] })
      g i := by
  refine ⟨{ gen with pendingRemoves := gen.pendingRemoves ++ [i] }, ?_, halive, by simp⟩
  simp [hgen]

end Recorded

/-- The slot `i` has the item `x`, and no drop of a generation before `g` finalizes it. -/
def Guarded (g i : Nat) (x : α) (s : State α) : Prop :=
  s.cslab.slot i = .live x ∨
    s.cslab.slot i = .pending x ∧ ∃ g', g ≤ g' ∧ Recorded s.gens g' i

namespace Guarded

theorem item (h : Guarded g i x s) : (s.cslab.slot i).item = some x := by
  rcases h with h | ⟨h, -⟩ <;> simp [h, Slot.item]

theorem mono (h : Guarded g i x s) (hcslab : s'.cslab = s.cslab)
    (hgens : ∀ g', Recorded s.gens g' i → Recorded s'.gens g' i) : Guarded g i x s' := by
  rcases h with h | ⟨h, g', hle, hrec⟩
  · exact Or.inl (hcslab ▸ h)
  · exact Or.inr ⟨hcslab ▸ h, g', hle, hgens g' hrec⟩

/-- Only an insertion into a free slot changes a slot from outside, and a slot that is guarded is
live or pending. -/
theorem insert {c : Cslab α} {j : Nat} {y : α} (h : Guarded g i x s) (hp : Pending s)
    (hinsert : s.cslab.insert y = .ok (some j, c)) (hcslab : s'.cslab = c)
    (hgens : s'.gens = s.gens) : Guarded g i x s' := by
  obtain ⟨free, hinv⟩ := hp.cslab
  obtain ⟨rest, -, -, hslot, -, hfree⟩ := hinv.of_insert hinsert
  have hne : i ≠ j := by
    rintro rfl
    have hitem := h.item
    rw [hfree] at hitem
    exact absurd hitem (by simp [Slot.item])
  have hsame : s'.cslab.slot i = s.cslab.slot i := by
    rw [hcslab, hslot, Function.update_of_ne hne]
  rwa [Guarded, hsame, hgens]

/-- A removal is recorded in a generation that is not older, so it is not finalized before the
generation of the handle has been dropped. -/
theorem mark {c : Cslab α} {j g₁ : Nat} (h : Guarded g i x s) (hp : Pending s)
    (hmark : s.cslab.markRemoved j = .ok c) (hle : g ≤ g₁) (halive : Alive s.gens g₁)
    (hcslab : s'.cslab = c)
    (hgens : s'.gens = s.gens.modify g₁ fun gen =>
      { gen with pendingRemoves := gen.pendingRemoves ++ [j] }) : Guarded g i x s' := by
  obtain ⟨free, hinv⟩ := hp.cslab
  obtain ⟨y, hlive, -, hslot, -⟩ := hinv.of_markRemoved hmark
  by_cases hij : i = j
  · subst hij
    have hxy : y = x := by
      have hitem := h.item
      rw [hlive] at hitem
      simpa [Slot.item] using hitem
    subst hxy
    obtain ⟨gen, hgen, hgenalive⟩ := halive
    refine Or.inr ⟨by rw [hcslab, hslot, Function.update_self], g₁, hle, ?_⟩
    rw [hgens]
    exact .push hgen hgenalive
  · have hsame : s'.cslab.slot i = s.cslab.slot i := by
      rw [hcslab, hslot, Function.update_of_ne hij]
    rw [Guarded, hsame, hgens]
    rcases h with h | ⟨h, g', hg', hrec⟩
    · exact Or.inl h
    · exact Or.inr ⟨h, g', hg',
        hrec.modify (fun _ h => h) fun _ hmem => List.mem_append_left _ hmem⟩

end Guarded

/-- The last reference to a generation is released only when all readers are of later ones: a reader
of it would hold it, and one of an earlier generation holds the chain. -/
theorem Refs.lt_of_reader {h : Held} {k : Nat} {r : Reader} (hr : Refs h s)
    (hk : HandleAt s.readers k r) (hheld : h.gen = some g) (hone : strongAt s.gens g = 1) :
    g < r.gen := by
  by_contra hle
  rcases Nat.lt_or_eq_of_le (Nat.not_lt.mp hle) with hlt | rfl
  · exact hr.not_alive_of_lt hheld hone r.gen hlt (hr.alive_of_reader hk)
  · have hpos := countHandles_pos (p := (·.gen == r.gen)) hk (beq_self_eq_true _)
    have hstrong := hr.strong r.gen
    rw [hone, hheld, State.handleRefs, beq_self_eq_true, Bool.toNat_true] at hstrong
    omega

/-- A removal is recorded in one generation only. -/
theorem Pending.recorded_unique {g' : Nat} (hp : Pending s) (h : Recorded s.gens g i)
    (h' : Recorded s.gens g' i) : g = g' := by
  wlog hlt : g < g' generalizing g g'
  · rcases Nat.lt_or_eq_of_le (Nat.not_lt.mp hlt) with hlt' | heq
    · exact (this h' h hlt').symm
    · exact heq.symm
  obtain ⟨gen, hgen, halive, hi⟩ := h
  obtain ⟨gen', hgen', halive', hi'⟩ := h'
  obtain ⟨hg, rfl⟩ := List.getElem?_eq_some_iff.mp hgen
  obtain ⟨hg', rfl⟩ := List.getElem?_eq_some_iff.mp hgen'
  have hdisj := List.pairwise_iff_getElem.mp (List.nodup_flatMap.mp hp.nodup).2 g g' hg hg' hlt
  simp only [Function.onFun, halive, halive', if_true] at hdisj
  exact absurd hi' (hdisj hi)

/-- The drop of a generation leaves alone what later readers have seen, for what they have seen was
not yet removed when the generation was current. -/
theorem Guarded.not_mem_of_lt {g₀ : Nat} {gen : Gen} (h : Guarded g i x s) (hp : Pending s)
    (hgen : s.gens[g₀]? = some gen) (halive : gen.alive = true) (hlt : g₀ < g) :
    i ∉ gen.pendingRemoves := by
  intro hmem
  rcases h with h | ⟨-, g', hle, hrec⟩
  · obtain ⟨y, hy⟩ := (hp.of_gen hgen halive).2 i hmem
    exact absurd (h.symm.trans hy) (by simp)
  · have heq := hp.recorded_unique ⟨gen, hgen, halive, hmem⟩ hrec
    omega

theorem Guarded.drop {g₀ : Nat} {gen' : Gen} (h : Guarded g i x s) (hlt : g₀ < g)
    (hslot : s'.cslab.slot i = s.cslab.slot i) (hgens : s'.gens = s.gens.set g₀ gen') :
    Guarded g i x s' := by
  rw [Guarded, hslot, hgens]
  rcases h with h | ⟨h, g', hle, hrec⟩
  · exact Or.inl h
  · exact Or.inr ⟨h, g', hle, hrec.set_ne (by omega)⟩

/-! ### Actions -/

theorem Release.guarded {p q : Held × State α} {k : Nat} {r : Reader} (hrelease : Release p q)
    (hi : Inv p.1 p.2) (hk : HandleAt p.2.readers k r) (h : Guarded r.gen i x p.2) :
    Guarded r.gen i x q.2 := by
  cases hrelease with
  | writer | writerLast | storage | storageLast => exact h
  | @gen s g gen hgen hmore =>
    have hpos : gen.strong - 1 ≠ 0 := by omega
    exact h.mono rfl fun g' hrec => hrec.set hgen (by simp [Gen.alive, hpos]) rfl
  | @finalizeGen s g gen c items hgen hlast hpoison hlocked hfinalize =>
    have halive : gen.alive = true := by simp [Gen.alive, hlast]
    have hone := (strongAt_of_getElem? hgen).trans hlast
    have hlt := hi.refs.lt_of_reader hk rfl hone
    have hslot := (hi.pending.of_finalizeAll hgen halive hfinalize).2.1 i
    rw [if_neg (h.not_mem_of_lt hi.pending hgen halive hlt)] at hslot
    exact h.drop hlt hslot rfl
  | @leakGen s g gen hgen hlast hpoison =>
    have hone := (strongAt_of_getElem? hgen).trans hlast
    exact h.drop (hi.refs.lt_of_reader hk rfl hone) rfl rfl

/-- A removal through an entry is recorded in a generation that no reader is ahead of. -/
theorem Inv.reader_gen_le_entry {h : Held} {k k' : Nat} {r : Reader} {e : Entry α} (hi : Inv h s)
    (hk : HandleAt s.readers k r) (hk' : HandleAt s.entries k' e) : r.gen ≤ e.gen := by
  cases hslab : s.slab with
  | none => exact absurd hk' ((hi.borrows.of_dropped hslab).2.2 k' e)
  | some slab =>
    have hlt := (hi.refs.alive_of_reader hk).lt_length
    have hcur := hi.refs.curGen slab hslab
    cases him : s.iterMut with
    | none => exact (hi.borrows.entry_gen him slab hslab k' e hk').2 k r hk
    | some im =>
      have hgen := ((hi.borrows.iterMut im him).2.2 slab hslab k' e hk').1
      omega

/-- **One action** does not take away what a reader has seen. An item is marked in the current
generation or in that of an entry, neither of which is older than the reader, and no such generation
is finalized while the reader is alive. -/
theorem Action.guarded {p q : Held × State α} {k : Nat} {r : Reader} (ha : Action p q)
    (hi : Inv p.1 p.2) (hk : HandleAt p.2.readers k r) (h : Guarded r.gen i x p.2) :
    Guarded r.gen i x q.2 := by
  cases ha with
  | insert _ _ hinsert => exact h.insert hi.pending hinsert rfl rfl
  | mark _ _ hslab hmark =>
    have hlt := (hi.refs.alive_of_reader hk).lt_length
    have hcur := hi.refs.curGen _ hslab
    exact h.mark hi.pending hmark (by simp only at hlt hcur; omega) (hi.refs.alive_of_slab hslab)
      rfl rfl
  | removeEntry hk' hmark =>
    exact h.mark hi.pending hmark (hi.reader_gen_le_entry hk hk') (hi.refs.alive_of_entry hk')
      rfl rfl
  | yieldEntry | addReader =>
    exact h.mono rfl fun g' hrec => hrec.modify (fun gen _ => by simp [Gen.alive]) fun _ hi => hi
  | advance =>
    refine h.mono rfl fun g' hrec => Recorded.append ?_
    exact hrec.modify (fun gen hgen => hgen) fun _ hi => hi
  | release hrelease => exact hrelease.guarded hi hk h
  | reject | lock | unlock | startIter | moveIter | dropEntry | setIters | dropReader | dropSlab |
    abort => exact h

/-- Read handles are created with a new number, and keep their generation until they are
dropped. -/
theorem Action.readers {p q : Held × State α} (ha : Action p q) :
    p.2.readers.length ≤ q.2.readers.length ∧
      ∀ k r, k < p.2.readers.length → HandleAt q.2.readers k r →
        ∃ r', HandleAt p.2.readers k r' ∧ r'.gen = r.gen := by
  cases ha with
  | addReader =>
    refine ⟨by simp, fun k r hlt hk => ?_⟩
    rcases handleAt_append.mp hk with hk | ⟨rfl, -⟩
    · exact ⟨r, hk, rfl⟩
    · exact absurd hlt (Nat.lt_irrefl _)
  | @setIters s k' r' iters hk' =>
    refine ⟨by simp, fun k r hlt hk => ?_⟩
    rcases handleAt_set.mp hk with ⟨-, hk⟩ | ⟨rfl, -, hr⟩
    · exact ⟨r, hk, rfl⟩
    · obtain rfl := Option.some.inj hr
      exact ⟨r', hk', rfl⟩
  | dropReader =>
    exact ⟨by simp, fun k r _ hk => ⟨r, hk.of_drop.2, rfl⟩⟩
  | release hrelease =>
    obtain ⟨-, -, -, -, -, hreaders, -⟩ := hrelease.frame
    rw [hreaders]
    exact ⟨le_rfl, fun k r _ hk => ⟨r, hk, rfl⟩⟩
  | _ => exact ⟨le_rfl, fun k r _ hk => ⟨r, hk, rfl⟩⟩

/-- Entries are created with a new number, and do not change until they are dropped. So a number
that is alive at both ends of a run belongs to one entry. -/
theorem Action.entries {p q : Held × State α} (ha : Action p q) :
    p.2.entries.length ≤ q.2.entries.length ∧
      ∀ k e, k < p.2.entries.length → HandleAt q.2.entries k e → HandleAt p.2.entries k e := by
  cases ha with
  | yieldEntry =>
    refine ⟨by simp, fun k e hlt hk => ?_⟩
    rcases handleAt_append.mp hk with hk | ⟨rfl, -⟩
    · exact hk
    · exact absurd hlt (Nat.lt_irrefl _)
  | removeEntry | dropEntry => exact ⟨by simp, fun k e _ hk => hk.of_drop.2⟩
  | release hrelease =>
    obtain ⟨-, -, -, -, hentries, -⟩ := hrelease.frame
    rw [hentries]
    exact ⟨le_rfl, fun k e _ hk => hk⟩
  | _ => exact ⟨le_rfl, fun k e _ hk => hk⟩

/-! ### Handles that hold on to an item -/

/-- A read handle or an entry, by its number. -/
inductive Holder where
  | reader (k : Nat)
  | entry (k : Nat)
  deriving DecidableEq, Repr

/-- The handle has not been dropped. -/
def Holder.Alive (s : State α) : Holder → Prop
  | reader k => ∃ r, HandleAt s.readers k r
  | entry k => ∃ e, HandleAt s.entries k e

/-- The number has been given to a handle, and as long as that handle is alive it holds on to the
item `x` of the slot `i`. -/
def Holder.Protects (i : Nat) (x : α) (s : State α) : Holder → Prop
  | reader k => k < s.readers.length ∧ ∀ r, HandleAt s.readers k r → Guarded r.gen i x s
  | entry k => k < s.entries.length ∧ ∀ e, HandleAt s.entries k e → e.idx = i ∧ e.value = x

namespace Holder

variable {holder : Holder}

/-- **One action** keeps the protection of an item by a reader or by an entry. The handle may be
dropped; then there is nothing left to protect, and its number is not used again. -/
theorem Protects.action {p q : Held × State α} (h : holder.Protects i x p.2) (ha : Action p q)
    (hi : Inv p.1 p.2) : holder.Protects i x q.2 := by
  cases holder with
  | reader k =>
    obtain ⟨hlt, hguard⟩ := h
    obtain ⟨hlen, hback⟩ := ha.readers
    refine ⟨hlt.trans_le hlen, fun r hk => ?_⟩
    obtain ⟨r', hk', hgen⟩ := hback k r hlt hk
    rw [← hgen]
    exact ha.guarded hi hk' (hguard r' hk')
  | entry k =>
    obtain ⟨hlt, hsame⟩ := h
    obtain ⟨hlen, hback⟩ := ha.entries
    exact ⟨hlt.trans_le hlen, fun e hk => hsame e (hback k e hlt hk)⟩

theorem Protects.reach {p q : Held × State α} (h : holder.Protects i x p.2) (hreach : Reach p q)
    (hi : Inv p.1 p.2) : holder.Protects i x q.2 := by
  induction hreach with
  | refl => exact h
  | tail hreach ha ih => exact ih.action ha (Reach.inv hreach hi)

/-- A panic with the mutex held does not end the protection either: whatever the outcome of the
call, what the handle protects before is protected after it. -/
theorem Protects.step {op : Op α} {o : Except Interrupt (Ret α)} (h : holder.Protects i x s)
    (hi : Inv {} s) (hstep : step s op = some (o, s')) : holder.Protects i x s' := by
  rcases step_effect hi hstep with hreach | ⟨-, hpoison⟩
  · exact h.reach hreach hi
  · cases hpoison
    exact h

/-- A handle that is alive after a step was alive before it. -/
theorem Protects.alive_of_action {p q : Held × State α} (h : holder.Protects i x p.2)
    (ha : Action p q) (halive : holder.Alive q.2) : holder.Alive p.2 := by
  cases holder with
  | reader k =>
    obtain ⟨r, hk⟩ := halive
    obtain ⟨r', hk', -⟩ := ha.readers.2 k r h.1 hk
    exact ⟨r', hk'⟩
  | entry k =>
    obtain ⟨e, hk⟩ := halive
    exact ⟨e, ha.entries.2 k e h.1 hk⟩

theorem Protects.alive_of_reach {p q : Held × State α} (h : holder.Protects i x p.2)
    (hreach : Reach p q) (hi : Inv p.1 p.2) (halive : holder.Alive q.2) : holder.Alive p.2 := by
  induction hreach with
  | refl => exact halive
  | tail hreach ha ih =>
    exact ih (Protects.alive_of_action (h.reach hreach hi) ha halive)

theorem Protects.alive_of_step {op : Op α} {o : Except Interrupt (Ret α)}
    (h : holder.Protects i x s) (hi : Inv {} s) (hstep : RcuCslab.step s op = some (o, s'))
    (halive : holder.Alive s') : holder.Alive s := by
  rcases step_effect hi hstep with hreach | ⟨-, hpoison⟩
  · exact h.alive_of_reach hreach hi halive
  · cases hpoison
    exact halive

/-- What a handle protects while it is alive: the slot still has the item. -/
theorem Protects.item (h : holder.Protects i x s) (hi : Inv {} s) (halive : holder.Alive s) :
    (s.cslab.slot i).item = some x := by
  cases holder with
  | reader k =>
    obtain ⟨r, hk⟩ := halive
    exact (h.2 r hk).item
  | entry k =>
    obtain ⟨e, hk⟩ := halive
    obtain ⟨rfl, rfl⟩ := h.2 e hk
    rw [(hi.borrows.entry_live k e hk).2]
    rfl

/-- The storage is not dropped before the handles. -/
theorem Alive.storage_pos (halive : holder.Alive s) (hi : Inv {} s) : 0 < s.storageStrong := by
  have hstorage := hi.refs.storage
  cases holder with
  | reader k =>
    obtain ⟨r, hk⟩ := halive
    have hpos : 0 < s.readerCount := countHandles_pos hk rfl
    omega
  | entry k =>
    obtain ⟨e, hk⟩ := halive
    cases hslab : s.slab with
    | none => exact absurd hk ((hi.borrows.of_dropped hslab).2.2 k e)
    | some slab =>
      rw [hslab, Option.isSome_some, Bool.toNat_true] at hstorage
      omega

end Holder

/-! ### Runs -/

/-- In the state `s` the call `e` shows the item `x` at index `i` to a handle. A presence check
shows the item that is present. -/
inductive Observes (s : State α) : Op α × Except Interrupt (Ret α) → Holder → Nat → α → Prop
  | get {k i : Nat} {x : α} : Observes s (.readerGet k i, .ok (.item (some x))) (.reader k) i x
  | containsKey {k i : Nat} {x : α} (hlive : (s.cslab.slot i).liveItem = some x) :
      Observes s (.readerContainsKey k i, .ok (.bool true)) (.reader k) i x
  | next {k j i : Nat} {x : α} :
      Observes s (.readerNext k j, .ok (.indexed (some (i, x)))) (.reader k) i x
  | nextBack {k j i : Nat} {x : α} :
      Observes s (.readerNextBack k j, .ok (.indexed (some (i, x)))) (.reader k) i x
  | iterMutNext {k : Nat} {e : Entry α} :
      Observes s (.iterMutNext, .ok (.entry (some (k, e)))) (.entry k) e.idx e.value
  | iterMutNextBack {k : Nat} {e : Entry α} :
      Observes s (.iterMutNextBack, .ok (.entry (some (k, e)))) (.entry k) e.idx e.value

/-- The index that an insertion returns. -/
def insertedKey : Op α × Except Interrupt (Ret α) → Option Nat
  | (.insert _, .ok (.key idx)) => idx
  | (.vacantEntryInsert _, .ok (.num idx)) => some idx
  | _ => none

/-- A look at index `i` through the slab or through a reader. -/
def IsGet (i : Nat) (op : Op α) : Prop := op = .get i ∨ ∃ k, op = .readerGet k i

/-- What a handle has just seen is visible, and is protected from now on. This is the start of the
protection; each later step keeps it. -/
theorem Observes.protects {e : Op α × Except Interrupt (Ret α)} {holder : Holder}
    (hobs : Observes s e holder i x) (hi : Inv {} s) (hstep : Step s e s') :
    holder.Protects i x s' := by
  have of_reader : ∀ k, (∃ r, HandleAt s.readers k r) → s.cslab.slot i = .live x →
      Holder.Protects i x s' (.reader k) := by
    rintro k ⟨r, hk⟩ hlive
    have hprot : Holder.Protects i x s (.reader k) :=
      ⟨(List.getElem?_eq_some_iff.mp hk).1, fun _ _ => Or.inl hlive⟩
    exact hprot.step hi hstep
  have of_entry : ∀ k e, k = s.entries.length → s'.entries = s.entries ++ [some e] →
      Holder.Protects e.idx e.value s' (.entry k) := by
    rintro k e rfl hentries
    refine ⟨by simp [hentries], fun e' hk => ?_⟩
    rw [hentries, handleAt_append] at hk
    rcases hk with hk | ⟨-, rfl⟩
    · exact absurd (List.getElem?_eq_some_iff.mp hk).1 (Nat.lt_irrefl _)
    · exact ⟨rfl, rfl⟩
  cases hobs with
  | get =>
    obtain ⟨hret, hk⟩ := step_readerGet hi hstep
    simp only [Except.ok.injEq, Ret.item.injEq] at hret
    exact of_reader _ hk (Slot.liveItem_eq_some.mp hret.symm)
  | containsKey hlive =>
    exact of_reader _ (step_readerContainsKey hi hstep).2 (Slot.liveItem_eq_some.mp hlive)
  | next =>
    obtain ⟨hlive, hk⟩ := step_readerNext hi (Or.inl rfl) hstep
    exact of_reader _ hk hlive
  | nextBack =>
    obtain ⟨hlive, hk⟩ := step_readerNext hi (Or.inr rfl) hstep
    exact of_reader _ hk hlive
  | iterMutNext =>
    obtain ⟨-, hk, hentries⟩ := step_iterMutNext hi (Or.inl rfl) hstep
    exact of_entry _ _ hk hentries
  | iterMutNextBack =>
    obtain ⟨-, hk, hentries⟩ := step_iterMutNext hi (Or.inr rfl) hstep
    exact of_entry _ _ hk hentries

/-- While a handle protects a slot, no insertion returns the slot, and every look at the slot shows
its item or nothing. -/
theorem Holder.Protects.step_result {holder : Holder} {e : Op α × Except Interrupt (Ret α)}
    (h : holder.Protects i x s) (hi : Inv {} s) (halive : holder.Alive s) (hstep : Step s e s') :
    insertedKey e ≠ some i ∧
      (IsGet i e.1 → e.2 = .ok (.item (some x)) ∨ e.2 = .ok (.item none)) := by
  have hitem := h.item hi halive
  have hnotfree : s.cslab.slot i ≠ .free := by
    intro hfree
    rw [hfree] at hitem
    exact absurd hitem (by simp [Slot.item])
  obtain ⟨op, o⟩ := e
  constructor
  · intro hkey
    simp only [insertedKey] at hkey
    split at hkey
    · rename_i heq
      obtain ⟨rfl, rfl⟩ := Prod.mk.inj heq
      subst hkey
      exact hnotfree (step_insert hi hstep)
    · rename_i heq
      obtain ⟨rfl, rfl⟩ := Prod.mk.inj heq
      obtain rfl := Option.some.inj hkey
      exact hnotfree (step_vacantEntryInsert hi hstep)
    · exact absurd hkey (by simp)
  · intro hget
    have hret : o = .ok (.item (s.cslab.slot i).liveItem) := by
      rcases hget with hop | ⟨k, hop⟩
      · simp only at hop
        subst hop
        exact step_get hi hstep
      · simp only at hop
        subst hop
        exact (step_readerGet hi hstep).1
    rw [hret]
    cases hslot : s.cslab.slot i with
    | free => exact absurd hslot hnotfree
    | live y =>
      rw [hslot] at hitem
      exact Or.inl (by rw [← hitem]; rfl)
    | pending y => exact Or.inr rfl

/-- **Reader protection.** In every run of the slab and its handles, if a read handle or an entry
has seen the item `x` at index `i`, then in every later state in which the handle is alive the
storage exists and its slot `i` has the item `x`, the unchecked access yields `x`, no insertion has
returned `i` in the meantime, and every look at `i` through any handle has shown `x` or nothing. -/
theorem reader_protection {t : Layout} {capacity : Nat} {s₀ s₁ s₂ s₃ : State α}
    {es es' : List (Op α × Except Interrupt (Ret α))} {e : Op α × Except Interrupt (Ret α)}
    {holder : Holder} {i : Nat} {x : α} (hnew : withFixedCapacity .memory t capacity = .ok s₀)
    (hrun : Run s₀ es s₁) (hstep : Step s₁ e s₂) (hobs : Observes s₁ e holder i x)
    (hrun' : Run s₂ es' s₃) (halive : holder.Alive s₃) :
    0 < s₃.storageStrong ∧ (s₃.cslab.slot i).item = some x ∧
      readerGetUnchecked i s₃ = (.ok x, s₃) ∧ (∀ e' ∈ es', insertedKey e' ≠ some i) ∧
      ∀ e' ∈ es', IsGet i e'.1 → e'.2 = .ok (.item (some x)) ∨ e'.2 = .ok (.item none) := by
  have hi₁ := inv_of_run hnew hrun
  have hi₂ : Inv {} s₂ := step_inv hi₁ hstep
  -- along the second run: the protection, and the results of the calls so far
  have hprotects : Inv {} s₃ ∧ holder.Protects i x s₃ ∧ (holder.Alive s₃ →
      ∀ e' ∈ es', insertedKey e' ≠ some i ∧
        (IsGet i e'.1 → e'.2 = .ok (.item (some x)) ∨ e'.2 = .ok (.item none))) := by
    refine Steps.history (P := fun es s => Inv {} s ∧ holder.Protects i x s ∧ (holder.Alive s →
      ∀ e' ∈ es, insertedKey e' ≠ some i ∧
        (IsGet i e'.1 → e'.2 = .ok (.item (some x)) ∨ e'.2 = .ok (.item none)))) ?_ hrun'
      ⟨hi₂, hobs.protects hi₁ hstep, fun _ e' he' => absurd he' List.not_mem_nil⟩
    rintro es s e' s' ⟨hi, hprot, hresults⟩ hstep'
    refine ⟨step_inv hi hstep', hprot.step hi hstep', fun halive' e'' he'' => ?_⟩
    have halive := hprot.alive_of_step hi hstep' halive'
    rcases List.mem_append.mp he'' with he'' | he''
    · exact hresults halive e'' he''
    · obtain rfl := List.mem_singleton.mp he''
      exact hprot.step_result hi halive hstep'
  obtain ⟨hi₃, hprot, hresults⟩ := hprotects
  have hitem := hprot.item hi₃ halive
  refine ⟨halive.storage_pos hi₃, hitem, ?_, fun e' he' => (hresults halive e' he').1,
    fun e' he' => (hresults halive e' he').2⟩
  rw [readerGetUnchecked, Call.get_bind_apply, CslabStorage.getUncheckedImpl,
    s₃.cslab.storage.readItem_eq_ok.mpr (Cslab.item_slot.mp hitem), Call.liftFault_ok]

/-- A reader of the first generation keeps the item that it has seen, after the item was removed,
the newer reader was dropped and another item was inserted. -/
theorem reader_protection_removed :
    ∃ s₀ s₁ s₂ s₃ : State Nat, withFixedCapacity .memory ⟨4, 4⟩ 2 = .ok s₀ ∧
      runOps step s₀ [.insert 7, .reader] =
        some ([.ok (.key (some 0)), .ok (.handle (some 0))], s₁) ∧
      Step s₁ (.readerGet 0 0, .ok (.item (some 7))) s₂ ∧
      runOps step s₂ [.remove 0, .readerDrop 1, .insert 8, .get 0] =
        some ([.ok (.handle (some 1)), .ok .unit, .ok (.key (some 1)), .ok (.item none)], s₃) ∧
      HandleAt s₃.readers 0 ⟨0, []⟩ ∧
      (s₃.cslab.slot 0).item = some 7 ∧ readerGetUnchecked 0 s₃ = (.ok 7, s₃) := by
  have hrun : ∃ s₀ s₁ s₂ s₃ : State Nat, withFixedCapacity .memory ⟨4, 4⟩ 2 = .ok s₀ ∧
      runOps step s₀ [.insert 7, .reader] =
        some ([.ok (.key (some 0)), .ok (.handle (some 0))], s₁) ∧
      Step s₁ (.readerGet 0 0, .ok (.item (some 7))) s₂ ∧
      runOps step s₂ [.remove 0, .readerDrop 1, .insert 8, .get 0] =
        some ([.ok (.handle (some 1)), .ok .unit, .ok (.key (some 1)), .ok (.item none)], s₃) ∧
      HandleAt s₃.readers 0 ⟨0, []⟩ := ⟨_, _, _, _, rfl, rfl, (by rfl), rfl, (by rfl)⟩
  obtain ⟨s₀, s₁, s₂, s₃, hnew, hrun₁, hget, hrun₂, hk⟩ := hrun
  obtain ⟨-, hitem, hunchecked, -⟩ := reader_protection hnew (.of_runOps hrun₁) hget .get
    (.of_runOps hrun₂) ⟨_, hk⟩
  exact ⟨s₀, s₁, s₂, s₃, hnew, hrun₁, hget, hrun₂, hk, hitem, hunchecked⟩

end ZprUtils.RcuCslab
