import ZprUtils.Threads.Custody

/-!
# Readers protect what they have seen

A reader may keep a reference to any item that it has found, while the owner removes the item and
other threads drop the handles that keep it. The item stays where it is as long as the reader is
there: when it is marked, the removal is recorded in a generation that is not older than that of the
reader, and the reader keeps that generation alive, hence no destructor gets hold of the removal.

## Main definitions

* `Config.Shields` — a reader of a generation protects the item of a slot.

## Main results

* `Move.shields` — every move keeps the protection.
* `reader_protects` — an item that a reader has seen stays until the reader is dropped.
-/

namespace ZprUtils.RcuCslab

variable {α : Type} {c c' : Config α} {t u g i k : Nat} {th uh : Thread α} {p : Site α} {x : α}

/-- A reader of generation `g` protects the item `x` in slot `i`: it is visible, or its removal is
recorded, or about to be recorded, in a generation that the reader keeps alive. -/
inductive Config.Shields (c : Config α) (g i : Nat) (x : α) : Prop
  | live (hlive : c.state.cslab.slot i = .live x)
  | pending (hpending : c.state.cslab.slot i = .pending x)
      (hrecorded : ∀ g', RecordedIn c.records g' i → g ≤ g')
      (hdrops : ∀ t th, c.ThreadAt t th → total (Drop.records i) th.drops = 0)

/-! ### What a move does with a removal -/

theorem load_pos_of_recordedIn (h : RecordedIn c.records g i) : 0 < c.load i := by
  obtain ⟨r, hr, halive, hmem⟩ := h
  rw [Config.records, List.getElem?_map, Option.map_eq_some_iff] at hr
  obtain ⟨gen, hgen, rfl⟩ := hr
  have hcount : 0 < (livePending c.state.gens).count i :=
    List.count_pos_iff.mpr (mem_livePending.mpr ⟨g, gen, hgen, halive, hmem⟩)
  rw [Config.load]
  omega

theorem load_pos_of_drops (ht : c.ThreadAt t th) (h : 0 < total (Drop.records i) th.drops) :
    0 < c.load i := by
  have hle := le_total (w := (Thread.records · i)) ht
  have hrecords : total (Drop.records i) th.drops ≤ th.records i := Nat.le_add_right _ _
  rw [Config.load]
  omega

/-- A removal that is recorded or to be finalized is of a pending slot. -/
theorem not_live_of_load (hi : ThreadInv c) (h : 0 < c.load i) :
    c.state.cslab.slot i ≠ .live x := by
  obtain ⟨y, hy⟩ := hi.removals.slot i h
  rw [hy]
  simp

/-- Where a move changes slot `i`: it was free and is filled, it was live and is marked, or the
destructor that the thread runs has a removal of it. -/
theorem Move.slot_cases (h : Move c t th p) (hi : ThreadInv c) (i : Nat) :
    p.state.cslab.slot i = c.state.cslab.slot i ∨ c.state.cslab.slot i = .free ∨
      (∃ x, c.state.cslab.slot i = .live x ∧ p.state.cslab.slot i = .pending x ∧
        p.state.gens = c.state.gens ∧ p.thread.drops = []) ∨
      0 < total (Drop.records i) th.drops := by
  obtain ⟨free, hinv⟩ := hi.removals.cslab
  cases h with
  | @finalizing ds pc b g idx indices items next y cslab hfinalize =>
    obtain ⟨-, -, hslot, -⟩ := hinv.of_finalizeRemove hfinalize
    by_cases hidx : i = idx
    · subst hidx
      refine Or.inr (Or.inr (Or.inr ?_))
      simp only [total_cons, Drop.records, List.count_cons_self]
      omega
    · left
      simp only [hslot, Function.update_of_ne hidx]
  | @insert unwrap b y idx cslab hinsert =>
    obtain ⟨rest, -, -, hslot, -, hfree⟩ := hinv.of_insert hinsert
    by_cases hidx : i = idx
    · exact Or.inr (Or.inl (hidx ▸ hfree))
    · left
      simp only [hslot, Function.update_of_ne hidx]
  | @mark b m idx cslab hmark =>
    obtain ⟨y, hlive, -, hslot, -⟩ := hinv.of_markRemoved hmark
    by_cases hidx : i = idx
    · subst hidx
      refine Or.inr (Or.inr (Or.inl ⟨y, hlive, ?_, rfl, rfl⟩))
      simp only [hslot, Function.update_self]
    · left
      simp only [hslot, Function.update_of_ne hidx]
  | _ => exact Or.inl rfl

/-- Where a move records a removal. -/
theorem Move.recordedIn_cases (h : Move c t th p) (hr : RecordedIn (c.place t p).records g i) :
    RecordedIn c.records g i ∨ ∃ m, th.pc = .record m i ∧ m.target c.state = some g := by
  have hsame : (c.place t p).records = c.records → RecordedIn c.records g i := fun h => h ▸ hr
  cases h with
  | gen hgen hmore => exact Or.inl (hsame (map_record_set hgen (record_release hmore)))
  | @genLast ds pc b g' gen hgen hlast =>
    have hkill : RecordedIn (c.records.set g' { gen.record with alive := false }) g i := by
      rw [Config.records, Config.place, List.map_set] at hr
      exact hr
    exact Or.inl ((recordedIn_kill (getElem?_map_record hgen)).mp hkill).2
  | @record b m idx g' gen htarget hgen halive =>
    have hmark : RecordedIn (c.records.set g'
        { gen.record with pending := gen.record.pending ++ [idx] }) g i := by
      rw [Config.records, Config.place, List.map_set] at hr
      exact hr
    rcases (recordedIn_mark (getElem?_map_record hgen) halive).mp hmark with hold | ⟨rfl, rfl⟩
    · exact Or.inl hold
    · exact Or.inr ⟨m, rfl, htarget⟩
  | clearNext hslab him hnext hgen halive | newReader hkind hgen halive
  | iterNext hiterable hslab him hnext hgen halive =>
    exact Or.inl (hsame (map_record_set hgen (record_acquire halive)))
  | @advance pc pc' b slab gen im hpc him hslab hgen =>
    have hsame : (c.state.gens.set slab.curGen { gen with
        nextGen := some c.state.gens.length }).map Gen.record = c.state.gens.map Gen.record :=
      map_record_set hgen rfl
    have hpush : RecordedIn (c.records ++ [⟨[], true⟩]) g i := by
      simp only [Config.records, Config.place, State.nextGeneration, List.map_append, hsame] at hr
      exact hr
    exact Or.inl (recordedIn_push.mp hpush)
  | _ => exact Or.inl (hsame rfl)

/-- Where a move hands a removal to a destructor. -/
theorem Move.dropRecords_cases (h : Move c t th p) (hi : ThreadInv c) (ht : c.ThreadAt t th)
    (i : Nat) : total (Drop.records i) p.thread.drops ≤ total (Drop.records i) th.drops ∨
      ∃ g, RecordedIn c.records g i ∧ g < p.state.gens.length ∧ ¬Alive p.state.gens g := by
  cases h with
  | @genLast ds pc b g gen hgen hlast =>
    have halive : gen.alive = true := by simp [Gen.alive, hlast]
    have hlt := (List.getElem?_eq_some_iff.mp hgen).1
    by_cases hmem : i ∈ gen.pendingRemoves
    · refine Or.inr ⟨g, ⟨gen.record, getElem?_map_record hgen, halive, hmem⟩, ?_, ?_⟩
      · simpa using hlt
      · rintro ⟨gen', hgen', halive'⟩
        simp only [List.getElem?_set_self hlt, Option.some.injEq] at hgen'
        subst hgen'
        exact absurd halive' (by simp [Gen.alive])
    · left
      simp only [total_cons, Drop.records, List.count_eq_zero_of_not_mem hmem]
      omega
  | @leak ds pc g indices next hpoison =>
    left
    obtain ⟨hnil, -⟩ :=
      Pc.refs_of_quiet ((hi.iteration.threads t _ ht).dropping (List.cons_ne_nil _ _))
    simp only [hnil, List.append_nil, total_append, (genFields_refs next).2.2.2.2 i, total_cons]
    omega
  | @finalizing ds pc b g idx indices items next y cslab hfinalize =>
    left
    simp only [total_cons, Drop.records, List.count_cons]
    omega
  | dropFields =>
    left
    simp only [total_append, (genFields_refs _).2.2.2.2 i, total_cons]
    omega
  | @unwind pc log hpc hpoison hlog =>
    left
    have hpcs := (Pc.refs_of_waiting hpc).2.2.2.2 i
    have hzero : pc.records i = 0 := by
      cases pc with
      | markUnlock m j | record m j => exact absurd hpc (by simp [Pc.waiting])
      | _ => rfl
    simp only
    omega
  | record htarget hgen halive =>
    left
    simp only [(MarkFor.refs _).2.2.2.2.1 i]
    exact Nat.zero_le _
  | storage | storageLast | writer | writerLast | gen =>
    left
    simp only [total_cons, Drop.records]
    omega
  | _ => exact Or.inl le_rfl

/-- A removal is recorded in a generation that is not older than any reader: the current one, or the
one of an entry, which no reader is ahead of. -/
theorem reader_gen_le_target {m : MarkFor} {idx : Nat} {r : Reader} (hi : ThreadInv c)
    (ht : c.ThreadAt t th) (hpc : th.pc = .record m idx) (htarget : m.target c.state = some g)
    (hk : HandleAt c.state.readers k r) : r.gen ≤ g := by
  have hentry : 0 < m.genRefs g → r.gen ≤ g := by
    intro hpos
    refine (hi.iteration.entryGen g (Or.inr ⟨t, th, ht, ?_⟩)).2.2 k r hk
    rw [hpc, Pc.genRefs_record]
    exact hpos
  have hslab : c.state.slab.map (·.curGen) = some g → r.gen ≤ g := by
    intro hcur
    obtain ⟨slab, hslab, rfl⟩ := Option.map_eq_some_iff.mp hcur
    have hlast := hi.refs.curGen slab hslab
    have hlt := (hi.refs.alive_of_reader hk).lt_length
    omega
  cases m with
  | markRemoved | remove => exact hslab htarget
  | entry g' | clear g' =>
    obtain rfl := Option.some.inj htarget
    refine hentry ?_
    rw [MarkFor.genRefs, beq_self_eq_true]
    exact Nat.one_pos

/-! ### Protection -/

/-- **Protection.** Every move that leaves the reader keeps what it protects: the item is in its
slot, and if it is marked its removal is in flight to a generation not before that of the reader, or
recorded in one. -/
theorem Move.shields {r r' : Reader} (h : Move c t th p) (hi : ThreadInv c) (ht : c.ThreadAt t th)
    (hk : HandleAt c.state.readers k r) (hk' : HandleAt p.state.readers k r')
    (hgen : r'.gen = r.gen) (hs : c.Shields r.gen i x) : (c.place t p).Shields r.gen i x := by
  have hi' := h.inv hi ht
  cases hs with
  | live hlive =>
    have hload : c.load i = 0 := by
      by_contra hne
      exact not_live_of_load hi (Nat.pos_of_ne_zero hne) hlive
    rcases h.slot_cases hi i with hsame | hfree | ⟨y, hy, hpending, hgens, hdrops⟩ | hpos
    · exact .live (hsame.trans hlive)
    · exact absurd (hlive.symm.trans hfree) (by simp)
    · obtain rfl := Slot.live.inj (hy.symm.trans hlive)
      have hrecords : (c.place t p).records = c.records := congrArg (List.map Gen.record) hgens
      refine .pending hpending (fun g' hg' => ?_) fun u uh hu => ?_
      · exact absurd hload (load_pos_of_recordedIn (hrecords ▸ hg')).ne'
      · rcases (threadAt_place ht).mp hu with ⟨-, rfl⟩ | ⟨-, hu⟩
        · rw [hdrops]
          rfl
        · by_contra hne
          exact absurd hload (load_pos_of_drops hu (Nat.pos_of_ne_zero hne)).ne'
    · exact absurd hload (load_pos_of_drops ht hpos).ne'
  | pending hpending hrecorded hdrops =>
    refine .pending ?_ (fun g' hg' => ?_) fun u uh hu => ?_
    · rcases h.slot_cases hi i with hsame | hfree | ⟨y, hy, -⟩ | hpos
      · exact hsame.trans hpending
      · exact absurd (hpending.symm.trans hfree) (by simp)
      · exact absurd (hpending.symm.trans hy) (by simp)
      · exact absurd (hdrops t th ht) hpos.ne'
    · rcases h.recordedIn_cases hg' with hold | ⟨m, hpc, htarget⟩
      · exact hrecorded g' hold
      · exact reader_gen_le_target hi ht hpc htarget hk
    · rcases (threadAt_place ht).mp hu with ⟨-, rfl⟩ | ⟨-, hu⟩
      · rcases h.dropRecords_cases hi ht i with hle | ⟨g, hg, hlt, hdead⟩
        · exact Nat.eq_zero_of_le_zero (hle.trans_eq (hdrops t th ht))
        · have halive := hi'.refs.alive_of_reader (k := k) (r := r') hk'
          exact absurd (hi'.refs.alive_of_le halive (hgen ▸ hrecorded g hg) hlt) hdead
      · exact hdrops u uh hu

/-! ### Runs -/

/-- A reader stays as it is, moves its iterators, or is dropped. Its generation is fixed when it is
made. -/
theorem Move.reader_cases {r : Reader} (h : Move c t th p) (hk : HandleAt c.state.readers k r) :
    (∃ r', HandleAt p.state.readers k r' ∧ r'.gen = r.gen) ∨ p.state.readers[k]? = some none := by
  cases h with
  | newReader hkind hgen halive => exact Or.inl ⟨r, hk.append, rfl⟩
  | @readerDrop b k' r' hk' =>
    by_cases hkk : k = k'
    · subst hkk
      exact Or.inr (List.getElem?_set_self (List.getElem?_eq_some_iff.mp hk).1)
    · exact Or.inl ⟨r, handleAt_set.mpr (Or.inl ⟨hkk, hk⟩), rfl⟩
  | @setIters b k' r' iters hk' htail =>
    by_cases hkk : k = k'
    · subst hkk
      obtain rfl := hk.inj hk'
      exact Or.inl ⟨{ r with iters }, handleAt_set.mpr (Or.inr ⟨rfl,
        (List.getElem?_eq_some_iff.mp hk).1, rfl⟩), rfl⟩
    · exact Or.inl ⟨r, handleAt_set.mpr (Or.inl ⟨hkk, hk⟩), rfl⟩
  | _ => exact Or.inl ⟨r, hk, rfl⟩

/-- The number of a dropped reader is not used again. -/
theorem Move.reader_dropped (h : Move c t th p) (hk : c.state.readers[k]? = some none) :
    p.state.readers[k]? = some none := by
  have hlt := (List.getElem?_eq_some_iff.mp hk).1
  cases h with
  | newReader hkind hgen halive => exact (List.getElem?_append_left hlt).trans hk
  | @readerDrop b k' r' hk' =>
    have hne : k' ≠ k := by
      rintro rfl
      exact absurd (hk'.symm.trans hk) (by simp)
    exact (List.getElem?_set_ne hne).trans hk
  | @setIters b k' r' iters hk' htail =>
    have hne : k' ≠ k := by
      rintro rfl
      exact absurd (hk'.symm.trans hk) (by simp)
    exact (List.getElem?_set_ne hne).trans hk
  | _ => exact hk

/-- Reader `k` of generation `g` protects the item, or is dropped. -/
def Config.Keeps (c : Config α) (k g i : Nat) (x : α) : Prop :=
  (∃ r, HandleAt c.state.readers k r ∧ r.gen = g ∧ c.Shields g i x) ∨
    c.state.readers[k]? = some none

theorem Stepped.keeps {l : Label α} (h : Stepped c l c') (hi : ThreadInv c)
    (hc : c.Keeps k g i x) : c'.Keeps k g i x := by
  cases h with
  | stays => exact hc
  | aborts hpoison =>
    rcases hc with ⟨r, hk, hg, hs⟩ | hk
    · refine Or.inl ⟨r, hk, hg, ?_⟩
      cases hs with
      | live hlive => exact .live hlive
      | pending hpending hrecorded hdrops => exact .pending hpending hrecorded hdrops
    · exact Or.inr hk
  | moves ht hmove hl =>
    rcases hc with ⟨r, hk, rfl, hs⟩ | hk
    · rcases hmove.reader_cases hk with ⟨r', hk', hgen⟩ | hk'
      · exact Or.inl ⟨r', hk', hgen, hmove.shields hi ht hk hk' hgen hs⟩
      · exact Or.inr hk'
    · exact Or.inr (hmove.reader_dropped hk)

variable {l : Layout} {capacity n : Nat} {c₀ : Config α} {labels labels' : List (Label α)}

/-- **Readers protect what they have seen.** When an item is visible while reader `k` exists, then
whatever the threads do, it is in its slot and the storage exists as long as reader `k` has not been
dropped, also after the item has been removed and the slab itself dropped. -/
theorem reader_protects {r r' : Reader}
    (hnew : Config.withFixedCapacity .memory l capacity n = .ok c₀)
    (hrun : Interleaving c₀ labels c) (hk : HandleAt c.state.readers k r)
    (hlive : c.state.cslab.slot i = .live x) (hrun' : Interleaving c labels' c')
    (hk' : HandleAt c'.state.readers k r') :
    0 < c'.state.storageStrong ∧
      (c'.state.cslab.slot i = .live x ∨ c'.state.cslab.slot i = .pending x) := by
  have hi := threadInv_of_interleaving hnew hrun
  have hboth : ThreadInv c' ∧ c'.Keeps k r.gen i x := by
    refine Steps.invariant (P := fun c => ThreadInv c ∧ c.Keeps k r.gen i x) ?_ hrun'
      ⟨hi, Or.inl ⟨r, hk, rfl, .live hlive⟩⟩
    rintro c label c' ⟨hi, hc⟩ hstep
    obtain ⟨c'', hok, hstepped⟩ := step_cases hi hstep
    obtain rfl := Except.ok.inj hok
    exact ⟨hstepped.inv hi, hstepped.keeps hi hc⟩
  refine ⟨storage_of_reader hboth.1 hk', ?_⟩
  rcases hboth.2 with ⟨-, -, -, hs⟩ | hdropped
  · cases hs with
    | live hlive => exact Or.inl hlive
    | pending hpending => exact Or.inr hpending
  · exact absurd (hdropped.symm.trans hk') (by simp)

/-- The owner removes the item and drops the slab, and another thread drops the second reader. -/
theorem reader_protects_removed :
    ∃ (c₀ c c' : Config Nat) (labels labels' : List (Label Nat)),
      Config.withFixedCapacity .memory ⟨4, 4⟩ 2 2 = .ok c₀ ∧ Interleaving c₀ labels c ∧
      c.state.cslab.slot 0 = .live 7 ∧ Interleaving c labels' c' ∧ c'.state.slab = none ∧
      (c'.state.cslab.slot 0 = .live 7 ∨ c'.state.cslab.slot 0 = .pending 7) := by
  obtain ⟨c₀, c, hnew, hrun, hc⟩ := exists_interleaving_of_observe (α := Nat) (t := ⟨4, 4⟩)
    (n := 2) (f := fun c => (c.state.readers[0]?.join.isSome, c.state.cslab.slot 0,
      (c.run [.invoke 0 (.remove 0), .exec 0, .exec 0, .exec 0, .exec 0, .exec 0, .exec 0, .exec 0,
        .invoke 0 .drop, .invoke 1 (.readerDrop 1), .exec 0, .exec 1, .exec 0, .exec 1,
        .exec 0]).map fun c' => (c'.state.readers[0]?.join.isSome, c'.state.slab)))
    (show Config.observe ⟨4, 4⟩ 2 2 [.invoke 0 (.insert 7), .exec 0, .exec 0, .exec 0,
      .invoke 0 .reader] _ = some (true, .live 7, some (true, none)) by decide)
  simp only [Prod.mk.injEq] at hc
  obtain ⟨hreaders, hlive, hc'⟩ := hc
  obtain ⟨c', hrun', hc'⟩ := Option.map_eq_some_iff.mp hc'
  simp only [Prod.mk.injEq] at hc'
  obtain ⟨hreaders', hslab⟩ := hc'
  obtain ⟨r, hk⟩ := Option.isSome_iff_exists.mp hreaders
  obtain ⟨r', hk'⟩ := Option.isSome_iff_exists.mp hreaders'
  have hexec := interleaving_of_run hrun'
  exact ⟨c₀, c, c', _, _, hnew, hrun, hlive, hexec, hslab,
    (reader_protects hnew hrun (handleAt_iff_join.mpr hk) hlive hexec
      (handleAt_iff_join.mpr hk')).2⟩

end ZprUtils.RcuCslab
