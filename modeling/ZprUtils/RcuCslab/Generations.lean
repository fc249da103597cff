import ZprUtils.RcuCslab.Bookkeeping

/-!
# Generations are finalized in order

After every call the generations that are alive are those from the oldest one that is held by the
slab, by a reader or by an entry. Unless a thread has panicked with the mutex held, the removals
that are not finalized yet are those recorded in these generations, each recorded once, and every
other generation has finalized its removals, once and after those of all older generations.

## Main definitions

* `State.HoldsGen` — a handle of a generation exists.

## Main results

* `alive_iff_holdsGen` — the generations that are alive.
* `generations_in_order` — every run.
-/

namespace ZprUtils.RcuCslab

variable {α : Type} {s : State α} {g : Nat}

/-- The slab, a reader or an entry is of generation `g`. -/
def State.HoldsGen (s : State α) (g : Nat) : Prop :=
  (∃ slab, s.slab = some slab ∧ slab.curGen = g) ∨
    (∃ k r, HandleAt s.readers k r ∧ r.gen = g) ∨ ∃ k e, HandleAt s.entries k e ∧ e.gen = g

theorem State.handleRefs_pos : 0 < s.handleRefs g ↔ s.HoldsGen g := by
  constructor
  · intro h
    have hcases : 0 < countHandles (·.gen == g) s.readers ∨
        0 < countHandles (·.gen == g) s.entries ∨ (s.slab.any (·.curGen == g)) = true := by
      rw [State.handleRefs] at h
      cases hslab : s.slab.any (·.curGen == g) with
      | true => simp
      | false =>
        rw [hslab, Bool.toNat_false] at h
        omega
    rcases hcases with h | h | h
    · obtain ⟨k, r, hk, hr⟩ := exists_handleAt_of_countHandles h
      exact Or.inr (Or.inl ⟨k, r, hk, beq_iff_eq.mp hr⟩)
    · obtain ⟨k, e, hk, he⟩ := exists_handleAt_of_countHandles h
      exact Or.inr (Or.inr ⟨k, e, hk, beq_iff_eq.mp he⟩)
    · cases hslab : s.slab with
      | none => simp [hslab] at h
      | some slab => exact Or.inl ⟨slab, hslab, by simpa [hslab] using h⟩
  · rintro (⟨slab, hslab, rfl⟩ | ⟨k, r, hk, rfl⟩ | ⟨k, e, hk, rfl⟩)
    · simp [State.handleRefs, hslab]
    · have hpos := countHandles_pos (p := (·.gen == r.gen)) hk (beq_self_eq_true _)
      rw [State.handleRefs]
      omega
    · have hpos := countHandles_pos (p := (·.gen == e.gen)) hk (beq_self_eq_true _)
      rw [State.handleRefs]
      omega

/-- **The generations that are alive** are those from the oldest one that is held: each generation
has a reference to the next one, so that a handle keeps its own and all later ones alive. -/
theorem alive_iff_holdsGen (hr : Refs {} s) :
    Alive s.gens g ↔ g < s.gens.length ∧ ∃ g₀ ≤ g, s.HoldsGen g₀ := by
  constructor
  · intro halive
    refine ⟨halive.lt_length, ?_⟩
    induction g with
    | zero =>
      refine ⟨0, le_rfl, State.handleRefs_pos.mp ?_⟩
      rw [alive_iff_strongAt, hr.strong] at halive
      simp only [predRef] at halive
      simpa [Nat.pos_iff_ne_zero] using halive
    | succ g ih =>
      by_cases hheld : 0 < s.handleRefs (g + 1)
      · exact ⟨g + 1, le_rfl, State.handleRefs_pos.mp hheld⟩
      · -- only the predecessor keeps the generation alive
        have hpred : Alive s.gens g := by
          rw [alive_iff_strongAt, hr.strong] at halive
          have hne : predRef s.gens (g + 1) ≠ 0 := by
            simp only at halive
            simp at halive
            omega
          rw [predRef] at hne
          split_ifs at hne with hany
          · cases hgen : s.gens[g]? with
            | none => simp [hgen] at hany
            | some gen =>
              rw [hgen, Option.any_some, Bool.and_eq_true] at hany
              exact ⟨gen, hgen, hany.1⟩
          · exact absurd rfl hne
        obtain ⟨g₀, hle, hheld⟩ := ih hpred
        exact ⟨g₀, by omega, hheld⟩
  · rintro ⟨hlt, g₀, hle, hheld⟩
    exact hr.alive_of_le (hr.alive_of_handleRefs (State.handleRefs_pos.mpr hheld)) hle hlt

/-! ### Counting removals -/

/-- The slots that are marked and not finalized are the recorded ones. This is the meeting point of
the two layers: the slot says what, the generation says until when. -/
theorem Pending.mem_iff (hp : Pending s) (hpoison : s.poisoned = false) (i : Nat) :
    i ∈ livePending s.gens ↔ ∃ x, s.cslab.slot i = .pending x :=
  ⟨hp.slot i, fun ⟨x, hx⟩ => hp.mem hpoison i x hx⟩

theorem length_livePending (gens : List Gen) : (livePending gens).length =
    ((gens.filter Gen.alive).map fun gen => gen.pendingRemoves.length).sum := by
  induction gens with
  | nil => rfl
  | cons gen gens ih =>
    rw [livePending] at ih ⊢
    rw [List.flatMap_cons, List.length_append, ih, List.filter_cons]
    split_ifs <;> simp

theorem Pending.allocated_eq (hp : Pending s) (hpoison : s.poisoned = false) :
    s.cslab.allocated = s.cslab.len + (livePending s.gens).length := by
  obtain ⟨free, hinv⟩ := hp.cslab
  have hset : s.cslab.pendingSet = (livePending s.gens).toFinset := by
    ext i
    rw [List.mem_toFinset, hp.mem_iff hpoison, hinv.mem_pendingSet]
  rw [hinv.allocated_eq, hset, List.toFinset_card_of_nodup hp.nodup, Cslab.len, hinv.inUse_eq]

/-- When only the current generation is held, its removals are all that is recorded, for the older
generations are gone and there are no newer ones. -/
theorem livePending_of_holdsGen {slab : Slab} (hr : Refs {} s) (hslab : s.slab = some slab)
    (hheld : ∀ g, s.HoldsGen g → g = slab.curGen) :
    livePending s.gens = Ledger.pendingOf (s.gens.map Gen.record) slab.curGen := by
  have hcur := hr.curGen slab hslab
  have hdead : ∀ j < slab.curGen, ¬Alive s.gens j := by
    intro j hj halive
    obtain ⟨-, g₀, hle, hg₀⟩ := (alive_iff_holdsGen hr).mp halive
    have heq := hheld g₀ hg₀
    omega
  rcases List.eq_nil_or_concat s.gens with hnil | ⟨older, gen, hgens⟩
  · simp [hnil] at hcur
  rw [List.concat_eq_append] at hgens
  have hlen : slab.curGen = older.length := by
    rw [hgens, List.length_append, List.length_singleton] at hcur
    omega
  have hlast : s.gens[slab.curGen]? = some gen := by simp [hgens, hlen]
  obtain ⟨gen', hgen', halive⟩ := hr.alive_of_slab hslab
  obtain rfl := Option.some.inj (hlast.symm.trans hgen')
  have holder : livePending older = [] := by
    rw [livePending, List.flatMap_eq_nil_iff]
    intro gen₁ hmem
    obtain ⟨j, hj⟩ := List.getElem?_of_mem hmem
    have hlt := (List.getElem?_eq_some_iff.mp hj).1
    refine if_neg fun h => hdead j (hlen ▸ hlt) ⟨gen₁, ?_, h⟩
    rw [hgens, List.getElem?_append_left hlt, hj]
  rw [livePending] at holder
  rw [Ledger.pendingOf, getElem?_map_record hlast, hgens, livePending, List.flatMap_append, holder]
  simp [halive, Gen.record]

/-! ### Runs -/

/-- **Generations are finalized in order, exactly once and as soon as possible.** After every run
the generations that are alive are those from the oldest one held by the slab, by a reader or by an
entry; no removal is recorded twice in them; and removals are finalized in the order of the
generations. Unless a thread has panicked with the mutex held, the pending slots are exactly the
recorded removals, which `allocated - len` counts; a generation that was dropped has finalized each
of its removals once, and one that is alive none; and when only the current generation is held,
`allocated - len` is the number of removals recorded in it since it was created. -/
theorem generations_in_order {t : Layout} {capacity : Nat} {s₀ s : State α}
    {es : List (Op α × Except Interrupt (Ret α))}
    (hnew : withFixedCapacity .memory t capacity = .ok s₀)
    (hrun : Run s₀ es s) :
    (∀ g, Alive s.gens g ↔ g < s.gens.length ∧ ∃ g₀ ≤ g, s.HoldsGen g₀) ∧
      (livePending s.gens).Nodup ∧ (s.log.filterMap finalizedBy).Pairwise (· ≤ ·) ∧
      (s.poisoned = false →
        (∀ i, i ∈ livePending s.gens ↔ ∃ x, s.cslab.slot i = .pending x) ∧
        s.cslab.allocated = s.cslab.len +
          ((s.gens.filter Gen.alive).map fun gen => gen.pendingRemoves.length).sum ∧
        (∀ (g : Nat) (gen : Gen), s.gens[g]? = some gen → gen.pendingRemoves.Nodup ∧
          s.log.filterMap (finalizedIn g) = if gen.alive then [] else gen.pendingRemoves) ∧
        ∀ slab, s.slab = some slab → (∀ g, s.HoldsGen g → g = slab.curGen) →
          s.cslab.allocated = s.cslab.len +
            ((sinceAdvance s.log).filterMap (markedIn slab.curGen)).length) := by
  have hi := inv_of_run hnew hrun
  have hl := ledger_inv_of_run hnew hrun
  refine ⟨fun g => alive_iff_holdsGen hi.refs, hi.pending.nodup, hl.genLog.order,
    fun hpoison => ⟨hi.pending.mem_iff hpoison, ?_, fun g gen hgen => ?_,
      fun slab hslab hheld => ?_⟩⟩
  · rw [hi.pending.allocated_eq hpoison, length_livePending]
  · refine ⟨hl.records.nodup g gen.record (getElem?_map_record hgen), ?_⟩
    have hfinalized := hl.genLog.finalized hpoison g
    simpa [State.ledger, Ledger.finalizedOf, hgen, Gen.record] using hfinalized
  · have hrecent := hl.genLog.recent
    have hcur : s.ledger.records.length - 1 = slab.curGen := by
      have hlen := hi.refs.curGen slab hslab
      simp only [State.ledger, List.length_map]
      omega
    rw [hcur] at hrecent
    rw [hi.pending.allocated_eq hpoison, livePending_of_holdsGen hi.refs hslab hheld]
    exact congrArg (s.cslab.len + ·.length) hrecent.symm

/-- The first generation is alive as long as its reader, with the removal recorded in it. -/
theorem generations_in_order_reader :
    ∃ (s₀ s : State Nat) (es : List (Op Nat × Except Interrupt (Ret Nat))),
      withFixedCapacity .memory ⟨4, 4⟩ 2 = .ok s₀ ∧ Run s₀ es s ∧ s.poisoned = false ∧
      s.cslab.slot 0 = .pending 7 ∧ 0 ∈ livePending s.gens ∧
      s.cslab.allocated = s.cslab.len +
        ((s.gens.filter Gen.alive).map fun gen => gen.pendingRemoves.length).sum := by
  have hobserve : @observe Nat _ ⟨4, 4⟩ 2 [.insert 7, .reader, .remove 0]
      (fun p => (p.2.poisoned, p.2.cslab.slot 0)) = some (false, .pending 7) := by decide +kernel
  obtain ⟨s₀, rs, s, hnew, hrun, hsees⟩ := exists_run_of_observe hobserve
  obtain ⟨hpoison, hslot⟩ := Prod.mk.inj hsees
  obtain ⟨hmem, hcount, -⟩ := (generations_in_order hnew (.of_runOps hrun)).2.2.2 hpoison
  exact ⟨s₀, s, _, hnew, .of_runOps hrun, hpoison, hslot, (hmem 0).mpr ⟨7, hslot⟩, hcount⟩

/-- An entry that is removed after the end of its iteration: the removal is recorded in the
generation of the iteration, and is finalized at once. -/
theorem generations_late_entry :
    ∃ (s₀ s : State Nat) (es : List (Op Nat × Except Interrupt (Ret Nat))) (slab : Slab),
      withFixedCapacity .memory ⟨4, 4⟩ 2 = .ok s₀ ∧ Run s₀ es s ∧ s.poisoned = false ∧
      s.slab = some slab ∧ (∀ g, s.HoldsGen g → g = slab.curGen) ∧
      s.cslab.allocated - s.cslab.len ≠
        (sinceAdvance s.log).countP fun e => e matches .marked .. := by
  have hobserve : @observe Nat _ ⟨4, 4⟩ 2
      [.insert 7, .iterMut, .iterMutNext, .iterMutDrop, .entryRemove 0]
      (fun p => (p.2.poisoned, p.2.slab, p.2.readers.length, p.2.entries.all (·.isNone),
        p.2.cslab.allocated - p.2.cslab.len,
        (sinceAdvance p.2.log).countP fun e => e matches .marked ..)) =
      some (false, some ⟨2, 1⟩, 0, true, 0, 1) := by decide +kernel
  obtain ⟨s₀, rs, s, hnew, hrun, hsees⟩ := exists_run_of_observe hobserve
  simp only [Prod.mk.injEq, List.length_eq_zero_iff, List.all_eq_true] at hsees
  obtain ⟨hpoison, hslab, hreaders, hentries, hcount, hmarks⟩ := hsees
  refine ⟨s₀, s, _, ⟨2, 1⟩, hnew, .of_runOps hrun, hpoison, hslab, ?_, by omega⟩
  rintro g (⟨slab, hslab', rfl⟩ | ⟨k, r, hk, -⟩ | ⟨k, e, hk, -⟩)
  · rw [Option.some.inj (hslab.symm.trans hslab')]
  · simp [HandleAt, hreaders] at hk
  · exact absurd (hentries _ hk.mem) (by simp)

end ZprUtils.RcuCslab
