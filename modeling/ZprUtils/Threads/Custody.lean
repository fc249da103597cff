import ZprUtils.RcuCslab.Destruction
import ZprUtils.Threads.Chronicle

/-!
# Items under many threads

What has been put into a slot and what has been taken out of it are compared event by event: the
items taken out of a slot are those put into it, in the same order, and the one that is left is what
is in the slot now. An item is taken out by the destructor of a generation, which destroys it later,
or by the destructor of the storage, which destroys it at once. So no item is destroyed twice, and
when the slab and all its handles are dropped, every item has been destroyed.

## Main definitions

* `State.stored` — the item in a slot.
* `State.Conserved` — the items put into and taken out of every slot.

## Main results

* `conserved_of_interleaving` — every interleaving conserves the items.
* `items_destroyed_once` — items are destroyed once.
-/

namespace ZprUtils.RcuCslab

variable {α : Type} {s s' : State α} {log es : List (Event α)} {i j : Nat} {x : α}

/-! ### What is in the slots -/

/-- An item is put into a slot. -/
def Event.inserted? : Event α → Option (Nat × α)
  | .inserted i x => some (i, x)
  | _ => none

/-- An item is taken out of a slot. -/
def Event.vacated? : Event α → Option (Nat × α)
  | .finalized _ i x | .destroyed (.storage i) x _ => some (i, x)
  | _ => none

/-- An item that was in a slot is destroyed. -/
def Event.destroyed? : Event α → Option (Nat × α)
  | .destroyed (.gen _ i) x _ | .destroyed (.storage i) x _ => some (i, x)
  | _ => none

/-- The item in a slot; the destructor of the storage drops the items that are visible. -/
def State.stored (s : State α) (i : Nat) : List α :=
  match s.cslab.slot i with
  | .free => []
  | .live x => if s.storageStrong = 0 then [] else [x]
  | .pending x => [x]

/-- **Conservation.** What has been put into a slot has been taken out of it, or is there. -/
def State.Conserved (s : State α) : Prop :=
  ∀ i, entriesOf i (s.log.filterMap Event.inserted?) =
    entriesOf i (s.log.filterMap Event.vacated?) ++ s.stored i

theorem stored_congr (hcslab : s'.cslab = s.cslab)
    (hstorage : s'.storageStrong = 0 ↔ s.storageStrong = 0) (i : Nat) :
    s'.stored i = s.stored i := by
  simp only [State.stored, hcslab, hstorage]

/-- Events that are not about the slots. -/
theorem State.Conserved.frame (h : s.Conserved) (hlog : s'.log = s.log ++ es)
    (hes : ∀ e ∈ es, e.inserted? = none ∧ e.vacated? = none)
    (hstored : ∀ i, s'.stored i = s.stored i) : s'.Conserved := by
  intro i
  have hins : es.filterMap Event.inserted? = [] :=
    List.filterMap_eq_nil_iff.mpr fun e he => (hes e he).1
  have hvac : es.filterMap Event.vacated? = [] :=
    List.filterMap_eq_nil_iff.mpr fun e he => (hes e he).2
  rw [hlog, List.filterMap_append, List.filterMap_append, hins, hvac, List.append_nil,
    List.append_nil, hstored]
  exact h i

/-- One slot changes, and nothing else. -/
theorem stored_update {slot : Slot α} (hslot : s'.cslab.slot = Function.update s.cslab.slot j slot)
    (hstorage : s'.storageStrong = s.storageStrong) (hij : i ≠ j) : s'.stored i = s.stored i := by
  simp only [State.stored, hslot, Function.update_of_ne hij, hstorage]

/-- An item is put into a free slot: one more insertion in the log, one more item in the slots. -/
theorem State.Conserved.insert (h : s.Conserved) (hlog : s'.log = s.log ++ [.inserted j x])
    (hslot : s'.cslab.slot = Function.update s.cslab.slot j (.live x))
    (hfree : s.cslab.slot j = .free) (hstorage : s'.storageStrong = s.storageStrong)
    (hpos : 0 < s.storageStrong) : s'.Conserved := by
  intro i
  rw [hlog, filterMap_concat_of_some (f := Event.inserted?) rfl, filterMap_concat_of_none rfl,
    entriesOf_append, h i]
  by_cases hij : i = j
  · subst hij
    have hbefore : s.stored i = [] := by rw [State.stored, hfree]
    have hafter : s'.stored i = [x] := by
      simp only [State.stored, hslot, Function.update_self, hstorage, if_neg hpos.ne']
    rw [hbefore, hafter, List.append_nil, entriesOf_cons_self]
    rfl
  · rw [entriesOf_cons_ne (Ne.symm hij), stored_update hslot hstorage hij]
    exact List.append_nil _

/-- The item of a slot is taken out, by an event that names the slot and the item: what the log has
more, the slots have less. -/
theorem State.Conserved.vacate {e : Event α} (h : s.Conserved) (hlog : s'.log = s.log ++ [e])
    (hins : e.inserted? = none) (hvac : e.vacated? = some (j, x))
    (hslot : s'.cslab.slot = Function.update s.cslab.slot j .free)
    (hpending : s.cslab.slot j = .pending x) (hstorage : s'.storageStrong = s.storageStrong) :
    s'.Conserved := by
  intro i
  rw [hlog, filterMap_concat_of_none hins, filterMap_concat_of_some hvac, entriesOf_append, h i]
  by_cases hij : i = j
  · subst hij
    have hbefore : s.stored i = [x] := by rw [State.stored, hpending]
    have hafter : s'.stored i = [] := by
      simp only [State.stored, hslot, Function.update_self]
    rw [hbefore, hafter, List.append_nil, entriesOf_cons_self]
    rfl
  · rw [entriesOf_cons_ne (Ne.symm hij), stored_update hslot hstorage hij]
    exact congrArg (· ++ s.stored i) (List.append_nil _).symm

/-- The mark of a removal leaves the item where it is. -/
theorem stored_mark (hslot : s'.cslab.slot = Function.update s.cslab.slot j (.pending x))
    (hlive : s.cslab.slot j = .live x) (hstorage : s'.storageStrong = s.storageStrong)
    (hpos : 0 < s.storageStrong) (i : Nat) : s'.stored i = s.stored i := by
  by_cases hij : i = j
  · subst hij
    simp only [State.stored, hslot, Function.update_self, hlive, if_neg hpos.ne']
  · exact stored_update hslot hstorage hij

/-- The destructor of the storage takes out what is visible. Pending items stay behind and are never
destroyed, so there must be none at the end. -/
theorem State.Conserved.dropStorage {items : List (Nat × α)} (h : s.Conserved)
    (hlog : s'.log = s.log ++ .storageDropped ::
      items.map fun p => .destroyed (.storage p.1) p.2 false)
    (hcslab : s'.cslab = s.cslab) (hpos : 0 < s.storageStrong) (hzero : s'.storageStrong = 0)
    (hnodup : (items.map Prod.fst).Nodup) (hitems : ∀ p, p ∈ items ↔ s.cslab.slot p.1 = .live p.2) :
    s'.Conserved := by
  intro i
  have hins : (Event.storageDropped :: items.map fun p =>
      Event.destroyed (.storage p.1) p.2 false).filterMap Event.inserted? = [] := by
    refine List.filterMap_eq_nil_iff.mpr fun e he => ?_
    rcases List.mem_cons.mp he with rfl | he
    · rfl
    · obtain ⟨p, -, rfl⟩ := List.mem_map.mp he
      rfl
  have hvac : (Event.storageDropped :: items.map fun p =>
      Event.destroyed (.storage p.1) p.2 false).filterMap Event.vacated? = items := by
    rw [List.filterMap_cons_none rfl, List.filterMap_map]
    exact List.filterMap_some
  rw [hlog, List.filterMap_append, List.filterMap_append, hins, hvac, List.append_nil,
    entriesOf_append, h i, List.append_assoc]
  congr 1
  have hitem : ∀ y, (i, y) ∈ items ↔ s.cslab.slot i = .live y := fun y => hitems (i, y)
  cases hslot : s.cslab.slot i with
  | free =>
    have hnone : entriesOf i items = [] := entriesOf_eq_nil fun y hy => by
      rw [hitem, hslot] at hy
      exact absurd hy (by simp)
    simp only [State.stored, hcslab, hslot, hnone, List.append_nil]
  | live y =>
    have hsome : entriesOf i items = [y] := entriesOf_of_nodup hnodup ((hitem y).mpr hslot)
    simp only [State.stored, hcslab, hslot, hsome, if_neg hpos.ne', if_pos hzero, List.append_nil]
  | pending y =>
    have hnone : entriesOf i items = [] := entriesOf_eq_nil fun z hz => by
      rw [hitem, hslot] at hz
      exact absurd hz (by simp)
    simp only [State.stored, hcslab, hslot, hnone, List.nil_append]

/-! ### Moves -/

variable {c c' : Config α} {t : Nat} {th : Thread α} {p : Site α}

/-- A step that leaves the slots and the log as they are. -/
theorem State.Conserved.still (h : s.Conserved) (hlog : s'.log = s.log)
    (hcslab : s'.cslab = s.cslab) (hstorage : s'.storageStrong = 0 ↔ s.storageStrong = 0) :
    s'.Conserved :=
  h.frame (hlog.trans (List.append_nil _).symm) (by simp) (stored_congr hcslab hstorage)

theorem State.Conserved.note (h : s.Conserved) {e : Event α} (hlog : s'.log = s.log ++ [e])
    (he : e.inserted? = none ∧ e.vacated? = none) (hcslab : s'.cslab = s.cslab)
    (hstorage : s'.storageStrong = s.storageStrong) : s'.Conserved :=
  h.frame hlog (by simpa using he) (stored_congr hcslab (by rw [hstorage]))

/-- **Items.** Every move conserves them: what was inserted into a slot is in it, or was taken out
of it, in the same order, and what is destroyed was taken out before. -/
theorem Move.conserved (h : Move c t th p) (hi : ThreadInv c) (ht : c.ThreadAt t th)
    (hc : c.state.Conserved) : p.state.Conserved := by
  obtain ⟨free, hinv⟩ := hi.removals.cslab
  cases h with
  | storage hmore =>
    refine hc.still rfl rfl ?_
    simp only
    omega
  | @storageLast ds pc u items hlast hitems =>
    obtain ⟨items', hitems', hnodup, hmem⟩ := hinv.items_eq
    obtain rfl := Except.ok.inj (hitems.symm.trans hitems')
    exact hc.dropStorage rfl rfl (by omega) (by simp only; omega) hnodup hmem
  | finalizing hfinalize =>
    obtain ⟨hpending, -, hslot, -⟩ := hinv.of_finalizeRemove hfinalize
    exact hc.vacate rfl rfl rfl hslot hpending rfl
  | insert hinsert =>
    obtain ⟨rest, -, -, hslot, -, hfree⟩ := hinv.of_insert hinsert
    exact hc.insert rfl hslot hfree rfl (storage_of_borrow hi ht (by simp [Pc.borrow]))
  | mark hmark =>
    obtain ⟨x, hlive, -, hslot, -⟩ := hinv.of_markRemoved hmark
    refine hc.frame (List.append_nil _).symm (by simp) (stored_mark hslot hlive rfl ?_)
    exact storage_of_borrow hi ht (by simp [Pc.borrow])
  | unwind hpc hpoison hlog =>
    rcases hlog with rfl | ⟨x, -, rfl⟩
    · exact hc.still rfl rfl Iff.rfl
    · exact hc.note rfl ⟨rfl, rfl⟩ rfl rfl
  | dropItem | reject | record htarget hgen halive | advance hpc him hslab hgen =>
    exact hc.note rfl ⟨rfl, rfl⟩ rfl rfl
  | @newReader pc u g gen hkind hgen halive =>
    refine hc.still rfl rfl ?_
    have hpos := hi.refs.storageStrong_pos
      (Or.inl (hi.refs.writerStrong_pos_of_alive ⟨gen, hgen, halive⟩))
    simp only [State.withReader]
    omega
  | _ => exact hc.still rfl rfl Iff.rfl

theorem Stepped.conserved {l : Label α} (h : Stepped c l c') (hi : ThreadInv c)
    (hc : c.state.Conserved) : c'.state.Conserved := by
  cases h with
  | stays => exact hc
  | aborts hpoison => exact hc.still rfl rfl Iff.rfl
  | moves ht hmove hl => exact hmove.conserved hi ht hc

variable {l : Layout} {capacity n : Nat} {c₀ : Config α} {labels : List (Label α)}

/-- **Every interleaving conserves the items.** Nothing has been inserted or destroyed in a new
slab, and every step is a move or touches no item. -/
theorem conserved_of_interleaving (hnew : Config.withFixedCapacity .memory l capacity n = .ok c₀)
    (hrun : Interleaving c₀ labels c) : c.state.Conserved := by
  have hinit : c₀.state.Conserved := by
    obtain ⟨s, hs, hret⟩ := except_bind_eq_ok.mp hnew
    obtain rfl := Except.ok.inj hret
    have hledger := ledger_withFixedCapacity hs
    have hslot : s.cslab.slot = fun _ => .free := congrArg Ledger.slot hledger
    have hlog : s.log = [] := congrArg Ledger.log hledger
    intro i
    simp only [State.stored, hslot, hlog]
    rfl
  have hboth : ThreadInv c ∧ c.state.Conserved := by
    refine Steps.invariant (P := fun c => ThreadInv c ∧ c.state.Conserved) ?_ hrun
      ⟨threadInv_withFixedCapacity hnew, hinit⟩
    rintro c label c' ⟨hi, hc⟩ hstep
    obtain ⟨c'', hok, hstepped⟩ := step_cases hi hstep
    obtain rfl := Except.ok.inj hok
    exact ⟨hstepped.inv hi, hstepped.conserved hi hc⟩
  exact hboth.2

/-! ### What is destroyed -/

/-- An item is taken out by a generation. -/
def Event.taken? : Event α → Option (Nat × Nat × α)
  | .finalized g i x => some (g, i, x)
  | _ => none

/-- An item is destroyed by a generation. -/
def Event.disposed? : Event α → Option (Nat × Nat × α)
  | .destroyed (.gen g i) x _ => some (g, i, x)
  | _ => none

/-- An item is taken out and destroyed by the storage. -/
def Event.cleared? : Event α → Option (Nat × α)
  | .destroyed (.storage i) x _ => some (i, x)
  | _ => none

theorem entriesOf_taken (g : Nat) (log : List (Event α)) :
    entriesOf g (log.filterMap Event.taken?) = log.filterMap (takenBy g) := by
  rw [entriesOf, List.filterMap_filterMap]
  refine congrArg (List.filterMap · log) (funext fun e => ?_)
  cases e <;> rfl

theorem entriesOf_disposed (g : Nat) (log : List (Event α)) :
    entriesOf g (log.filterMap Event.disposed?) = log.filterMap (destroyedBy g) := by
  rw [entriesOf, List.filterMap_filterMap]
  refine congrArg (List.filterMap · log) (funext fun e => ?_)
  cases e with
  | destroyed site x locked => cases site <;> rfl
  | _ => rfl

theorem vacated_perm (log : List (Event α)) : (log.filterMap Event.vacated?).Perm
    ((log.filterMap Event.taken?).map Prod.snd ++ log.filterMap Event.cleared?) := by
  rw [List.map_filterMap]
  refine filterMap_perm_append fun e => ?_
  cases e with
  | destroyed site x locked =>
    cases site with
    | storage i => exact Or.inr ⟨rfl, rfl⟩
    | _ => exact Or.inl ⟨rfl, rfl⟩
  | _ => exact Or.inl ⟨rfl, rfl⟩

theorem destroyed_perm (log : List (Event α)) : (log.filterMap Event.destroyed?).Perm
    ((log.filterMap Event.disposed?).map Prod.snd ++ log.filterMap Event.cleared?) := by
  rw [List.map_filterMap]
  refine filterMap_perm_append fun e => ?_
  cases e with
  | destroyed site x locked =>
    cases site with
    | storage i => exact Or.inr ⟨rfl, rfl⟩
    | _ => exact Or.inl ⟨rfl, rfl⟩
  | _ => exact Or.inl ⟨rfl, rfl⟩

/-- The items that generations have destroyed are items that they have taken out. -/
theorem disposed_subperm (hc : c.Chronicle) :
    (c.state.log.filterMap Event.disposed?).Subperm (c.state.log.filterMap Event.taken?) := by
  refine subperm_of_entriesOf fun g => ?_
  obtain ⟨indices, items, hlog⟩ := (hc.stage g).exists_chronicled
  rw [entriesOf_disposed, entriesOf_taken, hlog.taken]
  exact (List.sublist_append_left _ _).subperm

/-- When every generation is gone, they have destroyed what they have taken out. With destructors in
progress there is only the inclusion. -/
theorem disposed_perm (hc : c.Chronicle) (hdead : ∀ g, ¬Alive c.state.gens g)
    (hflight : ∀ g, c.inFlight g = 0) (hpoison : c.state.poisoned = false) :
    (c.state.log.filterMap Event.disposed?).Perm (c.state.log.filterMap Event.taken?) := by
  refine perm_of_entriesOf fun g => ?_
  rw [entriesOf_disposed, entriesOf_taken]
  by_cases hlen : g < c.state.gens.length
  · have hlog := (hc.stage g).chronicled_of_gone hlen (hdead g) (hflight g) hpoison
    rw [hlog.taken, List.append_nil]
  · have hrecord : c.records[g]? = none := by
      rw [List.getElem?_eq_none_iff, Config.records, List.length_map]
      exact Nat.le_of_not_lt hlen
    cases hc.stage g with
    | opened _ _ _ hlog => rw [hlog.taken, List.append_nil]
    | flight hr | done hr => exact absurd (hrecord.symm.trans hr) (by simp)

theorem vacated_subperm (hc : c.state.Conserved) :
    (c.state.log.filterMap Event.vacated?).Subperm (c.state.log.filterMap Event.inserted?) := by
  refine subperm_of_entriesOf fun i => ?_
  rw [hc i]
  exact (List.sublist_append_left _ _).subperm

/-- Without handles nothing is left in the slots, unless the mutex is poisoned: every generation has
finalized its removals, and the storage has been dropped. -/
theorem stored_of_allDropped (hi : ThreadInv c) (hret : c.Returned) (hend : c.state.AllDropped)
    (hpoison : c.state.poisoned = false) (i : Nat) : c.state.stored i = [] := by
  obtain ⟨hdead, hzero⟩ := hend.dropped (hi.inv_of_returned hret)
  rw [State.stored]
  cases hslot : c.state.cslab.slot i with
  | free => rfl
  | live x => exact if_pos hzero
  | pending x =>
    obtain ⟨g, gen, hgen, halive, -⟩ :=
      mem_livePending.mp ((hi.pending_of_returned hret).mem hpoison i x hslot)
    exact absurd ⟨gen, hgen, halive⟩ (hdead g)

/-- **Every item is destroyed once.** Whatever the threads do, the items taken out of a slot are
those put into it, in the same order, and no item is destroyed twice or without having been
inserted. When the threads have returned and the slab and all its handles are dropped, every item
that was inserted has been destroyed, unless the mutex is poisoned. -/
theorem items_destroyed_once (hnew : Config.withFixedCapacity .memory l capacity n = .ok c₀)
    (hrun : Interleaving c₀ labels c) :
    (∀ i, entriesOf i (c.state.log.filterMap Event.vacated?) <+:
      entriesOf i (c.state.log.filterMap Event.inserted?)) ∧
    (c.state.log.filterMap Event.destroyed?).Subperm (c.state.log.filterMap Event.inserted?) ∧
      (c.Returned → c.state.AllDropped → c.state.poisoned = false →
        (c.state.log.filterMap Event.destroyed?).Perm
          (c.state.log.filterMap Event.inserted?)) := by
  have hi := threadInv_of_interleaving hnew hrun
  have hchron := chronicle_of_interleaving hnew hrun
  have hcons := conserved_of_interleaving hnew hrun
  refine ⟨fun i => ⟨c.state.stored i, (hcons i).symm⟩, ?_, fun hret hend hpoison => ?_⟩
  · have hdisposed := subperm_map Prod.snd (disposed_subperm hchron)
    exact (destroyed_perm _).subperm.trans ((hdisposed.append (.refl _)).trans
      ((vacated_perm _).symm.subperm.trans (vacated_subperm hcons)))
  · obtain ⟨hdead, -⟩ := hend.dropped (hi.inv_of_returned hret)
    have hflight : ∀ g, c.inFlight g = 0 := fun g => hret.total_eq_zero fun _ => rfl
    have hvacated : (c.state.log.filterMap Event.vacated?).Perm
        (c.state.log.filterMap Event.inserted?) := by
      refine perm_of_entriesOf fun i => ?_
      rw [hcons i, stored_of_allDropped hi hret hend hpoison, List.append_nil]
    have hdisposed := (disposed_perm hchron hdead hflight hpoison).map Prod.snd
    exact (destroyed_perm _).trans ((hdisposed.append_right _).trans
      ((vacated_perm _).symm.trans hvacated))

/-- One thread drops the slab while another one finalizes a removal. -/
theorem items_destroyed_once_all :
    ∃ (c₀ c : Config Nat) (labels : List (Label Nat)),
      Config.withFixedCapacity .memory ⟨4, 4⟩ 2 2 = .ok c₀ ∧ Interleaving c₀ labels c ∧
      c.state.AllDropped ∧ c.state.log.filterMap Event.inserted? = [(0, 7), (1, 8)] ∧
      (c.state.log.filterMap Event.destroyed?).Perm (c.state.log.filterMap Event.inserted?) := by
  obtain ⟨c₀, c, hnew, hrun, hc⟩ := exists_interleaving_of_observe (α := Nat) (t := ⟨4, 4⟩)
    (n := 2) (f := fun c => (c.threads, c.state.slab.isNone &&
      c.state.readers.all (·.isNone) && c.state.entries.all (·.isNone) && !c.state.aborted &&
      !c.state.poisoned, c.state.log.filterMap Event.inserted?))
    (show Config.observe ⟨4, 4⟩ 2 2 [.invoke 0 (.insert 7), .exec 0, .exec 0, .exec 0,
      .invoke 0 (.insert 8), .exec 0, .exec 0, .exec 0, .invoke 0 .reader, .invoke 0 (.remove 0),
      .exec 0, .exec 0, .exec 0, .exec 0, .exec 0, .exec 0, .exec 0, .invoke 0 .drop,
      .invoke 1 (.readerDrop 0), .exec 0, .exec 1, .exec 0, .exec 1, .exec 0, .exec 1, .exec 1,
      .exec 1, .exec 1, .exec 1, .exec 1, .exec 1, .invoke 0 (.readerDrop 1), .exec 0, .exec 0,
      .exec 0, .exec 0, .exec 0, .exec 0, .exec 0] _ =
        some ([⟨[], .idle, false⟩, ⟨[], .idle, false⟩], true,
          [(0, 7), (1, 8)]) by decide +kernel)
  simp only [Prod.mk.injEq, Bool.and_eq_true, Bool.not_eq_true', Option.isNone_iff_eq_none] at hc
  obtain ⟨hthreads, ⟨⟨⟨⟨hslab, hreaders⟩, hentries⟩, habort⟩, hpoison⟩, hins⟩ := hc
  have hend : c.state.AllDropped := .of_eval hslab hreaders hentries habort
  have hret : c.Returned := by
    intro t th ht
    have hmem := List.mem_of_getElem? ht
    rw [hthreads] at hmem
    simp only [List.mem_cons, List.not_mem_nil, or_false, or_self] at hmem
    rw [hmem]
    exact ⟨rfl, rfl⟩
  exact ⟨c₀, c, _, hnew, hrun, hend, hins,
    (items_destroyed_once hnew hrun).2.2 hret hend hpoison⟩

end ZprUtils.RcuCslab
