import ZprUtils.RcuCslab.SharedCalls

/-!
# Selective removal by a mutable iteration

A mutable iteration yields an entry for each visible item; an entry can be removed or dropped at any
time, also after the iterator is gone. The iterator looks at the bitmap while removals clear bits of
it and drops of readers finalize generations. Neither touches what is still before the iterator, so
it yields every item that was visible at the call once, and the removals are recorded in the
generation of the call, which lives as long as the iterator, an entry, or a reader that is not
newer.

## Main definitions

* `iterMutSizeHint` — the number of entries that the iterator reports.
* `Op.traverses` — the calls of a traversal.
* `yielded`, `RemovedIn` — the entries that a run yields, and the indices that it removes.
* `Traversed` — the invariant of a traversal.

## Main results

* `Ledger.Kept.next` — a recorded removal is kept while its generation is alive.
* `Traversed.step`, `Traversed.run` — the invariant over one call and over a run.
* `iterMut_removes` — selective removal.
-/

namespace ZprUtils.RcuCslab

variable {α : Type} {s s' : State α}

/-! ### Removals that are kept -/

namespace Ledger

variable {l l' : Ledger α} {g i : Nat} {x : α}

/-- The removal of the item `x` at the index `i` is recorded in generation `g`, and not finalized
before the generation dies. -/
def Kept (g i : Nat) (x : α) (l : Ledger α) : Prop :=
  g < l.records.length ∧
    (AliveIn l.records g → RecordedIn l.records g i ∧ l.slot i = .pending x)

/-- **A removal is kept** while its generation is alive. The transition that could take it out is
the drop of that very generation. -/
theorem Kept.next (hk : Kept g i x l) (hr : Records l) (h : Next l l') : Kept g i x l' := by
  obtain ⟨hlt, hkept⟩ := hk
  cases h with
  | reject | poison | dropStorage => exact ⟨hlt, hkept⟩
  | @insert j y hfree =>
    refine ⟨hlt, fun halive => ?_⟩
    obtain ⟨hrec, hslot⟩ := hkept halive
    refine ⟨hrec, ?_⟩
    have hne : i ≠ j := by
      rintro rfl
      exact absurd (hfree.symm.trans hslot) nofun
    exact (Function.update_of_ne hne _ _).trans hslot
  | @mark g' j r y hlive hr' halive' =>
    refine ⟨by rwa [List.length_set], fun halive => ?_⟩
    obtain ⟨hrec, hslot⟩ := hkept ((aliveIn_mark hr').mp halive)
    refine ⟨(recordedIn_mark hr' halive').mpr (Or.inl hrec), ?_⟩
    have hne : i ≠ j := by
      rintro rfl
      exact absurd (hlive.symm.trans hslot) nofun
    exact (Function.update_of_ne hne _ _).trans hslot
  | advance =>
    refine ⟨by rw [List.length_append]; omega, fun halive => ?_⟩
    rcases aliveIn_push.mp halive with halive | rfl
    · obtain ⟨hrec, hslot⟩ := hkept halive
      exact ⟨recordedIn_push.mpr hrec, hslot⟩
    · exact absurd hlt (Nat.lt_irrefl _)
  | @finalize g' r items hr' halive' =>
    refine ⟨by rwa [List.length_set], fun halive => ?_⟩
    obtain ⟨hne, halive⟩ := (aliveIn_kill hr').mp halive
    obtain ⟨hrec, hslot⟩ := hkept halive
    refine ⟨(recordedIn_kill hr').mpr ⟨hne, hrec⟩, ?_⟩
    -- the removal is recorded in one generation only
    have hnot : i ∉ r.pending := fun hmem => hne (hr.unique g g' i hrec ⟨r, hr', halive', hmem⟩)
    simp only [if_neg hnot, hslot]
  | @leak g' r hr' =>
    refine ⟨by rwa [List.length_set], fun halive => ?_⟩
    obtain ⟨hne, halive⟩ := (aliveIn_kill hr').mp halive
    obtain ⟨hrec, hslot⟩ := hkept halive
    exact ⟨(recordedIn_kill hr').mpr ⟨hne, hrec⟩, hslot⟩

end Ledger

/-- The invariant of the ledger and a kept removal, over a run. -/
theorem kept_of_run {g i : Nat} {x : α} {es : List (Op α × Except Interrupt (Ret α))}
    (hk : s.ledger.Kept g i x) (hi : Inv {} s) (hl : s.ledger.Inv) (hrun : Run s es s') :
    Inv {} s' ∧ s'.ledger.Inv ∧ s'.ledger.Kept g i x := by
  refine Steps.invariant (P := fun s => Inv {} s ∧ s.ledger.Inv ∧ s.ledger.Kept g i x) ?_ hrun
    ⟨hi, hl, hk⟩
  rintro s e s' ⟨hi, hl, hk⟩ hstep
  have hledger : s'.ledger.Inv ∧ s'.ledger.Kept g i x :=
    step_ledger (P := fun l => l.Inv ∧ l.Kept g i x)
      (fun l l' hnext h => ⟨hnext.inv h.1, h.2.next h.1.records hnext⟩) hi hstep ⟨hl, hk⟩
  exact ⟨step_inv hi hstep, hledger⟩

/-- While an old enough handle is alive a kept removal is pending, and its generation has finalized
nothing. -/
theorem pending_of_kept {g g₀ i : Nat} {x : α} (hk : s.ledger.Kept g i x) (hi : Inv {} s)
    (hl : s.ledger.Inv) (hle : g₀ ≤ g) (hholds : s.HoldsGen g₀) :
    s.cslab.slot i = .pending x ∧ ∀ j y, .finalized g j y ∉ s.log := by
  have hlt : g < s.gens.length := by simpa [State.ledger] using hk.1
  have halive : AliveIn s.ledger.records g :=
    aliveIn_map.mpr ((alive_iff_holdsGen hi.refs).mpr ⟨hlt, g₀, hle, hholds⟩)
  refine ⟨(hk.2 halive).2, fun j y hmem => ?_⟩
  exact (hl.genLog.dead g (List.mem_filterMap.mpr ⟨_, hmem, rfl⟩)).2 halive

/-! ### One call of the iterator -/

/-- What the iterator reports: the number of entries to come. -/
def iterMutSizeHint (im : IterMut) : Nat × Option Nat := (im.remaining, some im.remaining)

/-- The call of the iterator on one of its ends. -/
def Op.advance : IterEnd → Op α
  | .front => .iterMutNext
  | .back => .iterMutNextBack

theorem iterMut_eq_ok {u : Unit} (hlocked : s.locked = false) (h : iterMut s = (.ok u, s')) :
    s.poisoned = false ∧
      s' = { s with iterMut := some ⟨Iter.new s.cslab.storage, s.cslab.len⟩ } := by
  have hlen : len s = (if s.poisoned then .error (.panicked .panic) else .ok s.cslab.len, s) :=
    withLock_read hlocked
  rcases Bool.eq_false_or_eq_true s.poisoned with hpoison | hpoison
  · rw [hpoison, if_pos rfl] at hlen
    rw [iterMut, Call.bind_apply_error hlen] at h
    exact absurd (Prod.mk.inj h).1 nofun
  · rw [hpoison, if_neg Bool.false_ne_true] at hlen
    rw [iterMut, Call.bind_apply_ok hlen] at h
    exact ⟨hpoison, (Prod.mk.inj h).2.symm⟩

/-- The state after an entry was yielded. -/
def State.yieldedEntry (s : State α) (im : IterMut) (e : Entry α) : State α :=
  { s with
    iterMut := some im
    gens := s.gens.modify e.gen fun gen => { gen with strong := gen.strong + 1 }
    entries := s.entries ++ [some e] }

/-- A call of an iterator whose count is right either finds nothing, or yields an entry. -/
theorem step_advance {e : IterEnd} {slab : Slab} {im : IterMut} {o : Except Interrupt (Ret α)}
    (hi : Inv {} s) (hslab : s.slab = some slab) (him : s.iterMut = some im)
    (hcount : im.remaining = s.cslab.left im.iter) (hstep : step s (.advance e) = some (o, s')) :
    (∃ it, o = .ok (.entry none) ∧ s' = { s with iterMut := some { im with iter := it } } ∧
      (∀ j, im.iter.Covers j → s.cslab.storage.bit j = false) ∧ (∀ j, ¬it.Covers j) ∧
      im.remaining = 0 ∧ s.cslab.left it = 0) ∨
    ∃ i x it, o = .ok (.entry (some (s.entries.length, ⟨i, x, slab.curGen⟩))) ∧
      s' = s.yieldedEntry ⟨it, im.remaining - 1⟩ ⟨i, x, slab.curGen⟩ ∧
      s.cslab.slot i = .live x ∧ im.iter.Covers i ∧ ¬it.Covers i ∧
      (∀ j, it.Covers j → im.iter.Covers j) ∧
      (∀ j, s.cslab.storage.bit j = true → im.iter.Covers j → j = i ∨ it.Covers j) ∧
      im.remaining = s.cslab.left it + 1 := by
  obtain ⟨free, hinv⟩ := hi.pending.cslab
  obtain ⟨m, hcall, hsettle⟩ := step_eq_some hstep
  have hyield : settle s ((.entry <$> yieldEntry slab im (im.iter.advance s.cslab.storage e)) s) =
      (o, s') := by
    rw [← hsettle]
    cases e with
    | front =>
      cases allowed_of_call hcall with
      | iterMutNext hslab' him' =>
        obtain rfl := Option.some.inj (hslab.symm.trans hslab')
        obtain rfl := Option.some.inj (him.symm.trans him')
        rfl
    | back =>
      cases allowed_of_call hcall with
      | iterMutNextBack hslab' him' =>
        obtain rfl := Option.some.inj (hslab.symm.trans hslab')
        obtain rfl := Option.some.inj (him.symm.trans him')
        rfl
  rcases hinv.advance_eq e im.iter (hi.borrows.iterMut im him).2.1 with
    ⟨it, hok, -, habsent, hnone, hzero, hzero'⟩ |
    ⟨i, x, it, hok, -, hlive, hi, hi', hshrinks, hsplit, hleft⟩
  · have hcall : yieldEntry slab im (im.iter.advance s.cslab.storage e) s =
        (.ok none, { s with iterMut := some { im with iter := it } }) := by
      rw [hok]
      rfl
    obtain ⟨rfl, rfl⟩ := settle_map_ok hyield hcall
    exact Or.inl ⟨it, rfl, rfl, habsent, hnone, hcount.trans hzero, hzero'⟩
  · have hrem : usizeSub im.remaining 1 = .ok (im.remaining - 1) := usizeSub_eq_ok (by omega)
    have hcall : yieldEntry slab im (im.iter.advance s.cslab.storage e) s =
        (.ok (some (s.entries.length, ⟨i, x, slab.curGen⟩)),
          s.yieldedEntry ⟨it, im.remaining - 1⟩ ⟨i, x, slab.curGen⟩) := by
      rw [hok]
      simp [yieldEntry, hrem, bind, Call.liftFault, Call.modify, Call.get, acquireGen, modifyGen,
        pure, State.yieldedEntry]
    obtain ⟨rfl, rfl⟩ := settle_map_ok hyield hcall
    exact Or.inr ⟨i, x, it, rfl, rfl, hlive, hi, hi', hshrinks, hsplit, hcount.trans hleft⟩

/-- The removal of an entry hides its item, and is kept in the generation of the entry. -/
theorem entryRemove_eq {k : Nat} {e : Entry α} (hi : Inv {} s) (hl : s.ledger.Inv)
    (hk : HandleAt s.entries k e) :
    ∃ s', entryRemove k e s = (.ok (), s') ∧ s'.ledger.Kept e.gen e.idx e.value ∧
      (s'.cslab.slot e.idx).liveItem = none ∧
      (∀ j, j ≠ e.idx → (s'.cslab.slot j).liveItem = (s.cslab.slot j).liveItem) ∧
      s'.poisoned = s.poisoned ∧ s'.locked = s.locked ∧ s'.slab = s.slab ∧
      s'.iterMut = s.iterMut ∧ s'.entries = s.entries.set k none ∧
      s'.gens.length = s.gens.length ∧ s'.readers = s.readers ∧ s'.aborted = s.aborted := by
  obtain ⟨c, s', hmark, hremove, hi', hrel⟩ := releases_entryRemove hi hk
  obtain ⟨free, hinv⟩ := hi.pending.cslab
  obtain ⟨x, hlive, -, hslot, -⟩ := hinv.of_markRemoved hmark
  obtain rfl : e.value = x := Slot.live.inj ((hi.borrows.entry_live k e hk).2.symm.trans hlive)
  obtain ⟨hlocked, hpoisoned, hslab, him, hentries, hreaders, haborted, hgens⟩ := hrel.frame
  have hunseen := hrel.unseen hi'
  obtain ⟨gen, hgen, halive⟩ := hi.refs.alive_of_entry hk
  have hset := modify_eq_set_of_getElem? hgen fun gen =>
    { gen with pendingRemoves := gen.pendingRemoves ++ [e.idx] }
  have hledger : (s.removedEntry k e c).ledger.Inv := by
    rcases (Action.removeEntry hk hmark).ledger hi with heq | hnext
    · exact (congrArg Ledger.Inv heq).mpr hl
    · exact hnext.inv hl
  have hkept : (s.removedEntry k e c).ledger.Kept e.gen e.idx e.value := by
    refine ⟨?_, fun _ => ⟨⟨Gen.record { gen with pendingRemoves := gen.pendingRemoves ++ [e.idx] },
      ?_, halive, List.mem_append_right _ List.mem_cons_self⟩, ?_⟩⟩
    · simpa [State.ledger, State.removedEntry] using (List.getElem?_eq_some_iff.mp hgen).1
    · refine getElem?_map_record ?_
      simp only [State.removedEntry, hset]
      rw [List.getElem?_set_self (List.getElem?_eq_some_iff.mp hgen).1]
    · simp only [State.ledger, State.removedEntry, hslot, Function.update_self]
  have hpast := hrel.reach.ledger (P := fun l => l.Inv ∧ l.Kept e.gen e.idx e.value)
    (fun l l' hnext h => ⟨hnext.inv h.1, h.2.next h.1.records hnext⟩) hi' ⟨hledger, hkept⟩
  refine ⟨s', hremove, hpast.2, ?_, fun j hj => ?_, hpoisoned, hlocked, hslab, him, hentries,
    hgens.trans (List.length_modify _ _ _), hreaders, haborted⟩
  · rw [hunseen.view.live]
    simp only [State.removedEntry, hslot, Function.update_self]
    rfl
  · rw [hunseen.view.live]
    simp only [State.removedEntry, hslot, Function.update_of_ne hj]

/-! ### Traversals -/

/-- The calls of a traversal: those of the iterator and of its entries, and those that share the
slab. -/
def Op.traverses : Op α → Bool
  | .iterMutNext | .iterMutNextBack | .iterMutDrop | .entryRemove _ | .entryDrop _ => true
  | op => op.shared

/-- The entry that a call yields, with the number of its handle. -/
def yieldedBy : Op α × Except Interrupt (Ret α) → Option (Nat × Entry α)
  | (.iterMutNext, .ok (.entry p)) | (.iterMutNextBack, .ok (.entry p)) => p
  | _ => none

/-- The handle of the entry that a call removes. -/
def removedBy : Op α × Except Interrupt (Ret α) → Option Nat
  | (.entryRemove k, .ok _) => some k
  | _ => none

/-- The entries that a run yields. -/
def yielded (es : List (Op α × Except Interrupt (Ret α))) : List (Nat × Entry α) :=
  es.filterMap yieldedBy

/-- The indices of the entries that a run yields. -/
def yieldedIdx (es : List (Op α × Except Interrupt (Ret α))) : List Nat :=
  (yielded es).map (·.2.idx)

/-- A run removes the entry of the index `i`. -/
def RemovedIn (es : List (Op α × Except Interrupt (Ret α))) (i : Nat) : Prop :=
  ∃ p ∈ yielded es, p.1 ∈ es.filterMap removedBy ∧ p.2.idx = i

/-- A call of a run has found the iterator exhausted. -/
def Exhausted (es : List (Op α × Except Interrupt (Ret α))) : Prop :=
  ∃ e : IterEnd, (.advance e, .ok (.entry none)) ∈ es

/-- An iterator over the slab `c` after it has yielded the indices `ys` of the items of `c₀`. -/
structure IterMut.Tracks (im : IterMut) (c₀ c : Cslab α) (ys : List Nat) : Prop where
  remaining : im.remaining = c.left im.iter
  count : im.remaining + ys.length = c₀.len
  same : ∀ j, im.iter.Covers j → (c.slot j).liveItem = (c₀.slot j).liveItem
  ahead : ∀ j x, c₀.slot j = .live x → (im.iter.Covers j ↔ j ∉ ys)

/-- **The invariant of a traversal** that was started in the state `s`. -/
structure Traversed (s : State α) (slab : Slab) (es : List (Op α × Except Interrupt (Ret α)))
    (s' : State α) : Prop where
  inv : Inv {} s'
  ledger : s'.ledger.Inv
  poisoned : s'.poisoned = false
  locked : s'.locked = false
  returns : ∀ e ∈ es, ∃ ret, e.2 = .ok ret
  iterating : ∀ im, s'.iterMut = some im → s'.slab = some slab ∧
    s'.gens.length = s.gens.length ∧ im.Tracks s.cslab s'.cslab (yieldedIdx es)
  dropped : s'.iterMut = none → s'.slab = some { slab with curGen := s.gens.length } ∧
    s'.gens.length = s.gens.length + 1
  entry : ∀ k e, HandleAt s'.entries k e → (k, e) ∈ yielded es
  keys : ∀ p ∈ yielded es, p.1 < s'.entries.length
  keys_nodup : ((yielded es).map Prod.fst).Nodup
  removed : ∀ k ∈ es.filterMap removedBy, k < s'.entries.length
  yielded : ∀ p ∈ yielded es, s.cslab.slot p.2.idx = .live p.2.value ∧ p.2.gen = slab.curGen
  nodup : (yieldedIdx es).Nodup
  live : ∀ i x, s'.cslab.slot i = .live x ↔ s.cslab.slot i = .live x ∧ ¬RemovedIn es i
  kept : ∀ i x, RemovedIn es i → s.cslab.slot i = .live x → s'.ledger.Kept slab.curGen i x
  exhausted : Exhausted es → ∀ i x, s.cslab.slot i = .live x → i ∈ yieldedIdx es

section

variable {es : List (Op α × Except Interrupt (Ret α))} {e : Op α × Except Interrupt (Ret α)}
  {k : Nat} {i : Nat}

theorem yielded_append_none (es : List (Op α × Except Interrupt (Ret α)))
    (he : yieldedBy e = none) : yielded (es ++ [e]) = yielded es := by
  rw [yielded, List.filterMap_append, List.filterMap_cons_none he, List.filterMap_nil,
    List.append_nil, yielded]

theorem yielded_append_some (es : List (Op α × Except Interrupt (Ret α))) {p : Nat × Entry α}
    (he : yieldedBy e = some p) :
    yielded (es ++ [e]) = yielded es ++ [p] := by
  rw [yielded, List.filterMap_append, List.filterMap_cons_some he, List.filterMap_nil, yielded]

theorem removedBy_append_none (es : List (Op α × Except Interrupt (Ret α)))
    (he : removedBy e = none) :
    (es ++ [e]).filterMap removedBy = es.filterMap removedBy := by
  rw [List.filterMap_append, List.filterMap_cons_none he, List.filterMap_nil, List.append_nil]

theorem removedBy_append_some (es : List (Op α × Except Interrupt (Ret α)))
    (he : removedBy e = some k) :
    (es ++ [e]).filterMap removedBy = es.filterMap removedBy ++ [k] := by
  rw [List.filterMap_append, List.filterMap_cons_some he, List.filterMap_nil]

theorem removedIn_append_none (hy : yieldedBy e = none) (hr : removedBy e = none) :
    RemovedIn (es ++ [e]) i ↔ RemovedIn es i := by
  rw [RemovedIn, yielded_append_none es hy, removedBy_append_none es hr, RemovedIn]

/-- An entry with a new handle has not been removed. -/
theorem removedIn_append_yield {p : Nat × Entry α} (hy : yieldedBy e = some p)
    (hr : removedBy e = none) (hnew : p.1 ∉ es.filterMap removedBy) :
    RemovedIn (es ++ [e]) i ↔ RemovedIn es i := by
  rw [RemovedIn, RemovedIn, yielded_append_some es hy, removedBy_append_none es hr]
  constructor
  · rintro ⟨q, hq, hkey, hidx⟩
    rcases List.mem_append.mp hq with hq | hq
    · exact ⟨q, hq, hkey, hidx⟩
    · rw [List.mem_singleton.mp hq] at hkey
      exact absurd hkey hnew
  · rintro ⟨q, hq, hkey, hidx⟩
    exact ⟨q, List.mem_append_left _ hq, hkey, hidx⟩

/-- A removal is that of one entry, since a handle is that of one entry only. -/
theorem removedIn_append_removal {entry : Entry α} (hy : yieldedBy e = none)
    (hr : removedBy e = some k) (hnodup : ((yielded es).map Prod.fst).Nodup)
    (hmem : (k, entry) ∈ yielded es) :
    RemovedIn (es ++ [e]) i ↔ RemovedIn es i ∨ i = entry.idx := by
  rw [RemovedIn, RemovedIn, yielded_append_none es hy, removedBy_append_some es hr]
  constructor
  · rintro ⟨q, hq, hkey, hidx⟩
    rcases List.mem_append.mp hkey with hkey | hkey
    · exact Or.inl ⟨q, hq, hkey, hidx⟩
    · have hentry : q = (k, entry) :=
        List.inj_on_of_nodup_map hnodup hq hmem (List.mem_singleton.mp hkey)
      exact Or.inr (by rw [← hidx, hentry])
  · rintro (⟨q, hq, hkey, hidx⟩ | rfl)
    · exact ⟨q, hq, List.mem_append_left _ hkey, hidx⟩
    · exact ⟨_, hmem, List.mem_append_right _ List.mem_cons_self, rfl⟩

theorem exhausted_append (he : ∀ n : IterEnd, e ≠ (.advance n, .ok (.entry none)))
    (h : Exhausted (es ++ [e])) : Exhausted es := by
  obtain ⟨n, hmem⟩ := h
  rcases List.mem_append.mp hmem with hmem | hmem
  · exact ⟨n, hmem⟩
  · exact absurd (List.mem_singleton.mp hmem).symm (he n)

theorem quiet_of_shared (hop : e.1.shared = true) :
    yieldedBy e = none ∧ removedBy e = none ∧
      ∀ n : IterEnd, e ≠ (.advance n, .ok (.entry none)) := by
  obtain ⟨op, o⟩ := e
  cases op with
  | len | allocated | vacantKey | get _ | reader | readerClone _ | readerDrop _ | readerGet _ _
  | readerContainsKey _ _ | readerIter _ | readerNext _ _ | readerNextBack _ _ =>
    exact ⟨rfl, rfl, fun n => by cases n <;> nofun⟩
  | _ => exact absurd hop nofun

theorem returns_append (h : ∀ e ∈ es, ∃ ret, e.2 = .ok ret) (he : ∃ ret, e.2 = .ok ret) :
    ∀ e' ∈ es ++ [e], ∃ ret, e'.2 = .ok ret := by
  rw [List.forall_mem_append, List.forall_mem_singleton]
  exact ⟨h, he⟩

end

theorem IterMut.Tracks.congr {im : IterMut} {c₀ c c' : Cslab α} {ys free free' : List Nat}
    (h : im.Tracks c₀ c ys) (hc : c.Inv free) (hc' : c'.Inv free')
    (hlive : ∀ j, im.iter.Covers j → (c'.slot j).liveItem = (c.slot j).liveItem) :
    im.Tracks c₀ c' ys := by
  refine ⟨h.remaining.trans ?_, h.count, fun j hj => (hlive j hj).trans (h.same j hj), h.ahead⟩
  rw [Cslab.left, Cslab.left]
  refine congrArg List.length (List.filter_congr fun j hj => ?_)
  rw [List.mem_range'_1] at hj
  rw [hc.bit_eq_isSome, hc'.bit_eq_isSome, hlive j ⟨hj.1, by omega⟩]

/-- What was visible at the call and is still before the iterator is visible. -/
theorem IterMut.Tracks.bit {im : IterMut} {c₀ c : Cslab α} {ys free : List Nat} {j : Nat} {x : α}
    (h : im.Tracks c₀ c ys) (hc : c.Inv free) (hj : c₀.slot j = .live x)
    (hcovers : im.iter.Covers j) : c.storage.bit j = true := by
  rw [hc.bit_eq_isSome, h.same j hcovers, hj]
  rfl

/-- The iterator passes the index `i`. -/
theorem IterMut.Tracks.yield {im : IterMut} {it : Iter} {c₀ c : Cslab α} {ys free : List Nat}
    {i : Nat} (h : im.Tracks c₀ c ys) (hc : c.Inv free) (hcovers' : ¬it.Covers i)
    (hshrinks : ∀ j, it.Covers j → im.iter.Covers j)
    (hsplit : ∀ j, c.storage.bit j = true → im.iter.Covers j → j = i ∨ it.Covers j)
    (hleft : im.remaining = c.left it + 1) :
    IterMut.Tracks ⟨it, im.remaining - 1⟩ c₀ c (ys ++ [i]) := by
  have hcount := h.count
  refine ⟨?_, ?_, fun j hj => h.same j (hshrinks j hj), fun j y hj => ?_⟩
  · simp only
    omega
  · simp only [List.length_append, List.length_singleton]
    omega
  · rw [List.mem_append, List.mem_singleton, not_or]
    constructor
    · intro hj'
      refine ⟨(h.ahead j y hj).mp (hshrinks j hj'), ?_⟩
      rintro rfl
      exact hcovers' hj'
    · rintro ⟨hnot, hne⟩
      have hcovers := (h.ahead j y hj).mpr hnot
      exact (hsplit j (h.bit hc hj hcovers) hcovers).resolve_left hne

namespace Traversed

variable {slab : Slab} {es : List (Op α × Except Interrupt (Ret α))} {s'' : State α}
  {e : Op α × Except Interrupt (Ret α)} (h : Traversed s slab es s')
include h

/-- The ledger after another call. -/
theorem ledger_step (hstep : Step s' e s'') :
    s''.ledger.Inv ∧ ∀ i x, RemovedIn es i → s.cslab.slot i = .live x →
      s''.ledger.Kept slab.curGen i x := by
  refine ⟨step_ledger (fun _ _ hnext hl => hnext.inv hl) h.inv hstep h.ledger, fun i x hi hx => ?_⟩
  exact (kept_of_run (h.kept i x hi hx) h.inv h.ledger (.single hstep)).2.2

/-- A call that yields nothing, removes nothing and changes nothing visible. -/
theorem silent (hstep : Step s' e s'') (hret : ∃ ret, e.2 = .ok ret) (hy : yieldedBy e = none)
    (hr : removedBy e = none)
    (hex : Exhausted (es ++ [e]) → ∀ i x, s.cslab.slot i = .live x → i ∈ yieldedIdx es)
    (hlive : ∀ i, (s''.cslab.slot i).liveItem = (s'.cslab.slot i).liveItem)
    (hpoison : s''.poisoned = s'.poisoned) (hlocked : s''.locked = s'.locked)
    (hentries : ∀ k e, HandleAt s''.entries k e → HandleAt s'.entries k e)
    (hlength : s''.entries.length = s'.entries.length)
    (hiter : ∀ im, s''.iterMut = some im → s''.slab = some slab ∧
      s''.gens.length = s.gens.length ∧ im.Tracks s.cslab s''.cslab (yieldedIdx es))
    (hdropped : s''.iterMut = none → s''.slab = some { slab with curGen := s.gens.length } ∧
      s''.gens.length = s.gens.length + 1) :
    Traversed s slab (es ++ [e]) s'' := by
  obtain ⟨hledger, hkept⟩ := h.ledger_step hstep
  have hyielded := yielded_append_none es hy
  have hremoved := removedBy_append_none es hr
  have hidx : yieldedIdx (es ++ [e]) = yieldedIdx es := by rw [yieldedIdx, hyielded, yieldedIdx]
  refine ⟨step_inv h.inv hstep, hledger, hpoison.trans h.poisoned, hlocked.trans h.locked,
    returns_append h.returns hret, ?_, hdropped, ?_, ?_, ?_, ?_, ?_, ?_, ?_, ?_, ?_⟩
  · rw [hidx]
    exact hiter
  · rw [hyielded]
    exact fun k e hk => h.entry k e (hentries k e hk)
  · rw [hyielded, hlength]
    exact h.keys
  · rw [hyielded]
    exact h.keys_nodup
  · rw [hremoved, hlength]
    exact h.removed
  · rw [hyielded]
    exact h.yielded
  · rw [hidx]
    exact h.nodup
  · intro i x
    rw [← Slot.liveItem_eq_some, hlive, Slot.liveItem_eq_some, h.live, removedIn_append_none hy hr]
  · intro i x hi
    exact hkept i x ((removedIn_append_none hy hr).mp hi)
  · rw [hidx]
    exact hex

/-- A call that in addition leaves the iterator as it is, or drops it. -/
theorem quiet (hstep : Step s' e s'') (hret : ∃ ret, e.2 = .ok ret) (hy : yieldedBy e = none)
    (hr : removedBy e = none) (hx : ∀ n : IterEnd, e ≠ (.advance n, .ok (.entry none)))
    (hlive : ∀ i, (s''.cslab.slot i).liveItem = (s'.cslab.slot i).liveItem)
    (hpoison : s''.poisoned = s'.poisoned) (hlocked : s''.locked = s'.locked)
    (hentries : ∀ k e, HandleAt s''.entries k e → HandleAt s'.entries k e)
    (hlength : s''.entries.length = s'.entries.length)
    (hiter : ∀ im, s''.iterMut = some im → s'.iterMut = some im ∧ s''.slab = s'.slab ∧
      s''.gens.length = s'.gens.length)
    (hdropped : s''.iterMut = none → s''.slab = some { slab with curGen := s.gens.length } ∧
      s''.gens.length = s.gens.length + 1) :
    Traversed s slab (es ++ [e]) s'' := by
  obtain ⟨free, hinv⟩ := h.inv.pending.cslab
  obtain ⟨free'', hinv''⟩ := (step_inv h.inv hstep).pending.cslab
  refine h.silent hstep hret hy hr (fun hex => h.exhausted (exhausted_append hx hex)) hlive hpoison
    hlocked hentries hlength (fun im him => ?_) hdropped
  obtain ⟨him', hslab, hgens⟩ := hiter im him
  obtain ⟨hslab', hgens', htracks⟩ := h.iterating im him'
  exact ⟨hslab.trans hslab', hgens.trans hgens', htracks.congr hinv hinv'' fun j _ => hlive j⟩

theorem shared (hop : e.1.shared = true) (hstep : Step s' e s'') :
    Traversed s slab (es ++ [e]) s'' := by
  have hshares := shares_of_step h.inv hop hstep
  have hret := ok_of_shared h.inv h.locked h.poisoned hop hstep
  obtain ⟨hy, hr, hx⟩ := quiet_of_shared hop
  refine h.quiet hstep hret hy hr hx hshares.unseen.view.live hshares.unseen.poisoned hshares.locked
    ?_ (by rw [hshares.entries]) ?_ ?_
  · rw [hshares.entries]
    exact fun k e hk => hk
  · intro im him
    exact ⟨hshares.iterMut.symm.trans him, hshares.unseen.slab, hshares.unseen.length_gens⟩
  · intro him
    rw [hshares.unseen.slab, hshares.unseen.length_gens]
    exact h.dropped (hshares.iterMut.symm.trans him)

theorem entryDrop {k : Nat} {o : Except Interrupt (Ret α)}
    (hstep : step s' (.entryDrop k) = some (o, s'')) :
    Traversed s slab (es ++ [(.entryDrop k, o)]) s'' := by
  obtain ⟨m, hcall, hsettle⟩ := step_eq_some hstep
  cases allowed_of_call hcall with
  | @entryDrop _ e hk =>
    obtain ⟨t, hdrop, hrel⟩ := releases_dropEntry h.inv hk
    obtain ⟨rfl, rfl⟩ := settle_map_ok hsettle hdrop
    have hunseen := hrel.unseen ((Action.dropEntry hk).inv h.inv)
    obtain ⟨hlocked, -, hslab, him, hentries, -, -, hgens⟩ := hrel.frame
    refine h.quiet hstep ⟨_, rfl⟩ rfl rfl (fun n => by cases n <;> nofun) hunseen.view.live
      hunseen.poisoned hlocked ?_ ?_ (fun im him' => ⟨him.symm.trans him', hslab, hgens⟩) ?_
    · rw [hentries]
      exact fun k' e' hk' => hk'.of_drop.2
    · rw [hentries]
      exact List.length_set
    · intro him'
      rw [hslab, hgens]
      exact h.dropped (him.symm.trans him')

theorem iterMutDrop {o : Except Interrupt (Ret α)}
    (hstep : step s' .iterMutDrop = some (o, s'')) :
    Traversed s slab (es ++ [(.iterMutDrop, o)]) s'' := by
  obtain ⟨m, hcall, hsettle⟩ := step_eq_some hstep
  cases allowed_of_call hcall with
  | @iterMutDrop slab' im hslab' him =>
    obtain ⟨hslab, hlength, -⟩ := h.iterating im him
    obtain rfl := Option.some.inj (hslab'.symm.trans hslab)
    obtain ⟨o', t, hadvance, hi', hrel, hok, -⟩ :=
      releases_advanceGeneration h.inv hslab h.locked (Or.inl (by rw [him]; rfl))
    rw [hok h.poisoned] at hadvance
    have hdrop : dropIterMut slab' s' = (.ok (), t) := hadvance
    obtain ⟨rfl, rfl⟩ := settle_map_ok hsettle hdrop
    have hunseen := hrel.unseen hi'
    obtain ⟨hlocked, -, hslab'', him'', hentries, -, -, hgens⟩ := hrel.frame
    refine h.quiet hstep ⟨_, rfl⟩ rfl rfl (fun n => by cases n <;> nofun) hunseen.view.live
      hunseen.poisoned hlocked (fun k e hk => by rwa [hentries] at hk) (by rw [hentries]; rfl)
      (fun im him' => absurd (him''.symm.trans him') nofun) fun _ => ?_
    rw [hslab'', hgens, ← hlength]
    exact ⟨rfl, by simp [State.advanced]⟩

/-- An entry is yielded. -/
theorem yield {im : IterMut} {it : Iter} {i : Nat} {x : α} (him : s'.iterMut = some im)
    (hyield : yieldedBy e = some (s'.entries.length, ⟨i, x, slab.curGen⟩))
    (hstep : Step s' e (s'.yieldedEntry ⟨it, im.remaining - 1⟩ ⟨i, x, slab.curGen⟩))
    (hret : ∃ ret, e.2 = .ok ret) (hr : removedBy e = none)
    (hx : ∀ n : IterEnd, e ≠ (.advance n, .ok (.entry none)))
    (hlive : s'.cslab.slot i = .live x) (hcovers : im.iter.Covers i) (hcovers' : ¬it.Covers i)
    (hshrinks : ∀ j, it.Covers j → im.iter.Covers j)
    (hsplit : ∀ j, s'.cslab.storage.bit j = true → im.iter.Covers j → j = i ∨ it.Covers j)
    (hleft : im.remaining = s'.cslab.left it + 1) :
    Traversed s slab (es ++ [e]) (s'.yieldedEntry ⟨it, im.remaining - 1⟩ ⟨i, x, slab.curGen⟩) := by
  obtain ⟨hslab, hgens, htracks⟩ := h.iterating im him
  obtain ⟨free, hinv⟩ := h.inv.pending.cslab
  obtain ⟨hledger, hkept⟩ := h.ledger_step hstep
  have hyielded := yielded_append_some es hyield
  have hremoved := removedBy_append_none es hr
  have hidx : yieldedIdx (es ++ [e]) = yieldedIdx es ++ [i] := by
    rw [yieldedIdx, hyielded, List.map_append, yieldedIdx]
    rfl
  have hstart : s.cslab.slot i = .live x := by
    have hsame := htracks.same i hcovers
    rw [hlive] at hsame
    exact Slot.liveItem_eq_some.mp hsame.symm
  have hnew : i ∉ yieldedIdx es := (htracks.ahead i x hstart).mp hcovers
  have hnotremoved : ∀ j, RemovedIn (es ++ [e]) j ↔ RemovedIn es j := fun j =>
    removedIn_append_yield hyield hr fun hmem => absurd (h.removed _ hmem) (Nat.lt_irrefl _)
  have hlength : (s'.yieldedEntry ⟨it, im.remaining - 1⟩ ⟨i, x, slab.curGen⟩).entries.length =
      s'.entries.length + 1 := List.length_append
  refine ⟨step_inv h.inv hstep, hledger, h.poisoned, h.locked, returns_append h.returns hret,
    fun im' him' => ?_, nofun, fun k e' hk => ?_, fun p hp => ?_, ?_, fun k hk => ?_,
    fun p hp => ?_, ?_, fun j y => ?_, fun j y hj => ?_, fun hex j y hj => ?_⟩
  · obtain rfl := Option.some.inj him'
    rw [hidx]
    exact ⟨hslab, (List.length_modify _ _ _).trans hgens,
      htracks.yield hinv hcovers' hshrinks hsplit hleft⟩
  · rw [hyielded]
    rcases handleAt_append.mp hk with hk | ⟨rfl, rfl⟩
    · exact List.mem_append_left _ (h.entry k e' hk)
    · exact List.mem_append_right _ List.mem_cons_self
  · rw [hyielded, List.mem_append, List.mem_singleton] at hp
    rw [hlength]
    rcases hp with hp | rfl
    · exact Nat.lt_succ_of_lt (h.keys p hp)
    · exact Nat.lt_succ_self _
  · rw [hyielded, List.map_append, List.map_singleton]
    refine List.nodup_append.mpr ⟨h.keys_nodup, List.nodup_singleton _, ?_⟩
    intro k hk k' hk'
    obtain ⟨p, hp, rfl⟩ := List.mem_map.mp hk
    rw [List.mem_singleton.mp hk']
    exact (h.keys p hp).ne
  · rw [hlength]
    exact Nat.lt_succ_of_lt (h.removed k (hremoved ▸ hk))
  · rw [hyielded, List.mem_append, List.mem_singleton] at hp
    rcases hp with hp | rfl
    · exact h.yielded p hp
    · exact ⟨hstart, rfl⟩
  · rw [hidx]
    refine List.nodup_append.mpr ⟨h.nodup, List.nodup_singleton _, ?_⟩
    rintro j hj j' hj' rfl
    exact hnew (List.mem_singleton.mp hj' ▸ hj)
  · rw [hnotremoved]
    exact h.live j y
  · exact hkept j y ((hnotremoved j).mp hj)
  · rw [hidx]
    exact List.mem_append_left _ (h.exhausted (exhausted_append hx hex) j y hj)

theorem advance {n : IterEnd} {o : Except Interrupt (Ret α)}
    (hstep : step s' (.advance n) = some (o, s'')) :
    Traversed s slab (es ++ [(.advance n, o)]) s'' := by
  have him : ∃ im, s'.iterMut = some im := by
    obtain ⟨m, hcall, -⟩ := step_eq_some hstep
    cases n with
    | front => cases allowed_of_call hcall with | iterMutNext _ him => exact ⟨_, him⟩
    | back => cases allowed_of_call hcall with | iterMutNextBack _ him => exact ⟨_, him⟩
  obtain ⟨im, him⟩ := him
  obtain ⟨hslab, hgens, htracks⟩ := h.iterating im him
  obtain ⟨free, hinv⟩ := h.inv.pending.cslab
  rcases step_advance h.inv hslab him htracks.remaining hstep with
    ⟨it, rfl, rfl, habsent, hnone, hzero, hzero'⟩ |
    ⟨i, x, it, rfl, rfl, hlive, hcovers, hcovers', hshrinks, hsplit, hleft⟩
  · have hall : ∀ j x, s.cslab.slot j = .live x → j ∈ yieldedIdx es := by
      intro j x hj
      by_contra hnot
      have hcovers := (htracks.ahead j x hj).mpr hnot
      exact absurd ((htracks.bit hinv hj hcovers).symm.trans (habsent j hcovers)) nofun
    refine h.silent hstep ⟨_, rfl⟩ (by cases n <;> rfl) (by cases n <;> rfl) (fun _ => hall)
      (fun _ => rfl) rfl rfl (fun _ _ hk => hk) rfl (fun im' him' => ?_) nofun
    obtain rfl := Option.some.inj him'
    refine ⟨hslab, hgens, hzero.trans hzero'.symm, htracks.count,
      fun j hj => absurd hj (hnone j), fun j x hj => ?_⟩
    exact iff_of_false (hnone j) (not_not.mpr (hall j x hj))
  · exact h.yield him (by cases n <;> rfl) hstep ⟨_, rfl⟩ (by cases n <;> rfl)
      (fun n' => by cases n <;> cases n' <;> simp [Op.advance]) hlive hcovers hcovers' hshrinks
      hsplit hleft

/-- A removal of an entry that the iterator yielded. -/
theorem entryRemove {k : Nat} {o : Except Interrupt (Ret α)}
    (hstep : step s' (.entryRemove k) = some (o, s'')) :
    Traversed s slab (es ++ [(.entryRemove k, o)]) s'' := by
  obtain ⟨m, hcall, hsettle⟩ := step_eq_some hstep
  cases allowed_of_call hcall with
  | @entryRemove _ e hk =>
    obtain ⟨t, hremove, hkept', hgone, hothers, hpoisoned, hlocked, hslab, him, hentries, hgens,
      -⟩ := entryRemove_eq h.inv h.ledger hk
    obtain ⟨rfl, rfl⟩ := settle_map_ok hsettle hremove
    obtain ⟨hledger, hkept⟩ := h.ledger_step (e := (.entryRemove k, .ok .unit)) hstep
    obtain ⟨free, hinv⟩ := h.inv.pending.cslab
    obtain ⟨free'', hinv''⟩ := (step_inv h.inv hstep).pending.cslab
    have hmem := h.entry k e hk
    obtain ⟨hstart, hgen⟩ := h.yielded _ hmem
    have hlength : s''.entries.length = s'.entries.length := by rw [hentries, List.length_set]
    have hyielded := yielded_append_none es (e := (.entryRemove k, .ok .unit)) rfl
    have hremoved := removedBy_append_some es (e := (.entryRemove k, .ok .unit)) rfl
    have hidx : yieldedIdx (es ++ [(.entryRemove k, .ok .unit)]) = yieldedIdx es := by
      rw [yieldedIdx, hyielded, yieldedIdx]
    have hremovedIn : ∀ j, RemovedIn (es ++ [(.entryRemove k, .ok .unit)]) j ↔
        RemovedIn es j ∨ j = e.idx := fun j =>
      removedIn_append_removal rfl rfl h.keys_nodup hmem
    refine ⟨step_inv h.inv hstep, hledger, hpoisoned.trans h.poisoned, hlocked.trans h.locked,
      returns_append h.returns ⟨_, rfl⟩, fun im him' => ?_, fun him' => ?_, fun k' e' hk' => ?_,
      fun p hp => ?_, ?_, fun k' hk' => ?_, ?_, ?_, fun j y => ?_, fun j y hj hy => ?_,
      fun hex => ?_⟩
    · obtain ⟨hslab', hgens', htracks⟩ := h.iterating im (him.symm.trans him')
      rw [hidx]
      refine ⟨hslab.trans hslab', hgens.trans hgens', htracks.congr hinv hinv'' fun j hj => ?_⟩
      -- what is before the iterator has not been yielded
      refine hothers j ?_
      rintro rfl
      exact (htracks.ahead e.idx e.value hstart).mp hj (List.mem_map_of_mem hmem)
    · rw [hslab, hgens]
      exact h.dropped (him.symm.trans him')
    · rw [hentries] at hk'
      rw [hyielded]
      exact h.entry k' e' hk'.of_drop.2
    · rw [hyielded] at hp
      rw [hlength]
      exact h.keys p hp
    · rw [hyielded]
      exact h.keys_nodup
    · rw [hremoved, List.mem_append, List.mem_singleton] at hk'
      rw [hlength]
      rcases hk' with hk' | rfl
      · exact h.removed k' hk'
      · exact h.keys _ hmem
    · rw [hyielded]
      exact h.yielded
    · rw [hidx]
      exact h.nodup
    · rw [hremovedIn, ← Slot.liveItem_eq_some]
      by_cases hj : j = e.idx
      · rw [hj, hgone]
        exact iff_of_false nofun fun hnot => hnot.2 (Or.inr rfl)
      · rw [hothers j hj, Slot.liveItem_eq_some, h.live, or_iff_left hj]
    · rcases (hremovedIn j).mp hj with hj | rfl
      · exact hkept j y hj hy
      · obtain rfl : e.value = y := Slot.live.inj (hstart.symm.trans hy)
        exact hgen ▸ hkept'
    · rw [hidx]
      exact h.exhausted (exhausted_append (fun n => by cases n <;> nofun) hex)

/-- **One call of a traversal.** A call on either end yields a new item that was visible at the
start, or exhausts the iterator; the removal of an entry marks its item in the generation of the
traversal. -/
theorem step {op : Op α} {o : Except Interrupt (Ret α)} (hop : op.traverses = true)
    (hstep : RcuCslab.step s' op = some (o, s'')) : Traversed s slab (es ++ [(op, o)]) s'' := by
  cases op with
  | iterMutNext => exact h.advance (n := .front) hstep
  | iterMutNextBack => exact h.advance (n := .back) hstep
  | iterMutDrop => exact h.iterMutDrop hstep
  | entryRemove k => exact h.entryRemove hstep
  | entryDrop k => exact h.entryDrop hstep
  | _ => exact h.shared hop hstep

/-- **A traversal**: calls on both ends, removals and drops of entries, and drops of readers, in any
order. By induction on the calls. -/
theorem run {es' : List (Op α × Except Interrupt (Ret α))}
    (hops : ∀ e ∈ es', e.1.traverses = true) (hrun : Run s' es' s'') :
    Traversed s slab (es ++ es') s'' := by
  refine Steps.history (P := fun es' s'' => (∀ e ∈ es', e.1.traverses = true) →
    Traversed s slab (es ++ es') s'') ?_ hrun (fun _ => by rwa [List.append_nil]) hops
  intro es' s₁ e s₂ ih hstep hops
  rw [List.forall_mem_append, List.forall_mem_singleton] at hops
  rw [← List.append_assoc]
  exact (ih hops.1).step hops.2 hstep

omit h in
/-- A new iterator has everything visible before it. -/
theorem start {s₁ : State α} (hi : Inv {} s) (hl : s.ledger.Inv) (hslab : s.slab = some slab)
    (hiter : RcuCslab.step s .iterMut = some (.ok .unit, s₁)) : Traversed s slab [] s₁ := by
  have hi₁ := step_inv hi hiter
  obtain ⟨m, hcall, hsettle⟩ := step_eq_some hiter
  cases allowed_of_call hcall with
  | iterMut husable =>
    obtain ⟨-, hlocked, -, hentries⟩ := State.usable_iff.mp husable
    obtain ⟨b, hb, -⟩ := settle_map_eq_ok hsettle
    obtain ⟨hpoison, rfl⟩ := iterMut_eq_ok hlocked hb
    obtain ⟨free, hinv⟩ := hi.pending.cslab
    refine ⟨hi₁, hl, hpoison, hlocked, nofun, fun im him => ?_, nofun,
      fun k e hk => absurd hk (hentries k e), nofun, List.nodup_nil, nofun, nofun, List.nodup_nil,
      fun i x => ⟨fun hx => ⟨hx, nofun⟩, fun hx => hx.1⟩, nofun, ?_⟩
    · obtain rfl := Option.some.inj him
      refine ⟨hslab, rfl, hinv.left_new.symm, rfl, fun _ _ => rfl, fun j x hj => ?_⟩
      refine iff_of_true ⟨Nat.zero_le _, ?_⟩ List.not_mem_nil
      exact hinv.lt_frontier_of_item (by rw [hj]; rfl)
    · rintro ⟨n, hmem⟩
      exact absurd hmem List.not_mem_nil

/-- No more entries are yielded than there were items at the call. -/
theorem length_yielded_le (hi : Inv {} s) : (RcuCslab.yielded es).length ≤ s.cslab.len := by
  obtain ⟨free, hinv⟩ := hi.pending.cslab
  have hsubset : (yieldedIdx es).toFinset ⊆ s.cslab.liveSet := by
    intro i hmem
    obtain ⟨p, hp, rfl⟩ := List.mem_map.mp (List.mem_toFinset.mp hmem)
    exact hinv.mem_liveSet.mpr (Cslab.slot_eq_live.mp (h.yielded p hp).1).2
  have hcard := Finset.card_le_card hsubset
  rwa [List.toFinset_card_of_nodup h.nodup, yieldedIdx, List.length_map, ← hinv.inUse_eq] at hcard

/-- An exhausted iterator has yielded an entry for each item. -/
theorem length_yielded_of_exhausted (hi : Inv {} s) (hex : Exhausted es) :
    (RcuCslab.yielded es).length = s.cslab.len := by
  obtain ⟨free, hinv⟩ := hi.pending.cslab
  refine le_antisymm (h.length_yielded_le hi) ?_
  have hsubset : s.cslab.liveSet ⊆ (yieldedIdx es).toFinset := by
    intro i hmem
    have hbit := hinv.mem_liveSet.mp hmem
    obtain ⟨x, hx⟩ := hinv.item_of_bit i hbit
    exact List.mem_toFinset.mpr (h.exhausted hex i x (Cslab.slot_eq_live.mpr ⟨hx, hbit⟩))
  have hcard := Finset.card_le_card hsubset
  rwa [List.toFinset_card_of_nodup h.nodup, yieldedIdx, List.length_map, ← hinv.inUse_eq] at hcard

end Traversed

/-! ### Selective removal -/

/-- **Selective removal.** A mutable iteration of a reachable slab, with any calls on either end of
the iterator, on its entries and on readers, in any order. Every call returns; each item that was
visible at the call is yielded at most once, and once if the iterator is exhausted; the reported
size is the number of entries to come; what was visible and has not been removed is visible, with
its item; one generation is added; and a removed item is not finalized while the iterator, an entry
of it, or a reader of the generation of the call or of an older one is alive. -/
theorem iterMut_removes {t : Layout} {capacity : Nat} {s₀ s s₁ s₂ : State α} {slab : Slab}
    {es₀ es : List (Op α × Except Interrupt (Ret α))}
    (hnew : withFixedCapacity .memory t capacity = .ok s₀) (hreach : Run s₀ es₀ s)
    (hslab : s.slab = some slab) (hiter : step s .iterMut = some (.ok .unit, s₁))
    (hrun : Run s₁ es s₂) (hops : ∀ e ∈ es, e.1.traverses = true) :
    (∀ e ∈ es, ∃ ret, e.2 = .ok ret) ∧
    ((yieldedIdx es).Nodup ∧ (∀ p ∈ yielded es, s.cslab.slot p.2.idx = .live p.2.value) ∧
      (Exhausted es → ∀ i x, s.cslab.slot i = .live x → i ∈ yieldedIdx es)) ∧
    (∀ im, s₂.iterMut = some im → ∃ n, iterMutSizeHint im = (n, some n) ∧
      n + (yielded es).length = s.cslab.len ∧
      ∀ es' s₃, Run s₂ es' s₃ → (∀ e ∈ es', e.1.traverses = true) →
        (yielded es').length ≤ n ∧ (Exhausted es' → (yielded es').length = n)) ∧
    (∀ i x, s₂.cslab.slot i = .live x ↔ s.cslab.slot i = .live x ∧ ¬RemovedIn es i) ∧
    (s₂.gens.length = s.gens.length + if s₂.iterMut.isSome then 0 else 1) ∧
    (s₂.iterMut.isSome = true → s₂.HoldsGen slab.curGen) ∧
    (∀ p ∈ yielded es, p.2.gen = slab.curGen) ∧
    ∀ i x es' s₃ g, RemovedIn es i → s.cslab.slot i = .live x → Run s₂ es' s₃ →
      g ≤ slab.curGen → s₃.HoldsGen g →
      s₃.cslab.slot i = .pending x ∧ ∀ j y, .finalized slab.curGen j y ∉ s₃.log := by
  have hi := inv_of_run hnew hreach
  have hl := ledger_inv_of_run hnew hreach
  have h : Traversed s slab es s₂ := (Traversed.start hi hl hslab hiter).run hops hrun
  refine ⟨h.returns, ⟨h.nodup, fun p hp => (h.yielded p hp).1, h.exhausted⟩, fun im him => ?_,
    h.live, ?_, fun him => ?_, fun p hp => (h.yielded p hp).2,
    fun i x es' s₃ g hrem hx hrun' hle hg => ?_⟩
  · obtain ⟨-, -, htracks⟩ := h.iterating im him
    have hcount : im.remaining + (yielded es).length = s.cslab.len := by
      rw [← htracks.count, yieldedIdx, List.length_map]
    refine ⟨im.remaining, rfl, hcount, fun es' s₃ hrun' hops' => ?_⟩
    have h' : Traversed s slab (es ++ es') s₃ := h.run hops' hrun'
    have happend : (yielded (es ++ es')).length = (yielded es).length + (yielded es').length := by
      rw [yielded, List.filterMap_append, List.length_append, yielded, yielded]
    constructor
    · have hle := h'.length_yielded_le hi
      omega
    · rintro ⟨n, hmem⟩
      have heq := h'.length_yielded_of_exhausted hi ⟨n, List.mem_append_right _ hmem⟩
      omega
  · cases him : s₂.iterMut with
    | none => exact (h.dropped him).2
    | some im => exact (h.iterating im him).2.1
  · obtain ⟨im, him⟩ := Option.isSome_iff_exists.mp him
    exact Or.inl ⟨slab, (h.iterating im him).1, rfl⟩
  · obtain ⟨hi₃, hl₃, hk₃⟩ := kept_of_run (h.kept i x hrem hx) h.inv h.ledger hrun'
    exact pending_of_kept hk₃ hi₃ hl₃ hle hg

/-- What `f` sees of a run of the calls `ops'` from the state after a run of the calls `ops`. -/
def observeThen {β : Type} (t : Layout) (capacity : Nat) (ops ops' : List (Op α))
    (f : State α → List (Except Interrupt (Ret α)) × State α → β) : Option β :=
  (observe t capacity ops fun p => (runOps step p.2 ops').map (f p.2)).join

theorem exists_runs_of_observeThen {β : Type} {t : Layout} {capacity : Nat} {ops ops' : List (Op α)}
    {f : State α → List (Except Interrupt (Ret α)) × State α → β} {b : β}
    (h : observeThen t capacity ops ops' f = some b) :
    ∃ s₀ es s rs s', withFixedCapacity .memory t capacity = .ok s₀ ∧ Run s₀ es s ∧
      runOps step s ops' = some (rs, s') ∧ f s (rs, s') = b := by
  obtain ⟨s₀, rs, s, hnew, hrun, hsees⟩ := exists_run_of_observe (Option.join_eq_some_iff.mp h)
  obtain ⟨⟨rs', s'⟩, hrun', hf⟩ := Option.map_eq_some_iff.mp hsees
  exact ⟨s₀, _, s, rs', s', hnew, .of_runOps hrun, hrun', hf⟩

/-- The second of three items is removed, after the iterator is dropped in the middle of a traversal
from the back; with a reader alive it is still pending. -/
theorem iterMut_removes_second :
    ∃ (s₀ s s₁ s₂ : State Nat) (es₀ es : List (Op Nat × Except Interrupt (Ret Nat))),
      withFixedCapacity .memory ⟨4, 4⟩ 3 = .ok s₀ ∧ Run s₀ es₀ s ∧
      step s .iterMut = some (.ok .unit, s₁) ∧ Run s₁ es s₂ ∧
      (∀ e ∈ es, e.1.traverses = true) ∧ yieldedIdx es = [2, 1] ∧ RemovedIn es 1 ∧
      s₂.cslab.slot 1 = .pending 8 := by
  let ops : List (Op Nat) :=
    [.iterMutNextBack, .iterMutNextBack, .iterMutDrop, .entryRemove 1, .entryDrop 0]
  have hobserve : observeThen ⟨4, 4⟩ 3 [.insert 7, .insert 8, .insert 9, .reader] (.iterMut :: ops)
      (fun s p => ((s.slab.map (·.curGen), (s.cslab.slot 1).liveItem),
        ((p.1.head?.bind Except.toOption).isSome, p.2.readers[0]?.join.map (·.gen)),
        (yielded (ops.zip p.1.tail)).map fun q => (q.1, q.2.idx),
        (ops.zip p.1.tail).filterMap removedBy)) =
      some ((some 0, some 8), (true, some 0), [(0, 2), (1, 1)], [1]) := by
    decide +kernel
  obtain ⟨s₀, es₀, s, rs, s₂, hnew, hrun, hruns, hsees⟩ := exists_runs_of_observeThen hobserve
  obtain ⟨r, s₁, rs', hiter, hrest, rfl⟩ := runOps_cons_eq_some.mp hruns
  simp only [Prod.mk.injEq, List.head?_cons, Option.bind_some, List.tail_cons] at hsees
  obtain ⟨⟨hslab, hslot⟩, ⟨hunit, hreader⟩, hyielded, hremoved⟩ := hsees
  obtain ⟨slab, hslab, hcur⟩ := Option.map_eq_some_iff.mp hslab
  obtain ⟨reader, hreader, hgen⟩ := Option.map_eq_some_iff.mp hreader
  have hholds : s₂.HoldsGen 0 := Or.inr (Or.inl ⟨0, reader, handleAt_iff_join.mpr hreader, hgen⟩)
  obtain ⟨ret, hret⟩ := Option.isSome_iff_exists.mp hunit
  obtain rfl := except_toOption_eq_some.mp hret
  obtain rfl : ret = .unit := by
    obtain ⟨m, hcall, hsettle⟩ := step_eq_some hiter
    cases allowed_of_call hcall with
    | iterMut =>
      obtain ⟨-, -, rfl⟩ := settle_map_eq_ok hsettle
      rfl
  have hops : ∀ e ∈ ops.zip rs', e.1.traverses = true := by
    intro e he
    have hall : ∀ op ∈ ops, op.traverses = true := by decide
    exact hall e.1 (List.of_mem_zip he).1
  have hmem : RemovedIn (ops.zip rs') 1 := by
    have hsecond : (1, 1) ∈ (yielded (ops.zip rs')).map fun q => (q.1, q.2.idx) := by
      rw [hyielded]
      decide
    obtain ⟨p, hp, hpair⟩ := List.mem_map.mp hsecond
    obtain ⟨hkey, hidx⟩ := Prod.mk.inj hpair
    refine ⟨p, hp, ?_, hidx⟩
    rw [hremoved, hkey]
    decide
  obtain ⟨-, -, -, -, -, -, -, hpending⟩ :=
    iterMut_removes hnew hrun hslab hiter (.of_runOps hrest) hops
  refine ⟨s₀, s, s₁, s₂, es₀, _, hnew, hrun, hiter, .of_runOps hrest, hops, ?_, hmem, ?_⟩
  · have hidx := congrArg (List.map Prod.snd) hyielded
    rwa [List.map_map] at hidx
  · exact (hpending 1 8 [] s₂ 0 hmem (Slot.liveItem_eq_some.mp hslot) (.nil s₂) hcur.ge hholds).1

end ZprUtils.RcuCslab
