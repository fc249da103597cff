import ZprUtils.RcuCslab.Steps

/-!
# What the calls return

The items that a call shows are visible in the state before it, and an insertion returns the index
of a slot that was free.

## Main results

* `step_get`, `step_readerGet` — a look at an index.
* `step_readerNext`, `step_iterMutNext` — what an iterator yields.
* `step_insert`, `step_vacantEntryInsert` — the index of an insertion.
-/

namespace ZprUtils.RcuCslab

variable {α : Type} {s s' : State α}

theorem step_eq_some {op : Op α} {o : Except Interrupt (Ret α)} (hstep : step s op = some (o, s')) :
    ∃ m, call s op = some m ∧ settle s (m s) = (o, s') := by
  rw [step] at hstep
  split_ifs at hstep
  exact Option.map_eq_some_iff.mp hstep

theorem settle_eq_ok {r : Except Interrupt (Ret α) × State α} {ret : Ret α}
    (h : settle s r = (.ok ret, s')) : r = (.ok ret, s') := by
  rcases settle_cases s r with ⟨-, hsettle⟩ | ⟨-, hsettle⟩ | ⟨-, -, hsettle⟩
  · simp [hsettle] at h
  · simp [hsettle] at h
  · exact hsettle.symm.trans h

section

variable {β : Type} {m : Call (State α) β} {f : β → Ret α}

/-- A call that returns. -/
theorem settle_map_ok {b : β} {o : Except Interrupt (Ret α)} {t : State α}
    (hsettle : settle s ((f <$> m) s) = (o, s')) (hm : m s = (.ok b, t)) :
    o = .ok (f b) ∧ s' = t := by
  rw [Call.map_apply_ok hm] at hsettle
  obtain ⟨ho, hs'⟩ := Prod.mk.inj hsettle
  exact ⟨ho.symm, hs'.symm⟩

theorem settle_map_eq_ok {ret : Ret α} (hsettle : settle s ((f <$> m) s) = (.ok ret, s')) :
    ∃ b, m s = (.ok b, s') ∧ f b = ret :=
  Call.map_eq_ok (settle_eq_ok hsettle)

end

section

variable {i k j : Nat} {x : α} {o : Except Interrupt (Ret α)}

theorem getImpl_eq (hi : Inv {} s) (i : Nat) :
    s.cslab.storage.getImpl i = .ok (s.cslab.slot i).liveItem := by
  obtain ⟨free, hinv⟩ := hi.pending.cslab
  exact hinv.get_eq i

theorem step_get (hi : Inv {} s) (hstep : step s (.get i) = some (o, s')) :
    o = .ok (.item (s.cslab.slot i).liveItem) := by
  obtain ⟨m, hcall, hsettle⟩ := step_eq_some hstep
  cases allowed_of_call hcall
  have hget : get i s = (.ok (s.cslab.slot i).liveItem, s) := by
    rw [get, Call.get_bind_apply, getImpl_eq hi, Call.liftFault_ok]
  exact (settle_map_ok hsettle hget).1

theorem step_readerGet (hi : Inv {} s) (hstep : step s (.readerGet k i) = some (o, s')) :
    o = .ok (.item (s.cslab.slot i).liveItem) ∧ ∃ r, HandleAt s.readers k r := by
  obtain ⟨m, hcall, hsettle⟩ := step_eq_some hstep
  cases allowed_of_call hcall with
  | @readerGet _ _ r hk =>
    have hget : readerGet i s = (.ok (s.cslab.slot i).liveItem, s) := by
      rw [readerGet, Call.get_bind_apply, getImpl_eq hi, Call.liftFault_ok]
    exact ⟨(settle_map_ok hsettle hget).1, r, hk⟩

theorem step_readerContainsKey (hi : Inv {} s)
    (hstep : step s (.readerContainsKey k i) = some (o, s')) :
    o = .ok (.bool (s.cslab.slot i).liveItem.isSome) ∧ ∃ r, HandleAt s.readers k r := by
  obtain ⟨free, hinv⟩ := hi.pending.cslab
  obtain ⟨m, hcall, hsettle⟩ := step_eq_some hstep
  cases allowed_of_call hcall with
  | @readerContainsKey _ _ r hk =>
    have hread : readerContainsKey i s = (.ok (s.cslab.slot i).liveItem.isSome, s) := by
      rw [readerContainsKey, Call.get_bind_apply, hinv.containsKeyImpl_eq, Call.liftFault_ok,
        hinv.bit_eq_isSome]
    exact ⟨(settle_map_ok hsettle hread).1, r, hk⟩

/-- What an iterator of a reader returns is visible. -/
theorem live_of_readerAdvance {r : Reader} {it : Iter}
    {found : Except RustFault (Option (Nat × α) × Iter)} (hfound : Finds s it found)
    (hadvance : readerAdvance k j r found s = (.ok (some (i, x)), s')) :
    s.cslab.slot i = .live x := by
  rcases hfound with ⟨it', rfl, -⟩ | ⟨i', x', it', rfl, -, -, -, hlive⟩
  · have hret : Except.ok none = Except.ok (some (i, x)) := congrArg Prod.fst hadvance
    simp at hret
  · have hret : Except.ok (some (i', x')) = Except.ok (some (i, x)) := congrArg Prod.fst hadvance
    simp only [Except.ok.injEq, Option.some.injEq, Prod.mk.injEq] at hret
    obtain ⟨rfl, rfl⟩ := hret
    exact hlive

theorem step_readerNext (hi : Inv {} s) {op : Op α}
    (hop : op = .readerNext k j ∨ op = .readerNextBack k j)
    (hstep : step s op = some (.ok (.indexed (some (i, x))), s')) :
    s.cslab.slot i = .live x ∧ ∃ r, HandleAt s.readers k r := by
  obtain ⟨free, hinv⟩ := hi.pending.cslab
  obtain ⟨m, hcall, hsettle⟩ := step_eq_some hstep
  have htail : ∀ {r : Reader} {it : Iter}, HandleAt s.readers k r → r.iters[j]? = some it →
      it.tail ≤ s.cslab.storage.size := fun hk hj =>
    hi.borrows.reader_iter k _ hk _ (List.mem_of_getElem? hj)
  rcases hop with rfl | rfl
  · cases allowed_of_call hcall with
    | @readerNext _ _ r it hk hj =>
      obtain ⟨b, hnext, hret⟩ := settle_map_eq_ok hsettle
      obtain rfl := Ret.indexed.inj hret
      exact ⟨live_of_readerAdvance (finds_next hinv (htail hk hj)) hnext, r, hk⟩
  · cases allowed_of_call hcall with
    | @readerNextBack _ _ r it hk hj =>
      obtain ⟨b, hnext, hret⟩ := settle_map_eq_ok hsettle
      obtain rfl := Ret.indexed.inj hret
      exact ⟨live_of_readerAdvance (finds_nextBack hinv (htail hk hj)) hnext, r, hk⟩

/-- A new entry has a visible item and the next number. -/
theorem step_iterMutNext (hi : Inv {} s) {op : Op α} {e : Entry α}
    (hop : op = .iterMutNext ∨ op = .iterMutNextBack)
    (hstep : step s op = some (.ok (.entry (some (k, e))), s')) :
    s.cslab.slot e.idx = .live e.value ∧ k = s.entries.length ∧
      s'.entries = s.entries ++ [some e] := by
  obtain ⟨free, hinv⟩ := hi.pending.cslab
  obtain ⟨m, hcall, hsettle⟩ := step_eq_some hstep
  have key : ∀ {slab : Slab} {im : IterMut} {found : Except RustFault (Option (Nat × α) × Iter)},
      s.slab = some slab → s.iterMut = some im → Finds s im.iter found →
      yieldEntry slab im found s = (.ok (some (k, e)), s') →
      s.cslab.slot e.idx = .live e.value ∧ k = s.entries.length ∧
        s'.entries = s.entries ++ [some e] := by
    intro slab im found hslab him hfound hyield
    obtain ⟨o, t, heq, -, -, -, -, -, hcases⟩ := reach_yieldEntry hslab him hfound
    rw [hyield, Prod.mk.injEq] at heq
    obtain ⟨rfl, rfl⟩ := heq
    rcases hcases with ⟨hnone | ⟨fault, hpanic⟩, -⟩ | ⟨e', he', hlive, -, hentries⟩
    · exact absurd hnone (by simp)
    · exact absurd hpanic (by simp)
    · simp only [Except.ok.injEq, Option.some.injEq, Prod.mk.injEq] at he'
      obtain ⟨rfl, rfl⟩ := he'
      exact ⟨hlive, rfl, hentries⟩
  rcases hop with rfl | rfl
  · cases allowed_of_call hcall with
    | iterMutNext hslab him =>
      obtain ⟨b, hnext, hret⟩ := settle_map_eq_ok hsettle
      obtain rfl := Ret.entry.inj hret
      exact key hslab him (finds_next hinv (hi.borrows.iterMut _ him).2.1) hnext
  · cases allowed_of_call hcall with
    | iterMutNextBack hslab him =>
      obtain ⟨b, hnext, hret⟩ := settle_map_eq_ok hsettle
      obtain rfl := Ret.entry.inj hret
      exact key hslab him (finds_nextBack hinv (hi.borrows.iterMut _ him).2.1) hnext

/-- An insertion returns the index of a slot that was free. -/
theorem step_insert (hi : Inv {} s) (hstep : step s (.insert x) = some (.ok (.key (some i)), s')) :
    s.cslab.slot i = .free := by
  obtain ⟨free, hinv⟩ := hi.pending.cslab
  obtain ⟨m, hcall, hsettle⟩ := step_eq_some hstep
  cases allowed_of_call hcall with
  | insert husable =>
    obtain ⟨b, hinsert, hret⟩ := settle_map_eq_ok hsettle
    obtain rfl := Ret.key.inj hret
    rcases insert_eq (x := x) hi (State.usable_iff.mp husable).2.1 with
      ⟨-, h⟩ | ⟨-, -, h⟩ | ⟨i', c, -, hok, h⟩
    · exact absurd (congrArg Prod.fst (h.symm.trans hinsert)) (by simp)
    · exact absurd (congrArg Prod.fst (h.symm.trans hinsert)) (by simp)
    · have hidx := congrArg Prod.fst (h.symm.trans hinsert)
      simp only [Except.ok.injEq, Option.some.injEq] at hidx
      subst hidx
      exact (hinv.of_insert hok).choose_spec.2.2.2.2

theorem step_vacantEntryInsert (hi : Inv {} s)
    (hstep : step s (.vacantEntryInsert x) = some (.ok (.num i), s')) :
    s.cslab.slot i = .free := by
  obtain ⟨free, hinv⟩ := hi.pending.cslab
  obtain ⟨m, hcall, hsettle⟩ := step_eq_some hstep
  cases allowed_of_call hcall with
  | vacantEntryInsert hlocked =>
    obtain ⟨b, hinsert, hret⟩ := settle_map_eq_ok hsettle
    obtain rfl := Ret.num.inj hret
    obtain ⟨i', c, hok, h⟩ := vacantEntryInsert_eq hi hlocked x
    have hidx := congrArg Prod.fst (h.symm.trans hinsert)
    simp only [Except.ok.injEq] at hidx
    subst hidx
    exact (hinv.of_insert hok).choose_spec.2.2.2.2

end

end ZprUtils.RcuCslab
