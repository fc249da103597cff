import ZprUtils.RcuCslab.Frames
import ZprUtils.RcuCslab.Protection

/-!
# A read handle lives until it is dropped

Whatever is called and however the call ends, a read handle stays alive and stays in its generation
until it is dropped itself.

## Main definitions

* `HasReader` — a read handle is alive, in its generation.

## Main results

* `hasReader_of_step` — every call but the drop of the handle keeps it.
* `size_eq_of_step` — the storage keeps its size.
-/

namespace ZprUtils.RcuCslab

variable {α : Type} {s s' : State α} {h g : Nat}

/-- The read handle `h` is alive, and is one of generation `g`. -/
def HasReader (h g : Nat) (s : State α) : Prop := ∃ r, HandleAt s.readers h r ∧ r.gen = g

theorem HasReader.congr (hs : HasReader h g s) (hreaders : s'.readers = s.readers) :
    HasReader h g s' := by
  rw [HasReader, hreaders]
  exact hs

/-- New handles have new numbers. -/
theorem framed_hasReader : Framed (HasReader (α := α) h g) where
  same hs hreaders _ := hs.congr hreaders
  emit hs _ := hs.congr rfl
  addReader hs := by
    obtain ⟨r, hr, hgen⟩ := hs
    exact ⟨r, hr.append, hgen⟩

/-! ### Insertions -/

theorem hasReader_insertLocked (x : α) :
    (insertLocked x).Respects (.preserving (HasReader h g)) := by
  refine .bind (framed_hasReader.blocks.onCslab (b := false) _) fun key => ?_
  cases key with
  | some idx => exact .bind (.modify fun _ hs => .preserving (hs.congr rfl)) fun _ => .pure _
  | none => exact .bind (framed_hasReader.blocks.destroyed _) fun _ => .pure _

theorem hasReader_lockOwning (x : α) :
    (lockOwning x).Respects (.preserving (HasReader h g)) := by
  intro s hs
  obtain ⟨hlock, -⟩ := framed_hasReader.lock s hs
  refine ⟨.preserving ?_, fun _ => trivial⟩
  rw [lockOwning]
  split
  · rename_i heq
    rw [heq] at hlock
    exact hlock.inv.congr rfl
  · exact hlock.inv

theorem hasReader_insert (x : α) : (insert x).Respects (.preserving (HasReader h g)) :=
  .bind (hasReader_lockOwning x) fun _ => framed_hasReader.underGuard (hasReader_insertLocked x)

theorem hasReader_vacantEntryInsert (x : α) :
    (vacantEntryInsert x).Respects (.preserving (HasReader h g)) := by
  refine framed_hasReader.underGuard (.bind (hasReader_insertLocked x) fun key => ?_)
  cases key with
  | some idx => exact .pure _
  | none => exact .panicked _

/-! ### Read handles -/

/-- The drop of another handle. -/
theorem hasReader_readerDrop {k : Nat} (hk : h ≠ k) (r : Reader) :
    (readerDrop k r : Call (State α) Unit).Respects (.preserving (HasReader h g)) := by
  refine framed_hasReader.blocks.readerDrop r fun s hs => .preserving ?_
  obtain ⟨r', hr', hgen⟩ := hs
  exact ⟨r', handleAt_set.mpr (Or.inl ⟨hk, hr'⟩), hgen⟩

/-- The iterators that borrow a handle change. -/
theorem hasReader_setIters {k : Nat} {r : Reader} (hk : HandleAt s.readers k r) (iters : List Iter)
    (hs : HasReader h g s) :
    HasReader h g { s with readers := s.readers.set k (some { r with iters }) } := by
  obtain ⟨r', hr', hgen⟩ := hs
  by_cases hkh : h = k
  · subst hkh
    obtain rfl := hk.inj hr'
    exact ⟨{ r with iters }, handleAt_set.mpr (Or.inr
      ⟨rfl, (List.getElem?_eq_some_iff.mp hk).1, rfl⟩), hgen⟩
  · exact ⟨r', handleAt_set.mpr (Or.inl ⟨hkh, hr'⟩), hgen⟩

theorem hasReader_readerAdvance {k j : Nat} {r : Reader} (hk : HandleAt s.readers k r)
    (found : Except RustFault (Option (Nat × α) × Iter)) (hs : HasReader h g s) :
    HasReader h g (readerAdvance k j r found s).2 := by
  cases found with
  | ok p => exact hasReader_setIters hk _ hs
  | error fault => exact hs

/-! ### One step -/

/-- Every call but the drop of the handle. -/
theorem hasReader_of_call {op : Op α} {m : Call (State α) (Ret α)} (hop : op ≠ .readerDrop h)
    (hcall : call s op = some m) (hs : HasReader h g s) : HasReader h g (m s).2 := by
  cases hframed : op.framed with
  | true => exact (framed_hasReader.of_call hframed hcall s hs).1.inv
  | false =>
    cases allowed_of_call hcall with
    | insert => exact ((hasReader_insert _).map s hs).1.inv
    | vacantEntryInsert => exact ((hasReader_vacantEntryInsert _).map s hs).1.inv
    | readerDrop => exact ((hasReader_readerDrop (fun hk => hop (by rw [hk])) _).map s hs).1.inv
    | readerIter hh => exact hasReader_setIters hh _ hs
    | readerNext hh | readerNextBack hh =>
      rw [Call.map_snd]
      exact hasReader_readerAdvance hh _ hs
    | _ => exact absurd hframed nofun

/-- **A read handle lives until it is dropped**, and stays in its generation. Its iterators may
change, and new handles get new numbers. -/
theorem hasReader_of_step {op : Op α} {o : Except Interrupt (Ret α)} (hop : op ≠ .readerDrop h)
    (hstep : step s op = some (o, s')) (hs : HasReader h g s) : HasReader h g s' := by
  obtain ⟨m, hcall, hsettle⟩ := step_eq_some hstep
  have hsettled := framed_hasReader.settle hs (hasReader_of_call hop hcall hs)
  rwa [hsettle] at hsettled

/-! ### The storage -/

theorem Release.size_eq {p q : Held × State α} (hrelease : Release p q) (hi : Inv p.1 p.2) :
    q.2.cslab.storage.size = p.2.cslab.storage.size := by
  cases hrelease with
  | finalizeGen hgen hlast _ _ hfinalize =>
    exact (hi.pending.of_finalizeAll hgen (by simp [Gen.alive, hlast]) hfinalize).2.2
  | writer | writerLast | storage | storageLast | gen | leakGen => rfl

theorem Action.size_eq {p q : Held × State α} (ha : Action p q) (hi : Inv p.1 p.2) :
    q.2.cslab.storage.size = p.2.cslab.storage.size := by
  obtain ⟨free, hinv⟩ := hi.pending.cslab
  cases ha with
  | insert _ _ hinsert =>
    obtain ⟨rest, -, -, -, hsize, -⟩ := hinv.of_insert hinsert
    exact hsize
  | mark _ _ _ hmark | removeEntry _ hmark =>
    obtain ⟨x, -, -, -, hsize⟩ := hinv.of_markRemoved hmark
    exact hsize
  | release hrelease => exact hrelease.size_eq hi
  | _ => rfl

/-- The storage keeps its size. -/
theorem size_eq_of_step {op : Op α} {o : Except Interrupt (Ret α)} (hi : Inv {} s)
    (hstep : step s op = some (o, s')) : s'.cslab.storage.size = s.cslab.storage.size := by
  have of_reach : ∀ {p q : Held × State α}, Reach p q → Inv p.1 p.2 →
      q.2.cslab.storage.size = p.2.cslab.storage.size := by
    intro p q hreach hi
    induction hreach with
    | refl => rfl
    | tail hreach ha ih => exact (ha.size_eq (Reach.inv hreach hi)).trans ih
  rcases step_effect hi hstep with hreach | ⟨-, hpoison⟩
  · exact of_reach hreach hi
  · cases hpoison
    rfl

end ZprUtils.RcuCslab
