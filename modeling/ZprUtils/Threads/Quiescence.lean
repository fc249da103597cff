import ZprUtils.Threads.Safety

/-!
# Between calls

When every thread has returned from its call, nothing is in flight: the strong counts are those of
the handles, the pending removals are those recorded in the generations, and the mutex is held only
by a vacant entry. What is left of the invariant under many threads is then the invariant of the
calls that happen at once, so that everything shown for these holds from there on.

## Main results

* `ThreadInv.inv_of_returned` — the invariant between calls.
-/

namespace ZprUtils.RcuCslab

variable {α : Type} {c : Config α}

/-- Every thread has returned from its call. -/
def Config.Returned (c : Config α) : Prop :=
  ∀ t th, c.ThreadAt t th → th.drops = [] ∧ th.pc = .idle

namespace Config.Returned

variable (h : c.Returned)
include h

/-- The threads own nothing. -/
theorem total_eq_zero {w : Thread α → Nat} (hw : ∀ b, w ⟨[], .idle, b⟩ = 0) :
    total w c.threads = 0 := by
  refine ZprUtils.total_eq_zero fun t th ht => ?_
  obtain ⟨drops, pc, b⟩ := th
  obtain ⟨rfl, rfl⟩ : drops = [] ∧ pc = .idle := h t _ ht
  exact hw b

theorem load_eq (i : Nat) : c.load i = (livePending c.state.gens).count i := by
  rw [Config.load, h.total_eq_zero fun _ => rfl, Nat.add_zero]

theorem marks_eq (i : Nat) : c.marks i = countHandles (·.idx == i) c.state.entries := by
  rw [Config.marks, h.total_eq_zero fun _ => rfl, Nat.add_zero]

theorem iterators_eq : c.iterators = c.state.iterMut.isSome.toNat := by
  rw [Config.iterators, h.total_eq_zero fun _ => rfl, Nat.add_zero]

end Config.Returned

variable (hi : ThreadInv c) (h : c.Returned)
include hi h

theorem ThreadInv.refs_of_returned : Refs {} c.state := by
  refine RefCounts.refs (hi.refs.recount (fun g => ?_) ?_ ?_)
  · exact (h.total_eq_zero fun _ => rfl).symm
  · exact (h.total_eq_zero fun _ => rfl).symm
  · exact (h.total_eq_zero fun _ => rfl).symm

theorem ThreadInv.pending_of_returned : Pending c.state := by
  refine ⟨hi.removals.cslab, List.nodup_iff_count_le_one.mpr fun i => ?_, fun i hmem => ?_,
    fun hp i x hx => ?_⟩
  · rw [← h.load_eq]
    exact hi.removals.once i
  · refine hi.removals.slot i ?_
    rw [h.load_eq]
    exact List.count_pos_iff.mpr hmem
  · refine List.count_pos_iff.mp ?_
    rw [← h.load_eq]
    exact hi.removals.mem hp i x hx

theorem ThreadInv.locked_of_returned : c.state.locked = c.vacant.isSome := by
  have hguards := hi.guards
  rw [h.total_eq_zero fun _ => rfl, Nat.zero_add] at hguards
  cases hl : c.state.locked <;> cases hv : c.vacant.isSome <;> simp_all

theorem ThreadInv.borrows_of_returned : Borrows c.state := by
  have hlocked := hi.locked_of_returned h
  have hpassed : ∀ k e, HandleAt c.state.entries k e → 0 < c.marks e.idx := by
    intro k e hk
    rw [h.marks_eq]
    exact countHandles_pos hk (beq_self_eq_true _)
  have hentry : ∀ k e, HandleAt c.state.entries k e → c.EntryGen e.gen :=
    fun k e hk => Or.inl ⟨k, e, hk, rfl⟩
  refine ⟨fun hslab => ?_, fun hl => ?_, fun im him => ?_, fun him slab hslab k e hk => ?_,
    fun k e hk => ?_, fun k k' e e' hk hk' hidx => ?_, hi.iteration.readerIter⟩
  · obtain ⟨-, hv, him, hentries⟩ := hi.loans.dropped hslab
    rw [hv] at hlocked
    exact ⟨hlocked, him, hentries⟩
  · obtain ⟨t, hv⟩ := Option.isSome_iff_exists.mp (hlocked ▸ hl)
    obtain ⟨-, him, hentries⟩ := hi.loans.vacant t hv
    obtain ⟨hsound, hkey⟩ := hi.iteration.reserved t hv
    exact ⟨him, hentries, hsound, hkey⟩
  · obtain ⟨hsound, htail, -⟩ := hi.iteration.iterMut im him
    refine ⟨hsound, htail, fun slab hslab k e hk => ⟨?_, ?_⟩⟩
    · have hcur := (hi.iteration.entryGen e.gen (hentry k e hk)).2.1 slab hslab
      rw [h.iterators_eq, him, Option.isSome_some, Bool.toNat_true, if_pos rfl] at hcur
      exact hcur.symm
    · exact (hi.iteration.marked e.idx (hpassed k e hk)).2.2 im him
  · obtain ⟨-, hcur, hreaders⟩ := hi.iteration.entryGen e.gen (hentry k e hk)
    have hcur := hcur slab hslab
    rw [h.iterators_eq, him, Option.isSome_none, Bool.toNat_false, if_neg (by simp)] at hcur
    exact ⟨hcur.symm, hreaders⟩
  · exact ⟨(hi.iteration.marked e.idx (hpassed k e hk)).1, hi.iteration.entry k e hk⟩
  · by_contra hne
    have hdrop := countHandles_drop (p := fun e' : Entry α => e'.idx == e.idx) hk
    have hother : HandleAt (c.state.entries.set k none) k' e' :=
      handleAt_set.mpr (Or.inl ⟨Ne.symm hne, hk'⟩)
    have hpos := countHandles_pos (p := fun e' : Entry α => e'.idx == e.idx) hother
      (by simp [hidx])
    have honce := hi.iteration.marks e.idx
    rw [h.marks_eq] at honce
    simp only [beq_self_eq_true, Bool.toNat_true] at hdrop
    omega

/-- **Between calls** the invariant is that of the calls that happen at once. So the states that
interleavings reach when all threads have returned are covered by the results about single calls. -/
theorem ThreadInv.inv_of_returned : Inv {} c.state :=
  ⟨hi.refs_of_returned h, hi.pending_of_returned h, hi.borrows_of_returned h⟩

end ZprUtils.RcuCslab
