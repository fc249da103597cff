import ZprUtils.RcuCslab.ReaderLife
import ZprUtils.RcuCslab.SharedCalls

/-!
# Filling the slab

Without removals each insertion takes a slot that is free and returns its index, until no slot is
free. Other calls that share the slab, and vacant entries that are dropped, make no difference.

## Main definitions

* `Op.fills` — the calls that fill the slab.
* `Filled` — the slots that have been filled.
* `GivesBack` — the slab takes as many items as it has slots.

## Main results

* `Filled.step`, `Filled.run` — one call, and a run.
* `Filled.givesBack` — an empty slab.
-/

namespace ZprUtils.RcuCslab

variable {α : Type} {s s' : State α}

/-- The calls that fill the slab: insertions, also through vacant entries, and those that share
it. -/
def Op.fills : Op α → Bool
  | .insert _ | .vacantEntry | .vacantEntryKey | .vacantEntryInsert _ | .vacantEntryDrop => true
  | op => op.shared

/-- The slots `is` hold visible items, and all others are free. -/
structure Filled (s : State α) (is : List Nat) : Prop where
  inv : Inv {} s
  poisoned : s.poisoned = false
  nodup : is.Nodup
  live : ∀ i ∈ is, ∃ x, s.cslab.slot i = .live x
  free : ∀ i, i ∉ is → s.cslab.slot i = .free

namespace Filled

variable {is : List Nat} (h : Filled s is)
include h

theorem congr (hi : Inv {} s') (hpoison : s'.poisoned = s.poisoned)
    (hslot : ∀ i, s'.cslab.slot i = s.cslab.slot i) : Filled s' is := by
  refine ⟨hi, hpoison.trans h.poisoned, h.nodup, fun i hmem => ?_, fun i hmem => ?_⟩
  · rw [hslot]
    exact h.live i hmem
  · rw [hslot]
    exact h.free i hmem

theorem inserted {i : Nat} {x : α} {c : Cslab α} (hi : Inv {} s')
    (hpoison : s'.poisoned = s.poisoned)
    (hinsert : s.cslab.insert x = .ok (some i, c)) (hcslab : s'.cslab = c) :
    Filled s' (is ++ [i]) := by
  obtain ⟨free, hinv⟩ := h.inv.pending.cslab
  obtain ⟨-, -, -, hslot, -, hfree⟩ := hinv.of_insert hinsert
  have hnew : i ∉ is := by
    intro hmem
    obtain ⟨y, hy⟩ := h.live i hmem
    exact absurd (hfree.symm.trans hy) nofun
  refine ⟨hi, hpoison.trans h.poisoned, ?_, fun j hj => ?_, fun j hj => ?_⟩
  · refine List.nodup_append.mpr ⟨h.nodup, List.nodup_singleton _, ?_⟩
    rintro j hj j' hj' rfl
    exact hnew (List.mem_singleton.mp hj' ▸ hj)
  · rw [hcslab, hslot]
    by_cases hji : j = i
    · rw [hji, Function.update_self]
      exact ⟨x, rfl⟩
    · rw [Function.update_of_ne hji]
      refine h.live j ((List.mem_append.mp hj).resolve_right ?_)
      exact fun hmem => hji (List.mem_singleton.mp hmem)
  · rw [List.mem_append, List.mem_singleton, not_or] at hj
    rw [hcslab, hslot, Function.update_of_ne hj.2]
    exact h.free j hj.1

theorem length_eq : is.length = s.cslab.allocated := by
  obtain ⟨free, hinv⟩ := h.inv.pending.cslab
  have hset : ((Finset.range s.cslab.storage.size).filter
      fun i => (s.cslab.slot i).item.isSome) = is.toFinset := by
    ext i
    rw [Finset.mem_filter, Finset.mem_range, List.mem_toFinset]
    constructor
    · rintro ⟨-, hitem⟩
      by_contra hmem
      rw [h.free i hmem] at hitem
      exact absurd hitem nofun
    · intro hmem
      obtain ⟨x, hx⟩ := h.live i hmem
      exact ⟨hinv.lt_size_of_bit (Cslab.slot_eq_live.mp hx).2, by rw [hx]; rfl⟩
  rw [hinv.allocated_eq, hinv.card_live_add_pending, hset, List.toFinset_card_of_nodup h.nodup]

theorem lt_size {i : Nat} (hmem : i ∈ is) : i < s.cslab.storage.size := by
  obtain ⟨free, hinv⟩ := h.inv.pending.cslab
  obtain ⟨x, hx⟩ := h.live i hmem
  exact hinv.lt_size_of_bit (Cslab.slot_eq_live.mp hx).2

/-- A slab that is filled completely has every index: the indices that are returned are distinct and
below the capacity, and there are as many of them. -/
theorem mem_of_full (hfull : is.length = s.cslab.storage.size) {i : Nat}
    (hi : i < s.cslab.storage.size) : i ∈ is := by
  have hsubset : is.toFinset ⊆ Finset.range s.cslab.storage.size := by
    intro j hj
    exact Finset.mem_range.mpr (h.lt_size (List.mem_toFinset.mp hj))
  have hcard : (Finset.range s.cslab.storage.size).card ≤ is.toFinset.card := by
    rw [Finset.card_range, List.toFinset_card_of_nodup h.nodup, hfull]
  have heq := Finset.eq_of_subset_of_card_le hsubset hcard
  rw [← List.mem_toFinset, heq, Finset.mem_range]
  exact hi

/-- **An insertion** succeeds as long as the slab is not full. All slots that are allocated are
visible, so that the slab is full only with as many items as it has slots. -/
theorem insert_outcome {x : α} {o : Except Interrupt (Ret α)}
    (hstep : step s (.insert x) = some (o, s')) :
    if is.length < s.cslab.storage.size then ∃ i, o = .ok (.key (some i)) else
      o = .ok (.key none) := by
  obtain ⟨free, hinv⟩ := h.inv.pending.cslab
  have hadd := hinv.allocated_add
  rw [← h.length_eq] at hadd
  obtain ⟨m, hcall, hsettle⟩ := step_eq_some hstep
  cases allowed_of_call hcall with
  | insert husable =>
    rcases insert_eq (x := x) h.inv (State.usable_iff.mp husable).2.1 with
      ⟨hpoison, -⟩ | ⟨-, hkey, hins⟩ | ⟨i, c, -, hok, hins⟩
    · exact absurd (h.poisoned.symm.trans hpoison) nofun
    · obtain ⟨rfl, -⟩ := settle_map_ok hsettle hins
      rw [hinv.vacantKey_eq, List.head?_eq_none_iff] at hkey
      rw [hkey, List.length_nil] at hadd
      rw [if_neg (by omega)]
    · obtain ⟨rfl, -⟩ := settle_map_ok hsettle hins
      obtain ⟨rest, hfree, -⟩ := hinv.of_insert hok
      rw [hfree, List.length_cons] at hadd
      rw [if_pos (by omega)]
      exact ⟨i, rfl⟩

/-- A call that shares the slab. -/
theorem shared {op : Op α} {o : Except Interrupt (Ret α)} (hop : op.shared = true)
    (hstep : step s op = some (o, s')) : Filled s' is := by
  have hunseen := (shares_of_step h.inv hop hstep).unseen
  refine h.congr (step_inv h.inv hstep) hunseen.poisoned fun i => ?_
  rcases hunseen.slot i with heq | ⟨-, x, hx⟩
  · exact heq
  · -- nothing is pending
    by_cases hmem : i ∈ is
    · obtain ⟨y, hy⟩ := h.live i hmem
      exact absurd (hy.symm.trans hx) nofun
    · exact absurd ((h.free i hmem).symm.trans hx) nofun

theorem vacantEntry {o : Except Interrupt (Ret α)} (hstep : step s .vacantEntry = some (o, s')) :
    Filled s' is := by
  have hi' := step_inv h.inv hstep
  obtain ⟨m, hcall, hsettle⟩ := step_eq_some hstep
  cases allowed_of_call hcall with
  | vacantEntry husable =>
    have hlocked := (State.usable_iff.mp husable).2.1
    have hlock : lock s = (.ok (), { s with locked := true }) := by
      simp [lock, hlocked, h.poisoned]
    cases hkey : s.cslab.vacantKey with
    | none =>
      have hcall : RcuCslab.vacantEntry s = (.ok false, { s with locked := false }) := by
        rw [RcuCslab.vacantEntry, Call.bind_apply_ok hlock, Call.get_bind_apply,
          if_pos (by rw [hkey]; rfl)]
        rfl
      obtain ⟨-, rfl⟩ := settle_map_ok hsettle hcall
      exact h.congr hi' rfl fun _ => rfl
    | some i =>
      have hcall : RcuCslab.vacantEntry s = (.ok true, { s with locked := true }) := by
        rw [RcuCslab.vacantEntry, Call.bind_apply_ok hlock, Call.get_bind_apply,
          if_neg (by rw [hkey]; exact Bool.false_ne_true)]
        rfl
      obtain ⟨-, rfl⟩ := settle_map_ok hsettle hcall
      exact h.congr hi' rfl fun _ => rfl

/-- **One call** fills at most one slot, whose index it returns. The other calls look at the slab or
add and drop readers, which leaves the slots as they are. -/
theorem step {op : Op α} {o : Except Interrupt (Ret α)} (hop : op.fills = true)
    (hstep : RcuCslab.step s op = some (o, s')) :
    Filled s' (is ++ (insertedKey (op, o)).toList) := by
  have hi' := step_inv h.inv hstep
  have of_none : insertedKey (op, o) = none → Filled s' is →
      Filled s' (is ++ (insertedKey (op, o)).toList) := by
    intro hkey hfilled
    rwa [hkey, Option.toList_none, List.append_nil]
  obtain ⟨m, hcall, hsettle⟩ := step_eq_some hstep
  cases allowed_of_call hcall with
  | @insert x husable =>
    rcases insert_eq (x := x) h.inv (State.usable_iff.mp husable).2.1 with
      ⟨hpoison, -⟩ | ⟨-, -, hins⟩ | ⟨i, c, -, hok, hins⟩
    · exact absurd (h.poisoned.symm.trans hpoison) nofun
    · obtain ⟨rfl, rfl⟩ := settle_map_ok hsettle hins
      exact of_none rfl (h.congr hi' rfl fun _ => rfl)
    · obtain ⟨rfl, rfl⟩ := settle_map_ok hsettle hins
      exact h.inserted hi' rfl hok rfl
  | vacantEntry husable => exact of_none rfl (h.vacantEntry hstep)
  | vacantEntryKey hlocked =>
    obtain ⟨i, -, hkey⟩ := vacantEntryKey_eq h.inv hlocked
    obtain ⟨rfl, rfl⟩ := settle_map_ok hsettle hkey
    exact of_none rfl h
  | @vacantEntryInsert x hlocked =>
    obtain ⟨i, c, hok, hins⟩ := vacantEntryInsert_eq h.inv hlocked x
    obtain ⟨rfl, rfl⟩ := settle_map_ok hsettle hins
    exact h.inserted hi' rfl hok rfl
  | vacantEntryDrop =>
    obtain ⟨rfl, rfl⟩ := settle_map_ok (m := unlock) hsettle rfl
    exact of_none rfl (h.congr hi' rfl fun _ => rfl)
  | len | allocated | vacantKey | get | reader | readerClone | readerDrop | readerGet
  | readerContainsKey | readerIter | readerNext | readerNextBack =>
    exact of_none rfl (h.shared rfl hstep)
  | _ => exact absurd hop nofun

/-- **A run** fills the slots whose indices its insertions return, each of them once, by induction
on its steps. -/
theorem run {es : List (Op α × Except Interrupt (Ret α))} (hops : ∀ e ∈ es, e.1.fills = true)
    (hrun : Run s es s') : Filled s' (is ++ es.filterMap insertedKey) := by
  refine Steps.history (P := fun es s' => (∀ e ∈ es, e.1.fills = true) →
    Filled s' (is ++ es.filterMap insertedKey)) ?_ hrun
    (fun _ => by rwa [List.filterMap_nil, List.append_nil]) hops
  intro es s₁ e s₂ ih hstep hops
  rw [List.forall_mem_append, List.forall_mem_singleton] at hops
  have hnext := (ih hops.1).step hops.2 hstep
  rw [List.append_assoc] at hnext
  rw [List.filterMap_append]
  exact hnext

end Filled

/-- **The whole capacity is there**: in any run of calls that fill the slab, the insertions return
different indices below the capacity until each of them has been returned, and the others fail. -/
def GivesBack (capacity : Nat) (s : State α) : Prop :=
  ∀ es s', Run s es s' → (∀ e ∈ es, e.1.fills = true) →
    (es.filterMap insertedKey).Nodup ∧ (∀ i ∈ es.filterMap insertedKey, i < capacity) ∧
    ((es.filterMap insertedKey).length = capacity → ∀ i < capacity, i ∈ es.filterMap insertedKey) ∧
    ∀ x o s'', step s' (.insert x) = some (o, s'') →
      if (es.filterMap insertedKey).length < capacity then ∃ i, o = .ok (.key (some i)) else
        o = .ok (.key none)

/-- The storage keeps its size. -/
theorem size_eq_of_run {es : List (Op α × Except Interrupt (Ret α))} (hi : Inv {} s)
    (hrun : Run s es s') : s'.cslab.storage.size = s.cslab.storage.size := by
  refine (Steps.invariant (P := fun s' => Inv {} s' ∧
    s'.cslab.storage.size = s.cslab.storage.size) ?_ hrun ⟨hi, rfl⟩).2
  rintro s₁ e s₂ ⟨hi₁, hsize⟩ hstep
  exact ⟨step_inv hi₁ hstep, (size_eq_of_step hi₁ hstep).trans hsize⟩

theorem Filled.givesBack (h : Filled s []) : GivesBack s.cslab.storage.size s := by
  intro es s' hrun hops
  have hfilled := h.run hops hrun
  have hsize := size_eq_of_run h.inv hrun
  rw [List.nil_append] at hfilled
  rw [← hsize]
  exact ⟨hfilled.nodup, fun i hmem => hfilled.lt_size hmem,
    fun hfull i hi => hfilled.mem_of_full hfull hi, fun x o s'' => hfilled.insert_outcome⟩

end ZprUtils.RcuCslab
