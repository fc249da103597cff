import ZprUtils.Cslab.Operations
import ZprUtils.Foundations.Runs

/-!
# The slab refines an abstract slab

The abstract slab has a partial map of live items, a partial map of pending items and a stack of
free indices. Its operations are partial: a mark needs a live index, a finalization a pending one.
The concrete slab simulates it: `Cslab.Represents` relates the two, every operation keeps it, and so
does every run.

## Main definitions

* `AbsSlab`, `AbsSlab.step` — the abstract slab and its operations.
* `Cslab.step` — the same operations on the concrete slab.
* `Cslab.Represents` — the simulation relation.
* `Cslab.Refines`, `Cslab.Invariant` — what a new slab owes to every run.

## Main results

* `Cslab.refines_iff` — every result of the concrete slab is the abstract one, if and only if the
  allocator returned memory.
* `Cslab.invariant_iff` — the representation invariant in every reachable state, under the same
  condition.
-/

namespace ZprUtils

variable {α : Type}

/-- An operation on a slab. -/
inductive SlabOp (α : Type) where
  | insert (x : α)
  | markRemoved (idx : Nat)
  | finalizeRemove (idx : Nat)
  deriving DecidableEq, Repr

/-- The result of an operation on a slab. -/
inductive SlabRet (α : Type) where
  | inserted (key : Option Nat)
  | marked
  | finalized (x : α)
  deriving DecidableEq, Repr

/-! ### The abstract slab -/

/-- The abstract slab. -/
structure AbsSlab (α : Type) where
  capacity : Nat
  live : Nat → Option α
  pending : Nat → Option α
  free : List Nat

namespace AbsSlab

/-- The empty slab: all indices are free, in increasing order. -/
def init (n : Nat) : AbsSlab α := ⟨n, fun _ => none, fun _ => none, List.range n⟩

/-- The operations; `none` when the precondition of a removal does not hold. -/
def step (a : AbsSlab α) : SlabOp α → Option (SlabRet α × AbsSlab α)
  | .insert x =>
    match a.free with
    | [] => some (.inserted none, a)
    | i :: rest =>
      some (.inserted (some i), { a with live := Function.update a.live i (some x), free := rest })
  | .markRemoved i =>
    match a.live i with
    | none => none
    | some x => some (.marked, { a with
        live := Function.update a.live i none
        pending := Function.update a.pending i (some x) })
  | .finalizeRemove i =>
    match a.pending i with
    | none => none
    | some x => some (.finalized x, { a with
        pending := Function.update a.pending i none
        free := i :: a.free })

/-- The number of live items. -/
def len (a : AbsSlab α) : Nat :=
  ((Finset.range a.capacity).filter fun i => (a.live i).isSome).card

/-- The number of live and pending items. -/
def allocated (a : AbsSlab α) : Nat :=
  a.len + ((Finset.range a.capacity).filter fun i => (a.pending i).isSome).card

/-- The key of the next insertion. -/
def vacantKey (a : AbsSlab α) : Option Nat := a.free.head?

end AbsSlab

namespace Cslab

/-- The operations on the concrete slab. -/
def step (s : Cslab α) : SlabOp α → Except RustFault (SlabRet α × Cslab α)
  | .insert x => do
    let (key, s') ← s.insert x
    return (.inserted key, s')
  | .markRemoved i => do
    let s' ← s.markRemoved i
    return (.marked, s')
  | .finalizeRemove i => do
    let (x, s') ← s.finalizeRemove i
    return (.finalized x, s')

/-- Every operation that succeeds keeps the invariant and the capacity. The operations are taken one
by one from their specifications, so that a run needs no more than this. -/
theorem Inv.of_step {s s' : Cslab α} {free : List Nat} {op : SlabOp α} {r : SlabRet α}
    (h : s.Inv free) (hstep : s.step op = .ok (r, s')) :
    (∃ free', s'.Inv free') ∧ s'.storage.size = s.storage.size := by
  cases op with
  | insert x =>
    obtain ⟨⟨key, c⟩, hinsert, hret⟩ := except_bind_eq_ok.mp hstep
    obtain ⟨-, rfl⟩ := Prod.mk.inj (Except.ok.inj hret)
    cases key with
    | none =>
      cases free with
      | nil =>
        rw [h.insert_nil, Except.ok.injEq, Prod.mk.injEq] at hinsert
        obtain ⟨-, rfl⟩ := hinsert
        exact ⟨⟨_, h⟩, rfl⟩
      | cons i rest =>
        obtain ⟨c', hc', -⟩ := h.insert_cons x
        rw [hc'] at hinsert
        exact absurd (Prod.mk.inj (Except.ok.inj hinsert)).1 nofun
    | some i =>
      obtain ⟨rest, -, hinv, -, hsize, -⟩ := h.of_insert hinsert
      exact ⟨⟨rest, hinv⟩, hsize⟩
  | markRemoved i =>
    obtain ⟨c, hmark, hret⟩ := except_bind_eq_ok.mp hstep
    obtain ⟨-, rfl⟩ := Prod.mk.inj (Except.ok.inj hret)
    obtain ⟨x, -, hinv, -, hsize⟩ := h.of_markRemoved hmark
    exact ⟨⟨_, hinv⟩, hsize⟩
  | finalizeRemove i =>
    obtain ⟨⟨x, c⟩, hfinalize, hret⟩ := except_bind_eq_ok.mp hstep
    obtain ⟨-, rfl⟩ := Prod.mk.inj (Except.ok.inj hret)
    obtain ⟨-, hinv, -, hsize⟩ := h.of_finalizeRemove hfinalize
    exact ⟨⟨_, hinv⟩, hsize⟩

/-! ### The simulation relation -/

/-- The concrete slab represents the abstract one: the free list is the stack, and each slot holds
what the two maps say. -/
structure Represents (s : Cslab α) (a : AbsSlab α) : Prop where
  inv : s.Inv a.free
  size_eq : s.storage.size = a.capacity
  live_eq : ∀ i, a.live i = (s.slot i).liveItem
  pending_eq : ∀ i, a.pending i = (s.slot i).pendingItem

theorem represents_init {t : Layout} {n : Nat} {s : Cslab α}
    (h : withFixedCapacity .memory t n = .ok s) : s.Represents (.init n) := by
  obtain ⟨hinv, hsize, -, hslot⟩ := inv_withFixedCapacity h
  exact ⟨hinv, hsize, fun i => by rw [hslot]; rfl, fun i => by rw [hslot]; rfl⟩

namespace Represents

variable {s : Cslab α} {a a' : AbsSlab α} (h : s.Represents a)
include h

theorem slot_live {i : Nat} {x : α} (hx : a.live i = some x) : s.slot i = .live x := by
  rw [h.live_eq] at hx
  cases hs : s.slot i <;> simp_all [Slot.liveItem]

theorem slot_pending {i : Nat} {x : α} (hx : a.pending i = some x) : s.slot i = .pending x := by
  rw [h.pending_eq] at hx
  cases hs : s.slot i <;> simp_all [Slot.pendingItem]

theorem len_eq : s.len = a.len := by
  rw [len, h.inv.inUse_eq, h.inv.liveSet_eq, AbsSlab.len, h.size_eq]
  congr 1
  exact Finset.filter_congr fun i _ => by rw [h.live_eq]

theorem allocated_eq : s.allocated = a.allocated := by
  have hpending : s.pendingSet =
      (Finset.range a.capacity).filter fun i => (a.pending i).isSome := by
    rw [pendingSet, h.size_eq]
    exact Finset.filter_congr fun i _ => by rw [h.pending_eq]
  rw [h.inv.allocated_eq, ← h.inv.inUse_eq, AbsSlab.allocated, ← h.len_eq, hpending, len]

theorem length_free : a.free.length = s.capacity - s.allocated := by
  have hadd := h.inv.allocated_add
  rw [capacity]
  omega

/-- The slots changed by an operation are those changed in the two maps. -/
theorem of_update {s' : Cslab α} {free : List Nat} {i : Nat} {e : Slot α} (hinv : s'.Inv free)
    (hsize : s'.storage.size = s.storage.size) (hslot : s'.slot = Function.update s.slot i e) :
    s'.Represents ⟨a.capacity, Function.update a.live i e.liveItem,
      Function.update a.pending i e.pendingItem, free⟩ := by
  refine ⟨hinv, hsize.trans h.size_eq, fun j => ?_, fun j => ?_⟩
  · rw [hslot]
    by_cases hj : j = i
    · subst hj
      simp only [Function.update_self]
    · simp only [Function.update_of_ne hj, h.live_eq]
  · rw [hslot]
    by_cases hj : j = i
    · subst hj
      simp only [Function.update_self]
    · simp only [Function.update_of_ne hj, h.pending_eq]

/-- Every operation of the abstract slab is one of the concrete slab, with the same result; the
capacity stays and the frontier does not decrease. -/
theorem step {op : SlabOp α} {r : SlabRet α} (hstep : a.step op = some (r, a')) :
    ∃ s', s.step op = .ok (r, s') ∧ s'.Represents a' ∧ s'.storage.size = s.storage.size ∧
      s.storage.frontier ≤ s'.storage.frontier := by
  have hinv := h.inv
  cases op with
  | insert x =>
    rw [AbsSlab.step] at hstep
    cases hfree : a.free with
    | nil =>
      simp only [hfree, Option.some.injEq, Prod.mk.injEq] at hstep
      obtain ⟨rfl, rfl⟩ := hstep
      rw [hfree] at hinv
      exact ⟨s, by rw [Cslab.step, hinv.insert_nil]; rfl, h, rfl, le_rfl⟩
    | cons i rest =>
      simp only [hfree, Option.some.injEq, Prod.mk.injEq] at hstep
      obtain ⟨rfl, rfl⟩ := hstep
      rw [hfree] at hinv
      obtain ⟨s', hok, hinv', hslot, hsize, hfrontier, -⟩ := hinv.insert_cons x
      have hrep := h.of_update hinv' hsize hslot
      have hpending : Function.update a.pending i none = a.pending := by
        rw [Function.update_eq_self_iff, h.pending_eq,
          (hinv.mem_free_iff_slot (hinv.lt_size_of_mem_free List.mem_cons_self)).mp
            List.mem_cons_self]
        rfl
      simp only [Slot.pendingItem, hpending] at hrep
      exact ⟨s', by rw [Cslab.step, hok]; rfl, hrep, hsize, hfrontier ▸ Nat.le_max_left _ _⟩
  | markRemoved i =>
    rw [AbsSlab.step] at hstep
    cases hlive : a.live i with
    | none => simp [hlive] at hstep
    | some x =>
      simp only [hlive, Option.some.injEq, Prod.mk.injEq] at hstep
      obtain ⟨rfl, rfl⟩ := hstep
      obtain ⟨s', hok, hinv', hslot, hsize, hfrontier, -⟩ :=
        hinv.markRemoved_eq_ok (h.slot_live hlive)
      exact ⟨s', by rw [Cslab.step, hok]; rfl, h.of_update hinv' hsize hslot, hsize,
        hfrontier.ge⟩
  | finalizeRemove i =>
    rw [AbsSlab.step] at hstep
    cases hpending : a.pending i with
    | none => simp [hpending] at hstep
    | some x =>
      simp only [hpending, Option.some.injEq, Prod.mk.injEq] at hstep
      obtain ⟨rfl, rfl⟩ := hstep
      have hslotp := h.slot_pending hpending
      obtain ⟨s', hok, hinv', hslot, hsize, hfrontier, -⟩ := hinv.finalizeRemove_eq_ok hslotp
      have hrep := h.of_update hinv' hsize hslot
      have hlive : Function.update a.live i none = a.live := by
        rw [Function.update_eq_self_iff, h.live_eq, hslotp]
        rfl
      simp only [Slot.liveItem, hlive] at hrep
      exact ⟨s', by rw [Cslab.step, hok]; rfl, hrep, hsize, hfrontier.ge⟩

/-- Every run of the abstract slab is one of the concrete slab. -/
theorem run {ops : List (SlabOp α)} {rs : List (SlabRet α)}
    (hrun : runOps AbsSlab.step a ops = some (rs, a')) :
    ∃ s', runOps Cslab.step s ops = .ok (rs, s') ∧ s'.Represents a' ∧
      s'.storage.size = s.storage.size ∧ s.storage.frontier ≤ s'.storage.frontier := by
  refine runOps_simulates (R := fun (s' : Cslab α) a' => s'.Represents a' ∧
    s'.storage.size = s.storage.size ∧ s.storage.frontier ≤ s'.storage.frontier) ?_
    ⟨h, rfl, le_rfl⟩ hrun
  rintro s₁ a₁ op r a₂ ⟨h₁, hsize, hle⟩ hstep
  obtain ⟨s₂, hok, h₂, hsize', hle'⟩ := h₁.step hstep
  exact ⟨s₂, hok, h₂, hsize'.trans hsize, hle.trans hle'⟩

end Represents

end Cslab

/-- The results of inserting the items of a list: the free indices in order, then errors. -/
theorem AbsSlab.run_insert (a : AbsSlab α) (xs : List α) :
    ∃ a', runOps AbsSlab.step a (xs.map .insert) =
      some ((a.free.take xs.length).map (fun i => .inserted (some i)) ++
        List.replicate (xs.length - a.free.length) (.inserted none), a') := by
  induction xs generalizing a with
  | nil => exact ⟨a, by simp [runOps]⟩
  | cons x xs ih =>
    rw [List.map_cons]
    cases hfree : a.free with
    | nil =>
      obtain ⟨a', hrun⟩ := ih a
      refine ⟨a', runOps_cons_eq_some.mpr ⟨.inserted none, a, _, ?_, hrun, ?_⟩⟩
      · simp only [AbsSlab.step, hfree]
      · simp [hfree, List.replicate_succ]
    | cons i rest =>
      obtain ⟨a', hrun⟩ := ih { a with live := Function.update a.live i (some x), free := rest }
      refine ⟨a', runOps_cons_eq_some.mpr ⟨.inserted (some i), _, _, ?_, hrun, ?_⟩⟩
      · simp only [AbsSlab.step, hfree]
      · simp

namespace Cslab

/-! ### A null pointer behind the storage -/

/-- A slab whose allocation failed: it has a size, and nothing behind it. The constructor itself
succeeds, because it does not look at what `alloc_zeroed` returned. -/
theorem withFixedCapacity_null_eq_ok {t : Layout} {n : Nat} {s : Cslab α}
    (h : withFixedCapacity .null t n = .ok s) : 0 < n ∧ s = ⟨0, 0, 0, ⟨n, 0, [], []⟩⟩ := by
  obtain ⟨storage, hstorage, hs⟩ := except_bind_eq_ok.mp h
  rw [CslabStorage.withFixedCapacity] at hstorage
  by_cases hn : n = 0
  · simp [hn] at hstorage
  rw [if_neg hn] at hstorage
  obtain ⟨layout, -, hok⟩ := except_bind_eq_ok.mp hstorage
  rw [except_pure, Except.ok.injEq] at hs hok
  rw [← hs, ← hok]
  exact ⟨Nat.pos_of_ne_zero hn, rfl⟩

/-- Its first lookup goes through the null pointer. -/
theorem get_null {t : Layout} {n : Nat} {s : Cslab α} (h : withFixedCapacity .null t n = .ok s) :
    s.get 0 = .error .undefined := by
  obtain ⟨hpos, rfl⟩ := withFixedCapacity_null_eq_ok h
  have hword : 0 < bitmapLen n := by
    have hle := le_mul_bitmapLen n
    by_contra hzero
    rw [Nat.eq_zero_of_not_pos hzero] at hle
    omega
  have hload : CslabStorage.loadBitmap (⟨n, 0, [], []⟩ : CslabStorage α) (0 / usizeBits) =
      .error .undefined := by
    simp [CslabStorage.loadBitmap, CslabStorage.accessFault, hword]
  simp only [get, CslabStorage.getImpl, CslabStorage.containsKeyImpl, if_neg (Nat.not_le.mpr hpos),
    hload, except_error_bind]

/-- So does its first insertion, with the read of the offset of the first free slot. -/
theorem insert_null {t : Layout} {n : Nat} {s : Cslab α} (h : withFixedCapacity .null t n = .ok s)
    (x : α) : s.insert x = .error .undefined := by
  obtain ⟨hpos, rfl⟩ := withFixedCapacity_null_eq_ok h
  have hread : CslabStorage.readNextFree (⟨n, 0, [], []⟩ : CslabStorage α) 0 =
      .error .undefined := by
    simp [CslabStorage.readNextFree, CslabStorage.accessFault, hpos]
  simp only [insert, if_neg (Nat.not_le.mpr hpos), hread, except_error_bind]

/-! ### Every run -/

/-- The new slab `s₀` of capacity `n` refines the abstract slab. Every sequence of operations that
meets the preconditions of the abstract slab runs without a fault and returns the abstract results;
afterwards every observation is the abstract one, a rejected item leaves the slab as it is, and
exactly the unallocated capacity can be inserted. -/
def Refines (s₀ : Cslab α) (n : Nat) : Prop :=
  ∀ (ops : List (SlabOp α)) (rs : List (SlabRet α)) (a : AbsSlab α),
    runOps AbsSlab.step (.init n) ops = some (rs, a) →
    ∃ s, runOps step s₀ ops = .ok (rs, s) ∧ (∀ i, s.get i = .ok (a.live i)) ∧
      s.vacantKey = a.vacantKey ∧ s.len = a.len ∧ s.allocated = a.allocated ∧
      s.capacity = n ∧ (∀ x s', s.insert x = .ok (none, s') → s' = s) ∧
      ∀ xs : List α, ∃ s', runOps step s (xs.map .insert) =
        .ok ((a.free.take xs.length).map (fun i => .inserted (some i)) ++
          List.replicate (xs.length - (s.capacity - s.allocated)) (.inserted none), s')

/-- A slab whose storage was allocated refines the abstract slab. -/
theorem refines_of_memory {t : Layout} {n : Nat} {s₀ : Cslab α}
    (hinit : withFixedCapacity .memory t n = .ok s₀) : s₀.Refines n := by
  intro ops rs a hrun
  obtain ⟨s, hok, hrep, hsize, -⟩ := (represents_init hinit).run hrun
  have hcapacity : s.capacity = n := hsize.trans (represents_init hinit).size_eq
  refine ⟨s, hok, fun i => ?_, hrep.inv.vacantKey_eq, hrep.len_eq, hrep.allocated_eq, hcapacity,
    ?_, ?_⟩
  · rw [hrep.inv.get_eq, hrep.live_eq]
  · intro x s' hins
    have hinv := hrep.inv
    cases hfree : a.free with
    | nil =>
      rw [hfree] at hinv
      simpa using (hinv.insert_nil x).symm.trans hins |>.symm
    | cons i rest =>
      rw [hfree] at hinv
      obtain ⟨s₁, hs₁, -⟩ := hinv.insert_cons x
      simp [hins] at hs₁
  · intro xs
    obtain ⟨a', hrun'⟩ := a.run_insert xs
    obtain ⟨s', hok', -⟩ := hrep.run hrun'
    rw [← hrep.length_free]
    exact ⟨s', hok'⟩

/-- A slab behind a null pointer does not answer the first lookup. -/
theorem not_refines_of_null {t : Layout} {n : Nat} {s₀ : Cslab α}
    (hinit : withFixedCapacity .null t n = .ok s₀) : ¬s₀.Refines n := by
  intro h
  obtain ⟨s, hok, hget, -⟩ := h [] [] _ rfl
  obtain ⟨-, rfl⟩ := Prod.mk.inj (Except.ok.inj hok)
  exact absurd ((get_null hinit).symm.trans (hget 0)) (by simp)

/-- **The slab refines the abstract slab if and only if its storage was allocated.** For every
capacity that is accepted, a slab with memory behind it answers every run of the preconditions as
the abstract slab does. The answer of the allocator is not looked at, and with a null pointer the
first operation that touches a slot is undefined behaviour. -/
theorem refines_iff {alloc : Alloc} {t : Layout} {n : Nat} {s₀ : Cslab α}
    (hinit : withFixedCapacity alloc t n = .ok s₀) : s₀.Refines n ↔ alloc = .memory := by
  cases alloc with
  | memory => exact iff_of_true (refines_of_memory hinit) rfl
  | null => exact iff_of_false (not_refines_of_null hinit) (by simp)

/-- The run of `removal_freelist_reuse_test` on two slots: the full slab rejects a third item, and
the slot freed first is reused. -/
theorem refines_reuse :
    ∃ s₀ s : Cslab Nat, withFixedCapacity .memory ⟨4, 4⟩ 2 = .ok s₀ ∧
      runOps step s₀ [.insert 7, .insert 8, .insert 9, .markRemoved 0, .finalizeRemove 0,
        .insert 5] = .ok ([.inserted (some 0), .inserted (some 1), .inserted none, .marked,
        .finalized 7, .inserted (some 0)], s) ∧ s.get 0 = .ok (some 5) ∧ s.vacantKey = none := by
  obtain ⟨s, hok, hget, hkey, -⟩ := (@refines_iff Nat .memory ⟨4, 4⟩ 2 _ rfl).mpr rfl
    [.insert 7, .insert 8, .insert 9, .markRemoved 0, .finalizeRemove 0, .insert 5] _ _ rfl
  exact ⟨_, s, rfl, hok, hget 0, hkey⟩

/-- A capacity of `2 ^ 59` words is accepted, since its layout exists. When the allocator has no
memory of that size, the first insertion is undefined behaviour instead of an index. -/
theorem refines_null :
    ∃ s₀ : Cslab Nat, withFixedCapacity .null ⟨4, 4⟩ (2 ^ 59) = .ok s₀ ∧
      s₀.insert 7 = .error .undefined ∧ ¬s₀.Refines (2 ^ 59) := by
  have hnew : @withFixedCapacity Nat .null ⟨4, 4⟩ (2 ^ 59) =
      .ok ⟨0, 0, 0, ⟨2 ^ 59, 0, [], []⟩⟩ := by
    decide
  exact ⟨_, hnew, insert_null hnew 7, not_refines_of_null hnew⟩

/-- The representation invariant of the new slab `s₀` of capacity `n`, in every state reached from
it. The free list is a chain of offsets from `firstFree` to the capacity through exactly the
unallocated indices; the counters, the bitmap and the frontier agree with the live and pending
indices; and every continuation of the run goes without an overflow and without lowering the
frontier. -/
def Invariant (s₀ : Cslab α) (n : Nat) : Prop :=
  ∀ (ops : List (SlabOp α)) (rs : List (SlabRet α)) (a : AbsSlab α),
    runOps AbsSlab.step (.init n) ops = some (rs, a) →
    ∃ s chain, runOps step s₀ ops = .ok (rs, s) ∧
      LinkedTo s.Link n s.firstFree chain ∧ chain.Nodup ∧
      (∀ i, i ∈ chain ↔ i < n ∧ a.live i = none ∧ a.pending i = none) ∧
      s.inUse = ((Finset.range (usizeBits * s.storage.bitmap.length)).filter
        fun i => s.storage.bit i).card ∧
      s.allocated = a.allocated ∧ s.inUse ≤ s.allocated ∧ s.allocated ≤ n ∧
      s.allocated + chain.length = n ∧
      (∀ i, s.storage.bit i = (a.live i).isSome) ∧ (∀ i, n ≤ i → s.storage.bit i = false) ∧
      s.storage.frontier ≤ n ∧
      (∀ i, (a.live i).isSome ∨ (a.pending i).isSome → i < s.storage.frontier) ∧
      ∀ ops' rs' a', runOps AbsSlab.step a ops' = some (rs', a') →
        ∃ s', runOps step s ops' = .ok (rs', s') ∧ s.storage.frontier ≤ s'.storage.frontier

/-- A slab whose storage was allocated keeps the representation invariant over every run of
operations, and it has it from the start. -/
theorem invariant_of_memory {t : Layout} {n : Nat} {s₀ : Cslab α}
    (hinit : withFixedCapacity .memory t n = .ok s₀) : s₀.Invariant n := by
  intro ops rs a hrun
  obtain ⟨s, hok, hrep, hsize, -⟩ := (represents_init hinit).run hrun
  have hinv := hrep.inv
  obtain rfl : s.storage.size = n := hsize.trans (represents_init hinit).size_eq
  refine ⟨s, a.free, hok, hinv.linked, hinv.nodup, fun i => ?_, ?_, hrep.allocated_eq, ?_,
    hinv.allocated_le, hinv.allocated_add, fun i => ?_, fun i hi => ?_, hinv.frontier_le,
    fun i hi => ?_, fun ops' rs' a' hrun' => ?_⟩
  · rw [hinv.mem_free_iff, Slot.eq_free_iff, hrep.live_eq, hrep.pending_eq]
  · rw [hinv.inUse_eq, hinv.liveSet_eq_setBits]
  · rw [hinv.inUse_eq, hinv.allocated_eq]
    exact Nat.le_add_right _ _
  · rw [hinv.bit_eq_isSome, hrep.live_eq]
  · rw [Bool.eq_false_iff]
    intro hb
    exact absurd (hinv.lt_size_of_bit hb) (Nat.not_lt.mpr hi)
  · rw [hrep.live_eq, hrep.pending_eq, ← Slot.isSome_item] at hi
    exact hinv.lt_frontier_of_item hi
  · obtain ⟨s', hok', -, -, hle⟩ := hrep.run hrun'
    exact ⟨s', hok', hle⟩

/-- Behind a null pointer there is no chain: the slot at `firstFree` has no entry, and it is not the
capacity. -/
theorem not_invariant_of_null {t : Layout} {n : Nat} {s₀ : Cslab α}
    (hinit : withFixedCapacity .null t n = .ok s₀) : ¬s₀.Invariant n := by
  intro h
  obtain ⟨s, chain, hok, hlinked, -⟩ := h [] [] _ rfl
  obtain ⟨-, rfl⟩ := Prod.mk.inj (Except.ok.inj hok)
  obtain ⟨hpos, rfl⟩ := withFixedCapacity_null_eq_ok hinit
  cases chain with
  | nil => exact absurd hlinked.eq_stop hpos.ne
  | cons i rest =>
    obtain ⟨-, next, ⟨offset, hentry, -⟩, -⟩ := hlinked.cons_inv
    simp at hentry

/-- **The representation invariant holds in every reachable state if and only if the storage was
allocated.** For every capacity that is accepted, the free list, the counters, the bitmap and the
frontier agree after every run of the preconditions, and no operation overflows, when there is
memory behind the slab. With a null pointer there are no entries and no bitmap from the start. -/
theorem invariant_iff {alloc : Alloc} {t : Layout} {n : Nat} {s₀ : Cslab α}
    (hinit : withFixedCapacity alloc t n = .ok s₀) : s₀.Invariant n ↔ alloc = .memory := by
  cases alloc with
  | memory => exact iff_of_true (invariant_of_memory hinit) rfl
  | null => exact iff_of_false (not_invariant_of_null hinit) (by simp)

/-- After the slots of `0` and `2` are freed in this order, the chain goes from `2` to `0` and on
to `3`. -/
theorem invariant_chain :
    ∃ (s₀ s : Cslab Nat) (rs : List (SlabRet Nat)), withFixedCapacity .memory ⟨4, 4⟩ 4 = .ok s₀ ∧
      runOps step s₀ [.insert 7, .insert 8, .insert 9, .markRemoved 0, .finalizeRemove 0,
        .markRemoved 2, .finalizeRemove 2] = .ok (rs, s) ∧
      ∃ chain, LinkedTo s.Link 4 s.firstFree chain ∧ s.allocated + chain.length = 4 ∧
        2 ∈ chain ∧ 1 ∉ chain := by
  obtain ⟨s, chain, hok, hlinked, -, hmem, -, -, -, -, hlen, -⟩ :=
    (@invariant_iff Nat .memory ⟨4, 4⟩ 4 _ rfl).mpr rfl [.insert 7, .insert 8, .insert 9,
      .markRemoved 0, .finalizeRemove 0, .markRemoved 2, .finalizeRemove 2] _ _ rfl
  refine ⟨_, s, _, rfl, hok, chain, hlinked, hlen, (hmem 2).mpr ⟨by decide, rfl, rfl⟩, ?_⟩
  intro hone
  exact absurd ((hmem 1).mp hone).2.1 (by decide)

/-- When the allocator has no memory for `2 ^ 59` words, the offset at `firstFree`, which the chain
starts with, cannot be read. -/
theorem invariant_null :
    ∃ s₀ : Cslab Nat, withFixedCapacity .null ⟨4, 4⟩ (2 ^ 59) = .ok s₀ ∧
      s₀.storage.readNextFree s₀.firstFree = .error .undefined ∧ ¬s₀.Invariant (2 ^ 59) := by
  have hnew : @withFixedCapacity Nat .null ⟨4, 4⟩ (2 ^ 59) =
      .ok ⟨0, 0, 0, ⟨2 ^ 59, 0, [], []⟩⟩ := by
    decide
  exact ⟨_, hnew, by decide, not_invariant_of_null hnew⟩

end Cslab

end ZprUtils
