import ZprUtils.Cslab.ExclIter
import ZprUtils.Threads.Ownership
import ZprUtils.Threads.RefCounts

/-!
# The invariant under many threads

The invariant has four parts. The strong counts are those of `RefCounts`, with the references of the
threads in flight, and the mutex is held exactly when a thread has its guard. `Removals` ties the
pending slots to the removals that are recorded in the generations that are alive, or that a thread
is about to record or to finalize. `Loans` are the borrow rules. `Iteration` says what the calls of
a mutable iteration and of a vacant entry rely on.

## Main definitions

* `Config.load` — how often the removal of a slot is recorded or in flight.
* `Removals`, `Loans`, `Iteration`, `ThreadInv`.
-/

namespace ZprUtils.RcuCslab

variable {α : Type}

/-! ### Removals -/

/-- **Removals.** A slot is pending when its removal is recorded or in flight, which happens at most
once at a time; without a panic there are no other pending slots. -/
structure Removals (load : Nat → Nat) (s : State α) : Prop where
  cslab : ∃ free, s.cslab.Inv free
  once : ∀ i, load i ≤ 1
  slot : ∀ i, 0 < load i → ∃ x, s.cslab.slot i = .pending x
  mem : s.poisoned = false → ∀ i x, s.cslab.slot i = .pending x → 0 < load i

namespace Removals

variable {load load' : Nat → Nat} {s s' : State α} {c : Cslab α} {i : Nat} {x : α}

/-- A change that keeps the slab and the removals. -/
theorem congr (h : Removals load s) (hcslab : s'.cslab = s.cslab) (hload : ∀ i, load' i = load i)
    (hpoison : s'.poisoned = false → s.poisoned = false) : Removals load' s' := by
  obtain rfl : load' = load := funext hload
  refine ⟨hcslab ▸ h.cslab, h.once, ?_, fun hp => ?_⟩
  · rw [hcslab]
    exact h.slot
  · rw [hcslab]
    exact h.mem (hpoison hp)

/-- After a panic removals may be forgotten. -/
theorem leak (h : Removals load s) (hcslab : s'.cslab = s.cslab) (hload : ∀ i, load' i ≤ load i)
    (hpoison : s'.poisoned = true) : Removals load' s' := by
  refine ⟨hcslab ▸ h.cslab, fun i => (hload i).trans (h.once i), fun i hi => ?_, fun hp => ?_⟩
  · rw [hcslab]
    exact h.slot i (hi.trans_le (hload i))
  · exact absurd (hpoison.symm.trans hp) (by simp)

theorem insert (h : Removals load s) (hinsert : s.cslab.insert x = .ok (some i, c))
    (hcslab : s'.cslab = c) (hpoison : s'.poisoned = s.poisoned) : Removals load s' := by
  obtain ⟨free, hinv⟩ := h.cslab
  obtain ⟨rest, -, hinv', hslot, -, hfree⟩ := hinv.of_insert hinsert
  refine ⟨⟨rest, hcslab ▸ hinv'⟩, h.once, fun j hj => ?_, fun hp j y hj => ?_⟩
  · obtain ⟨y, hy⟩ := h.slot j hj
    have hji : j ≠ i := by
      rintro rfl
      exact absurd (hfree.symm.trans hy) (by simp)
    exact ⟨y, by rw [hcslab, hslot, Function.update_of_ne hji, hy]⟩
  · rw [hcslab, hslot] at hj
    by_cases hji : j = i
    · subst hji
      simp at hj
    · rw [Function.update_of_ne hji] at hj
      exact h.mem (hpoison ▸ hp) j y hj

/-- A mark puts the removal in flight: from now on the thread has to record it, and the slot is
pending. -/
theorem mark (h : Removals load s) (hmark : s.cslab.markRemoved i = .ok c) (hcslab : s'.cslab = c)
    (hload : ∀ j, load' j = load j + (i == j).toNat) (hpoison : s'.poisoned = s.poisoned) :
    Removals load' s' := by
  obtain ⟨free, hinv⟩ := h.cslab
  obtain ⟨x, hlive, hinv', hslot, -⟩ := hinv.of_markRemoved hmark
  have hzero : load i = 0 := by
    by_contra hne
    obtain ⟨y, hy⟩ := h.slot i (Nat.pos_of_ne_zero hne)
    exact absurd (hlive.symm.trans hy) (by simp)
  have hself : load' i = 1 := by
    rw [hload, hzero, beq_self_eq_true, Bool.toNat_true]
  have hother : ∀ j, j ≠ i → load' j = load j := by
    intro j hj
    have hne : (i == j) = false := by simp [Ne.symm hj]
    rw [hload, hne, Bool.toNat_false, Nat.add_zero]
  refine ⟨⟨free, hcslab ▸ hinv'⟩, fun j => ?_, fun j hj => ?_, fun hp j y hj => ?_⟩
  · by_cases hji : j = i
    · rw [hji, hself]
    · rw [hother j hji]
      exact h.once j
  · rw [hcslab, hslot]
    by_cases hji : j = i
    · exact ⟨x, by rw [hji, Function.update_self]⟩
    · rw [hother j hji] at hj
      rw [Function.update_of_ne hji]
      exact h.slot j hj
  · by_cases hji : j = i
    · rw [hji, hself]
      exact Nat.one_pos
    · rw [hcslab, hslot, Function.update_of_ne hji] at hj
      rw [hother j hji]
      exact h.mem (hpoison ▸ hp) j y hj

/-- A finalization ends the removal: the slot is free, and the thread that runs the destructor has
one less to finalize. -/
theorem finalize (h : Removals load s) (hfinalize : s.cslab.finalizeRemove i = .ok (x, c))
    (hcslab : s'.cslab = c) (hload : ∀ j, load' j + (i == j).toNat = load j)
    (hpoison : s'.poisoned = s.poisoned) : Removals load' s' := by
  obtain ⟨free, hinv⟩ := h.cslab
  obtain ⟨hpending, hinv', hslot, -⟩ := hinv.of_finalizeRemove hfinalize
  have hself : load' i = 0 := by
    have hi := hload i
    rw [beq_self_eq_true, Bool.toNat_true] at hi
    have honce := h.once i
    omega
  have hother : ∀ j, j ≠ i → load' j = load j := by
    intro j hj
    have hne : (i == j) = false := by simp [Ne.symm hj]
    have hi := hload j
    rwa [hne, Bool.toNat_false, Nat.add_zero] at hi
  refine ⟨⟨i :: free, hcslab ▸ hinv'⟩, fun j => ?_, fun j hj => ?_, fun hp j y hj => ?_⟩
  · by_cases hji : j = i
    · rw [hji, hself]
      exact Nat.zero_le 1
    · rw [hother j hji]
      exact h.once j
  · by_cases hji : j = i
    · rw [hji, hself] at hj
      exact absurd hj (Nat.lt_irrefl 0)
    · rw [hother j hji] at hj
      rw [hcslab, hslot, Function.update_of_ne hji]
      exact h.slot j hj
  · rw [hcslab, hslot] at hj
    by_cases hji : j = i
    · subst hji
      simp at hj
    · rw [Function.update_of_ne hji] at hj
      rw [hother j hji]
      exact h.mem (hpoison ▸ hp) j y hj

end Removals

/-! ### What is recorded in the generations -/

/-- A change of one generation changes only what is recorded there. -/
theorem count_livePending_set {gens : List Gen} {g : Nat} {gen : Gen} (h : gens[g]? = some gen)
    (gen' : Gen) (i : Nat) :
    (livePending (gens.set g gen')).count i +
        (if gen.alive then gen.pendingRemoves else []).count i =
      (livePending gens).count i + (if gen'.alive then gen'.pendingRemoves else []).count i := by
  have hperm := flatMap_set_perm
    (fun gen : Gen => if gen.alive then gen.pendingRemoves else []) h gen'
  have hcount := hperm.count_eq i
  rw [List.count_append, List.count_append] at hcount
  rw [livePending, livePending]
  omega

/-! ### Borrows -/

/-- The thread borrows the slab exclusively. -/
def Pc.Exclusive (pc : Pc α) : Prop := pc.borrow = some .call ∨ pc.borrow = some .clear

/-- The iterator of `clear` exists. -/
def Pc.iterating : Pc α → Bool
  | .mark (.clear _) _ | .markLocked (.clear _) _ | .markUnlock (.clear _) _
  | .record (.clear _) _ | .clearLoop | .dropIterMut => true
  | _ => false

/-- The thread has counted the items for a mutable iteration. -/
def Pc.counted : Pc α → Option Nat
  | .iterMutUnlock _ n | .startIter _ n => some n
  | _ => none

/-- The thread has found the mutex sound for a mutable iteration. -/
def Pc.starting : Pc α → Bool
  | .iterMutLocked _ | .iterMutUnlock _ _ | .startIter _ _ => true
  | _ => false

/-- Where a thread is after a panic. -/
def Pc.abandoned : Pc α → Bool
  | .idle | .dropIterMut | .ret _ => true
  | _ => false

/-- Where a thread can be while it runs destructors. -/
def Pc.quiet : Pc α → Bool
  | .idle | .clearLoop | .dropIterMut | .newReader _ | .ret _ => true
  | _ => false

/-- The thread drops the iterator of the owner. -/
def Pc.closing : Pc α → Nat
  | .advance true => 1
  | _ => 0

/-- What the program point of a thread says about the slab and about the thread. -/
structure Thread.Consistent (th : Thread α) (s : State α) : Prop where
  insert : ∀ x, th.pc = .insertLocked true x → s.cslab.vacantKey.isSome = true
  starting : th.pc.starting = true → s.poisoned = false
  counted : ∀ n, th.pc.counted = some n → n = s.cslab.len
  clear : th.pc.borrow = some .clear → s.iterMut.isSome = th.pc.iterating
  unwinding : th.unwinding = true → s.poisoned = true ∧ th.pc.abandoned = true
  dropping : th.drops ≠ [] → th.pc.quiet = true

namespace Config

variable (c : Config α)

/-- The references to generation `g` that threads own. -/
def genRefs (g : Nat) : Nat := total (Thread.genRefs · g) c.threads

/-- The references to the mutex that threads own. -/
def writerRefs : Nat := total Thread.writerRefs c.threads

/-- The references to the storage that threads own. -/
def storageRefs : Nat := total Thread.storageRefs c.threads

/-- How often the removal of slot `i` is recorded in a generation that is alive or in flight. -/
def load (i : Nat) : Nat :=
  (livePending c.state.gens).count i + total (Thread.records · i) c.threads

/-- The number of entries of slot `i`, including those that a thread is about to mark. -/
def marks (i : Nat) : Nat :=
  countHandles (·.idx == i) c.state.entries + total (Thread.marks · i) c.threads

/-- Thread `t` is `th`. -/
def ThreadAt (t : Nat) (th : Thread α) : Prop := c.threads[t]? = some th

/-- There are no entries between calls. -/
def NoEntries : Prop := ∀ k e, ¬HandleAt c.state.entries k e

/-- No thread borrows the slab. -/
def NoBorrow : Prop := ∀ t th, c.ThreadAt t th → th.pc.borrow = none

/-- The number of iterators of the owner, including one whose drop is in progress. -/
def iterators : Nat := c.state.iterMut.isSome.toNat + total (fun th => th.pc.closing) c.threads

/-- Generation `g` is that of an entry, or of a removal of one in progress. -/
def EntryGen (g : Nat) : Prop :=
  (∃ k e, HandleAt c.state.entries k e ∧ e.gen = g) ∨
    ∃ t th, c.ThreadAt t th ∧ 0 < th.pc.genRefs g

/-- **The borrow rules.** -/
structure Loans : Prop where
  dropped : c.state.slab = none →
    c.NoBorrow ∧ c.vacant = none ∧ c.state.iterMut = none ∧ c.NoEntries
  vacant : ∀ t, c.vacant = some t → c.NoBorrow ∧ c.state.iterMut = none ∧ c.NoEntries
  exclusive : ∀ t th, c.ThreadAt t th → th.pc.Exclusive →
    (∀ u uh, c.ThreadAt u uh → u ≠ t → uh.pc.borrow = none) ∧ c.NoEntries
  call : ∀ t th, c.ThreadAt t th → th.pc.borrow = some .call → c.state.iterMut = none
  shared : ∀ t th, c.ThreadAt t th → th.pc.borrow = some .shared →
    c.state.iterMut = none ∧ c.NoEntries ∧
      ∀ u uh, c.ThreadAt u uh → uh.pc.borrow = none ∨ uh.pc.borrow = some .shared

/-- **Mutable iterations and vacant entries.** -/
structure Iteration : Prop where
  reserved : ∀ t, c.vacant = some t →
    c.state.poisoned = false ∧ c.state.cslab.vacantKey.isSome = true
  threads : ∀ t th, c.ThreadAt t th → th.Consistent c.state
  iterMut : ∀ im, c.state.iterMut = some im → c.state.poisoned = false ∧
    im.iter.tail ≤ c.state.cslab.storage.size ∧ im.remaining = c.state.cslab.left im.iter
  iterators : c.iterators ≤ 1
  marks : ∀ i, c.marks i ≤ 1
  marked : ∀ i, 0 < c.marks i → c.state.poisoned = false ∧
    (∃ x, c.state.cslab.slot i = .live x) ∧
      ∀ im, c.state.iterMut = some im → ¬im.iter.Covers i
  entry : ∀ k e, HandleAt c.state.entries k e → c.state.cslab.slot e.idx = .live e.value
  entryGen : ∀ g, c.EntryGen g → c.state.poisoned = false ∧
    (∀ slab, c.state.slab = some slab → slab.curGen = if c.iterators = 1 then g else g + 1) ∧
      ∀ k r, HandleAt c.state.readers k r → r.gen ≤ g
  readerIter : ∀ k r, HandleAt c.state.readers k r → ∀ it ∈ r.iters,
    it.tail ≤ c.state.cslab.storage.size

end Config

/-- **The invariant under many threads.** -/
structure ThreadInv (c : Config α) : Prop where
  refs : RefCounts c.genRefs c.writerRefs c.storageRefs c.state
  guards : total Thread.guards c.threads + c.vacant.isSome.toNat = c.state.locked.toNat
  removals : Removals c.load c.state
  loans : c.Loans
  iteration : c.Iteration

end ZprUtils.RcuCslab
