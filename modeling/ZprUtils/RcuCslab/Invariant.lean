import ZprUtils.RcuCslab.Calls
import ZprUtils.Foundations.Handles

/-!
# The invariant of the RCU slab

The invariant has three parts. `Refs` counts references: the strong count of every generation is
the number of handles of that generation, plus the reference of the running call, plus the one of
its predecessor; hence the generations that are alive are the last ones. `Pending` ties the removals
recorded in the generations that are alive to the pending slots of the slab. `Borrows` describes
what the borrow rules guarantee while the slab is exclusively borrowed.

## Main definitions

* `Held` — the references owned by a running call.
* `Alive`, `livePending` — the generations that are alive and their removals.
* `Refs`, `Pending`, `Borrows`, `Inv`.
-/

namespace ZprUtils.RcuCslab

variable {α : Type}

/-! ### Lists of generations -/

/-- The generation has a handle. -/
def Gen.alive (gen : Gen) : Bool := gen.strong != 0

/-- The strong count of generation `g`. -/
def strongAt (gens : List Gen) (g : Nat) : Nat := (gens[g]?.map (·.strong)).getD 0

/-- Generation `g` has not been dropped. -/
def Alive (gens : List Gen) (g : Nat) : Prop := ∃ gen, gens[g]? = some gen ∧ gen.alive = true

/-- The number of references to generation `g` in the generation before it. -/
def predRef (gens : List Gen) : Nat → Nat
  | 0 => 0
  | g + 1 => if gens[g]?.any fun gen => gen.alive && gen.nextGen == some (g + 1) then 1 else 0

/-- The removals recorded in the generations that are alive. -/
def livePending (gens : List Gen) : List Nat :=
  gens.flatMap fun gen => if gen.alive then gen.pendingRemoves else []

section

variable {gens : List Gen} {g : Nat} {gen gen' : Gen}

theorem strongAt_of_getElem? (h : gens[g]? = some gen) : strongAt gens g = gen.strong := by
  simp [strongAt, h]

theorem alive_iff_strongAt : Alive gens g ↔ strongAt gens g ≠ 0 := by
  cases h : gens[g]? with
  | none => simp [Alive, strongAt, h]
  | some gen => simp [Alive, strongAt, h, Gen.alive]

theorem Alive.lt_length (h : Alive gens g) : g < gens.length := by
  obtain ⟨gen, hgen, -⟩ := h
  exact (List.getElem?_eq_some_iff.mp hgen).1

theorem strongAt_set (h : gens[g]? = some gen) (j : Nat) :
    strongAt (gens.set g gen') j = if j = g then gen'.strong else strongAt gens j := by
  have hlt := (List.getElem?_eq_some_iff.mp h).1
  rw [strongAt, List.getElem?_set]
  by_cases hj : g = j
  · subst hj
    simp [hlt]
  · simp [hj, Ne.symm hj, strongAt]

/-- A change of a generation that keeps it alive and keeps its successor changes no reference. -/
theorem predRef_set (h : gens[g]? = some gen) (halive : gen'.alive = gen.alive)
    (hnext : gen'.nextGen = gen.nextGen) : predRef (gens.set g gen') = predRef gens := by
  have hlt := (List.getElem?_eq_some_iff.mp h).1
  funext j
  cases j with
  | zero => rfl
  | succ j =>
    rw [predRef, predRef, List.getElem?_set]
    by_cases hj : g = j
    · subst hj
      rw [if_pos rfl, if_pos hlt, h, Option.any_some, Option.any_some, halive, hnext]
    · rw [if_neg hj]

theorem strongAt_append (j : Nat) :
    strongAt (gens ++ [gen]) j = strongAt gens j + if j = gens.length then gen.strong else 0 := by
  rcases Nat.lt_trichotomy j gens.length with hj | rfl | hj
  · simp [strongAt, List.getElem?_append_left hj, Nat.ne_of_lt hj]
  · simp [strongAt]
  · have hlong : (gens ++ [gen]).length ≤ j := by simp; omega
    simp [strongAt, List.getElem?_eq_none hlong, List.getElem?_eq_none (Nat.le_of_lt hj),
      Nat.ne_of_gt hj]

theorem predRef_append (hnext : gen.nextGen = none) : predRef (gens ++ [gen]) = predRef gens := by
  funext j
  cases j with
  | zero => rfl
  | succ j =>
    rw [predRef, predRef]
    rcases Nat.lt_trichotomy j gens.length with hj | rfl | hj
    · rw [List.getElem?_append_left hj]
    · simp [hnext]
    · have hlong : (gens ++ [gen]).length ≤ j := by simp; omega
      rw [List.getElem?_eq_none hlong, List.getElem?_eq_none (Nat.le_of_lt hj)]

/-- A generation that is alive and gets a successor refers to it. -/
theorem predRef_set_nextGen (h : gens[g]? = some gen) (halive : gen.alive = true)
    (hnext : gen.nextGen = none) (j : Nat) :
    predRef (gens.set g { gen with nextGen := some (g + 1) }) j =
      predRef gens j + (j == g + 1).toNat := by
  have hlt := (List.getElem?_eq_some_iff.mp h).1
  have halive' : ({ gen with nextGen := some (g + 1) } : Gen).alive = true := halive
  cases j with
  | zero => rfl
  | succ j =>
    rw [predRef, predRef, List.getElem?_set]
    by_cases hj : g = j
    · subst hj
      rw [if_pos rfl, if_pos hlt, h, Option.any_some, Option.any_some, halive', hnext]
      simp
    · have hne : (j + 1 == g + 1) = false := by simp [Ne.symm hj]
      simp only [if_neg hj, hne, Bool.toNat_false, Nat.add_zero]

/-- Another reference to a generation that is alive. -/
theorem alive_acquired (halive : gen.alive = true) :
    ({ gen with strong := gen.strong + 1 } : Gen).alive = gen.alive := by
  rw [halive]
  simp [Gen.alive]

/-- A generation that dies no longer refers to its successor. -/
theorem predRef_set_dead (h : gens[g]? = some gen) (halive : gen.alive = true)
    (hnext : gen.nextGen = if g + 1 < gens.length then some (g + 1) else none) (j : Nat) :
    predRef (gens.set g { gen with strong := 0 }) j + (gen.nextGen == some j).toNat =
      predRef gens j := by
  have hlt := (List.getElem?_eq_some_iff.mp h).1
  cases j with
  | zero =>
    rw [hnext]
    split_ifs <;> simp [predRef]
  | succ j =>
    rw [predRef, predRef, List.getElem?_set]
    by_cases hj : g = j
    · subst hj
      have hdead : ({ gen with strong := 0 } : Gen).alive = false := rfl
      rw [if_pos rfl, if_pos hlt, h, Option.any_some, Option.any_some, halive, hdead,
        Bool.false_and, Bool.true_and]
      cases hnext' : gen.nextGen == some (g + 1) <;> simp
    · rw [if_neg hj, hnext]
      have hne : ((if g + 1 < gens.length then some (g + 1) else none) == some (j + 1)) =
          false := by
        split_ifs <;> simp [hj]
      rw [hne, Bool.toNat_false, Nat.add_zero]

theorem countP_alive_set (h : gens[g]? = some gen) (gen' : Gen) :
    (gens.set g gen').countP Gen.alive + gen.alive.toNat =
      gens.countP Gen.alive + gen'.alive.toNat := by
  obtain ⟨l₁, l₂, hl, -, hset⟩ := exists_split_of_getElem? h
  rw [hset, hl]
  simp only [List.countP_append, List.countP_cons]
  cases gen.alive <;> cases gen'.alive <;> simp <;> omega

theorem mem_livePending {i : Nat} :
    i ∈ livePending gens ↔
      ∃ (g : Nat) (gen : Gen), gens[g]? = some gen ∧ gen.alive = true ∧
        i ∈ gen.pendingRemoves := by
  simp only [livePending, List.mem_flatMap]
  constructor
  · rintro ⟨gen, hgen, hi⟩
    obtain ⟨g, hg⟩ := List.getElem?_of_mem hgen
    split_ifs at hi with halive
    · exact ⟨g, gen, hg, halive, hi⟩
    · exact absurd hi List.not_mem_nil
  · rintro ⟨g, gen, hg, halive, hi⟩
    exact ⟨gen, List.mem_of_getElem? hg, by rwa [if_pos halive]⟩

theorem livePending_set (h : gens[g]? = some gen) (halive : gen'.alive = gen.alive)
    (hpending : gen'.pendingRemoves = gen.pendingRemoves) :
    livePending (gens.set g gen') = livePending gens := by
  obtain ⟨l₁, l₂, hl, -, hset⟩ := exists_split_of_getElem? h
  rw [hset, hl]
  simp only [livePending, List.flatMap_append, List.flatMap_cons, halive, hpending]

/-- Recording a removal. -/
theorem livePending_push {i : Nat} (h : gens[g]? = some gen) (halive : gen.alive = true) :
    (livePending (gens.set g { gen with pendingRemoves := gen.pendingRemoves ++ [i] })).Perm
      (i :: livePending gens) := by
  obtain ⟨l₁, l₂, hl, -, hset⟩ := exists_split_of_getElem? h
  have halive' : ({ gen with pendingRemoves := gen.pendingRemoves ++ [i] } : Gen).alive = true :=
    halive
  rw [hset, hl]
  simp only [livePending, List.flatMap_append, List.flatMap_cons, halive, halive', if_true]
  refine (List.Perm.append_left _ ?_).trans List.perm_middle
  rw [List.append_assoc]
  exact List.perm_middle

/-- The removals of the oldest generation that is alive come first. -/
theorem livePending_of_first (h : gens[g]? = some gen) (halive : gen.alive = true)
    (hdead : ∀ j < g, ¬Alive gens j) :
    ∃ rest, livePending gens = gen.pendingRemoves ++ rest ∧
      ∀ gen', gen'.alive = false → livePending (gens.set g gen') = rest := by
  obtain ⟨l₁, l₂, hl, hlen, hset⟩ := exists_split_of_getElem? h
  have hnil : livePending l₁ = [] := by
    rw [livePending, List.flatMap_eq_nil_iff]
    intro gen₁ hmem
    obtain ⟨j, hj⟩ := List.getElem?_of_mem hmem
    have hjlt : j < l₁.length := (List.getElem?_eq_some_iff.mp hj).1
    rw [if_neg]
    intro hgen₁
    refine hdead j (hlen ▸ hjlt) ⟨gen₁, ?_, hgen₁⟩
    rw [hl, List.getElem?_append_left hjlt, hj]
  rw [livePending] at hnil
  refine ⟨livePending l₂, ?_, fun gen' hgen' => ?_⟩
  · rw [hl]
    simp only [livePending, List.flatMap_append, List.flatMap_cons, hnil, halive, if_true,
      List.nil_append]
  · rw [hset]
    simp only [livePending, List.flatMap_append, List.flatMap_cons, hnil, hgen',
      Bool.false_eq_true, if_false, List.nil_append]

end

/-! ### References -/

/-- The references that a running call owns. -/
structure Held where
  gen : Option Nat := none
  writer : Bool := false
  storage : Bool := false

/-- The number of handles that refer to generation `g`. -/
def State.handleRefs (s : State α) (g : Nat) : Nat :=
  countHandles (·.gen == g) s.readers + countHandles (·.gen == g) s.entries +
    (s.slab.any (·.curGen == g)).toNat

theorem State.handleRefs_dropEntry {s s' : State α} {k : Nat} {e : Entry α}
    (hk : HandleAt s.entries k e) (hreaders : s'.readers = s.readers) (hslab : s'.slab = s.slab)
    (hentries : s'.entries = s.entries.set k none) (j : Nat) :
    s'.handleRefs j + (some e.gen == some j).toNat =
      s.handleRefs j + ((none : Option Nat) == some j).toNat := by
  have hcount := countHandles_drop (p := fun e' => e'.gen == j) hk
  simp only [State.handleRefs, hreaders, hslab, hentries, Option.some_beq_some, ← hcount,
    Option.none_beq_some, Bool.toNat_false]
  omega

theorem State.handleRefs_dropReader {s s' : State α} {k : Nat} {r : Reader}
    (hk : HandleAt s.readers k r) (hreaders : s'.readers = s.readers.set k none)
    (hslab : s'.slab = s.slab) (hentries : s'.entries = s.entries) (j : Nat) :
    s'.handleRefs j + (some r.gen == some j).toNat =
      s.handleRefs j + ((none : Option Nat) == some j).toNat := by
  have hcount := countHandles_drop (p := fun r' => r'.gen == j) hk
  simp only [State.handleRefs, hreaders, hslab, hentries, Option.some_beq_some, ← hcount,
    Option.none_beq_some, Bool.toNat_false]
  omega

/-- The number of read handles. -/
def State.readerCount (s : State α) : Nat := countHandles (fun _ => true) s.readers

/-- **Reference counts.** Every strong count is the number of references. -/
structure Refs (h : Held) (s : State α) : Prop where
  nextGen : ∀ (g : Nat) (gen : Gen), s.gens[g]? = some gen →
    gen.nextGen = if g + 1 < s.gens.length then some (g + 1) else none
  curGen : ∀ slab, s.slab = some slab → slab.curGen + 1 = s.gens.length
  strong : ∀ g, strongAt s.gens g =
    s.handleRefs g + (h.gen == some g).toNat + predRef s.gens g
  writer : s.writerStrong = s.slab.isSome.toNat + s.gens.countP Gen.alive + h.writer.toNat
  storage : s.storageStrong =
    (s.writerStrong != 0).toNat + s.slab.isSome.toNat + s.readerCount + h.storage.toNat

/-- **Removals.** The removals recorded in the generations that are alive are pending slots, each
recorded once; without a panic there are no other pending slots. -/
structure Pending (s : State α) : Prop where
  cslab : ∃ free, s.cslab.Inv free
  nodup : (livePending s.gens).Nodup
  slot : ∀ i ∈ livePending s.gens, ∃ x, s.cslab.slot i = .pending x
  mem : s.poisoned = false → ∀ i x, s.cslab.slot i = .pending x → i ∈ livePending s.gens

/-- No vacant entry, mutable iteration or entry of one is alive. -/
def State.Unborrowed (s : State α) : Prop :=
  s.locked = false ∧ s.iterMut = none ∧ ∀ k e, ¬HandleAt s.entries k e

/-- **Borrow rules.** -/
structure Borrows (s : State α) : Prop where
  of_dropped : s.slab = none → s.Unborrowed
  locked : s.locked = true → s.iterMut = none ∧ (∀ k e, ¬HandleAt s.entries k e) ∧
    s.poisoned = false ∧ s.cslab.vacantKey.isSome
  iterMut : ∀ im, s.iterMut = some im → s.poisoned = false ∧ im.iter.tail ≤ s.cslab.storage.size ∧
    ∀ slab, s.slab = some slab → ∀ k e, HandleAt s.entries k e →
      e.gen = slab.curGen ∧ ¬(im.iter.head ≤ e.idx ∧ e.idx < im.iter.tail)
  /-- After the drop of the iterator its entries and all readers are of older generations. -/
  entry_gen : s.iterMut = none → ∀ slab, s.slab = some slab → ∀ k e, HandleAt s.entries k e →
    e.gen + 1 = slab.curGen ∧ ∀ k' r, HandleAt s.readers k' r → r.gen ≤ e.gen
  entry_live : ∀ k e, HandleAt s.entries k e →
    s.poisoned = false ∧ s.cslab.slot e.idx = .live e.value
  entry_idx : ∀ k k' e e', HandleAt s.entries k e → HandleAt s.entries k' e' → e.idx = e'.idx →
    k = k'
  reader_iter : ∀ k r, HandleAt s.readers k r → ∀ it ∈ r.iters, it.tail ≤ s.cslab.storage.size

/-- **The invariant of the RCU slab**, in the middle of a call that owns the references `h`. -/
structure Inv (h : Held) (s : State α) : Prop where
  refs : Refs h s
  pending : Pending s
  borrows : Borrows s

namespace Refs

variable {h : Held} {s : State α} (hr : Refs h s)
include hr

theorem alive_of_handleRefs {g : Nat} (hg : 0 < s.handleRefs g) : Alive s.gens g := by
  rw [alive_iff_strongAt, hr.strong]
  omega

theorem alive_of_held {g : Nat} (hg : h.gen = some g) : Alive s.gens g := by
  rw [alive_iff_strongAt, hr.strong, hg]
  simp

theorem alive_of_reader {k : Nat} {r : Reader} (hk : HandleAt s.readers k r) :
    Alive s.gens r.gen := by
  refine hr.alive_of_handleRefs ?_
  have hpos := countHandles_pos (p := (·.gen == r.gen)) hk (beq_self_eq_true _)
  rw [State.handleRefs]
  omega

theorem alive_of_entry {k : Nat} {e : Entry α} (hk : HandleAt s.entries k e) :
    Alive s.gens e.gen := by
  refine hr.alive_of_handleRefs ?_
  have hpos := countHandles_pos (p := (·.gen == e.gen)) hk (beq_self_eq_true _)
  rw [State.handleRefs]
  omega

theorem alive_of_slab {slab : Slab} (hslab : s.slab = some slab) : Alive s.gens slab.curGen := by
  refine hr.alive_of_handleRefs ?_
  simp [State.handleRefs, hslab]

theorem predRef_eq {g : Nat} (hg : g + 1 < s.gens.length) (halive : Alive s.gens g) :
    predRef s.gens (g + 1) = 1 := by
  obtain ⟨gen, hgen, hgenalive⟩ := halive
  have hnext := hr.nextGen g gen hgen
  rw [if_pos hg] at hnext
  simp [predRef, hgen, hgenalive, hnext]

theorem alive_succ {g : Nat} (hg : g + 1 < s.gens.length) (halive : Alive s.gens g) :
    Alive s.gens (g + 1) := by
  rw [alive_iff_strongAt, hr.strong, hr.predRef_eq hg halive]
  omega

/-- The generations that are alive are the last ones. -/
theorem alive_of_le {g g' : Nat} (halive : Alive s.gens g) (hle : g ≤ g')
    (hlt : g' < s.gens.length) : Alive s.gens g' := by
  induction g', hle using Nat.le_induction with
  | base => exact halive
  | succ g' hle ih => exact hr.alive_succ hlt (ih (by omega))

/-- The last reference to a generation is released only after all its predecessors are gone. -/
theorem not_alive_of_lt {g : Nat} (hgen : h.gen = some g) (hone : strongAt s.gens g = 1) :
    ∀ j < g, ¬Alive s.gens j := by
  intro j hj halive
  obtain ⟨k, rfl⟩ : ∃ k, g = k + 1 := ⟨g - 1, by omega⟩
  have hlt := (hr.alive_of_held hgen).lt_length
  have hpred := hr.predRef_eq hlt (hr.alive_of_le halive (Nat.lt_succ_iff.mp hj) (by omega))
  have hstrong := hr.strong (k + 1)
  rw [hgen, beq_self_eq_true, Bool.toNat_true] at hstrong
  omega

end Refs

end ZprUtils.RcuCslab
