import ZprUtils.Cslab.ConcurrentIter
import ZprUtils.Foundations.ReleaseAcquire

/-!
# The publication of insertions

The table slots, the frontier and the bitmap words are locations of a memory with one writer. An
insertion stores the item, then the frontier, both without an order, and then the bitmap word with
release order; a mark stores the bitmap word with release order. Readers load bitmap words with
acquire order, and slots and the frontier without one. Until an item is finalized no slot is used
twice, so that a slot has at most one item in its history.

A reader that finds a bit set knows the item and the frontier of its insertion, even if it loaded
the word from the store of a later insertion or mark: every store of a word carries the knowledge of
all insertions before it.

## Main definitions

* `Loc`, `Shared` — the locations, and the memory with the writer and the readers.
* `Shared.step` — one store of the writer, or one load of a reader.
* `ReadsSet` — `contains_key_impl` or an iterator finds a bit set.
* `Published` — the invariant of a run.

## Main results

* `Published.step` — one step.
* `publication_order` — a reader that finds a bit set knows the insertion.
-/

namespace ZprUtils

variable {ρ α : Type}

/-! ### The shared locations -/

/-- A location that the writer and the readers share. -/
inductive Loc where
  | slot (i : Nat)
  | frontier
  | word (k : Nat)
  deriving DecidableEq, Repr

namespace Loc

/-- The values of a location. -/
@[reducible] def Val (α : Type) : Loc → Type
  | .slot _ => Entry α
  | .frontier => Nat
  | .word _ => Word

/-- The zeroed allocation. -/
def zeroed : (l : Loc) → l.Val α
  | .slot _ => Entry.nextFree 0
  | .frontier => (0 : Nat)
  | .word _ => (0 : Word)

/-- The order of the readers' loads: `[Gb]` of a bitmap word, `[Gi]` of an item and `[Sm]` of the
frontier. -/
def loadOrder : Loc → LoadOrder
  | .slot _ => .relaxed
  | .frontier => .relaxed
  | .word _ => .acquire

end Loc

/-! ### The writer and the readers -/

/-- What is left to do of an insertion of `x` at `i`. -/
inductive Phase (α : Type) where
  | idle
  | frontier (i : Nat) (x : α)
  | bit (i : Nat) (x : α)

/-- The memory, the slab as the finished operations have left it, the running insertion, and the
view of each reader. -/
structure Shared (ρ α : Type) where
  mem : Memory Loc (Loc.Val α)
  slab : Cslab α
  phase : Phase α
  views : ρ → Loc → Nat

/-- A store of the writer, named after the operation it is part of, or a load of a reader. -/
inductive SharedOp (ρ α : Type) where
  /-- `[Ii]` -/
  | insertItem (i : Nat) (x : α)
  /-- `[Im]` -/
  | insertFrontier
  /-- `[Ib]` -/
  | insertBit
  /-- `[Rb]` -/
  | markRemoved (i : Nat)
  /-- Reader `r` loads message `t` of location `l`. -/
  | load (r : ρ) (l : Loc) (t : Nat)

namespace Shared

/-- A new slab, of which nobody has seen anything but the zeroed memory. -/
def withFixedCapacity (alloc : Alloc) (t : Layout) (n : Nat) : Except RustFault (Shared ρ α) := do
  let slab ← Cslab.withFixedCapacity alloc t n
  return ⟨.init Loc.zeroed, slab, .idle, fun _ => ⊥⟩

/-- The writer's store of the bitmap word of index `i`. -/
def storeWord (s : Shared ρ α) (i : Nat) (f : Word → Word) : Memory Loc (Loc.Val α) :=
  s.mem.store (.word (i / usizeBits)) (f (s.mem.last (.word (i / usizeBits)))) .release

variable [DecidableEq ρ]

/-- One step. The writer's own loads see its newest stores. -/
def step (s : Shared ρ α) : SharedOp ρ α → Option (Shared ρ α)
  | .insertItem i x =>
    match s.phase, s.slab.insert x with
    | .idle, .ok (some j, _) =>
      if j = i then some { s with
        mem := s.mem.store (.slot i) (Entry.item x) .relaxed
        phase := .frontier i x }
      else none
    | _, _ => none
  | .insertFrontier =>
    match s.phase with
    | .frontier i x => some { s with
        mem := if i ≥ s.mem.last .frontier then s.mem.store .frontier (i + 1) .relaxed else s.mem
        phase := .bit i x }
    | _ => none
  | .insertBit =>
    match s.phase with
    | .bit i x =>
      match s.slab.insert x with
      | .ok (_, slab) => some { s with
          mem := s.storeWord i fun mask => mask ||| (1 : Word) <<< (i % usizeBits)
          slab
          phase := .idle }
      | _ => none
    | _ => none
  | .markRemoved i =>
    match s.phase, s.slab.markRemoved i with
    | .idle, .ok slab => some { s with
        mem := s.storeWord i fun mask => mask &&& ~~~((1 : Word) <<< (i % usizeBits))
        slab }
    | _, _ => none
  | .load r l t =>
    match (s.mem.hist l)[t]? with
    | some msg =>
      if s.views r l ≤ t then some { s with
        views := Function.update s.views r (viewAfter (s.views r) l t msg.view l.loadOrder) }
      else none
    | none => none

variable {s s' : Shared ρ α} {i t : Nat} {x : α} {r : ρ} {l : Loc}

theorem step_insertItem (h : s.step (.insertItem i x) = some s') :
    s.phase = .idle ∧ (∃ c, s.slab.insert x = .ok (some i, c)) ∧
      s' = { s with
        mem := s.mem.store (.slot i) (Entry.item x) .relaxed
        phase := .frontier i x } := by
  rw [step] at h
  split at h
  · rename_i j c hphase hinsert
    split_ifs at h with hj
    exact ⟨hphase, ⟨c, hj ▸ hinsert⟩, (Option.some.inj h).symm⟩
  · exact absurd h nofun

theorem step_insertFrontier (h : s.step .insertFrontier = some s') :
    ∃ i x, s.phase = .frontier i x ∧ s' = { s with
      mem := if i ≥ s.mem.last .frontier then s.mem.store .frontier (i + 1) .relaxed else s.mem
      phase := .bit i x } := by
  rw [step] at h
  split at h
  · rename_i i x hphase
    exact ⟨i, x, hphase, (Option.some.inj h).symm⟩
  · exact absurd h nofun

theorem step_insertBit (h : s.step .insertBit = some s') :
    ∃ i x key c, s.phase = .bit i x ∧ s.slab.insert x = .ok (key, c) ∧ s' = { s with
      mem := s.storeWord i fun mask => mask ||| (1 : Word) <<< (i % usizeBits)
      slab := c
      phase := .idle } := by
  rw [step] at h
  split at h
  · rename_i i x hphase
    split at h
    · rename_i key c hinsert
      exact ⟨i, x, key, c, hphase, hinsert, (Option.some.inj h).symm⟩
    · exact absurd h nofun
  · exact absurd h nofun

theorem step_markRemoved (h : s.step (.markRemoved i) = some s') :
    ∃ c, s.phase = .idle ∧ s.slab.markRemoved i = .ok c ∧ s' = { s with
      mem := s.storeWord i fun mask => mask &&& ~~~((1 : Word) <<< (i % usizeBits))
      slab := c } := by
  rw [step] at h
  split at h
  · rename_i c hphase hmark
    exact ⟨c, hphase, hmark, (Option.some.inj h).symm⟩
  · exact absurd h nofun

theorem step_load (h : s.step (.load r l t) = some s') :
    ∃ msg, (s.mem.hist l)[t]? = some msg ∧ s.views r l ≤ t ∧ s' = { s with
      views := Function.update s.views r (viewAfter (s.views r) l t msg.view l.loadOrder) } := by
  rw [step] at h
  split at h
  · rename_i msg hmsg
    split_ifs at h with hle
    exact ⟨msg, hmsg, hle, (Option.some.inj h).symm⟩
  · exact absurd h nofun

/-- A step of a run. -/
def Step (s : Shared ρ α) (op : SharedOp ρ α) (s' : Shared ρ α) : Prop := s.step op = some s'

end Shared

/-! ### The invariant -/

namespace Shared

/-- The item whose store `[Ii]` into slot `i` has been made. -/
def stored (s : Shared ρ α) (i : Nat) : Option α :=
  match s.phase with
  | .idle => (s.slab.slot i).item
  | .frontier j x | .bit j x => if i = j then some x else (s.slab.slot i).item

/-- The newest value of the frontier. -/
def frontierStored (s : Shared ρ α) : Nat :=
  match s.phase with
  | .bit i _ => i + 1
  | _ => s.slab.storage.frontier

end Shared

/-- What holds of message `t` of a location when the indices below `bound` have been inserted: the
frontier counts the insertions, and a bitmap word carries the knowledge of the item and of the
frontier of each of its bits. -/
def MessageOk (bound : Nat) : (l : Loc) → Nat → Message Loc (l.Val α) → Prop
  | .slot _, _, _ => True
  | .frontier, t, msg => msg.val = t
  | .word k, _, msg => ∀ i, i / usizeBits = k → msg.val.getLsbD (i % usizeBits) = true →
    i < bound ∧ 1 ≤ msg.view (.slot i) ∧ i + 1 ≤ msg.view .frontier

theorem MessageOk.mono {bound bound' : Nat} (hle : bound ≤ bound') {l : Loc} {t : Nat}
    {msg : Message Loc (l.Val α)} (h : MessageOk bound l t msg) : MessageOk bound' l t msg := by
  cases l with
  | slot i => trivial
  | frontier => exact h
  | word k =>
    intro i hi hb
    obtain ⟨hlt, hview⟩ := h i hi hb
    exact ⟨hlt.trans_le hle, hview⟩

/-- What holds after the steps `es`. -/
structure Published (es : List (SharedOp ρ α)) (s : Shared ρ α) : Prop where
  slab : s.slab.Inv
    (List.range' s.slab.storage.frontier (s.slab.storage.size - s.slab.storage.frontier))
  phase : ∀ i x, s.phase = .frontier i x ∨ s.phase = .bit i x → i = s.slab.storage.frontier ∧
    ∃ c, s.slab.insert x = .ok (some i, c)
  slots : ∀ i, s.mem.hist (.slot i) =
    ⟨.nextFree 0, ⊥⟩ :: (s.stored i).toList.map fun x => ⟨.item x, ⊥⟩
  frontier : (s.mem.hist .frontier).length = s.frontierStored + 1
  words : ∀ k word, s.slab.storage.bitmap[k]? = some word → s.mem.last (.word k) = word
  messages : ∀ l t msg, (s.mem.hist l)[t]? = some msg → MessageOk s.slab.storage.frontier l t msg
  logged : ∀ i x, s.stored i = some x → .insertItem i x ∈ es

namespace Published

variable {es : List (SharedOp ρ α)} {s s' : Shared ρ α}

theorem init {t : Layout} {n : Nat} (h : Shared.withFixedCapacity .memory t n = .ok s) :
    Published [] s := by
  obtain ⟨c, hc, hs⟩ := except_bind_eq_ok.mp h
  obtain rfl := Except.ok.inj hs
  obtain ⟨hinv, hsize, hfrontier, hslot⟩ := Cslab.inv_withFixedCapacity hc
  have hstored : ∀ i, Shared.stored (⟨.init Loc.zeroed, c, .idle, fun _ => ⊥⟩ : Shared ρ α) i =
      none := by
    intro i
    simp only [Shared.stored, hslot]
    rfl
  refine ⟨?_, fun i x hphase => ?_, fun i => ?_, ?_, fun k word hword => ?_, ?_, fun i x hx => ?_⟩
  · simp only [hfrontier, hsize, Nat.sub_zero, ← List.range_eq_range']
    exact hinv
  · rcases hphase with hphase | hphase <;> exact absurd hphase nofun
  · rw [hstored]
    rfl
  · simp only [Shared.frontierStored, hfrontier]
    rfl
  · obtain ⟨-, -, rfl⟩ := Cslab.withFixedCapacity_eq_ok hc
    obtain rfl := List.eq_of_mem_replicate (List.mem_of_getElem? hword)
    rfl
  · intro l t msg hmsg
    obtain ⟨rfl, rfl⟩ : t = 0 ∧ (⟨l.zeroed, ⊥⟩ : Message Loc (l.Val α)) = msg := by
      cases t with
      | zero => exact ⟨rfl, Option.some.inj hmsg⟩
      | succ t => exact absurd hmsg nofun
    cases l with
    | slot i => trivial
    | frontier => rfl
    | word k =>
      intro i _ hb
      exact absurd (hb.symm.trans BitVec.getLsbD_zero) nofun
  · rw [hstored] at hx
    exact absurd hx nofun

section

variable (h : Published es s)
include h

theorem exists_stored {j : Nat} (hj : j < s.frontierStored) : ∃ x, s.stored j = some x := by
  have hslab : j < s.slab.storage.frontier → ∃ x, (s.slab.slot j).item = some x := by
    intro hj
    have hnotfree : s.slab.slot j ≠ .free := by
      intro hfree
      have hmem := h.slab.mem_free_iff.mpr ⟨hj.trans_le h.slab.frontier_le, hfree⟩
      have hle := (List.mem_range'_1.mp hmem).1
      omega
    cases hslot : s.slab.slot j with
    | free => exact absurd hslot hnotfree
    | live x => exact ⟨x, rfl⟩
    | pending x => exact ⟨x, rfl⟩
  cases hphase : s.phase with
  | idle =>
    simp only [Shared.frontierStored, hphase] at hj
    simp only [Shared.stored, hphase]
    exact hslab hj
  | frontier i x =>
    simp only [Shared.frontierStored, hphase] at hj
    simp only [Shared.stored, hphase]
    split_ifs
    · exact ⟨x, rfl⟩
    · exact hslab hj
  | bit i x =>
    obtain ⟨hi, -⟩ := h.phase i x (Or.inr hphase)
    simp only [Shared.frontierStored, hphase] at hj
    simp only [Shared.stored, hphase]
    split_ifs
    · exact ⟨x, rfl⟩
    · exact hslab (by omega)

theorem frontier_le_frontierStored : s.slab.storage.frontier ≤ s.frontierStored := by
  cases hphase : s.phase with
  | idle => simp only [Shared.frontierStored, hphase, le_refl]
  | frontier i x => simp only [Shared.frontierStored, hphase, le_refl]
  | bit i x =>
    obtain ⟨hi, -⟩ := h.phase i x (Or.inr hphase)
    simp only [Shared.frontierStored, hphase]
    omega

/-- The writer knows the item and the frontier of every insertion that is finished, for its own
stores come one after the other. -/
theorem known_now {j : Nat} (hj : j < s.frontierStored) :
    1 ≤ s.mem.now (.slot j) ∧ j + 1 ≤ s.mem.now .frontier := by
  obtain ⟨x, hx⟩ := h.exists_stored hj
  constructor
  · rw [Memory.now, h.slots, hx]
    exact le_rfl
  · rw [Memory.now, h.frontier]
    exact hj

theorem last_frontier : s.mem.last .frontier = s.frontierStored := by
  have hlen := h.frontier
  have hlast : (s.mem.hist .frontier)[s.frontierStored]? =
      some ((s.mem.hist .frontier).getLast (s.mem.hist_ne_nil _)) := by
    rw [List.getLast_eq_getElem, List.getElem?_eq_some_iff]
    exact ⟨by omega, by congr 1; omega⟩
  exact h.messages .frontier _ _ hlast

end

/-- **A store of a bitmap word** carries the knowledge of all its bits: the slots of the bits that
are set, and a frontier above them, are stored before it, in the view that the store releases. -/
theorem messageOk_word {m : Memory Loc (Loc.Val α)} {c : Cslab α} {free : List Nat} {k t : Nat}
    {word : Word} (hinv : c.Inv free) (hword : c.storage.bitmap[k]? = some word)
    (hknown : ∀ j < c.storage.frontier, 1 ≤ m.now (.slot j) ∧ j + 1 ≤ m.now .frontier) :
    MessageOk (α := α) c.storage.frontier (.word k) t ⟨word, m.now⟩ := by
  rintro i rfl hb
  have hbit : c.storage.bit i = true := (bitAt_eq_getLsbD hword).trans hb
  obtain ⟨x, hx⟩ := hinv.item_of_bit i hbit
  have hlt := hinv.lt_frontier i x hx
  exact ⟨hlt, hknown i hlt⟩

/-- The first free slot is the frontier. -/
theorem insert_eq {i : Nat} {x : α} {key : Option Nat} {c c' : Cslab α} (h : Published es s)
    (hinsert : s.slab.insert x = .ok (some i, c)) (hinsert' : s.slab.insert x = .ok (key, c')) :
    i = s.slab.storage.frontier ∧ (s.slab.slot i).item = none ∧
      c'.Inv (List.range' c'.storage.frontier (c'.storage.size - c'.storage.frontier)) ∧
      c'.slot = Function.update s.slab.slot i (.live x) ∧ c'.storage.frontier = i + 1 ∧
      ∃ mask, s.slab.storage.bitmap[i / usizeBits]? = some mask ∧
        c'.storage.bitmap = s.slab.storage.bitmap.set (i / usizeBits)
          (mask ||| (1 : Word) <<< (i % usizeBits)) := by
  obtain ⟨rfl, rfl⟩ : some i = key ∧ c = c' := by simpa [hinsert] using hinsert'
  obtain ⟨rest, hfree, hinv, hslot, hsize, hslotfree⟩ := h.slab.of_insert hinsert
  have hlen : s.slab.storage.size - s.slab.storage.frontier ≠ 0 := by
    intro hzero
    rw [hzero] at hfree
    exact absurd hfree nofun
  obtain ⟨n, hn⟩ := Nat.exists_eq_succ_of_ne_zero hlen
  rw [hn, List.range'_succ] at hfree
  obtain ⟨hi, hrest⟩ := List.cons.inj hfree
  have hslab := h.slab
  rw [hn, List.range'_succ, hi] at hslab
  obtain ⟨next, mask, -, -, hmask, -, hok⟩ := hslab.insert_eq_ok x
  rw [hinsert, Except.ok.injEq, Prod.mk.injEq] at hok
  obtain ⟨-, rfl⟩ := hok
  have hfrontier : (s.slab.inserted i next mask x).storage.frontier = i + 1 := by
    rw [Cslab.inserted, ← hi]
    exact Nat.max_eq_right (Nat.le_succ _)
  refine ⟨hi.symm, by rw [hslotfree]; rfl, ?_, hslot, hfrontier, mask, hmask, rfl⟩
  rw [hfrontier, hsize, show s.slab.storage.size - (i + 1) = n by omega]
  rw [← hrest, hi] at hinv
  exact hinv

variable [DecidableEq ρ]

/-- The store `[Ii]`. -/
theorem insertItem {i : Nat} {x : α} (h : Published es s)
    (hstep : s.step (.insertItem i x) = some s') :
    Published (es ++ [.insertItem i x]) s' := by
  obtain ⟨hidle, ⟨c, hinsert⟩, rfl⟩ := Shared.step_insertItem hstep
  obtain ⟨hi, hnone, -⟩ := h.insert_eq hinsert hinsert
  have hstored : ∀ j, Shared.stored { s with
      mem := s.mem.store (.slot i) (Entry.item x) .relaxed, phase := .frontier i x } j =
      if j = i then some x else s.stored j := by
    intro j
    simp only [Shared.stored, hidle]
  have hfrontier : s.frontierStored = s.slab.storage.frontier := by
    simp only [Shared.frontierStored, hidle]
  refine ⟨h.slab, fun j y hphase => ?_, fun j => ?_, ?_, fun k word hword => ?_, ?_,
    fun j y hy => ?_⟩
  · rcases hphase with hphase | hphase
    · obtain ⟨rfl, rfl⟩ := Phase.frontier.inj hphase
      exact ⟨hi, c, hinsert⟩
    · exact absurd hphase nofun
  · have hslots := h.slots j
    rw [hstored]
    by_cases hj : j = i
    · subst hj
      have hstored : s.stored j = none := by
        simp only [Shared.stored, hidle]
        exact hnone
      rw [hstored] at hslots
      rw [Memory.hist_store_self, hslots, if_pos rfl]
      rfl
    · rw [if_neg hj, Memory.hist_store_of_ne (by simpa using hj)]
      exact hslots
  · rw [Memory.hist_store_of_ne (show Loc.frontier ≠ .slot i from nofun), h.frontier, hfrontier]
    rfl
  · rw [Memory.last_store_of_ne (show Loc.word k ≠ .slot i from nofun)]
    exact h.words k word hword
  · exact Memory.forall_store h.messages trivial
  · rw [hstored] at hy
    split_ifs at hy with hj
    · obtain rfl := Option.some.inj hy
      exact hj ▸ List.mem_append_right _ (List.mem_singleton_self _)
    · exact List.mem_append_left _ (h.logged j y hy)

/-- The store `[Im]`. -/
theorem insertFrontier (h : Published es s) (hstep : s.step .insertFrontier = some s') :
    Published (es ++ [.insertFrontier]) s' := by
  obtain ⟨i, x, hphase, rfl⟩ := Shared.step_insertFrontier hstep
  obtain ⟨hi, hinsert⟩ := h.phase i x (Or.inl hphase)
  have hfrontier : s.frontierStored = i := by
    simp only [Shared.frontierStored, hphase, hi]
  have hlength := h.frontier
  have hge : i ≥ s.mem.last .frontier := (h.last_frontier.trans hfrontier).le
  have hstored : ∀ j mem, Shared.stored { s with mem, phase := .bit i x } j = s.stored j := by
    intro j mem
    simp only [Shared.stored, hphase]
  rw [if_pos hge]
  refine ⟨h.slab, fun j y hphase' => ?_, fun j => ?_, ?_, fun k word hword => ?_, ?_,
    fun j y hy => ?_⟩
  · rcases hphase' with hphase' | hphase'
    · exact absurd hphase' nofun
    · obtain ⟨rfl, rfl⟩ := Phase.bit.inj hphase'
      exact ⟨hi, hinsert⟩
  · rw [hstored, Memory.hist_store_of_ne (show Loc.slot j ≠ .frontier from nofun)]
    exact h.slots j
  · rw [Memory.hist_store_self, List.length_append, hlength, hfrontier]
    rfl
  · rw [Memory.last_store_of_ne (show Loc.word k ≠ .frontier from nofun)]
    exact h.words k word hword
  · refine Memory.forall_store h.messages ?_
    rw [hlength, hfrontier]
    rfl
  · rw [hstored] at hy
    exact List.mem_append_left _ (h.logged j y hy)

omit [DecidableEq ρ] in
/-- The store of a bitmap word at the end of an operation, `[Ib]` or `[Rb]`, that leaves the slab
`c`. -/
theorem storeWord {i : Nat} {f : Word → Word} {c : Cslab α} {mask : Word} {op : SharedOp ρ α}
    (h : Published es s)
    (hinv : c.Inv (List.range' c.storage.frontier (c.storage.size - c.storage.frontier)))
    (hfrontier : c.storage.frontier = s.frontierStored)
    (hle : s.slab.storage.frontier ≤ c.storage.frontier)
    (hstored : ∀ j, (c.slot j).item = s.stored j)
    (hmask : s.slab.storage.bitmap[i / usizeBits]? = some mask)
    (hbitmap : c.storage.bitmap = s.slab.storage.bitmap.set (i / usizeBits) (f mask)) :
    Published (es ++ [op]) { s with mem := s.storeWord i f, slab := c, phase := .idle } := by
  have hlast : s.mem.last (.word (i / usizeBits)) = mask := h.words _ _ hmask
  have hword : c.storage.bitmap[i / usizeBits]? = some (f mask) := by
    rw [hbitmap, List.getElem?_set_self (List.getElem?_eq_some_iff.mp hmask).1]
  refine ⟨hinv, fun j y hphase => ?_, fun j => ?_, ?_, fun k word hk => ?_, ?_, fun j y hy => ?_⟩
  · rcases hphase with hphase | hphase <;> exact absurd hphase nofun
  · rw [Shared.storeWord, Memory.hist_store_of_ne (show Loc.slot j ≠ .word _ from nofun), h.slots,
      ← hstored]
    rfl
  · rw [Shared.storeWord, Memory.hist_store_of_ne (show Loc.frontier ≠ .word _ from nofun),
      h.frontier, ← hfrontier]
    rfl
  · by_cases hki : k = i / usizeBits
    · subst hki
      rw [Shared.storeWord, Memory.last_store_self, hlast]
      exact Option.some.inj (hword.symm.trans hk)
    · rw [Shared.storeWord, Memory.last_store_of_ne (by simpa using hki)]
      refine h.words k word ?_
      rwa [hbitmap, List.getElem?_set_ne (Ne.symm hki)] at hk
  · refine Memory.forall_store (fun l t msg hmsg => (h.messages l t msg hmsg).mono hle) ?_
    rw [hlast]
    exact messageOk_word hinv hword fun j hj => h.known_now (hfrontier ▸ hj)
  · exact List.mem_append_left _ (h.logged j y ((hstored j).symm.trans hy))

/-- The store `[Ib]`. -/
theorem insertBit (h : Published es s) (hstep : s.step .insertBit = some s') :
    Published (es ++ [.insertBit]) s' := by
  obtain ⟨i, x, key, c, hphase, hinsert', rfl⟩ := Shared.step_insertBit hstep
  obtain ⟨hi, c', hinsert⟩ := h.phase i x (Or.inr hphase)
  obtain ⟨-, -, hinv, hslot, hfrontier, mask, hmask, hbitmap⟩ := h.insert_eq hinsert hinsert'
  refine h.storeWord hinv ?_ (by omega) (fun j => ?_) hmask hbitmap
  · simp only [Shared.frontierStored, hphase, hfrontier]
  · simp only [Shared.stored, hphase, hslot]
    by_cases hj : j = i
    · rw [if_pos hj, hj, Function.update_self]
      rfl
    · rw [if_neg hj, Function.update_of_ne hj]

/-- The store `[Rb]`. -/
theorem markRemoved {i : Nat} (h : Published es s) (hstep : s.step (.markRemoved i) = some s') :
    Published (es ++ [.markRemoved i]) s' := by
  obtain ⟨c, hidle, hmark, rfl⟩ := Shared.step_markRemoved hstep
  obtain ⟨x, hlive, hinv, hslot, -⟩ := h.slab.of_markRemoved hmark
  obtain ⟨mask, hmask, hstorage⟩ := Cslab.markRemoved_storage hmark
  have hfrontier : c.storage.frontier = s.slab.storage.frontier := by rw [hstorage]
  have hpublished : Published (es ++ [.markRemoved i]) { s with
      mem := s.storeWord i fun mask => mask &&& ~~~((1 : Word) <<< (i % usizeBits))
      slab := c, phase := .idle } := by
    refine h.storeWord ?_ ?_ hfrontier.ge (fun j => ?_) hmask (by rw [hstorage])
    · rw [hstorage]
      exact hinv
    · simp only [Shared.frontierStored, hidle, hfrontier]
    · simp only [Shared.stored, hidle, hslot]
      by_cases hj : j = i
      · rw [hj, Function.update_self, hlive]
        rfl
      · rw [Function.update_of_ne hj]
  rwa [← hidle] at hpublished

/-- **One step** of the writer or of a reader. A store adds a message that carries what the writer
knows by then; a load adds what its message carries to the view of its reader. -/
theorem step {op : SharedOp ρ α} (h : Published es s) (hstep : s.Step op s') :
    Published (es ++ [op]) s' := by
  cases op with
  | insertItem i x => exact h.insertItem hstep
  | insertFrontier => exact h.insertFrontier hstep
  | insertBit => exact h.insertBit hstep
  | markRemoved i => exact h.markRemoved hstep
  | load r l t =>
    obtain ⟨msg, -, -, rfl⟩ := Shared.step_load hstep
    exact ⟨h.slab, h.phase, h.slots, h.frontier, h.words, h.messages,
      fun i x hx => List.mem_append_left _ (h.logged i x hx)⟩

end Published

/-! ### Readers -/

/-- The code reads bit `i` as set in the value `word` that it has loaded from the bitmap word `k`:
in the test of `contains_key_impl`, or in a round of an iterator, from either end. -/
inductive ReadsSet : Nat → Word → Nat → Prop
  | containsKey {word : Word} {i : Nat}
      (htest : (word >>> (i % usizeBits)) &&& (1 : Word) ≠ (0 : Word)) :
      ReadsSet (i / usizeBits) word i
  | found {word : Word} {i : Nat} {it it' : Iter} {e : IterEnd} (hlt : it.head < it.tail)
      (hfound : it.round word e = .found i it') : ReadsSet (it.wordIndex e) word i

/-- An index that a round of an iterator finds has its bit set in the word of the round. This is
what ties the loads of the code to the loads of the memory model. -/
theorem bit_of_round_found {word : Word} {i : Nat} {it it' : Iter} {e : IterEnd}
    (hlt : it.head < it.tail) (hfound : it.round word e = .found i it') :
    it.wordIndex e = i / usizeBits ∧ word.getLsbD (i % usizeBits) = true := by
  -- a bitmap that has no other bits than those of the word
  have hword : ∀ k, (List.replicate k (0 : Word) ++ [word])[k]? = some word := by simp
  have hbit : bitAt (List.replicate (it.wordIndex e) (0 : Word) ++ [word]) i = true := by
    cases e with
    | front =>
      have hspec := Iter.nextRound_spec (hword _) hlt
      rw [show it.nextRound word = .found i it' from hfound] at hspec
      exact hspec.2.2.1
    | back =>
      have hspec := Iter.nextBackRound_spec (hword _) hlt
      rw [show it.nextBackRound word = .found i it' from hfound] at hspec
      exact hspec.2.2.1
  obtain ⟨word', hword', hset⟩ := getElem?_of_bitAt hbit
  rw [List.getElem?_append, List.length_replicate] at hword'
  split_ifs at hword' with hlt'
  · obtain rfl := List.eq_of_mem_replicate (List.mem_of_getElem? hword')
    exact absurd (hset.symm.trans BitVec.getLsbD_zero) nofun
  · have heq := (List.getElem?_eq_some_iff.mp hword').1
    rw [List.length_singleton] at heq
    rw [show i / usizeBits - it.wordIndex e = 0 by omega, List.getElem?_cons_zero,
      Option.some.injEq] at hword'
    exact ⟨by omega, hword' ▸ hset⟩

/-- Both tests read the bit: the lookup reads every bit that is set in its word, and an iterator
finds no other index than that of such a bit. -/
theorem readsSet_iff {k : Nat} {word : Word} {i : Nat} :
    ReadsSet k word i ↔ k = i / usizeBits ∧ word.getLsbD (i % usizeBits) = true := by
  constructor
  · rintro (htest | ⟨hlt, hfound⟩)
    · refine ⟨rfl, ?_⟩
      by_contra hnot
      exact htest ((ushiftRight_and_one word _).trans (if_neg hnot))
    · exact bit_of_round_found hlt hfound
  · rintro ⟨rfl, hbit⟩
    refine .containsKey fun hzero => ?_
    have hone := (ushiftRight_and_one word (i % usizeBits)).trans (if_pos hbit)
    exact one_ne_zero_of_pos usizeBits_pos (hone.symm.trans hzero)

section

variable [DecidableEq ρ] {es : List (SharedOp ρ α)} {s s' : Shared ρ α} {r : ρ}

/-- Every message of `s` is where it was, and no reader has forgotten anything. -/
structure Shared.Later (s s' : Shared ρ α) : Prop where
  hist : ∀ (l : Loc) (t : Nat) (msg : Message Loc (l.Val α)),
    (s.mem.hist l)[t]? = some msg → (s'.mem.hist l)[t]? = some msg
  views : ∀ r, s.views r ≤ s'.views r

theorem Shared.later_of_step {op : SharedOp ρ α} (hstep : s.Step op s') : s.Later s' := by
  cases op with
  | insertItem i x =>
    obtain ⟨-, -, rfl⟩ := Shared.step_insertItem hstep
    exact ⟨fun l t msg h => Memory.getElem?_store h, fun r => le_rfl⟩
  | insertFrontier =>
    obtain ⟨i, x, -, rfl⟩ := Shared.step_insertFrontier hstep
    refine ⟨fun l t msg h => ?_, fun r => le_rfl⟩
    simp only
    split_ifs
    · exact Memory.getElem?_store h
    · exact h
  | insertBit =>
    obtain ⟨i, x, key, c, -, -, rfl⟩ := Shared.step_insertBit hstep
    exact ⟨fun l t msg h => Memory.getElem?_store h, fun r => le_rfl⟩
  | markRemoved i =>
    obtain ⟨c, -, -, rfl⟩ := Shared.step_markRemoved hstep
    exact ⟨fun l t msg h => Memory.getElem?_store h, fun r => le_rfl⟩
  | load r l t =>
    obtain ⟨msg, -, hle, rfl⟩ := Shared.step_load hstep
    refine ⟨fun _ _ _ h => h, fun r' => ?_⟩
    change s.views r' ≤ Function.update s.views r _ r'
    by_cases hr : r' = r
    · subst hr
      rw [Function.update_self]
      exact le_viewAfter hle _
    · rw [Function.update_of_ne hr]

theorem Shared.later_of_steps (hrun : Steps Shared.Step s es s') : s.Later s' := by
  induction hrun with
  | nil => exact ⟨fun _ _ _ h => h, fun _ => le_rfl⟩
  | snoc _ hstep ih =>
    have hlater := Shared.later_of_step hstep
    exact ⟨fun l t msg h => hlater.hist l t msg (ih.hist l t msg h),
      fun r => (ih.views r).trans (hlater.views r)⟩

theorem published_of_steps {t : Layout} {n : Nat} {s₀ : Shared ρ α}
    (hnew : Shared.withFixedCapacity .memory t n = .ok s₀) (hrun : Steps Shared.Step s₀ es s) :
    Published es s :=
  hrun.history (fun _ _ _ _ h hstep => h.step hstep) (.init hnew)

namespace Published

variable {i t : Nat} {x : α}

/-- A reader that knows the store of an item loads that item: a slot is stored to once, and a load
never goes back behind what the reader knows. -/
theorem load_slot (h : Published es s) (hx : s.stored i = some x) (hknown : 1 ≤ s.views r (.slot i))
    (hload : s.Step (.load r (.slot i) t) s') :
    ∃ m, (s.mem.hist (.slot i))[t]? = some m ∧ m.val = .item x := by
  obtain ⟨m, hm, hle, -⟩ := Shared.step_load hload
  refine ⟨m, hm, ?_⟩
  have hslots := h.slots i
  rw [hx] at hslots
  obtain rfl : t = 1 := by
    have hlt := (List.getElem?_eq_some_iff.mp hm).1
    rw [hslots] at hlt
    have hlt : t < 2 := hlt
    omega
  rw [hslots] at hm
  obtain rfl := Option.some.inj hm
  rfl

/-- A reader that knows the frontier of an insertion creates iterators that reach it. -/
theorem load_frontier (h : Published es s) (hknown : i + 1 ≤ s.views r .frontier)
    (hload : s.Step (.load r .frontier t) s') :
    ∃ m, (s.mem.hist .frontier)[t]? = some m ∧
      i < (Iter.new { s.slab.storage with frontier := m.val }).tail := by
  obtain ⟨m, hm, hle, -⟩ := Shared.step_load hload
  have hval : m.val = t := h.messages _ _ _ hm
  exact ⟨m, hm, by rw [Iter.new, hval]; exact hknown.trans hle⟩

end Published

/-- **Publication.** In every run of insertions and marks with any loads of any readers: when reader
`r` loads a bitmap word in which a lookup or an iterator of the code reads bit `i` as set, an item
`x` was inserted at `i`, the reader knows its store `[Ii]`, which is message `1` of the slot, and
the store `[Im]` of its insertion, which is message `i + 1` of the frontier. From then on every load
of the slot by this reader returns `x`, and every iterator that it creates ends after `i`. -/
theorem publication_order {t : Layout} {n k i time : Nat} {s₀ : Shared ρ α}
    {msg : Message Loc (Loc.Val α (.word k))}
    (hnew : Shared.withFixedCapacity .memory t n = .ok s₀) (hrun : Steps Shared.Step s₀ es s)
    (hload : s.Step (.load r (.word k) time) s') (hmsg : (s.mem.hist (.word k))[time]? = some msg)
    (hset : ReadsSet k msg.val i) :
    ∃ x, .insertItem i x ∈ es ∧
      (∃ m, (s'.mem.hist (.slot i))[1]? = some m ∧ m.val = .item x ∧ 1 ≤ s'.views r (.slot i)) ∧
      (∃ m, (s'.mem.hist .frontier)[i + 1]? = some m ∧ m.val = i + 1 ∧
        i + 1 ≤ s'.views r .frontier) ∧
      ∀ es' s₁ s₂ time', Steps Shared.Step s' es' s₁ →
        (s₁.Step (.load r (.slot i) time') s₂ →
          ∃ m, (s₁.mem.hist (.slot i))[time']? = some m ∧ m.val = .item x) ∧
        (s₁.Step (.load r .frontier time') s₂ →
          ∃ m, (s₁.mem.hist .frontier)[time']? = some m ∧
            i < (Iter.new { s₁.slab.storage with frontier := m.val }).tail) := by
  have h := published_of_steps hnew hrun
  obtain ⟨rfl, hbit⟩ := readsSet_iff.mp hset
  -- what the message carries, and what the reader learns from it
  obtain ⟨hlt, hslot, hfrontier⟩ := h.messages _ _ _ hmsg i rfl hbit
  have hview : msg.view ≤ s'.views r := by
    obtain ⟨msg', hmsg', -, rfl⟩ := Shared.step_load hload
    obtain rfl := Option.some.inj (hmsg.symm.trans hmsg')
    change msg.view ≤ Function.update s.views r _ r
    rw [Function.update_self]
    exact view_le_viewAfter
  have hlater := Shared.later_of_step hload
  have hlt := hlt.trans_le h.frontier_le_frontierStored
  obtain ⟨x, hx⟩ := h.exists_stored hlt
  have hitem : (s.mem.hist (.slot i))[1]? = some ⟨.item x, ⊥⟩ := by
    rw [h.slots, hx]
    rfl
  obtain ⟨m, hm⟩ : ∃ m, (s.mem.hist .frontier)[i + 1]? = some m := by
    refine ⟨_, List.getElem?_eq_getElem ?_⟩
    rw [h.frontier]
    omega
  refine ⟨x, h.logged i x hx, ⟨_, hlater.hist _ _ _ hitem, rfl, hslot.trans (hview _)⟩,
    ⟨m, hlater.hist _ _ _ hm, h.messages _ _ _ hm, hfrontier.trans (hview _)⟩,
    fun es' s₁ s₂ time' hrun' => ?_⟩
  have h₁ := published_of_steps hnew ((hrun.snoc hload).append hrun')
  have hlater' := Shared.later_of_steps hrun'
  have hx₁ : s₁.stored i = some x := by
    have hitem₁ := hlater'.hist _ _ _ (hlater.hist _ _ _ hitem)
    rw [h₁.slots] at hitem₁
    cases hstored : s₁.stored i with
    | none =>
      rw [hstored] at hitem₁
      exact absurd hitem₁ nofun
    | some y =>
      rw [hstored] at hitem₁
      simpa using hitem₁
  exact ⟨h₁.load_slot hx₁ ((hslot.trans (hview _)).trans (hlater'.views r _)),
    h₁.load_frontier ((hfrontier.trans (hview _)).trans (hlater'.views r _))⟩

theorem Shared.steps_of_foldlM {ops : List (SharedOp ρ α)}
    (h : ops.foldlM Shared.step s = some s') :
    Steps Shared.Step s ops s' := by
  induction ops generalizing s with
  | nil =>
    obtain rfl := Option.some.inj h
    exact .nil s
  | cons op ops ih =>
    obtain ⟨s₁, hstep, hrest⟩ := Option.bind_eq_some_iff.mp h
    exact Steps.append (.single hstep) (ih hrest)

end

/-- Items are inserted at `0` and `1` and the second one is marked. A reader that loads the bitmap
word from the store of the mark finds bit `0` set and knows the item at `0`. -/
theorem publication_order_mark :
    ∃ (s₀ s s' : Shared Unit Nat) (es : List (SharedOp Unit Nat))
      (msg : Message Loc (Loc.Val Nat (.word 0))) (x : Nat),
      Shared.withFixedCapacity .memory ⟨4, 4⟩ 2 = .ok s₀ ∧ Steps Shared.Step s₀ es s ∧
      s.Step (.load () (.word 0) 3) s' ∧ (s.mem.hist (.word 0))[3]? = some msg ∧
      ReadsSet 0 msg.val 0 ∧ .insertItem 0 x ∈ es ∧ 1 ≤ s'.views () (.slot 0) := by
  have hobserve : (do
      let s₀ ← (@Shared.withFixedCapacity Unit Nat .memory ⟨4, 4⟩ 2).toOption
      let s ← [SharedOp.insertItem 0 7, .insertFrontier, .insertBit, .insertItem 1 8,
        .insertFrontier, .insertBit, .markRemoved 1].foldlM Shared.step s₀
      let _ ← s.step (.load () (.word 0) 3)
      let msg ← (s.mem.hist (.word 0))[3]?
      return msg.val.getLsbD 0) = some true := by
    decide +kernel
  simp only [Option.bind_eq_bind, Option.bind_eq_some_iff, except_toOption_eq_some] at hobserve
  obtain ⟨s₀, hnew, s, hrun, s', hload, msg, hmsg, hbit⟩ := hobserve
  have hrun := Shared.steps_of_foldlM hrun
  have hset : ReadsSet 0 msg.val 0 := readsSet_iff.mpr ⟨rfl, Option.some.inj hbit⟩
  obtain ⟨x, hx, ⟨m, -, -, hknown⟩, -⟩ := publication_order hnew hrun hload hmsg hset
  exact ⟨s₀, s, s', _, msg, x, hnew, hrun, hload, hmsg, hset, hx, hknown⟩

end ZprUtils
