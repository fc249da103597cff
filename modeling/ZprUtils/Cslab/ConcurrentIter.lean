import ZprUtils.Cslab.ExclIter

/-!
# Iteration beside the writer

A reader's iterator shares the slab with the writer: between any two loads of a bitmap word the
writer may insert, mark and finalize. A call on the iterator is therefore a sequence of loads, each
of which is one round of its loop on the bitmap of that moment. The reference that is returned with
an index is the address of its slot, so that the index stands for both.

## Main definitions

* `Scan`, `Scan.step` — the slab, the iterator and the running call; one load, the start of a call,
  or an operation of the writer.
* `Iter.Moves` — what one load does to the range of the iterator.
* `returned` — the indices that one end has returned.
* `ScanInv` — the invariant of a run.

## Main results

* `Iter.moves_round` — one load.
* `Scan.step_cases` — one step.
* `callSteps_of_call` — the calls on a slab that does not change are sequences of such steps.
* `iter_interleaved` — every run.
-/

namespace ZprUtils

variable {α : Type}

/-! ### The loads of a call -/

namespace Iter

/-- The bitmap word that is loaded by a call on the end `e`. -/
def wordIndex (it : Iter) : IterEnd → Nat
  | .front => it.head / usizeBits
  | .back => (it.tail - 1) / usizeBits

/-- The distance by which the word is shifted. -/
def shift (it : Iter) : IterEnd → Nat
  | .front => it.head % usizeBits
  | .back => usizeBits - ((it.tail - 1) % usizeBits + 1)

/-- One round of the loop of a call on the end `e`. -/
def round (it : Iter) (word : Word) : IterEnd → Round
  | .front => it.nextRound word
  | .back => it.nextBackRound word

theorem shift_lt (it : Iter) (e : IterEnd) : it.shift e < usizeBits := by
  cases e with
  | front => exact Nat.mod_lt _ usizeBits_pos
  | back => exact Nat.sub_lt usizeBits_pos (Nat.succ_pos _)

end Iter

/-- A slab with an iterator of a reader, and the end of the call on it that is running. -/
structure Scan (α : Type) where
  slab : Cslab α
  iter : Iter
  running : Option IterEnd

/-- A step of the writer or of the reader. -/
inductive ScanOp (α : Type) where
  | write (op : SlabOp α)
  | call (e : IterEnd)
  | load

/-- The step loads a bitmap word. -/
def ScanOp.isLoad : ScanOp α → Bool
  | .load => true
  | _ => false

/-- The step is one of the writer. -/
def ScanOp.isWrite : ScanOp α → Bool
  | .write _ => true
  | _ => false

namespace Scan

/-- The outcome of a round: what the call returns, if it does. -/
def afterRound (s : Scan α) (e : IterEnd) : Round → Option (IterEnd × Option Nat) × Scan α
  | .done iter => (some (e, none), { s with iter, running := none })
  | .found idx iter => (some (e, some idx), { s with iter, running := none })
  | .more iter => (none, { s with iter })

/-- One step, with what a call returns in it. A call starts when no other one is running; an
operation of the writer may come at any time. -/
def step (s : Scan α) :
    ScanOp α → Option (Except RustFault (Option (IterEnd × Option Nat) × Scan α))
  | .write op => some do
    let (_, slab) ← s.slab.step op
    return (none, { s with slab })
  | .call e =>
    if s.running.isSome then none
    else if s.iter.head ≥ s.iter.tail then some (.ok (some (e, none), s))
    else some (.ok (none, { s with running := some e }))
  | .load => s.running.map fun e => do
    let word ← s.slab.storage.loadBitmap (s.iter.wordIndex e)
    return s.afterRound e (s.iter.round word e)

end Scan

/-- A step of a run: the state before it, the step and what a call returns in it. -/
structure ScanEvent (α : Type) where
  pre : Scan α
  op : ScanOp α
  out : Option (IterEnd × Option Nat)

/-- A step that succeeds. -/
def Scan.Step (s : Scan α) (ev : ScanEvent α) (s' : Scan α) : Prop :=
  ev.pre = s ∧ s.step ev.op = some (.ok (ev.out, s'))

/-- The index that a call on the end `e` returns in the step. -/
def ScanEvent.index (e : IterEnd) (ev : ScanEvent α) : Option Nat :=
  match ev.out with
  | some (e', some i) => if e' = e then some i else none
  | _ => none

/-- The indices that the end `e` has returned, in order. -/
def returned (e : IterEnd) (es : List (ScanEvent α)) : List Nat := es.filterMap (·.index e)

/-- The number of loads. -/
def loads (es : List (ScanEvent α)) : Nat := es.countP (·.op.isLoad)

/-! ### One load -/

/-- What a load of a call on the end `e` does to the range: the range gets shorter, and an index
that leaves it is returned if its bit is set. -/
structure Iter.Moves (storage : CslabStorage α) (e : IterEnd) (it it' : Iter)
    (out : Option (IterEnd × Option Nat)) : Prop where
  head_le : it.head ≤ it'.head
  tail_le : it'.tail ≤ it.tail
  shrinks : it'.tail - it'.head < it.tail - it.head
  left : ∀ i, it.head ≤ i → i < it.tail → storage.bit i = true →
    out = some (e, some i) ∨ it'.head ≤ i ∧ i < it'.tail
  more : out = none → it'.head < it'.tail
  finished : ∀ e', out = some (e', none) → it'.head = it'.tail
  front : ∀ i, out = some (.front, some i) → it.head ≤ i ∧ i < it'.head
  back : ∀ i, out = some (.back, some i) → it'.tail ≤ i ∧ i < it.tail
  bit : ∀ e' i, out = some (e', some i) → storage.bit i = true

namespace Iter.Moves

variable {storage : CslabStorage α} {e : IterEnd} {it it' : Iter}

theorem of_done (hlt : it.head < it.tail) (hhead : it.head ≤ it'.head) (htail : it'.tail ≤ it.tail)
    (hempty : it'.head = it'.tail) (habsent : storage.AbsentIn it.head it.tail) :
    it.Moves storage e it' (some (e, none)) := by
  refine ⟨hhead, htail, by omega, fun i hle hi hb => ?_, nofun, fun _ _ => hempty, ?_, ?_, ?_⟩
  · exact absurd (hb.symm.trans (habsent i hle hi)) nofun
  · simp
  · simp
  · simp

theorem of_more (hhead : it.head ≤ it'.head) (htail : it'.tail ≤ it.tail)
    (hshrinks : it'.tail - it'.head < it.tail - it.head) (hlt : it'.head < it'.tail)
    (hfront : storage.AbsentIn it.head it'.head) (hback : storage.AbsentIn it'.tail it.tail) :
    it.Moves storage e it' none := by
  refine ⟨hhead, htail, hshrinks, fun i hle hi hb => Or.inr ⟨?_, ?_⟩, fun _ => hlt, nofun, nofun,
    nofun, nofun⟩
  · by_contra hnot
    exact absurd (hb.symm.trans (hfront i hle (Nat.not_le.mp hnot))) nofun
  · by_contra hnot
    exact absurd (hb.symm.trans (hback i (Nat.not_lt.mp hnot) hi)) nofun

theorem of_front {i : Nat} (hle : it.head ≤ i) (hi : i < it.tail) (hb : storage.bit i = true)
    (habsent : storage.AbsentIn it.head i) (hhead : it'.head = i + 1) (htail : it'.tail = it.tail) :
    it.Moves storage .front it' (some (.front, some i)) := by
  refine ⟨by omega, by omega, by omega, fun j hj hj' hbj => ?_, nofun, nofun, ?_, nofun, ?_⟩
  · by_cases hji : i < j
    · exact Or.inr ⟨by omega, by omega⟩
    · obtain rfl : i = j := by
        by_contra hne
        exact absurd (hbj.symm.trans (habsent j hj (by omega))) nofun
      exact Or.inl rfl
  · rintro j ⟨⟩
    exact ⟨hle, by omega⟩
  · rintro e' j ⟨⟩
    exact hb

theorem of_back {i : Nat} (hle : it.head ≤ i) (hi : i < it.tail) (hb : storage.bit i = true)
    (habsent : storage.AbsentIn (i + 1) it.tail) (hhead : it'.head = it.head)
    (htail : it'.tail = i) : it.Moves storage .back it' (some (.back, some i)) := by
  refine ⟨by omega, by omega, by omega, fun j hj hj' hbj => ?_, nofun, nofun, nofun, ?_, ?_⟩
  · by_cases hji : j < i
    · exact Or.inr ⟨by omega, by omega⟩
    · obtain rfl : i = j := by
        by_contra hne
        exact absurd (hbj.symm.trans (habsent j (by omega) hj')) nofun
      exact Or.inl rfl
  · rintro j ⟨⟩
    exact ⟨by omega, hi⟩
  · rintro e' j ⟨⟩
    exact hb

end Iter.Moves

/-- **One load** of a running call. The iterator skips the absent slots of the loaded word at its
end, and passes the first item that it finds there, which the call returns. -/
theorem Iter.moves_round {s : Scan α} {e : IterEnd} {word : Word}
    (hload : s.slab.storage.loadBitmap (s.iter.wordIndex e) = .ok word)
    (hlt : s.iter.head < s.iter.tail) :
    s.iter.Moves s.slab.storage e (s.afterRound e (s.iter.round word e)).2.iter
      (s.afterRound e (s.iter.round word e)).1 := by
  have hword := s.slab.storage.loadBitmap_eq_ok.mp hload
  have hnone : ∀ j, s.slab.storage.AbsentIn j j := fun j i hle hi => absurd hle (Nat.not_le.mpr hi)
  cases e with
  | front =>
    have hspec := Iter.nextRound_spec hword hlt
    rw [Iter.round]
    cases hr : s.iter.nextRound word with
    | done it' =>
      simp only [hr] at hspec
      obtain ⟨rfl, habsent⟩ := hspec
      exact .of_done hlt hlt.le le_rfl rfl habsent
    | found i it' =>
      simp only [hr] at hspec
      obtain ⟨hle, hi, hb, habsent, hhead, htail⟩ := hspec
      exact .of_front hle hi hb habsent hhead htail
    | more it' =>
      simp only [hr] at hspec
      obtain ⟨hhead, hlt', htail, habsent⟩ := hspec
      exact .of_more hhead.le htail.le (show it'.tail - it'.head < _ by omega) hlt' habsent
        (show s.slab.storage.AbsentIn it'.tail _ from htail ▸ hnone _)
  | back =>
    have hspec := Iter.nextBackRound_spec hword hlt
    rw [Iter.round]
    cases hr : s.iter.nextBackRound word with
    | done it' =>
      simp only [hr] at hspec
      obtain ⟨rfl, habsent⟩ := hspec
      exact .of_done hlt le_rfl hlt.le rfl habsent
    | found i it' =>
      simp only [hr] at hspec
      obtain ⟨hle, hi, hb, habsent, hhead, htail⟩ := hspec
      exact .of_back hle hi hb habsent hhead htail
    | more it' =>
      simp only [hr] at hspec
      obtain ⟨hhead, hlt', htail, habsent⟩ := hspec
      exact .of_more hhead.ge htail.le (show it'.tail - it'.head < _ by omega) hlt'
        (show s.slab.storage.AbsentIn _ it'.head from hhead ▸ hnone _) habsent

/-! ### One step -/

namespace Scan

/-- The slab keeps its invariant, the range is within the slab, and it is not empty while a call is
running. -/
structure Ok (s : Scan α) : Prop where
  slab : ∃ free, s.slab.Inv free
  tail_le : s.iter.tail ≤ s.slab.storage.size
  running : s.running.isSome = true → s.iter.head < s.iter.tail

variable {s s' : Scan α} {op : ScanOp α} {out : Option (IterEnd × Option Nat)} {e : IterEnd}

/-- The word of the next load exists. -/
theorem Ok.exists_load (h : s.Ok) (hrunning : s.running = some e) :
    ∃ word, s.slab.storage.loadBitmap (s.iter.wordIndex e) = .ok word := by
  obtain ⟨free, hinv⟩ := h.slab
  have hlt := h.running (by rw [hrunning]; rfl)
  have htail := h.tail_le
  cases e with
  | front =>
    obtain ⟨word, hload, -⟩ := hinv.exists_mask (hlt.trans_le htail)
    exact ⟨word, hload⟩
  | back =>
    obtain ⟨word, hload, -⟩ := hinv.exists_mask (show s.iter.tail - 1 < _ by omega)
    exact ⟨word, hload⟩

/-- **One step**: an operation of the writer, the start of a call, or a load. The writer leaves the
iterator alone, and the reader leaves the slab alone; a call on an empty range returns at once, and
every other one makes loads until one of them ends it. -/
theorem step_cases (h : s.Ok) (hstep : s.step op = some (.ok (out, s'))) :
    (∃ w r, op = .write w ∧ s.slab.step w = .ok (r, s'.slab) ∧ s'.iter = s.iter ∧
        s'.running = s.running ∧ out = none) ∨
      (∃ e, op = .call e ∧ s.running = none ∧ s'.slab = s.slab ∧ s'.iter = s.iter ∧
        (s.iter.head < s.iter.tail ∧ out = none ∨
          s.iter.head = s.iter.tail ∧ out = some (e, none) ∧ s'.running = none)) ∨
      ∃ e, op = .load ∧ s.running = some e ∧ s'.slab = s.slab ∧
        s.iter.Moves s.slab.storage e s'.iter out ∧
          s'.running = if out.isSome then none else some e := by
  cases op with
  | write w =>
    left
    obtain ⟨⟨r, c⟩, hw, hret⟩ := except_bind_eq_ok.mp (Option.some.inj hstep)
    obtain ⟨rfl, rfl⟩ := Prod.mk.inj (Except.ok.inj hret)
    exact ⟨w, r, rfl, hw, rfl, rfl, rfl⟩
  | call e =>
    right; left
    rw [step] at hstep
    split_ifs at hstep with hrunning hge
    · have hrunning : s.running = none := by simpa using hrunning
      obtain ⟨rfl, rfl⟩ := Prod.mk.inj (Except.ok.inj (Option.some.inj hstep))
      exact ⟨e, rfl, hrunning, rfl, rfl, Or.inr ⟨le_antisymm s.iter.head_le hge, rfl, hrunning⟩⟩
    · have hrunning : s.running = none := by simpa using hrunning
      obtain ⟨rfl, rfl⟩ := Prod.mk.inj (Except.ok.inj (Option.some.inj hstep))
      exact ⟨e, rfl, hrunning, rfl, rfl, Or.inl ⟨Nat.not_le.mp hge, rfl⟩⟩
  | load =>
    right; right
    obtain ⟨e, hrunning, hret⟩ := Option.map_eq_some_iff.mp hstep
    obtain ⟨word, hload, hret⟩ := except_bind_eq_ok.mp hret
    have hmoves := Iter.moves_round hload (h.running (by rw [hrunning]; rfl))
    rw [except_pure, Except.ok.injEq] at hret
    rw [hret] at hmoves
    refine ⟨e, rfl, hrunning, ?_, hmoves, ?_⟩
    · cases hr : s.iter.round word e <;> rw [hr] at hret <;>
        exact (congrArg (·.2.slab) hret).symm
    · cases hr : s.iter.round word e <;> rw [hr] at hret <;>
        obtain ⟨rfl, rfl⟩ := Prod.mk.inj hret
      · rfl
      · rfl
      · exact hrunning

theorem step_load {word : Word} (hrunning : s.running = some e)
    (hload : s.slab.storage.loadBitmap (s.iter.wordIndex e) = .ok word) :
    s.step .load = some (.ok (s.afterRound e (s.iter.round word e))) := by
  rw [step, hrunning, Option.map_some, hload]
  rfl

/-- A running call can go on: the word that it loads next exists, whatever the writer has done in
between, because the capacity does not change. -/
theorem Ok.exists_step (h : s.Ok) (hrunning : s.running = some e) :
    ∃ out s', s.step .load = some (.ok (out, s')) := by
  obtain ⟨word, hload⟩ := h.exists_load hrunning
  exact ⟨_, _, step_load hrunning hload⟩

/-- What any step does to the range. -/
structure Advances (s : Scan α) (op : ScanOp α) (out : Option (IterEnd × Option Nat))
    (s' : Scan α) : Prop where
  head_le : s.iter.head ≤ s'.iter.head
  tail_le : s'.iter.tail ≤ s.iter.tail
  shrinks : op.isLoad.toNat + (s'.iter.tail - s'.iter.head) ≤ s.iter.tail - s.iter.head
  left : ∀ i, s.iter.head ≤ i → i < s.iter.tail → s.slab.storage.bit i = true →
    (∃ e, out = some (e, some i)) ∨ s'.iter.head ≤ i ∧ i < s'.iter.tail
  finished : ∀ e, out = some (e, none) → s'.iter.head = s'.iter.tail
  stays : s.iter.head = s.iter.tail → ∀ e r, out = some (e, r) → r = none
  front : ∀ i, out = some (.front, some i) → s.iter.head ≤ i ∧ i < s'.iter.head
  back : ∀ i, out = some (.back, some i) → s'.iter.tail ≤ i ∧ i < s.iter.tail
  bit : ∀ e i, out = some (e, some i) → s.slab.storage.bit i = true
  still : op.isWrite = false → s'.slab = s.slab

/-- A step that leaves the range alone. It is no load of a running call, and it may end a call only
when the range is empty. -/
theorem Advances.of_iter_eq (hiter : s'.iter = s.iter) (hload : op.isLoad = false)
    (hout : ∀ e r, out = some (e, r) → r = none ∧ s.iter.head = s.iter.tail)
    (hstill : op.isWrite = false → s'.slab = s.slab) : Advances s op out s' := by
  have hsome : ∀ e i, out ≠ some (e, some i) := by
    intro e i h
    exact absurd (hout e _ h).1 nofun
  refine ⟨by rw [hiter], by rw [hiter], by simp [hload, hiter], fun i hle hi _ => ?_, fun e h => ?_,
    fun _ e r h => (hout e r h).1, fun i h => ?_, fun i h => ?_, fun e i h => ?_, hstill⟩
  · exact Or.inr (by rw [hiter]; exact ⟨hle, hi⟩)
  · rw [hiter]
    exact (hout e none h).2
  · exact absurd h (hsome _ _)
  · exact absurd h (hsome _ _)
  · exact absurd h (hsome _ _)

theorem advances (h : s.Ok) (hstep : s.step op = some (.ok (out, s'))) : Advances s op out s' := by
  rcases step_cases h hstep with ⟨w, r, rfl, -, hiter, -, rfl⟩ |
    ⟨e, rfl, -, hslab, hiter, hcases⟩ | ⟨e, rfl, hrunning, hslab, hmoves, -⟩
  · exact .of_iter_eq hiter rfl nofun nofun
  · refine .of_iter_eq hiter rfl (fun e' r hout => ?_) fun _ => hslab
    rcases hcases with ⟨-, rfl⟩ | ⟨hempty, rfl, -⟩
    · exact absurd hout nofun
    · exact ⟨(Prod.mk.inj (Option.some.inj hout)).2.symm, hempty⟩
  · have hlt := h.running (by rw [hrunning]; rfl)
    have hshrinks := hmoves.shrinks
    refine ⟨hmoves.head_le, hmoves.tail_le, ?_, fun i hle hi hb => ?_, hmoves.finished,
      fun hempty => absurd hempty hlt.ne, hmoves.front, hmoves.back, hmoves.bit, fun _ => hslab⟩
    · simp only [ScanOp.isLoad, Bool.toNat_true]
      omega
    · exact (hmoves.left i hle hi hb).imp_left fun hout => ⟨e, hout⟩

theorem Ok.step (h : s.Ok) (hstep : s.step op = some (.ok (out, s'))) : s'.Ok := by
  obtain ⟨free, hinv⟩ := h.slab
  rcases step_cases h hstep with ⟨w, r, -, hw, hiter, hrunning, -⟩ |
    ⟨e, -, -, hslab, hiter, hcases⟩ | ⟨e, -, -, hslab, hmoves, hrunning⟩
  · obtain ⟨hinv', hsize⟩ := hinv.of_step hw
    exact ⟨hinv', by rw [hiter, hsize]; exact h.tail_le, by rw [hiter, hrunning]; exact h.running⟩
  · refine ⟨by rw [hslab]; exact h.slab, by rw [hslab, hiter]; exact h.tail_le, fun hsome => ?_⟩
    rw [hiter]
    rcases hcases with ⟨hlt, -⟩ | ⟨-, -, hnone⟩
    · exact hlt
    · rw [hnone] at hsome
      exact absurd hsome nofun
  · refine ⟨by rw [hslab]; exact h.slab, ?_, fun hsome => ?_⟩
    · rw [hslab]
      exact hmoves.tail_le.trans h.tail_le
    · rw [hrunning] at hsome
      split_ifs at hsome with hout
      · exact absurd hsome nofun
      · exact hmoves.more (by simpa using hout)

end Scan

/-! ### Calls without a writer -/

section

variable {c : Cslab α} {it it' : Iter} {item : Option (Nat × α)} {e : IterEnd}

/-- The loads of a call, without an operation of the writer, that returns `r`. -/
def CallSteps (s : Scan α) (e : IterEnd) (r : Option Nat) (s' : Scan α) : Prop :=
  ∃ es, Steps Scan.Step s es s' ∧ es.filterMap (·.out) = [(e, r)] ∧ ∀ ev ∈ es, ev.op.isWrite = false

theorem CallSteps.of_return {s s' : Scan α} {op : ScanOp α} {r : Option Nat}
    (hstep : s.step op = some (.ok (some (e, r), s'))) (hop : op.isWrite = false) :
    CallSteps s e r s' := by
  refine ⟨[⟨s, op, some (e, r)⟩], .single ⟨rfl, hstep⟩, rfl, fun ev hev => ?_⟩
  obtain rfl := List.mem_singleton.mp hev
  exact hop

theorem CallSteps.of_step {s s₁ s' : Scan α} {op : ScanOp α} {r : Option Nat}
    (hstep : s.step op = some (.ok (none, s₁))) (hop : op.isWrite = false)
    (h : CallSteps s₁ e r s') : CallSteps s e r s' := by
  obtain ⟨es, hes, hout, hwrites⟩ := h
  refine ⟨⟨s, op, none⟩ :: es, Steps.append (.single ⟨rfl, hstep⟩) hes, hout, fun ev hev => ?_⟩
  rcases List.mem_cons.mp hev with rfl | hev
  · exact hop
  · exact hwrites ev hev

/-- The loop of a call on the end `e`. -/
private def Iter.loop (storage : CslabStorage α) :
    IterEnd → Nat → Iter → Except RustFault (Option (Nat × α) × Iter)
  | .front => Iter.nextLoop storage
  | .back => Iter.nextBackLoop storage

private theorem Iter.loop_succ (storage : CslabStorage α) (e : IterEnd) (fuel : Nat) (it : Iter) :
    Iter.loop storage e (fuel + 1) it = (do
      let word ← storage.loadBitmap (it.wordIndex e)
      match it.round word e with
      | .done it' => return (none, it')
      | .found idx it' => return (some (idx, ← storage.getUncheckedImpl idx), it')
      | .more it' => Iter.loop storage e fuel it') := by
  cases e <;> rfl

private theorem callSteps_loop (fuel : Nat) (hlt : it.head < it.tail)
    (hfuel : it.tail - it.head ≤ fuel) (hok : Iter.loop c.storage e fuel it = .ok (item, it')) :
    CallSteps ⟨c, it, some e⟩ e (item.map Prod.fst) ⟨c, it', none⟩ := by
  induction fuel generalizing it with
  | zero => omega
  | succ fuel ih =>
    rw [Iter.loop_succ] at hok
    obtain ⟨word, hload, hrest⟩ := except_bind_eq_ok.mp hok
    have hstep : Scan.step ⟨c, it, some e⟩ .load = _ :=
      Scan.step_load (s := ⟨c, it, some e⟩) rfl hload
    have hmoves := Iter.moves_round (s := ⟨c, it, some e⟩) hload hlt
    cases hr : it.round word e with
    | done it₁ =>
      rw [hr] at hrest hstep
      obtain ⟨rfl, rfl⟩ := Prod.mk.inj (Except.ok.inj hrest)
      exact .of_return hstep rfl
    | found i it₁ =>
      rw [hr] at hrest hstep
      obtain ⟨x, -, hret⟩ := except_bind_eq_ok.mp hrest
      obtain ⟨rfl, rfl⟩ := Prod.mk.inj (Except.ok.inj hret)
      exact .of_return hstep rfl
    | more it₁ =>
      rw [hr] at hrest hstep hmoves
      have hshrinks : it₁.tail - it₁.head < it.tail - it.head := hmoves.shrinks
      exact .of_step hstep rfl (ih (hmoves.more rfl) (by omega) hrest)

/-- **The calls on a slab that does not change** are sequences of these steps. So the steps are
those of the iterator of the source, taken apart at its loads. -/
theorem callSteps_of_call {inUse : Nat} {xit' : ExclIter}
    (hok : ExclIter.call ⟨it, inUse⟩ c.storage e = .ok (item, xit')) :
    CallSteps ⟨c, it, none⟩ e (item.map Prod.fst) ⟨c, xit'.iter, none⟩ := by
  have hcall : Scan.step ⟨c, it, none⟩ (.call e) =
      if it.head ≥ it.tail then some (.ok (some (e, none), ⟨c, it, none⟩))
      else some (.ok (none, ⟨c, it, some e⟩)) := rfl
  cases e with
  | front =>
    obtain ⟨⟨item', it₁⟩, hnext, hret⟩ := except_bind_eq_ok.mp hok
    obtain ⟨rfl, rfl⟩ := Prod.mk.inj (Except.ok.inj hret)
    rw [Iter.next] at hnext
    split_ifs at hnext hcall with hge
    · obtain ⟨rfl, rfl⟩ := Prod.mk.inj (Except.ok.inj hnext)
      exact .of_return hcall rfl
    · exact .of_step hcall rfl (callSteps_loop _ (Nat.not_le.mp hge) le_rfl hnext)
  | back =>
    obtain ⟨⟨item', it₁⟩, hnext, hret⟩ := except_bind_eq_ok.mp hok
    obtain ⟨rfl, rfl⟩ := Prod.mk.inj (Except.ok.inj hret)
    rw [Iter.nextBack] at hnext
    split_ifs at hnext hcall with hge
    · obtain ⟨rfl, rfl⟩ := Prod.mk.inj (Except.ok.inj hnext)
      exact .of_return hcall rfl
    · exact .of_step hcall rfl (callSteps_loop _ (Nat.not_le.mp hge) le_rfl hnext)

end

/-! ### Every run -/

section returned

variable {es : List (ScanEvent α)} {ev : ScanEvent α} {e : IterEnd} {i : Nat}

theorem ScanEvent.index_eq_some : ev.index e = some i ↔ ev.out = some (e, some i) := by
  rw [index]
  split
  · rename_i e' j hout
    rw [hout]
    split_ifs with he <;> simp [he]
  · rename_i hnot
    exact ⟨nofun, fun h => absurd h (hnot e i)⟩

theorem mem_returned : i ∈ returned e es ↔ ∃ ev ∈ es, ev.out = some (e, some i) := by
  simp only [returned, List.mem_filterMap, ScanEvent.index_eq_some]

theorem returned_concat : returned e (es ++ [ev]) = returned e es ++ (ev.index e).toList := by
  rw [returned, List.filterMap_append]
  cases h : ev.index e <;> simp [returned, h]

theorem mem_returned_concat :
    i ∈ returned e (es ++ [ev]) ↔ i ∈ returned e es ∨ ev.out = some (e, some i) := by
  simp only [mem_returned, List.mem_append, List.mem_singleton, or_and_right, exists_or,
    exists_eq_left]

/-- The order of the returned indices, with one more. -/
theorem pairwise_returned_concat {R : Nat → Nat → Prop} (h : (returned e es).Pairwise R)
    (hlast : ∀ i, ev.out = some (e, some i) → ∀ j ∈ returned e es, R j i) :
    (returned e (es ++ [ev])).Pairwise R := by
  rw [returned_concat, List.pairwise_append]
  refine ⟨h, ?_, fun j hj i hi => hlast i ?_ j hj⟩
  · cases ev.index e <;> simp
  · rwa [Option.mem_toList, ScanEvent.index_eq_some] at hi

theorem loads_concat : loads (es ++ [ev]) = loads es + ev.op.isLoad.toNat := by
  rw [loads, List.countP_append, List.countP_singleton]
  cases ev.op.isLoad <;> rfl

end returned

/-- After `ev` has returned `none`, so does `ev'`. -/
def StaysNone (ev ev' : ScanEvent α) : Prop :=
  ∀ e e' r, ev.out = some (e, none) → ev'.out = some (e', r) → r = none

/-- What holds of the steps `es` of an iterator over the slab `c`, and of the state after them. -/
structure ScanInv (c : Cslab α) (es : List (ScanEvent α)) (s : Scan α) : Prop where
  ok : s.Ok
  loads_le : loads es + (s.iter.tail - s.iter.head) ≤ c.storage.frontier
  front_lt : ∀ i ∈ returned .front es, i < s.iter.head
  front : (returned .front es).Pairwise (· < ·)
  le_back : ∀ i ∈ returned .back es, s.iter.tail ≤ i
  back : (returned .back es).Pairwise (· > ·)
  bit : ∀ ev ∈ es, ∀ e i, ev.out = some (e, some i) → ev.pre.slab.storage.bit i = true
  kept : ∀ i < c.storage.frontier, (∀ ev ∈ es, ev.pre.slab.storage.bit i = true) →
    i ∈ returned .front es ∨ i ∈ returned .back es ∨ s.iter.head ≤ i ∧ i < s.iter.tail
  finished : ∀ ev ∈ es, ∀ e, ev.out = some (e, none) → s.iter.head = s.iter.tail
  stays : es.Pairwise StaysNone
  still : (∀ ev ∈ es, ev.op.isWrite = false) → (∀ ev ∈ es, ev.pre.slab = c) ∧ s.slab = c

namespace ScanInv

variable {c : Cslab α} {es : List (ScanEvent α)} {s s' : Scan α}

theorem init {free : List Nat} (h : c.Inv free) : ScanInv c [] ⟨c, .new c.storage, none⟩ := by
  refine ⟨⟨⟨_, h⟩, h.frontier_le, nofun⟩, ?_, nofun, .nil, nofun, .nil, nofun, fun i hi _ => ?_,
    nofun, .nil, fun _ => ⟨nofun, rfl⟩⟩
  · simp [loads, Iter.new]
  · exact Or.inr (Or.inr ⟨Nat.zero_le _, hi⟩)

/-- **One step** of a run. A slot that is passed is either one that was seen absent at the moment of
its load, or one whose index a call returns. -/
theorem step {ev : ScanEvent α} (h : ScanInv c es s) (hstep : s.Step ev s') :
    ScanInv c (es ++ [ev]) s' := by
  obtain ⟨rfl, hstep⟩ := hstep
  have hadv := Scan.advances h.ok hstep
  have hshrinks := hadv.shrinks
  have hhead := hadv.head_le
  have htail := hadv.tail_le
  refine ⟨h.ok.step hstep, ?_, fun i hi => ?_, ?_, fun i hi => ?_, ?_, fun ev' hev' e i hout => ?_,
    fun i hi hbits => ?_, fun ev' hev' e hout => ?_, ?_, fun hwrites => ?_⟩
  · have hloads := h.loads_le
    rw [loads_concat]
    omega
  · rcases mem_returned_concat.mp hi with hi | hout
    · exact (h.front_lt i hi).trans_le hhead
    · exact (hadv.front i hout).2
  · refine pairwise_returned_concat h.front fun i hout j hj => ?_
    exact (h.front_lt j hj).trans_le (hadv.front i hout).1
  · rcases mem_returned_concat.mp hi with hi | hout
    · exact htail.trans (h.le_back i hi)
    · exact (hadv.back i hout).1
  · refine pairwise_returned_concat h.back fun i hout j hj => ?_
    exact (hadv.back i hout).2.trans_le (h.le_back j hj)
  · rcases List.mem_append.mp hev' with hev' | hev'
    · exact h.bit ev' hev' e i hout
    · obtain rfl := List.mem_singleton.mp hev'
      exact hadv.bit e i hout
  · have hkept := h.kept i hi fun ev' hev' => hbits ev' (List.mem_append_left _ hev')
    have hb := hbits ev (List.mem_append_right _ (List.mem_singleton_self ev))
    simp only [mem_returned_concat]
    rcases hkept with hfront | hback | ⟨hle, hlt⟩
    · exact Or.inl (Or.inl hfront)
    · exact Or.inr (Or.inl (Or.inl hback))
    · rcases hadv.left i hle hlt hb with ⟨e, hout⟩ | hrange
      · cases e with
        | front => exact Or.inl (Or.inr hout)
        | back => exact Or.inr (Or.inl (Or.inr hout))
      · exact Or.inr (Or.inr hrange)
  · rcases List.mem_append.mp hev' with hev' | hev'
    · have hempty := h.finished ev' hev' e hout
      have hle := s'.iter.head_le
      omega
    · obtain rfl := List.mem_singleton.mp hev'
      exact hadv.finished e hout
  · rw [List.pairwise_append]
    refine ⟨h.stays, List.pairwise_singleton _ _, fun ev' hev' ev'' hev'' => ?_⟩
    obtain rfl := List.mem_singleton.mp hev''
    intro e e' r hout hout'
    exact hadv.stays (h.finished ev' hev' e hout) e' r hout'
  · obtain ⟨hpre, hslab⟩ := h.still fun ev' hev' => hwrites ev' (List.mem_append_left _ hev')
    refine ⟨fun ev' hev' => ?_, ?_⟩
    · rcases List.mem_append.mp hev' with hev' | hev'
      · exact hpre ev' hev'
      · obtain rfl := List.mem_singleton.mp hev'
        exact hslab
    · rw [hadv.still (hwrites ev (List.mem_append_right _ (List.mem_singleton_self ev))), hslab]

/-- No index is returned twice, since from the front the returned indices increase and from the back
they decrease, and the two ends do not cross. -/
theorem nodup (h : ScanInv c es s) : (returned .front es ++ returned .back es).Nodup := by
  rw [List.nodup_append]
  refine ⟨h.front.imp ne_of_lt, h.back.imp ne_of_gt, fun i hi j hj => ?_⟩
  have hlt := h.front_lt i hi
  have hle := h.le_back j hj
  have hhead := s.iter.head_le
  omega

end ScanInv

/-- **A call that does not return** makes fewer loads than its range is long, whatever the writer
does meanwhile: each of its loads without a result makes the range shorter. -/
theorem loads_lt_of_running {es : List (ScanEvent α)} {s s' : Scan α} {e : IterEnd} (h : s.Ok)
    (hrunning : s.running = some e) (hrun : Steps Scan.Step s es s')
    (hout : ∀ ev ∈ es, ev.out = none) : loads es < s.iter.tail - s.iter.head := by
  have hinv : s'.Ok ∧ loads es + (s'.iter.tail - s'.iter.head) ≤ s.iter.tail - s.iter.head ∧
      s'.running = some e := by
    induction hrun with
    | nil => exact ⟨h, by simp [loads], hrunning⟩
    | @snoc s₁ s₂ es ev _ hstep ih =>
      obtain ⟨hok, hloads, hrunning₁⟩ :=
        ih fun ev' hev' => hout ev' (List.mem_append_left _ hev')
      have hnone := hout ev (List.mem_append_right _ (List.mem_singleton_self ev))
      obtain ⟨rfl, hstep⟩ := hstep
      have hshrinks := (Scan.advances hok hstep).shrinks
      refine ⟨hok.step hstep, by rw [loads_concat]; omega, ?_⟩
      rcases Scan.step_cases hok hstep with ⟨-, -, -, -, -, hsame, -⟩ | ⟨-, -, hidle, -⟩ |
        ⟨e', -, hrunning', -, -, hsame⟩
      · exact hsame.trans hrunning₁
      · exact absurd (hidle.symm.trans hrunning₁) nofun
      · rw [hsame, hnone]
        exact hrunning'.symm.trans hrunning₁
  obtain ⟨hok, hloads, hrunning'⟩ := hinv
  have hlt := hok.running (by rw [hrunning']; rfl)
  omega

/-- Every operation of a run keeps the invariant. -/
theorem Cslab.Inv.of_runOps {c c' : Cslab α} {free : List Nat} {ops : List (SlabOp α)}
    {rs : List (SlabRet α)} (h : c.Inv free) (hrun : runOps Cslab.step c ops = .ok (rs, c')) :
    ∃ free', c'.Inv free' := by
  induction ops generalizing c free rs with
  | nil =>
    obtain ⟨-, rfl⟩ := Prod.mk.inj (Except.ok.inj hrun)
    exact ⟨free, h⟩
  | cons op ops ih =>
    obtain ⟨⟨r, c₁⟩, hstep, hrun⟩ := except_bind_eq_ok.mp hrun
    obtain ⟨⟨rs', c₂⟩, hrest, hret⟩ := except_bind_eq_ok.mp hrun
    obtain ⟨-, rfl⟩ := Prod.mk.inj (Except.ok.inj hret)
    obtain ⟨⟨free', h'⟩, -⟩ := h.of_step hstep
    exact ih h' hrest

/-- **Iteration beside the writer.** For an iterator over any reachable slab, and any calls on its
two ends with any operations of the writer between the loads:

* a running call can always load its next word, which exists, and shifts it by less than its width;
* a call makes fewer loads than its range is long before it returns;
* the front returns increasing and the back decreasing indices, none of them twice;
* an index is returned only if its bit was set at the load that found it;
* when the range is empty, an index whose bit was set all the time has been returned exactly once;
* after a call has returned `none`, every call does;
* without operations of the writer, the indices that are returned are those of the visible items. -/
theorem iter_interleaved {t : Layout} {n : Nat} {c₀ c : Cslab α} {ops : List (SlabOp α)}
    {rs : List (SlabRet α)} {es : List (ScanEvent α)} {s : Scan α}
    (hnew : Cslab.withFixedCapacity .memory t n = .ok c₀)
    (hops : runOps Cslab.step c₀ ops = .ok (rs, c))
    (hrun : Steps Scan.Step ⟨c, .new c.storage, none⟩ es s) :
    (∀ e, s.running = some e → s.iter.wordIndex e < s.slab.storage.bitmap.length ∧
      s.iter.shift e < usizeBits ∧ ∃ out s', s.step .load = some (.ok (out, s'))) ∧
    (∀ e es' s', s.running = some e → Steps Scan.Step s es' s' → (∀ ev ∈ es', ev.out = none) →
      loads es' < s.iter.tail - s.iter.head) ∧
    (returned .front es).Pairwise (· < ·) ∧ (returned .back es).Pairwise (· > ·) ∧
    (returned .front es ++ returned .back es).Nodup ∧
    (∀ ev ∈ es, ∀ e i, ev.out = some (e, some i) → ev.pre.slab.storage.bit i = true) ∧
    (s.iter.head = s.iter.tail → ∀ i, c.storage.bit i = true →
      (∀ ev ∈ es, ev.pre.slab.storage.bit i = true) →
      (returned .front es ++ returned .back es).count i = 1) ∧
    es.Pairwise StaysNone ∧
    ((∀ ev ∈ es, ev.op.isWrite = false) → s.iter.head = s.iter.tail →
      ∀ i, i ∈ returned .front es ++ returned .back es ↔ ∃ x, c.slot i = .live x) := by
  obtain ⟨hinv₀, -⟩ := Cslab.inv_withFixedCapacity hnew
  obtain ⟨free, hinv⟩ := hinv₀.of_runOps hops
  have h : ScanInv c es s := hrun.history (fun _ _ _ _ h hstep => h.step hstep) (.init hinv)
  have hlt : ∀ i, c.storage.bit i = true → i < c.storage.frontier := by
    intro i hb
    obtain ⟨x, hx⟩ := hinv.item_of_bit i hb
    exact hinv.lt_frontier i x hx
  -- an index that leaves the range with its bit set is returned
  have hkept : s.iter.head = s.iter.tail → ∀ i, c.storage.bit i = true →
      (∀ ev ∈ es, ev.pre.slab.storage.bit i = true) →
      i ∈ returned .front es ++ returned .back es := by
    intro hempty i hb hbits
    rw [List.mem_append]
    rcases h.kept i (hlt i hb) hbits with hfront | hback | hrange
    · exact Or.inl hfront
    · exact Or.inr hback
    · omega
  refine ⟨fun e hrunning => ⟨?_, s.iter.shift_lt e, h.ok.exists_step hrunning⟩,
    fun e es' s' hrunning hrun' hout => loads_lt_of_running h.ok hrunning hrun' hout, h.front,
    h.back, h.nodup, h.bit, fun hempty i hb hbits => ?_, h.stays, fun hwrites hempty i => ?_⟩
  · obtain ⟨word, hload⟩ := h.ok.exists_load hrunning
    exact (List.getElem?_eq_some_iff.mp (s.slab.storage.loadBitmap_eq_ok.mp hload)).1
  · exact List.count_eq_one_of_mem h.nodup (hkept hempty i hb hbits)
  · obtain ⟨hpre, hslab⟩ := h.still hwrites
    constructor
    · intro hi
      have hb : c.storage.bit i = true := by
        simp only [List.mem_append, mem_returned] at hi
        rcases hi with ⟨ev, hev, hout⟩ | ⟨ev, hev, hout⟩
        · exact hpre ev hev ▸ h.bit ev hev _ i hout
        · exact hpre ev hev ▸ h.bit ev hev _ i hout
      obtain ⟨x, hx⟩ := hinv.item_of_bit i hb
      exact ⟨x, Cslab.slot_eq_live.mpr ⟨hx, hb⟩⟩
    · rintro ⟨x, hx⟩
      have hb := (Cslab.slot_eq_live.mp hx).2
      exact hkept hempty i hb fun ev hev => by rw [hpre ev hev]; exact hb

/-- The steps `ops`, with what the calls return in them. -/
def Scan.run (s : Scan α) (ops : List (ScanOp α)) :
    Option (List (Option (IterEnd × Option Nat)) × Scan α) :=
  runOps (fun s op => (s.step op).bind Except.toOption) s ops

theorem Scan.steps_of_run {s s' : Scan α} {ops : List (ScanOp α)}
    {outs : List (Option (IterEnd × Option Nat))} (h : s.run ops = some (outs, s')) :
    ∃ es, Steps Scan.Step s es s' ∧ es.map (·.out) = outs := by
  induction ops generalizing s outs with
  | nil =>
    obtain ⟨rfl, rfl⟩ := Prod.mk.inj (Option.some.inj h)
    exact ⟨[], .nil s, rfl⟩
  | cons op ops ih =>
    obtain ⟨out, s₁, outs', hstep, hrun, rfl⟩ := runOps_cons_eq_some.mp h
    obtain ⟨r, hr, hok⟩ := Option.bind_eq_some_iff.mp hstep
    obtain rfl := except_toOption_eq_some.mp hok
    obtain ⟨es, hes, rfl⟩ := ih hrun
    exact ⟨⟨s, op, out⟩ :: es, Steps.append (.single ⟨rfl, hr⟩) hes, rfl⟩

/-- The operations `writes` on a new slab, and then the steps `ops` of an iterator over it: what the
calls on the iterator return. -/
def Scan.observe (t : Layout) (n : Nat) (writes : List (SlabOp α)) (ops : List (ScanOp α)) :
    Option (List (Option (IterEnd × Option Nat))) := do
  let c₀ ← (Cslab.withFixedCapacity .memory t n).toOption
  let (_, c) ← (runOps Cslab.step c₀ writes).toOption
  let (outs, _) ← Scan.run ⟨c, .new c.storage, none⟩ ops
  return outs

theorem Scan.exists_steps_of_observe {t : Layout} {n : Nat} {writes : List (SlabOp α)}
    {ops : List (ScanOp α)} {outs : List (Option (IterEnd × Option Nat))}
    (h : Scan.observe t n writes ops = some outs) :
    ∃ c₀ c rs es s, Cslab.withFixedCapacity .memory t n = .ok c₀ ∧
      runOps Cslab.step c₀ writes = .ok (rs, c) ∧
      Steps Scan.Step ⟨c, .new c.storage, none⟩ es s ∧ es.map (·.out) = outs := by
  simp only [observe, Option.bind_eq_bind, Option.bind_eq_some_iff, Prod.exists,
    except_toOption_eq_some] at h
  obtain ⟨c₀, hnew, rs, c, hwrites, outs', s, hrun, hret⟩ := h
  obtain rfl := Option.some.inj hret
  obtain ⟨es, hsteps, hout⟩ := Scan.steps_of_run hrun
  exact ⟨c₀, c, rs, es, s, hnew, hwrites, hsteps, hout⟩

/-- The item at index `0` is marked during a call on the front, which then returns index `1`. -/
theorem iter_interleaved_mark :
    ∃ (c₀ c : Cslab Nat) (rs : List (SlabRet Nat)) (es : List (ScanEvent Nat)) (s : Scan Nat),
      Cslab.withFixedCapacity .memory ⟨4, 4⟩ 2 = .ok c₀ ∧
      runOps Cslab.step c₀ [.insert 7, .insert 8] = .ok (rs, c) ∧
      Steps Scan.Step ⟨c, .new c.storage, none⟩ es s ∧
      es.map (·.out) = [none, none, some (.front, some 1), some (.back, none)] ∧
      (returned .front es ++ returned .back es).Nodup ∧ es.Pairwise StaysNone := by
  have hobserve : Scan.observe ⟨4, 4⟩ 2 [.insert 7, .insert 8]
      [.call .front, .write (.markRemoved 0), .load, .call .back] =
      some [none, none, some (.front, some 1), some (.back, none)] := by
    decide +kernel
  obtain ⟨c₀, c, rs, es, s, hnew, hwrites, hsteps, hout⟩ := Scan.exists_steps_of_observe hobserve
  obtain ⟨-, -, -, -, hnodup, -, -, hstays, -⟩ := iter_interleaved hnew hwrites hsteps
  exact ⟨c₀, c, rs, es, s, hnew, hwrites, hsteps, hout, hnodup, hstays⟩

end ZprUtils
