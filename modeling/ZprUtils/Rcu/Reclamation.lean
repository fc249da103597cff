import ZprUtils.Rcu.EpochAtomic

/-!
# What becomes of the values of an RCU box

Every value that is moved to the heap by the box with deferred destruction has a number. A value is
destroyed once at most, and never while a call can look at it. But a value whose exchange has failed
is never handed over for destruction, and neither is the value that is in the box at its end: the
box has no `Drop`. So the last value is lost in every run.

## Main definitions

* `EpochBox.Run`, `EpochBox.Complete` — the runs, and those after which nothing is left to do.
* `EpochBox.AllDestroyedOnce`, `DestroysUnguarded` — what is asked of the destructions.
* `EpochBox.Ledger` — every value is destroyed or in one cell.

## Main results

* `EpochBox.last_value_lost` — the value in the box at its end is never destroyed.
* `EpochBox.lost_iff` — the values that are lost, and no others.
* `EpochBox.destroysUnguarded` — nothing is destroyed that a call can look at.
-/

namespace ZprUtils.Rcu

variable {V : Type}

/-- The pointer that a call can look at. -/
def EpochPc.ptr? : EpochPc V → Option Nat
  | .reading _ ptr | .loaded _ ptr | .produced _ ptr _ | .guarding ptr => some ptr
  | _ => none

/-- No step of a run destroys a value that a call can look at. -/
def DestroysUnguarded (es : List (EpochBox V × EpochAct V)) : Prop :=
  ∀ (s : EpochBox V) (a : Nat) (junk : V), (s, .destroy a junk) ∈ es → ∀ c, (s.pc c).ptr? ≠ some a

namespace EpochBox

/-- A run, with the state before each step. -/
def Run (s : EpochBox V) (es : List (EpochBox V × EpochAct V)) (s' : EpochBox V) : Prop :=
  Steps (fun s (e : EpochBox V × EpochAct V) s' => e.1 = s ∧ ∃ ev, s.step e.2 = some (ev, s'))
    s es s'

/-- The box and all guards are dropped, and all deferred destructions have run. -/
structure Complete (s : EpochBox V) : Prop where
  dropped : s.dropped = true
  borrows : s.borrows = []
  pinned : s.pinned = []
  deferred : ∀ a pins, (s.heap a).use ≠ .retired pins

/-- Every value has been destroyed exactly once. -/
def AllDestroyedOnce (s : EpochBox V) : Prop := ∀ n < s.made, s.destroyed.count n = 1

/-- The call of the place `p` owns the cell `a`. -/
def Owns (a : Nat) : EpochPc V → Prop
  | .filled _ b | .produced _ _ b | .replaced _ _ b => b = a
  | _ => False

/-- Every value is destroyed or in one cell. -/
structure Ledger (s : EpochBox V) : Prop where
  serial_lt : ∀ a, (s.heap a).use ≠ .free → (s.heap a).serial < s.made
  serial_inj : ∀ a b, (s.heap a).use ≠ .free → (s.heap b).use ≠ .free →
    (s.heap a).serial = (s.heap b).serial → a = b
  alive : ∀ a, (s.heap a).use ≠ .free → (s.heap a).serial ∉ s.destroyed
  nodup : s.destroyed.Nodup
  destroyed_lt : ∀ n ∈ s.destroyed, n < s.made
  accounted : ∀ n < s.made, n ∈ s.destroyed ∨ ∃ a, (s.heap a).use ≠ .free ∧ (s.heap a).serial = n

/-- A cell that is not in the box belongs to a call, and a call that has a cell borrows the box. -/
structure Owners (s : EpochBox V) : Prop where
  owner : ∀ a c, (s.heap a).use = .owned c ∨ (s.heap a).use = .unlinked c → Owns a (s.pc c)
  borrows : ∀ c, s.pc c = .idle ∨ s.pc c = .finished ∨ c ∈ s.borrows

variable {s s' : EpochBox V} {a c : Nat} {e : CallEvent Nat (BoxOp V) (BoxRet V)}

/-! ### What a step does to the heap -/

/-- What a step does to the heap, for the call `c` that takes it. -/
inductive Change (s : EpochBox V) : EpochBox V → Prop
  | quiet {c : Nat} {p : EpochPc V} {s' : EpochBox V} (hpc : s'.pc = Function.update s.pc c p)
      (hheap : s'.heap = s.heap) (hmade : s'.made = s.made)
      (hdestroyed : s'.destroyed = s.destroyed)
      (howns : ∀ a, ¬ Owns a (s.pc c)) (hborrows : ∀ c' ≠ c, c' ∈ s.borrows → c' ∈ s'.borrows)
      (hself : p = .finished ∨ c ∈ s'.borrows) : Change s s'
  | alloc {c a : Nat} {v : V} {p : EpochPc V} (hfree : (s.heap a).use = .free)
      (howns : ∀ b, ¬ Owns b (s.pc c)) (hp : Owns a p) (hself : c ∈ s.borrows) :
      Change s ((s.alloc c a v).goto c p)
  | install {c a : Nat} {op : BoxOp V} {ret : BoxRet V} (howned : (s.heap a).use = .owned c)
      (howns : ∀ b, Owns b (s.pc c) → b = a) (hself : c ∈ s.borrows) :
      Change s ((s.install c a).goto c (.replaced op ret s.ptr))
  | giveUp {c a : Nat} {use : CellUse} {p : EpochPc V} (hfree : (s.heap a).use ≠ .free)
      (howns : ∀ b, Owns b (s.pc c) → b = a)
      (huse : use = .leaked ∨ ∃ pins, use = .retired pins) (hself : c ∈ s.borrows) :
      Change s ((s.mark a use).goto c p)
  | destroy {a : Nat} {junk : V} {pins : List Nat} (huse : (s.heap a).use = .retired pins) :
      Change s { s with
        heap := Function.update s.heap a ⟨junk, (s.heap a).serial, .free⟩
        destroyed := s.destroyed ++ [(s.heap a).serial] }
  | dropBox : Change s { s with dropped := true }

theorem Owners.borrows_of_pc (h : s.Owners) {p : EpochPc V} (hpc : s.pc c = p)
    (hp : p ≠ .idle ∧ p ≠ .finished) : c ∈ s.borrows := by
  rcases h.borrows c with hc | hc | hc
  · exact absurd (hpc.symm.trans hc) hp.1
  · exact absurd (hpc.symm.trans hc) hp.2
  · exact hc

section

variable (h : s.Owners) {p q : EpochPc V}
include h

/-- A step that only moves the call on. -/
theorem Owners.change_goto (hpc : s.pc c = p) (hp : p ≠ .idle ∧ p ≠ .finished)
    (howns : ∀ a, ¬ Owns a p) : s.Change (s.goto c q) :=
  .quiet rfl rfl rfl rfl (hpc ▸ howns) (fun _ _ hc => hc) (Or.inr (h.borrows_of_pc hpc hp))

/-- **What a step does to the heap.** A value is made in a free cell, takes the place of the current
one, is given up by the call that owns it, or is destroyed; every other step leaves the heap as it
is. -/
theorem change_of_moves {act : EpochAct V} (hinv : s.Inv) (hmoves : s.Moves act e s') :
    s.Change s' := by
  cases hmoves with
  | @invoke c op hpc =>
    exact .quiet (c := c) (p := .ready op) rfl rfl rfl rfl (by rw [hpc]; exact fun _ => id)
      (fun _ _ hc => List.mem_cons_of_mem c hc) (Or.inr List.mem_cons_self)
  | @pin c op hpc =>
    exact .quiet (c := c) (p := .pinned op) rfl rfl rfl rfl (by rw [hpc]; exact fun _ => id)
      (fun _ _ hc => hc) (Or.inr (h.borrows_of_pc hpc ⟨nofun, nofun⟩))
  | @unpin c op ret hpc =>
    exact .quiet (c := c) (p := .unpinned op ret) rfl rfl rfl rfl
      (by rw [hpc]; exact fun _ => id) (fun _ _ hc => hc)
      (Or.inr (h.borrows_of_pc hpc ⟨nofun, nofun⟩))
  | @respond c op ret hpc =>
    exact .quiet (c := c) (p := .finished) rfl rfl rfl rfl (by rw [hpc]; exact fun _ => id)
      (fun _ hne hc => (List.mem_erase_of_ne hne).mpr hc) (Or.inl rfl)
  | @dropGuard c ptr hpc =>
    exact .quiet (c := c) (p := .finished) rfl rfl rfl rfl (by rw [hpc]; exact fun _ => id)
      (fun _ hne hc => (List.mem_erase_of_ne hne).mpr hc) (Or.inl rfl)
  | load hpc | loadUpdate hpc | inspect hpc | refuse hpc | respondGuard hpc =>
    exact h.change_goto hpc ⟨nofun, nofun⟩ fun _ => id
  | fill hpc hfree | produce hpc _ hfree =>
    exact .alloc hfree (by rw [hpc]; exact fun _ => id) rfl (h.borrows_of_pc hpc ⟨nofun, nofun⟩)
  | swap hpc =>
    exact .install (callOk_of_pc hinv hpc).1 (by rw [hpc]; exact fun _ => Eq.symm)
      (h.borrows_of_pc hpc ⟨nofun, nofun⟩)
  | exchange hpc =>
    exact .install (callOk_of_pc hinv hpc).2.1 (by rw [hpc]; exact fun _ => Eq.symm)
      (h.borrows_of_pc hpc ⟨nofun, nofun⟩)
  | retry hpc =>
    have howned := (callOk_of_pc hinv hpc).2.1
    exact .giveUp (by rw [howned]; nofun) (by rw [hpc]; exact fun _ => Eq.symm) (Or.inl rfl)
      (h.borrows_of_pc hpc ⟨nofun, nofun⟩)
  | @retire c old op ret hpc =>
    have hunlinked : (s.heap old).use = .unlinked c := callOk_of_pc hinv hpc
    exact .giveUp (by rw [hunlinked]; nofun) (by rw [hpc]; exact fun _ => Eq.symm)
      (Or.inr ⟨_, rfl⟩) (h.borrows_of_pc hpc ⟨nofun, nofun⟩)
  | dropBox => exact .dropBox
  | destroy huse => exact .destroy huse

end

/-! ### The numbers of the values -/

namespace Ledger

theorem of_eq (h : s.Ledger) (hheap : s'.heap = s.heap) (hmade : s'.made = s.made)
    (hdestroyed : s'.destroyed = s.destroyed) : s'.Ledger := by
  refine ⟨?_, ?_, ?_, ?_, ?_, ?_⟩
  all_goals simp only [hheap, hmade, hdestroyed]
  exacts [h.serial_lt, h.serial_inj, h.alive, h.nodup, h.destroyed_lt, h.accounted]

/-- Moving a cell to another use. The value stays in the cell, so nothing is made and nothing
destroyed. -/
theorem mark {use : CellUse} (h : s.Ledger) (ha : (s.heap a).use ≠ .free) (huse : use ≠ .free) :
    (s.mark a use).Ledger := by
  have hserial : ∀ b, ((s.mark a use).heap b).serial = (s.heap b).serial := by
    intro b
    change (Function.update s.heap a _ b).serial = _
    by_cases hba : b = a
    · rw [hba, Function.update_self]
    · rw [Function.update_of_ne hba]
  have hfree : ∀ b, ((s.mark a use).heap b).use ≠ .free ↔ (s.heap b).use ≠ .free := by
    intro b
    by_cases hba : b = a
    · rw [hba, use_mark_self]
      exact ⟨fun _ => ha, fun _ => huse⟩
    · rw [use_mark_of_ne _ _ hba]
  refine ⟨fun b hb => ?_, fun b d hb hd => ?_, fun b hb => ?_, h.nodup, h.destroyed_lt,
    fun n hn => ?_⟩
  · rw [hserial]
    exact h.serial_lt b ((hfree b).mp hb)
  · rw [hserial, hserial]
    exact h.serial_inj b d ((hfree b).mp hb) ((hfree d).mp hd)
  · rw [hserial]
    exact h.alive b ((hfree b).mp hb)
  · refine (h.accounted n hn).imp_right fun ⟨b, hb, hn⟩ => ⟨b, (hfree b).mpr hb, ?_⟩
    rw [hserial, hn]

theorem alloc (h : s.Ledger) (ha : (s.heap a).use = .free) (v : V) : (s.alloc c a v).Ledger := by
  have hself : (s.alloc c a v).heap a = ⟨v, s.made, .owned c⟩ := Function.update_self ..
  have hother : ∀ b, b ≠ a → (s.alloc c a v).heap b = s.heap b := fun b hba =>
    Function.update_of_ne hba ..
  refine ⟨fun b hb => ?_, fun b d hb hd hserial => ?_, fun b hb => ?_, h.nodup, fun n hn => ?_,
    fun n hn => ?_⟩
  · by_cases hba : b = a
    · rw [hba, hself]
      exact Nat.lt_succ_self _
    · rw [hother b hba] at hb ⊢
      exact Nat.lt_succ_of_lt (h.serial_lt b hb)
  · by_cases hba : b = a
    · by_cases hda : d = a
      · rw [hba, hda]
      · rw [hba, hself, hother d hda] at hserial
        rw [hother d hda] at hd
        exact absurd hserial.symm (Nat.ne_of_lt (h.serial_lt d hd))
    · rw [hother b hba] at hb hserial
      by_cases hda : d = a
      · rw [hda, hself] at hserial
        exact absurd hserial (Nat.ne_of_lt (h.serial_lt b hb))
      · rw [hother d hda] at hd hserial
        exact h.serial_inj b d hb hd hserial
  · by_cases hba : b = a
    · rw [hba, hself]
      exact fun hmem => Nat.lt_irrefl _ (h.destroyed_lt _ hmem)
    · rw [hother b hba] at hb ⊢
      exact h.alive b hb
  · exact Nat.lt_succ_of_lt (h.destroyed_lt n hn)
  · rcases Nat.lt_succ_iff_lt_or_eq.mp hn with hlt | rfl
    · refine (h.accounted n hlt).imp_right fun ⟨b, hb, hserial⟩ => ⟨b, ?_⟩
      have hba : b ≠ a := by
        rintro rfl
        exact hb ha
      rw [hother b hba]
      exact ⟨hb, hserial⟩
    · exact Or.inr ⟨a, by rw [hself]; nofun, by rw [hself]⟩

theorem destroy {junk : V} (h : s.Ledger) (ha : (s.heap a).use ≠ .free) :
    Ledger { s with
      heap := Function.update s.heap a ⟨junk, (s.heap a).serial, .free⟩
      destroyed := s.destroyed ++ [(s.heap a).serial] } := by
  -- a cell that is not free afterwards is another one, and was not free before
  have hother : ∀ b, (Function.update s.heap a ⟨junk, (s.heap a).serial, .free⟩ b).use ≠ .free →
      b ≠ a ∧ Function.update s.heap a ⟨junk, (s.heap a).serial, .free⟩ b = s.heap b ∧
        (s.heap b).use ≠ .free := by
    intro b hb
    have hba : b ≠ a := by
      rintro rfl
      rw [Function.update_self] at hb
      exact hb rfl
    rw [Function.update_of_ne hba] at hb ⊢
    exact ⟨hba, rfl, hb⟩
  refine ⟨fun b hb => ?_, fun b d hb hd => ?_, fun b hb => ?_, ?_, fun n hn => ?_, fun n hn => ?_⟩
  · obtain ⟨-, heq, hb⟩ := hother b hb
    change (Function.update s.heap a _ b).serial < s.made
    rw [heq]
    exact h.serial_lt b hb
  · obtain ⟨-, heq, hb⟩ := hother b hb
    obtain ⟨-, heq', hd⟩ := hother d hd
    change (Function.update s.heap a _ b).serial = (Function.update s.heap a _ d).serial → _
    rw [heq, heq']
    exact h.serial_inj b d hb hd
  · obtain ⟨hba, heq, hb⟩ := hother b hb
    change (Function.update s.heap a _ b).serial ∉ s.destroyed ++ [(s.heap a).serial]
    rw [heq, List.mem_append, List.mem_singleton]
    rintro (hmem | hserial)
    · exact h.alive b hb hmem
    · exact hba (h.serial_inj b a hb ha hserial)
  · refine List.nodup_append.mpr ⟨h.nodup, List.pairwise_singleton .., fun n hn m hm hnm => ?_⟩
    rw [hnm, List.mem_singleton.mp hm] at hn
    exact h.alive a ha hn
  · rcases List.mem_append.mp hn with hn | hn
    · exact h.destroyed_lt n hn
    · rw [List.mem_singleton.mp hn]
      exact h.serial_lt a ha
  · rcases h.accounted n hn with hmem | ⟨b, hb, hserial⟩
    · exact Or.inl (List.mem_append_left _ hmem)
    · by_cases hba : b = a
      · subst hba
        exact Or.inl (List.mem_append_right _ (List.mem_singleton.mpr hserial.symm))
      · refine Or.inr ⟨b, ?_⟩
        change (Function.update s.heap a _ b).use ≠ .free ∧
          (Function.update s.heap a _ b).serial = n
        rw [Function.update_of_ne hba]
        exact ⟨hb, hserial⟩

theorem install (h : s.Ledger) (hinv : s.Inv) (ha : (s.heap a).use = .owned c) :
    (s.install c a).Ledger := by
  have hcurrent : (s.heap s.ptr).use = .current := (hinv.ptr s.ptr).mpr rfl
  have hne : a ≠ s.ptr := hinv.ne_ptr (by rw [ha]; nofun)
  have hunlink : (s.mark s.ptr (.unlinked c)).Ledger := h.mark (by rw [hcurrent]; nofun) nofun
  have howned : ((s.mark s.ptr (.unlinked c)).heap a).use ≠ .free := by
    rw [use_mark_of_ne _ _ hne, ha]
    nofun
  have hlink : ((s.mark s.ptr (.unlinked c)).mark a .current).Ledger := hunlink.mark howned nofun
  exact hlink.of_eq rfl rfl rfl

/-- What one step keeps. -/
theorem of_change (h : s.Ledger) (hinv : s.Inv) (hchange : s.Change s') : s'.Ledger := by
  cases hchange with
  | quiet hpc hheap hmade hdestroyed => exact h.of_eq hheap hmade hdestroyed
  | alloc hfree => exact (h.alloc hfree _).of_eq rfl rfl rfl
  | install howned => exact (h.install hinv howned).of_eq rfl rfl rfl
  | giveUp hfree _ huse =>
    refine (h.mark hfree ?_).of_eq rfl rfl rfl
    rcases huse with rfl | ⟨pins, rfl⟩ <;> nofun
  | destroy huse => exact h.destroy (by rw [huse]; nofun)
  | dropBox => exact h.of_eq rfl rfl rfl

theorem new (value : V) : (EpochBox.new value).Ledger := by
  have hfree : ∀ a, ((EpochBox.new value).heap a).use ≠ .free → a = 0 := by
    intro a ha
    by_contra hne
    exact ha (by simp [EpochBox.new, hne])
  refine ⟨fun a ha => ?_, fun a b ha hb _ => ?_, nofun, List.nodup_nil, nofun, fun n hn => ?_⟩
  · rw [hfree a ha]
    exact Nat.one_pos
  · rw [hfree a ha, hfree b hb]
  · obtain rfl := Nat.lt_one_iff.mp hn
    exact Or.inr ⟨0, by simp [EpochBox.new], rfl⟩

end Ledger

/-! ### The owners of the cells -/

namespace Owners

/-- A step of call `c`: what the other calls own stays with them, and what call `c` owns afterwards
it has at the place where it has arrived. -/
theorem of_call {p : EpochPc V} (h : s.Owners) (hpc : s'.pc = Function.update s.pc c p)
    (huse : ∀ b c', (s'.heap b).use = .owned c' ∨ (s'.heap b).use = .unlinked c' →
      (s.heap b).use = .owned c' ∨ (s.heap b).use = .unlinked c' ∨ c' = c ∧ Owns b p)
    (howns : ∀ b, Owns b (s.pc c) → (s'.heap b).use = .owned c ∨ (s'.heap b).use = .unlinked c →
      Owns b p)
    (hborrows : ∀ c' ≠ c, c' ∈ s.borrows → c' ∈ s'.borrows)
    (hself : p = .finished ∨ c ∈ s'.borrows) : s'.Owners := by
  refine ⟨fun b c' hb => ?_, fun c' => ?_⟩
  · by_cases hc : c' = c
    · subst hc
      rw [hpc, Function.update_self]
      rcases huse b c' hb with hold | hold | ⟨-, hp⟩
      · exact howns b (h.owner b c' (Or.inl hold)) hb
      · exact howns b (h.owner b c' (Or.inr hold)) hb
      · exact hp
    · rw [hpc, Function.update_of_ne hc]
      rcases huse b c' hb with hold | hold | ⟨hc', -⟩
      · exact h.owner b c' (Or.inl hold)
      · exact h.owner b c' (Or.inr hold)
      · exact absurd hc' hc
  · by_cases hc : c' = c
    · rw [hc, hpc, Function.update_self]
      exact Or.inr hself
    · rw [hpc, Function.update_of_ne hc]
      rcases h.borrows c' with hidle | hfinished | hmem
      · exact Or.inl hidle
      · exact Or.inr (Or.inl hfinished)
      · exact Or.inr (Or.inr (hborrows c' hc hmem))

/-- A step that no call takes, and that gives no cell to a call. -/
theorem of_pc (h : s.Owners) (hpc : s'.pc = s.pc) (hborrows : s'.borrows = s.borrows)
    (huse : ∀ b, (s'.heap b).use = .free ∨ (s'.heap b).use = (s.heap b).use) : s'.Owners := by
  refine ⟨fun b c hb => ?_, fun c => ?_⟩
  · rw [hpc]
    rcases huse b with hfree | hsame
    · rw [hfree] at hb
      exact absurd hb (by rintro (hb | hb) <;> exact absurd hb nofun)
    · exact h.owner b c (hsame ▸ hb)
  · rw [hpc, hborrows]
    exact h.borrows c

/-- What one step keeps. -/
theorem of_change (h : s.Owners) (hchange : s.Change s') : s'.Owners := by
  cases hchange with
  | quiet hpc hheap _ _ howns hborrows hself =>
    refine h.of_call hpc (fun b c' hb => ?_) (fun b hb => absurd hb (howns b)) hborrows hself
    rw [hheap] at hb
    exact or_assoc.mp (Or.inl hb)
  | @alloc c a v p hfree howns hp hself =>
    refine h.of_call rfl (fun b c' hb => ?_) (fun b hb => absurd hb (howns b)) (fun _ _ hc => hc)
      (Or.inr hself)
    by_cases hba : b = a
    · subst hba
      change (Function.update s.heap b _ b).use = _ ∨ (Function.update s.heap b _ b).use = _ at hb
      rw [Function.update_self] at hb
      rcases hb with hb | hb
      · exact Or.inr (Or.inr ⟨(CellUse.owned.inj hb).symm, hp⟩)
      · exact absurd hb nofun
    · change (Function.update s.heap a _ b).use = _ ∨ (Function.update s.heap a _ b).use = _ at hb
      rw [Function.update_of_ne hba] at hb
      exact or_assoc.mp (Or.inl hb)
  | @install c a op ret howned howns hself =>
    have hcases : ∀ b c', ((s.install c a).heap b).use = .owned c' ∨
        ((s.install c a).heap b).use = .unlinked c' →
        b ≠ a ∧
          (b = s.ptr ∧ c' = c ∨ (s.heap b).use = .owned c' ∨ (s.heap b).use = .unlinked c') := by
      intro b c' hb
      change (((s.mark s.ptr (.unlinked c)).mark a .current).heap b).use = _ ∨
        (((s.mark s.ptr (.unlinked c)).mark a .current).heap b).use = _ at hb
      by_cases hba : b = a
      · rw [hba, use_mark_self] at hb
        exact absurd hb (by rintro (hb | hb) <;> exact absurd hb nofun)
      · rw [use_mark_of_ne _ _ hba] at hb
        by_cases hbp : b = s.ptr
        · rw [hbp, use_mark_self] at hb
          rcases hb with hb | hb
          · exact absurd hb nofun
          · exact ⟨hba, Or.inl ⟨hbp, (CellUse.unlinked.inj hb).symm⟩⟩
        · rw [use_mark_of_ne _ _ hbp] at hb
          exact ⟨hba, Or.inr hb⟩
    refine h.of_call rfl (fun b c' hb => ?_) (fun b hown hb => ?_) (fun _ _ hc => hc) (Or.inr hself)
    · obtain ⟨-, ⟨hbp, hc⟩ | hold⟩ := hcases b c' hb
      · exact Or.inr (Or.inr ⟨hc, hbp.symm⟩)
      · exact or_assoc.mp (Or.inl hold)
    · exact absurd (howns b hown) (hcases b c hb).1
  | @giveUp c a use p hfree howns huse hself =>
    have hnot : ∀ c', ¬ (((s.mark a use).heap a).use = .owned c' ∨
        ((s.mark a use).heap a).use = .unlinked c') := by
      intro c' hb
      rw [use_mark_self] at hb
      rcases huse with rfl | ⟨pins, rfl⟩
      · rcases hb with hb | hb <;> exact absurd hb nofun
      · rcases hb with hb | hb <;> exact absurd hb nofun
    refine h.of_call rfl (fun b c' hb => ?_) (fun b hown hb => ?_) (fun _ _ hc => hc) (Or.inr hself)
    · by_cases hba : b = a
      · subst hba
        exact absurd hb (hnot c')
      · change ((s.mark a use).heap b).use = _ ∨ ((s.mark a use).heap b).use = _ at hb
        rw [use_mark_of_ne _ _ hba] at hb
        exact or_assoc.mp (Or.inl hb)
    · obtain rfl := howns b hown
      exact absurd hb (hnot c)
  | @destroy a junk pins huse =>
    refine h.of_pc rfl rfl fun b => ?_
    change (Function.update s.heap a _ b).use = _ ∨ (Function.update s.heap a _ b).use = _
    by_cases hba : b = a
    · rw [hba, Function.update_self]
      exact Or.inl rfl
    · rw [Function.update_of_ne hba]
      exact Or.inr rfl
  | dropBox => exact h.of_pc rfl rfl fun _ => Or.inr rfl

theorem new (value : V) : (EpochBox.new value).Owners := by
  refine ⟨fun a c ha => ?_, fun _ => Or.inl rfl⟩
  by_cases h0 : a = 0
  · simp [EpochBox.new, h0] at ha
  · simp [EpochBox.new, h0] at ha

end Owners

/-! ### Whole runs -/

/-- What holds after every run. -/
structure Books (s : EpochBox V) : Prop where
  inv : s.Inv
  ledger : s.Ledger
  owners : s.Owners

theorem Books.of_step (h : s.Books) {act : EpochAct V} (hstep : s.step act = some (e, s')) :
    s'.Books := by
  have hchange := change_of_moves h.owners h.inv (moves_of_step hstep)
  exact ⟨(stepOk h.inv ⟨act, hstep⟩).inv, h.ledger.of_change h.inv hchange,
    h.owners.of_change hchange⟩

theorem Books.new (value : V) : (EpochBox.new value).Books :=
  ⟨inv_new value, .new value, .new value⟩

theorem books_of_run {value : V} {es : List (EpochBox V × EpochAct V)}
    (hrun : (EpochBox.new value).Run es s) : s.Books := by
  refine hrun.invariant (fun s e s' h hstep => ?_) (Books.new value)
  obtain ⟨-, ev, hstep⟩ := hstep
  exact h.of_step hstep

/-- The pointer that a call can look at is safe, wherever the call is: it was loaded under the guard
that the call still has. -/
theorem Inv.safe_of_ptr? (h : s.Inv) (hc : (s.pc c).ptr? = some a) : s.Safe c a := by
  have hcall := h.call c
  cases hpc : s.pc c with
  | reading op ptr | loaded f ptr | guarding ptr =>
    rw [hpc] at hc hcall
    obtain rfl := Option.some.inj hc
    exact hcall
  | produced f ptr b =>
    rw [hpc] at hc hcall
    obtain rfl := Option.some.inj hc
    exact hcall.1
  | _ =>
    rw [hpc] at hc
    exact absurd hc nofun

/-- **Nothing is destroyed that a call can look at.** A call that can look at a cell is pinned since
before the cell was unlinked, and the destruction waits for all calls that were pinned then. -/
theorem destroysUnguarded {value : V} {es : List (EpochBox V × EpochAct V)}
    (hrun : (EpochBox.new value).Run es s) : DestroysUnguarded es := by
  have hrun' : s.Books ∧ DestroysUnguarded es := by
    refine hrun.history (P := fun es s => s.Books ∧ DestroysUnguarded es)
      (fun es s e s' h hstep => ?_) ⟨Books.new value, by simp [DestroysUnguarded]⟩
    obtain ⟨hbooks, hes⟩ := h
    obtain ⟨rfl, ev, hstep⟩ := hstep
    refine ⟨hbooks.of_step hstep, fun s₁ a junk hmem c hc => ?_⟩
    rcases List.mem_append.mp hmem with hmem | hmem
    · exact hes s₁ a junk hmem c hc
    · obtain rfl := List.mem_singleton.mp hmem
      obtain ⟨hpinned, hprotects⟩ := hbooks.inv.safe_of_ptr? hc
      rw [step] at hstep
      split at hstep
      · rename_i pins huse
        split_ifs at hstep with hpins
        rw [huse] at hprotects
        exact of_decide_eq_true (List.all_eq_true.mp hpins c hprotects) hpinned
      · simp at hstep
  exact hrun'.2

/-- **The lost values.** After a complete run a value is destroyed once, unless it is in the box or
an exchange has failed to put it there; then it is never destroyed. No value is destroyed twice. -/
theorem lost_iff {value : V} {es : List (EpochBox V × EpochAct V)}
    (hrun : (EpochBox.new value).Run es s) (hcomplete : s.Complete) (n : Nat) (hn : n < s.made) :
    s.destroyed.count n = 1 ↔
      ¬ ∃ a, (s.heap a).serial = n ∧ ((s.heap a).use = .current ∨ (s.heap a).use = .leaked) := by
  obtain ⟨hinv, hledger, howners⟩ := books_of_run hrun
  -- no call is left that owns a cell
  have howned : ∀ a c, ¬ ((s.heap a).use = .owned c ∨ (s.heap a).use = .unlinked c) := by
    intro a c ha
    have hown := howners.owner a c ha
    rcases howners.borrows c with hpc | hpc | hmem
    · rw [hpc] at hown
      exact hown
    · rw [hpc] at hown
      exact hown
    · rw [hcomplete.borrows] at hmem
      exact absurd hmem List.not_mem_nil
  constructor
  · rintro hcount ⟨a, rfl, ha⟩
    have hfree : (s.heap a).use ≠ .free := by
      rcases ha with ha | ha <;> rw [ha] <;> nofun
    rw [List.count_eq_zero.mpr (hledger.alive a hfree)] at hcount
    exact absurd hcount nofun
  · intro hnot
    rcases hledger.accounted n hn with hmem | ⟨a, hfree, hserial⟩
    · rw [hledger.nodup.count, if_pos hmem]
    · refine absurd ⟨a, hserial, ?_⟩ hnot
      cases huse : (s.heap a).use with
      | current => exact Or.inl rfl
      | leaked => exact Or.inr rfl
      | free => exact absurd huse hfree
      | owned c => exact absurd (Or.inl huse) (howned a c)
      | unlinked c => exact absurd (Or.inr huse) (howned a c)
      | retired pins => exact absurd huse (hcomplete.deferred a pins)

/-- **The last value is lost.** After no complete run every value is destroyed once: the one that is
in the box when the box is dropped never is. There is no `Drop` for the box, and the atomic pointer
does not own what it points to. -/
theorem last_value_lost {value : V} {es : List (EpochBox V × EpochAct V)}
    (hrun : (EpochBox.new value).Run es s) (_hcomplete : s.Complete) :
    ¬ (s.AllDestroyedOnce ∧ DestroysUnguarded es) := by
  rintro ⟨hall, -⟩
  obtain ⟨hinv, hledger, -⟩ := books_of_run hrun
  have hfree : (s.heap s.ptr).use ≠ .free := by
    rw [(hinv.ptr s.ptr).mpr rfl]
    nofun
  have hcount := hall _ (hledger.serial_lt s.ptr hfree)
  rw [List.count_eq_zero.mpr (hledger.alive s.ptr hfree)] at hcount
  exact absurd hcount nofun

/-- A value is written and the old one is destroyed; then the box is dropped. -/
theorem last_value_lost_of_write : ∃ es s, (EpochBox.new 0).Run es s ∧ s.Complete ∧
    s.made = 2 ∧ s.destroyed = [0] ∧ ¬ (s.AllDestroyedOnce ∧ DestroysUnguarded es) := by
  have hacts : ∃ es s, runOps (tracing step) (EpochBox.new 0) [.invoke 0 (.write 1), .pin 0,
      .fill 0 1, .swap 0, .retire 0, .unpin 0, .respond 0, .destroy 0 0, .dropBox] = some (es, s) ∧
      s.made = 2 ∧ s.destroyed = [0] ∧ s.Complete := by
    refine ⟨_, _, rfl, rfl, rfl, rfl, rfl, rfl, fun a pins => ?_⟩
    match a with
    | 0 => exact nofun
    | 1 => exact nofun
    | a + 2 => exact nofun
  obtain ⟨es, s, hacts, hmade, hdestroyed, hcomplete⟩ := hacts
  have hrun : (EpochBox.new 0).Run es s := .of_tracing hacts
  exact ⟨es, s, hrun, hcomplete, hmade, hdestroyed, last_value_lost hrun hcomplete⟩

/-- A box that is made and dropped: its value is never destroyed. -/
theorem new_dropped : ∃ es s, (EpochBox.new 0).Run es s ∧ s.Complete ∧
    ¬ (s.AllDestroyedOnce ∧ DestroysUnguarded es) := by
  have hacts : ∃ es s, runOps (tracing step) (EpochBox.new 0) [.dropBox] = some (es, s) ∧
      s.made = 1 ∧ s.destroyed = [] ∧ s.Complete := by
    refine ⟨_, _, rfl, rfl, rfl, rfl, rfl, rfl, fun a pins => ?_⟩
    match a with
    | 0 => exact nofun
    | a + 1 => exact nofun
  obtain ⟨es, s, hacts, hmade, hdestroyed, hcomplete⟩ := hacts
  refine ⟨es, s, .of_tracing hacts, hcomplete, fun h => ?_⟩
  have hcount := h.1 0 (by rw [hmade]; exact Nat.one_pos)
  rw [hdestroyed] at hcount
  exact absurd hcount nofun

end EpochBox

end ZprUtils.Rcu
