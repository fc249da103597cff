import ZprUtils.Cslab.ConcurrentIter
import ZprUtils.RcuCslab.ReaderLife

/-!
# Guarded entries of an RCU slab

The read handles of an `RcuCslab` are published in an `RcuBox`. `get_guarded` gets the handle that
is in the box and checks that an item is present; `find_guarded` gets the handle and searches for an
item that a predicate accepts. Both return a guard that keeps the handle and looks at the item
without another check.

The box is taken at its word: it drops a handle that was replaced when no guard refers to it any
more. Calls of the slab, publications, drops, and every load of a lookup are steps of their own.

## Main definitions

* `GuardedSlab`, `GuardedSlab.Step` — the slab, the box and the lookups; one step.
* `GuardedSlab.deref` — what the guard of a lookup refers to.
* `GuardedSlab.Shows` — the item with which a guard is made.

## Main results

* `GuardedSlab.Inv.of_step` — one step.
* `GuardedSlab.Step.shows` — a step that makes a guard shows an item.
* `GuardedSlab.guarded_entry_valid` — every run.
-/

namespace ZprUtils.Rcu

open RcuCslab (HasReader Holder)

variable {α : Type}

/-- Where a lookup is; `h` is the read handle that its guard of the box refers to. -/
inductive LookupPc where
  | idle
  /-- `get_guarded` checks the key. -/
  | checking (h key : Nat)
  /-- `find_guarded` makes an iterator. -/
  | starting (h : Nat)
  | searching (h : Nat) (it : Iter)
  /-- The iterator has found an item and the predicate is called with it. -/
  | asking (h : Nat) (it : Iter) (key : Nat)
  /-- The guard of the entry is returned. -/
  | guarding (h key : Nat)
  | finished
  deriving DecidableEq, Repr

/-- The read handle that a lookup refers to. -/
def LookupPc.handle? : LookupPc → Option Nat
  | .checking h _ | .starting h | .searching h _ | .asking h _ _ | .guarding h _ => some h
  | .idle | .finished => none

/-- After one load of `find_guarded`. -/
def LookupPc.afterRound (h : Nat) : Round → LookupPc
  | .done _ => .finished
  | .found key it => .asking h it key
  | .more it => .searching h it

/-- The slab, the read handle in the box, those that were replaced and are not dropped yet, and the
lookups, which are numbered. -/
structure GuardedSlab (α : Type) where
  slab : RcuCslab.State α
  content : Nat
  replaced : List Nat
  pc : Nat → LookupPc

/-- A step of the system. -/
inductive GuardedAct (α : Type) where
  | slab (op : RcuCslab.Op α)
  /-- `RcuBox::write` with the read handle `h`. -/
  | publish (h : Nat)
  /-- The drop of a read handle that was replaced. -/
  | destroy (h : Nat)
  | getGuarded (c key : Nat)
  | containsKey (c : Nat)
  | findGuarded (c : Nat)
  | iter (c : Nat)
  | load (c : Nat)
  | answer (c : Nat) (accept : Bool)
  | dropGuard (c : Nat)

namespace GuardedSlab

/-- The box owns the read handle. -/
def Boxed (s : GuardedSlab α) (h : Nat) : Prop := h ∈ s.content :: s.replaced

/-- A new box with the read handle `h`. -/
def new (slab : RcuCslab.State α) (h : Nat) : GuardedSlab α := ⟨slab, h, [], fun _ => .idle⟩

/-- Lookup `c` goes on to `pc`. -/
def goto (s : GuardedSlab α) (c : Nat) (pc : LookupPc) : GuardedSlab α :=
  { s with pc := Function.update s.pc c pc }

/-- One step. The answers of the predicate are arbitrary. -/
inductive Step (s : GuardedSlab α) : GuardedAct α → GuardedSlab α → Prop
  | slab {op : RcuCslab.Op α} {o : Except Interrupt (RcuCslab.Ret α)} {slab' : RcuCslab.State α}
      (hstep : RcuCslab.step s.slab op = some (o, slab'))
      (howned : ∀ h, op = .readerDrop h → ¬ s.Boxed h) : Step s (.slab op) { s with slab := slab' }
  | publish {h : Nat} {r : RcuCslab.Reader} (halive : HandleAt s.slab.readers h r)
      (howned : ¬ s.Boxed h) :
      Step s (.publish h) { s with content := h, replaced := s.content :: s.replaced }
  | destroy {h : Nat} {o : Except Interrupt (RcuCslab.Ret α)} {slab' : RcuCslab.State α}
      (hreplaced : h ∈ s.replaced) (hunguarded : ∀ c, (s.pc c).handle? ≠ some h)
      (hstep : RcuCslab.step s.slab (.readerDrop h) = some (o, slab'))
      (hdone : o ≠ .error .blocked) :
      Step s (.destroy h) { s with slab := slab', replaced := s.replaced.erase h }
  | getGuarded {c key : Nat} (hpc : s.pc c = .idle) :
      Step s (.getGuarded c key) (s.goto c (.checking s.content key))
  | containsKey {c h key : Nat} {present : Bool} (hpc : s.pc c = .checking h key)
      (hread : RcuCslab.readerContainsKey key s.slab = (.ok present, s.slab)) :
      Step s (.containsKey c) (s.goto c (if present then .guarding h key else .finished))
  | findGuarded {c : Nat} (hpc : s.pc c = .idle) :
      Step s (.findGuarded c) (s.goto c (.starting s.content))
  | iter {c h : Nat} (hpc : s.pc c = .starting h) :
      Step s (.iter c) (s.goto c (.searching h (Iter.new s.slab.cslab.storage)))
  | exhausted {c h : Nat} {it : Iter} (hpc : s.pc c = .searching h it) (hge : it.head ≥ it.tail) :
      Step s (.load c) (s.goto c .finished)
  | load {c h : Nat} {it : Iter} {word : Word} (hpc : s.pc c = .searching h it)
      (hlt : it.head < it.tail)
      (hread : s.slab.cslab.storage.loadBitmap (it.head / usizeBits) = .ok word) :
      Step s (.load c) (s.goto c (.afterRound h (it.nextRound word)))
  | answer {c h key : Nat} {it : Iter} {accept : Bool} (hpc : s.pc c = .asking h it key) :
      Step s (.answer c accept) (s.goto c (if accept then .guarding h key else .searching h it))
  | dropGuard {c h key : Nat} (hpc : s.pc c = .guarding h key) :
      Step s (.dropGuard c) (s.goto c .finished)

/-- A run. -/
abbrev Run (s : GuardedSlab α) (acts : List (GuardedAct α)) (s' : GuardedSlab α) : Prop :=
  Steps Step s acts s'

/-- What the guard of lookup `c` refers to. -/
def deref (s : GuardedSlab α) (c : Nat) : Option (Except Interrupt α) :=
  match s.pc c with
  | .guarding _ key => some (RcuCslab.readerGetUnchecked key s.slab).1
  | _ => none

/-- The step `act` makes lookup `c` a guard of the entry `key` with the item `x`, which is present,
or which the predicate has looked at and accepted. -/
inductive Shows (s : GuardedSlab α) : GuardedAct α → Nat → Nat → α → Prop
  | present {c h key : Nat} {x : α} (hpc : s.pc c = .checking h key)
      (hlive : s.slab.cslab.slot key = .live x) : Shows s (.containsKey c) c key x
  | accepted {c h key : Nat} {it : Iter} {x : α} (hpc : s.pc c = .asking h it key)
      (hread : (RcuCslab.readerGetUnchecked key s.slab).1 = .ok x) :
      Shows s (.answer c true) c key x

/-! ### The invariant -/

/-- What a lookup relies on: its iterator is within the storage, and the item that it has found is
protected by its read handle. -/
def PlaceOk (slab : RcuCslab.State α) : LookupPc → Prop
  | .searching _ it => it.tail ≤ slab.cslab.storage.size
  | .asking h it key =>
    it.tail ≤ slab.cslab.storage.size ∧ ∃ x, (Holder.reader h).Protects key x slab
  | .guarding h key => ∃ x, (Holder.reader h).Protects key x slab
  | _ => True

/-- The handles of the box are alive, and every lookup refers to one of them. -/
structure Inv (s : GuardedSlab α) : Prop where
  slab : RcuCslab.Inv {} s.slab
  nodup : (s.content :: s.replaced).Nodup
  alive : ∀ h, s.Boxed h → (Holder.reader h).Alive s.slab
  handle : ∀ c h, (s.pc c).handle? = some h → s.Boxed h
  place : ∀ c, PlaceOk s.slab (s.pc c)

variable {s s' : GuardedSlab α} {act : GuardedAct α} {c h key : Nat} {x : α} {p : LookupPc}

theorem alive_of_slabStep {slab slab' : RcuCslab.State α} {op : RcuCslab.Op α}
    {o : Except Interrupt (RcuCslab.Ret α)} (hstep : RcuCslab.step slab op = some (o, slab'))
    (hop : op ≠ .readerDrop h) (halive : (Holder.reader h).Alive slab) :
    (Holder.reader h).Alive slab' := by
  obtain ⟨r, hr⟩ := halive
  obtain ⟨r', hr', -⟩ := RcuCslab.hasReader_of_step hop hstep ⟨r, hr, rfl⟩
  exact ⟨r', hr'⟩

theorem PlaceOk.slabStep {slab slab' : RcuCslab.State α} {op : RcuCslab.Op α}
    {o : Except Interrupt (RcuCslab.Ret α)} (hp : PlaceOk slab p) (hi : RcuCslab.Inv {} slab)
    (hstep : RcuCslab.step slab op = some (o, slab')) : PlaceOk slab' p := by
  have hsize := RcuCslab.size_eq_of_step hi hstep
  cases p with
  | searching h it => exact hp.trans_eq hsize.symm
  | asking h it key =>
    obtain ⟨htail, x, hx⟩ := hp
    exact ⟨htail.trans_eq hsize.symm, x, hx.step hi hstep⟩
  | guarding h key =>
    obtain ⟨x, hx⟩ := hp
    exact ⟨x, hx.step hi hstep⟩
  | idle | checking | starting | finished => trivial

namespace Inv

/-- A step of the slab. -/
theorem of_slab {slab' : RcuCslab.State α} {op : RcuCslab.Op α} {replaced : List Nat}
    {o : Except Interrupt (RcuCslab.Ret α)} (hi : s.Inv)
    (hstep : RcuCslab.step s.slab op = some (o, slab')) (hsub : replaced.Sublist s.replaced)
    (hop : ∀ h, h ∈ s.content :: replaced → op ≠ .readerDrop h)
    (hhandle : ∀ c h, (s.pc c).handle? = some h → h ∈ s.content :: replaced) :
    Inv { s with slab := slab', replaced } where
  slab := RcuCslab.step_inv hi.slab hstep
  nodup := hi.nodup.sublist (hsub.cons_cons _)
  alive h hh := alive_of_slabStep hstep (hop h hh) (hi.alive h ((hsub.cons_cons _).subset hh))
  handle := hhandle
  place c := (hi.place c).slabStep hi.slab hstep

/-- A step of lookup `c`. -/
theorem of_goto (hi : s.Inv) (hhandle : ∀ h, p.handle? = some h → s.Boxed h)
    (hplace : PlaceOk s.slab p) : (s.goto c p).Inv := by
  refine ⟨hi.slab, hi.nodup, hi.alive, fun c' h hc => ?_, fun c' => ?_⟩
  · change (Function.update s.pc c p c').handle? = some h at hc
    by_cases hcc : c' = c
    · rw [hcc, Function.update_self] at hc
      exact hhandle h hc
    · rw [Function.update_of_ne hcc] at hc
      exact hi.handle c' h hc
  · change PlaceOk s.slab (Function.update s.pc c p c')
    by_cases hcc : c' = c
    · rw [hcc, Function.update_self]
      exact hplace
    · rw [Function.update_of_ne hcc]
      exact hi.place c'

theorem boxed_of_pc (hi : s.Inv) (hpc : s.pc c = p) (hp : p.handle? = some h) : s.Boxed h :=
  hi.handle c h (hpc ▸ hp)

theorem place_of_pc (hi : s.Inv) (hpc : s.pc c = p) : PlaceOk s.slab p := hpc ▸ hi.place c

/-- A handle in the box protects an item that is present: the handle is of the current generation or
of an earlier one, and the item is not removed yet. -/
theorem protects_of_live (hi : s.Inv) (hh : s.Boxed h) (hlive : s.slab.cslab.slot key = .live x) :
    (Holder.reader h).Protects key x s.slab := by
  obtain ⟨r, hr⟩ := hi.alive h hh
  exact ⟨(List.getElem?_eq_some_iff.mp hr).1, fun _ _ => Or.inl hlive⟩

theorem live_of_containsKey (hi : s.Inv) {present : Bool}
    (hread : RcuCslab.readerContainsKey key s.slab = (.ok present, s.slab)) :
    present = (s.slab.cslab.slot key).liveItem.isSome := by
  obtain ⟨free, hinv⟩ := hi.slab.pending.cslab
  have hok : RcuCslab.readerContainsKey key s.slab =
      (.ok (s.slab.cslab.slot key).liveItem.isSome, s.slab) := by
    rw [RcuCslab.readerContainsKey, Call.get_bind_apply, hinv.containsKeyImpl_eq,
      Call.liftFault_ok, hinv.bit_eq_isSome]
  exact Except.ok.inj (Prod.mk.inj (hread.symm.trans hok)).1

/-- What one load finds is present. The writer may clear the bit right after it; the handle of the
lookup still protects the item then. -/
theorem place_afterRound {it : Iter} {word : Word} (hi : s.Inv) (hh : s.Boxed h)
    (htail : it.tail ≤ s.slab.cslab.storage.size) (hlt : it.head < it.tail)
    (hread : s.slab.cslab.storage.loadBitmap (it.head / usizeBits) = .ok word) :
    PlaceOk s.slab (.afterRound h (it.nextRound word)) := by
  obtain ⟨free, hinv⟩ := hi.slab.pending.cslab
  have hspec := Iter.nextRound_spec (s.slab.cslab.storage.loadBitmap_eq_ok.mp hread) hlt
  cases hround : it.nextRound word with
  | done it' => trivial
  | more it' =>
    simp only [hround] at hspec
    exact hspec.2.2.1.trans_le htail
  | found key it' =>
    simp only [hround] at hspec
    obtain ⟨-, -, hbit, -, -, htail'⟩ := hspec
    have hlive : (s.slab.cslab.slot key).liveItem.isSome = true := by
      rw [← hinv.bit_eq_isSome]
      exact hbit
    obtain ⟨x, hx⟩ := Option.isSome_iff_exists.mp hlive
    exact ⟨htail'.trans_le htail, x, hi.protects_of_live hh (Slot.liveItem_eq_some.mp hx)⟩

/-- **One step** keeps the invariant, whoever makes it: the writer of the slab, a call on the box,
the lookup of a reader, or the drop of a guard. -/
theorem of_step (hi : s.Inv) (hstep : s.Step act s') : s'.Inv := by
  cases hstep with
  | slab hstep howned =>
    refine hi.of_slab hstep (List.Sublist.refl _) (fun h hh hop => ?_) hi.handle
    exact howned h hop hh
  | @publish h r halive howned =>
    refine ⟨hi.slab, List.nodup_cons.mpr ⟨howned, hi.nodup⟩, fun h' hh' => ?_,
      fun c h' hc => List.mem_cons_of_mem _ (hi.handle c h' hc), hi.place⟩
    rcases List.mem_cons.mp hh' with rfl | hh'
    · exact ⟨r, halive⟩
    · exact hi.alive h' hh'
  | @destroy h o slab' hreplaced hunguarded hstep hdone =>
    have hnodup := List.nodup_cons.mp hi.nodup
    have hne : ∀ h', h' ∈ s.content :: s.replaced.erase h → h' ≠ h := by
      rintro h' hh' rfl
      rcases List.mem_cons.mp hh' with rfl | hh'
      · exact hnodup.1 hreplaced
      · exact hnodup.2.not_mem_erase hh'
    refine hi.of_slab hstep List.erase_sublist (fun h' hh' hop => ?_) fun c h' hc => ?_
    · exact hne h' hh' (RcuCslab.Op.readerDrop.inj hop).symm
    · have hh' : h' ≠ h := by
        rintro rfl
        exact hunguarded c hc
      rcases List.mem_cons.mp (hi.handle c h' hc) with rfl | hmem
      · exact List.mem_cons_self
      · exact List.mem_cons_of_mem _ ((List.mem_erase_of_ne hh').mpr hmem)
  | getGuarded hpc | findGuarded hpc =>
    refine hi.of_goto (fun h hh => ?_) trivial
    obtain rfl := Option.some.inj hh
    exact List.mem_cons_self
  | @containsKey c h key present hpc hread =>
    have hboxed := hi.boxed_of_pc hpc rfl
    cases present with
    | false => exact hi.of_goto nofun trivial
    | true =>
      refine hi.of_goto (fun h' hh' => Option.some.inj hh' ▸ hboxed) ?_
      obtain ⟨x, hx⟩ := Option.isSome_iff_exists.mp (hi.live_of_containsKey hread).symm
      exact ⟨x, hi.protects_of_live hboxed (Slot.liveItem_eq_some.mp hx)⟩
  | @iter c h hpc =>
    have hboxed := hi.boxed_of_pc hpc rfl
    obtain ⟨free, hinv⟩ := hi.slab.pending.cslab
    exact hi.of_goto (fun h' hh' => Option.some.inj hh' ▸ hboxed) hinv.frontier_le
  | exhausted => exact hi.of_goto nofun trivial
  | @load c h it word hpc hlt hread =>
    have hboxed := hi.boxed_of_pc hpc rfl
    refine hi.of_goto (fun h' hh' => ?_)
      (hi.place_afterRound hboxed (hi.place_of_pc hpc) hlt hread)
    cases hround : it.nextRound word with
    | done it' =>
      rw [hround] at hh'
      exact absurd hh' nofun
    | found key it' | more it' =>
      rw [hround] at hh'
      exact Option.some.inj hh' ▸ hboxed
  | @answer c h key it accept hpc =>
    have hboxed := hi.boxed_of_pc hpc rfl
    obtain ⟨htail, hprotects⟩ := hi.place_of_pc hpc
    cases accept with
    | true => exact hi.of_goto (fun h' hh' => Option.some.inj hh' ▸ hboxed) hprotects
    | false => exact hi.of_goto (fun h' hh' => Option.some.inj hh' ▸ hboxed) htail
  | dropGuard => exact hi.of_goto nofun trivial

end Inv

/-! ### Runs -/

/-- The slab takes a step, or none. So what its own steps preserve is preserved here, and nothing
about them is proved again. -/
theorem Step.slab_cases (hstep : s.Step act s') :
    s'.slab = s.slab ∨ ∃ op o, RcuCslab.step s.slab op = some (o, s'.slab) := by
  cases hstep with
  | slab hstep => exact Or.inr ⟨_, _, hstep⟩
  | destroy _ _ hstep => exact Or.inr ⟨_, _, hstep⟩
  | _ => exact Or.inl rfl

theorem goto_pc_of_ne {c' : Nat} {q : LookupPc} (hc' : s.pc c' = q) (hq : q ≠ s.pc c) :
    (s.goto c' p).pc c = s.pc c := by
  refine Function.update_of_ne ?_ ..
  rintro rfl
  exact hq hc'.symm

/-- A guard stays as it is until it is dropped, and a lookup that has ended does nothing more. -/
theorem Step.pc_cases (hstep : s.Step act s')
    (hpc : s.pc c = .guarding h key ∨ s.pc c = .finished) :
    s'.pc c = s.pc c ∨ s'.pc c = .finished := by
  have hne : ∀ {q : LookupPc}, (∀ h key, q ≠ .guarding h key) → q ≠ .finished → q ≠ s.pc c := by
    intro q hguard hfinished
    rcases hpc with hpc | hpc
    · exact hpc ▸ hguard h key
    · exact hpc ▸ hfinished
  cases hstep with
  | slab | publish | destroy => exact Or.inl rfl
  | getGuarded hc | containsKey hc | findGuarded hc | iter hc | exhausted hc | load hc
  | answer hc =>
    exact Or.inl (goto_pc_of_ne hc (hne nofun nofun))
  | @dropGuard c' _ _ hc =>
    by_cases hcc : c = c'
    · exact Or.inr (hcc ▸ Function.update_self ..)
    · exact Or.inl (Function.update_of_ne hcc ..)

/-- The guard of lookup `c`, if it is alive, is the one of `key` and protects the item `x`. -/
def Guards (c h key : Nat) (x : α) (s : GuardedSlab α) : Prop :=
  (s.pc c = .guarding h key ∨ s.pc c = .finished) ∧ (Holder.reader h).Protects key x s.slab

/-- **One step** keeps the guard of a lookup, or drops it; and the reader that the guard is of goes
on protecting the item at its key. -/
theorem Guards.step (hg : Guards c h key x s) (hi : s.Inv) (hstep : s.Step act s') :
    Guards c h key x s' := by
  obtain ⟨hpc, hprotects⟩ := hg
  refine ⟨?_, ?_⟩
  · rcases hstep.pc_cases hpc with hsame | hfinished
    · rwa [hsame]
    · exact Or.inr hfinished
  · rcases hstep.slab_cases with hsame | ⟨op, o, hslab⟩
    · rwa [hsame]
    · exact hprotects.step hi.slab hslab

/-- The item that is protected is the one that is read. -/
theorem readerGetUnchecked_of_protects (hi : s.Inv) (hh : s.Boxed h)
    (hprotects : (Holder.reader h).Protects key x s.slab) :
    RcuCslab.readerGetUnchecked key s.slab = (.ok x, s.slab) := by
  have hitem := hprotects.item hi.slab (hi.alive h hh)
  rw [RcuCslab.readerGetUnchecked, Call.get_bind_apply, CslabStorage.getUncheckedImpl,
    s.slab.cslab.storage.readItem_eq_ok.mpr (Cslab.item_slot.mp hitem), Call.liftFault_ok]

/-- The step that makes a guard: after it the lookup has a guard, whose handle protects the item
that the step has shown. -/
theorem Shows.guards (hshows : s.Shows act c key x) (hi : s.Inv) (hstep : s.Step act s') :
    ∃ h, Guards c h key x s' := by
  cases hshows with
  | @present _ h _ _ hpc hlive =>
    cases hstep with
    | @containsKey _ h' key' present hpc' hread =>
      obtain ⟨rfl, rfl⟩ := LookupPc.checking.inj (hpc.symm.trans hpc')
      have hpresent := hi.live_of_containsKey hread
      rw [hlive] at hpresent
      refine ⟨h, ⟨Or.inl ?_, hi.protects_of_live (hi.boxed_of_pc hpc rfl) hlive⟩⟩
      change Function.update s.pc c _ c = _
      rw [Function.update_self, hpresent]
      rfl
  | @accepted _ h _ it _ hpc hread =>
    cases hstep with
    | @answer _ h' key' it' _ hpc' =>
      obtain ⟨rfl, rfl, rfl⟩ := LookupPc.asking.inj (hpc.symm.trans hpc')
      obtain ⟨-, y, hprotects⟩ := hi.place_of_pc hpc
      rw [readerGetUnchecked_of_protects hi (hi.boxed_of_pc hpc rfl) hprotects] at hread
      obtain rfl := Except.ok.inj hread
      exact ⟨h, ⟨Or.inl (Function.update_self ..), hprotects⟩⟩

/-- A step of a lookup that leaves lookup `c` somewhere else is one of `c`. -/
theorem eq_of_goto_pc {c' : Nat} {q : LookupPc} (hpc : (s.goto c' p).pc c = q)
    (hmoved : s.pc c ≠ q) : c' = c ∧ p = q := by
  by_cases hcc : c' = c
  · rw [hcc] at hpc
    exact ⟨hcc, (Function.update_self ..).symm.trans hpc⟩
  · exact absurd ((Function.update_of_ne (Ne.symm hcc) ..).symm.trans hpc) hmoved

/-- **Every step that makes a guard shows an item**: guards are made only of a key that is present,
or whose item the predicate has accepted. A lookup that finds nothing makes none. -/
theorem Step.shows (hstep : s.Step act s') (hi : s.Inv) (hguard : s'.pc c = .guarding h key)
    (hmade : s.pc c ≠ .guarding h key) : ∃ x, s.Shows act c key x := by
  cases hstep with
  | slab | publish | destroy => exact absurd hguard hmade
  | getGuarded | findGuarded | iter | exhausted | dropGuard =>
    exact absurd (eq_of_goto_pc hguard hmade).2 nofun
  | @containsKey c' h' key' present hpc hread =>
    obtain ⟨rfl, hgoto⟩ := eq_of_goto_pc hguard hmade
    cases present with
    | false => exact absurd hgoto nofun
    | true =>
      obtain ⟨rfl, rfl⟩ := LookupPc.guarding.inj hgoto
      obtain ⟨x, hx⟩ := Option.isSome_iff_exists.mp (hi.live_of_containsKey hread).symm
      exact ⟨x, .present hpc (Slot.liveItem_eq_some.mp hx)⟩
  | @load c' h' it word hpc =>
    obtain ⟨-, hgoto⟩ := eq_of_goto_pc hguard hmade
    cases hround : it.nextRound word with
    | done | found | more =>
      rw [hround] at hgoto
      exact absurd hgoto nofun
  | @answer c' h' key' it accept hpc =>
    obtain ⟨rfl, hgoto⟩ := eq_of_goto_pc hguard hmade
    cases accept with
    | false => exact absurd hgoto nofun
    | true =>
      obtain ⟨rfl, rfl⟩ := LookupPc.guarding.inj hgoto
      obtain ⟨-, x, hprotects⟩ := hi.place_of_pc hpc
      have hread := readerGetUnchecked_of_protects hi (hi.boxed_of_pc hpc rfl) hprotects
      exact ⟨x, .accepted hpc (congrArg Prod.fst hread)⟩

theorem inv_new {slab : RcuCslab.State α} {r : RcuCslab.Reader} (hi : RcuCslab.Inv {} slab)
    (hreader : HandleAt slab.readers h r) : (new slab h).Inv := by
  refine ⟨hi, List.nodup_singleton h, fun h' hh' => ?_, nofun, fun _ => trivial⟩
  obtain rfl := List.mem_singleton.mp hh'
  exact ⟨r, hreader⟩

/-- **Guarded entries are valid.** Whatever is called, published and dropped, and however it is
interleaved with the lookups: a step that makes a guard has found an item at its key, which was
present for `get_guarded`, or which the predicate of `find_guarded` has accepted. For as long as the
guard is alive, it is the guard of that key, the storage exists, and every dereference yields that
item. -/
theorem guarded_entry_valid {t : Layout} {capacity : Nat} {slab₀ slab : RcuCslab.State α}
    {es : List (RcuCslab.Op α × Except Interrupt (RcuCslab.Ret α))} {h₀ : Nat}
    {r₀ : RcuCslab.Reader} (hnew : RcuCslab.withFixedCapacity .memory t capacity = .ok slab₀)
    (hslab : RcuCslab.Run slab₀ es slab) (hreader : HandleAt slab.readers h₀ r₀)
    {s₁ s₂ : GuardedSlab α} {acts : List (GuardedAct α)} {act : GuardedAct α} {c : Nat}
    (hrun : (new slab h₀).Run acts s₁) (hstep : s₁.Step act s₂) :
    (∀ h key, s₂.pc c = .guarding h key → s₁.pc c ≠ .guarding h key →
      ∃ x, s₁.Shows act c key x) ∧
    ∀ key x, s₁.Shows act c key x →
      ∀ acts' s₃ h key', s₂.Run acts' s₃ → s₃.pc c = .guarding h key' →
        key' = key ∧ 0 < s₃.slab.storageStrong ∧ s₃.deref c = some (.ok x) := by
  have hi₁ : s₁.Inv := hrun.invariant (fun _ _ _ hi hstep => hi.of_step hstep)
    (inv_new (RcuCslab.inv_of_run hnew hslab) hreader)
  refine ⟨fun h key hguard hmade => hstep.shows hi₁ hguard hmade, ?_⟩
  intro key x hshows acts' s₃ h key' hrun' hguard
  obtain ⟨h', hguards⟩ := hshows.guards hi₁ hstep
  obtain ⟨hi₃, hpc, hprotects⟩ : s₃.Inv ∧ Guards c h' key x s₃ :=
    hrun'.invariant (P := fun s => s.Inv ∧ Guards c h' key x s)
      (fun _ _ _ hs hstep => ⟨hs.1.of_step hstep, hs.2.step hs.1 hstep⟩)
      ⟨hi₁.of_step hstep, hguards⟩
  rw [hguard] at hpc
  obtain ⟨rfl, rfl⟩ := LookupPc.guarding.inj (hpc.resolve_right nofun)
  have hboxed := hi₃.boxed_of_pc hguard rfl
  refine ⟨rfl, (hi₃.alive h hboxed).storage_pos hi₃.slab, ?_⟩
  rw [deref, hguard]
  exact congrArg (fun r => some r.1) (readerGetUnchecked_of_protects hi₃ hboxed hprotects)

/-- A guard of an item that is removed afterwards, with a newer reader published and another item
inserted. -/
theorem guarded_entry_valid_removed :
    ∃ (s : GuardedSlab Nat) (slab : RcuCslab.State Nat) (acts : List (GuardedAct Nat)),
      (new slab 0).Run acts s ∧ s.pc 5 = .guarding 0 0 ∧ s.content = 1 ∧
      s.slab.cslab.slot 0 = .pending 7 ∧ s.deref 5 = some (.ok 7) := by
  have hcalls : ∃ slab₀ slab slab₁ slab₂ : RcuCslab.State Nat,
      RcuCslab.withFixedCapacity .memory ⟨4, 4⟩ 2 = .ok slab₀ ∧
      runOps RcuCslab.step slab₀ [.insert 7, .reader] =
        some ([.ok (.key (some 0)), .ok (.handle (some 0))], slab) ∧
      HandleAt slab.readers 0 ⟨0, []⟩ ∧ slab.cslab.slot 0 = .live 7 ∧
      RcuCslab.readerContainsKey 0 slab = (.ok true, slab) ∧
      RcuCslab.step slab (.remove 0) = some (.ok (.handle (some 1)), slab₁) ∧
      HandleAt slab₁.readers 1 ⟨1, []⟩ ∧
      RcuCslab.step slab₁ (.insert 8) = some (.ok (.key (some 1)), slab₂) ∧
      slab₂.cslab.slot 0 = .pending 7 :=
    ⟨_, _, _, _, rfl, rfl, (by rfl), (by rfl), rfl, rfl, (by rfl), rfl, (by rfl)⟩
  obtain ⟨slab₀, slab, slab₁, slab₂, hnew, hslab, hreader, hlive, hpresent, hremove, hreader₁,
    hinsert, hpending⟩ := hcalls
  let checking : Nat → LookupPc := Function.update (fun _ => .idle) 5 (.checking 0 0)
  let guarding : Nat → LookupPc := Function.update checking 5 (.guarding 0 0)
  have hget : (new slab 0).Step (.getGuarded 5 0) ⟨slab, 0, [], checking⟩ := .getGuarded rfl
  have hcontains : Step ⟨slab, 0, [], checking⟩ (.containsKey 5) ⟨slab, 0, [], guarding⟩ :=
    .containsKey (s := ⟨slab, 0, [], checking⟩) rfl hpresent
  have hremoved : Step ⟨slab, 0, [], guarding⟩ (.slab (.remove 0)) ⟨slab₁, 0, [], guarding⟩ :=
    .slab hremove nofun
  have hpublished : Step ⟨slab₁, 0, [], guarding⟩ (.publish 1) ⟨slab₁, 1, [0], guarding⟩ :=
    .publish hreader₁ (show ¬ 1 ∈ [0] by decide)
  have hinserted : Step ⟨slab₁, 1, [0], guarding⟩ (.slab (.insert 8)) ⟨slab₂, 1, [0], guarding⟩ :=
    .slab hinsert nofun
  have hrun := ((Steps.single hremoved).snoc hpublished).snoc hinserted
  have hvalid := (guarded_entry_valid hnew (RcuCslab.Run.of_runOps hslab) hreader (.single hget)
    hcontains).2 0 7 (.present rfl hlive) _ _ 0 0 hrun rfl
  exact ⟨_, slab, _, ((Steps.single hget).snoc hcontains).append hrun, rfl, rfl, hpending,
    hvalid.2.2⟩

end GuardedSlab

end ZprUtils.Rcu
