import ZprUtils.Foundations.MachineInt

/-!
# Calls that panic, unwind or wait

A call on a shared state returns a value, or it is interrupted: it panics and unwinds, it waits for
a lock, or it aborts the process. The state after a panic is kept, since other threads go on with
it. `Call.andDrop` runs the destructor of a local value after a computation, also when the
computation unwinds; a second panic during the unwinding aborts.

## Main definitions

* `Interrupt`, `Call` — calls and how they are interrupted.
* `Call.andDrop` — scope exit.
* `Call.Contract`, `Call.Respects` — what a call keeps to in each of its parts, however it ends.

## Main results

* `Call.andDrop_apply` — a scope runs the destructor of its local value.
* `Call.Respects.bind`, `Call.Respects.andDrop` — a contract is kept along sequences and scopes.
-/

namespace ZprUtils

/-- How a call is interrupted. -/
inductive Interrupt where
  /-- The call panics and unwinds. -/
  | panicked (fault : RustFault)
  /-- The call waits for a lock that is held. -/
  | blocked
  /-- A destructor panics during unwinding. -/
  | aborted
  deriving DecidableEq, Repr

/-- A call on a state: its outcome and the state it leaves. -/
def Call (σ β : Type) : Type := σ → Except Interrupt β × σ

namespace Call

variable {σ β γ : Type}

instance : Monad (Call σ) where
  pure b := fun s => (.ok b, s)
  bind m f := fun s =>
    match m s with
    | (.ok b, s') => f b s'
    | (.error e, s') => (.error e, s')

/-- The state. -/
def get : Call σ σ := fun s => (.ok s, s)

/-- Change the state by `f`. -/
def modify (f : σ → σ) : Call σ Unit := fun s => (.ok (), f s)

/-- End the call, with the state as it is. -/
def interrupt (e : Interrupt) : Call σ β := fun s => (.error e, s)

/-- A computation that may fault, lifted to a call. -/
def liftFault : Except RustFault β → Call σ β
  | .ok b => pure b
  | .error fault => interrupt (.panicked fault)

/-- The interruption of an unwinding call whose destructor is interrupted in turn. -/
def whileUnwinding : Interrupt → Interrupt
  | .blocked => .blocked
  | _ => .aborted

/-- Run `m` and then the destructor `d` of a local value, also when `m` unwinds. -/
def andDrop (m : Call σ β) (d : Call σ Unit) : Call σ β := fun s =>
  match m s with
  | (.ok b, s') => (d >>= fun _ => pure b) s'
  | (.error (.panicked fault), s') =>
    match d s' with
    | (.ok _, s'') => (.error (.panicked fault), s'')
    | (.error e, s'') => (.error (whileUnwinding e), s'')
  | (.error e, s') => (.error e, s')

variable {s s' s'' : σ} {m : Call σ β} {f : β → Call σ γ} {d : Call σ Unit}

@[simp] theorem pure_apply (b : β) : (pure b : Call σ β) s = (.ok b, s) := rfl

@[simp] theorem modify_apply (g : σ → σ) : modify g s = (.ok (), g s) := rfl

@[simp] theorem liftFault_ok (b : β) : (liftFault (.ok b) : Call σ β) s = (.ok b, s) := rfl

@[simp] theorem pure_bind_apply (b : β) : ((pure b : Call σ β) >>= f) s = f b s := rfl

@[simp] theorem get_bind_apply {f : σ → Call σ γ} : ((get : Call σ σ) >>= f) s = f s s := rfl

@[simp] theorem modify_bind_apply {f : Unit → Call σ γ} (g : σ → σ) :
    (modify g >>= f) s = f () (g s) := rfl

theorem bind_apply_ok {b : β} (h : m s = (.ok b, s')) : (m >>= f) s = f b s' := by
  simp only [bind, h]

theorem bind_apply_error {e : Interrupt} (h : m s = (.error e, s')) :
    (m >>= f) s = (.error e, s') := by
  simp only [bind, h]

@[simp] theorem bind_bind_apply {δ : Type} {k : γ → Call σ δ} :
    ((m >>= f) >>= k) s = (m >>= fun b => f b >>= k) s := by
  rcases hm : m s with ⟨r, s'⟩
  cases r with
  | ok b => simp only [bind, hm]
  | error e => simp only [bind, hm]

theorem map_apply_ok {g : β → γ} {b : β} (h : m s = (.ok b, s')) :
    (g <$> m) s = (.ok (g b), s') := by
  simp only [Functor.map, h, Function.comp]

theorem map_apply_error {g : β → γ} {e : Interrupt} (h : m s = (.error e, s')) :
    (g <$> m) s = (.error e, s') := by
  simp only [Functor.map, h]

/-- What is done with the result of a call leaves the state alone. -/
theorem map_snd (g : β → γ) : ((g <$> m) s).2 = (m s).2 := by
  rcases hm : m s with ⟨r, t⟩
  cases r with
  | ok b => rw [map_apply_ok hm]
  | error e => rw [map_apply_error hm]

theorem map_eq_ok {g : β → γ} {c : γ} (h : (g <$> m) s = (.ok c, s')) :
    ∃ b, m s = (.ok b, s') ∧ g b = c := by
  rcases hm : m s with ⟨r, t⟩
  cases r with
  | ok b =>
    rw [map_apply_ok hm, Prod.mk.injEq, Except.ok.injEq] at h
    obtain ⟨hc, rfl⟩ := h
    exact ⟨b, rfl, hc⟩
  | error e =>
    rw [map_apply_error hm] at h
    exact absurd (congrArg Prod.fst h) (by simp)

theorem andDrop_apply_blocked (hm : m s = (.error .blocked, s')) :
    m.andDrop d s = (.error .blocked, s') := by
  simp only [andDrop, hm]

/-- A scope whose body returns or panics runs its destructor: it waits exactly when the destructor
waits, and returns exactly when both return. -/
theorem andDrop_apply {r : Except Interrupt β} {r' : Except Interrupt Unit} (hm : m s = (r, s'))
    (hr : (∃ b, r = .ok b) ∨ ∃ fault, r = .error (.panicked fault)) (hd : d s' = (r', s'')) :
    ∃ o, m.andDrop d s = (o, s'') ∧ (o = .error .blocked ↔ r' = .error .blocked) ∧
      ∀ b, o = .ok b ↔ r = .ok b ∧ r' = .ok () := by
  rcases hr with ⟨b, rfl⟩ | ⟨fault, rfl⟩
  · cases r' with
    | ok u =>
      exact ⟨.ok b, by simp only [andDrop, hm, bind_apply_ok hd, pure_apply], by simp, by simp⟩
    | error e =>
      exact ⟨.error e, by simp only [andDrop, hm, bind_apply_error hd], by simp, by simp⟩
  · cases r' with
    | ok u => exact ⟨.error (.panicked fault), by simp only [andDrop, hm, hd], by simp, by simp⟩
    | error e =>
      refine ⟨.error (whileUnwinding e), by simp only [andDrop, hm, hd], ?_, by simp⟩
      cases e <;> simp [whileUnwinding]

/-! ### Contracts -/

/-- What every part of a call keeps to: an invariant of the states, a relation between the state
before a part and the state after it, and whether a part may wait for a lock. The relation is
reflexive and transitive, so that a sequence of parts keeps to what each of them keeps to. -/
structure Contract (σ : Type) where
  inv : σ → Prop
  rel : σ → σ → Prop
  waits : Prop
  refl : ∀ s, rel s s
  trans : ∀ {s s' s'' : σ}, rel s s' → rel s' s'' → rel s s''

namespace Contract

/-- The state changes from `s` to `s'` within the contract. -/
structure Allows (C : Contract σ) (s s' : σ) : Prop where
  inv : C.inv s'
  rel : C.rel s s'

variable {C : Contract σ}

theorem Allows.of_refl (hs : C.inv s) : C.Allows s s := ⟨hs, C.refl s⟩

theorem Allows.trans (h : C.Allows s s') (h' : C.Allows s' s'') : C.Allows s s'' :=
  ⟨h'.inv, C.trans h.rel h'.rel⟩

/-- The contract that says of the states that they have the property `P`, and nothing else. -/
def preserving (P : σ → Prop) : Contract σ where
  inv := P
  rel _ _ := True
  waits := True
  refl _ := trivial
  trans _ _ := trivial

theorem Allows.preserving {P : σ → Prop} (h : P s') : (Contract.preserving P).Allows s s' :=
  ⟨h, trivial⟩

end Contract

/-- From a state with the invariant of the contract the call changes the state within the contract,
however it ends, and it waits only if the contract says so. -/
def Respects (C : Contract σ) (m : Call σ β) : Prop :=
  ∀ s, C.inv s → C.Allows s (m s).2 ∧ ((m s).1 = .error .blocked → C.waits)

namespace Respects

variable {C : Contract σ}

theorem pure (b : β) : Respects C (pure b : Call σ β) := fun _ hs => ⟨.of_refl hs, nofun⟩

theorem get : Respects C (get : Call σ σ) := fun _ hs => ⟨.of_refl hs, nofun⟩

theorem panicked (fault : RustFault) : Respects C (interrupt (.panicked fault) : Call σ β) :=
  fun _ hs => ⟨.of_refl hs, nofun⟩

theorem modify {g : σ → σ} (hg : ∀ s, C.inv s → C.Allows s (g s)) : Respects C (modify g) :=
  fun s hs => ⟨hg s hs, nofun⟩

theorem liftFault (r : Except RustFault β) : Respects C (liftFault r : Call σ β) := by
  cases r with
  | ok b => exact pure b
  | error fault => exact panicked fault

theorem bind (hm : Respects C m) (hf : ∀ b, Respects C (f b)) : Respects C (m >>= f) := by
  intro s hs
  obtain ⟨hallows, hwaits⟩ := hm s hs
  rcases h : m s with ⟨r, s'⟩
  rw [h] at hallows hwaits
  cases r with
  | ok b =>
    rw [bind_apply_ok h]
    obtain ⟨hallows', hwaits'⟩ := hf b s' hallows.inv
    exact ⟨hallows.trans hallows', hwaits'⟩
  | error e =>
    rw [bind_apply_error h]
    exact ⟨hallows, fun he => hwaits (congrArg _ (Except.error.inj he))⟩

theorem map {g : β → γ} (hm : Respects C m) : Respects C (g <$> m) := by
  intro s hs
  obtain ⟨hallows, hwaits⟩ := hm s hs
  refine ⟨by rwa [map_snd], fun he => hwaits ?_⟩
  rcases h : m s with ⟨r, s'⟩
  cases r with
  | ok b =>
    rw [map_apply_ok h] at he
    exact absurd he nofun
  | error e =>
    rw [map_apply_error h] at he
    exact congrArg _ (Except.error.inj he)

/-- The destructor runs after a body that returns or panics, and not after one that waits or
aborts. -/
theorem andDrop (hm : Respects C m) (hd : Respects C d) : Respects C (m.andDrop d) := by
  intro s hs
  obtain ⟨hallows, hwaits⟩ := hm s hs
  rcases h : m s with ⟨r, s'⟩
  rw [h] at hallows hwaits
  have hdrop : (∃ b, r = .ok b) ∨ (∃ fault, r = .error (.panicked fault)) →
      C.Allows s (m.andDrop d s).2 ∧ ((m.andDrop d s).1 = .error .blocked → C.waits) := by
    intro hend
    obtain ⟨hallows', hwaits'⟩ := hd s' hallows.inv
    rcases h' : d s' with ⟨r', s''⟩
    rw [h'] at hallows' hwaits'
    obtain ⟨o, ho, hblocked, -⟩ := andDrop_apply h hend h'
    rw [ho]
    exact ⟨hallows.trans hallows', fun he => hwaits' (hblocked.mp he)⟩
  match r, h with
  | .ok b, _ => exact hdrop (Or.inl ⟨b, rfl⟩)
  | .error (.panicked fault), _ => exact hdrop (Or.inr ⟨fault, rfl⟩)
  | .error .blocked, h =>
    rw [andDrop_apply_blocked h]
    exact ⟨hallows, fun _ => hwaits rfl⟩
  | .error .aborted, h =>
    simp only [Call.andDrop, h]
    exact ⟨hallows, nofun⟩

end Respects

end Call

end ZprUtils
