import ZprUtils.Foundations.Runs

/-!
# Calls that take effect at one moment

An object is used by concurrent calls. Its sequential specification says what a call returns and
leaves when it runs alone. An implementation is atomic when every call takes effect at one moment
between its invocation and its response, as the specification says, and nothing else changes the
object. The moments order the calls, and the order agrees with real time.

`AtomicStep` is the machine of all atomic objects: a call is invoked, decided and responded to, and
the specification is applied when it is decided. An implementation that refines it step by step is
atomic.

## Main definitions

* `CallStatus`, `AtomicState`, `AtomicStep` — the machine of all atomic objects.
* `TakesEffect` — the calls of a run take effect at the given moments.

## Main results

* `exists_takesEffect` — a step-by-step refinement of the machine is atomic.
* `eq_of_responded` — a result that is looked at later is the one that was returned.
-/

namespace ZprUtils

variable {κ σ τ ω ρ : Type}

/-- Where a call is. -/
inductive CallStatus (ω ρ : Type) where
  | idle
  | pending (op : ω)
  | decided (op : ω) (ret : ρ)
  | returned

/-- What an observer of the calls sees of a step. -/
inductive CallEvent (κ ω ρ : Type) where
  | invoke (c : κ) (op : ω)
  | respond (c : κ) (ret : ρ)
  | silent

/-- An object and its calls. -/
structure AtomicState (κ σ ω ρ : Type) where
  value : σ
  status : κ → CallStatus ω ρ

/-- One step of an atomic object with the specification `spec`. -/
inductive AtomicStep [DecidableEq κ] (spec : ω → σ → ρ × σ) :
    AtomicState κ σ ω ρ → CallEvent κ ω ρ → AtomicState κ σ ω ρ → Prop
  | invoke {a : AtomicState κ σ ω ρ} {c : κ} {op : ω} (hidle : a.status c = .idle) :
      AtomicStep spec a (.invoke c op)
        { a with status := Function.update a.status c (.pending op) }
  | decide {a : AtomicState κ σ ω ρ} {c : κ} {op : ω} (hpending : a.status c = .pending op) :
      AtomicStep spec a .silent
        ⟨(spec op a.value).2, Function.update a.status c (.decided op (spec op a.value).1)⟩
  | respond {a : AtomicState κ σ ω ρ} {c : κ} {op : ω} {ret : ρ}
      (hdecided : a.status c = .decided op ret) :
      AtomicStep spec a (.respond c ret)
        { a with status := Function.update a.status c .returned }
  | silent {a : AtomicState κ σ ω ρ} : AtomicStep spec a .silent a

namespace AtomicStep

variable [DecidableEq κ] {spec : ω → σ → ρ × σ} {a a' : AtomicState κ σ ω ρ} {c : κ} {op : ω}
  {ret : ρ}

theorem eq_of_status {st : CallStatus ω ρ} (hc : a'.status c = st)
    (hother : ∀ c' ≠ c, a'.status c' = a.status c') :
    a' = ⟨a'.value, Function.update a.status c st⟩ := by
  have hstatus : a'.status = Function.update a.status c st := by
    funext c'
    by_cases hcc : c' = c
    · rw [hcc, Function.update_self, hc]
    · rw [Function.update_of_ne hcc, hother c' hcc]
  rw [← hstatus]

theorem of_invoke (hidle : a.status c = .idle) (hvalue : a'.value = a.value)
    (hc : a'.status c = .pending op) (hother : ∀ c' ≠ c, a'.status c' = a.status c') :
    AtomicStep spec a (.invoke c op) a' := by
  rw [eq_of_status hc hother, hvalue]
  exact invoke hidle

theorem of_decide (hpending : a.status c = .pending op) (hspec : spec op a.value = (ret, a'.value))
    (hc : a'.status c = .decided op ret) (hother : ∀ c' ≠ c, a'.status c' = a.status c') :
    AtomicStep spec a .silent a' := by
  have hstep : AtomicStep spec a .silent _ := decide hpending
  rw [hspec] at hstep
  rwa [eq_of_status hc hother]

theorem of_respond (hdecided : a.status c = .decided op ret) (hvalue : a'.value = a.value)
    (hc : a'.status c = .returned) (hother : ∀ c' ≠ c, a'.status c' = a.status c') :
    AtomicStep spec a (.respond c ret) a' := by
  rw [eq_of_status hc hother, hvalue]
  exact respond hdecided

theorem of_silent (hvalue : a'.value = a.value) (hstatus : ∀ c, a'.status c = a.status c) :
    AtomicStep spec a .silent a' := by
  have heq : a' = a := by
    obtain ⟨value, status⟩ := a
    obtain ⟨value', status'⟩ := a'
    obtain rfl : value' = value := hvalue
    obtain rfl : status' = status := funext hstatus
    rfl
  rw [heq]
  exact silent

/-- A call that has returned stays so, and is not responded to again. So the response of a call is
unique in a run, and everything that the call did lies before it. -/
theorem returned {e : CallEvent κ ω ρ} (h : AtomicStep spec a e a') (hc : a.status c = .returned) :
    a'.status c = .returned ∧ ∀ ret, e ≠ .respond c ret := by
  have hne : ∀ c', a.status c' ≠ .returned → c ≠ c' := by
    rintro c' hc' rfl
    exact hc' hc
  cases h with
  | invoke hidle =>
    exact ⟨(Function.update_of_ne (hne _ (by rw [hidle]; nofun)) _ _).trans hc, nofun⟩
  | decide hpending =>
    exact ⟨(Function.update_of_ne (hne _ (by rw [hpending]; nofun)) _ _).trans hc, nofun⟩
  | respond hdecided =>
    have hcc := hne _ (show a.status _ ≠ .returned by rw [hdecided]; nofun)
    refine ⟨(Function.update_of_ne hcc _ _).trans hc, fun ret he => ?_⟩
    exact hcc (CallEvent.respond.inj he).1.symm
  | silent => exact ⟨hc, nofun⟩

/-- A call that is responded to has returned. -/
theorem responded (h : AtomicStep spec a (.respond c ret) a') : a'.status c = .returned := by
  cases h with
  | respond hdecided => exact Function.update_self ..

end AtomicStep

/-- The call `c` of `op` is invoked before the moment `j`, and the specification takes the value at
`j` to the next one and the result `ret`. -/
def Effect (spec : ω → σ → ρ × σ) (es : List (CallEvent κ ω ρ)) (values : List σ) (c : κ) (op : ω)
    (ret : ρ) (j : Nat) : Prop :=
  (∃ i < j, es[i]? = some (.invoke c op)) ∧
    ∃ v v', values[j]? = some v ∧ values[j + 1]? = some v' ∧ spec op v = (ret, v')

/-- The calls in the events `es` take effect at the moments `moment`, where `values` are the values
of the object before each event and after the last: no two calls have the same moment, a call that
is responded to takes effect between its invocation and its response, and the value changes only at
the moment of a call. -/
structure TakesEffect (spec : ω → σ → ρ × σ) (es : List (CallEvent κ ω ρ)) (values : List σ)
    (moment : κ → Option Nat) : Prop where
  injective : ∀ c c' j, moment c = some j → moment c' = some j → c = c'
  invoked : ∀ (c : κ) (i i' : Nat) (op op' : ω), es[i]? = some (.invoke c op) →
    es[i']? = some (.invoke c op') → i = i'
  responded : ∀ (c : κ) (k : Nat) (ret : ρ), es[k]? = some (.respond c ret) →
    ∃ op j, moment c = some j ∧ j < k ∧ Effect spec es values c op ret j
  changes : ∀ (j : Nat) (v v' : σ), values[j]? = some v → values[j + 1]? = some v' → v ≠ v' →
    ∃ c op ret, moment c = some j ∧ Effect spec es values c op ret j

section

variable {spec : ω → σ → ρ × σ} {es : List (CallEvent κ ω ρ)} {values : List σ} {c : κ} {op : ω}
  {ret : ρ} {j : Nat}

theorem getElem?_concat_of_some {β : Type} {l : List β} {b b' : β} {i : Nat} (h : l[i]? = some b) :
    (l ++ [b'])[i]? = some b := by
  rw [List.getElem?_append_left (List.getElem?_eq_some_iff.mp h).1, h]

theorem getElem?_concat_eq_some {β : Type} {l : List β} {b b' : β} {i : Nat} :
    (l ++ [b'])[i]? = some b ↔ l[i]? = some b ∨ i = l.length ∧ b' = b := by
  constructor
  · intro h
    rcases Nat.lt_trichotomy i l.length with hlt | rfl | hgt
    · exact Or.inl (by rwa [List.getElem?_append_left hlt] at h)
    · exact Or.inr ⟨rfl, by simpa using h⟩
    · have hlt := (List.getElem?_eq_some_iff.mp h).1
      rw [List.length_append, List.length_singleton] at hlt
      omega
  · rintro (h | ⟨rfl, rfl⟩)
    · exact getElem?_concat_of_some h
    · simp

theorem Effect.concat {e : CallEvent κ ω ρ} {v : σ} (h : Effect spec es values c op ret j) :
    Effect spec (es ++ [e]) (values ++ [v]) c op ret j := by
  obtain ⟨⟨i, hi, hinvoke⟩, v₁, v₂, hv₁, hv₂, hspec⟩ := h
  exact ⟨⟨i, hi, getElem?_concat_of_some hinvoke⟩, v₁, v₂, getElem?_concat_of_some hv₁,
    getElem?_concat_of_some hv₂, hspec⟩

end

/-- What holds of the events `es` and the values `values` of a run of atomic steps that ends in `a`.
-/
structure AtomicInv (spec : ω → σ → ρ × σ) (es : List (CallEvent κ ω ρ)) (values : List σ)
    (a : AtomicState κ σ ω ρ) (moment : κ → Option Nat) : Prop where
  takesEffect : TakesEffect spec es values moment
  length : values.length = es.length + 1
  last : values[es.length]? = some a.value
  moment_lt : ∀ c j, moment c = some j → j < es.length
  idle : ∀ c, a.status c = .idle →
    (∀ (i : Nat) (op : ω), es[i]? ≠ some (.invoke c op)) ∧ moment c = none
  pending : ∀ c op, a.status c = .pending op →
    (∃ i : Nat, es[i]? = some (.invoke c op)) ∧ moment c = none
  decided : ∀ c op ret, a.status c = .decided op ret →
    ∃ j, moment c = some j ∧ Effect spec es values c op ret j

namespace AtomicInv

variable {spec : ω → σ → ρ × σ} {es : List (CallEvent κ ω ρ)} {values : List σ}
  {a : AtomicState κ σ ω ρ} {moment : κ → Option Nat}

/-- A step that leaves the value alone. It may still be an invocation or a response: an invocation
is of a call that was idle, a response of one that is decided. -/
theorem takesEffect_concat {e : CallEvent κ ω ρ} (h : AtomicInv spec es values a moment)
    (hinvoke : ∀ c op, e = .invoke c op → a.status c = .idle)
    (hrespond : ∀ c ret, e = .respond c ret → ∃ op, a.status c = .decided op ret) :
    TakesEffect spec (es ++ [e]) (values ++ [a.value]) moment := by
  have hlength := h.length
  refine ⟨h.takesEffect.injective, fun c i i' op op' hi hi' => ?_, fun c k ret hk => ?_,
    fun j v v' hv hv' hne => ?_⟩
  · rcases getElem?_concat_eq_some.mp hi with hold | ⟨rfl, he⟩
    · rcases getElem?_concat_eq_some.mp hi' with hold' | ⟨-, he⟩
      · exact h.takesEffect.invoked c i i' op op' hold hold'
      · exact absurd hold ((h.idle c (hinvoke c op' he)).1 i op)
    · rcases getElem?_concat_eq_some.mp hi' with hold' | ⟨rfl, -⟩
      · exact absurd hold' ((h.idle c (hinvoke c op he)).1 i' op')
      · rfl
  · rcases getElem?_concat_eq_some.mp hk with hk | ⟨rfl, rfl⟩
    · obtain ⟨op, j, hj, hlt, heffect⟩ := h.takesEffect.responded c k ret hk
      exact ⟨op, j, hj, hlt, heffect.concat⟩
    · obtain ⟨op, hdecided⟩ := hrespond c ret rfl
      obtain ⟨j, hj, heffect⟩ := h.decided c op ret hdecided
      exact ⟨op, j, hj, h.moment_lt c j hj, heffect.concat⟩
  · rcases getElem?_concat_eq_some.mp hv' with hv' | ⟨hj, rfl⟩
    · have hv : values[j]? = some v := by
        have hlt := (List.getElem?_eq_some_iff.mp hv').1
        rwa [List.getElem?_append_left (by omega)] at hv
      obtain ⟨c, op, ret, hc, heffect⟩ := h.takesEffect.changes j v v' hv hv' hne
      exact ⟨c, op, ret, hc, heffect.concat⟩
    · -- the last two values are the same
      obtain rfl : j = es.length := by omega
      rw [List.getElem?_append_left (by omega), h.last, Option.some.injEq] at hv
      exact absurd hv.symm hne

section

variable {e : CallEvent κ ω ρ} {c : κ} {v : σ} (h : AtomicInv spec es values a moment)
include h

theorem idle_concat (hidle : a.status c = .idle) (he : ∀ op, e ≠ .invoke c op) :
    (∀ (i : Nat) (op : ω), (es ++ [e])[i]? ≠ some (.invoke c op)) ∧ moment c = none := by
  obtain ⟨hnot, hnone⟩ := h.idle c hidle
  refine ⟨fun i op hi => ?_, hnone⟩
  rcases getElem?_concat_eq_some.mp hi with hi | ⟨-, hi⟩
  · exact hnot i op hi
  · exact he op hi

theorem pending_concat {op : ω} (hpending : a.status c = .pending op) :
    (∃ i : Nat, (es ++ [e])[i]? = some (.invoke c op)) ∧ moment c = none := by
  obtain ⟨⟨i, hi⟩, hnone⟩ := h.pending c op hpending
  exact ⟨⟨i, getElem?_concat_of_some hi⟩, hnone⟩

theorem decided_concat {op : ω} {ret : ρ} (hdecided : a.status c = .decided op ret) :
    ∃ j, moment c = some j ∧ Effect spec (es ++ [e]) (values ++ [v]) c op ret j := by
  obtain ⟨j, hj, heffect⟩ := h.decided c op ret hdecided
  exact ⟨j, hj, heffect.concat⟩

theorem moment_lt_concat (c : κ) (j : Nat) (hj : moment c = some j) : j < (es ++ [e]).length := by
  have hlt := h.moment_lt c j hj
  rw [List.length_append]
  omega

/-- A step that leaves the value and the moments alone, and changes the status of one call at most.
-/
theorem of_status [DecidableEq κ] {st : CallStatus ω ρ}
    (hinvoke : ∀ c' op, e = .invoke c' op → c' = c ∧ a.status c' = .idle)
    (hrespond : ∀ c ret, e = .respond c ret → ∃ op, a.status c = .decided op ret)
    (hst : st = .returned ∨ ∃ op, st = .pending op ∧ e = .invoke c op) :
    AtomicInv spec (es ++ [e]) (values ++ [a.value])
      { a with status := Function.update a.status c st } moment := by
  have hlength := h.length
  refine ⟨h.takesEffect_concat (fun c' op he => (hinvoke c' op he).2) hrespond, by simp [hlength],
    by simp [hlength], h.moment_lt_concat,
    fun c' (hc' : Function.update a.status c st c' = .idle) => ?_,
    fun c' op (hc' : Function.update a.status c st c' = .pending op) => ?_,
    fun c' op ret (hc' : Function.update a.status c st c' = .decided op ret) => ?_⟩
  · by_cases hcc : c' = c
    · subst hcc
      rw [Function.update_self] at hc'
      rcases hst with rfl | ⟨op, rfl, -⟩ <;> exact absurd hc' nofun
    · rw [Function.update_of_ne hcc] at hc'
      exact h.idle_concat hc' fun op he => hcc (hinvoke c' op he).1
  · by_cases hcc : c' = c
    · subst hcc
      rw [Function.update_self] at hc'
      rcases hst with rfl | ⟨op', rfl, he⟩
      · exact absurd hc' nofun
      · obtain rfl := CallStatus.pending.inj hc'
        exact ⟨⟨es.length, by simp [he]⟩, (h.idle c' (hinvoke c' op' he).2).2⟩
    · rw [Function.update_of_ne hcc] at hc'
      exact h.pending_concat hc'
  · by_cases hcc : c' = c
    · subst hcc
      rw [Function.update_self] at hc'
      rcases hst with rfl | ⟨op', rfl, -⟩ <;> exact absurd hc' nofun
    · rw [Function.update_of_ne hcc] at hc'
      exact h.decided_concat hc'

end

variable [DecidableEq κ] {a' : AtomicState κ σ ω ρ} {e : CallEvent κ ω ρ}

section

variable {c : κ} {op : ω} (h : AtomicInv spec es values a moment)
  (hpending : a.status c = .pending op)
include h hpending

omit [DecidableEq κ] in
theorem effect_decide :
    Effect spec (es ++ [.silent]) (values ++ [(spec op a.value).2]) c op (spec op a.value).1
      es.length := by
  obtain ⟨⟨i, hi⟩, -⟩ := h.pending c op hpending
  refine ⟨⟨i, (List.getElem?_eq_some_iff.mp hi).1, getElem?_concat_of_some hi⟩, a.value, _,
    getElem?_concat_of_some h.last, ?_, rfl⟩
  rw [← h.length, List.getElem?_concat_length]

/-- A decision adds one moment. -/
theorem moment_decide {c' : κ} {j : Nat} :
    Function.update moment c (some es.length) c' = some j ↔
      c' = c ∧ j = es.length ∨ moment c' = some j := by
  obtain ⟨-, hnone⟩ := h.pending c op hpending
  by_cases hcc : c' = c
  · subst hcc
    simp [hnone, eq_comm]
  · rw [Function.update_of_ne hcc, or_iff_right fun hc => hcc hc.1]

theorem takesEffect_decide :
    TakesEffect spec (es ++ [.silent]) (values ++ [(spec op a.value).2])
      (Function.update moment c (some es.length)) := by
  have hlength := h.length
  refine ⟨fun c₁ c₂ j h₁ h₂ => ?_, fun c' i i' op₁ op₂ hi hi' => ?_, fun c' k ret hk => ?_,
    fun j v v' hv hv' hne => ?_⟩
  · rcases (h.moment_decide hpending).mp h₁ with ⟨rfl, rfl⟩ | hold₁
    · rcases (h.moment_decide hpending).mp h₂ with ⟨rfl, -⟩ | hold₂
      · rfl
      · exact absurd (h.moment_lt c₂ _ hold₂) (Nat.lt_irrefl _)
    · rcases (h.moment_decide hpending).mp h₂ with ⟨rfl, rfl⟩ | hold₂
      · exact absurd (h.moment_lt c₁ _ hold₁) (Nat.lt_irrefl _)
      · exact h.takesEffect.injective c₁ c₂ j hold₁ hold₂
  · rcases getElem?_concat_eq_some.mp hi with hi | ⟨-, he⟩
    · rcases getElem?_concat_eq_some.mp hi' with hi' | ⟨-, he⟩
      · exact h.takesEffect.invoked c' i i' op₁ op₂ hi hi'
      · exact absurd he nofun
    · exact absurd he nofun
  · rcases getElem?_concat_eq_some.mp hk with hk | ⟨-, he⟩
    · obtain ⟨op', j, hj, hlt, heffect⟩ := h.takesEffect.responded c' k ret hk
      exact ⟨op', j, (h.moment_decide hpending).mpr (Or.inr hj), hlt, heffect.concat⟩
    · exact absurd he nofun
  · rcases getElem?_concat_eq_some.mp hv' with hold | ⟨hj, -⟩
    · have hv : values[j]? = some v := by
        have hlt := (List.getElem?_eq_some_iff.mp hold).1
        rwa [List.getElem?_append_left (by omega)] at hv
      obtain ⟨c', op', ret, hc', heffect⟩ := h.takesEffect.changes j v v' hv hold hne
      exact ⟨c', op', ret, (h.moment_decide hpending).mpr (Or.inr hc'), heffect.concat⟩
    · obtain rfl : j = es.length := by omega
      exact ⟨c, op, _, Function.update_self .., h.effect_decide hpending⟩

/-- The moment of a decision is the last one: the specification is applied to the value as it is
now, so the list of moments stays in order. -/
theorem decide :
    AtomicInv spec (es ++ [.silent]) (values ++ [(spec op a.value).2])
      ⟨(spec op a.value).2, Function.update a.status c (.decided op (spec op a.value).1)⟩
      (Function.update moment c (some es.length)) := by
  have hlength := h.length
  refine ⟨h.takesEffect_decide hpending, by simp [hlength], by simp [hlength], fun c' j hj => ?_,
    fun c' (hc' : Function.update a.status c _ c' = .idle) => ?_,
    fun c' op' (hc' : Function.update a.status c _ c' = .pending op') => ?_,
    fun c' op' ret (hc' : Function.update a.status c _ c' = .decided op' ret) => ?_⟩
  · rcases (h.moment_decide hpending).mp hj with ⟨-, rfl⟩ | hj
    · simp
    · exact h.moment_lt_concat c' j hj
  · have hcc : c' ≠ c := by
      rintro rfl
      rw [Function.update_self] at hc'
      exact absurd hc' nofun
    rw [Function.update_of_ne hcc] at hc' ⊢
    exact h.idle_concat hc' nofun
  · have hcc : c' ≠ c := by
      rintro rfl
      rw [Function.update_self] at hc'
      exact absurd hc' nofun
    rw [Function.update_of_ne hcc] at hc' ⊢
    exact h.pending_concat hc'
  · by_cases hcc : c' = c
    · subst hcc
      rw [Function.update_self] at hc'
      obtain ⟨rfl, rfl⟩ := CallStatus.decided.inj hc'
      exact ⟨es.length, Function.update_self .., h.effect_decide hpending⟩
    · rw [Function.update_of_ne hcc] at hc' ⊢
      exact h.decided_concat hc'

end

/-- **One step** extends the moments: a call that is decided in the step takes effect there, between
its invocation and its response, and every other step leaves the value and the moments as they are.
-/
theorem step (h : AtomicInv spec es values a moment) (hstep : AtomicStep spec a e a') :
    ∃ moment', AtomicInv spec (es ++ [e]) (values ++ [a'.value]) a' moment' := by
  have hlength := h.length
  cases hstep with
  | @invoke c op hidle =>
    refine ⟨moment, h.of_status (fun c' op' he => ?_) nofun (Or.inr ⟨op, rfl, rfl⟩)⟩
    obtain ⟨rfl, -⟩ := CallEvent.invoke.inj he
    exact ⟨rfl, hidle⟩
  | decide hpending => exact ⟨_, h.decide hpending⟩
  | @respond c op ret hdecided =>
    refine ⟨moment, h.of_status nofun (fun c' ret' he => ?_) (Or.inl rfl)⟩
    obtain ⟨rfl, rfl⟩ := CallEvent.respond.inj he
    exact ⟨op, hdecided⟩
  | silent =>
    exact ⟨moment, h.takesEffect_concat nofun nofun, by simp [hlength], by simp [hlength],
      h.moment_lt_concat, fun c hc => h.idle_concat hc nofun, fun c op hc => h.pending_concat hc,
      fun c op ret hc => h.decided_concat hc⟩

end AtomicInv

/-! ### Refinements -/

section

variable [DecidableEq κ] {spec : ω → σ → ρ × σ} {step : τ → CallEvent κ ω ρ → τ → Prop}
  {abs : τ → AtomicState κ σ ω ρ} {Inv : τ → Prop}
  (hinv : ∀ s e s', Inv s → step s e s' → Inv s')
  (hrefines : ∀ s e s', Inv s → step s e s' → AtomicStep spec (abs s) e (abs s'))
include hinv hrefines

/-- **A step-by-step refinement is atomic.** If every step of an implementation is one of the atomic
object that `abs` shows, the calls of every run take effect at some moments, each inside its own
call and different from the others, and the value changes nowhere else. -/
theorem exists_takesEffect {s₀ s : τ} {es : List (τ × CallEvent κ ω ρ)} (h₀ : Inv s₀)
    (hidle : ∀ c, (abs s₀).status c = .idle)
    (hrun : Steps (fun s (e : τ × CallEvent κ ω ρ) s' => e.1 = s ∧ step s e.2 s') s₀ es s) :
    ∃ moment, TakesEffect spec (es.map Prod.snd)
      (es.map (fun e => (abs e.1).value) ++ [(abs s).value]) moment := by
  have hrun' : Inv s ∧ ∃ moment, AtomicInv spec (es.map Prod.snd)
      (es.map (fun e => (abs e.1).value) ++ [(abs s).value]) (abs s) moment := by
    induction hrun with
    | nil =>
      refine ⟨h₀, fun _ => none, ⟨nofun, by simp, by simp, ?_⟩, rfl, rfl, nofun, by simp, ?_, ?_⟩
      · intro j v v' _ hv'
        simp at hv'
      · intro c op hc
        rw [hidle] at hc
        exact absurd hc nofun
      · intro c op ret hc
        rw [hidle] at hc
        exact absurd hc nofun
    | @snoc s₁ s₂ es e _ hstep ih =>
      obtain ⟨hi, moment, h⟩ := ih
      obtain ⟨rfl, hstep⟩ := hstep
      obtain ⟨moment', h'⟩ := h.step (hrefines _ _ _ hi hstep)
      refine ⟨hinv _ _ _ hi hstep, moment', ?_⟩
      simpa using h'
  obtain ⟨-, moment, h⟩ := hrun'
  exact ⟨moment, h.takesEffect⟩

/-- **Results stay.** A call may return a result that is looked at later, such as a guard. If only
the response brings such a result about, it is always the one that was returned. -/
theorem eq_of_responded {look : τ → κ → Option ρ}
    (hlook : ∀ s c ret, look s c = some ret → (abs s).status c = .returned)
    (hstays : ∀ s e s' c ret, Inv s → step s e s' → look s' c = some ret →
      look s c = some ret ∨ e = .respond c ret)
    {s₀ s : τ} {es : List (τ × CallEvent κ ω ρ)} (h₀ : Inv s₀)
    (hrun : Steps (fun s (e : τ × CallEvent κ ω ρ) s' => e.1 = s ∧ step s e.2 s') s₀ es s)
    {c : κ} {ret ret' : ρ} (hc : .respond c ret ∈ es.map Prod.snd) (hret' : look s c = some ret') :
    ret' = ret := by
  have hrun' : Inv s ∧ ∀ c ret, .respond c ret ∈ es.map Prod.snd →
      (abs s).status c = .returned ∧ ∀ ret', look s c = some ret' → ret' = ret := by
    clear hc hret'
    induction hrun with
    | nil => exact ⟨h₀, nofun⟩
    | @snoc s₁ s₂ es e _ hstep ih =>
      obtain ⟨hi, ih⟩ := ih
      obtain ⟨rfl, hstep⟩ := hstep
      have hatomic := hrefines _ _ _ hi hstep
      refine ⟨hinv _ _ _ hi hstep, fun c ret hc => ?_⟩
      rw [List.map_append, List.mem_append, List.map_singleton, List.mem_singleton] at hc
      rcases hc with hc | hc
      · obtain ⟨hreturned, hsame⟩ := ih c ret hc
        obtain ⟨hreturned', hnot⟩ := hatomic.returned hreturned
        refine ⟨hreturned', fun ret' hret' => ?_⟩
        rcases hstays _ _ _ c ret' hi hstep hret' with hold | he
        · exact hsame ret' hold
        · exact absurd he (hnot ret')
      · rw [← hc] at hatomic hstep
        refine ⟨hatomic.responded, fun ret' hret' => ?_⟩
        rcases hstays _ _ _ c ret' hi hstep hret' with hold | he
        · exact absurd rfl ((hatomic.returned (hlook _ c ret' hold)).2 ret)
        · exact (CallEvent.respond.inj he).2.symm
  exact (hrun'.2 c ret hc).2 ret' hret'

end

end ZprUtils
