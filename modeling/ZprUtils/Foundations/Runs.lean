import ZprUtils.Foundations.Except

/-!
# Runs of a machine

A machine takes a state and an operation to a result and a state, or fails. `runOps` runs a list of
operations; a step-by-step simulation between two machines extends to their runs. `Steps` is the run
of a step relation with labels, for machines that have a choice between several steps.

## Main results

* `runOps_simulates` — a forward simulation extends to runs.
* `Steps.invariant`, `Steps.history` — what each step preserves holds after a run.
* `Steps.of_tracing` — the run of a machine that traces its operations is a run of labels.
-/

namespace ZprUtils

variable {σ τ ι ρ : Type}

/-! ### Runs of a function -/

/-- Run a machine over a list of operations and collect the results. -/
def runOps {m : Type → Type} [Monad m] (step : σ → ι → m (ρ × σ)) :
    σ → List ι → m (List ρ × σ)
  | s, [] => pure ([], s)
  | s, op :: ops => do
    let (r, s') ← step s op
    let (rs, s'') ← runOps step s' ops
    pure (r :: rs, s'')

/-- The machine that gives as its result the state before the operation, and the operation. -/
def tracing (step : σ → ι → Option (ρ × σ)) (s : σ) (op : ι) : Option ((σ × ι) × σ) :=
  (step s op).map fun r => ((s, op), r.2)

theorem runOps_cons_eq_some {step : σ → ι → Option (ρ × σ)} {s s'' : σ} {op : ι} {ops : List ι}
    {rs : List ρ} :
    runOps step s (op :: ops) = some (rs, s'') ↔
      ∃ r s' rs', step s op = some (r, s') ∧ runOps step s' ops = some (rs', s'') ∧
        rs = r :: rs' := by
  simp only [runOps, Option.bind_eq_bind, Option.bind_eq_some_iff, Option.pure_def,
    Option.some.injEq, Prod.mk.injEq, Prod.exists]
  constructor
  · rintro ⟨r, s', hstep, rs', _, hrun, rfl, rfl⟩
    exact ⟨r, s', rs', hstep, hrun, rfl⟩
  · rintro ⟨r, s', rs', hstep, hrun, rfl⟩
    exact ⟨r, s', hstep, rs', s'', hrun, rfl, rfl⟩

theorem runOps_cons_ok {ε : Type} {step : σ → ι → Except ε (ρ × σ)} {s s' s'' : σ} {op : ι}
    {ops : List ι} {r : ρ} {rs : List ρ} (hstep : step s op = .ok (r, s'))
    (hrun : runOps step s' ops = .ok (rs, s'')) :
    runOps step s (op :: ops) = .ok (r :: rs, s'') := by
  simp only [runOps, hstep, except_ok_bind, hrun, except_pure]

/-- **A forward simulation extends to runs.** When every step of the abstract machine is a step of
the concrete one with the same result, so is every run, with the same results in the same order and
with related states at its end. -/
theorem runOps_simulates {ε : Type} {step : σ → ι → Except ε (ρ × σ)}
    {absStep : τ → ι → Option (ρ × τ)} {R : σ → τ → Prop}
    (hstep : ∀ s a op r a', R s a → absStep a op = some (r, a') →
      ∃ s', step s op = .ok (r, s') ∧ R s' a')
    {s : σ} {a a' : τ} {ops : List ι} {rs : List ρ} (h : R s a)
    (hrun : runOps absStep a ops = some (rs, a')) :
    ∃ s', runOps step s ops = .ok (rs, s') ∧ R s' a' := by
  induction ops generalizing s a rs with
  | nil =>
    simp only [runOps, Option.pure_def, Option.some.injEq, Prod.mk.injEq] at hrun
    obtain ⟨rfl, rfl⟩ := hrun
    exact ⟨s, rfl, h⟩
  | cons op ops ih =>
    obtain ⟨r, a₁, rs', habs, hrest, rfl⟩ := runOps_cons_eq_some.mp hrun
    obtain ⟨s₁, hs₁, h₁⟩ := hstep s a op r a₁ h habs
    obtain ⟨s', hs', h'⟩ := ih h₁ hrest
    exact ⟨s', runOps_cons_ok hs₁ hs', h'⟩

/-! ### Runs of a relation -/

/-- A run of a labelled step relation, with the labels of its steps in order. -/
inductive Steps (r : σ → ι → σ → Prop) : σ → List ι → σ → Prop
  | nil (s : σ) : Steps r s [] s
  | snoc {s s' s'' : σ} {es : List ι} {e : ι} (hrun : Steps r s es s') (hstep : r s' e s'') :
      Steps r s (es ++ [e]) s''

namespace Steps

variable {r : σ → ι → σ → Prop} {s s' s'' : σ} {es es' : List ι}

theorem single {e : ι} (h : r s e s') : Steps r s [e] s' := (nil s).snoc h

theorem append (h : Steps r s es s') (h' : Steps r s' es' s'') : Steps r s (es ++ es') s'' := by
  induction h' with
  | nil => rwa [List.append_nil]
  | snoc _ hstep ih =>
    rw [← List.append_assoc]
    exact ih.snoc hstep

/-- A run of a function is a run of its graph, with the operations and their results as labels. -/
theorem of_runOps {step : σ → ι → Option (ρ × σ)} {ops : List ι} {rs : List ρ}
    (h : runOps step s ops = some (rs, s')) :
    Steps (fun s (e : ι × ρ) s' => step s e.1 = some (e.2, s')) s (ops.zip rs) s' := by
  induction ops generalizing s rs with
  | nil =>
    simp only [runOps, Option.pure_def, Option.some.injEq, Prod.mk.injEq] at h
    obtain ⟨rfl, rfl⟩ := h
    exact nil s
  | cons op ops ih =>
    obtain ⟨r, s₁, rs', hstep, hrun, rfl⟩ := runOps_cons_eq_some.mp h
    rw [List.zip_cons_cons, ← List.singleton_append]
    exact append (single hstep) (ih hrun)

/-- The results of a machine that keeps its trace are the states and the operations of a run. -/
theorem of_tracing {step : σ → ι → Option (ρ × σ)} {ops : List ι} {es : List (σ × ι)}
    (h : runOps (tracing step) s ops = some (es, s')) :
    Steps (fun s (e : σ × ι) s' => e.1 = s ∧ ∃ r, step s e.2 = some (r, s')) s es s' := by
  induction ops generalizing s es with
  | nil =>
    simp only [runOps, Option.pure_def, Option.some.injEq, Prod.mk.injEq] at h
    obtain ⟨rfl, rfl⟩ := h
    exact nil s
  | cons op ops ih =>
    obtain ⟨e, s₁, es', htracing, hrun, rfl⟩ := runOps_cons_eq_some.mp h
    obtain ⟨⟨r, s₂⟩, hstep, heq⟩ := Option.map_eq_some_iff.mp htracing
    obtain ⟨rfl, rfl⟩ := Prod.mk.inj heq
    exact append (single ⟨rfl, r, hstep⟩) (ih hrun)

/-- A run is seen as a run of another relation, when each of its steps is seen as a step there. -/
theorem map {ι' : Type} {r' : τ → ι' → τ → Prop} {f : σ → τ} {g : ι → ι'}
    (hstep : ∀ s e s', r s e s' → r' (f s) (g e) (f s')) (h : Steps r s es s') :
    Steps r' (f s) (es.map g) (f s') := by
  induction h with
  | nil => exact nil (f s)
  | snoc _ hs ih =>
    rw [List.map_append, List.map_singleton]
    exact ih.snoc (hstep _ _ _ hs)

/-- The states before the steps of a run can be added to its labels, so that a condition on each
step of a run may speak of the state that the step was taken in. -/
theorem traced (h : Steps r s es s') :
    ∃ es' : List (σ × ι), es'.map Prod.snd = es ∧
      Steps (fun s (e : σ × ι) s' => e.1 = s ∧ r s e.2 s') s es' s' := by
  induction h with
  | nil => exact ⟨[], rfl, nil s⟩
  | @snoc s₁ s₂ es e hrun hstep ih =>
    obtain ⟨es', hes', hrun'⟩ := ih
    exact ⟨es' ++ [(s₁, e)], by simp [hes'], hrun'.snoc ⟨rfl, hstep⟩⟩

/-- What each step preserves holds after a run. -/
theorem invariant {P : σ → Prop} (hP : ∀ s e s', P s → r s e s' → P s') (h : Steps r s es s')
    (hs : P s) : P s' := by
  induction h with
  | nil => exact hs
  | snoc _ hstep ih => exact hP _ _ _ ih hstep

/-- A property of the state and of the labels so far that each step preserves holds after a run. The
invariants that speak of what has happened are proved by this rule. -/
theorem history {P : List ι → σ → Prop}
    (hP : ∀ es s e s', P es s → r s e s' → P (es ++ [e]) s') (h : Steps r s es s')
    (hs : P [] s) : P es s' := by
  induction h with
  | nil => exact hs
  | snoc _ hstep ih => exact hP _ _ _ _ ih hstep

end Steps

end ZprUtils
