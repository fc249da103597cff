import ZprUtils.RcuCslab.Panics
import ZprUtils.RcuCslab.SharedCalls

/-!
# The key of the next insertion

`vacant_key` looks at the front of the free list and gives up the mutex again. A reader that is
dropped before the next insertion can finalize a generation, whose slots go to the front of the free
list, and then the insertion returns another key than the one predicted.

## Main definitions

* `Predicts` — what is expected of the answer of `vacant_key`.

## Main results

* `vacantKey_predicts_iff` — when the answer is right.
-/

namespace ZprUtils.RcuCslab

variable {α : Type} {s s' s'' : State α}

/-- An answer of `vacant_key` in the state `s` predicts the result of an insertion in `s'`: the same
key, and a full slab unless a generation was finalized in between. -/
structure Predicts (s s' : State α) (key key' : Option Nat) : Prop where
  vacant : ∀ i, key = some i → key' = some i
  full : key = none → (∀ g, Alive s.gens g → Alive s'.gens g) → key' = none

theorem step_vacantKey {key : Option Nat}
    (hstep : step s .vacantKey = some (.ok (.key key), s')) :
    s' = s ∧ s.poisoned = false ∧ key = s.cslab.vacantKey := by
  obtain ⟨m, hcall, hsettle⟩ := step_eq_some hstep
  cases allowed_of_call hcall with
  | vacantKey husable =>
    obtain ⟨key', hkey, hret⟩ := settle_map_eq_ok hsettle
    have hread := withLock_read (f := Cslab.vacantKey) (State.usable_iff.mp husable).2.1
    obtain ⟨hval, rfl⟩ := Prod.mk.inj (hread.symm.trans hkey)
    cases hpoison : s.poisoned with
    | true =>
      rw [hpoison, if_pos rfl] at hval
      exact absurd hval nofun
    | false =>
      rw [hpoison, if_neg Bool.false_ne_true] at hval
      exact ⟨rfl, rfl, (Ret.key.inj hret).symm.trans (Except.ok.inj hval).symm⟩

/-- An insertion takes the front of the free list. -/
theorem step_insert_key {x : α} {key : Option Nat} {free : List Nat} (hi : Inv {} s)
    (hinv : s.cslab.Inv free) (hstep : step s (.insert x) = some (.ok (.key key), s')) :
    key = free.head? := by
  obtain ⟨m, hcall, hsettle⟩ := step_eq_some hstep
  cases allowed_of_call hcall with
  | insert husable =>
    obtain ⟨key', hkey, hret⟩ := settle_map_eq_ok hsettle
    obtain rfl := Ret.key.inj hret
    rcases insert_eq (x := x) hi (State.usable_iff.mp husable).2.1 with
      ⟨-, hins⟩ | ⟨-, hnone, hins⟩ | ⟨i, c, -, hok, hins⟩
    · exact absurd (Prod.mk.inj (hkey.symm.trans hins)).1 nofun
    · rw [Except.ok.inj (Prod.mk.inj (hkey.symm.trans hins)).1, ← hnone, hinv.vacantKey_eq]
    · obtain ⟨rest, rfl, -⟩ := hinv.of_insert hok
      exact Except.ok.inj (Prod.mk.inj (hkey.symm.trans hins)).1

/-- **The answer of `vacant_key`** predicts the next insertion, whatever is done with readers in
between, if and only if it reports a full slab, or every generation with recorded removals still has
a handle in itself or in an older generation when the insertion is made. -/
theorem vacantKey_predicts_iff {t : Layout} {capacity : Nat} {s₀ s₁ s₂ s₃ : State α}
    {es es' : List (Op α × Except Interrupt (Ret α))} {key key' : Option Nat} {x : α}
    (hnew : withFixedCapacity .memory t capacity = .ok s₀) (hrun : Run s₀ es s)
    (hkey : step s .vacantKey = some (.ok (.key key), s₁)) (hrun' : Run s₁ es' s₂)
    (hshared : ∀ e ∈ es', e.1.shared = true)
    (hinsert : step s₂ (.insert x) = some (.ok (.key key'), s₃)) :
    Predicts s s₂ key key' ↔ key = none ∨ ∀ g gen, s.gens[g]? = some gen → gen.alive = true →
      gen.pendingRemoves ≠ [] → ∃ g₀ ≤ g, s₂.HoldsGen g₀ := by
  have hi := inv_of_run hnew hrun
  obtain ⟨rfl, hpoison, rfl⟩ := step_vacantKey hkey
  obtain ⟨hi₂, hshares⟩ := shares_of_run hi hshared hrun'
  obtain ⟨free, hinv⟩ := hi.pending.cslab
  obtain ⟨freed, hfreed⟩ := hshares.frees hpoison
  have hinv₂ := hfreed.free free hinv
  have hkeeps : KeepsRemovals s₁ s₂ ↔ ∀ g gen, s₁.gens[g]? = some gen → gen.alive = true →
      gen.pendingRemoves ≠ [] → ∃ g₀ ≤ g, s₂.HoldsGen g₀ := by
    refine forall₂_congr fun g gen => forall₃_congr fun hgen _ _ => ?_
    rw [alive_iff_holdsGen hi₂.refs, and_iff_right]
    rw [hshares.unseen.length_gens]
    exact (List.getElem?_eq_some_iff.mp hgen).1
  rw [step_insert_key hi₂ hinv₂ hinsert, hinv.vacantKey_eq, ← hkeeps, ← hfreed.nil_iff]
  constructor
  · intro hpredicts
    cases free with
    | nil => exact Or.inl rfl
    | cons i rest =>
      right
      -- a slot that was freed is not on the free list yet
      cases freed with
      | nil => rfl
      | cons j freed =>
        have hhead : some j = some i := hpredicts.vacant i rfl
        obtain rfl := Option.some.inj hhead
        have hnodup := hinv₂.nodup
        rw [List.cons_append, List.nodup_cons] at hnodup
        exact absurd (List.mem_append_right _ List.mem_cons_self) hnodup.1
  · intro hcases
    constructor
    · intro i hfree
      rcases hcases with hnone | rfl
      · exact absurd (hnone.symm.trans hfree) nofun
      · exact hfree
    · intro hnone halive
      have hnil : freed = [] :=
        hfreed.nil_iff.mpr fun g gen hgen hgenalive _ => halive g ⟨gen, hgen, hgenalive⟩
      rw [hnil]
      exact hnone

/-- The keys of an answer and of an insertion, with calls before the answer and in between. -/
def observeKeys {β : Type} (t : Layout) (capacity : Nat) (ops ops' : List (Op α)) (x : α)
    (f : State α → β) : Option (Option (Option Nat) × Option (Option Nat) × β) := do
  let s₀ ← (withFixedCapacity .memory t capacity).toOption
  let (_, s) ← runOps step s₀ ops
  let (r, s₁) ← step s .vacantKey
  let (_, s₂) ← runOps step s₁ ops'
  let (r', _) ← step s₂ (.insert x)
  return (keyOf r, keyOf r', f s₂)
where
  keyOf : Except Interrupt (Ret α) → Option (Option Nat)
    | .ok (.key key) => some key
    | _ => none

theorem eq_key_of_keyOf {r : Except Interrupt (Ret α)} {key : Option Nat}
    (h : observeKeys.keyOf r = some key) : r = .ok (.key key) := by
  unfold observeKeys.keyOf at h
  split at h
  · rw [Option.some.inj h]
  · exact absurd h nofun

theorem exists_steps_of_observeKeys {β : Type} {t : Layout} {capacity : Nat}
    {ops ops' : List (Op α)} {x : α} {f : State α → β} {key key' : Option Nat} {b : β}
    (h : observeKeys t capacity ops ops' x f = some (some key, some key', b)) :
    ∃ s₀ es s s₁ es' s₂ s₃, withFixedCapacity .memory t capacity = .ok s₀ ∧ Run s₀ es s ∧
      step s .vacantKey = some (.ok (.key key), s₁) ∧ Run s₁ es' s₂ ∧
      (∀ e ∈ es', e.1 ∈ ops') ∧ step s₂ (.insert x) = some (.ok (.key key'), s₃) ∧ f s₂ = b := by
  simp only [observeKeys, Option.bind_eq_bind, Option.bind_eq_some_iff, Option.pure_def,
    Option.some.injEq, Prod.mk.injEq, Prod.exists] at h
  obtain ⟨s₀, hs₀, rs, s, hrun, r, s₁, hkey, rs', s₂, hrun', r', s₃, hinsert, hr, hr', hf⟩ := h
  rw [eq_key_of_keyOf hr] at hkey
  rw [eq_key_of_keyOf hr'] at hinsert
  exact ⟨s₀, _, s, s₁, _, s₂, s₃, except_toOption_eq_some.mp hs₀, .of_runOps hrun, hkey,
    .of_runOps hrun', fun e he => (List.of_mem_zip he).1, hinsert, hf⟩

/-- With the reader of the first generation alive the answer is right. -/
theorem vacantKey_predicts_clone :
    ∃ (s₀ s s₁ s₂ s₃ : State Nat) (es es' : List (Op Nat × Except Interrupt (Ret Nat))),
      withFixedCapacity .memory ⟨4, 4⟩ 2 = .ok s₀ ∧ Run s₀ es s ∧
      step s .vacantKey = some (.ok (.key (some 1)), s₁) ∧ Run s₁ es' s₂ ∧
      (∀ e ∈ es', e.1.shared = true) ∧ step s₂ (.insert 8) = some (.ok (.key (some 1)), s₃) ∧
      Predicts s s₂ (some 1) (some 1) := by
  have hobserve : @observeKeys Nat _ ⟨4, 4⟩ 2 [.insert 7, .reader, .remove 0]
      [.readerDrop 1, .readerClone 0] 8 (fun s => s.readers[0]?) =
      some (some (some 1), some (some 1), some (some ⟨0, []⟩)) := by
    decide +kernel
  obtain ⟨s₀, es, s, s₁, es', s₂, s₃, hnew, hrun, hkey, hrun', hops, hinsert, hk⟩ :=
    exists_steps_of_observeKeys hobserve
  have hops' : ∀ op ∈ ([.readerDrop 1, .readerClone 0] : List (Op Nat)), op.shared = true := by
    decide
  have hshared : ∀ e ∈ es', e.1.shared = true := fun e he => hops' e.1 (hops e he)
  refine ⟨s₀, s, s₁, s₂, s₃, es, es', hnew, hrun, hkey, hrun', hshared, hinsert, ?_⟩
  refine (vacantKey_predicts_iff hnew hrun hkey hrun' hshared hinsert).mpr (Or.inr ?_)
  exact fun g gen _ _ _ => ⟨0, Nat.zero_le g, Or.inr (Or.inl ⟨0, ⟨0, []⟩, hk, rfl⟩)⟩

/-- The drop of the last reader of the first generation puts its slot before the predicted one. -/
theorem vacantKey_overtaken :
    ∃ (s₀ s s₁ s₂ s₃ : State Nat) (es es' : List (Op Nat × Except Interrupt (Ret Nat))),
      withFixedCapacity .memory ⟨4, 4⟩ 2 = .ok s₀ ∧ Run s₀ es s ∧
      step s .vacantKey = some (.ok (.key (some 1)), s₁) ∧ Run s₁ es' s₂ ∧
      (∀ e ∈ es', e.1.shared = true) ∧ step s₂ (.insert 8) = some (.ok (.key (some 0)), s₃) ∧
      ¬Predicts s s₂ (some 1) (some 0) := by
  have hobserve : @observeKeys Nat _ ⟨4, 4⟩ 2 [.insert 7, .reader, .remove 0] [.readerDrop 0] 8
      (fun _ => ()) = some (some (some 1), some (some 0), ()) := by
    decide +kernel
  obtain ⟨s₀, es, s, s₁, es', s₂, s₃, hnew, hrun, hkey, hrun', hops, hinsert, -⟩ :=
    exists_steps_of_observeKeys hobserve
  have hshared : ∀ e ∈ es', e.1.shared = true := fun e he =>
    List.mem_singleton.mp (hops e he) ▸ rfl
  refine ⟨s₀, s, s₁, s₂, s₃, es, es', hnew, hrun, hkey, hrun', hshared, hinsert, fun h => ?_⟩
  exact absurd (h.vacant 1 rfl) (by decide)

end ZprUtils.RcuCslab
