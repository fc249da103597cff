import ZprUtils.Bpf.Safety
import Mathlib.Data.Nat.Count

/-!
# Termination of validated BPF programs

Every iteration on a validated program moves the program counter forward, unless it executes a
backward `JA`. Between two backward `JA`s a run therefore executes an instruction at most once.

## Main definitions

* `Bpf.Executes` — iteration `n` of a run takes place; `Bpf.executed` counts the iterations that
  take place among the first ones, `Bpf.backwardJas` those that execute a backward `JA`.

## Main results

* `Bpf.Validated.le_backwardJas_mul` — the measure of a run.
* `Bpf.filterSteps_terminates`.
-/

namespace ZprUtils.Bpf

variable {flags : Nat} {insns : List BpfInsn} {packet : List UInt8}

/-- Iteration `n` of the run takes place, from the variables `m`. -/
def Executes (insns : List BpfInsn) (packet : List UInt8) (n : Nat) (m : Machine) : Prop :=
  filterSteps insns packet n = .ok (.next m)

instance (insns : List BpfInsn) (m : Machine) : Decidable (BackwardJa insns m) :=
  match h : insns[m.pc.toNat]? with
  | none => isFalse fun ⟨_, hget, _⟩ => by simp [h] at hget
  | some insn =>
    decidable_of_iff (insn.code = JMP ||| JA ∧ (m.pc + 1 + insn.k).toNat ≤ m.pc.toNat)
      ⟨fun hja => ⟨insn, h, hja⟩, fun ⟨_, hget, hja⟩ => Option.some.inj (h ▸ hget) ▸ hja⟩

/-- The loop is still running before iteration `n`. -/
def isRunning (insns : List BpfInsn) (packet : List UInt8) (n : Nat) : Bool :=
  match filterSteps insns packet n with
  | .ok (.next _) => true
  | _ => false

/-- Iteration `n` executes a backward `JA`. -/
def isBackwardJa (insns : List BpfInsn) (packet : List UInt8) (n : Nat) : Bool :=
  match filterSteps insns packet n with
  | .ok (.next m) => decide (BackwardJa insns m)
  | _ => false

/-- The number of iterations executed among the first `n`. -/
def executed (insns : List BpfInsn) (packet : List UInt8) (n : Nat) : Nat :=
  Nat.count (fun j => isRunning insns packet j) n

/-- The number of backward `JA`s executed in the first `n` iterations. -/
def backwardJas (insns : List BpfInsn) (packet : List UInt8) (n : Nat) : Nat :=
  Nat.count (fun j => isBackwardJa insns packet j) n

theorem Executes.isRunning {n : Nat} {m : Machine} (h : Executes insns packet n m) :
    isRunning insns packet n = true := by
  simp only [Bpf.isRunning, show filterSteps insns packet n = _ from h]

theorem executes_of_isRunning {n : Nat} (h : isRunning insns packet n = true) :
    ∃ m, Executes insns packet n m := by
  simp only [Bpf.isRunning] at h
  split at h
  · exact ⟨_, by assumption⟩
  · exact absurd h (by simp)

theorem Executes.isBackwardJa_iff {n : Nat} {m : Machine} (h : Executes insns packet n m) :
    isBackwardJa insns packet n = true ↔ BackwardJa insns m := by
  simp only [isBackwardJa, show filterSteps insns packet n = _ from h, decide_eq_true_eq]

/-- An iteration is preceded by an iteration: the loop is in its `n`-th step only after all earlier
ones, so a run can be followed back to its beginning. -/
theorem Executes.exists_pred {n : Nat} {m' : Machine} (h : Executes insns packet (n + 1) m') :
    ∃ m, Executes insns packet n m ∧ filterStep insns packet m = .ok (.next m') := by
  obtain ⟨flow, hflow, hstep⟩ := except_bind_eq_ok.mp h
  cases flow with
  | brk v => simp at hstep
  | next m => exact ⟨m, hflow, hstep⟩

namespace Validated

variable (hv : Validated flags insns)
include hv

theorem pc_lt_length {n : Nat} {m : Machine} (h : Executes insns packet n m) :
    m.pc.toNat < insns.length := by
  obtain ⟨flow, hflow, hpc⟩ := hv.filterSteps_spec packet n
  exact hpc m (Except.ok.inj (hflow.symm.trans h))

/-- Consecutive iterations move forward or the first executes a backward `JA`. Conditional jumps
have unsigned distances, so no other instruction can go back. -/
theorem pc_lt_or_backwardJa {n : Nat} {m m' : Machine} (h : Executes insns packet n m)
    (h' : Executes insns packet (n + 1) m') :
    m.pc.toNat < m'.pc.toNat ∨
      (BackwardJa insns m ∧ flags &&& VALIDATE_ALLOW_BACKWARD_JUMPS ≠ 0) := by
  obtain ⟨m₀, h₀, hstep⟩ := h'.exists_pred
  obtain rfl : m = m₀ := by
    have heq := h.symm.trans h₀
    simpa using heq
  obtain ⟨flow, hflow, hnext⟩ := hv.filterStep_spec packet (hv.pc_lt_length h)
  exact (hnext m' (Except.ok.inj (hflow.symm.trans hstep))).2

/-- **The measure of a run.** Before iteration `n` the program counter and the number of backward
`JA`s so far bound `n`: every instruction moves the program counter forward by at least one, and a
backward `JA` gives back at most the length of the program. -/
theorem le_backwardJas_mul {n : Nat} {m : Machine} (h : Executes insns packet n m) :
    n ≤ backwardJas insns packet n * insns.length + m.pc.toNat := by
  induction n generalizing m with
  | zero => exact Nat.zero_le _
  | succ n ih =>
    obtain ⟨m₀, h₀, -⟩ := h.exists_pred
    have hn := ih h₀
    have hpc := hv.pc_lt_length h₀
    by_cases hback : BackwardJa insns m₀
    · have hcount : backwardJas insns packet (n + 1) = backwardJas insns packet n + 1 := by
        rw [backwardJas, Nat.count_succ, if_pos (h₀.isBackwardJa_iff.mpr hback)]
        rfl
      rw [hcount, Nat.succ_mul]
      omega
    · have hcount : backwardJas insns packet (n + 1) = backwardJas insns packet n := by
        rw [backwardJas, Nat.count_succ, if_neg (mt h₀.isBackwardJa_iff.mp hback)]
        rfl
      rcases hv.pc_lt_or_backwardJa h₀ h with hlt | ⟨hja, -⟩
      · rw [hcount]
        omega
      · exact absurd hja hback

theorem executed_le (n : Nat) :
    executed insns packet n ≤ (backwardJas insns packet n + 1) * insns.length := by
  induction n with
  | zero => simp [executed]
  | succ n ih =>
    have hmono : backwardJas insns packet n ≤ backwardJas insns packet (n + 1) :=
      Nat.count_monotone _ (Nat.le_succ n)
    have hmul := Nat.mul_le_mul_right insns.length (Nat.succ_le_succ hmono)
    by_cases hrun : isRunning insns packet n = true
    · obtain ⟨m, hm⟩ := executes_of_isRunning hrun
      have hle := hv.le_backwardJas_mul hm
      have hpc := hv.pc_lt_length hm
      have hcount : executed insns packet (n + 1) ≤ n + 1 := Nat.count_le _
      rw [Nat.succ_mul] at hmul ⊢
      rw [Nat.succ_mul] at hmul
      omega
    · have hcount : executed insns packet (n + 1) = executed insns packet n := by
        rw [executed, Nat.count_succ, if_neg hrun]
        rfl
      rw [hcount]
      exact ih.trans hmul

/-- A loop that is not running has been left with a value. -/
theorem exists_brk {n : Nat} (h : ∀ m, ¬Executes insns packet n m) :
    ∃ v, filterSteps insns packet n = .ok (.brk v) := by
  obtain ⟨flow, hflow, -⟩ := hv.filterSteps_spec packet n
  cases flow with
  | brk v => exact ⟨v, hflow⟩
  | next m => exact absurd hflow (h m)

/-- A run with at most `b` backward `JA`s ends: between two of them the program counter increases,
which leaves at most the length of the program for each stretch. -/
theorem exists_brk_of_backwardJas_le {b : Nat} (hb : ∀ n, backwardJas insns packet n ≤ b) :
    ∃ v, filterSteps insns packet ((b + 1) * insns.length) = .ok (.brk v) := by
  refine hv.exists_brk fun m hm => ?_
  have hle := hv.le_backwardJas_mul hm
  have hpc := hv.pc_lt_length hm
  have hmul := Nat.mul_le_mul_right insns.length (hb ((b + 1) * insns.length))
  rw [Nat.succ_mul] at hle
  rw [Nat.succ_mul] at hmul
  omega

section Forward

variable (hflags : flags &&& VALIDATE_ALLOW_BACKWARD_JUMPS = 0)
include hflags

theorem pc_lt_pc_succ {n : Nat} {m m' : Machine} (h : Executes insns packet n m)
    (h' : Executes insns packet (n + 1) m') : m.pc.toNat < m'.pc.toNat := by
  rcases hv.pc_lt_or_backwardJa h h' with hlt | ⟨-, hflag⟩
  · exact hlt
  · exact absurd hflags hflag

/-- Later iterations are at later instructions. -/
theorem pc_lt_pc_of_lt {n n' : Nat} {m m' : Machine} (hn : n < n')
    (h : Executes insns packet n m) (h' : Executes insns packet n' m') :
    m.pc.toNat < m'.pc.toNat := by
  induction n' generalizing m' with
  | zero => exact absurd hn (Nat.not_lt_zero n)
  | succ n' ih =>
    obtain ⟨m₀, h₀, -⟩ := h'.exists_pred
    have hlast := hv.pc_lt_pc_succ hflags h₀ h'
    rcases Nat.lt_succ_iff_lt_or_eq.mp hn with hlt | rfl
    · exact (ih hlt h₀).trans hlast
    · obtain rfl : m = m₀ := by
        have heq := h.symm.trans h₀
        simpa using heq
      exact hlast

theorem le_pc {n : Nat} {m : Machine} (h : Executes insns packet n m) : n ≤ m.pc.toNat := by
  induction n generalizing m with
  | zero => exact Nat.zero_le _
  | succ n ih =>
    obtain ⟨m₀, h₀, -⟩ := h.exists_pred
    exact (ih h₀).trans_lt (hv.pc_lt_pc_succ hflags h₀ h)

end Forward

end Validated

/-- **Termination of validated programs.** Without the flag for backward jumps the program counter
increases at every iteration, no instruction is executed twice and the run ends with a value
within as many iterations as there are instructions. With any flags, a run that has executed `b`
backward `JA`s has executed at most `b + 1` times as many iterations as there are instructions,
so a run with finitely many backward `JA`s ends. -/
theorem filterSteps_terminates {code : List BpfInsn} {prog : BpfProgram}
    (h : validateWithFlags code flags = .ok prog) (packet : List UInt8) :
    (flags &&& VALIDATE_ALLOW_BACKWARD_JUMPS = 0 →
      (∀ n m m', Executes prog.insns packet n m → Executes prog.insns packet (n + 1) m' →
        m.pc.toNat < m'.pc.toNat) ∧
      (∀ n n' m m', Executes prog.insns packet n m → Executes prog.insns packet n' m' →
        m.pc = m'.pc → n = n') ∧
      ∃ n ≤ prog.insns.length, ∃ v, filterSteps prog.insns packet n = .ok (.brk v)) ∧
    (∀ n, executed prog.insns packet n ≤
      (backwardJas prog.insns packet n + 1) * prog.insns.length) ∧
    ∀ b, (∀ n, backwardJas prog.insns packet n ≤ b) →
      ∃ v, filterSteps prog.insns packet ((b + 1) * prog.insns.length) = .ok (.brk v) := by
  have hv := validated_of_validateWithFlags h
  refine ⟨fun hflags => ⟨?_, ?_, ?_⟩, hv.executed_le, fun b => hv.exists_brk_of_backwardJas_le⟩
  · intro n m m' hm hm'
    exact hv.pc_lt_pc_succ hflags hm hm'
  · intro n n' m m' hm hm' hpc
    rcases Nat.lt_trichotomy n n' with hlt | heq | hgt
    · exact absurd (hpc ▸ hv.pc_lt_pc_of_lt hflags hlt hm hm') (Nat.lt_irrefl _)
    · exact heq
    · exact absurd (hpc ▸ hv.pc_lt_pc_of_lt hflags hgt hm' hm) (Nat.lt_irrefl _)
  · refine ⟨_, le_rfl, hv.exists_brk fun m hm => ?_⟩
    exact absurd (hv.pc_lt_length hm) (Nat.not_lt.mpr (hv.le_pc hflags hm))

/-- A forward jump ends at once; a backward `JA` runs on, bounded by its executions. -/
theorem filterSteps_terminates_ja :
    (∃ n ≤ 2, ∃ v, filterSteps [.stmt (JMP ||| JA) 0, .stmt (RET ||| K) 7] [] n = .ok (.brk v)) ∧
    ∃ loop : List BpfInsn, executed loop [] 5 = 5 ∧ backwardJas loop [] 5 = 5 ∧
      executed loop [] 5 ≤ (backwardJas loop [] 5 + 1) * loop.length := by
  have hskip : validateWithFlags [.stmt (JMP ||| JA) 0, .stmt (RET ||| K) 7] 0 =
      .ok ⟨[.stmt (JMP ||| JA) 0, .stmt (RET ||| K) 7]⟩ := by decide +kernel
  have hloop : validateWithFlags [.stmt (JMP ||| JA) 0xffffffff, .stmt (RET ||| K) 0]
      VALIDATE_ALLOW_BACKWARD_JUMPS =
      .ok ⟨[.stmt (JMP ||| JA) 0xffffffff, .stmt (RET ||| K) 0]⟩ := by decide +kernel
  refine ⟨((filterSteps_terminates hskip []).1 (by decide)).2.2, _, ?_, ?_,
    (filterSteps_terminates hloop []).2.1 5⟩
  · decide +kernel
  · decide +kernel

end ZprUtils.Bpf
