import ZprUtils.Bpf.Safety

/-!
# Exact acceptance of the BPF validator

The validator reads an opcode through nested fields; what it decides is simpler. An instruction
offends when its opcode has no arm in the interpreter, or when it has one and the operands do not
fit (`Bpf.offence`). The check of one instruction returns exactly its offence, so the loop returns
the first offence in program order, and the program is accepted when nothing offends and the last
instruction returns.

## Main definitions

* `Bpf.offence` — the error of an instruction, read off the arms of the interpreter.
* `Bpf.FirstOffence` — an instruction offends and none before it does.

## Main results

* `Bpf.validateLoop_eq_ok_iff`, `Bpf.validateLoop_eq_error_iff` — the loop in terms of offences.
* `Bpf.doValidate_exact` — which programs are accepted and with which error the others are not.
-/

namespace ZprUtils.Bpf

variable {flags : Nat} {len i : UInt32} {insn : BpfInsn} {insns : List BpfInsn}

/-! ### The check of one instruction -/

/-- The error of the instruction at index `i` of a program of `len` instructions: an opcode without
an arm, or an arm whose operands do not fit. -/
def offence (flags len i : Nat) (insn : BpfInsn) : Option BpfError :=
  match matchArm insn.code with
  | none => some .invalidInstruction
  | some arm => if arm.OperandsOk flags len i insn then none else some arm.operandError

/-- An instruction does not offend when it is an arm with operands that fit. -/
theorem offence_eq_none_iff {len i : Nat} :
    offence flags len i insn = none ↔
      ∃ arm : Arm, insn.code = arm.code ∧ arm.OperandsOk flags len i insn := by
  constructor
  · intro h
    cases harm : matchArm insn.code with
    | none => simp [offence, harm] at h
    | some arm =>
      refine ⟨arm, matchArm_eq_some_iff.mp harm, ?_⟩
      by_contra hok
      simp [offence, harm, hok] at h
  · rintro ⟨arm, harm, hok⟩
    simp only [offence, matchArm_eq_some_iff.mpr harm, if_pos hok]

/-- The check of an instruction returns its offence. The match of the source and the order in which
it looks at the operands are behind this equation; from here on only offences are spoken of. -/
theorem validateInsn_eq_offence (hi : i < len) :
    validateInsn flags len i insn =
      match offence flags len.toNat i.toNat insn with
      | none => .ok ()
      | some e => .error e := by
  cases harm : matchArm insn.code with
  | none =>
    simp only [offence, harm]
    by_contra hne
    obtain ⟨arm, hcode⟩ := exists_arm_of_validateInsn hne
    rw [matchArm_eq_some_iff.mpr hcode] at harm
    exact absurd harm nofun
  | some arm =>
    rw [validateInsn_of_arm hi (matchArm_eq_some_iff.mp harm)]
    by_cases hok : arm.OperandsOk flags len.toNat i.toNat insn
    · simp only [offence, harm, if_pos hok]
    · simp only [offence, harm, if_neg hok]

/-! ### The loop -/

/-- The instruction at index `i` of the program offends with the error `e` and no instruction
before it offends. -/
def FirstOffence (flags : Nat) (insns : List BpfInsn) (i : Nat) (e : BpfError) : Prop :=
  (∃ insn, insns[i]? = some insn ∧ offence flags insns.length i insn = some e) ∧
    ∀ j insn, j < i → insns[j]? = some insn → offence flags insns.length j insn = none

/-- The loop from an index on, up to the end of the program, in terms of the offences there: it
fails with the first of them, and succeeds when there is none. -/
private theorem validateLoop_spec (hlen : i.toNat + insns.length = len.toNat) :
    (validateLoop flags len i insns = .ok () ↔
      ∀ j insn, insns[j]? = some insn → offence flags len.toNat (i.toNat + j) insn = none) ∧
    ∀ e, validateLoop flags len i insns = .error e ↔ ∃ j,
      (∃ insn, insns[j]? = some insn ∧ offence flags len.toNat (i.toNat + j) insn = some e) ∧
      ∀ j' insn, j' < j → insns[j']? = some insn →
        offence flags len.toNat (i.toNat + j') insn = none := by
  induction insns generalizing i with
  | nil => simp [validateLoop]
  | cons head rest ih =>
    rw [List.length_cons] at hlen
    have hi : i < len := by rw [UInt32.lt_iff_toNat_lt]; omega
    have hsucc : (i + 1).toNat = i.toNat + 1 := by
      have hlt : len.toNat < 2 ^ 32 := len.toNat_lt
      rw [UInt32.toNat_add, UInt32.toNat_one, Nat.mod_eq_of_lt (by omega)]
    obtain ⟨ihok, iherr⟩ := @ih (i + 1) (by rw [hsucc]; omega)
    have hshift : ∀ j, (i + 1).toNat + j = i.toNat + (j + 1) := fun j => by rw [hsucc]; omega
    simp only [hshift] at ihok iherr
    rw [validateLoop, validateInsn_eq_offence hi]
    cases hhead : offence flags len.toNat i.toNat head with
    | some e₀ =>
      -- the loop is left at the head
      simp only [except_error_bind]
      refine ⟨⟨nofun, fun h => ?_⟩, fun e => ⟨?_, ?_⟩⟩
      · have hnone := h 0 head rfl
        rw [Nat.add_zero, hhead] at hnone
        exact absurd hnone nofun
      · intro h
        obtain rfl : e₀ = e := Except.error.inj h
        exact ⟨0, ⟨head, rfl, hhead⟩, fun j' insn hj' => absurd hj' (Nat.not_lt_zero _)⟩
      · rintro ⟨j, ⟨insn, hj, hoff⟩, hbefore⟩
        cases j with
        | zero =>
          obtain rfl : head = insn := by simpa using hj
          rw [Nat.add_zero, hhead] at hoff
          rw [Option.some.inj hoff]
        | succ j =>
          have hnone := hbefore 0 head (Nat.succ_pos j) rfl
          rw [Nat.add_zero, hhead] at hnone
          exact absurd hnone nofun
    | none =>
      simp only [except_ok_bind]
      refine ⟨ihok.trans ⟨fun h j insn hj => ?_, fun h j insn hj => h (j + 1) insn hj⟩,
        fun e => (iherr e).trans ⟨?_, ?_⟩⟩
      · cases j with
        | zero =>
          obtain rfl : head = insn := by simpa using hj
          exact hhead
        | succ j => exact h j insn hj
      · rintro ⟨j, hj, hbefore⟩
        refine ⟨j + 1, hj, fun j' insn hj' hget => ?_⟩
        cases j' with
        | zero =>
          obtain rfl : head = insn := by simpa using hget
          exact hhead
        | succ j' => exact hbefore j' insn (Nat.lt_of_succ_lt_succ hj') hget
      · rintro ⟨j, ⟨insn, hj, hoff⟩, hbefore⟩
        cases j with
        | zero =>
          obtain rfl : head = insn := by simpa using hj
          rw [Nat.add_zero, hhead] at hoff
          exact absurd hoff nofun
        | succ j =>
          exact ⟨j, ⟨insn, hj, hoff⟩,
            fun j' insn' hj' hget => hbefore (j' + 1) insn' (Nat.succ_lt_succ hj') hget⟩

section Program

variable (hlen : insns.length ≤ u32Max)
include hlen

private theorem toNat_ofNat_length : (UInt32.ofNat insns.length).toNat = insns.length := by
  have hmax : u32Max = 2 ^ 32 - 1 := rfl
  exact UInt32.toNat_ofNat_of_lt' (by show insns.length < 2 ^ 32; omega)

theorem validateLoop_eq_ok_iff :
    validateLoop flags (UInt32.ofNat insns.length) 0 insns = .ok () ↔
      ∀ i insn, insns[i]? = some insn → offence flags insns.length i insn = none := by
  have hnat := toNat_ofNat_length hlen
  have hspec := (@validateLoop_spec flags (UInt32.ofNat insns.length) 0 insns
    (by rw [hnat, UInt32.toNat_zero, Nat.zero_add])).1
  simpa only [hnat, UInt32.toNat_zero, Nat.zero_add] using hspec

theorem validateLoop_eq_error_iff (e : BpfError) :
    validateLoop flags (UInt32.ofNat insns.length) 0 insns = .error e ↔
      ∃ i, FirstOffence flags insns i e := by
  have hnat := toNat_ofNat_length hlen
  have hspec := (@validateLoop_spec flags (UInt32.ofNat insns.length) 0 insns
    (by rw [hnat, UInt32.toNat_zero, Nat.zero_add])).2 e
  simp only [hnat, UInt32.toNat_zero, Nat.zero_add] at hspec
  exact hspec

/-- The errors of a program that is not too large. -/
theorem doValidate_eq_error_iff (e : BpfError) :
    doValidate insns flags = .error e ↔
      (∃ i, FirstOffence flags insns i e) ∨
      (e = .missingReturn ∧
        (∀ i insn, insns[i]? = some insn → offence flags insns.length i insn = none) ∧
        ¬∃ last, insns.getLast? = some last ∧ codeClass last.code = RET) := by
  have hnone : ∀ e', (∃ i, FirstOffence flags insns i e') →
      ¬∀ i insn, insns[i]? = some insn → offence flags insns.length i insn = none := by
    rintro e' ⟨i, ⟨insn, hi, hoff⟩, -⟩ h
    simp [h i insn hi] at hoff
  rw [doValidate, if_neg (Nat.not_lt.mpr hlen)]
  cases hloop : validateLoop flags (UInt32.ofNat insns.length) 0 insns with
  | error e' =>
    have hfirst := (validateLoop_eq_error_iff hlen e').mp hloop
    rw [← validateLoop_eq_error_iff hlen e, hloop]
    exact ⟨Or.inl, fun h => h.resolve_right fun h' => hnone e' hfirst h'.2.1⟩
  | ok u =>
    have hok := (validateLoop_eq_ok_iff hlen).mp hloop
    have hno : ¬∃ i, FirstOffence flags insns i e := fun h => hnone e h hok
    cases hlast : insns.getLast? with
    | none =>
      simp only [Option.any_none, Bool.not_false, if_true, except_ok_bind, except_throw]
      refine ⟨fun h => Or.inr ⟨(Except.error.inj h).symm, hok, by simp⟩, fun h => ?_⟩
      rw [(h.resolve_left hno).1]
    | some last =>
      by_cases hret : codeClass last.code = RET
      · simp only [Option.any_some, hret, beq_self_eq_true, Bool.not_true, except_ok_bind]
        exact ⟨by simp, fun h => absurd ⟨last, rfl, hret⟩ (h.resolve_left hno).2.2⟩
      · simp only [Option.any_some, beq_eq_false_iff_ne.mpr hret, Bool.not_false, if_true,
          except_ok_bind, except_throw]
        refine ⟨fun h => Or.inr ⟨(Except.error.inj h).symm, hok, ?_⟩,
          fun h => by rw [(h.resolve_left hno).1]⟩
        rintro ⟨last', hlast', hret'⟩
        exact hret (Option.some.inj hlast' ▸ hret')

/-- A program that is not too large is accepted exactly when it is what the interpreter relies
on. -/
theorem doValidate_eq_ok_iff : doValidate insns flags = .ok () ↔ Validated flags insns := by
  refine ⟨validated_of_doValidate, fun hv => ?_⟩
  cases hres : doValidate insns flags with
  | ok u => rfl
  | error e =>
    rcases (doValidate_eq_error_iff hlen e).mp hres with ⟨i, ⟨insn, hi, hoff⟩, -⟩ | ⟨-, -, hlast⟩
    · rw [offence_eq_none_iff.mpr (hv.exists_arm i insn hi)] at hoff
      exact absurd hoff nofun
    · exact absurd hv.ret_last hlast

end Program

/-! ### The flag for backward jumps -/

/-- The flag only matters to the operands of a `JA`: without it the jump must go forward. -/
theorem Arm.operandsOk_forward_iff {arm : Arm} {flags' len i : Nat} (hlen : len ≤ u32Max)
    (hi : i < len) (hclear : flags &&& VALIDATE_ALLOW_BACKWARD_JUMPS = 0)
    (hset : flags' &&& VALIDATE_ALLOW_BACKWARD_JUMPS ≠ 0) :
    arm.OperandsOk flags len i insn ↔
      arm.OperandsOk flags' len i insn ∧
        (arm = .ja → i < (i + 1 + insn.k.toNat) % 2 ^ 32) := by
  cases arm with
  | ja =>
    have hmax : u32Max = 2 ^ 32 - 1 := rfl
    have hk : insn.k.toNat < 2 ^ 32 := insn.k.toNat_lt
    simp only [Arm.OperandsOk, hclear, ne_eq, not_true_eq_false, if_false, if_pos hset,
      forall_const]
    omega
  | alu op src => cases op <;> cases src <;> simp [Arm.OperandsOk]
  | _ => simp [Arm.OperandsOk]

/-- A program is accepted without the flag when it is accepted with it and every `JA` jumps
forward. -/
theorem validated_forward_iff {flags' : Nat}
    (hclear : flags &&& VALIDATE_ALLOW_BACKWARD_JUMPS = 0)
    (hset : flags' &&& VALIDATE_ALLOW_BACKWARD_JUMPS ≠ 0) :
    Validated flags insns ↔
      Validated flags' insns ∧ ∀ i insn, insns[i]? = some insn → insn.code = JMP ||| JA →
        i < (i + 1 + insn.k.toNat) % 2 ^ 32 := by
  have hlt : ∀ {i : Nat} {insn}, insns[i]? = some insn → i < insns.length :=
    fun h => (List.getElem?_eq_some_iff.mp h).1
  constructor
  · intro hv
    refine ⟨⟨hv.length_le, fun i insn hi => ?_, hv.ret_last⟩, fun i insn hi hja => ?_⟩
    · obtain ⟨arm, harm, hok⟩ := hv.exists_arm i insn hi
      exact ⟨arm, harm,
        ((Arm.operandsOk_forward_iff hv.length_le (hlt hi) hclear hset).mp hok).1⟩
    · obtain ⟨arm, harm, hok⟩ := hv.exists_arm i insn hi
      have hjaArm : arm = .ja := by
        have hcode : Arm.ja.code = arm.code := hja.symm.trans harm
        have hmatch := matchArm_code arm
        rw [← hcode, matchArm_code] at hmatch
        exact (Option.some.inj hmatch).symm
      exact ((Arm.operandsOk_forward_iff hv.length_le (hlt hi) hclear hset).mp hok).2 hjaArm
  · rintro ⟨hv, hforward⟩
    refine ⟨hv.length_le, fun i insn hi => ?_, hv.ret_last⟩
    obtain ⟨arm, harm, hok⟩ := hv.exists_arm i insn hi
    refine ⟨arm, harm, ?_⟩
    refine (Arm.operandsOk_forward_iff hv.length_le (hlt hi) hclear hset).mpr ⟨hok, ?_⟩
    rintro rfl
    exact hforward i insn hi harm

/-! ### The validator -/

/-- **Exact acceptance of the validator.** A program of at most `u32::MAX` instructions is accepted
when it is not empty, its last instruction is of class `RET`, and every instruction has the opcode
of an arm of the interpreter with operands that fit. It is accepted without the flag for backward
jumps when it is accepted with it and every `JA` jumps forward. The error of a rejected program is
the offence of its first offending instruction, and `MissingReturn` when none offends. -/
theorem doValidate_exact (insns : List BpfInsn) (flags : Nat) (hlen : insns.length ≤ u32Max) :
    (doValidate insns flags = .ok () ↔
      insns ≠ [] ∧ (∃ last, insns.getLast? = some last ∧ codeClass last.code = RET) ∧
        ∀ i insn, insns[i]? = some insn →
          ∃ arm ∈ arms, insn.code = arm.code ∧ arm.OperandsOk flags insns.length i insn) ∧
    (∀ clear set : Nat, clear &&& VALIDATE_ALLOW_BACKWARD_JUMPS = 0 →
      set &&& VALIDATE_ALLOW_BACKWARD_JUMPS ≠ 0 →
      (doValidate insns clear = .ok () ↔
        doValidate insns set = .ok () ∧
          ∀ i insn, insns[i]? = some insn → insn.code = JMP ||| JA →
            i < (i + 1 + insn.k.toNat) % 2 ^ 32)) ∧
    ∀ e, doValidate insns flags = .error e ↔
      (∃ i, FirstOffence flags insns i e) ∨
      (e = .missingReturn ∧
        (∀ i insn, insns[i]? = some insn → offence flags insns.length i insn = none) ∧
        ¬∃ last, insns.getLast? = some last ∧ codeClass last.code = RET) := by
  refine ⟨?_, fun clear set hclear hset => ?_, doValidate_eq_error_iff hlen⟩
  · rw [doValidate_eq_ok_iff hlen]
    constructor
    · intro hv
      refine ⟨?_, hv.ret_last, fun i insn hi => ?_⟩
      · rintro rfl
        obtain ⟨last, hlast, -⟩ := hv.ret_last
        exact absurd hlast nofun
      · obtain ⟨arm, harm, hok⟩ := hv.exists_arm i insn hi
        exact ⟨arm, List.mem_of_find?_eq_some (matchArm_code arm), harm, hok⟩
    · rintro ⟨-, hlast, hinsns⟩
      refine ⟨hlen, fun i insn hi => ?_, hlast⟩
      obtain ⟨arm, -, harm, hok⟩ := hinsns i insn hi
      exact ⟨arm, harm, hok⟩
  · rw [doValidate_eq_ok_iff hlen, doValidate_eq_ok_iff hlen]
    exact validated_forward_iff hclear hset

/-- A program with a backward `JA`, a constant division by zero after it, and no return: the first
of its offences is reported, without the flag the jump and with it the division. -/
theorem doValidate_exact_offences :
    let insns : List BpfInsn := [.stmt (LD ||| IMM) 1, .stmt (JMP ||| JA) 0xfffffffe,
      .stmt (ALU ||| DIV ||| K) 0]
    (insns.length ≤ u32Max ∧ ∃ i, FirstOffence 0 insns i .badJumpTarget) ∧
      ∃ i, FirstOffence VALIDATE_ALLOW_BACKWARD_JUMPS insns i .divideByZero := by
  intro insns
  have hlen : insns.length ≤ u32Max := by decide
  refine ⟨⟨hlen, ?_⟩, ?_⟩
  · rcases ((doValidate_exact insns 0 hlen).2.2 .badJumpTarget).mp (by decide +kernel) with h | h
    · exact h
    · exact absurd h.1 nofun
  · rcases ((doValidate_exact insns VALIDATE_ALLOW_BACKWARD_JUMPS hlen).2.2 .divideByZero).mp
      (by decide +kernel) with h | h
    · exact h
    · exact absurd h.1 nofun

end ZprUtils.Bpf
