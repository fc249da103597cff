import ZprUtils.Bpf.Filter
import ZprUtils.Foundations.Except

/-!
# The validator of classic BPF programs

`BpfProgram::do_validate` checks the instructions in program order and then that the last one
returns. The check of one instruction decodes its opcode by fields. An instruction that passes
has the pattern of an arm of the interpreter as its opcode, and its operands meet what that arm
needs (`Bpf.accepted_of_validateInsn`). An accepted program is `Validated`: every instruction
is of this kind and the last one returns (`Bpf.validated_of_validateWithFlags`).

## Main definitions

* `Bpf.validateInsn` — the body of the validator's loop.
* `Bpf.doValidate`, `Bpf.validateWithFlags`.
* `Bpf.Arm.OperandsOk` — the operands an arm can be executed with.
* `Bpf.Validated` — what the interpreter relies on.
-/

namespace ZprUtils.Bpf

/-- Why a program did not validate. -/
inductive BpfError where
  | programTooLarge
  | missingReturn
  | invalidInstruction
  | badJumpTarget
  | badMemoryAccess
  | divideByZero
  deriving DecidableEq, Repr

/-- The flag that allows backward jumps. -/
def VALIDATE_ALLOW_BACKWARD_JUMPS : Nat := 1

/-- The largest `u32`. -/
def u32Max : Nat := 2 ^ 32 - 1

/-! ### The check of one instruction -/

/-- The check of a scratch memory index. -/
def validateMem (insn : BpfInsn) : Except BpfError Unit :=
  if insn.k.toNat ≥ MEMWORDS then .error .badMemoryAccess else .ok ()

/-- The checks of the class `LD`: a mode with a size that the interpreter knows. -/
def validateLd (insn : BpfInsn) : Except BpfError Unit :=
  let mode := codeMode insn.code
  if mode = IMM ∨ mode = LEN then
    if codeSize insn.code ≠ W then .error .invalidInstruction else .ok ()
  else if mode = ABS ∨ mode = IND then
    if !validCodeSize (codeSize insn.code) then .error .invalidInstruction else .ok ()
  else if mode = MEM then
    if codeSize insn.code ≠ W then .error .invalidInstruction else validateMem insn
  else .error .invalidInstruction

/-- The checks of the class `LDX`. The header length is loaded from a byte only. -/
def validateLdx (insn : BpfInsn) : Except BpfError Unit :=
  let mode := codeMode insn.code
  if mode = IMM ∨ mode = LEN then
    if codeSize insn.code ≠ W then .error .invalidInstruction else .ok ()
  else if mode = MSH then
    if codeSize insn.code ≠ B then .error .invalidInstruction else .ok ()
  else if mode = MEM then
    if codeSize insn.code ≠ W then .error .invalidInstruction else validateMem insn
  else .error .invalidInstruction

/-- The checks of the classes `ST` and `STX`: a word of the scratch memory. -/
def validateSt (insn : BpfInsn) : Except BpfError Unit :=
  if codeMode insn.code ≠ MEM ∨ codeSize insn.code ≠ W then .error .invalidInstruction
  else validateMem insn

/-- The checks of the class `ALU`. A constant divisor is not zero. -/
def validateAlu (insn : BpfInsn) : Except BpfError Unit :=
  let op := codeOp insn.code
  if op = ADD ∨ op = SUB ∨ op = MUL ∨ op = OR ∨ op = AND ∨ op = XOR ∨ op = LSH ∨ op = RSH then
    .ok ()
  else if op = NEG then
    if codeSrc insn.code ≠ 0 then .error .invalidInstruction else .ok ()
  else if op = DIV ∨ op = MOD then
    if codeSrc insn.code = K ∧ insn.k = 0 then .error .divideByZero else .ok ()
  else .error .invalidInstruction

/-- The checks of the class `JMP`, at index `i` of `len` instructions. With backward jumps allowed
the target is computed modulo `2 ^ 32`; otherwise the offset is compared with what is left of the
program. -/
def validateJmp (flags : Nat) (len i : UInt32) (insn : BpfInsn) : Except BpfError Unit :=
  let src := i + 1
  let op := codeOp insn.code
  if op = JA then
    if codeSrc insn.code ≠ 0 then .error .invalidInstruction
    else if flags &&& VALIDATE_ALLOW_BACKWARD_JUMPS ≠ 0 then
      if src + insn.k ≥ len then .error .badJumpTarget else .ok ()
    else if insn.k ≥ len - src then .error .badJumpTarget else .ok ()
  else if op = JEQ ∨ op = JGT ∨ op = JGE ∨ op = JSET then
    if insn.jt.toUInt32 ≥ len - src ∨ insn.jf.toUInt32 ≥ len - src then .error .badJumpTarget
    else .ok ()
  else .error .invalidInstruction

/-- The checks of the class `RET`: the accumulator or a constant is returned. -/
def validateRet (insn : BpfInsn) : Except BpfError Unit :=
  if codeRval insn.code = A ∨ codeRval insn.code = K then
    if insn.code &&& 0xe0 ≠ 0 then .error .invalidInstruction else .ok ()
  else .error .invalidInstruction

/-- The checks of the class `MISC`: one of the two transfers. -/
def validateMisc (insn : BpfInsn) : Except BpfError Unit :=
  if codeMiscop insn.code = TAX ∨ codeMiscop insn.code = TXA then .ok ()
  else .error .invalidInstruction

/-- The check of the instruction at index `i` of a program of `len` instructions. -/
def validateInsn (flags : Nat) (len i : UInt32) (insn : BpfInsn) : Except BpfError Unit :=
  if insn.code &&& 0xff00 ≠ 0 then .error .invalidInstruction
  else if codeClass insn.code = LD then validateLd insn
  else if codeClass insn.code = LDX then validateLdx insn
  else if codeClass insn.code = ST ∨ codeClass insn.code = STX then validateSt insn
  else if codeClass insn.code = ALU then validateAlu insn
  else if codeClass insn.code = JMP then validateJmp flags len i insn
  else if codeClass insn.code = RET then validateRet insn
  else if codeClass insn.code = MISC then validateMisc insn
  else .error .invalidInstruction

/-! ### The check of a program -/

/-- The validator's loop, from the index `i` on. -/
def validateLoop (flags : Nat) (len : UInt32) : UInt32 → List BpfInsn → Except BpfError Unit
  | _, [] => .ok ()
  | i, insn :: rest => do
    validateInsn flags len i insn
    validateLoop flags len (i + 1) rest

/-- The validator: the length of the program, its instructions in order, and the return at its end.
-/
def doValidate (insns : List BpfInsn) (flags : Nat) : Except BpfError Unit := do
  if insns.length > u32Max then throw .programTooLarge
  validateLoop flags (UInt32.ofNat insns.length) 0 insns
  if !insns.getLast?.any fun insn => codeClass insn.code == RET then throw .missingReturn

/-- A validated BPF program. -/
structure BpfProgram where
  insns : List BpfInsn
  deriving DecidableEq, Repr

/-- A program with the instructions `insns`, if the validator accepts them under `flags`. -/
def validateWithFlags (insns : List BpfInsn) (flags : Nat) : Except BpfError BpfProgram := do
  doValidate insns flags
  return ⟨insns⟩

/-- A program with the instructions `insns`, if the validator accepts them without any flag. -/
def validate (insns : List BpfInsn) : Except BpfError BpfProgram :=
  validateWithFlags insns 0

example : (validate [.stmt (RET ||| LEN) 0]).toOption = none := rfl

/-! ### What an accepted instruction can be -/

/-- The operands with which an arm at index `i` of a program of `len` instructions stays in the
domain of its operations and in the program. -/
def Arm.OperandsOk (flags len i : Nat) (insn : BpfInsn) : Arm → Prop
  | .ldMem | .ldxMem | .st | .stx => insn.k.toNat < MEMWORDS
  | .alu .div .k | .alu .mod .k => insn.k ≠ 0
  | .jcond _ _ => i + 1 + insn.jt.toNat < len ∧ i + 1 + insn.jf.toNat < len
  | .ja =>
    if flags &&& VALIDATE_ALLOW_BACKWARD_JUMPS ≠ 0 then (i + 1 + insn.k.toNat) % 2 ^ 32 < len
    else i + 1 + insn.k.toNat < len
  | _ => True

/-- The error of an arm whose operands do not fit. -/
def Arm.operandError : Arm → BpfError
  | .ldMem | .ldxMem | .st | .stx => .badMemoryAccess
  | .alu _ _ => .divideByZero
  | _ => .badJumpTarget

instance Arm.decidableOperandsOk (flags len i : Nat) (insn : BpfInsn) :
    (arm : Arm) → Decidable (arm.OperandsOk flags len i insn)
  | .ldMem | .ldxMem | .st | .stx => inferInstanceAs (Decidable (insn.k.toNat < MEMWORDS))
  | .alu .div .k | .alu .mod .k => inferInstanceAs (Decidable (insn.k ≠ 0))
  | .jcond _ _ => inferInstanceAs
      (Decidable (i + 1 + insn.jt.toNat < len ∧ i + 1 + insn.jf.toNat < len))
  | .ja => inferInstanceAs (Decidable (if flags &&& VALIDATE_ALLOW_BACKWARD_JUMPS ≠ 0 then
      (i + 1 + insn.k.toNat) % 2 ^ 32 < len else i + 1 + insn.k.toNat < len))
  | .retK | .retA | .ldAbs _ | .ldLen | .ldxLen | .ldInd _ | .ldxMsh | .ldImm | .ldxImm
  | .alu .add _ | .alu .sub _ | .alu .mul _ | .alu .div .x | .alu .mod .x | .alu .and _
  | .alu .or _ | .alu .xor _ | .alu .lsh _ | .alu .rsh _ | .neg | .tax | .txa =>
    inferInstanceAs (Decidable True)

variable {flags : Nat} {len i : UInt32} {insn : BpfInsn}

private theorem toNat_add_one (hi : i < len) : (i + 1).toNat = i.toNat + 1 := by
  have hlt : i.toNat < len.toNat := hi
  have hlen : len.toNat < 2 ^ 32 := len.toNat_lt
  rw [UInt32.toNat_add, UInt32.toNat_one, Nat.mod_eq_of_lt (by omega)]

/-- A jump distance is out of range when its target is not in the program. -/
private theorem ge_sub_iff (hi : i < len) (d : UInt32) :
    d ≥ len - (i + 1) ↔ ¬i.toNat + 1 + d.toNat < len.toNat := by
  have hlt : i.toNat < len.toNat := hi
  have hsucc := toNat_add_one hi
  have hle : i + 1 ≤ len := by rw [UInt32.le_iff_toNat_le, hsucc]; omega
  rw [ge_iff_le, UInt32.le_iff_toNat_le, UInt32.toNat_sub_of_le _ _ hle, hsucc]
  omega

private theorem ge_add_iff (hi : i < len) (d : UInt32) :
    i + 1 + d ≥ len ↔ ¬(i.toNat + 1 + d.toNat) % 2 ^ 32 < len.toNat := by
  rw [ge_iff_le, UInt32.le_iff_toNat_le, UInt32.toNat_add, toNat_add_one hi, Nat.not_lt]

/-- The instruction is an arm of the interpreter with operands that fit. -/
def Accepted (flags : Nat) (len i : UInt32) (insn : BpfInsn) : Prop :=
  ∃ arm : Arm, insn.code = arm.code ∧ arm.OperandsOk flags len.toNat i.toNat insn

/-- A check that fails exactly when the operands do not fit. -/
private theorem check_eq_ite {P Q : Prop} [Decidable P] [Decidable Q] (h : P ↔ ¬Q) (e : BpfError) :
    (if P then .error e else .ok ()) = if Q then Except.ok () else .error e := by
  by_cases hq : Q
  · rw [if_neg (not_not.mpr hq ∘ h.mp), if_pos hq]
  · rw [if_pos (h.mpr hq), if_neg hq]

/-- On an instruction with the opcode of an arm the check looks at the operands only; the arms of
the check and those of the interpreter are the same. -/
theorem validateInsn_of_arm (hi : i < len) {arm : Arm} (harm : insn.code = arm.code) :
    validateInsn flags len i insn =
      if arm.OperandsOk flags len.toNat i.toNat insn then .ok () else .error arm.operandError := by
  obtain ⟨code, jt, jf, k⟩ := insn
  obtain rfl : code = arm.code := harm
  cases arm with
  | ldMem | ldxMem | st | stx =>
    simp +decide only [validateInsn, validateLd, validateLdx, validateSt, validateMem, if_true,
      if_false]
    exact check_eq_ite Nat.not_lt.symm _
  | ja =>
    simp +decide only [validateInsn, validateJmp, if_true, if_false]
    by_cases hflag : flags &&& VALIDATE_ALLOW_BACKWARD_JUMPS ≠ 0
    · rw [if_pos hflag]
      exact check_eq_ite (by simp only [Arm.OperandsOk, if_pos hflag, ge_add_iff hi]) _
    · rw [if_neg hflag]
      exact check_eq_ite (by simp only [Arm.OperandsOk, if_neg hflag, ge_sub_iff hi]) _
  | jcond cond src =>
    have hjcond : validateInsn flags len i ⟨(Arm.jcond cond src).code, jt, jf, k⟩ =
        if jt.toUInt32 ≥ len - (i + 1) ∨ jf.toUInt32 ≥ len - (i + 1) then .error .badJumpTarget
        else .ok () := by
      cases cond <;> cases src <;> simp +decide only [validateInsn, validateJmp, if_true, if_false]
    rw [hjcond]
    refine check_eq_ite ?_ _
    rw [ge_sub_iff hi, ge_sub_iff hi, ← not_and_or, UInt8.toNat_toUInt32, UInt8.toNat_toUInt32]
    rfl
  | alu op src =>
    cases src with
    | k =>
      cases op with
      | div | mod =>
        simp +decide only [validateInsn, validateAlu, if_true, if_false, true_and]
        exact check_eq_ite not_not.symm _
      | _ =>
        simp +decide only [validateInsn, validateAlu, if_true]
        exact (if_pos trivial).symm
    | x =>
      cases op <;> simp +decide only [validateInsn, validateAlu, if_true, if_false, false_and] <;>
        exact (if_pos trivial).symm
  | ldAbs size | ldInd size =>
    cases size <;> simp +decide only [validateInsn, validateLd, if_true, if_false] <;>
      exact (if_pos trivial).symm
  | _ =>
    simp +decide only [validateInsn, validateLd, validateLdx, validateAlu, validateRet,
      validateMisc, if_true, if_false]
    exact (if_pos trivial).symm

section Fields

variable (hlow : insn.code &&& 0xff00 = 0)
include hlow

private theorem exists_arm_of_validateLd (hc : codeClass insn.code = LD)
    (h : validateLd insn ≠ .error .invalidInstruction) : ∃ arm : Arm, insn.code = arm.code := by
  have hcode := code_eq_of_memFields hlow
  rw [hc] at hcode
  simp only [validateLd] at h
  split_ifs at h with hm hs hm hs hm hs
  · exact absurd rfl h
  · rw [not_not.mp hs] at hcode
    rcases hm with hm | hm <;> rw [hm] at hcode
    · exact ⟨.ldImm, hcode⟩
    · exact ⟨.ldLen, hcode⟩
  · exact absurd rfl h
  · -- the validator only excludes the fourth value of the size field
    have hsize : ∃ size : Size, codeSize insn.code = size.code := by
      rcases codeSize_cases insn.code with h' | h' | h' | h'
      · exact ⟨.w, h'⟩
      · exact ⟨.h, h'⟩
      · exact ⟨.b, h'⟩
      · exact absurd (by rw [h']; rfl) hs
    obtain ⟨size, hsize⟩ := hsize
    rw [hsize] at hcode
    rcases hm with hm | hm <;> rw [hm] at hcode
    · exact ⟨.ldAbs size, hcode⟩
    · exact ⟨.ldInd size, hcode⟩
  · exact absurd rfl h
  · rw [hm, not_not.mp hs] at hcode
    exact ⟨.ldMem, hcode⟩
  · exact absurd rfl h

private theorem exists_arm_of_validateLdx (hc : codeClass insn.code = LDX)
    (h : validateLdx insn ≠ .error .invalidInstruction) : ∃ arm : Arm, insn.code = arm.code := by
  have hcode := code_eq_of_memFields hlow
  rw [hc] at hcode
  simp only [validateLdx] at h
  split_ifs at h with hm hs hm hs hm hs
  · exact absurd rfl h
  · rw [not_not.mp hs] at hcode
    rcases hm with hm | hm <;> rw [hm] at hcode
    · exact ⟨.ldxImm, hcode⟩
    · exact ⟨.ldxLen, hcode⟩
  · exact absurd rfl h
  · rw [hm, not_not.mp hs] at hcode
    exact ⟨.ldxMsh, hcode⟩
  · exact absurd rfl h
  · rw [hm, not_not.mp hs] at hcode
    exact ⟨.ldxMem, hcode⟩
  · exact absurd rfl h

private theorem exists_arm_of_validateSt (hc : codeClass insn.code = ST ∨ codeClass insn.code = STX)
    (h : validateSt insn ≠ .error .invalidInstruction) : ∃ arm : Arm, insn.code = arm.code := by
  have hcode := code_eq_of_memFields hlow
  simp only [validateSt] at h
  split_ifs at h with hm
  · exact absurd rfl h
  obtain ⟨hmode, hsize⟩ := not_or.mp hm
  rw [not_not.mp hmode, not_not.mp hsize] at hcode
  rcases hc with hc | hc <;> rw [hc] at hcode
  · exact ⟨.st, hcode⟩
  · exact ⟨.stx, hcode⟩

private theorem exists_arm_of_validateAlu (hc : codeClass insn.code = ALU)
    (h : validateAlu insn ≠ .error .invalidInstruction) : ∃ arm : Arm, insn.code = arm.code := by
  have hcode := code_eq_of_aluFields hlow
  rw [hc] at hcode
  have hsrc : ∃ src : Src, codeSrc insn.code = src.code := by
    rcases codeSrc_eq_K_or_X insn.code with h' | h'
    · exact ⟨.k, h'⟩
    · exact ⟨.x, h'⟩
  obtain ⟨src, hsrc⟩ := hsrc
  simp only [validateAlu] at h
  split_ifs at h with ho ho hs ho hs
  · rw [hsrc] at hcode
    rcases ho with ho | ho | ho | ho | ho | ho | ho | ho <;> rw [ho] at hcode
    · exact ⟨.alu .add src, hcode⟩
    · exact ⟨.alu .sub src, hcode⟩
    · exact ⟨.alu .mul src, hcode⟩
    · exact ⟨.alu .or src, hcode⟩
    · exact ⟨.alu .and src, hcode⟩
    · exact ⟨.alu .xor src, hcode⟩
    · exact ⟨.alu .lsh src, hcode⟩
    · exact ⟨.alu .rsh src, hcode⟩
  · exact absurd rfl h
  · rw [ho, not_not.mp hs] at hcode
    exact ⟨.neg, hcode⟩
  · rw [hsrc] at hcode
    rcases ho with ho | ho <;> rw [ho] at hcode
    · exact ⟨.alu .div src, hcode⟩
    · exact ⟨.alu .mod src, hcode⟩
  · rw [hsrc] at hcode
    rcases ho with ho | ho <;> rw [ho] at hcode
    · exact ⟨.alu .div src, hcode⟩
    · exact ⟨.alu .mod src, hcode⟩
  · exact absurd rfl h

private theorem exists_arm_of_validateJmp (hc : codeClass insn.code = JMP)
    (h : validateJmp flags len i insn ≠ .error .invalidInstruction) :
    ∃ arm : Arm, insn.code = arm.code := by
  have hcode := code_eq_of_aluFields hlow
  rw [hc] at hcode
  by_cases ho : codeOp insn.code = JA
  · by_cases hs : codeSrc insn.code = 0
    · rw [ho, hs] at hcode
      exact ⟨.ja, hcode⟩
    · exact absurd (by simp only [validateJmp, if_pos ho, if_pos hs]) h
  · have hsrc : ∃ src : Src, codeSrc insn.code = src.code := by
      rcases codeSrc_eq_K_or_X insn.code with h' | h'
      · exact ⟨.k, h'⟩
      · exact ⟨.x, h'⟩
    obtain ⟨src, hsrc⟩ := hsrc
    rw [hsrc] at hcode
    by_cases hj : codeOp insn.code = JEQ ∨ codeOp insn.code = JGT ∨ codeOp insn.code = JGE ∨
        codeOp insn.code = JSET
    · rcases hj with hj | hj | hj | hj <;> rw [hj] at hcode
      · exact ⟨.jcond .jeq src, hcode⟩
      · exact ⟨.jcond .jgt src, hcode⟩
      · exact ⟨.jcond .jge src, hcode⟩
      · exact ⟨.jcond .jset src, hcode⟩
    · exact absurd (by simp only [validateJmp, if_neg ho, if_neg hj]) h

private theorem exists_arm_of_validateRet (hc : codeClass insn.code = RET)
    (h : validateRet insn ≠ .error .invalidInstruction) : ∃ arm : Arm, insn.code = arm.code := by
  -- the return value field is the size field and the rest of the byte the mode field
  have hcode := code_eq_of_memFields hlow
  rw [hc] at hcode
  simp only [validateRet] at h
  split_ifs at h with hr hm
  · exact absurd rfl h
  · rw [show codeMode insn.code = 0 from not_not.mp hm] at hcode
    rcases hr with hr | hr
    · rw [show codeSize insn.code = A from hr] at hcode
      exact ⟨.retA, hcode⟩
    · rw [show codeSize insn.code = K from hr] at hcode
      exact ⟨.retK, hcode⟩
  · exact absurd rfl h

private theorem exists_arm_of_validateMisc (hc : codeClass insn.code = MISC)
    (h : validateMisc insn ≠ .error .invalidInstruction) : ∃ arm : Arm, insn.code = arm.code := by
  have hcode := code_eq_of_miscFields hlow
  rw [hc] at hcode
  simp only [validateMisc] at h
  split_ifs at h with hm
  · rcases hm with hm | hm <;> rw [hm] at hcode
    · exact ⟨.tax, hcode⟩
    · exact ⟨.txa, hcode⟩
  · exact absurd rfl h

end Fields

/-- An instruction that is not rejected as invalid has the opcode of an arm: the nested matches of
the check on class, mode, size and operation let no other opcode through. -/
theorem exists_arm_of_validateInsn
    (h : validateInsn flags len i insn ≠ .error .invalidInstruction) :
    ∃ arm : Arm, insn.code = arm.code := by
  simp only [validateInsn] at h
  split_ifs at h with hlow hc hc hc hc hc hc hc
  · exact absurd rfl h
  · exact exists_arm_of_validateLd (not_not.mp hlow) hc h
  · exact exists_arm_of_validateLdx (not_not.mp hlow) hc h
  · exact exists_arm_of_validateSt (not_not.mp hlow) hc h
  · exact exists_arm_of_validateAlu (not_not.mp hlow) hc h
  · exact exists_arm_of_validateJmp (not_not.mp hlow) hc h
  · exact exists_arm_of_validateRet (not_not.mp hlow) hc h
  · exact exists_arm_of_validateMisc (not_not.mp hlow) hc h
  · exact absurd rfl h

/-- An instruction that passes the check is an arm of the interpreter with operands that fit. -/
theorem accepted_of_validateInsn (hi : i < len) (h : validateInsn flags len i insn = .ok ()) :
    Accepted flags len i insn := by
  obtain ⟨arm, harm⟩ := exists_arm_of_validateInsn (by rw [h]; exact nofun)
  refine ⟨arm, harm, ?_⟩
  by_contra hok
  rw [validateInsn_of_arm hi harm, if_neg hok] at h
  exact absurd h nofun

/-! ### What an accepted program is -/

/-- What the interpreter relies on: a program counter can address the program, every instruction
is an arm with operands that fit, and the last instruction returns. -/
structure Validated (flags : Nat) (insns : List BpfInsn) : Prop where
  length_le : insns.length ≤ u32Max
  exists_arm : ∀ i insn, insns[i]? = some insn →
    ∃ arm : Arm, insn.code = arm.code ∧ arm.OperandsOk flags insns.length i insn
  ret_last : ∃ insn, insns.getLast? = some insn ∧ codeClass insn.code = RET

theorem validateInsn_of_validateLoop {insns : List BpfInsn}
    (h : validateLoop flags len i insns = .ok ()) {j : Nat} (hj : insns[j]? = some insn) :
    validateInsn flags len (i + UInt32.ofNat j) insn = .ok () := by
  induction insns generalizing i j with
  | nil => simp at hj
  | cons head rest ih =>
    obtain ⟨u, hhead, hrest⟩ := except_bind_eq_ok.mp h
    cases j with
    | zero =>
      obtain rfl : head = insn := by simpa using hj
      simpa using hhead
    | succ j =>
      have hj' := ih hrest (j := j) (by simpa using hj)
      have hadd : i + 1 + UInt32.ofNat j = i + UInt32.ofNat (j + 1) := by
        rw [UInt32.ofNat_add, UInt32.add_assoc, UInt32.add_comm 1]
        rfl
      rwa [hadd] at hj'

theorem validated_of_doValidate {insns : List BpfInsn} (h : doValidate insns flags = .ok ()) :
    Validated flags insns := by
  simp only [doValidate] at h
  by_cases hlen : insns.length > u32Max
  · simp [hlen] at h
  rw [if_neg hlen] at h
  obtain ⟨u, hloop, hret⟩ := except_bind_eq_ok.mp h
  have hsize : insns.length < 2 ^ 32 := by
    have hmax : u32Max = 2 ^ 32 - 1 := rfl
    omega
  refine ⟨Nat.not_lt.mp hlen, fun i insn hi => ?_, ?_⟩
  · have hlt : i < insns.length := (List.getElem?_eq_some_iff.mp hi).1
    have hlen' : (UInt32.ofNat insns.length).toNat = insns.length :=
      UInt32.toNat_ofNat_of_lt hsize
    have hi' : (UInt32.ofNat i).toNat = i := UInt32.toNat_ofNat_of_lt (Nat.lt_trans hlt hsize)
    have hinsn := validateInsn_of_validateLoop hloop hi
    rw [UInt32.zero_add] at hinsn
    have hacc := accepted_of_validateInsn
      (by rw [UInt32.lt_iff_toNat_lt, hlen', hi']; exact hlt) hinsn
    rwa [Accepted, hlen', hi'] at hacc
  · cases hlast : insns.getLast? with
    | none => simp [hlast] at hret
    | some insn =>
      refine ⟨insn, rfl, ?_⟩
      by_contra hne
      simp [hlast, hne] at hret

theorem validated_of_validateWithFlags {insns : List BpfInsn} {prog : BpfProgram}
    (h : validateWithFlags insns flags = .ok prog) : Validated flags prog.insns := by
  obtain ⟨u, hv, hprog⟩ := except_bind_eq_ok.mp h
  obtain rfl : ⟨insns⟩ = prog := Except.ok.inj hprog
  exact validated_of_doValidate hv

end ZprUtils.Bpf
