import Mathlib.Algebra.Ring.Int.Defs
import Mathlib.Algebra.Ring.Nat
import Mathlib.Tactic.Common

/-!
# Classic BPF instructions

The instruction word of `cbpf-rs` and the fields of its opcode. The validator reads an opcode
through its fields (class, size, mode, operation, source); the interpreter compares the whole
opcode with literal patterns. An opcode without bits above the low byte is the union of its
fields (`Bpf.code_eq_of_memFields`, `Bpf.code_eq_of_aluFields`), which is how a fact
about the fields becomes a fact about the pattern.

## Main definitions

* `Bpf.BpfInsn` — a single instruction.
* `Bpf.Arm` — the explicit arms of the interpreter, `Bpf.Arm.code` their opcode patterns and
  `Bpf.matchArm` the selection of an arm.
-/

namespace ZprUtils.Bpf

/-- A single BPF instruction. -/
structure BpfInsn where
  code : UInt16
  jt : UInt8
  jf : UInt8
  k : UInt32
  deriving DecidableEq, Repr

namespace BpfInsn

/-- A simple BPF statement. -/
def stmt (code : UInt16) (k : UInt32) : BpfInsn := ⟨code, 0, 0, k⟩

/-- A BPF jump statement. -/
def jump (code : UInt16) (k : UInt32) (jt jf : UInt8) : BpfInsn := ⟨code, jt, jf, k⟩

end BpfInsn

/-! ### Opcode fields -/

/-- The class of an opcode. -/
def codeClass (code : UInt16) : UInt16 := code &&& 0x07

/-- The class of loads into the accumulator. -/
def LD : UInt16 := 0x00
/-- The class of loads into the index register. -/
def LDX : UInt16 := 0x01
/-- The class of stores of the accumulator. -/
def ST : UInt16 := 0x02
/-- The class of stores of the index register. -/
def STX : UInt16 := 0x03
/-- The class of arithmetic on the accumulator. -/
def ALU : UInt16 := 0x04
/-- The class of jumps. -/
def JMP : UInt16 := 0x05
/-- The class of returns. -/
def RET : UInt16 := 0x06
/-- The class of the register transfers. -/
def MISC : UInt16 := 0x07

/-- The size field of a load or a store. -/
def codeSize (code : UInt16) : UInt16 := code &&& 0x18

/-- A word of 32 bits. -/
def W : UInt16 := 0x00
/-- A half word of 16 bits. -/
def H : UInt16 := 0x08
/-- A byte. -/
def B : UInt16 := 0x10

/-- The size field is one of the three sizes. -/
def validCodeSize (codeSize : UInt16) : Bool := codeSize != 0x18

/-- The addressing mode of a load or a store. -/
def codeMode (code : UInt16) : UInt16 := code &&& 0xe0

/-- The immediate operand. -/
def IMM : UInt16 := 0x00
/-- The packet at a fixed place. -/
def ABS : UInt16 := 0x20
/-- The packet at a place relative to the index register. -/
def IND : UInt16 := 0x40
/-- The scratch memory. -/
def MEM : UInt16 := 0x60
/-- The length of the packet. -/
def LEN : UInt16 := 0x80
/-- Four times the low nibble of a packet byte, the length of an IP header. -/
def MSH : UInt16 := 0xa0

/-- The operation of an arithmetic instruction or a jump. -/
def codeOp (code : UInt16) : UInt16 := code &&& 0xf0

/-- Addition. -/
def ADD : UInt16 := 0x00
/-- Subtraction. -/
def SUB : UInt16 := 0x10
/-- Multiplication. -/
def MUL : UInt16 := 0x20
/-- Division. -/
def DIV : UInt16 := 0x30
/-- Bitwise or. -/
def OR : UInt16 := 0x40
/-- Bitwise and. -/
def AND : UInt16 := 0x50
/-- Shift to the left. -/
def LSH : UInt16 := 0x60
/-- Shift to the right. -/
def RSH : UInt16 := 0x70
/-- Negation. -/
def NEG : UInt16 := 0x80
/-- Remainder. -/
def MOD : UInt16 := 0x90
/-- Bitwise exclusive or. -/
def XOR : UInt16 := 0xa0

/-- The unconditional jump. -/
def JA : UInt16 := 0x00
/-- Jump if equal. -/
def JEQ : UInt16 := 0x10
/-- Jump if greater. -/
def JGT : UInt16 := 0x20
/-- Jump if greater or equal. -/
def JGE : UInt16 := 0x30
/-- Jump if a common bit is set. -/
def JSET : UInt16 := 0x40

/-- Where the second operand comes from. -/
def codeSrc (code : UInt16) : UInt16 := code &&& 0x08

/-- The immediate operand `k`. -/
def K : UInt16 := 0x00
/-- The index register. -/
def X : UInt16 := 0x08

/-- Where a returned value comes from. -/
def codeRval (code : UInt16) : UInt16 := code &&& 0x18

/-- The accumulator. -/
def A : UInt16 := 0x10

/-- The operation of a register transfer. -/
def codeMiscop (code : UInt16) : UInt16 := code &&& 0xf8

/-- From the accumulator to the index register. -/
def TAX : UInt16 := 0x00
/-- From the index register to the accumulator. -/
def TXA : UInt16 := 0x80

/-- The number of words addressable through the `MEM` addressing mode. -/
def MEMWORDS : Nat := 16

/-! ### An opcode is the union of its fields -/

private theorem and_or_distrib_left (c m n : UInt16) : c &&& (m ||| n) = c &&& m ||| c &&& n :=
  UInt16.toBitVec_inj.1 BitVec.and_or_distrib_left

/-- An opcode without bits above the low byte is its own low byte. -/
private theorem and_lowByte {code : UInt16} (h : code &&& 0xff00 = 0) : code &&& 0xff = code := by
  calc code &&& 0xff = code &&& 0xff ||| code &&& 0xff00 := by rw [h, UInt16.or_zero]
    _ = code &&& (0xff ||| 0xff00) := (and_or_distrib_left ..).symm
    _ = code := UInt16.and_neg_one

/-- The low byte of an opcode is its class, size and mode. -/
theorem code_eq_of_memFields {code : UInt16} (h : code &&& 0xff00 = 0) :
    code = codeClass code ||| codeSize code ||| codeMode code := by
  rw [codeClass, codeSize, codeMode, ← and_or_distrib_left, ← and_or_distrib_left]
  exact (and_lowByte h).symm

/-- The low byte of an opcode is its class, operation and source. -/
theorem code_eq_of_aluFields {code : UInt16} (h : code &&& 0xff00 = 0) :
    code = codeClass code ||| codeOp code ||| codeSrc code := by
  rw [codeClass, codeOp, codeSrc, ← and_or_distrib_left, ← and_or_distrib_left]
  exact (and_lowByte h).symm

/-- The low byte of an opcode is its class and its miscellaneous operation. -/
theorem code_eq_of_miscFields {code : UInt16} (h : code &&& 0xff00 = 0) :
    code = codeClass code ||| codeMiscop code := by
  rw [codeClass, codeMiscop, ← and_or_distrib_left]
  exact (and_lowByte h).symm

/-- Masking an opcode with a single bit leaves nothing or that bit. -/
private theorem and_bit (code : UInt16) (n : Fin 16) :
    code &&& ⟨BitVec.twoPow 16 n⟩ = 0 ∨ code &&& ⟨BitVec.twoPow 16 n⟩ = ⟨BitVec.twoPow 16 n⟩ := by
  simp only [← UInt16.toBitVec_inj, UInt16.toBitVec_and, BitVec.and_twoPow]
  split_ifs
  · exact Or.inr rfl
  · exact Or.inl rfl

/-- The source bit is clear or set. -/
theorem codeSrc_eq_K_or_X (code : UInt16) : codeSrc code = K ∨ codeSrc code = X :=
  and_bit code 3

/-- The size field is one of the three sizes or the invalid one. The field has two bits, so the
fourth value is an opcode that no arm has. -/
theorem codeSize_cases (code : UInt16) :
    codeSize code = W ∨ codeSize code = H ∨ codeSize code = B ∨ codeSize code = 0x18 := by
  have hsplit : codeSize code = code &&& 0x08 ||| code &&& 0x10 :=
    and_or_distrib_left code 0x08 0x10
  rw [hsplit]
  have hlow : code &&& 0x08 = 0 ∨ code &&& 0x08 = 0x08 := and_bit code 3
  have hhigh : code &&& 0x10 = 0 ∨ code &&& 0x10 = 0x10 := and_bit code 4
  rcases hlow with h | h <;> rcases hhigh with h' | h' <;> rw [h, h'] <;> decide

/-! ### The arms of the interpreter -/

/-- The operand of an instruction: the immediate `k` or the register `x`. -/
inductive Src where
  | k
  | x
  deriving DecidableEq, Repr

/-- The access sizes of a packet load. -/
inductive Size where
  | w
  | h
  | b
  deriving DecidableEq, Repr

/-- The conditions of the conditional jumps. -/
inductive Cond where
  | jgt
  | jge
  | jeq
  | jset
  deriving DecidableEq, Repr

/-- The binary arithmetic operations. -/
inductive AluOp where
  | add
  | sub
  | mul
  | div
  | mod
  | and
  | or
  | xor
  | lsh
  | rsh
  deriving DecidableEq, Repr

/-- The source field of an operand. -/
def Src.code : Src → UInt16
  | .k => K
  | .x => X

/-- The size field of a size. -/
def Size.code : Size → UInt16
  | .w => W
  | .h => H
  | .b => B

/-- The operation field of a condition. -/
def Cond.code : Cond → UInt16
  | .jgt => JGT
  | .jge => JGE
  | .jeq => JEQ
  | .jset => JSET

/-- The operation field of an arithmetic operation. -/
def AluOp.code : AluOp → UInt16
  | .add => ADD
  | .sub => SUB
  | .mul => MUL
  | .div => DIV
  | .mod => MOD
  | .and => AND
  | .or => OR
  | .xor => XOR
  | .lsh => LSH
  | .rsh => RSH

/-- The explicit arms of the interpreter's `match` on the opcode. -/
inductive Arm where
  | retK
  | retA
  | ldAbs (size : Size)
  | ldLen
  | ldxLen
  | ldInd (size : Size)
  | ldxMsh
  | ldImm
  | ldxImm
  | ldMem
  | ldxMem
  | st
  | stx
  | ja
  | jcond (cond : Cond) (src : Src)
  | alu (op : AluOp) (src : Src)
  | neg
  | tax
  | txa
  deriving DecidableEq, Repr

/-- The opcode pattern of an arm. -/
def Arm.code : Arm → UInt16
  | .retK => RET ||| K
  | .retA => RET ||| A
  | .ldAbs size => LD ||| size.code ||| ABS
  | .ldLen => LD ||| W ||| LEN
  | .ldxLen => LDX ||| W ||| LEN
  | .ldInd size => LD ||| size.code ||| IND
  | .ldxMsh => LDX ||| B ||| MSH
  | .ldImm => LD ||| IMM
  | .ldxImm => LDX ||| IMM
  | .ldMem => LD ||| MEM
  | .ldxMem => LDX ||| MEM
  | .st => ST ||| MEM
  | .stx => STX ||| MEM
  | .ja => JMP ||| JA
  | .jcond cond src => JMP ||| cond.code ||| src.code
  | .alu op src => ALU ||| op.code ||| src.code
  | .neg => ALU ||| NEG
  | .tax => MISC ||| TAX
  | .txa => MISC ||| TXA

/-- The arms in the order in which the interpreter tries them. -/
def arms : List Arm :=
  [.retK, .retA, .ldAbs .w, .ldAbs .h, .ldAbs .b, .ldLen, .ldxLen, .ldInd .w, .ldInd .h,
    .ldInd .b, .ldxMsh, .ldImm, .ldxImm, .ldMem, .ldxMem, .st, .stx, .ja,
    .jcond .jgt .k, .jcond .jge .k, .jcond .jeq .k, .jcond .jset .k,
    .jcond .jgt .x, .jcond .jge .x, .jcond .jeq .x, .jcond .jset .x,
    .alu .add .x, .alu .sub .x, .alu .mul .x, .alu .div .x, .alu .mod .x, .alu .and .x,
    .alu .or .x, .alu .xor .x, .alu .lsh .x, .alu .rsh .x,
    .alu .add .k, .alu .sub .k, .alu .mul .k, .alu .div .k, .alu .mod .k, .alu .and .k,
    .alu .or .k, .alu .xor .k, .alu .lsh .k, .alu .rsh .k, .neg, .tax, .txa]

/-- The arm selected by an opcode: the first one whose pattern is the opcode. -/
def matchArm (code : UInt16) : Option Arm :=
  arms.find? fun arm => arm.code == code

/-- No two patterns coincide, so the order of the arms does not matter: the opcode that an arm is
written with leads back to that arm. -/
theorem matchArm_code (arm : Arm) : matchArm arm.code = some arm := by
  cases arm with
  | ldAbs size => cases size <;> rfl
  | ldInd size => cases size <;> rfl
  | jcond cond src => cases cond <;> cases src <;> rfl
  | alu op src => cases op <;> cases src <;> rfl
  | _ => rfl

theorem matchArm_eq_some_iff {code : UInt16} {arm : Arm} :
    matchArm code = some arm ↔ code = arm.code := by
  constructor
  · intro h
    have hbeq : (arm.code == code) = true :=
      List.find?_some (p := fun arm : Arm => arm.code == code) h
    exact (beq_iff_eq.mp hbeq).symm
  · rintro rfl
    exact matchArm_code arm

end ZprUtils.Bpf
