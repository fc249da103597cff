import ZprUtils.Bpf.Instruction

/-!
# The interpreter of classic BPF programs

`BpfProgram::filter_slice` runs a program on a packet with an accumulator, an index register, a
program counter and `MEMWORDS` scratch words. It fetches instructions, indexes the packet and the
scratch memory and adds to the program counter without checks. In this model every such
operation checks its precondition and reports a `Fault` when it does not hold, so a run without a
fault is a run in which every unchecked operation of the source is in its domain.

## Main definitions

* `Bpf.Machine` — the local variables of `filter_slice`.
* `Bpf.filterStep` — one iteration of its loop, `Bpf.filterSteps` the first iterations.
-/

namespace ZprUtils.Bpf

/-- The preconditions of the interpreter's unchecked operations. -/
inductive Fault where
  /-- `insns.get_unchecked` outside of the program. -/
  | fetch
  /-- `pc.unchecked_add` that overflows. -/
  | uncheckedAdd
  /-- `unreachable_unchecked` is reached. -/
  | unreachable
  /-- `mem.get_unchecked` outside of the scratch memory. -/
  | memory
  /-- `packet.get_unchecked` outside of the packet. -/
  | packet
  /-- Division or remainder by zero. -/
  | divideByZero
  /-- Shift of a 32-bit word by 32 or more. -/
  | shift
  deriving DecidableEq, Repr

/-! ### Operations with preconditions -/

/-- `unchecked_add`, whose result must fit in 32 bits. -/
def uncheckedAdd (a b : UInt32) : Except Fault UInt32 :=
  if a.toNat + b.toNat < 2 ^ 32 then .ok (a + b) else .error .uncheckedAdd

/-- `packet.get_unchecked(addr)`, widened to a word. -/
def packetGetUnchecked (packet : List UInt8) (addr : Nat) : Except Fault UInt32 :=
  match packet[addr]? with
  | some b => .ok b.toUInt32
  | none => .error .packet

/-- `mem.get_unchecked(i)`. -/
def memGetUnchecked (mem : Vector UInt32 MEMWORDS) (i : Nat) : Except Fault UInt32 :=
  match mem[i]? with
  | some v => .ok v
  | none => .error .memory

/-- The assignment to `mem.get_unchecked_mut(i)`. -/
def memSetUnchecked (mem : Vector UInt32 MEMWORDS) (i : Nat) (v : UInt32) :
    Except Fault (Vector UInt32 MEMWORDS) :=
  if i < MEMWORDS then .ok (mem.setIfInBounds i v) else .error .memory

/-- `a / b`, which panics for a zero divisor. -/
def divU32 (a b : UInt32) : Except Fault UInt32 :=
  if b = 0 then .error .divideByZero else .ok (a / b)

/-- `a % b`, which panics for a zero divisor. -/
def remU32 (a b : UInt32) : Except Fault UInt32 :=
  if b = 0 then .error .divideByZero else .ok (a % b)

/-- `a << b`, which must be by less than 32 bits. -/
def shlU32 (a b : UInt32) : Except Fault UInt32 :=
  if b < 32 then .ok (a <<< b) else .error .shift

/-- `a >> b`, which must be by less than 32 bits. -/
def shrU32 (a b : UInt32) : Except Fault UInt32 :=
  if b < 32 then .ok (a >>> b) else .error .shift

/-! ### Packet loads -/

/-- The byte at `addr`. -/
def loadByte (packet : List UInt8) (addr : Nat) : Except Fault UInt32 :=
  packetGetUnchecked packet addr

/-- The two bytes from `addr` on, in network byte order. -/
def loadHalfword (packet : List UInt8) (addr : Nat) : Except Fault UInt32 := do
  let b₀ ← packetGetUnchecked packet addr
  let b₁ ← packetGetUnchecked packet (addr + 1)
  return b₀ <<< 8 ||| b₁

/-- The four bytes from `addr` on, in network byte order. -/
def loadWord (packet : List UInt8) (addr : Nat) : Except Fault UInt32 := do
  let b₀ ← packetGetUnchecked packet addr
  let b₁ ← packetGetUnchecked packet (addr + 1)
  let b₂ ← packetGetUnchecked packet (addr + 2)
  let b₃ ← packetGetUnchecked packet (addr + 3)
  return b₀ <<< 24 ||| b₁ <<< 16 ||| b₂ <<< 8 ||| b₃

/-! ### One iteration of the loop -/

/-- The local variables of `filter_slice`. -/
structure Machine where
  a : UInt32
  x : UInt32
  pc : UInt32
  mem : Vector UInt32 MEMWORDS
  deriving DecidableEq, Repr

/-- The variables at the entry of the loop. -/
def Machine.init : Machine := ⟨0, 0, 0, Vector.replicate MEMWORDS 0⟩

/-- What one iteration does: it leaves the loop with a value or goes on. -/
inductive Flow where
  | brk (value : UInt32)
  | next (m : Machine)
  deriving DecidableEq, Repr

/-- The packet load of an accumulator load at the address `k`: the value `0` is returned when the
accessed bytes do not lie in the packet. -/
def ldPacket (packet : List UInt8) (m : Machine) (k : Nat) : Size → Except Fault Flow
  | .w =>
    if k > packet.length ∨ packet.length - k < 4 then .ok (.brk 0)
    else return .next { m with a := ← loadWord packet k }
  | .h =>
    if k > packet.length ∨ packet.length - k < 2 then .ok (.brk 0)
    else return .next { m with a := ← loadHalfword packet k }
  | .b =>
    if k ≥ packet.length then .ok (.brk 0)
    else return .next { m with a := ← loadByte packet k }

/-- The program counter after a conditional jump, by `jt` or by `jf`. It has been advanced past the
jump before. -/
def doJmp (pc : UInt32) (taken : Bool) (insn : BpfInsn) : Except Fault UInt32 :=
  uncheckedAdd pc (if taken then insn.jt else insn.jf).toUInt32

/-- The comparison of a conditional jump. -/
def Cond.eval (a b : UInt32) : Cond → Bool
  | .jgt => a > b
  | .jge => a ≥ b
  | .jeq => a == b
  | .jset => a &&& b != 0

/-- The operand of an arithmetic instruction or a conditional jump. -/
def Src.eval (m : Machine) (insn : BpfInsn) : Src → UInt32
  | .k => insn.k
  | .x => m.x

/-- A binary arithmetic operation of the accumulator with the operand `b`. -/
def AluOp.exec (m : Machine) (b : UInt32) : AluOp → Except Fault Flow
  | .add => .ok (.next { m with a := m.a + b })
  | .sub => .ok (.next { m with a := m.a - b })
  | .mul => .ok (.next { m with a := m.a * b })
  | .div => if b = 0 then .ok (.brk 0) else return .next { m with a := ← divU32 m.a b }
  | .mod => if b = 0 then .ok (.brk 0) else return .next { m with a := ← remU32 m.a b }
  | .and => .ok (.next { m with a := m.a &&& b })
  | .or => .ok (.next { m with a := m.a ||| b })
  | .xor => .ok (.next { m with a := m.a ^^^ b })
  | .lsh =>
    if b < 32 then return .next { m with a := ← shlU32 m.a b } else .ok (.next { m with a := 0 })
  | .rsh =>
    if b < 32 then return .next { m with a := ← shrU32 m.a b } else .ok (.next { m with a := 0 })

/-- The body of an arm; `m.pc` has already been advanced past the instruction. -/
def Arm.exec (packet : List UInt8) (insn : BpfInsn) (m : Machine) : Arm → Except Fault Flow
  | .retK => .ok (.brk insn.k)
  | .retA => .ok (.brk m.a)
  | .ldAbs size => ldPacket packet m insn.k.toNat size
  | .ldLen => .ok (.next { m with a := UInt32.ofNat packet.length })
  | .ldxLen => .ok (.next { m with x := UInt32.ofNat packet.length })
  | .ldInd size => ldPacket packet m (m.x + insn.k).toNat size
  | .ldxMsh =>
    if insn.k.toNat ≥ packet.length then .ok (.brk 0)
    else return .next { m with x := ((← loadByte packet insn.k.toNat) &&& 0xf) <<< 2 }
  | .ldImm => .ok (.next { m with a := insn.k })
  | .ldxImm => .ok (.next { m with x := insn.k })
  | .ldMem => return .next { m with a := ← memGetUnchecked m.mem insn.k.toNat }
  | .ldxMem => return .next { m with x := ← memGetUnchecked m.mem insn.k.toNat }
  | .st => return .next { m with mem := ← memSetUnchecked m.mem insn.k.toNat m.a }
  | .stx => return .next { m with mem := ← memSetUnchecked m.mem insn.k.toNat m.x }
  | .ja =>
    -- deliberate wrapping for backward jumps
    .ok (.next { m with pc := m.pc + insn.k })
  | .jcond cond src =>
    return .next { m with pc := ← doJmp m.pc (cond.eval m.a (src.eval m insn)) insn }
  | .alu op src => op.exec m (src.eval m insn)
  | .neg => .ok (.next { m with a := -m.a })
  | .tax => .ok (.next { m with x := m.a })
  | .txa => .ok (.next { m with a := m.x })

/-- One iteration of the loop of `filter_slice`. -/
def filterStep (insns : List BpfInsn) (packet : List UInt8) (m : Machine) : Except Fault Flow :=
  match insns[m.pc.toNat]? with
  | none => .error .fetch
  | some insn => do
    let pc ← uncheckedAdd m.pc 1
    match matchArm insn.code with
    | some arm => arm.exec packet insn { m with pc }
    | none => .error .unreachable

/-- The state of the loop of `filter_slice` after `n` iterations; a loop that was left stays at
its value. -/
def filterSteps (insns : List BpfInsn) (packet : List UInt8) : Nat → Except Fault Flow
  | 0 => .ok (.next .init)
  | n + 1 => do
    match ← filterSteps insns packet n with
    | .brk v => .ok (.brk v)
    | .next m => filterStep insns packet m

/-- The accumulator load of a half word, on a program that returns it. -/
example : filterSteps [.stmt (LD ||| H ||| ABS) 1, .stmt (RET ||| A) 0] [1, 2, 3] 2 =
    .ok (.brk 0x0203) := by decide +kernel

end ZprUtils.Bpf
