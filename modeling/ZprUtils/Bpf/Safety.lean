import ZprUtils.Bpf.Validate

/-!
# Safety of validated BPF programs

One iteration of the interpreter on a validated program raises no fault, keeps the program
counter in the program and moves it forward unless the instruction is a backward `JA`
(`Bpf.Validated.filterStep_spec`). By induction on the number of iterations a run of any length
raises no fault.

## Main definitions

* `Bpf.BackwardJa` — the next instruction is a `JA` to itself or to an earlier instruction.

## Main results

* `Bpf.Validated.filterStep_spec` — one iteration.
* `Bpf.filterSteps_safe` — every run.
-/

namespace ZprUtils.Bpf

variable {flags : Nat} {insns : List BpfInsn} {packet : List UInt8} {insn : BpfInsn} {m : Machine}

/-! ### Operations in their domain -/

/-- The computation raises no fault and, if the loop goes on, leaves the program counter of `m`
as it is. -/
def KeepsPc (m : Machine) (r : Except Fault Flow) : Prop :=
  ∃ flow, r = .ok flow ∧ ∀ m', flow = .next m' → m'.pc = m.pc

theorem keepsPc_brk (m : Machine) (v : UInt32) : KeepsPc m (.ok (.brk v)) :=
  ⟨.brk v, rfl, by simp⟩

theorem keepsPc_next {m n : Machine} (h : n.pc = m.pc) : KeepsPc m (.ok (.next n)) :=
  ⟨.next n, rfl, by rintro m' ⟨rfl⟩; exact h⟩

theorem exists_packetGetUnchecked (packet : List UInt8) (addr : Nat) (h : addr < packet.length) :
    ∃ b, packetGetUnchecked packet addr = .ok b := by
  simp [packetGetUnchecked, h]

theorem keepsPc_ldPacket (k : Nat) (size : Size) : KeepsPc m (ldPacket packet m k size) := by
  have hget := exists_packetGetUnchecked packet
  cases size with
  | w =>
    by_cases h : k > packet.length ∨ packet.length - k < 4
    · simpa only [ldPacket, if_pos h] using keepsPc_brk m 0
    · obtain ⟨b₀, h₀⟩ := hget k (by omega)
      obtain ⟨b₁, h₁⟩ := hget (k + 1) (by omega)
      obtain ⟨b₂, h₂⟩ := hget (k + 2) (by omega)
      obtain ⟨b₃, h₃⟩ := hget (k + 3) (by omega)
      simp only [ldPacket, if_neg h, loadWord, h₀, h₁, h₂, h₃, except_ok_bind, except_pure]
      exact keepsPc_next rfl
  | h =>
    by_cases h : k > packet.length ∨ packet.length - k < 2
    · simpa only [ldPacket, if_pos h] using keepsPc_brk m 0
    · obtain ⟨b₀, h₀⟩ := hget k (by omega)
      obtain ⟨b₁, h₁⟩ := hget (k + 1) (by omega)
      simp only [ldPacket, if_neg h, loadHalfword, h₀, h₁, except_ok_bind, except_pure]
      exact keepsPc_next rfl
  | b =>
    by_cases h : k ≥ packet.length
    · simpa only [ldPacket, if_pos h] using keepsPc_brk m 0
    · obtain ⟨b₀, h₀⟩ := hget k (by omega)
      simp only [ldPacket, if_neg h, loadByte, h₀, except_ok_bind, except_pure]
      exact keepsPc_next rfl

theorem keepsPc_aluExec (b : UInt32) (op : AluOp) : KeepsPc m (op.exec m b) := by
  cases op with
  | div | mod =>
    by_cases h : b = 0
    · simpa only [AluOp.exec, if_pos h] using keepsPc_brk m 0
    · simp only [AluOp.exec, if_neg h, divU32, remU32, except_ok_bind, except_pure]
      exact keepsPc_next rfl
  | lsh | rsh =>
    by_cases h : b < 32
    · simp only [AluOp.exec, if_pos h, shlU32, shrU32, except_ok_bind, except_pure]
      exact keepsPc_next rfl
    · simp only [AluOp.exec, if_neg h]
      exact keepsPc_next rfl
  | _ => exact keepsPc_next rfl

theorem exists_memGetUnchecked {i : Nat} (h : i < MEMWORDS) :
    ∃ v, memGetUnchecked m.mem i = .ok v := by
  simp [memGetUnchecked, h]

theorem exists_doJmp {pc : UInt32} {len : Nat} (hlen : len ≤ u32Max) (taken : Bool)
    (ht : pc.toNat + insn.jt.toNat < len) (hf : pc.toNat + insn.jf.toNat < len) :
    ∃ pc', doJmp pc taken insn = .ok pc' ∧ pc.toNat ≤ pc'.toNat ∧ pc'.toNat < len := by
  have hmax : u32Max = 2 ^ 32 - 1 := rfl
  have hadd : ∀ d : UInt8, pc.toNat + d.toNat < len → ∃ pc', uncheckedAdd pc d.toUInt32 = .ok pc' ∧
      pc.toNat ≤ pc'.toNat ∧ pc'.toNat < len := by
    intro d hd
    have hsum : pc.toNat + d.toUInt32.toNat < 2 ^ 32 := by rw [UInt8.toNat_toUInt32]; omega
    refine ⟨_, if_pos hsum, ?_⟩
    rw [UInt32.toNat_add, Nat.mod_eq_of_lt hsum, UInt8.toNat_toUInt32]
    omega
  cases taken with
  | true => exact hadd insn.jt ht
  | false => exact hadd insn.jf hf

/-! ### One iteration -/

/-- The instruction at the program counter is a `JA` whose wrapped target is the `JA` itself or an
earlier instruction. -/
def BackwardJa (insns : List BpfInsn) (m : Machine) : Prop :=
  ∃ insn, insns[m.pc.toNat]? = some insn ∧ insn.code = JMP ||| JA ∧
    (m.pc + 1 + insn.k).toNat ≤ m.pc.toNat

/-- What the execution of an arm does to the program counter, which is past the instruction already:
it stays there, a `JA` adds its operand, a conditional jump goes forward inside the program, or the
arm returns. The loop uses nothing else of the arms. -/
theorem Arm.exec_spec (packet : List UInt8) {arm : Arm} {len i : Nat} (hlen : len ≤ u32Max)
    (hpc : m.pc.toNat = i + 1)
    (hok : arm.OperandsOk flags len i insn) :
    ∃ flow, arm.exec packet insn m = .ok flow ∧ ∀ m', flow = .next m' →
      (arm ≠ .retK ∧ arm ≠ .retA ∧ m'.pc = m.pc) ∨ (arm = .ja ∧ m'.pc = m.pc + insn.k) ∨
      (i + 1 ≤ m'.pc.toNat ∧ m'.pc.toNat < len) := by
  have hkeeps : KeepsPc m (arm.exec packet insn m) → arm ≠ .retK → arm ≠ .retA →
      ∃ flow, arm.exec packet insn m = .ok flow ∧ ∀ m', flow = .next m' →
        (arm ≠ .retK ∧ arm ≠ .retA ∧ m'.pc = m.pc) ∨ (arm = .ja ∧ m'.pc = m.pc + insn.k) ∨
        (i + 1 ≤ m'.pc.toNat ∧ m'.pc.toNat < len) := by
    rintro ⟨flow, hflow, hnext⟩ hK hA
    exact ⟨flow, hflow, fun m' hm' => Or.inl ⟨hK, hA, hnext m' hm'⟩⟩
  cases arm with
  | retK | retA => exact ⟨_, rfl, by simp⟩
  | ldAbs size => exact hkeeps (keepsPc_ldPacket _ size) (by simp) (by simp)
  | ldInd size => exact hkeeps (keepsPc_ldPacket _ size) (by simp) (by simp)
  | ldxMsh =>
    refine hkeeps ?_ (by simp) (by simp)
    by_cases h : insn.k.toNat ≥ packet.length
    · simpa only [Arm.exec, if_pos h] using keepsPc_brk m 0
    · obtain ⟨b, hb⟩ := exists_packetGetUnchecked packet _ (Nat.not_le.mp h)
      simp only [Arm.exec, if_neg h, loadByte, hb, except_ok_bind, except_pure]
      exact keepsPc_next rfl
  | ldMem | ldxMem =>
    refine hkeeps ?_ (by simp) (by simp)
    obtain ⟨v, hv⟩ := exists_memGetUnchecked (m := m) hok
    simp only [Arm.exec, hv, except_ok_bind, except_pure]
    exact keepsPc_next rfl
  | st | stx =>
    refine hkeeps ?_ (by simp) (by simp)
    have hk : insn.k.toNat < MEMWORDS := hok
    simp only [Arm.exec, memSetUnchecked, if_pos hk, except_ok_bind, except_pure]
    exact keepsPc_next rfl
  | ja =>
    refine ⟨_, rfl, ?_⟩
    rintro m' ⟨rfl⟩
    exact Or.inr (Or.inl ⟨rfl, rfl⟩)
  | jcond cond src =>
    obtain ⟨ht, hf⟩ := hok
    obtain ⟨pc', hpc', hle, hlt⟩ := exists_doJmp hlen (cond.eval m.a (src.eval m insn))
      (by rw [hpc]; exact ht) (by rw [hpc]; exact hf)
    refine ⟨.next { m with pc := pc' }, by simp only [Arm.exec, hpc', except_ok_bind, except_pure],
      ?_⟩
    rintro m' ⟨rfl⟩
    exact Or.inr (Or.inr ⟨hpc ▸ hle, hlt⟩)
  | alu op src => exact hkeeps (keepsPc_aluExec _ op) (by simp) (by simp)
  | ldLen | ldxLen | ldImm | ldxImm | neg | tax | txa =>
    exact hkeeps (keepsPc_next rfl) (by simp) (by simp)

/-- Only the two return arms have an opcode of class `RET`. -/
theorem Arm.eq_ret_of_codeClass {arm : Arm} (h : codeClass arm.code = RET) :
    arm = .retK ∨ arm = .retA := by
  cases arm with
  | retK => exact Or.inl rfl
  | retA => exact Or.inr rfl
  | ldAbs size | ldInd size => cases size <;> exact absurd h (by decide)
  | jcond cond src => cases cond <;> cases src <;> exact absurd h (by decide)
  | alu op src => cases op <;> cases src <;> exact absurd h (by decide)
  | _ => exact absurd h (by decide)

namespace Validated

/-- An instruction that does not return has a successor in the program, since the last instruction
of a validated program has the class of a return. -/
theorem succ_lt_length (hv : Validated flags insns) {i : Nat} {arm : Arm}
    (hi : insns[i]? = some insn) (harm : insn.code = arm.code) (hK : arm ≠ .retK)
    (hA : arm ≠ .retA) : i + 1 < insns.length := by
  obtain ⟨hlt, -⟩ := List.getElem?_eq_some_iff.mp hi
  by_contra hge
  obtain ⟨last, hlast, hclass⟩ := hv.ret_last
  have hidx : insns.length - 1 = i := by omega
  rw [List.getLast?_eq_getElem?, hidx, hi] at hlast
  obtain rfl : insn = last := Option.some.inj hlast
  rw [harm] at hclass
  rcases Arm.eq_ret_of_codeClass hclass with h | h
  · exact hK h
  · exact hA h

/-- **One iteration on a validated program.** The iteration raises no fault; if the loop goes on,
the program counter stays in the program and moves forward unless the instruction was a backward
`JA`, which the flags must allow. -/
theorem filterStep_spec (hv : Validated flags insns) (packet : List UInt8)
    (hpc : m.pc.toNat < insns.length) :
    ∃ flow, filterStep insns packet m = .ok flow ∧ ∀ m', flow = .next m' →
      m'.pc.toNat < insns.length ∧ (m.pc.toNat < m'.pc.toNat ∨
        (BackwardJa insns m ∧ flags &&& VALIDATE_ALLOW_BACKWARD_JUMPS ≠ 0)) := by
  have hmax : u32Max = 2 ^ 32 - 1 := rfl
  have hlen := hv.length_le
  have hget : insns[m.pc.toNat]? = some (insns[m.pc.toNat]) := List.getElem?_eq_getElem hpc
  set insn := insns[m.pc.toNat]
  obtain ⟨arm, harm, hok⟩ := hv.exists_arm _ _ hget
  have hone : m.pc.toNat + (1 : UInt32).toNat < 2 ^ 32 := by rw [UInt32.toNat_one]; omega
  have hpc1 : (m.pc + 1).toNat = m.pc.toNat + 1 := by
    rw [UInt32.toNat_add, Nat.mod_eq_of_lt hone, UInt32.toNat_one]
  obtain ⟨flow, hflow, hnext⟩ := Arm.exec_spec packet (m := { m with pc := m.pc + 1 }) hlen hpc1 hok
  refine ⟨flow, ?_, fun m' hm' => ?_⟩
  · simp only [filterStep, hget, uncheckedAdd, if_pos hone, except_ok_bind,
      matchArm_eq_some_iff.mpr harm, hflow]
  · rcases hnext m' hm' with ⟨hK, hA, hkeep⟩ | ⟨rfl, hja⟩ | ⟨hle, hlt⟩
    · have hsucc := hv.succ_lt_length hget harm hK hA
      rw [hkeep, hpc1]
      exact ⟨hsucc, Or.inl (Nat.lt_succ_self _)⟩
    · -- the target of a `JA` wraps only under the flag
      have htarget : m'.pc.toNat = (m.pc.toNat + 1 + insn.k.toNat) % 2 ^ 32 := by
        rw [hja, UInt32.toNat_add, hpc1]
      simp only [Arm.OperandsOk] at hok
      split_ifs at hok with hflag
      · refine ⟨htarget ▸ hok, ?_⟩
        by_cases hback : m'.pc.toNat ≤ m.pc.toNat
        · exact Or.inr ⟨⟨insn, hget, harm, hja ▸ hback⟩, hflag⟩
        · exact Or.inl (Nat.not_le.mp hback)
      · rw [Nat.mod_eq_of_lt (by omega)] at htarget
        omega
    · exact ⟨hlt, Or.inl hle⟩

end Validated

/-! ### Runs -/

/-- A run of any length on a validated program raises no fault and keeps the program counter in
the program. -/
theorem Validated.filterSteps_spec (hv : Validated flags insns) (packet : List UInt8) (n : Nat) :
    ∃ flow, filterSteps insns packet n = .ok flow ∧
      ∀ m, flow = .next m → m.pc.toNat < insns.length := by
  induction n with
  | zero =>
    refine ⟨_, rfl, ?_⟩
    rintro m ⟨rfl⟩
    obtain ⟨last, hlast, -⟩ := hv.ret_last
    exact List.length_pos_of_mem (List.mem_of_getLast? hlast)
  | succ n ih =>
    obtain ⟨flow, hflow, hpc⟩ := ih
    cases flow with
    | brk v => exact ⟨.brk v, by simp only [filterSteps, hflow, except_ok_bind], by simp⟩
    | next m =>
      obtain ⟨flow', hflow', hnext⟩ := hv.filterStep_spec packet (hpc m rfl)
      refine ⟨flow', by simp only [filterSteps, hflow, except_ok_bind, hflow'], ?_⟩
      exact fun m' hm' => (hnext m' hm').1

/-- **Validated programs run safely.** For a program that the validator accepts with any flags and
for every packet, no iteration of `filter_slice` raises a fault: every fetch is in the program,
neither addition to the program counter overflows, every opcode has an arm, every scratch and
packet access is in range, no division is by zero and every shift is by less than 32. -/
theorem filterSteps_safe {code : List BpfInsn} {prog : BpfProgram}
    (h : validateWithFlags code flags = .ok prog) (packet : List UInt8) (n : Nat) :
    (∀ fault, filterSteps prog.insns packet n ≠ .error fault) ∧
      ∀ m, filterSteps prog.insns packet n = .ok (.next m) →
        m.pc.toNat < prog.insns.length ∧
          ∃ insn arm, prog.insns[m.pc.toNat]? = some insn ∧ matchArm insn.code = some arm := by
  have hv := validated_of_validateWithFlags h
  obtain ⟨flow, hflow, hpc⟩ := hv.filterSteps_spec packet n
  refine ⟨fun fault hf => by simp [hflow] at hf, fun m hm => ?_⟩
  have hlt := hpc m (Except.ok.inj (hflow.symm.trans hm))
  have hget : prog.insns[m.pc.toNat]? = some (prog.insns[m.pc.toNat]) :=
    List.getElem?_eq_getElem hlt
  obtain ⟨arm, harm, -⟩ := hv.exists_arm _ _ hget
  exact ⟨hlt, _, arm, hget, matchArm_eq_some_iff.mpr harm⟩

/-- A program with a division and an indirect load, on a packet that is too short for it. -/
theorem filterSteps_safe_ldInd :
    let code : List BpfInsn := [.stmt (LDX ||| IMM) 3, .stmt (ALU ||| DIV ||| X) 0,
      .stmt (LD ||| W ||| IND) 1, .stmt (RET ||| A) 0]
    validateWithFlags code 0 = .ok ⟨code⟩ ∧
      (∀ fault, filterSteps code [1, 2] 3 ≠ .error fault) ∧
      filterSteps code [1, 2] 3 = .ok (.brk 0) := by
  intro code
  exact ⟨rfl, (@filterSteps_safe 0 code ⟨code⟩ rfl [1, 2] 3).1, by decide +kernel⟩

end ZprUtils.Bpf
