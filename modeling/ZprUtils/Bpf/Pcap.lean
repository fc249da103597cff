import ZprUtils.Bpf.Acceptance

/-!
# Programs converted from pcap

A program compiled by libpcap is converted without validation. libpcap writes scratch memory stores
as the bare class codes `ST` and `STX`; the interpreter and the validator of `cbpf-rs` only know
the codes with the `MEM` addressing mode. A store of a converted program therefore has no arm: the
interpreter reaches `unreachable_unchecked` at it and the validator rejects it.

## Main definitions

* `Bpf.fromPcap` — the conversion.
* `Bpf.PcapProgram` — what libpcap guarantees of a compiled program.

## Main results

* `Bpf.filterStep_bareStore` — executing a store is undefined behaviour.
* `Bpf.fromPcap_safe_iff` — a converted program runs safely and validates when it has no store.
-/

namespace ZprUtils.Bpf

/-- A program from a series of instructions, without validation. -/
def newUnvalidated (insns : List BpfInsn) : BpfProgram := ⟨insns⟩

/-- The conversion of a compiled pcap program, whose instructions have the same layout. -/
def fromPcap (insns : List BpfInsn) : BpfProgram := newUnvalidated insns

/-- A scratch memory store as libpcap writes it: the class code without an addressing mode. -/
def BareStore (insn : BpfInsn) : Prop :=
  insn.code = ST ∨ insn.code = STX

instance (insn : BpfInsn) : Decidable (BareStore insn) :=
  inferInstanceAs (Decidable (_ ∨ _))

/-- What libpcap guarantees of a compiled program: the program length is a 32-bit count, stores are
bare and have a scratch index in range, every other instruction is an arm of the interpreter with
operands that fit (a `JA` may jump backward), and the last instruction returns. -/
structure PcapProgram (insns : List BpfInsn) : Prop where
  length_le : insns.length ≤ u32Max
  store_or_arm : ∀ i insn, insns[i]? = some insn →
    (BareStore insn ∧ insn.k.toNat < MEMWORDS) ∨
    ∃ arm : Arm, arm ≠ .st ∧ arm ≠ .stx ∧ insn.code = arm.code ∧
      arm.OperandsOk VALIDATE_ALLOW_BACKWARD_JUMPS insns.length i insn
  ret_last : ∃ insn, insns.getLast? = some insn ∧ codeClass insn.code = RET

/-- No arm has a bare class code of a store as its pattern: the arms are written with a mode, which
a compiled store does not have. -/
theorem BareStore.matchArm_eq_none {insn : BpfInsn} (h : BareStore insn) :
    matchArm insn.code = none := by
  rcases h with h | h <;> rw [h] <;> rfl

/-- An iteration at a bare store reaches `unreachable_unchecked`. -/
theorem filterStep_bareStore {insns : List BpfInsn} {insn : BpfInsn} {m : Machine}
    (hlen : insns.length ≤ u32Max) (hget : insns[m.pc.toNat]? = some insn) (h : BareStore insn)
    (packet : List UInt8) : filterStep insns packet m = .error .unreachable := by
  have hmax : u32Max = 2 ^ 32 - 1 := rfl
  have hlt : m.pc.toNat < insns.length := (List.getElem?_eq_some_iff.mp hget).1
  have hone : m.pc.toNat + (1 : UInt32).toNat < 2 ^ 32 := by rw [UInt32.toNat_one]; omega
  simp only [filterStep, hget, uncheckedAdd, if_pos hone, except_ok_bind, h.matchArm_eq_none]

/-- A compiled program without stores is what the interpreter relies on. Everything that the
compiler emits apart from its stores has the shape that the validation asks for. -/
theorem PcapProgram.validated {insns : List BpfInsn} (h : PcapProgram insns)
    (hstore : ∀ insn ∈ insns, ¬BareStore insn) :
    Validated VALIDATE_ALLOW_BACKWARD_JUMPS insns := by
  refine ⟨h.length_le, fun i insn hi => ?_, h.ret_last⟩
  rcases h.store_or_arm i insn hi with ⟨hbare, -⟩ | ⟨arm, -, -, harm, hok⟩
  · exact absurd hbare (hstore insn (List.mem_of_getElem? hi))
  · exact ⟨arm, harm, hok⟩

/-- **Programs converted from pcap.** A compiled program runs on every packet without reaching
`unreachable_unchecked` or breaking another precondition, and is accepted by the validator with the
flag for backward jumps, exactly when it contains no scratch memory store. A run that comes to a
store reaches `unreachable_unchecked`. -/
theorem fromPcap_safe_iff (insns : List BpfInsn) (h : PcapProgram insns) :
    (((∀ packet n fault, filterSteps (fromPcap insns).insns packet n ≠ .error fault) ∧
        ∃ prog, validateWithFlags insns VALIDATE_ALLOW_BACKWARD_JUMPS = .ok prog) ↔
      ∀ insn ∈ insns, ¬BareStore insn) ∧
    ∀ packet n m insn, filterSteps (fromPcap insns).insns packet n = .ok (.next m) →
      insns[m.pc.toNat]? = some insn → BareStore insn →
      filterSteps (fromPcap insns).insns packet (n + 1) = .error .unreachable := by
  refine ⟨⟨?_, fun hstore => ⟨?_, ⟨insns⟩, ?_⟩⟩, ?_⟩
  · rintro ⟨-, prog, hprog⟩ insn hmem hbare
    obtain ⟨u, hv, -⟩ := except_bind_eq_ok.mp hprog
    obtain ⟨i, hi⟩ := List.getElem?_of_mem hmem
    obtain ⟨arm, harm, -⟩ := (validated_of_doValidate hv).exists_arm i insn hi
    exact absurd (hbare.matchArm_eq_none.symm.trans (matchArm_eq_some_iff.mpr harm)) nofun
  · intro packet n fault hfault
    obtain ⟨flow, hflow, -⟩ := (h.validated hstore).filterSteps_spec packet n
    exact absurd (hflow.symm.trans hfault) nofun
  · rw [validateWithFlags, (doValidate_eq_ok_iff h.length_le).mpr (h.validated hstore)]
    rfl
  · intro packet n m insn hrun hget hbare
    rw [filterSteps, hrun, except_ok_bind]
    exact filterStep_bareStore h.length_le hget hbare packet

/-- A filter on the ether type: without a store it runs safely and validates. -/
theorem fromPcap_safe_iff_etherType :
    let insns : List BpfInsn := [.stmt (LD ||| H ||| ABS) 12, .jump (JMP ||| JEQ ||| K) 0x800 0 1,
      .stmt (RET ||| K) 0xffff, .stmt (RET ||| K) 0]
    PcapProgram insns ∧
      (∀ packet n fault, filterSteps (fromPcap insns).insns packet n ≠ .error fault) ∧
      ∃ prog, validateWithFlags insns VALIDATE_ALLOW_BACKWARD_JUMPS = .ok prog := by
  intro insns
  have hpcap : PcapProgram insns := by
    refine ⟨by decide, fun i insn hi => Or.inr ?_, _, rfl, by decide⟩
    match i, hi with
    | 0, hi => obtain rfl := Option.some.inj hi; exact ⟨.ldAbs .h, nofun, nofun, rfl, trivial⟩
    | 1, hi =>
      obtain rfl := Option.some.inj hi
      exact ⟨.jcond .jeq .k, nofun, nofun, rfl, by decide⟩
    | 2, hi => obtain rfl := Option.some.inj hi; exact ⟨.retK, nofun, nofun, rfl, trivial⟩
    | 3, hi => obtain rfl := Option.some.inj hi; exact ⟨.retK, nofun, nofun, rfl, trivial⟩
  exact ⟨hpcap, (fromPcap_safe_iff insns hpcap).1.mpr (by decide)⟩

/-- The converted program `ldb [0]; st M[0]; ret a` reaches `unreachable_unchecked` on a packet of
one byte and is rejected by the validator. -/
theorem fromPcap_store_unreachable :
    ¬∀ insns : List BpfInsn, PcapProgram insns →
      (∀ packet n fault, filterSteps (fromPcap insns).insns packet n ≠ .error fault) ∧
        ∃ prog, validateWithFlags insns VALIDATE_ALLOW_BACKWARD_JUMPS = .ok prog := by
  intro h
  have hpcap : PcapProgram [.stmt (LD ||| B ||| ABS) 0, .stmt ST 0, .stmt (RET ||| A) 0] := by
    refine ⟨by decide, fun i insn hi => ?_, _, rfl, by decide⟩
    match i, hi with
    | 0, hi =>
      obtain rfl := Option.some.inj hi
      exact Or.inr ⟨.ldAbs .b, nofun, nofun, rfl, trivial⟩
    | 1, hi => obtain rfl := Option.some.inj hi; exact Or.inl ⟨Or.inl rfl, by decide⟩
    | 2, hi => obtain rfl := Option.some.inj hi; exact Or.inr ⟨.retA, nofun, nofun, rfl, trivial⟩
  exact (h _ hpcap).1 [1] 2 .unreachable (by decide +kernel)

end ZprUtils.Bpf
