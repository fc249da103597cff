import ZprUtils.Bpf.Safety

/-!
# Filters on truncated packets

Two runs of one program, on a packet and on a truncation of it, stay in lockstep until the run on
the truncated packet is rejected. The packet is read by loads, which see the same bytes in both
runs or leave the shorter run with the value `0`, and by the `LEN` loads, which the program must
not contain. The two runs are compared iteration by iteration: an iteration on the shorter packet
that does not reject does the same on the longer one.

## Main definitions

* `Bpf.NoLen` — the program contains no `LEN` load.

## Main results

* `Bpf.filterStep_of_isPrefix` — one iteration, `Bpf.filterSteps_of_isPrefix` a run.
* `Bpf.filter_truncation` — a value other than `0` is the value on every longer packet.
-/

namespace ZprUtils.Bpf

/-- The program contains no `LEN` load. -/
def NoLen (insns : List BpfInsn) : Prop :=
  ∀ insn ∈ insns, insn.code ≠ LD ||| W ||| LEN ∧ insn.code ≠ LDX ||| W ||| LEN

instance (insns : List BpfInsn) : Decidable (NoLen insns) :=
  inferInstanceAs (Decidable (∀ insn ∈ insns, _))

section Prefix

variable {p q : List UInt8} (hpq : p <+: q) {insns : List BpfInsn} {insn : BpfInsn} {m : Machine}
  {flow : Flow}
include hpq

/-! ### Packet loads -/

/-- A byte of the truncated packet is the same byte of the longer one. -/
theorem packetGetUnchecked_of_isPrefix {addr : Nat} {b : UInt32}
    (h : packetGetUnchecked p addr = .ok b) : packetGetUnchecked q addr = .ok b := by
  obtain ⟨rest, rfl⟩ := hpq
  by_cases haddr : addr < p.length
  · rw [packetGetUnchecked, List.getElem?_append_left haddr]
    exact h
  · rw [packetGetUnchecked, List.getElem?_eq_none (Nat.not_lt.mp haddr)] at h
    simp at h

theorem loadHalfword_of_isPrefix {addr : Nat} {b : UInt32} (h : loadHalfword p addr = .ok b) :
    loadHalfword q addr = .ok b := by
  obtain ⟨b₀, h₀, h⟩ := except_bind_eq_ok.mp h
  obtain ⟨b₁, h₁, h⟩ := except_bind_eq_ok.mp h
  simp only [loadHalfword, packetGetUnchecked_of_isPrefix hpq h₀,
    packetGetUnchecked_of_isPrefix hpq h₁, except_ok_bind]
  exact h

theorem loadWord_of_isPrefix {addr : Nat} {b : UInt32} (h : loadWord p addr = .ok b) :
    loadWord q addr = .ok b := by
  obtain ⟨b₀, h₀, h⟩ := except_bind_eq_ok.mp h
  obtain ⟨b₁, h₁, h⟩ := except_bind_eq_ok.mp h
  obtain ⟨b₂, h₂, h⟩ := except_bind_eq_ok.mp h
  obtain ⟨b₃, h₃, h⟩ := except_bind_eq_ok.mp h
  simp only [loadWord, packetGetUnchecked_of_isPrefix hpq h₀, packetGetUnchecked_of_isPrefix hpq h₁,
    packetGetUnchecked_of_isPrefix hpq h₂, packetGetUnchecked_of_isPrefix hpq h₃, except_ok_bind]
  exact h

theorem ldPacket_of_isPrefix {k : Nat} {size : Size} (h : ldPacket p m k size = .ok flow)
    (hflow : flow ≠ .brk 0) : ldPacket q m k size = .ok flow := by
  have hle := hpq.length_le
  cases size with
  | w =>
    simp only [ldPacket] at h ⊢
    split_ifs at h with hk
    · exact absurd (Except.ok.inj h).symm hflow
    obtain ⟨b, hb, h⟩ := except_bind_eq_ok.mp h
    rw [if_neg (by omega), loadWord_of_isPrefix hpq hb, except_ok_bind]
    exact h
  | h =>
    simp only [ldPacket] at h ⊢
    split_ifs at h with hk
    · exact absurd (Except.ok.inj h).symm hflow
    obtain ⟨b, hb, h⟩ := except_bind_eq_ok.mp h
    rw [if_neg (by omega), loadHalfword_of_isPrefix hpq hb, except_ok_bind]
    exact h
  | b =>
    simp only [ldPacket] at h ⊢
    split_ifs at h with hk
    · exact absurd (Except.ok.inj h).symm hflow
    obtain ⟨b, hb, h⟩ := except_bind_eq_ok.mp h
    rw [if_neg (by omega), loadByte, packetGetUnchecked_of_isPrefix hpq hb, except_ok_bind]
    exact h

/-! ### One iteration -/

/-- An arm other than the `LEN` loads that does not reject on the truncated packet does the same on
the longer one. -/
theorem Arm.exec_of_isPrefix {arm : Arm} (hld : arm ≠ .ldLen) (hldx : arm ≠ .ldxLen)
    (h : arm.exec p insn m = .ok flow) (hflow : flow ≠ .brk 0) : arm.exec q insn m = .ok flow := by
  cases arm with
  | ldAbs size | ldInd size => exact ldPacket_of_isPrefix hpq h hflow
  | ldxMsh =>
    have hle := hpq.length_le
    simp only [Arm.exec] at h ⊢
    split_ifs at h with hk
    · exact absurd (Except.ok.inj h).symm hflow
    obtain ⟨b, hb, h⟩ := except_bind_eq_ok.mp h
    rw [if_neg (by omega), loadByte, packetGetUnchecked_of_isPrefix hpq hb, except_ok_bind]
    exact h
  | ldLen => exact absurd rfl hld
  | ldxLen => exact absurd rfl hldx
  | _ => exact h

/-- **One iteration in lockstep.** An iteration on a prefix of the packet that does not end with
zero is the one on the whole packet: the bytes that it loads are in the prefix. -/
theorem filterStep_of_isPrefix (hlen : NoLen insns) (h : filterStep insns p m = .ok flow)
    (hflow : flow ≠ .brk 0) : filterStep insns q m = .ok flow := by
  simp only [filterStep] at h ⊢
  cases hget : insns[m.pc.toNat]? with
  | none => simp [hget] at h
  | some insn =>
    simp only [hget] at h ⊢
    obtain ⟨hld, hldx⟩ := hlen insn (List.mem_of_getElem? hget)
    obtain ⟨pc, hpc, h⟩ := except_bind_eq_ok.mp h
    rw [hpc, except_ok_bind]
    cases harm : matchArm insn.code with
    | none => simp [harm] at h
    | some arm =>
      simp only [harm] at h ⊢
      have hcode := matchArm_eq_some_iff.mp harm
      refine Arm.exec_of_isPrefix hpq ?_ ?_ h hflow
      · rintro rfl
        exact hld hcode
      · rintro rfl
        exact hldx hcode

/-! ### Runs -/

/-- The run on the truncated packet and the run on the longer one are in the same state until the
former is left with the value `0`. -/
theorem filterSteps_of_isPrefix (hlen : NoLen insns) {n : Nat}
    (h : filterSteps insns p n = .ok flow)
    (hflow : flow ≠ .brk 0) : filterSteps insns q n = .ok flow := by
  induction n generalizing flow with
  | zero => exact h
  | succ n ih =>
    obtain ⟨flow₀, h₀, h⟩ := except_bind_eq_ok.mp h
    cases flow₀ with
    | brk v =>
      obtain rfl : Flow.brk v = flow := Except.ok.inj h
      rw [filterSteps, ih h₀ hflow, except_ok_bind]
    | next m =>
      rw [filterSteps, ih h₀ (by simp), except_ok_bind]
      exact filterStep_of_isPrefix hpq hlen h hflow

end Prefix

/-- **Truncation safety.** If a validated program without `LEN` loads ends with a value other than
`0` on a truncated packet, it ends with the same value, after as many iterations, on every packet
of which that one is a truncation. -/
theorem filter_truncation {flags : Nat} {code : List BpfInsn} {prog : BpfProgram}
    (_hvalid : validateWithFlags code flags = .ok prog) (hlen : NoLen prog.insns)
    {p q : List UInt8} (hpq : p <+: q) {n : Nat} {v : UInt32} (hv : v ≠ 0)
    (h : filterSteps prog.insns p n = .ok (.brk v)) :
    filterSteps prog.insns q n = .ok (.brk v) := by
  refine filterSteps_of_isPrefix hpq hlen h fun hbrk => hv ?_
  exact Flow.brk.inj hbrk

/-- A filter on the half word at offset `1` and the word at offset `3`; the packet of seven bytes
is just long enough for it. -/
theorem filter_truncation_ldAbs :
    let code : List BpfInsn := [.stmt (LD ||| H ||| ABS) 1, .stmt (ST ||| MEM) 0,
      .stmt (LD ||| W ||| ABS) 3, .jump (JMP ||| JGT ||| K) 9 0 1, .stmt (LD ||| MEM) 0,
      .stmt (RET ||| A) 0]
    validateWithFlags code 0 = .ok ⟨code⟩ ∧
      filterSteps code [0, 1, 2, 0, 0, 0, 10] 6 = .ok (.brk 0x0102) ∧
      ∀ rest, filterSteps code ([0, 1, 2, 0, 0, 0, 10] ++ rest) 6 = .ok (.brk 0x0102) := by
  intro code
  have hvalid : validateWithFlags code 0 = .ok ⟨code⟩ := by decide +kernel
  have hrun : filterSteps code [0, 1, 2, 0, 0, 0, 10] 6 = .ok (.brk 0x0102) := by decide +kernel
  refine ⟨hvalid, hrun, fun rest => ?_⟩
  exact filter_truncation hvalid (by decide) (List.prefix_append _ _) (by decide) hrun

end ZprUtils.Bpf
