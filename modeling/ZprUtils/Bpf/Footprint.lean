import ZprUtils.Foundations.ByteStrings
import ZprUtils.Bpf.Termination
import ZprUtils.Bpf.Truncation

/-!
# What a filter reads of a packet

An instruction sees the packet only through the big-endian number at one place of it, or through its
length. The bytes that a run reads are its footprint. Another packet of the same length with the
same bytes there has the same run, whatever its other bytes are. A program whose loads are at fixed
places reads nothing behind the last of them.

## Main definitions

* `Bpf.packetWord` — what a load finds; `Bpf.Arm.access` — the place where an arm loads.
* `Bpf.footprint` — the bytes that the first iterations read.
* `Bpf.snapLen` — where the last load of a program ends.

## Main results

* `Bpf.ldPacket_eq` — the loads are those of big-endian numbers.
* `Bpf.footprint_determines` — the footprint determines the run.
* `Bpf.filter_snapLen` — a program with fixed loads reads the first `snapLen` bytes.
-/

namespace ZprUtils.Bpf

/-! ### Loads -/

/-- The number of bytes of a load. -/
def Size.bytes : Size → Nat
  | .w => 4
  | .h => 2
  | .b => 1

/-- What a load at `k` finds: the number in network byte order, if it lies in the packet. -/
def packetWord (packet : List UInt8) (k : Nat) (size : Size) : Option UInt32 :=
  if k + size.bytes ≤ packet.length then
    some (.ofNat (leValue ((packet.drop k).take size.bytes).reverse))
  else none

variable {packet p q : List UInt8} {k : Nat} {size : Size} {m : Machine} {insns : List BpfInsn}
  {insn : BpfInsn}

theorem ofNat_leValue_one (b : UInt8) : UInt32.ofNat (leValue [b]) = b.toUInt32 := by
  apply UInt32.toNat_inj.mp
  have hb := b.toNat_lt
  rw [UInt32.toNat_ofNat', Nat.mod_eq_of_lt (by simp only [leValue]; omega), UInt8.toNat_toUInt32]
  simp only [leValue]
  omega

/-- Shifting a number to the left and filling the low byte. -/
theorem ofNat_leValue_cons (b : UInt8) (l : List UInt8) :
    UInt32.ofNat (leValue (b :: l)) = UInt32.ofNat (leValue l) <<< 8 ||| b.toUInt32 := by
  apply UInt32.toNat_inj.mp
  have hb := b.toNat_lt
  have hor := Nat.shiftLeft_add_eq_or_of_lt (i := 8) (b := b.toNat) (by omega)
    (leValue l % 2 ^ 24)
  rw [UInt32.toNat_ofNat', UInt32.toNat_or, UInt32.toNat_shiftLeft, UInt32.toNat_ofNat',
    UInt8.toNat_toUInt32]
  have hshift : (leValue l % 2 ^ 32) <<< ((8 : UInt32).toNat % 32) % 2 ^ 32 =
      (leValue l % 2 ^ 24) <<< 8 := by
    change (leValue l % 2 ^ 32) <<< 8 % 2 ^ 32 = _
    simp only [Nat.shiftLeft_eq]
    omega
  rw [hshift, ← hor, Nat.shiftLeft_eq]
  simp only [leValue]
  omega

theorem ofNat_leValue_two (b₀ b₁ : UInt8) :
    UInt32.ofNat (leValue [b₁, b₀]) = b₀.toUInt32 <<< 8 ||| b₁.toUInt32 := by
  rw [ofNat_leValue_cons, ofNat_leValue_one]

theorem ofNat_leValue_four (b₀ b₁ b₂ b₃ : UInt8) : UInt32.ofNat (leValue [b₃, b₂, b₁, b₀]) =
    b₀.toUInt32 <<< 24 ||| b₁.toUInt32 <<< 16 ||| b₂.toUInt32 <<< 8 ||| b₃.toUInt32 := by
  have htwice : ∀ x : UInt32, (x <<< 8) <<< 8 = x <<< 16 := fun x =>
    (UInt32.shiftLeft_add (by decide) (by decide) (by decide)).symm
  have hthrice : ∀ x : UInt32, (x <<< 16) <<< 8 = x <<< 24 := fun x =>
    (UInt32.shiftLeft_add (by decide) (by decide) (by decide)).symm
  rw [ofNat_leValue_cons, ofNat_leValue_cons, ofNat_leValue_two]
  simp only [UInt32.shiftLeft_or, htwice, hthrice]

theorem loadByte_eq (hk : k + 1 ≤ packet.length) :
    loadByte packet k = .ok (.ofNat (leValue ((packet.drop k).take 1).reverse)) := by
  have hget : packet[k]? = some packet[k] := List.getElem?_eq_getElem hk
  rw [List.drop_eq_getElem_cons hk]
  simp only [loadByte, packetGetUnchecked, hget]
  exact congrArg Except.ok (ofNat_leValue_one _).symm

theorem loadHalfword_eq (hk : k + 2 ≤ packet.length) :
    loadHalfword packet k = .ok (.ofNat (leValue ((packet.drop k).take 2).reverse)) := by
  have h₀ : packet[k]? = some packet[k] := List.getElem?_eq_getElem (by omega)
  have h₁ : packet[k + 1]? = some packet[k + 1] := List.getElem?_eq_getElem (by omega)
  rw [List.drop_eq_getElem_cons (by omega), List.drop_eq_getElem_cons (by omega)]
  simp only [loadHalfword, packetGetUnchecked, h₀, h₁, except_ok_bind]
  exact congrArg Except.ok (ofNat_leValue_two _ _).symm

theorem loadWord_eq (hk : k + 4 ≤ packet.length) :
    loadWord packet k = .ok (.ofNat (leValue ((packet.drop k).take 4).reverse)) := by
  have h₀ : packet[k]? = some packet[k] := List.getElem?_eq_getElem (by omega)
  have h₁ : packet[k + 1]? = some packet[k + 1] := List.getElem?_eq_getElem (by omega)
  have h₂ : packet[k + 2]? = some packet[k + 2] := List.getElem?_eq_getElem (by omega)
  have h₃ : packet[k + 3]? = some packet[k + 3] := List.getElem?_eq_getElem (by omega)
  rw [List.drop_eq_getElem_cons (by omega), List.drop_eq_getElem_cons (by omega),
    List.drop_eq_getElem_cons (by omega), List.drop_eq_getElem_cons (by omega)]
  simp only [loadWord, packetGetUnchecked, h₀, h₁, h₂, h₃, except_ok_bind]
  exact congrArg Except.ok (ofNat_leValue_four _ _ _ _).symm

/-- What an accumulator load does with what it finds. -/
def loadFlow (m : Machine) : Option UInt32 → Flow
  | some v => .next { m with a := v }
  | none => .brk 0

/-- **The accumulator loads are those of big-endian numbers.** The interpreter puts a number
together from single bytes, with shifts, and checks the bounds by a subtraction. That is the number
in network byte order at the place, if it lies in the packet; otherwise the run ends with zero. -/
theorem ldPacket_eq (packet : List UInt8) (m : Machine) (k : Nat) (size : Size) :
    ldPacket packet m k size = .ok (loadFlow m (packetWord packet k size)) := by
  by_cases hk : k + size.bytes ≤ packet.length
  · rw [packetWord, if_pos hk]
    cases size with
    | w =>
      simp only [Size.bytes] at hk
      simp only [ldPacket, if_neg (show ¬ (k > packet.length ∨ packet.length - k < 4) by omega),
        loadWord_eq hk, except_ok_bind, except_pure]
      rfl
    | h =>
      simp only [Size.bytes] at hk
      simp only [ldPacket, if_neg (show ¬ (k > packet.length ∨ packet.length - k < 2) by omega),
        loadHalfword_eq hk, except_ok_bind, except_pure]
      rfl
    | b =>
      simp only [Size.bytes] at hk
      simp only [ldPacket, if_neg (show ¬ k ≥ packet.length by omega), loadByte_eq hk,
        except_ok_bind, except_pure]
      rfl
  · rw [packetWord, if_neg hk]
    cases size with
    | w => exact if_pos (by simp only [Size.bytes] at hk; omega)
    | h => exact if_pos (by simp only [Size.bytes] at hk; omega)
    | b => exact if_pos (by simp only [Size.bytes] at hk; omega)

/-- What the load of a header length does with the byte that it finds. -/
def mshFlow (m : Machine) : Option UInt32 → Flow
  | some v => .next { m with x := (v &&& 0xf) <<< 2 }
  | none => .brk 0

theorem ldxMsh_eq (packet : List UInt8) (insn : BpfInsn) (m : Machine) :
    Arm.exec packet insn m .ldxMsh = .ok (mshFlow m (packetWord packet insn.k.toNat .b)) := by
  by_cases hk : insn.k.toNat + 1 ≤ packet.length
  · rw [packetWord, Size.bytes, if_pos hk]
    simp only [Arm.exec, if_neg (show ¬ insn.k.toNat ≥ packet.length by omega), loadByte_eq hk,
      except_ok_bind, except_pure]
    rfl
  · rw [packetWord, Size.bytes, if_neg hk]
    exact if_pos (by omega)

/-! ### What an arm sees of the packet -/

/-- Where an arm loads from the packet. -/
def Arm.access (insn : BpfInsn) (m : Machine) : Arm → Option (Nat × Size)
  | .ldAbs size => some (insn.k.toNat, size)
  | .ldInd size => some ((m.x + insn.k).toNat, size)
  | .ldxMsh => some (insn.k.toNat, .b)
  | _ => none

/-- **An arm sees what its load finds, or the length.** Two packets on which the load of the arm
finds the same, and which have the same length if the arm loads the length, are the same to it. -/
theorem Arm.exec_congr {arm : Arm}
    (haccess : ∀ k size, arm.access insn m = some (k, size) →
      packetWord p k size = packetWord q k size)
    (hlen : arm = .ldLen ∨ arm = .ldxLen → p.length = q.length) :
    arm.exec p insn m = arm.exec q insn m := by
  cases arm with
  | ldAbs size | ldInd size =>
    simp only [Arm.exec, ldPacket_eq, haccess _ _ rfl]
  | ldxMsh => rw [ldxMsh_eq, ldxMsh_eq, haccess _ _ rfl]
  | ldLen => rw [Arm.exec, Arm.exec, hlen (Or.inl rfl)]
  | ldxLen => rw [Arm.exec, Arm.exec, hlen (Or.inr rfl)]
  | _ => rfl

/-- The arm of the instruction at the program counter, and the instruction. -/
def currentArm (insns : List BpfInsn) (m : Machine) : Option (BpfInsn × Arm) :=
  insns[m.pc.toNat]?.bind fun insn => (matchArm insn.code).map fun arm => (insn, arm)

theorem filterStep_congr
    (h : ∀ insn arm, currentArm insns m = some (insn, arm) →
      (∀ k size, arm.access insn m = some (k, size) → packetWord p k size = packetWord q k size) ∧
      (arm = .ldLen ∨ arm = .ldxLen → p.length = q.length)) :
    filterStep insns p m = filterStep insns q m := by
  rw [filterStep, filterStep]
  cases hget : insns[m.pc.toNat]? with
  | none => rfl
  | some insn =>
    cases harm : matchArm insn.code with
    | none => simp only [harm]
    | some arm =>
      obtain ⟨haccess, hlen⟩ := h insn arm (by simp [currentArm, hget, harm])
      simp only [harm]
      refine congrArg (uncheckedAdd m.pc 1 >>= ·) (funext fun pc => ?_)
      refine Arm.exec_congr (fun k size hk => haccess k size ?_) hlen
      cases arm <;> exact hk

/-! ### The footprint of a run -/

/-- The bytes that a load reads: none when they do not all lie in the packet. -/
def loadedBytes (packet : List UInt8) : Option (Nat × Size) → List Nat
  | some (k, size) => if k + size.bytes ≤ packet.length then List.range' k size.bytes else []
  | none => []

/-- The bytes that an iteration reads. -/
def stepFootprint (insns : List BpfInsn) (packet : List UInt8) (m : Machine) : List Nat :=
  loadedBytes packet ((currentArm insns m).bind fun e => e.2.access e.1 m)

/-- The bytes that the first `n` iterations read, in order. -/
def footprint (insns : List BpfInsn) (packet : List UInt8) : Nat → List Nat
  | 0 => []
  | n + 1 => footprint insns packet n ++
    match filterSteps insns packet n with
    | .ok (.next m) => stepFootprint insns packet m
    | _ => []

/-- A load finds the same in two packets that have the same bytes there, whatever its width: only
the bytes of the window are read, and the length only to check the bounds. -/
theorem packetWord_congr (hin : k + size.bytes ≤ p.length ↔ k + size.bytes ≤ q.length)
    (h : k + size.bytes ≤ p.length → ∀ i < size.bytes, p[k + i]? = q[k + i]?) :
    packetWord p k size = packetWord q k size := by
  rw [packetWord, packetWord]
  by_cases hk : k + size.bytes ≤ p.length
  · rw [if_pos hk, if_pos (hin.mp hk)]
    have heq : (p.drop k).take size.bytes = (q.drop k).take size.bytes := by
      ext1 i
      rw [List.getElem?_take, List.getElem?_take]
      split_ifs with hi
      · rw [List.getElem?_drop, List.getElem?_drop]
        exact h hk i hi
      · rfl
    rw [heq]
  · rw [if_neg hk, if_neg (mt hin.mpr hk)]

theorem loadedBytes_congr (hlen : p.length = q.length) (access : Option (Nat × Size)) :
    loadedBytes p access = loadedBytes q access := by
  cases access with
  | none => rfl
  | some e => rw [loadedBytes, loadedBytes, hlen]

theorem filterStep_of_footprint (hlen : p.length = q.length)
    (h : ∀ i ∈ stepFootprint insns p m, p[i]? = q[i]?) :
    filterStep insns p m = filterStep insns q m := by
  refine filterStep_congr fun insn arm harm => ⟨fun k size hk => ?_, fun _ => hlen⟩
  refine packetWord_congr (by rw [hlen]) fun hin i hi => h (k + i) ?_
  rw [stepFootprint, harm, Option.bind_some, hk, loadedBytes, if_pos hin]
  exact List.mem_range'_1.mpr ⟨Nat.le_add_right k i, Nat.add_lt_add_left hi k⟩

theorem length_loadedBytes_le (packet : List UInt8) (access : Option (Nat × Size)) :
    (loadedBytes packet access).length ≤ 4 := by
  match access with
  | none => exact Nat.zero_le 4
  | some (k, size) =>
    rw [loadedBytes]
    split_ifs
    · rw [List.length_range']
      cases size <;> simp [Size.bytes]
    · exact Nat.zero_le 4

theorem lt_length_of_mem_loadedBytes {access : Option (Nat × Size)} {i : Nat}
    (h : i ∈ loadedBytes packet access) : i < packet.length := by
  match access with
  | none => exact absurd h List.not_mem_nil
  | some (k, size) =>
    rw [loadedBytes] at h
    split_ifs at h with hk
    · exact (List.mem_range'_1.mp h).2.trans_le hk
    · exact absurd h List.not_mem_nil

theorem lt_length_of_mem_footprint {n i : Nat} (h : i ∈ footprint insns packet n) :
    i < packet.length := by
  induction n with
  | zero => exact absurd h List.not_mem_nil
  | succ n ih =>
    rcases List.mem_append.mp h with h | h
    · exact ih h
    · split at h
      · exact lt_length_of_mem_loadedBytes h
      · exact absurd h List.not_mem_nil

theorem length_footprint_le (insns : List BpfInsn) (packet : List UInt8) (n : Nat) :
    (footprint insns packet n).length ≤ 4 * n := by
  induction n with
  | zero => exact Nat.zero_le _
  | succ n ih =>
    rw [footprint, List.length_append]
    have hstep : (match filterSteps insns packet n with
        | .ok (.next m) => stepFootprint insns packet m
        | _ => []).length ≤ 4 := by
      split
      · exact length_loadedBytes_le _ _
      · exact Nat.zero_le 4
    omega

/-- **A run in lockstep** with that on a packet with the same footprint. By induction on the
iterations: the same state before an iteration means the same instruction and the same access, so
that the new bytes of the footprint are the same too. -/
theorem filterSteps_of_footprint (hlen : p.length = q.length) {n : Nat}
    (h : ∀ i ∈ footprint insns p n, p[i]? = q[i]?) :
    filterSteps insns p n = filterSteps insns q n ∧ footprint insns p n = footprint insns q n := by
  induction n with
  | zero => exact ⟨rfl, rfl⟩
  | succ n ih =>
    obtain ⟨hsteps, hfoot⟩ := ih fun i hi => h i (List.mem_append_left _ hi)
    rw [filterSteps, filterSteps, footprint, footprint, ← hsteps, ← hfoot]
    rw [footprint] at h
    cases hflow : filterSteps insns p n with
    | error e => exact ⟨rfl, rfl⟩
    | ok flow =>
      rw [hflow] at h
      cases flow with
      | brk v => exact ⟨rfl, rfl⟩
      | next m =>
        refine ⟨filterStep_of_footprint hlen fun i hi => h i (List.mem_append_right _ hi), ?_⟩
        exact congrArg _ (loadedBytes_congr hlen _)

/-- **The footprint determines the verdict.** A program that the validator accepts without backward
jumps ends with a value within as many iterations as it has instructions. The run reads at most four
bytes for each instruction, all of them in the packet, and it ends with the same value on every
packet of the same length that has the same bytes in these places. -/
theorem footprint_determines {flags : Nat} {code : List BpfInsn} {prog : BpfProgram}
    (hvalid : validateWithFlags code flags = .ok prog)
    (hflags : flags &&& VALIDATE_ALLOW_BACKWARD_JUMPS = 0) (p : List UInt8) :
    let n := prog.insns.length
    ∃ v, filterSteps prog.insns p n = .ok (.brk v) ∧
      (footprint prog.insns p n).length ≤ 4 * n ∧
      (∀ i ∈ footprint prog.insns p n, i < p.length) ∧
      ∀ q : List UInt8, q.length = p.length →
        (∀ i ∈ footprint prog.insns p n, q[i]? = p[i]?) →
        filterSteps prog.insns q n = .ok (.brk v) ∧
          footprint prog.insns q n = footprint prog.insns p n := by
  intro n
  have hv := validated_of_validateWithFlags hvalid
  have hleft : ∀ m, ¬ Executes prog.insns p n m := fun m hm =>
    absurd (hv.pc_lt_length hm) (Nat.not_lt.mpr (hv.le_pc hflags hm))
  obtain ⟨v, hend⟩ := hv.exists_brk hleft
  refine ⟨v, hend, length_footprint_le _ _ _, fun i hi => lt_length_of_mem_footprint hi,
    fun q hlen hq => ?_⟩
  obtain ⟨hsteps, hfoot⟩ := filterSteps_of_footprint hlen.symm fun i hi => (hq i hi).symm
  exact ⟨hsteps ▸ hend, hfoot.symm⟩

/-- A filter on the half word at offset `2` that returns the byte before it: the bytes `1`, `2` and
`3` decide. -/
theorem footprint_determines_ldAbs :
    let code : List BpfInsn := [.stmt (LD ||| B ||| ABS) 1, .stmt (ST ||| MEM) 0,
      .stmt (LD ||| H ||| ABS) 2, .jump (JMP ||| JEQ ||| K) 7 0 1, .stmt (LD ||| MEM) 0,
      .stmt (RET ||| A) 0]
    footprint code [9, 5, 0, 7, 9] 6 = [1, 2, 3] ∧
      ∀ x y, filterSteps code [x, 5, 0, 7, y] 6 = .ok (.brk 5) := by
  intro code
  have hvalid : validateWithFlags code 0 = .ok ⟨code⟩ := by decide +kernel
  have hfoot : footprint code [9, 5, 0, 7, 9] 6 = [1, 2, 3] := by decide +kernel
  have hrun : filterSteps code [9, 5, 0, 7, 9] 6 = .ok (.brk 5) := by decide +kernel
  refine ⟨hfoot, fun x y => ?_⟩
  obtain ⟨v, hend, -, -, hsame⟩ := footprint_determines hvalid (by decide) [9, 5, 0, 7, 9]
  obtain rfl : v = 5 := Flow.brk.inj (Except.ok.inj (hend.symm.trans hrun))
  refine (hsame [x, 5, 0, 7, y] rfl fun i hi => ?_).1
  have hmem : i ∈ [1, 2, 3] := hfoot ▸ hi
  simp only [List.mem_cons, List.not_mem_nil, or_false] at hmem
  rcases hmem with rfl | rfl | rfl <;> rfl

/-! ### Programs with loads at fixed places -/

/-- The program has no load at a place that it computes. -/
def NoInd (insns : List BpfInsn) : Prop :=
  ∀ insn ∈ insns, insn.code ≠ LD ||| W ||| IND ∧ insn.code ≠ LD ||| H ||| IND ∧
    insn.code ≠ LD ||| B ||| IND

instance (insns : List BpfInsn) : Decidable (NoInd insns) :=
  inferInstanceAs (Decidable (∀ insn ∈ insns, _))

theorem NoInd.ne_ldInd (hind : NoInd insns) (h : insn ∈ insns) (size : Size) :
    insn.code ≠ Arm.code (.ldInd size) := by
  obtain ⟨hw, hh, hb⟩ := hind insn h
  cases size with
  | w => exact hw
  | h => exact hh
  | b => exact hb

/-- Where the load of an instruction ends. -/
def BpfInsn.snapLen (insn : BpfInsn) : Nat :=
  match matchArm insn.code with
  | some (.ldAbs size) => insn.k.toNat + size.bytes
  | some .ldxMsh => insn.k.toNat + 1
  | _ => 0

/-- Where the last load of a program ends. -/
def snapLen (insns : List BpfInsn) : Nat := (insns.map BpfInsn.snapLen).foldr max 0

theorem le_snapLen (h : insn ∈ insns) : insn.snapLen ≤ snapLen insns := by
  induction insns with
  | nil => exact absurd h List.not_mem_nil
  | cons insn' insns ih =>
    rw [snapLen, List.map_cons, List.foldr_cons]
    rcases List.mem_cons.mp h with rfl | h
    · exact le_max_left _ _
    · exact (ih h).trans (le_max_right _ _)

/-- Two packets that begin in the same way are the same, or both go on. -/
theorem eq_or_le_length_of_take {n : Nat} (h : p.take n = q.take n) :
    p = q ∨ n ≤ p.length ∧ n ≤ q.length := by
  have hlen := congrArg List.length h
  rw [List.length_take, List.length_take] at hlen
  by_cases hp : n ≤ p.length
  · exact Or.inr ⟨hp, by omega⟩
  · left
    rwa [List.take_of_length_le (by omega), List.take_of_length_le (by omega)] at h

theorem packetWord_of_take {n : Nat} (h : p.take n = q.take n) (hk : k + size.bytes ≤ n) :
    packetWord p k size = packetWord q k size := by
  rcases eq_or_le_length_of_take h with rfl | ⟨hp, hq⟩
  · rfl
  · refine packetWord_congr (iff_of_true (hk.trans hp) (hk.trans hq)) fun _ i hi => ?_
    have hget := congrArg (·[k + i]?) h
    simpa only [List.getElem?_take_of_lt (show k + i < n by omega)] using hget

/-- **One iteration** of a program with loads at fixed places, on two packets with the same first
bytes. A load behind the end of the first bytes does not occur, and one across the end of a shorter
packet ends both runs. -/
theorem filterStep_of_take (hlen : NoLen insns) (hind : NoInd insns)
    (h : p.take (snapLen insns) = q.take (snapLen insns)) (m : Machine) :
    filterStep insns p m = filterStep insns q m := by
  refine filterStep_congr fun insn arm harm => ?_
  obtain ⟨insn, hget, hmatch⟩ := Option.bind_eq_some_iff.mp harm
  obtain ⟨arm, hcode, heq⟩ := Option.map_eq_some_iff.mp hmatch
  obtain ⟨rfl, rfl⟩ := Prod.mk.inj heq
  have hmem := List.mem_of_getElem? hget
  have hsnap := le_snapLen hmem
  rw [BpfInsn.snapLen, hcode] at hsnap
  have hcode' := matchArm_eq_some_iff.mp hcode
  refine ⟨fun k size hk => ?_, fun harm => ?_⟩
  · cases arm with
    | ldAbs size' =>
      obtain ⟨rfl, rfl⟩ := Prod.mk.inj (Option.some.inj hk)
      exact packetWord_of_take h hsnap
    | ldxMsh =>
      obtain ⟨rfl, rfl⟩ := Prod.mk.inj (Option.some.inj hk)
      exact packetWord_of_take h hsnap
    | ldInd size' => exact absurd hcode' (hind.ne_ldInd hmem size')
    | _ => exact absurd hk (by simp [Arm.access])
  · obtain ⟨hld, hldx⟩ := hlen insn hmem
    rcases harm with rfl | rfl
    · exact absurd hcode' hld
    · exact absurd hcode' hldx

/-- **A program with loads at fixed places reads the first `snapLen` bytes.** Whatever packets have
the same first bytes, or are the same shorter packet, have the same run: a capture that keeps this
many bytes of each packet is enough for the filter. -/
theorem filter_snapLen {insns : List BpfInsn} (hlen : NoLen insns) (hind : NoInd insns)
    {p q : List UInt8} (h : p.take (snapLen insns) = q.take (snapLen insns)) (n : Nat) :
    filterSteps insns p n = filterSteps insns q n := by
  induction n with
  | zero => rfl
  | succ n ih =>
    rw [filterSteps, filterSteps, ih]
    refine congrArg (filterSteps insns q n >>= ·) (funext fun flow => ?_)
    cases flow with
    | brk v => rfl
    | next m => exact filterStep_of_take hlen hind h m

/-- The filter on the type of an Ethernet frame reads fourteen bytes: from the first fourteen on,
what was captured beyond them does not change the answer. -/
theorem filter_snapLen_etherType :
    let code : List BpfInsn := [.stmt (LD ||| H ||| ABS) 12, .jump (JMP ||| JEQ ||| K) 0x800 0 1,
      .stmt (RET ||| K) 0xffff, .stmt (RET ||| K) 0]
    snapLen code = 14 ∧ ∀ (header rest : List UInt8) (n : Nat), header.length = 14 →
      filterSteps code (header ++ rest) n = filterSteps code header n := by
  intro code
  have hsnap : snapLen code = 14 := by decide +kernel
  refine ⟨hsnap, fun header rest n hheader => ?_⟩
  refine filter_snapLen (by decide) (by decide) ?_ n
  rw [hsnap, ← hheader, List.take_left, List.take_length]

end ZprUtils.Bpf
