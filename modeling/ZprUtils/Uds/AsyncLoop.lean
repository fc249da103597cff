import ZprUtils.Foundations.ReadinessLoop
import ZprUtils.Uds.Ancillary

/-!
# Sending and receiving on an asynchronous socket

The loops around a send and a receive. The send waits until the socket is writable and tries under
the same interest. The receive waits until the socket is readable but tries under the interest of
writing: without that flag it never gets to its call, and it clears that flag when the call would
block.

## Main definitions

* `sendVectoredWithAncillary`, `recvVectoredWithAncillary` — the loops.
* `RecvMeets` — the condition on a step of the receive loop.

## Main results

* `send_progresses` — the send loop makes progress and does not spin.
* `recv_progresses_iff` — the receive loop makes progress exactly under the condition.
* `recv_spins` — without the flag for writing it runs for ever without a call and without an event.
-/

namespace ZprUtils.Uds

/-- The error number of a call that would block. -/
def EAGAIN : Int := 11

/-- An error of the kind `WouldBlock`. -/
def wouldBlock : Except Int Nat → Bool
  | .ok _ => false
  | .error errno => errno == EAGAIN

/-- The loop of `send_vectored_with_ancillary`: `writable().await`, and then `try_io` for writing.
-/
def sendVectoredWithAncillary : ReadinessLoop SocketAncillary (Int × Int) Int Nat where
  awaits := .writable
  tries := .writable
  op a w := udsSendVectoredWithAncillary a w.1 w.2
  wouldBlock := wouldBlock

/-- The loop of `recv_vectored_with_ancillary`: `readable().await`, and then `try_io` for writing,
as the source has it. -/
def recvVectoredWithAncillary : ReadinessLoop SocketAncillary RecvMsg Int Nat where
  awaits := .readable
  tries := .writable
  op a msg := do
    let r ← udsRecvVectoredWithAncillary a msg
    return (r.result, r.ancillary)
  wouldBlock := wouldBlock

/-- The state of one of the loops. -/
abbrev AsyncState := LoopState SocketAncillary Int Nat

/-- **The send loop** makes its call in every iteration, waits again only with its flag clear,
leaves the flag for reading alone, and makes at most one more iteration than there are events. -/
theorem send_progresses {s s' : AsyncState}
    {es : List (AsyncState × LoopAct (Int × Int) Int × AsyncState)} (hs : s.pc = .waiting)
    (hrun : sendVectoredWithAncillary.Run s es s') :
    (∀ e ∈ es, sendVectoredWithAncillary.Progresses e.1 e.2.1 e.2.2) ∧
      es.countP (fun e => ReadinessLoop.isPass e.2.1) ≤
        es.countP (fun e => sendVectoredWithAncillary.isEvent e.2.1) + 1 :=
  ⟨ReadinessLoop.progresses_of_matched rfl hs hrun, ReadinessLoop.passes_le rfl hs hrun⟩

/-! ### The receive loop -/

/-- A receive reports that it would block. -/
def Blocks (a : SocketAncillary) (msg : RecvMsg) : Prop :=
  (∃ r, udsRecvVectoredWithAncillary a msg = .ok r) ∧
    wouldBlock (ioResult msg.res msg.errno) = true

/-- The condition on a step of the receive loop: at an attempt the flag for writing is set, and the
receive does not report that it would block. -/
def RecvMeets (s : AsyncState) : LoopAct RecvMsg Int → Prop
  | .tryIo msg => s.ready.write = true ∧ ¬Blocks s.data msg
  | _ => True

/-- The result of a receive is that of its system call. -/
theorem result_of_udsRecv {a : SocketAncillary} {msg : RecvMsg} {r : Received}
    (h : udsRecvVectoredWithAncillary a msg = .ok r) : r.result = ioResult msg.res msg.errno := by
  simp only [udsRecvVectoredWithAncillary] at h
  split at h
  · rw [← Except.ok.inj h]
  · obtain ⟨-, -, h⟩ := except_bind_eq_ok.mp h
    split at h
    · obtain ⟨dataLen, -, h⟩ := except_bind_eq_ok.mp h
      obtain ⟨raw, -, h⟩ := except_bind_eq_ok.mp h
      obtain ⟨fds, -, h⟩ := except_bind_eq_ok.mp h
      rw [← Except.ok.inj h]
    · rw [← Except.ok.inj h]

section

variable {s s' : AsyncState} {msg : RecvMsg}

/-- An attempt of the receive loop: it makes no call without the flag for writing, it clears that
flag when the receive would block, and it ends the loop otherwise. -/
theorem recv_tryIo_cases (h : recvVectoredWithAncillary.step s (.tryIo msg) = some s') :
    s.ready.write = false ∧ s'.calls = s.calls ∨
      s.ready.write = true ∧ Blocks s.data msg ∧ s'.ready.write = false ∨
      s.ready.write = true ∧ ¬Blocks s.data msg ∧ s'.calls = s.calls + 1 ∧ s'.pc ≠ .waiting ∧
        s'.ready = s.ready := by
  obtain ⟨-, ⟨hflag, rfl⟩ | ⟨hflag, hcases⟩⟩ := ReadinessLoop.tryIo_cases h
  · exact Or.inl ⟨hflag, rfl⟩
  · rcases hcases with ⟨fault, hop, rfl⟩ | ⟨res, data, hop, hcases⟩
    · refine Or.inr (Or.inr ⟨hflag, ?_, rfl, nofun, rfl⟩)
      rintro ⟨⟨r, hr⟩, -⟩
      simp only [recvVectoredWithAncillary, hr, except_ok_bind, except_pure] at hop
      exact absurd hop nofun
    · obtain ⟨r, hr, hres⟩ := except_bind_eq_ok.mp hop
      obtain ⟨rfl, rfl⟩ := Prod.mk.inj (Except.ok.inj hres)
      rw [result_of_udsRecv hr] at hcases
      rcases hcases with ⟨hblock, rfl⟩ | ⟨hblock, rfl⟩
      · exact Or.inr (Or.inl ⟨hflag, ⟨⟨r, hr⟩, hblock⟩, rfl⟩)
      · refine Or.inr (Or.inr ⟨hflag, ?_, rfl, nofun, rfl⟩)
        rintro ⟨-, hblock'⟩
        exact absurd (hblock.symm.trans hblock') nofun

/-- A step of the receive loop makes progress exactly when it meets the condition. -/
theorem recv_progresses_step {act : LoopAct RecvMsg Int}
    (h : recvVectoredWithAncillary.step s act = some s') :
    recvVectoredWithAncillary.Progresses s act s' ↔ RecvMeets s act := by
  cases act with
  | event i =>
    exact ⟨fun _ => trivial, fun _ => ⟨nofun, nofun, fun hevent => absurd rfl (hevent i)⟩⟩
  | pass =>
    obtain ⟨-, -, rfl⟩ := ReadinessLoop.pass_cases h
    exact ⟨fun _ => trivial, fun _ => ⟨nofun, nofun, fun _ => rfl⟩⟩
  | awaitFails err =>
    obtain ⟨-, rfl⟩ := ReadinessLoop.awaitFails_cases h
    exact ⟨fun _ => trivial, fun _ => ⟨nofun, nofun, fun _ => rfl⟩⟩
  | tryIo msg =>
    rcases recv_tryIo_cases h with ⟨hflag, hcalls⟩ | ⟨hflag, hblocks, hclear⟩ |
      ⟨hflag, hblocks, hcalls, hpc, hready⟩
    · constructor
      · intro hprogress
        have hruns := hprogress.runs msg rfl
        omega
      · exact fun hmeets => absurd (hflag.symm.trans hmeets.1) nofun
    · constructor
      · intro hprogress
        have hother : s'.ready.write = s.ready.write := hprogress.other nofun
        exact absurd ((hclear.symm.trans hother).trans hflag) nofun
      · exact fun hmeets => absurd hblocks hmeets.2
    · refine ⟨fun _ => ⟨hflag, hblocks⟩, fun _ => ⟨fun _ _ => hcalls, ?_, fun _ => by rw [hready]⟩⟩
      exact fun _ _ hwaiting => absurd hwaiting hpc

/-- **The receive loop** makes its call in every iteration, waits again only with the flag for
reading clear and leaves the flag for writing alone, if and only if at every attempt the flag for
writing is set and the receive does not report that it would block. -/
theorem recv_progresses_iff {es : List (AsyncState × LoopAct RecvMsg Int × AsyncState)}
    (hrun : recvVectoredWithAncillary.Run s es s') :
    (∀ e ∈ es, recvVectoredWithAncillary.Progresses e.1 e.2.1 e.2.2) ↔
      ∀ e ∈ es, RecvMeets e.1 e.2.1 := by
  have hsteps : ∀ e ∈ es, recvVectoredWithAncillary.step e.1 e.2.1 = some e.2.2 := by
    refine Steps.history (P := fun es _ =>
      ∀ e ∈ es, recvVectoredWithAncillary.step e.1 e.2.1 = some e.2.2) ?_ hrun (by simp)
    rintro es s₁ ⟨s₂, act, s₃⟩ s₄ ih ⟨rfl, rfl, hstep⟩
    rw [List.forall_mem_append, List.forall_mem_singleton]
    exact ⟨ih, hstep⟩
  exact forall₂_congr fun e he => recv_progresses_step (hsteps e he)

/-- A receive on a socket that is ready for reading and writing. -/
theorem recv_progresses_ready : ∃ es s',
    recvVectoredWithAncillary.Run ⟨⟨true, true⟩, .waiting, .new 64 [], 0, false⟩ es s' ∧
    s'.pc = .finished (.ok 3) ∧
    ∀ e ∈ es, recvVectoredWithAncillary.Progresses e.1 e.2.1 e.2.2 := by
  have hpass : recvVectoredWithAncillary.step ⟨⟨true, true⟩, .waiting, .new 64 [], 0, false⟩ .pass =
    some ⟨⟨true, true⟩, .passed, .new 64 [], 0, false⟩ := rfl
  have htry : recvVectoredWithAncillary.step ⟨⟨true, true⟩, .passed, .new 64 [], 0, false⟩
    (.tryIo ⟨3, 0, [], 0⟩) = some ⟨⟨true, true⟩, .finished (.ok 3), .new 64 [], 1, false⟩ := rfl
  have hrun : recvVectoredWithAncillary.Run _ _ _ :=
    (ReadinessLoop.Run.snoc (.nil _) hpass).snoc htry
  refine ⟨_, _, hrun, rfl, (recv_progresses_iff hrun).mpr ?_⟩
  simp only [List.nil_append, List.cons_append, List.forall_mem_cons]
  exact ⟨trivial, ⟨rfl, fun hblocks => absurd hblocks.2 (by decide)⟩, by simp⟩

/-- A socket that is readable but not writable: the iteration makes no call. -/
theorem recv_makes_no_call : ∃ es s',
    recvVectoredWithAncillary.Run ⟨⟨true, false⟩, .waiting, .new 64 [], 0, false⟩ es s' ∧
    s' = ⟨⟨true, false⟩, .waiting, .new 64 [], 0, false⟩ ∧
    ¬∀ e ∈ es, recvVectoredWithAncillary.Progresses e.1 e.2.1 e.2.2 := by
  have hpass :
      recvVectoredWithAncillary.step ⟨⟨true, false⟩, .waiting, .new 64 [], 0, false⟩ .pass =
    some ⟨⟨true, false⟩, .passed, .new 64 [], 0, false⟩ := rfl
  have htry : recvVectoredWithAncillary.step ⟨⟨true, false⟩, .passed, .new 64 [], 0, false⟩
    (.tryIo ⟨3, 0, [], 0⟩) = some ⟨⟨true, false⟩, .waiting, .new 64 [], 0, false⟩ := rfl
  have hrun : recvVectoredWithAncillary.Run _ _ _ :=
    (ReadinessLoop.Run.snoc (.nil _) hpass).snoc htry
  refine ⟨_, _, hrun, rfl, fun hprogress => ?_⟩
  simp only [List.nil_append, List.cons_append, List.forall_mem_cons] at hprogress
  exact absurd (hprogress.2.1.runs _ rfl) (by decide)

/-- **The receive loop spins** on a socket that is readable but not writable: it makes any number of
iterations without an event and without a call. The wait ends at once each time, and the attempt is
not made, since the flag for writing is clear. -/
theorem recv_spins (hread : s.ready.read = true) (hwrite : s.ready.write = false)
    (hs : s.pc = .waiting) (hfresh : s.fresh = false) (msg : RecvMsg) (n : Nat) :
    ∃ es, recvVectoredWithAncillary.Run s es s ∧
      es.countP (fun e => ReadinessLoop.isPass e.2.1) = n ∧
      ∀ e ∈ es, (∀ i, e.2.1 ≠ .event i) ∧ e.2.2.calls = s.calls := by
  have hpass : recvVectoredWithAncillary.step s .pass = some { s with pc := .passed } := by
    have hflag : s.ready.get recvVectoredWithAncillary.awaits = true := hread
    simp only [ReadinessLoop.step, hs, hflag, if_true, ← hfresh]
  have htry : recvVectoredWithAncillary.step { s with pc := .passed } (.tryIo msg) = some s := by
    have hflag : s.ready.get recvVectoredWithAncillary.tries = false := hwrite
    simp only [ReadinessLoop.step, ReadinessLoop.tryIo, hflag, Bool.false_eq_true, if_false, ← hs]
  induction n with
  | zero => exact ⟨[], .nil s, rfl, by simp⟩
  | succ n ih =>
    obtain ⟨es, hrun, hcount, hes⟩ := ih
    refine ⟨_, (hrun.snoc hpass).snoc htry, ?_, ?_⟩
    · simp only [List.countP_append, List.countP_singleton, hcount]
      rfl
    · rw [List.forall_mem_append, List.forall_mem_append, List.forall_mem_singleton,
        List.forall_mem_singleton]
      exact ⟨⟨hes, by simp, rfl⟩, by simp, rfl⟩

end

end ZprUtils.Uds
