import ZprUtils.Foundations.Runs
import ZprUtils.Uds.Ancillary

/-!
# Sending descriptors

`add_fds` stores every descriptor it is given and always answers `true`; the send then writes a
header and all stored descriptors into the buffer without a look at its length or at the address
where it begins. So the writes are those of a header inside the buffer for as long as the caller
adds only what fits, and sends descriptors only from an aligned buffer.

## Main definitions

* `SocketAncillary.HasSpace`, `SocketAncillary.Fits` — the buffer has the space for some number of
  descriptors, and for the stored ones.
* `SendOp`, `SendOp.Ok` — the calls, and what is expected of each.
* `SendOp.Meets` — the condition on a call.

## Main results

* `sendControl_of_fits` — a send of descriptors that fit.
* `send_within_iff` — the calls of a run do what is expected exactly when they meet the condition.
-/

namespace ZprUtils.Uds

variable {a a' : SocketAncillary}

/-- The control space of `n` descriptors, in exact arithmetic. -/
def controlSpace (n : Nat) : Nat := cmsgAlign (n * sizeofRawFd) + cmsgAlign sizeofCmsghdr

/-- The buffer has the space for a message with `n` descriptors; no message is needed for none. -/
def SocketAncillary.HasSpace (a : SocketAncillary) (n : Nat) : Prop :=
  n ≠ 0 → controlSpace n ≤ a.buffer.length

instance (a : SocketAncillary) (n : Nat) : Decidable (a.HasSpace n) :=
  inferInstanceAs (Decidable (_ → _))

/-- All stored descriptors fit into the buffer. -/
def SocketAncillary.Fits (a : SocketAncillary) : Prop := a.HasSpace a.fds.length

/-- The calls on the sending side. -/
inductive SendOp where
  | addFds (fds : List RawFd)
  | clear
  | send (res errno : Int)
  deriving DecidableEq, Repr

/-- What a send writes and hands to the kernel lies within the buffer. -/
def SocketAncillary.SendsWithin (a : SocketAncillary) : Prop :=
  ∃ controllen a', sendControl a = .ok (controllen, a') ∧ controllen ≤ a.buffer.length ∧
    (a.fds ≠ [] → controllen = controlSpace a.fds.length)

namespace SendOp

/-- The state after a call. After a write outside the buffer nothing is said any more. -/
def apply (a : SocketAncillary) : SendOp → SocketAncillary
  | addFds fds => (a.addFds fds).2
  | clear => a.clear
  | send res errno =>
    match udsSendVectoredWithAncillary a res errno with
    | .ok (_, a') => a'
    | .error _ => a

/-- What is expected of a call. An addition answers whether there is space for the descriptors that
are stored and those that are added; it then stores them behind the others, and changes nothing when
there is no space. -/
def Ok (a : SocketAncillary) : SendOp → Prop
  | addFds fds => ((a.addFds fds).1 = true ↔ a.HasSpace (a.fds.length + fds.length)) ∧
      ((a.addFds fds).1 = true →
        (a.addFds fds).2 = { a with fds := a.fds ++ fds.map CowFd.borrowed }) ∧
      ((a.addFds fds).1 = false → (a.addFds fds).2 = a)
  | clear => True
  | send _ _ => a.SendsWithin

/-- The condition on a call: there is space for what is added, and descriptors are sent from an
aligned buffer, with a control space that is a `c_uint`. -/
def Meets (a : SocketAncillary) : SendOp → Prop
  | addFds fds => a.HasSpace (a.fds.length + fds.length)
  | clear => True
  | send _ _ => a.fds ≠ [] → a.Aligned ∧ controlSpace a.fds.length < 2 ^ 32

/-- A run, with the state before each call. -/
def Run (a : SocketAncillary) (es : List (SocketAncillary × SendOp))
    (a' : SocketAncillary) : Prop :=
  Steps (fun a (e : SocketAncillary × SendOp) a' => e.1 = a ∧ e.2.apply a = a') a es a'

end SendOp

/-! ### A send -/

theorem exists_writeBytes (buffer : List UInt8) (offset : Nat) (bytes : List UInt8)
    (h : offset + bytes.length ≤ buffer.length) :
    ∃ buffer', writeBytes buffer offset bytes = .ok buffer' ∧ buffer'.length = buffer.length :=
  ⟨_, if_pos h, length_splice h⟩

/-- With fewer than `2 ^ 32` bytes the casts change nothing, and `CMSG_SPACE` is what is written.
Beyond that its argument wraps around. -/
theorem cmsgSpace_eq {n : Nat} (h : controlSpace n < 2 ^ 32) :
    cmsgSpace (asCUint (n * sizeofRawFd)) = controlSpace n := by
  have hsmall : n * sizeofRawFd < 2 ^ 32 := by
    rw [controlSpace, cmsgAlign] at h
    omega
  rw [cmsgSpace, asCUint, asCUint, Nat.mod_eq_of_lt hsmall, ← controlSpace, Nat.mod_eq_of_lt h]

/-- **A send of descriptors that fit** from an aligned buffer stays within it: the header and the
descriptors are written at its start, and the length that the kernel gets is the control space,
which is rounded up from what is written. -/
theorem sendControl_of_fits (hfits : a.Fits)
    (hmeets : a.fds ≠ [] → a.Aligned ∧ controlSpace a.fds.length < 2 ^ 32) :
    ∃ controllen a', sendControl a = .ok (controllen, a') ∧ controllen ≤ a.buffer.length ∧
      (a.fds ≠ [] → controllen = controlSpace a.fds.length) ∧
      a'.fds = a.fds ∧ a'.buffer.length = a.buffer.length := by
  by_cases hnil : a.fds = []
  · refine ⟨0, a, ?_, Nat.zero_le _, fun h => absurd hnil h, rfl, rfl⟩
    simp [sendControl, hnil, except_pure]
  · have hpos : 0 < a.fds.length := List.length_pos_iff.mpr hnil
    have hspace := hfits (Nat.ne_of_gt hpos)
    obtain ⟨halign, hsmall⟩ := hmeets hnil
    have hle : sizeofCmsghdr + a.fds.length * sizeofRawFd ≤ a.buffer.length := by
      refine le_trans ?_ hspace
      rw [controlSpace, cmsgAlign, show cmsgAlign sizeofCmsghdr = sizeofCmsghdr from rfl]
      omega
    have hhdr : sizeofCmsghdr ≤ controlSpace a.fds.length := by
      rw [controlSpace, show cmsgAlign sizeofCmsghdr = sizeofCmsghdr from rfl]
      omega
    rw [sizeofCmsghdr] at hle
    -- the four writes, each into a buffer of the same length
    have hlen : (leBytes 8 (cmsgLen (asCUint (a.fds.length * sizeofRawFd)))).length = 8 :=
      length_leBytes ..
    have hdata := length_flatMap_toBytes CowFd.asRawFd a.fds
    obtain ⟨buffer₁, hwrite₁, hbuffer₁⟩ := exists_writeBytes a.buffer 0 _ (by rw [hlen]; omega)
    obtain ⟨buffer₂, hwrite₂, hbuffer₂⟩ := exists_writeBytes buffer₁ 8 (CInt.toBytes SOL_SOCKET)
      (by rw [CInt.length_toBytes]; omega)
    obtain ⟨buffer₃, hwrite₃, hbuffer₃⟩ := exists_writeBytes buffer₂ 12 (CInt.toBytes SCM_RIGHTS)
      (by rw [CInt.length_toBytes]; omega)
    obtain ⟨buffer₄, hwrite₄, hbuffer₄⟩ := exists_writeBytes buffer₃ sizeofCmsghdr
      (a.fds.flatMap fun fd => CInt.toBytes fd.asRawFd) (by rw [hdata, sizeofCmsghdr]; omega)
    refine ⟨controlSpace a.fds.length, { a with buffer := buffer₄ }, ?_, hspace, fun _ => rfl, rfl,
      by rw [hbuffer₄, hbuffer₃, hbuffer₂, hbuffer₁]⟩
    have hsize : a.fds.length * sizeofRawFd > 0 := Nat.mul_pos hpos (by decide)
    have hfirst : cmsgFirsthdr (controlSpace a.fds.length) a.buffer = some a.buffer := if_pos hhdr
    simp only [sendControl, hsize, if_true, cmsgSpace_eq hsmall, hfirst,
      SocketAncillary.checkAligned_eq_ok halign, hwrite₁, hwrite₂, hwrite₃, hwrite₄,
      except_ok_bind, except_pure]

theorem length_of_writeBytes {buffer buffer' bytes : List UInt8} {offset : Nat}
    (h : writeBytes buffer offset bytes = .ok buffer') : buffer'.length = buffer.length := by
  rw [writeBytes] at h
  split at h
  · next hle =>
    obtain rfl := Except.ok.inj h
    exact length_splice hle
  · exact absurd h nofun

/-- A send without a fault keeps the descriptors and the length of the buffer; if there are any, the
buffer is aligned. -/
theorem sendControl_eq_ok {controllen : Nat} (h : sendControl a = .ok (controllen, a')) :
    (a.fds ≠ [] → a.Aligned ∧
      controllen = cmsgSpace (asCUint (a.fds.length * sizeofRawFd))) ∧
      a'.fds = a.fds ∧ a'.buffer.length = a.buffer.length := by
  simp only [sendControl] at h
  split at h
  · split at h
    · exact absurd h nofun
    · obtain ⟨_, hcheck, h⟩ := except_bind_eq_ok.mp h
      have halign : a.Aligned := by
        by_contra hnot
        exact absurd ((SocketAncillary.checkAligned_eq_error hnot).symm.trans hcheck) nofun
      obtain ⟨buffer₁, hwrite₁, h⟩ := except_bind_eq_ok.mp h
      obtain ⟨buffer₂, hwrite₂, h⟩ := except_bind_eq_ok.mp h
      obtain ⟨buffer₃, hwrite₃, h⟩ := except_bind_eq_ok.mp h
      obtain ⟨buffer₄, hwrite₄, h⟩ := except_bind_eq_ok.mp h
      obtain ⟨rfl, rfl⟩ := Prod.mk.inj (Except.ok.inj h)
      refine ⟨fun _ => ⟨halign, rfl⟩, rfl, ?_⟩
      exact ((length_of_writeBytes hwrite₄).trans (length_of_writeBytes hwrite₃)).trans
        ((length_of_writeBytes hwrite₂).trans (length_of_writeBytes hwrite₁))
  · next hsize =>
    obtain ⟨rfl, rfl⟩ := Prod.mk.inj (Except.ok.inj h)
    refine ⟨fun hnil => absurd ?_ hsize, rfl, rfl⟩
    exact Nat.mul_pos (List.length_pos_iff.mpr hnil) (by decide)

/-! ### Runs -/

theorem SendOp.Ok.meets {op : SendOp} (h : op.Ok a) : op.Meets a := by
  cases op with
  | addFds fds => exact h.1.mp rfl
  | clear => exact trivial
  | send res errno =>
    obtain ⟨controllen, a', hsend, -, hspace⟩ := h
    intro hnil
    obtain ⟨halign, hlen⟩ := (sendControl_eq_ok hsend).1 hnil
    refine ⟨halign, ?_⟩
    rw [← hspace hnil, hlen]
    exact Nat.mod_lt _ (by decide)

/-- A call that meets the condition does what is expected, and what is stored still fits. This is
the step lemma of the runs below. -/
theorem SendOp.Meets.ok {op : SendOp} (h : op.Meets a) (hfits : a.Fits) :
    op.Ok a ∧ (op.apply a).Fits := by
  cases op with
  | addFds fds =>
    refine ⟨⟨⟨fun _ => h, fun _ => rfl⟩, fun _ => rfl, nofun⟩, ?_⟩
    have hlength : (a.addFds fds).2.fds.length = a.fds.length + fds.length := by
      simp [SocketAncillary.addFds]
    rw [SendOp.apply, SocketAncillary.Fits, hlength]
    exact h
  | clear => exact ⟨trivial, fun hnil => absurd rfl hnil⟩
  | send res errno =>
    obtain ⟨controllen, a', hsend, hle, hspace, hfds, hbuffer⟩ := sendControl_of_fits hfits h
    refine ⟨⟨controllen, a', hsend, hle, hspace⟩, ?_⟩
    have happly : (SendOp.send res errno).apply a = a' := by
      simp only [SendOp.apply, udsSendVectoredWithAncillary, hsend, except_ok_bind, except_pure]
    rw [happly, SocketAncillary.Fits, SocketAncillary.HasSpace, hfds, hbuffer]
    exact hfits

/-- **The send path.** Over every run on a new `SocketAncillary`, every `add_fds` answers whether
there is space, and stores the descriptors exactly then, and every send stays within the buffer, if
and only if every `add_fds` adds only what there is space for, and every send of descriptors is from
an aligned buffer and with a control space below `2 ^ 32`. -/
theorem send_within_iff {addr : Nat} {buffer : List UInt8} {es : List (SocketAncillary × SendOp)}
    (hrun : SendOp.Run (.new addr buffer) es a) :
    (∀ e ∈ es, e.2.Ok e.1) ↔ ∀ e ∈ es, e.2.Meets e.1 := by
  constructor
  · intro h e he
    exact (h e he).meets
  · -- what is stored fits for as long as the condition is met
    have key : (∀ e ∈ es, e.2.Meets e.1) → (∀ e ∈ es, e.2.Ok e.1) ∧ a.Fits := by
      refine Steps.history (P := fun es a =>
        (∀ e ∈ es, e.2.Meets e.1) → (∀ e ∈ es, e.2.Ok e.1) ∧ a.Fits) ?_ hrun ?_
      · rintro es a₁ ⟨a₂, op⟩ a₃ ih ⟨rfl, rfl⟩ h
        rw [List.forall_mem_append, List.forall_mem_singleton] at h
        obtain ⟨hok, hfits⟩ := ih h.1
        obtain ⟨hok', hfits'⟩ := SendOp.Meets.ok h.2 hfits
        rw [List.forall_mem_append, List.forall_mem_singleton]
        exact ⟨⟨hok, hok'⟩, hfits'⟩
      · exact fun _ => ⟨by simp, fun hnil => absurd rfl hnil⟩
    exact fun h => (key h).1

/-- One descriptor in a buffer that has just the space for it. -/
theorem send_within_exact : ∃ es a, SendOp.Run (.new 64 (List.replicate 24 0)) es a ∧
    es.map Prod.snd = [.addFds [5], .send 3 0] ∧ ∀ e ∈ es, e.2.Ok e.1 := by
  have hrun : SendOp.Run (.new 64 (List.replicate 24 0)) _ _ :=
    ((Steps.nil _).snoc (e := (_, .addFds [5])) ⟨rfl, rfl⟩).snoc (e := (_, .send 3 0)) ⟨rfl, rfl⟩
  refine ⟨_, _, hrun, rfl, (send_within_iff hrun).mpr ?_⟩
  simp only [List.nil_append, List.cons_append, List.forall_mem_cons]
  exact ⟨show SocketAncillary.HasSpace _ _ by decide, fun _ => by decide, by simp⟩

/-- The run of one addition and a send in which the send does not stay within the buffer. -/
theorem send_leaves {addr : Nat} {buffer : List UInt8}
    (hfault : sendControl ⟨addr, buffer, [.borrowed 5]⟩ = .error .undefined) :
    ∃ es a, SendOp.Run (.new addr buffer) es a ∧
      es.map Prod.snd = [.addFds [5], .send 3 0] ∧ ¬∀ e ∈ es, e.2.Ok e.1 := by
  have hrun : SendOp.Run (.new addr buffer) _ _ :=
    ((Steps.nil _).snoc (e := (_, .addFds [5])) ⟨rfl, rfl⟩).snoc (e := (_, .send 3 0)) ⟨rfl, rfl⟩
  refine ⟨_, _, hrun, rfl, fun h => ?_⟩
  simp only [List.nil_append, List.cons_append, List.forall_mem_cons] at h
  obtain ⟨controllen, a', hsend, -⟩ := h.2.1
  exact absurd (hfault.symm.trans hsend) nofun

/-- A descriptor that does not fit is stored, and the send writes outside the buffer; one that fits
into a buffer at an odd address is sent with a header where none may lie. -/
theorem send_not_within :
    (∃ es a, SendOp.Run (.new 64 (List.replicate 16 0)) es a ∧
      es.map Prod.snd = [.addFds [5], .send 3 0] ∧ ¬∀ e ∈ es, e.2.Ok e.1) ∧
    ∃ es a, SendOp.Run (.new 65 (List.replicate 24 0)) es a ∧
      es.map Prod.snd = [.addFds [5], .send 3 0] ∧ ¬∀ e ∈ es, e.2.Ok e.1 :=
  ⟨send_leaves rfl, send_leaves rfl⟩

end ZprUtils.Uds
