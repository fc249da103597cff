import ZprUtils.Uds.Ancillary

/-!
# Receiving descriptors

A receive looks at the first control message in the buffer, before it looks at the result of
`recvmsg`. After a failed `recvmsg` the buffer still holds what an earlier call left in it, and the
descriptors named there become owned once more. After a successful one only the first message is
read, the descriptors stored before are replaced only if that message carries descriptors, and the
result `0` is reported as an error. In both cases a header is read where the buffer begins, also
when that address is not one of a header.

## Main definitions

* `Cmsg`, `ControlBytes` — control messages and their bytes.
* `Delivers` — what is assumed of a successful `recvmsg`.
* `SocketAncillary.Readable` — the code may look at the first header, or there is none.
* `SocketAncillary.HoldsNoRights` — the buffer does not begin with descriptors.
* `SocketAncillary.FindsNothing` — the condition on a failed receive.

## Main results

* `udsRecv_failed_iff` — when a failed receive leaves everything as it was.
* `udsRecv_exact_iff` — when a successful receive delivers what the kernel delivered.
-/

namespace ZprUtils.Uds

variable {a : SocketAncillary}

/-! ### The first header -/

/-- The buffer begins with a header of a message that carries descriptors. -/
def StartsWithRights (controllen : Nat) (buffer : List UInt8) : Prop :=
  sizeofCmsghdr ≤ controllen ∧ (readCmsghdr buffer).level = SOL_SOCKET ∧
    (readCmsghdr buffer).type = SCM_RIGHTS

instance (controllen : Nat) (buffer : List UInt8) :
    Decidable (StartsWithRights controllen buffer) := inferInstanceAs (Decidable (_ ∧ _))

/-- With `controllen` bytes of control data there is no first header, or it lies where a header may
lie. -/
def SocketAncillary.Readable (a : SocketAncillary) (controllen : Nat) : Prop :=
  controllen < sizeofCmsghdr ∨ a.Aligned

instance (a : SocketAncillary) (controllen : Nat) : Decidable (a.Readable controllen) :=
  inferInstanceAs (Decidable (_ ∨ _))

/-- A header that cannot be read is read all the same: the pointer to it is not null, and the code
dereferences it before it looks at the result of the call. -/
theorem udsRecv_of_not_readable {msg : RecvMsg} (h : ¬a.Readable msg.controllen) :
    udsRecvVectoredWithAncillary a msg = .error .undefined := by
  obtain ⟨hlen, halign⟩ := not_or.mp h
  have hfirst : cmsgFirsthdr msg.controllen msg.buffer = some msg.buffer :=
    if_pos (Nat.not_lt.mp hlen)
  have hcheck : SocketAncillary.checkAligned { a with buffer := msg.buffer } = .error .undefined :=
    SocketAncillary.checkAligned_eq_error halign
  simp only [udsRecvVectoredWithAncillary, hfirst, hcheck, except_error_bind]

theorem readable_of_udsRecv {msg : RecvMsg} {r : Received}
    (h : udsRecvVectoredWithAncillary a msg = .ok r) : a.Readable msg.controllen := by
  by_contra hread
  rw [udsRecv_of_not_readable hread] at h
  exact absurd h nofun

theorem udsRecv_of_not_startsWithRights {msg : RecvMsg} (hread : a.Readable msg.controllen)
    (h : ¬StartsWithRights msg.controllen msg.buffer) :
    udsRecvVectoredWithAncillary a msg =
      .ok ⟨ioResult msg.res msg.errno, { a with buffer := msg.buffer }, [], []⟩ := by
  by_cases hlen : sizeofCmsghdr ≤ msg.controllen
  · have hfirst : cmsgFirsthdr msg.controllen msg.buffer = some msg.buffer := if_pos hlen
    have halign : a.Aligned := hread.resolve_left (Nat.not_lt.mpr hlen)
    have hcheck : SocketAncillary.checkAligned { a with buffer := msg.buffer } = .ok () :=
      SocketAncillary.checkAligned_eq_ok halign
    have hhdr : ¬((readCmsghdr msg.buffer).level = SOL_SOCKET ∧
        (readCmsghdr msg.buffer).type = SCM_RIGHTS) := fun hrights => h ⟨hlen, hrights⟩
    simp only [udsRecvVectoredWithAncillary, hfirst, hcheck, except_ok_bind, hhdr, if_false,
      except_pure]
  · have hfirst : cmsgFirsthdr msg.controllen msg.buffer = none := if_neg hlen
    simp only [udsRecvVectoredWithAncillary, hfirst, except_pure]

theorem udsRecv_of_startsWithRights {msg : RecvMsg} (halign : a.Aligned)
    (h : StartsWithRights msg.controllen msg.buffer) :
    udsRecvVectoredWithAncillary a msg = (do
      let dataLen ← usizeSub (readCmsghdr msg.buffer).len sizeOfHdr
      let raw ← readFds (dataLen / sizeofRawFd) (msg.buffer.drop sizeofCmsghdr)
      let fds ← raw.mapM CowFd.fromRawFd
      return ⟨ioResult msg.res msg.errno, ⟨a.addr, msg.buffer, fds⟩, raw, ownedFds a.fds⟩) := by
  have hfirst : cmsgFirsthdr msg.controllen msg.buffer = some msg.buffer := if_pos h.1
  have hcheck : SocketAncillary.checkAligned { a with buffer := msg.buffer } = .ok () :=
    SocketAncillary.checkAligned_eq_ok halign
  simp only [udsRecvVectoredWithAncillary, hfirst, hcheck, except_ok_bind, h.2, and_self, if_true]

theorem sizeOfHdr_eq : sizeOfHdr = sizeofCmsghdr := rfl

theorem length_readFds {n : Nat} {bytes : List UInt8} {fds : List RawFd}
    (h : readFds n bytes = .ok fds) : fds.length = n := by
  induction n generalizing bytes fds with
  | zero =>
    obtain rfl := Except.ok.inj h
    rfl
  | succ n ih =>
    rw [readFds] at h
    split at h
    · exact absurd h nofun
    · obtain ⟨fds', hfds', h⟩ := except_bind_eq_ok.mp h
      obtain rfl := Except.ok.inj h
      rw [List.length_cons, ih hfds']

theorem mapM_fromRawFd {raw : List RawFd} (h : ∀ fd ∈ raw, fd ≠ -1) :
    raw.mapM CowFd.fromRawFd = .ok (raw.map CowFd.owned) := by
  induction raw with
  | nil => rfl
  | cons fd raw ih =>
    rw [List.forall_mem_cons] at h
    rw [List.mapM_cons, CowFd.fromRawFd, if_neg h.1, except_ok_bind, ih h.2, except_ok_bind,
      except_pure, List.map_cons]

theorem eq_map_owned_of_mapM {raw : List RawFd} {fds : List CowFd}
    (h : raw.mapM CowFd.fromRawFd = .ok fds) : fds = raw.map CowFd.owned := by
  induction raw generalizing fds with
  | nil => exact (Except.ok.inj h).symm
  | cons fd raw ih =>
    rw [List.mapM_cons] at h
    obtain ⟨x, hx, h⟩ := except_bind_eq_ok.mp h
    obtain ⟨xs, hxs, h⟩ := except_bind_eq_ok.mp h
    obtain rfl := Except.ok.inj h
    rw [CowFd.fromRawFd] at hx
    split at hx
    · exact absurd hx nofun
    · rw [ih hxs, List.map_cons, ← Except.ok.inj hx]

/-- A receive that reads descriptors: it takes those of the first message and closes those stored
before. -/
theorem udsRecv_rights {msg : RecvMsg} (halign : a.Aligned)
    (h : StartsWithRights msg.controllen msg.buffer)
    (hlen : sizeofCmsghdr ≤ (readCmsghdr msg.buffer).len) {raw : List RawFd}
    (hraw : readFds (((readCmsghdr msg.buffer).len - sizeofCmsghdr) / sizeofRawFd)
      (msg.buffer.drop sizeofCmsghdr) = .ok raw) (hvalid : ∀ fd ∈ raw, fd ≠ -1) :
    udsRecvVectoredWithAncillary a msg = .ok ⟨ioResult msg.res msg.errno,
      ⟨a.addr, msg.buffer, raw.map CowFd.owned⟩, raw, ownedFds a.fds⟩ := by
  rw [udsRecv_of_startsWithRights halign h, sizeOfHdr_eq, usizeSub_eq_ok hlen, except_ok_bind, hraw,
    except_ok_bind, mapM_fromRawFd hvalid, except_ok_bind, except_pure]

theorem udsRecv_rights_eq_ok {msg : RecvMsg} (h : StartsWithRights msg.controllen msg.buffer)
    {r : Received} (hr : udsRecvVectoredWithAncillary a msg = .ok r) :
    ∃ raw : List RawFd, sizeofCmsghdr ≤ (readCmsghdr msg.buffer).len ∧
      raw.length = ((readCmsghdr msg.buffer).len - sizeofCmsghdr) / sizeofRawFd ∧
      r = ⟨ioResult msg.res msg.errno, ⟨a.addr, msg.buffer, raw.map CowFd.owned⟩, raw,
        ownedFds a.fds⟩ := by
  have halign : a.Aligned := (readable_of_udsRecv hr).resolve_left (Nat.not_lt.mpr h.1)
  rw [udsRecv_of_startsWithRights halign h, sizeOfHdr_eq] at hr
  obtain ⟨dataLen, hdata, hr⟩ := except_bind_eq_ok.mp hr
  obtain ⟨raw, hraw, hr⟩ := except_bind_eq_ok.mp hr
  obtain ⟨fds, hfds, hr⟩ := except_bind_eq_ok.mp hr
  obtain rfl := Except.ok.inj hr
  rw [usizeSub] at hdata
  split at hdata
  · next hle =>
    obtain rfl := Except.ok.inj hdata
    exact ⟨raw, hle, length_readFds hraw, by rw [eq_map_owned_of_mapM hfds]⟩
  · exact absurd hdata nofun

/-! ### A failed receive -/

/-- A failed `recvmsg` changes neither the control buffer nor its length. -/
def SocketAncillary.recvFails (a : SocketAncillary) (errno : Int) : RecvMsg where
  res := -1
  errno := errno
  buffer := a.buffer
  controllen := a.buffer.length

/-- The receive failed and left everything as it was. -/
structure Received.Intact (r : Received) (a : SocketAncillary) (errno : Int) : Prop where
  result : r.result = .error errno
  ancillary : r.ancillary = a
  taken : r.taken = []
  closed : r.closed = []

/-- The buffer does not begin with a message that carries descriptors, or with one that carries
none when none are stored. -/
def SocketAncillary.HoldsNoRights (a : SocketAncillary) : Prop :=
  ¬StartsWithRights a.buffer.length a.buffer ∨
    a.fds = [] ∧ sizeofCmsghdr ≤ (readCmsghdr a.buffer).len ∧
      (readCmsghdr a.buffer).len < sizeofCmsghdr + sizeofRawFd

instance (a : SocketAncillary) : Decidable a.HoldsNoRights := inferInstanceAs (Decidable (_ ∨ _))

/-- The condition for a failed receive to leave everything as it was: it can read the first header
of the whole buffer, and finds no descriptors there. -/
def SocketAncillary.FindsNothing (a : SocketAncillary) : Prop :=
  a.Readable a.buffer.length ∧ a.HoldsNoRights

instance (a : SocketAncillary) : Decidable a.FindsNothing := inferInstanceAs (Decidable (_ ∧ _))

/-- **A failed receive** leaves everything as it was exactly when the first header of the buffer can
be read and does not begin descriptors. The code reads that header before it looks at the result,
and what it finds are the bytes of an earlier call. -/
theorem udsRecv_failed_iff (a : SocketAncillary) (errno : Int) :
    (∃ r, udsRecvVectoredWithAncillary a (a.recvFails errno) = .ok r ∧ r.Intact a errno) ↔
      a.FindsNothing := by
  rw [SocketAncillary.FindsNothing]
  by_cases hread : a.Readable a.buffer.length
  swap
  · rw [udsRecv_of_not_readable hread]
    exact iff_of_false (fun ⟨r, hr, _⟩ => absurd hr nofun) fun h => hread h.1
  rw [and_iff_right hread]
  by_cases h : StartsWithRights a.buffer.length a.buffer
  · have halign : a.Aligned := hread.resolve_left (Nat.not_lt.mpr h.1)
    rw [SocketAncillary.HoldsNoRights, or_iff_right (not_not.mpr h)]
    constructor
    · rintro ⟨r, hr, hintact⟩
      obtain ⟨raw, hle, hlength, rfl⟩ := udsRecv_rights_eq_ok h hr
      obtain rfl : raw = [] := hintact.taken
      refine ⟨congrArg SocketAncillary.fds hintact.ancillary.symm, hle, ?_⟩
      rw [List.length_nil, eq_comm, Nat.div_eq_zero_iff] at hlength
      change sizeofCmsghdr ≤ (readCmsghdr a.buffer).len at hle
      change _ ∨ (readCmsghdr a.buffer).len - sizeofCmsghdr < sizeofRawFd at hlength
      rw [sizeofRawFd] at *
      omega
    · rintro ⟨hnil, hle, hlt⟩
      have hraw : readFds (((readCmsghdr a.buffer).len - sizeofCmsghdr) / sizeofRawFd)
          (a.buffer.drop sizeofCmsghdr) = .ok [] := by
        rw [Nat.div_eq_of_lt (by omega)]
        rfl
      refine ⟨_, udsRecv_rights halign h hle hraw (by simp), rfl, ?_, rfl, by rw [hnil]; rfl⟩
      exact congrArg (SocketAncillary.mk a.addr a.buffer) hnil.symm
  · rw [udsRecv_of_not_startsWithRights hread h]
    exact ⟨fun _ => Or.inl h, fun _ => ⟨_, rfl, rfl, rfl, rfl, rfl⟩⟩

/-! ### Control messages -/

/-- A control message: descriptors, or anything else. -/
inductive Cmsg where
  | rights (fds : List RawFd)
  | other (level type : CInt) (data : List UInt8)
      (hother : ¬(level = SOL_SOCKET ∧ type = SCM_RIGHTS))

namespace Cmsg

/-- The originating protocol of a message. -/
def level : Cmsg → CInt
  | rights _ => SOL_SOCKET
  | other level _ _ _ => level

/-- The type of a message within its protocol. -/
def type : Cmsg → CInt
  | rights _ => SCM_RIGHTS
  | other _ type _ _ => type

/-- The bytes behind the header. -/
def data : Cmsg → List UInt8
  | rights fds => fds.flatMap CInt.toBytes
  | other _ _ data _ => data

/-- The descriptors that a message carries. -/
def fds : Cmsg → List RawFd
  | rights fds => fds
  | other .. => []

/-- The bytes of a message without its padding. -/
def bytes (m : Cmsg) : List UInt8 :=
  leBytes 8 (sizeofCmsghdr + m.data.length) ++ CInt.toBytes m.level ++ CInt.toBytes m.type ++ m.data

end Cmsg

/-- The control data of a sequence of messages: each is padded to the alignment, except that the
padding of the last one may be cut off. -/
inductive ControlBytes : List Cmsg → List UInt8 → Prop
  | nil : ControlBytes [] []
  | last {m : Cmsg} {pad : List UInt8} (hlen : sizeofCmsghdr + m.data.length < 2 ^ 64)
      (hpad : m.data.length + pad.length ≤ cmsgAlign m.data.length) :
      ControlBytes [m] (m.bytes ++ pad)
  | cons {m : Cmsg} {ms : List Cmsg} {pad rest : List UInt8}
      (hlen : sizeofCmsghdr + m.data.length < 2 ^ 64)
      (hpad : m.data.length + pad.length = cmsgAlign m.data.length)
      (hrest : ControlBytes ms rest) : ControlBytes (m :: ms) (m.bytes ++ (pad ++ rest))

/-- The descriptors that a sequence of messages carries, in order. -/
def delivered (ms : List Cmsg) : List RawFd := ms.flatMap Cmsg.fds

/-- What is assumed of a `recvmsg` that returns `n` and the messages `ms`. -/
structure Delivers (a : SocketAncillary) (msg : RecvMsg) (n : Nat) (ms : List Cmsg) : Prop where
  res : msg.res = n
  length : msg.buffer.length = a.buffer.length
  controllen_le : msg.controllen ≤ msg.buffer.length
  control : ControlBytes ms (msg.buffer.take msg.controllen)
  valid : ∀ fd ∈ delivered ms, fd ≠ -1
  nodup : (delivered ms).Nodup

/-! ### A successful receive -/

theorem ControlBytes.eq_nil {control : List UInt8} (h : ControlBytes [] control) :
    control = [] := by
  cases h
  rfl

/-- The first message is at the start of the control data. -/
theorem ControlBytes.exists_append {m : Cmsg} {ms : List Cmsg} {control : List UInt8}
    (h : ControlBytes (m :: ms) control) :
    sizeofCmsghdr + m.data.length < 2 ^ 64 ∧ ∃ rest, control = m.bytes ++ rest := by
  cases h with
  | last hlen => exact ⟨hlen, _, rfl⟩
  | cons hlen => exact ⟨hlen, _, rfl⟩

theorem readCmsghdr_bytes {m : Cmsg} (hlen : sizeofCmsghdr + m.data.length < 2 ^ 64)
    (rest : List UInt8) :
    readCmsghdr (m.bytes ++ rest) = ⟨sizeofCmsghdr + m.data.length, m.level, m.type⟩ ∧
      (m.bytes ++ rest).drop sizeofCmsghdr = m.data ++ rest := by
  have hlength : (leBytes 8 (sizeofCmsghdr + m.data.length)).length = 8 := length_leBytes ..
  have hlevel := CInt.length_toBytes m.level
  have htype := CInt.length_toBytes m.type
  constructor
  · rw [readCmsghdr, Cmsg.bytes, Cmsghdr.mk.injEq]
    refine ⟨?_, ?_, ?_⟩
    · simp [hlength, leValue_leBytes (k := 8) hlen]
    · simp [hlength, hlevel]
    · simp [List.drop_append, hlength, hlevel, htype, List.drop_eq_nil_of_le]
  · simp [Cmsg.bytes, sizeofCmsghdr, List.drop_append, hlevel, htype, List.drop_eq_nil_of_le]

theorem readFds_flatMap (fds : List RawFd) (rest : List UInt8) :
    readFds fds.length (fds.flatMap CInt.toBytes ++ rest) = .ok fds := by
  induction fds with
  | nil => rfl
  | cons fd fds ih =>
    have hlength : (CInt.toBytes fd).length = sizeofRawFd := CInt.length_toBytes fd
    have hlong : ¬(CInt.toBytes fd ++ (fds.flatMap CInt.toBytes ++ rest)).length < sizeofRawFd := by
      rw [List.length_append, hlength]
      omega
    rw [List.length_cons, readFds, List.flatMap_cons, List.append_assoc, if_neg hlong,
      List.drop_left' hlength, List.take_left' hlength, ih, except_ok_bind, CInt.ofBytes_toBytes,
      except_pure]

section

variable {msg : RecvMsg} {n : Nat} {m : Cmsg} {ms : List Cmsg}

/-- The buffer after a `recvmsg` that delivers messages. -/
theorem Delivers.first (h : Delivers a msg n (m :: ms)) :
    sizeofCmsghdr ≤ msg.controllen ∧
      readCmsghdr msg.buffer = ⟨sizeofCmsghdr + m.data.length, m.level, m.type⟩ ∧
      ∃ rest, msg.buffer.drop sizeofCmsghdr = m.data ++ rest := by
  obtain ⟨hlen, rest, hcontrol⟩ := h.control.exists_append
  have hbuffer : msg.buffer = m.bytes ++ (rest ++ msg.buffer.drop msg.controllen) := by
    rw [← List.append_assoc, ← hcontrol, List.take_append_drop]
  obtain ⟨hread, hdrop⟩ := readCmsghdr_bytes hlen (rest ++ msg.buffer.drop msg.controllen)
  rw [← hbuffer] at hread hdrop
  refine ⟨?_, hread, _, hdrop⟩
  have hlength := congrArg List.length hcontrol
  simp only [List.length_take, Cmsg.bytes, List.length_append, length_leBytes,
    CInt.length_toBytes] at hlength
  rw [sizeofCmsghdr]
  omega

/-- Without messages there is no header to read. -/
theorem Delivers.controllen_lt (h : Delivers a msg n []) : msg.controllen < sizeofCmsghdr := by
  have hlength := congrArg List.length h.control.eq_nil
  have hle := h.controllen_le
  rw [List.length_take, List.length_nil] at hlength
  rw [sizeofCmsghdr]
  omega

/-- The code may look at the first header if there is no message, or the buffer is aligned. Without
a message the control data is empty, and the pointer to the header is null. -/
theorem Delivers.readable_iff (h : Delivers a msg n ms) :
    a.Readable msg.controllen ↔ ms = [] ∨ a.Aligned := by
  match ms, h with
  | [], h => exact iff_of_true (Or.inl h.controllen_lt) (Or.inl rfl)
  | m :: ms, h =>
    obtain ⟨hle, -⟩ := h.first
    rw [SocketAncillary.Readable, or_iff_right (Nat.not_lt.mpr hle),
      or_iff_right (List.cons_ne_nil m ms)]

/-- What the code does with the messages: it looks at the first one only, and replaces the
descriptors only if that one is `SCM_RIGHTS`. -/
theorem Delivers.udsRecv_eq (h : Delivers a msg n ms) (hread : a.Readable msg.controllen) :
    udsRecvVectoredWithAncillary a msg = .ok
      (match ms with
      | .rights fds :: _ => ⟨ioResult n msg.errno, ⟨a.addr, msg.buffer, fds.map CowFd.owned⟩, fds,
          ownedFds a.fds⟩
      | _ => ⟨ioResult n msg.errno, ⟨a.addr, msg.buffer, a.fds⟩, [], []⟩) := by
  match ms, h with
  | [], h =>
    rw [udsRecv_of_not_startsWithRights hread, h.res]
    rintro ⟨hhdr, -⟩
    exact absurd h.controllen_lt (Nat.not_lt.mpr hhdr)
  | .rights fds :: ms, h =>
    obtain ⟨hle, hhdr, rest, hdrop⟩ := h.first
    have hlength : (Cmsg.rights fds).data.length = fds.length * sizeofRawFd :=
      length_flatMap_toBytes id fds
    have hraw : readFds (((readCmsghdr msg.buffer).len - sizeofCmsghdr) / sizeofRawFd)
        (msg.buffer.drop sizeofCmsghdr) = .ok fds := by
      rw [hhdr, hdrop, hlength, Nat.add_sub_cancel_left, Nat.mul_div_cancel _ (by decide)]
      exact readFds_flatMap fds rest
    have halign : a.Aligned := hread.resolve_left (Nat.not_lt.mpr hle)
    rw [udsRecv_rights halign ⟨hle, by rw [hhdr]; rfl, by rw [hhdr]; rfl⟩ (by rw [hhdr]; simp) hraw
      fun fd hfd => h.valid fd (List.mem_append_left _ hfd), h.res]
  | .other level type data hother :: ms, h =>
    obtain ⟨-, hhdr, -⟩ := h.first
    rw [udsRecv_of_not_startsWithRights hread, h.res]
    rintro ⟨-, hrights⟩
    rw [hhdr] at hrights
    exact hother hrights

/-- The receive returned what the kernel delivered: all descriptors, in order, each owned once. -/
structure Received.Exact (r : Received) (n : Nat) (ms : List Cmsg) : Prop where
  result : r.result = .ok n
  fds : r.ancillary.fds = (delivered ms).map CowFd.owned
  taken : r.taken = delivered ms
  nodup : r.ancillary.fds.Nodup

/-- The condition for a receive to deliver everything: something was read, only the first message
carries descriptors, and none are stored from before unless that message replaces them. -/
def DeliversFirst (a : SocketAncillary) (n : Nat) : List Cmsg → Prop
  | .rights _ :: ms => 0 < n ∧ delivered ms = []
  | ms => 0 < n ∧ a.fds = [] ∧ delivered ms = []

theorem ioResult_eq_ok_iff {errno : Int} : ioResult n errno = .ok n ↔ 0 < n := by
  rw [ioResult]
  split
  · next h => simpa using h
  · next h =>
    refine ⟨nofun, fun hn => absurd ?_ h⟩
    exact_mod_cast hn

theorem map_owned_nodup (h : (delivered ms).Nodup) : ((delivered ms).map CowFd.owned).Nodup :=
  List.pairwise_map.mpr (h.imp fun hne heq => hne (CowFd.owned.inj heq))

/-- **A successful receive** delivers exactly what the kernel delivered, if and only if the buffer
is aligned or there is no message, the result is positive, only the first message carries
descriptors, and either it does or none were stored. -/
theorem udsRecv_exact_iff (h : Delivers a msg n ms) :
    (∃ r, udsRecvVectoredWithAncillary a msg = .ok r ∧ r.Exact n ms) ↔
      (ms = [] ∨ a.Aligned) ∧ DeliversFirst a n ms := by
  rw [← h.readable_iff]
  by_cases hread : a.Readable msg.controllen
  swap
  · rw [udsRecv_of_not_readable hread]
    exact iff_of_false (fun ⟨r, hr, _⟩ => absurd hr nofun) fun h => hread h.1
  rw [and_iff_right hread, h.udsRecv_eq hread]
  match ms, h with
  | [], h =>
    constructor
    · rintro ⟨r, hr, hexact⟩
      obtain rfl := Except.ok.inj hr
      exact ⟨ioResult_eq_ok_iff.mp hexact.result, hexact.fds, rfl⟩
    · rintro ⟨hn, hnil, -⟩
      exact ⟨_, rfl, ioResult_eq_ok_iff.mpr hn, hnil, rfl, by rw [hnil]; exact .nil⟩
  | .rights fds :: ms, h =>
    have hdelivered : delivered (.rights fds :: ms) = fds ++ delivered ms := rfl
    constructor
    · rintro ⟨r, hr, hexact⟩
      obtain rfl := Except.ok.inj hr
      refine ⟨ioResult_eq_ok_iff.mp hexact.result, ?_⟩
      have htaken : fds = fds ++ delivered ms := hexact.taken
      exact List.append_cancel_left (htaken.symm.trans (List.append_nil fds).symm)
    · rintro ⟨hn, hrest⟩
      have hall : fds = delivered (.rights fds :: ms) := by
        rw [hdelivered, hrest, List.append_nil]
      have hnodup := map_owned_nodup h.nodup
      rw [← hall] at hnodup
      exact ⟨_, rfl, ioResult_eq_ok_iff.mpr hn, congrArg _ hall, hall, hnodup⟩
  | .other level type data hother :: ms, h =>
    have hdelivered : delivered (.other level type data hother :: ms) = delivered ms := rfl
    constructor
    · rintro ⟨r, hr, hexact⟩
      obtain rfl := Except.ok.inj hr
      have hnone : delivered (.other level type data hother :: ms) = [] := hexact.taken.symm
      refine ⟨ioResult_eq_ok_iff.mp hexact.result, ?_, hnone⟩
      have hfds := hexact.fds
      rwa [hnone] at hfds
    · rintro ⟨hn, hnil, hnone⟩
      refine ⟨_, rfl, ioResult_eq_ok_iff.mpr hn, ?_, hnone.symm, by rw [hnil]; exact .nil⟩
      rw [hnone]
      exact hnil

/-- A `recvmsg` whose control data fills the buffer: a way to get an example of `Delivers` from the
messages alone. -/
theorem ControlBytes.delivers {control : List UInt8} (hcontrol : ControlBytes ms control)
    (hlength : control.length = a.buffer.length) (hvalid : ∀ fd ∈ delivered ms, fd ≠ -1)
    (hnodup : (delivered ms).Nodup) (n : Nat) :
    Delivers a ⟨n, 0, control, control.length⟩ n ms :=
  ⟨rfl, hlength, le_rfl, by rwa [List.take_length], hvalid, hnodup⟩

/-- One message with two descriptors, into a buffer that has just the space for it. -/
theorem udsRecv_exact_two : ∃ r, udsRecvVectoredWithAncillary
      ⟨64, List.replicate 24 0, [.owned 7]⟩ ⟨3, 0, (Cmsg.rights [5, 6]).bytes, 24⟩ = .ok r ∧
    r.Exact 3 [.rights [5, 6]] := by
  have hcontrol : ControlBytes [.rights [5, 6]] ((Cmsg.rights [5, 6]).bytes ++ []) :=
    .last (by decide) (by decide)
  rw [List.append_nil] at hcontrol
  have hvalid : ∀ fd ∈ delivered [.rights [5, 6]], fd ≠ -1 := by simp [delivered, Cmsg.fds]
  have hnodup : (delivered [.rights [5, 6]]).Nodup := by simp [delivered, Cmsg.fds]
  exact (udsRecv_exact_iff (hcontrol.delivers rfl hvalid hnodup 3)).mpr
    ⟨Or.inr (by decide), by decide, rfl⟩

/-- The credentials of a process, which the kernel puts before its descriptors. -/
def Cmsg.credentials (data : List UInt8) : Cmsg := .other SOL_SOCKET 2 data (by decide)

/-- At the end of the stream the result is an error, without control data the descriptors of an
earlier call stay, descriptors after a message of credentials are lost, and in a buffer at an odd
address the first header is read where it may not lie. -/
theorem udsRecv_not_exact :
    (∃ a msg, Delivers a msg 0 [] ∧
      ¬∃ r, udsRecvVectoredWithAncillary a msg = .ok r ∧ r.Exact 0 []) ∧
    (∃ a msg, Delivers a msg 3 [] ∧
      ¬∃ r, udsRecvVectoredWithAncillary a msg = .ok r ∧ r.Exact 3 []) ∧
    (∃ a msg, Delivers a msg 3 [.credentials (List.replicate 12 0), .rights [5]] ∧
      ¬∃ r, udsRecvVectoredWithAncillary a msg = .ok r ∧
        r.Exact 3 [.credentials (List.replicate 12 0), .rights [5]]) ∧
    ∃ a msg, Delivers a msg 3 [.rights [5]] ∧
      udsRecvVectoredWithAncillary a msg = .error .undefined := by
  refine ⟨⟨.new 64 [], ⟨0, 0, [], 0⟩, ?_⟩, ⟨⟨64, [], [.owned 7]⟩, ⟨3, 0, [], 0⟩, ?_⟩,
    ⟨.new 64 (List.replicate 52 0), ⟨3, 0, (Cmsg.credentials (List.replicate 12 0)).bytes ++
      (List.replicate 4 0 ++ ((Cmsg.rights [5]).bytes ++ [])), 52⟩, ?_⟩,
    ⟨.new 65 (List.replicate 20 0), ⟨3, 0, (Cmsg.rights [5]).bytes ++ [], 20⟩, ?_⟩⟩
  · have hdelivers : Delivers (.new 64 []) ⟨0, 0, [], 0⟩ 0 [] :=
      ControlBytes.nil.delivers rfl nofun .nil 0
    refine ⟨hdelivers, fun ⟨r, hr, hexact⟩ => ?_⟩
    obtain rfl := Except.ok.inj ((hdelivers.udsRecv_eq (by decide)).symm.trans hr)
    exact absurd hexact.result nofun
  · have hdelivers : Delivers ⟨64, [], [.owned 7]⟩ ⟨3, 0, [], 0⟩ 3 [] :=
      ControlBytes.nil.delivers rfl nofun .nil 3
    refine ⟨hdelivers, fun ⟨r, hr, hexact⟩ => ?_⟩
    obtain rfl := Except.ok.inj ((hdelivers.udsRecv_eq (by decide)).symm.trans hr)
    exact absurd hexact.fds nofun
  · have hcontrol : ControlBytes [.credentials (List.replicate 12 0), .rights [5]]
        ((Cmsg.credentials (List.replicate 12 0)).bytes ++
          (List.replicate 4 0 ++ ((Cmsg.rights [5]).bytes ++ []))) :=
      .cons (by decide) (by decide) (.last (by decide) (by decide))
    have hvalid : ∀ fd ∈ delivered [.credentials (List.replicate 12 0), .rights [5]], fd ≠ -1 := by
      simp [delivered, Cmsg.fds, Cmsg.credentials]
    have hnodup : (delivered [.credentials (List.replicate 12 0), .rights [5]]).Nodup := by
      simp [delivered, Cmsg.fds, Cmsg.credentials]
    have hdelivers := hcontrol.delivers (a := .new 64 (List.replicate 52 0)) rfl hvalid hnodup 3
    refine ⟨hdelivers, fun ⟨r, hr, hexact⟩ => ?_⟩
    obtain rfl := Except.ok.inj ((hdelivers.udsRecv_eq (Or.inr (by decide))).symm.trans hr)
    exact absurd hexact.taken nofun
  · have hcontrol : ControlBytes [.rights [5]] ((Cmsg.rights [5]).bytes ++ []) :=
      .last (by decide) (by decide)
    have hvalid : ∀ fd ∈ delivered [.rights [5]], fd ≠ -1 := by simp [delivered, Cmsg.fds]
    have hnodup : (delivered [.rights [5]]).Nodup := by simp [delivered, Cmsg.fds]
    have hdelivers := hcontrol.delivers (a := .new 65 (List.replicate 20 0)) rfl hvalid hnodup 3
    exact ⟨hdelivers, udsRecv_of_not_readable (by decide)⟩

end

end ZprUtils.Uds
