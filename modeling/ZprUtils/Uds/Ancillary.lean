import ZprUtils.Foundations.ByteStrings
import ZprUtils.Foundations.MachineInt

/-!
# Ancillary data of Unix sockets

Sending and receiving descriptors over a Unix socket. The caller lends a buffer for the control
message of `sendmsg` and `recvmsg`; `SocketAncillary` holds that buffer and the descriptors, each
borrowed or owned. The layout of a control message is that of a 64-bit Linux: a header of a `size_t`
and two `c_int`, little-endian, followed by its data, all aligned to 8 bytes. What the kernel does
in a call is a parameter of the call. An access outside the buffer is `RustFault.undefined`, and so
is a use of a header that does not lie at a multiple of its alignment: the buffer is a borrowed byte
slice, which may begin anywhere.

## Main definitions

* `CowFd`, `SocketAncillary` — the descriptors and the buffer.
* `SocketAncillary.Aligned` — the buffer may hold a header.
* `cmsgAlign`, `cmsgLen`, `cmsgSpace`, `cmsgFirsthdr` — the macros of `libc`.
* `udsSendVectoredWithAncillary`, `udsRecvVectoredWithAncillary`.
-/

namespace ZprUtils.Uds

/-- A `c_int`, such as the number of a descriptor. -/
abbrev CInt := Int32

/-- The number of a descriptor. -/
abbrev RawFd := CInt

namespace CInt

/-- The bytes of a `c_int` in memory. -/
def toBytes (n : CInt) : List UInt8 := leBytes 4 n.toUInt32.toNat

/-- The `c_int` that some bytes in memory stand for. -/
def ofBytes (bytes : List UInt8) : CInt := (UInt32.ofNat (leValue bytes)).toInt32

@[simp] theorem length_toBytes (n : CInt) : (toBytes n).length = 4 := length_leBytes ..

@[simp] theorem ofBytes_toBytes (n : CInt) : ofBytes (toBytes n) = n := by
  rw [ofBytes, toBytes, leValue_leBytes n.toUInt32.toNat_lt, UInt32.ofNat_toNat]
  rfl

end CInt

/-! ### Descriptors -/

/-- A descriptor that is borrowed or owned. -/
inductive CowFd where
  | borrowed (fd : RawFd)
  | owned (fd : RawFd)
  deriving DecidableEq, Repr

namespace CowFd

/-- The number of the descriptor. -/
def asRawFd : CowFd → RawFd
  | borrowed fd => fd
  | owned fd => fd

/-- Ownership of a raw descriptor; `-1` is not one. -/
def fromRawFd (fd : RawFd) : Except RustFault CowFd :=
  if fd = -1 then .error .panic else .ok (owned fd)

/-- The descriptor that is closed when this one is dropped. -/
def closes : CowFd → Option RawFd
  | borrowed _ => none
  | owned fd => some fd

end CowFd

/-- The descriptors that are closed when a list is dropped. -/
def ownedFds (fds : List CowFd) : List RawFd := fds.filterMap CowFd.closes

/-- The buffer that the caller lends, with the address where it begins, and the descriptors. -/
structure SocketAncillary where
  addr : Nat
  buffer : List UInt8
  fds : List CowFd
  deriving DecidableEq, Repr

namespace SocketAncillary

/-- Ancillary data without descriptors on the buffer at an address. -/
def new (addr : Nat) (buffer : List UInt8) : SocketAncillary := ⟨addr, buffer, []⟩

/-- The descriptors are stored whether or not they fit. -/
def addFds (a : SocketAncillary) (fds : List RawFd) : Bool × SocketAncillary :=
  (true, { a with fds := a.fds ++ fds.map CowFd.borrowed })

/-- The descriptors are dropped, the buffer stays as it is. -/
def clear (a : SocketAncillary) : SocketAncillary := { a with fds := [] }

/-- No descriptors are stored. -/
def isEmpty (a : SocketAncillary) : Bool := a.fds.isEmpty

/-- The descriptors of the one message, if there are any; the caller then owns them. -/
def intoMessages (a : SocketAncillary) : Option (List CowFd) :=
  if a.fds.isEmpty then none else some a.fds

end SocketAncillary

/-! ### Control messages -/

/-- The level of the messages of the socket layer. -/
def SOL_SOCKET : CInt := 1

/-- The type of a message that carries descriptors. -/
def SCM_RIGHTS : CInt := 1

/-- The size of a `cmsghdr`. -/
def sizeofCmsghdr : Nat := 16

/-- The alignment of a `cmsghdr`. -/
def alignofCmsghdr : Nat := 8

/-- The size of a `RawFd`. -/
def sizeofRawFd : Nat := 4

theorem length_flatMap_toBytes {β : Type} (f : β → CInt) (l : List β) :
    (l.flatMap fun x => CInt.toBytes (f x)).length = l.length * sizeofRawFd := by
  induction l with
  | nil => rfl
  | cons x l ih =>
    rw [List.flatMap_cons, List.length_append, ih, CInt.length_toBytes, List.length_cons,
      sizeofRawFd]
    omega

/-- A cast to `c_uint`. -/
def asCUint (n : Nat) : Nat := n % 2 ^ 32

/-- A length rounded up to the alignment of a header. -/
def cmsgAlign (n : Nat) : Nat := (n + 7) / 8 * 8

/-- The length of a header and `length` bytes of data. -/
def cmsgLen (length : Nat) : Nat := asCUint (cmsgAlign sizeofCmsghdr + length)

/-- The space that a header and `length` bytes of data take up, padding included. -/
def cmsgSpace (length : Nat) : Nat := asCUint (cmsgAlign length + cmsgAlign sizeofCmsghdr)

/-- The first header of a control buffer, or null. -/
def cmsgFirsthdr (controllen : Nat) (buffer : List UInt8) : Option (List UInt8) :=
  if sizeofCmsghdr ≤ controllen then some buffer else none

/-- The buffer begins where a `cmsghdr` may lie. -/
def SocketAncillary.Aligned (a : SocketAncillary) : Prop := a.addr % alignofCmsghdr = 0

instance (a : SocketAncillary) : Decidable a.Aligned := inferInstanceAs (Decidable (_ = _))

/-- The use of `*cmsghdr` at the start of the buffer: a debug build checks the pointer and aborts
the process, a release build does not. -/
def SocketAncillary.checkAligned (a : SocketAncillary) : Except RustFault Unit :=
  if a.Aligned then .ok () else .error .undefined

theorem SocketAncillary.checkAligned_eq_ok {a : SocketAncillary} (h : a.Aligned) :
    a.checkAligned = .ok () :=
  if_pos h

theorem SocketAncillary.checkAligned_eq_error {a : SocketAncillary} (h : ¬a.Aligned) :
    a.checkAligned = .error .undefined :=
  if_neg h

/-- The fields of a header. -/
structure Cmsghdr where
  len : Nat
  level : CInt
  type : CInt
  deriving DecidableEq, Repr

/-- The header at the start of some bytes. -/
def readCmsghdr (bytes : List UInt8) : Cmsghdr where
  len := leValue (bytes.take 8)
  level := CInt.ofBytes ((bytes.drop 8).take 4)
  type := CInt.ofBytes ((bytes.drop 12).take 4)

/-- A write of some bytes at an offset of the buffer. -/
def writeBytes (buffer : List UInt8) (offset : Nat) (bytes : List UInt8) :
    Except RustFault (List UInt8) :=
  if offset + bytes.length ≤ buffer.length then .ok (splice buffer offset bytes)
  else .error .undefined

/-- `from_raw_parts` of descriptors: `n` of them at the start of the bytes. -/
def readFds : Nat → List UInt8 → Except RustFault (List RawFd)
  | 0, _ => .ok []
  | n + 1, bytes =>
    if bytes.length < sizeofRawFd then
      .error .undefined
    else do
      let fds ← readFds n (bytes.drop sizeofRawFd)
      return CInt.ofBytes (bytes.take sizeofRawFd) :: fds

/-! ### Sending and receiving -/

/-- The result of a system call that returned `res` and left `errno`. -/
def ioResult (res errno : Int) : Except Int Nat :=
  if res > 0 then .ok res.toNat else .error errno

/-- What is handed to `sendmsg`: the length of the control data, and the buffer that holds it. -/
def sendControl (a : SocketAncillary) : Except RustFault (Nat × SocketAncillary) := do
  let fdsSize := a.fds.length * sizeofRawFd
  if fdsSize > 0 then
    let controllen := cmsgSpace (asCUint fdsSize)
    match cmsgFirsthdr controllen a.buffer with
    | none => .error .undefined
    | some _ =>
      a.checkAligned
      let buffer ← writeBytes a.buffer 0 (leBytes 8 (cmsgLen (asCUint fdsSize)))
      let buffer ← writeBytes buffer 8 (CInt.toBytes SOL_SOCKET)
      let buffer ← writeBytes buffer 12 (CInt.toBytes SCM_RIGHTS)
      let buffer ← writeBytes buffer sizeofCmsghdr
        (a.fds.flatMap fun fd => CInt.toBytes fd.asRawFd)
      return (controllen, { a with buffer := buffer })
  else
    return (0, a)

/-- A send in which `sendmsg` returns `res` and leaves `errno`. -/
def udsSendVectoredWithAncillary (a : SocketAncillary) (res errno : Int) :
    Except RustFault (Except Int Nat × SocketAncillary) := do
  let (_, a) ← sendControl a
  return (ioResult res errno, a)

/-- What `recvmsg` does: its result, `errno`, and the control data it leaves. -/
structure RecvMsg where
  res : Int
  errno : Int
  buffer : List UInt8
  controllen : Nat
  deriving DecidableEq, Repr

/-- What a receive does: its result, the ancillary data afterwards, the raw descriptors that it made
owned and those that it closed. -/
structure Received where
  result : Except Int Nat
  ancillary : SocketAncillary
  taken : List RawFd
  closed : List RawFd

/-- The header size as the code computes it. -/
def sizeOfHdr : Nat := 2 * cmsgLen sizeofRawFd - cmsgLen (2 * sizeofRawFd)

/-- A receive with the outcome `msg` of `recvmsg`. The first header is read whatever the outcome,
and what it says decides whether the stored descriptors are replaced. -/
def udsRecvVectoredWithAncillary (a : SocketAncillary) (msg : RecvMsg) :
    Except RustFault Received := do
  let result := ioResult msg.res msg.errno
  let a := { a with buffer := msg.buffer }
  match cmsgFirsthdr msg.controllen msg.buffer with
  | none => return ⟨result, a, [], []⟩
  | some hdr =>
    a.checkAligned
    let cmsghdr := readCmsghdr hdr
    if cmsghdr.level = SOL_SOCKET ∧ cmsghdr.type = SCM_RIGHTS then
      let dataLen ← usizeSub cmsghdr.len sizeOfHdr
      let raw ← readFds (dataLen / sizeofRawFd) (hdr.drop sizeofCmsghdr)
      let fds ← raw.mapM CowFd.fromRawFd
      -- the assignment drops the descriptors that were there
      return ⟨result, { a with fds := fds }, raw, ownedFds a.fds⟩
    else
      return ⟨result, a, [], []⟩

end ZprUtils.Uds
