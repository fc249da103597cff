import ZprUtils.Foundations.Handles
import ZprUtils.Foundations.MachineInt
import ZprUtils.Foundations.OnesComplement

/-!
# The L4 checksum

The checksum of an L4 payload over the pseudo-header of IPv4 or IPv6, computed in pieces by
`ip4sum::Checksum`. That crate is outside the repository: `Ip4sum` states what is assumed of it.
The checksum of a packet is the complement of a one's-complement sum, so it depends on the payload
only through the exact sum of its words (`Net.inetL4Checksum_eq`).

## Main definitions

* `Ip4sum` — `ip4sum::Checksum`.
* `checksumIpPseudoHeader`, `inetL4Checksum`, `validateInetL4Checksum`.
* `rfc1071` — the Internet checksum of one buffer.
* `stamp`, `flipBit` — a payload with a stored checksum, and with one bit changed.

## Main results

* `inetL4Checksum_rfc1071` — the checksum is that of the pseudo-header and the payload in one
  buffer.
* `validate_stamp_iff` — the stamps that validate, and the changes that do not.
-/

namespace ZprUtils.Net

/-! ### Addresses and numbers -/

/-- An IPv4 or IPv6 address. -/
structure IpAddress where
  v6 : Vector UInt8 16
  deriving DecidableEq

namespace IpAddress

/-- The IPv6 address `::ffff:a.b.c.d` of an IPv4 address. -/
def newFromV4 (v4Address : Vector UInt8 4) : IpAddress where
  v6 := #v[0, 0, 0, 0, 0, 0, 0, 0, 0, 0, 0xff, 0xff,
    v4Address[0], v4Address[1], v4Address[2], v4Address[3]]

/-- The last four bytes. -/
def readAsV4 (address : IpAddress) : Vector UInt8 4 :=
  #v[address.v6[12], address.v6[13], address.v6[14], address.v6[15]]

theorem readAsV4_toList (address : IpAddress) :
    address.readAsV4.toList = address.v6.toList.drop 12 := by
  refine List.ext_getElem (by simp) fun i hi _ => ?_
  rw [Vector.length_toList] at hi
  match i with
  | 0 | 1 | 2 | 3 => simp [readAsV4]

end IpAddress

/-- `u16::to_be_bytes`. -/
def u16ToBeBytes (n : UInt16) : Vector UInt8 2 := #v[(n >>> 8).toUInt8, n.toUInt8]

/-- `u32::to_be_bytes`. -/
def u32ToBeBytes (n : UInt32) : Vector UInt8 4 :=
  #v[(n >>> 24).toUInt8, (n >>> 16).toUInt8, (n >>> 8).toUInt8, n.toUInt8]

/-! ### The checksum -/

/-- `ip4sum::Checksum`: an update adds its big-endian words in one's-complement arithmetic, and
`finalize` returns the complement of the folded sum. -/
structure Ip4sum (σ : Type) where
  new : σ
  update : σ → List UInt8 → σ
  finalize : σ → UInt16
  /-- The folded sum of the words added so far. -/
  folded : σ → Nat
  folded_new : folded new = 0
  folded_update : ∀ csum bytes,
    folded (update csum bytes) = (beWords bytes).foldl (addCarry (2 ^ 16)) (folded csum)
  finalize_eq : ∀ csum, finalize csum = UInt16.ofNat (2 ^ 16 - 1 - folded csum)

/-- The sum is kept folded. -/
def Ip4sum.direct : Ip4sum Nat where
  new := 0
  update csum bytes := (beWords bytes).foldl (addCarry (2 ^ 16)) csum
  finalize csum := UInt16.ofNat (2 ^ 16 - 1 - csum)
  folded := id
  folded_new := rfl
  folded_update _ _ := rfl
  finalize_eq _ := rfl

section

variable {σ : Type} (lib : Ip4sum σ)

/-- Add the pseudo header of IPv4 or IPv6 to a checksum; any other version panics. -/
def checksumIpPseudoHeader (csum : σ) (ipVersion : UInt8) (srcAddress dstAddress : IpAddress)
    (ipProtocol : UInt8) (l4Length : UInt32) : Except RustFault σ :=
  if ipVersion = 4 then
    let csum := lib.update csum srcAddress.readAsV4.toList
    let csum := lib.update csum dstAddress.readAsV4.toList
    let csum := lib.update csum [0, ipProtocol]
    .ok (lib.update csum (u16ToBeBytes l4Length.toUInt16).toList)
  else if ipVersion = 6 then
    let csum := lib.update csum srcAddress.v6.toList
    let csum := lib.update csum dstAddress.v6.toList
    let csum := lib.update csum (u32ToBeBytes l4Length).toList
    -- two more leading zero bytes would not change the sum
    .ok (lib.update csum [0, ipProtocol])
  else
    .error .panic

/-- The checksum of a payload with its pseudo header, in network byte order. -/
def inetL4Checksum (ipVersion : UInt8) (srcAddress dstAddress : IpAddress) (ipProtocol : UInt8)
    (l4Payload : List UInt8) : Except RustFault (Vector UInt8 2) := do
  let csum ← checksumIpPseudoHeader lib lib.new ipVersion srcAddress dstAddress ipProtocol
    (UInt32.ofNat l4Payload.length)
  return u16ToBeBytes (lib.finalize (lib.update csum l4Payload))

/-- A payload that includes its checksum sums up to zero. -/
def validateInetL4Checksum (ipVersion : UInt8) (srcAddress dstAddress : IpAddress)
    (ipProtocol : UInt8) (l4Payload : List UInt8) : Except RustFault Bool := do
  let csum ← inetL4Checksum lib ipVersion srcAddress dstAddress ipProtocol l4Payload
  return csum == #v[0, 0]

end

/-- The Internet checksum of a buffer: the complement of the one's-complement sum of its 16-bit
words. -/
def rfc1071 (buffer : List UInt8) : UInt16 :=
  UInt16.ofNat (2 ^ 16 - 1 - foldCarry (2 ^ 16) (beWords buffer).sum)

/-- The number with the given big-endian bytes. -/
def beValue (bytes : List UInt8) : Nat := bytes.foldl (fun n x => n * 256 + x.toNat) 0

/-- The `k` low big-endian bytes of a number. -/
def beBytes (k n : Nat) : List UInt8 :=
  match k with
  | 0 => []
  | k + 1 => UInt8.ofNat (n / 256 ^ k) :: beBytes k n

theorem beValue_beBytes_two {n : Nat} (hn : n < 2 ^ 16) : beValue (beBytes 2 n) = n := by
  simp [beValue, beBytes]
  omega

theorem beValue_beBytes_four {n : Nat} (hn : n < 2 ^ 32) : beValue (beBytes 4 n) = n := by
  simp [beValue, beBytes]
  omega

theorem u16ToBeBytes_toList (n : Nat) :
    (u16ToBeBytes (UInt32.ofNat n).toUInt16).toList = beBytes 2 n := by
  have hhigh : ((UInt32.ofNat n).toUInt16 >>> 8).toUInt8 = UInt8.ofNat (n / 256 ^ 1) := by
    rw [← UInt8.toNat_inj]
    simp [Nat.shiftRight_eq_div_pow]
    omega
  have hlow : (UInt32.ofNat n).toUInt16.toUInt8 = UInt8.ofNat (n / 256 ^ 0) := by
    rw [← UInt8.toNat_inj]
    simp
  simp only [u16ToBeBytes, beBytes, hhigh, hlow]
  rfl

theorem u32ToBeBytes_toList (n : Nat) :
    (u32ToBeBytes (UInt32.ofNat n)).toList = beBytes 4 n := by
  have hbyte₃ : (UInt32.ofNat n >>> 24).toUInt8 = UInt8.ofNat (n / 256 ^ 3) := by
    rw [← UInt8.toNat_inj]
    simp [Nat.shiftRight_eq_div_pow]
    omega
  have hbyte₂ : (UInt32.ofNat n >>> 16).toUInt8 = UInt8.ofNat (n / 256 ^ 2) := by
    rw [← UInt8.toNat_inj]
    simp [Nat.shiftRight_eq_div_pow]
    omega
  have hbyte₁ : (UInt32.ofNat n >>> 8).toUInt8 = UInt8.ofNat (n / 256 ^ 1) := by
    rw [← UInt8.toNat_inj]
    simp [Nat.shiftRight_eq_div_pow]
    omega
  have hbyte₀ : (UInt32.ofNat n).toUInt8 = UInt8.ofNat (n / 256 ^ 0) := by
    rw [← UInt8.toNat_inj]
    simp
  simp only [u32ToBeBytes, beBytes, hbyte₃, hbyte₂, hbyte₁, hbyte₀]
  rfl

/-! ### The checksum as a function of one buffer -/

section

variable {σ : Type} (lib : Ip4sum σ) {ipVersion : UInt8} (src dst : IpAddress) (ipProtocol : UInt8)

/-- The bytes that are added for the pseudo-header. -/
def pseudoHeader (ipVersion : UInt8) (l4Length : UInt32) : List UInt8 :=
  if ipVersion = 4 then
    src.readAsV4.toList ++ dst.readAsV4.toList ++ [0, ipProtocol] ++
      (u16ToBeBytes l4Length.toUInt16).toList
  else
    src.v6.toList ++ dst.v6.toList ++ (u32ToBeBytes l4Length).toList ++ [0, ipProtocol]

theorem length_pseudoHeader (l4Length : UInt32) :
    (pseudoHeader src dst ipProtocol ipVersion l4Length).length % 2 = 0 := by
  rw [pseudoHeader]
  split <;> simp

/-- An update adds the exact sum of its words before the carries are folded. Sums without carries
are then compared as numbers, and folded once at the end. -/
theorem Ip4sum.folded_update_eq {csum : σ} {s : Nat} (hs : lib.folded csum = foldCarry (2 ^ 16) s)
    (bytes : List UInt8) :
    lib.folded (lib.update csum bytes) = foldCarry (2 ^ 16) (s + (beWords bytes).sum) := by
  have hb : 2 ≤ 2 ^ 16 := by decide
  rw [lib.folded_update, hs, foldl_addCarry hb (beWords_lt bytes) (foldCarry_lt hb s),
    foldCarry_foldCarry_add hb]

theorem checksumIpPseudoHeader_eq (hversion : ipVersion = 4 ∨ ipVersion = 6) (l4Length : UInt32) :
    ∃ csum, checksumIpPseudoHeader lib lib.new ipVersion src dst ipProtocol l4Length = .ok csum ∧
      lib.folded csum = foldCarry (2 ^ 16)
        (beWords (pseudoHeader src dst ipProtocol ipVersion l4Length)).sum := by
  have hnew : lib.folded lib.new = foldCarry (2 ^ 16) 0 := by
    rw [lib.folded_new, foldCarry_of_lt (by decide)]
  rcases hversion with rfl | rfl
  · refine ⟨_, rfl, ?_⟩
    rw [lib.folded_update_eq (lib.folded_update_eq (lib.folded_update_eq
      (lib.folded_update_eq hnew _) _) _) _, pseudoHeader, if_pos rfl]
    repeat rw [beWords_append (by simp)]
    simp only [List.sum_append, Nat.zero_add]
  · refine ⟨_, rfl, ?_⟩
    rw [lib.folded_update_eq (lib.folded_update_eq (lib.folded_update_eq
      (lib.folded_update_eq hnew _) _) _) _, pseudoHeader, if_neg (by decide)]
    repeat rw [beWords_append (by simp)]
    simp only [List.sum_append, Nat.zero_add]

/-- **The pieces add up**: the checksum is the Internet checksum of the pseudo-header and the
payload. The code adds the header in pieces of an even length, so that no word is split between two
of them. -/
theorem inetL4Checksum_eq (hversion : ipVersion = 4 ∨ ipVersion = 6) (payload : List UInt8) :
    inetL4Checksum lib ipVersion src dst ipProtocol payload =
      .ok (u16ToBeBytes (rfc1071 (pseudoHeader src dst ipProtocol ipVersion
        (UInt32.ofNat payload.length) ++ payload))) := by
  obtain ⟨csum, hcsum, hfolded⟩ :=
    checksumIpPseudoHeader_eq lib src dst ipProtocol hversion (UInt32.ofNat payload.length)
  rw [inetL4Checksum, hcsum, except_ok_bind, lib.finalize_eq, lib.folded_update_eq hfolded, rfc1071,
    beWords_append (length_pseudoHeader ..), List.sum_append]
  rfl

/-- **The L4 checksum** is the Internet checksum of the full pseudo-header and the payload in one
buffer, with the length of the payload in big-endian order. For IPv6 the length has four bytes and
the protocol is padded to four; for IPv4 they have two each. -/
theorem inetL4Checksum_rfc1071 (payload : List UInt8) :
    (payload.length < 2 ^ 32 → ∃ l4Length : List UInt8,
      l4Length.length = 4 ∧ beValue l4Length = payload.length ∧
      inetL4Checksum lib 6 src dst ipProtocol payload = .ok (u16ToBeBytes (rfc1071
        (src.v6.toList ++ dst.v6.toList ++ l4Length ++ [0, 0, 0, ipProtocol] ++ payload)))) ∧
    (payload.length ≤ 65535 → ∃ l4Length : List UInt8,
      l4Length.length = 2 ∧ beValue l4Length = payload.length ∧
      inetL4Checksum lib 4 src dst ipProtocol payload = .ok (u16ToBeBytes (rfc1071
        (src.v6.toList.drop 12 ++ dst.v6.toList.drop 12 ++ [0, ipProtocol] ++ l4Length ++
          payload)))) := by
  constructor
  · intro hlength
    refine ⟨beBytes 4 payload.length, rfl, beValue_beBytes_four hlength, ?_⟩
    rw [inetL4Checksum_eq lib src dst ipProtocol (Or.inr rfl), pseudoHeader, if_neg (by decide),
      u32ToBeBytes_toList, rfc1071, rfc1071]
    -- the two further zero bytes are a zero word
    have hzero : (beWords ([0, 0, 0, ipProtocol] : List UInt8)).sum =
        (beWords [0, ipProtocol]).sum := by simp [beWords]
    repeat rw [beWords_append (by simp [beBytes])]
    simp only [List.sum_append, hzero]
  · intro hlength
    refine ⟨beBytes 2 payload.length, rfl, beValue_beBytes_two (by omega), ?_⟩
    rw [inetL4Checksum_eq lib src dst ipProtocol (Or.inl rfl), pseudoHeader, if_pos rfl,
      u16ToBeBytes_toList, IpAddress.readAsV4_toList, IpAddress.readAsV4_toList]

/-- A payload of odd length. -/
theorem inetL4Checksum_rfc1071_odd :
    (∃ l4Length : List UInt8, l4Length.length = 4 ∧ beValue l4Length = 3 ∧
      inetL4Checksum .direct 6 (.newFromV4 #v[10, 0, 0, 1]) (.newFromV4 #v[10, 0, 0, 2]) 58
          [0x80, 0, 0x16] =
        .ok (u16ToBeBytes (rfc1071 ((IpAddress.newFromV4 #v[10, 0, 0, 1]).v6.toList ++
          (IpAddress.newFromV4 #v[10, 0, 0, 2]).v6.toList ++ l4Length ++ [0, 0, 0, 58] ++
          [0x80, 0, 0x16])))) ∧
    inetL4Checksum .direct 6 (.newFromV4 #v[10, 0, 0, 1]) (.newFromV4 #v[10, 0, 0, 2]) 58
      [0x80, 0, 0x16] = .ok #v[85, 191] :=
  ⟨(inetL4Checksum_rfc1071 .direct (.newFromV4 #v[10, 0, 0, 1]) (.newFromV4 #v[10, 0, 0, 2]) 58
    [0x80, 0, 0x16]).1 (by decide), by decide⟩

end

/-! ### Stamps -/

/-- The payload with a 16-bit value stored at an offset. -/
def stamp (payload : List UInt8) (offset : Nat) (c : UInt16) : List UInt8 :=
  (payload.set offset (c >>> 8).toUInt8).set (offset + 1) c.toUInt8

/-- The payload with one bit of one byte changed. -/
def flipBit (payload : List UInt8) (i k : Nat) : List UInt8 :=
  payload.modify i (· ^^^ UInt8.ofNat (2 ^ k))

@[simp] theorem length_stamp (payload : List UInt8) (offset : Nat) (c : UInt16) :
    (stamp payload offset c).length = payload.length := by
  simp [stamp]

@[simp] theorem length_flipBit (payload : List UInt8) (i k : Nat) :
    (flipBit payload i k).length = payload.length := by
  simp [flipBit]

theorem sum_beWords_stamp {payload : List UInt8} {offset : Nat} (heven : offset % 2 = 0)
    (hlength : offset + 2 ≤ payload.length) (c : UInt16) :
    (beWords (stamp payload offset c)).sum = (beWords (stamp payload offset 0)).sum + c.toNat := by
  have hweight : byteWeight offset = 256 ∧ byteWeight (offset + 1) = 1 :=
    ⟨if_pos heven, if_neg (by omega)⟩
  obtain ⟨x, hx⟩ : ∃ x, payload[offset]? = some x := ⟨_, List.getElem?_eq_getElem (by omega)⟩
  obtain ⟨y, hy⟩ : ∃ y, payload[offset + 1]? = some y := ⟨_, List.getElem?_eq_getElem (by omega)⟩
  have hstamp : ∀ c : UInt16, (beWords (stamp payload offset c)).sum + x.toNat * 256 + y.toNat =
      (beWords payload).sum + c.toNat := by
    intro c
    have hfirst := sum_beWords_set payload hx (c >>> 8).toUInt8
    have hsecond := sum_beWords_set (payload.set offset (c >>> 8).toUInt8) (i := offset + 1)
      (x := y) (by rw [List.getElem?_set_ne (by omega), hy]) c.toUInt8
    rw [hweight.1] at hfirst
    rw [hweight.2] at hsecond
    have hc : (c >>> 8).toUInt8.toNat * 256 + c.toUInt8.toNat = c.toNat := by
      have hlt := c.toNat_lt
      simp [Nat.shiftRight_eq_div_pow]
      omega
    rw [stamp]
    omega
  have hzero := hstamp 0
  have hc := hstamp c
  rw [UInt16.toNat_zero] at hzero
  omega

/-- A change of one bit changes the byte by a power of two. -/
theorem toNat_xor_two_pow (x : UInt8) {k : Nat} (hk : k < 8) :
    (x ^^^ UInt8.ofNat (2 ^ k)).toNat = x.toNat + 2 ^ k ∨
      (x ^^^ UInt8.ofNat (2 ^ k)).toNat + 2 ^ k = x.toNat := by
  have key : ∀ (x : Fin 256) (k : Fin 8),
      x.val ^^^ 2 ^ k.val = x.val + 2 ^ k.val ∨ (x.val ^^^ 2 ^ k.val) + 2 ^ k.val = x.val := by
    decide +kernel
  have hpow : (UInt8.ofNat (2 ^ k)).toNat = 2 ^ k := by
    rw [UInt8.toNat_ofNat']
    exact Nat.mod_eq_of_lt (Nat.pow_lt_pow_right (by decide) hk)
  rw [UInt8.toNat_xor, hpow]
  exact key ⟨x.toNat, x.toNat_lt⟩ ⟨k, hk⟩

/-- A change of one bit changes the sum by less than the all-ones word, in one direction or the
other, and not by zero. So the folded sum cannot be the same. -/
theorem sum_beWords_flipBit {payload : List UInt8} {i k : Nat} (hi : i < payload.length)
    (hk : k < 8) : ∃ d, 0 < d ∧ d < 2 ^ 16 - 1 ∧
      ((beWords (flipBit payload i k)).sum = (beWords payload).sum + d ∨
        (beWords (flipBit payload i k)).sum + d = (beWords payload).sum) := by
  obtain ⟨x, hx⟩ : ∃ x, payload[i]? = some x := ⟨_, List.getElem?_eq_getElem hi⟩
  have hflip : flipBit payload i k = payload.set i (x ^^^ UInt8.ofNat (2 ^ k)) := by
    rw [flipBit]
    exact modify_eq_set_of_getElem? hx _
  have hset := sum_beWords_set payload hx (x ^^^ UInt8.ofNat (2 ^ k))
  have hpow : 2 ^ k ≤ 128 ∧ 0 < 2 ^ k :=
    ⟨Nat.pow_le_pow_right (by decide) (by omega : k ≤ 7), Nat.two_pow_pos k⟩
  have hweight : 0 < byteWeight i ∧ byteWeight i ≤ 256 := by
    rw [byteWeight]
    split <;> omega
  refine ⟨2 ^ k * byteWeight i, Nat.mul_pos hpow.2 hweight.1, ?_, ?_⟩
  · calc 2 ^ k * byteWeight i ≤ 128 * 256 := Nat.mul_le_mul hpow.1 hweight.2
      _ < 2 ^ 16 - 1 := by decide
  · rw [hflip]
    rcases toNat_xor_two_pow x hk with hxor | hxor
    · rw [hxor, Nat.add_mul] at hset
      exact Or.inl (by omega)
    · rw [← hxor, Nat.add_mul] at hset
      exact Or.inr (by omega)

/-! ### Validation -/

section

variable {σ : Type} (lib : Ip4sum σ) {ipVersion : UInt8} (src dst : IpAddress) (ipProtocol : UInt8)

theorem u16ToBeBytes_eq_zero_iff (n : UInt16) : u16ToBeBytes n = #v[0, 0] ↔ n = 0 := by
  constructor
  · intro h
    have hhigh : (n >>> 8).toUInt8 = 0 := congrArg (·[0]) h
    have hlow : n.toUInt8 = 0 := congrArg (·[1]) h
    rw [← UInt8.toNat_inj] at hhigh hlow
    rw [← UInt16.toNat_inj]
    have hlt := n.toNat_lt
    simp [Nat.shiftRight_eq_div_pow] at hhigh hlow ⊢
    omega
  · rintro rfl
    rfl

/-- The complement of the folded sum. -/
theorem toNat_rfc1071 (buffer : List UInt8) :
    (rfc1071 buffer).toNat = 2 ^ 16 - 1 - foldCarry (2 ^ 16) (beWords buffer).sum := by
  rw [rfc1071, UInt16.toNat_ofNat']
  exact Nat.mod_eq_of_lt (by omega)

theorem rfc1071_eq_zero_iff (buffer : List UInt8) :
    rfc1071 buffer = 0 ↔ (beWords buffer).sum ≠ 0 ∧ 2 ^ 16 - 1 ∣ (beWords buffer).sum := by
  have hb : 2 ≤ 2 ^ 16 := by decide
  have hlt := foldCarry_lt hb (beWords buffer).sum
  rw [← foldCarry_eq_pred_iff hb, ← UInt16.toNat_inj, toNat_rfc1071, UInt16.toNat_zero]
  omega

/-- The exact sum of the words of the pseudo-header and the payload. -/
def wordSum (ipVersion : UInt8) (payload : List UInt8) : Nat :=
  (beWords (pseudoHeader src dst ipProtocol ipVersion (UInt32.ofNat payload.length))).sum +
    (beWords payload).sum

/-- **A payload validates** when the exact sum of the words is a positive multiple of the all-ones
word. A sum of zero does not validate. -/
theorem validateInetL4Checksum_eq (hversion : ipVersion = 4 ∨ ipVersion = 6)
    (payload : List UInt8) :
    validateInetL4Checksum lib ipVersion src dst ipProtocol payload =
      .ok (decide (wordSum src dst ipProtocol ipVersion payload ≠ 0 ∧
        2 ^ 16 - 1 ∣ wordSum src dst ipProtocol ipVersion payload)) := by
  rw [validateInetL4Checksum, inetL4Checksum_eq lib src dst ipProtocol hversion, except_ok_bind,
    except_pure, Except.ok.injEq, Bool.eq_iff_iff, beq_iff_eq, decide_eq_true_iff,
    u16ToBeBytes_eq_zero_iff, rfc1071_eq_zero_iff, beWords_append (length_pseudoHeader ..),
    List.sum_append]
  rfl

/-- **Stamping and validating.** A value stored at an even offset validates exactly when it is the
checksum of the payload with zeros there, or the other zero; and no change of a single bit keeps a
payload valid. -/
theorem validate_stamp_iff (hversion : ipVersion = 4 ∨ ipVersion = 6) :
    (∀ (payload : List UInt8) (offset : Nat), offset % 2 = 0 → offset + 2 ≤ payload.length →
      ∃ s : UInt16, inetL4Checksum lib ipVersion src dst ipProtocol (stamp payload offset 0) =
          .ok (u16ToBeBytes s) ∧
        ∀ c : UInt16, validateInetL4Checksum lib ipVersion src dst ipProtocol
            (stamp payload offset c) = .ok true ↔ c = s ∨ s = 0x0000 ∧ c = 0xffff) ∧
    ∀ (payload : List UInt8) (i k : Nat), i < payload.length → k < 8 →
      validateInetL4Checksum lib ipVersion src dst ipProtocol payload = .ok true →
      validateInetL4Checksum lib ipVersion src dst ipProtocol (flipBit payload i k) =
        .ok false := by
  have hb : 2 ≤ 2 ^ 16 := by decide
  constructor
  · intro payload offset heven hlength
    refine ⟨_, inetL4Checksum_eq lib src dst ipProtocol hversion _, fun c => ?_⟩
    -- the sum with zeros in place of the stamp, and its folded form
    set z := wordSum src dst ipProtocol ipVersion (stamp payload offset 0) with hz
    have hs : (rfc1071 (pseudoHeader src dst ipProtocol ipVersion
        (UInt32.ofNat (stamp payload offset 0).length) ++ stamp payload offset 0)).toNat =
        2 ^ 16 - 1 - foldCarry (2 ^ 16) z := by
      rw [toNat_rfc1071, beWords_append (length_pseudoHeader ..), List.sum_append]
      rfl
    have hsum : wordSum src dst ipProtocol ipVersion (stamp payload offset c) = z + c.toNat := by
      rw [hz, wordSum, wordSum, sum_beWords_stamp heven hlength, length_stamp, length_stamp,
        Nat.add_assoc]
    rw [validateInetL4Checksum_eq lib src dst ipProtocol hversion, hsum, Except.ok.injEq,
      decide_eq_true_iff, ← foldCarry_eq_pred_iff hb, foldCarry_add_eq_pred_iff hb z c.toNat_lt,
      ← hs, ← UInt16.toNat_inj, ← UInt16.toNat_inj, ← UInt16.toNat_inj]
    rfl
  · intro payload i k hi hk hvalid
    obtain ⟨d, hpos, hlt, hd⟩ := sum_beWords_flipBit hi hk
    rw [validateInetL4Checksum_eq lib src dst ipProtocol hversion, Except.ok.injEq,
      decide_eq_true_iff, wordSum] at hvalid
    rw [validateInetL4Checksum_eq lib src dst ipProtocol hversion, Except.ok.injEq,
      decide_eq_false_iff_not, wordSum, length_flipBit]
    rintro ⟨-, hdvd⟩
    obtain ⟨-, hdvd'⟩ := hvalid
    have hdiv : 2 ^ 16 - 1 ∣ d := by
      rcases hd with hd | hd
      · rw [hd, ← Nat.add_assoc] at hdvd
        exact (Nat.dvd_add_right hdvd').mp hdvd
      · rw [← hd, ← Nat.add_assoc] at hdvd'
        exact (Nat.dvd_add_right hdvd).mp hdvd'
    exact absurd (Nat.le_of_dvd hpos hdiv) (by omega)

/-- A stamp in a payload of odd length, and a change of its last byte. -/
theorem validate_stamp_iff_odd :
    (∃ s : UInt16, inetL4Checksum .direct 4 (.newFromV4 #v[10, 0, 0, 1])
          (.newFromV4 #v[10, 0, 0, 2]) 17 (stamp [1, 2, 9, 9, 5] 2 0) = .ok (u16ToBeBytes s) ∧
        ∀ c : UInt16, validateInetL4Checksum .direct 4 (.newFromV4 #v[10, 0, 0, 1])
            (.newFromV4 #v[10, 0, 0, 2]) 17 (stamp [1, 2, 9, 9, 5] 2 c) = .ok true ↔
          c = s ∨ s = 0x0000 ∧ c = 0xffff) ∧
    validateInetL4Checksum .direct 4 (.newFromV4 #v[10, 0, 0, 1]) (.newFromV4 #v[10, 0, 0, 2]) 17
      (flipBit [1, 2, 229, 228, 5] 4 7) = .ok false :=
  have h := validate_stamp_iff .direct (.newFromV4 #v[10, 0, 0, 1]) (.newFromV4 #v[10, 0, 0, 2]) 17
    (Or.inl rfl)
  ⟨h.1 [1, 2, 9, 9, 5] 2 rfl (by decide),
    h.2 [1, 2, 229, 228, 5] 4 7 (by decide) (by decide) (by decide)⟩

end

end ZprUtils.Net
