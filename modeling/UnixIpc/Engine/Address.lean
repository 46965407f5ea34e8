import Mathlib.Data.List.TakeWhile
import UnixIpc.Lib.DottedQuad

/-! `SocketAddressIpv4`: a `sockaddr_in` and what is written into it, byte by byte.

        offset            0        2        4            8
        sockaddr_in       family   port     sin_addr     padding
        no IP address     2 0      p p      0 0 0 0      0 …       htonl(INADDR_ANY)
        IP address        a b      c d      0 0 0 0      0 …       inet_pton to &socketAddress_

    The text goes to the start of the structure, not to `sin_addr`: of the two fields filled in
    before nothing is left, and the address stays 0.0.0.0. -/

namespace UnixIpc.Engine
open UnixIpc.Bytes UnixIpc.DottedQuad

/-- `struct sockaddr_in`. -/
abbrev SockaddrIn := Block 16

/-- `AF_INET` and `INADDR_ANY`. -/
def afInet : ℕ := 2
def inaddrAny : ℕ := 0

/-- The bytes of `htons(v)` and `htonl(v)` in memory. -/
def htons (v : UInt16) : List UInt8 := (toLE 2 v.toNat).reverse
def htonl (v : ℕ) : List UInt8 := (toLE 4 v).reverse

namespace SockaddrIn

def sinFamily (a : SockaddrIn) : List UInt8 := slice a.1 0 2
def sinPort (a : SockaddrIn) : List UInt8 := slice a.1 2 2
def sinAddr (a : SockaddrIn) : List UInt8 := slice a.1 4 4

/-- The three fields are those of this address and port. -/
structure Denotes (a : SockaddrIn) (octets : Octets) (port : UInt16) : Prop where
  family : a.sinFamily = toLE 2 afInet
  port : a.sinPort = htons port
  addr : a.sinAddr = octets.1

/-- `inet_pton(AF_INET, text, (char *) &a + off)`; a text that is no address writes nothing. -/
def inetPtonAt (a : SockaddrIn) (off : ℕ) (text : List UInt8) : Option SockaddrIn :=
  match inetPton text with
  | some octets => copyInto a off octets.1
  | none => some a

end SockaddrIn

/-- `SocketAddressIpv4`. -/
structure SocketAddressIpv4 where
  ipAddress : Option (List UInt8)
  port : Int16
  socketAddress : SockaddrIn

namespace SocketAddressIpv4

/-- The constructor from a `sockaddr_in`. -/
def ofSockaddr (socketAddress : SockaddrIn) (port : Int16) : SocketAddressIpv4 :=
  ⟨none, port, socketAddress⟩

/-- `fellAddress`; `none` would be a write past the structure. -/
def fellAddress (a : SocketAddressIpv4) : Option SocketAddressIpv4 := do
  let socketAddress ← copyInto a.socketAddress 0 (toLE 2 afInet)
  let socketAddress ← copyInto socketAddress 2 (htons a.port.toUInt16)
  let socketAddress ← match a.ipAddress with
    | some ipAddress => SockaddrIn.inetPtonAt socketAddress 0 (ipAddress.takeWhile (· ≠ 0))
    | none => copyInto socketAddress 4 (htonl inaddrAny)
  pure { a with socketAddress := socketAddress }

/-- The constructor from an IP address, if there is one. -/
def ofIpAddress (ipAddress : Option (List UInt8)) (port : Int16) : Option SocketAddressIpv4 :=
  fellAddress ⟨ipAddress, port, zeros 16⟩

def getAddress (a : SocketAddressIpv4) : SockaddrIn := a.socketAddress

def copy (a : SocketAddressIpv4) : SocketAddressIpv4 := ofSockaddr a.socketAddress a.port

/-- `SocketAddressIpv4(s, p)` and its copy have the three fields they should. -/
def Builds (octets : Octets) (port : UInt16) : Prop :=
  ∃ a, ofIpAddress (some (inetNtop octets)) port.toInt16 = some a ∧
    a.getAddress.Denotes octets port ∧ a.copy.getAddress.Denotes octets port

@[simp] theorem length_htons (v : UInt16) : (htons v).length = 2 := by simp [htons]
@[simp] theorem length_htonl (v : ℕ) : (htonl v).length = 4 := by simp [htonl]

/-- Without an IP address every field is in its place, of the object and of a copy: the path the
    listeners take. -/
theorem ofIpAddress_none (port : UInt16) :
    ∃ a, ofIpAddress none port.toInt16 = some a ∧ a.getAddress.Denotes (zeros 4) port ∧
      a.copy.getAddress.Denotes (zeros 4) port := by
  obtain ⟨a1, h1⟩ := copyInto_isSome (zeros 16) 0 (toLE 2 afInet) (by simp)
  obtain ⟨a2, h2⟩ := copyInto_isSome a1 2 (htons port) (by simp)
  obtain ⟨a3, h3⟩ := copyInto_isSome a2 4 (htonl inaddrAny) (by simp)
  have hfields : SockaddrIn.Denotes a3 (zeros 4) port := by
    constructor
    · rw [SockaddrIn.sinFamily, slice_copyInto_below h3 (by simp),
        slice_copyInto_below h2 (by simp)]
      simpa using slice_copyInto h1
    · rw [SockaddrIn.sinPort, slice_copyInto_below h3 (by simp)]
      simpa using slice_copyInto h2
    · have haddr := slice_copyInto h3
      rw [length_htonl] at haddr
      exact haddr.trans (by decide)
  have hbuilt : ofIpAddress none port.toInt16 = some ⟨none, port.toInt16, a3⟩ := by
    simp [ofIpAddress, fellAddress, h1, h2, h3]
  exact ⟨⟨none, port.toInt16, a3⟩, hbuilt, hfields, hfields⟩

/-- With one, the octets are where family and port were, and the address is still zero. -/
theorem ofIpAddress_some {octets : Octets} {port : Int16} {a : SocketAddressIpv4}
    (h : ofIpAddress (some (inetNtop octets)) port = some a) :
    slice a.getAddress.1 0 4 = octets.1 ∧ a.getAddress.sinAddr = (zeros 4).1 := by
  have hstring : (inetNtop octets).takeWhile (· ≠ 0) = inetNtop octets := by
    refine List.takeWhile_eq_self_iff.mpr fun byte hbyte => decide_eq_true ?_
    rintro rfl
    exact nul_not_mem_inetNtop octets hbyte
  simp only [ofIpAddress, fellAddress, Option.bind_eq_bind, Option.bind_eq_some_iff, hstring,
    SockaddrIn.inetPtonAt, inetPton_inetNtop, pure, Option.some.injEq] at h
  obtain ⟨a1, h1, a2, h2, a3, h3, rfl⟩ := h
  have hfour := octets.2
  constructor
  · have hfront := slice_copyInto h3
    rwa [hfour] at hfront
  · rw [SockaddrIn.sinAddr, getAddress, slice_copyInto_above h3 (by omega),
      slice_copyInto_above h2 (by simp), slice_copyInto_above h1 (by simp)]
    rfl

/-- CORRECT: for no address and port is the structure the one asked for. -/
theorem never_builds (octets : Octets) (port : UInt16) : ¬ Builds octets port := by
  rintro ⟨a, ha, hdenotes, -⟩
  obtain ⟨hfront, hzero⟩ := ofIpAddress_some ha
  -- the family would be the first two octets, and these are 0 like `sin_addr`
  have hoctets : octets.1 = (zeros 4).1 := hdenotes.addr.symm.trans hzero
  have hfamily : a.getAddress.sinFamily = (slice a.getAddress.1 0 4).take 2 := by
    rw [SockaddrIn.sinFamily, slice, slice, List.take_take]
    rfl
  rw [hfront, hoctets, hdenotes.family] at hfamily
  exact absurd hfamily (by decide)

/-- 127.0.0.1 and port 8080: the structure begins with the octets of the address. -/
theorem loopback_misplaced :
    ((ofIpAddress (some (ascii "127.0.0.1")) 8080).map fun a => a.getAddress.1) =
        some [127, 0, 0, 1, 0, 0, 0, 0, 0, 0, 0, 0, 0, 0, 0, 0] ∧
      ¬ Builds ⟨[127, 0, 0, 1], rfl⟩ 8080 := by
  refine ⟨by decide +kernel, ?_⟩
  rintro ⟨a, ha, hdenotes, -⟩
  have hzero := (ofIpAddress_some ha).2
  rw [hdenotes.addr] at hzero
  exact absurd hzero (by decide)

end SocketAddressIpv4
end UnixIpc.Engine
