import UnixIpc.Engine.Address

/-! The structures that connect(2) gets, against those that bind(2) gets, byte by byte.

        offset                        0      2      4          8
        bound                         2 0    p p    0 0 0 0    0 …
        clients, text no address      2 0    p p    0 0 0 0    0 …
        tcp_client, text a.b.c.d      a b    p p    0 0 0 0    0 …
        engine, text a.b.c.d          a b    c d    0 0 0 0    0 …

    The client of the multiplex servers writes the port behind the address, the engine before it. So
    they do reach a server, but not for the text they should (`dials_iff`, `engine_dials_iff`). -/

namespace UnixIpc.Clients
open UnixIpc.Bytes UnixIpc.DottedQuad UnixIpc.Engine

/-- `htons(std::stoi(..))`: the `int` becomes a `uint16_t`. -/
def portOf (port : Int32) : UInt16 := port.toUInt32.toUInt16

/-- The C string of an argument. -/
def argument (text : List UInt8) : List UInt8 := text.takeWhile (· ≠ 0)

/-- `serverAddress` of the client, where it calls connect(2). -/
def serverAddress (ip : List UInt8) (port : Int32) : Option SockaddrIn := do
  let address ← copyInto (zeros 16) 0 (toLE 2 afInet)
  let address ← SockaddrIn.inetPtonAt address 0 (argument ip)
  copyInto address 2 (htons (portOf port))

/-- `serverAddress` of the three TCP servers, where they call bind(2). -/
def boundAddress (port : Int32) : Option SockaddrIn := do
  let address ← copyInto (zeros 16) 0 (toLE 2 afInet)
  let address ← copyInto address 4 (htonl inaddrAny)
  copyInto address 2 (htons (portOf port))

/-- The structure of an engine's client, which `Socket::connect` hands on, and of its listener. -/
def engineAddress (ip : Option (List UInt8)) (port : Int16) : Option SockaddrIn :=
  (SocketAddressIpv4.ofIpAddress ip port).map SocketAddressIpv4.getAddress

/-! ### Layout -/

/-- The structure with these fields, and no padding set. -/
structure Laid (a : SockaddrIn) (family port addr : List UInt8) : Prop where
  bytes : a.1 = family ++ (port ++ (addr ++ List.replicate 8 0))
  family : family.length = 2
  port : port.length = 2
  addr : addr.length = 4

section Laid
variable {a : SockaddrIn} {family port addr : List UInt8}

theorem laid_zeros : Laid (zeros 16) [0, 0] [0, 0] [0, 0, 0, 0] := ⟨rfl, rfl, rfl, rfl⟩

theorem Laid.setFamily (h : Laid a family port addr) {src : List UInt8} (hsrc : src.length = 2) :
    ∃ b, copyInto a 0 src = some b ∧ Laid b src port addr := by
  have hbytes : a.1 = [] ++ family ++ (port ++ (addr ++ List.replicate 8 0)) := h.bytes
  obtain ⟨b, hb, hnew⟩ := copyInto_middle hbytes (h.family.trans hsrc.symm)
  exact ⟨b, hb, hnew, hsrc, h.port, h.addr⟩

theorem Laid.setPort (h : Laid a family port addr) {src : List UInt8} (hsrc : src.length = 2) :
    ∃ b, copyInto a 2 src = some b ∧ Laid b family src addr := by
  have hbytes : a.1 = family ++ port ++ (addr ++ List.replicate 8 0) :=
    h.bytes.trans (List.append_assoc ..).symm
  obtain ⟨b, hb, hnew⟩ := copyInto_middle hbytes (h.port.trans hsrc.symm)
  rw [h.family] at hb
  exact ⟨b, hb, hnew.trans (List.append_assoc ..), h.family, hsrc, h.addr⟩

theorem Laid.setAddr (h : Laid a family port addr) {src : List UInt8} (hsrc : src.length = 4) :
    ∃ b, copyInto a 4 src = some b ∧ Laid b family port src := by
  have hbytes : a.1 = family ++ port ++ addr ++ List.replicate 8 0 := by
    rw [h.bytes, List.append_assoc, List.append_assoc]
  obtain ⟨b, hb, hnew⟩ := copyInto_middle hbytes (h.addr.trans hsrc.symm)
  rw [List.length_append, h.family, h.port] at hb
  refine ⟨b, hb, ?_, h.family, h.port, hsrc⟩
  rw [hnew, List.append_assoc, List.append_assoc]

/-- Four octets at the start of the structure are its family and its port. -/
theorem Laid.setFront (h : Laid a family port addr) {x y z w : UInt8} :
    ∃ b, copyInto a 0 [x, y, z, w] = some b ∧ Laid b [x, y] [z, w] addr := by
  have hbytes : a.1 = [] ++ (family ++ port) ++ (addr ++ List.replicate 8 0) :=
    h.bytes.trans (List.append_assoc ..).symm
  have hlength : (family ++ port).length = [x, y, z, w].length := by
    rw [List.length_append, h.family, h.port]
    rfl
  obtain ⟨b, hb, hnew⟩ := copyInto_middle hbytes hlength
  exact ⟨b, hb, hnew, rfl, rfl, h.addr⟩

/-- The fields make the structure. -/
theorem Laid.eq_iff {b : SockaddrIn} {family' port' addr' : List UInt8}
    (ha : Laid a family port addr) (hb : Laid b family' port' addr') :
    a = b ↔ family = family' ∧ port = port' ∧ addr = addr' := by
  rw [← Subtype.val_inj, ha.bytes, hb.bytes]
  constructor
  · intro h
    obtain ⟨hfamily, h⟩ := List.append_inj h (ha.family.trans hb.family.symm)
    obtain ⟨hport, h⟩ := List.append_inj h (ha.port.trans hb.port.symm)
    exact ⟨hfamily, hport, (List.append_inj h (ha.addr.trans hb.addr.symm)).1⟩
  · rintro ⟨rfl, rfl, rfl⟩
    rfl

theorem length_family : (toLE 2 afInet).length = 2 := length_toLE 2 afInet

theorem length_port (port : UInt16) : (htons port).length = 2 := SocketAddressIpv4.length_htons port

theorem length_addr : (htonl inaddrAny).length = 4 := SocketAddressIpv4.length_htonl inaddrAny

theorem htonl_inaddrAny : htonl inaddrAny = [0, 0, 0, 0] := by decide

theorem htons_inj {port port' : UInt16} : htons port = htons port' ↔ port = port' := by
  constructor
  · intro h
    have hle : toLE 2 port.toNat = toLE 2 port'.toNat := List.reverse_inj.mp h
    have hback := congrArg ofLE hle
    rw [ofLE_toLE_of_lt port.toNat_lt, ofLE_toLE_of_lt port'.toNat_lt] at hback
    exact UInt16.toNat_inj.mp hback
  · rintro rfl
    rfl

end Laid

/-! ### Client and servers -/

theorem boundAddress_laid (port : Int32) : ∃ b, boundAddress port = some b ∧
    Laid b (toLE 2 afInet) (htons (portOf port)) (htonl inaddrAny) := by
  obtain ⟨b1, h1, hlaid1⟩ := laid_zeros.setFamily length_family
  obtain ⟨b2, h2, hlaid2⟩ := hlaid1.setAddr length_addr
  obtain ⟨b3, h3, hlaid3⟩ := hlaid2.setPort (length_port (portOf port))
  refine ⟨b3, ?_, hlaid3⟩
  simp only [boundAddress, h1, h2, Option.bind_eq_bind, Option.bind_some]
  exact h3

/-- The family that the client leaves: the start of its text where that is an address. -/
def familyOf (ip : List UInt8) : List UInt8 :=
  match inetPton (argument ip) with
  | some octets => octets.1.take 2
  | none => toLE 2 afInet

theorem serverAddress_laid (ip : List UInt8) (port : Int32) : ∃ c, serverAddress ip port = some c ∧
    Laid c (familyOf ip) (htons (portOf port)) [0, 0, 0, 0] := by
  obtain ⟨c1, h1, hlaid1⟩ := laid_zeros.setFamily length_family
  obtain ⟨c2, port', h2, hlaid2⟩ : ∃ c2 port', SockaddrIn.inetPtonAt c1 0 (argument ip) = some c2 ∧
      Laid c2 (familyOf ip) port' [0, 0, 0, 0] := by
    unfold SockaddrIn.inetPtonAt familyOf
    cases inetPton (argument ip) with
    | none => exact ⟨c1, _, rfl, hlaid1⟩
    | some octets =>
      obtain ⟨x, y, z, w, hoctets⟩ := octets.exists_eq
      obtain ⟨c2, h2, hlaid2⟩ := @Laid.setFront _ _ _ _ hlaid1 x y z w
      dsimp only
      rw [hoctets]
      exact ⟨c2, [z, w], h2, hlaid2⟩
  obtain ⟨c3, h3, hlaid3⟩ := hlaid2.setPort (length_port (portOf port))
  refine ⟨c3, ?_, hlaid3⟩
  simp only [serverAddress, h1, h2, Option.bind_eq_bind, Option.bind_some]
  exact h3

/-- EXACT: the client dials what a server has bound just when the ports agree in 16 bits and its text
    is no address, or one that begins with 2.0. -/
theorem dials_iff (ip : List UInt8) (port port' : Int32) :
    serverAddress ip port = boundAddress port' ↔
      (∀ octets, inetPton (argument ip) = some octets → octets.1.take 2 = [2, 0]) ∧
        portOf port = portOf port' := by
  obtain ⟨c, hc, hclient⟩ := serverAddress_laid ip port
  obtain ⟨b, hb, hserver⟩ := boundAddress_laid port'
  have hfamily : familyOf ip = toLE 2 afInet ↔
      ∀ octets, inetPton (argument ip) = some octets → octets.1.take 2 = [2, 0] := by
    unfold familyOf
    cases inetPton (argument ip) with
    | none => simp
    | some octets =>
      dsimp only
      constructor
      · rintro h _ hsome
        rw [← Option.some.inj hsome, h]
        rfl
      · intro h
        exact (h octets rfl).trans rfl
  rw [hc, hb, Option.some.injEq, hclient.eq_iff hserver, hfamily, htons_inj]
  exact and_congr_right fun _ => and_iff_left htonl_inaddrAny.symm

/-! ### The engine -/

theorem engineAddress_none (port : Int16) : ∃ b, engineAddress none port = some b ∧
    Laid b (toLE 2 afInet) (htons port.toUInt16) (htonl inaddrAny) := by
  obtain ⟨b1, h1, hlaid1⟩ := laid_zeros.setFamily length_family
  obtain ⟨b2, h2, hlaid2⟩ := hlaid1.setPort (length_port port.toUInt16)
  obtain ⟨b3, h3, hlaid3⟩ := hlaid2.setAddr length_addr
  refine ⟨b3, ?_, hlaid3⟩
  simp [engineAddress, SocketAddressIpv4.ofIpAddress, SocketAddressIpv4.fellAddress, h1, h2, h3,
    SocketAddressIpv4.getAddress]

theorem engineAddress_some (ip : List UInt8) (port : Int16) :
    ∃ c family port', engineAddress (some ip) port = some c ∧
      Laid c family port' [0, 0, 0, 0] ∧
      family ++ port' = (inetPton (argument ip)).elim (toLE 2 afInet ++ htons port.toUInt16) (·.1) := by
  obtain ⟨c1, h1, hlaid1⟩ := laid_zeros.setFamily length_family
  obtain ⟨c2, h2, hlaid2⟩ := hlaid1.setPort (length_port port.toUInt16)
  obtain ⟨c3, family, port', h3, hlaid3, hfields⟩ : ∃ c3 family port',
      SockaddrIn.inetPtonAt c2 0 (argument ip) = some c3 ∧ Laid c3 family port' [0, 0, 0, 0] ∧
        family ++ port' =
          (inetPton (argument ip)).elim (toLE 2 afInet ++ htons port.toUInt16) (·.1) := by
    unfold SockaddrIn.inetPtonAt
    cases inetPton (argument ip) with
    | none => exact ⟨c2, _, _, rfl, hlaid2, rfl⟩
    | some octets =>
      obtain ⟨x, y, z, w, hoctets⟩ := octets.exists_eq
      obtain ⟨c3, h3, hlaid3⟩ := @Laid.setFront _ _ _ _ hlaid2 x y z w
      dsimp only
      rw [Option.elim_some, hoctets]
      exact ⟨c3, [x, y], [z, w], h3, hlaid3, rfl⟩
  refine ⟨c3, family, port', ?_, hlaid3, hfields⟩
  unfold argument at h3
  simp only [engineAddress, SocketAddressIpv4.ofIpAddress, SocketAddressIpv4.fellAddress,
    Option.bind_eq_bind, h1, h2, h3, Option.bind_some]
  rfl

/-- EXACT: an engine's client dials what a listener has bound just when the ports agree and its text
    is no address, or when its text is 2.0 and the two bytes of the listener's port. -/
theorem engine_dials_iff (ip : List UInt8) (port port' : Int16) :
    engineAddress (some ip) port = engineAddress none port' ↔
      match inetPton (argument ip) with
      | none => port = port'
      | some octets => octets.1 = [2, 0] ++ htons port'.toUInt16 := by
  obtain ⟨c, family, number, hc, hclient, hfields⟩ := engineAddress_some ip port
  obtain ⟨b, hb, hlistener⟩ := engineAddress_none port'
  have hboth : family = toLE 2 afInet ∧ number = htons port'.toUInt16 ↔
      family ++ number = [2, 0] ++ htons port'.toUInt16 := by
    constructor
    · rintro ⟨rfl, rfl⟩
      rfl
    · intro h
      exact List.append_inj h (hclient.family.trans rfl)
  rw [hc, hb, Option.some.injEq, hclient.eq_iff hlistener, ← and_assoc, hboth, hfields,
    and_iff_left htonl_inaddrAny.symm]
  cases inetPton (argument ip) with
  | none =>
    show toLE 2 afInet ++ htons port.toUInt16 = toLE 2 afInet ++ htons port'.toUInt16 ↔ port = port'
    rw [List.append_cancel_left_eq, htons_inj]
    refine ⟨fun h => ?_, congrArg Int16.toUInt16⟩
    cases port
    cases port'
    exact congrArg Int16.ofUInt16 h
  | some octets => exact Iff.rfl

end UnixIpc.Clients
