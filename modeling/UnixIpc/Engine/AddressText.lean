import UnixIpc.Engine.Address

/-! `getAddressStr` keeps its text in a static buffer that every object shares, with a static flag
    that says it is filled. Whoever is asked first fills it, with the text of the four bytes at
    `&socketAddress_`: the family and the port, not the address.

        calls      a.getAddressStr   b.getAddressStr   a.getAddressStr …
        statics    fills             —                 —
        answers    "2.0.31.144"      the same          the same          (a's port is 8080) -/

namespace UnixIpc.Engine
open UnixIpc.Bytes UnixIpc.DottedQuad

theorem SockaddrIn.length_slice (a : SockaddrIn) {off : ℕ} (h : off + 4 ≤ 16) :
    (slice a.1 off 4).length = 4 := by
  rw [slice, List.length_take, List.length_drop, a.2]
  omega

/-- The four bytes from an offset on. -/
def SockaddrIn.octetsAt (a : SockaddrIn) (off : ℕ) (h : off + 4 ≤ 16) : Octets :=
  ⟨slice a.1 off 4, a.length_slice h⟩

/-- What &socketAddress_ points to, read as an address. -/
def SockaddrIn.front (a : SockaddrIn) : Octets := a.octetsAt 0 (by decide)

/-- `sin_addr`. -/
def SockaddrIn.address (a : SockaddrIn) : Octets := a.octetsAt 4 (by decide)

/-- `addressBuff` and `isEvalSocketAddress`. -/
structure AddressStatics where
  addressBuff : Block 16
  isEvalSocketAddress : Bool

/-- Both as the program starts. -/
def AddressStatics.initial : AddressStatics := ⟨zeros 16, false⟩

namespace SocketAddressIpv4

/-- `inet_ntop` into `addressBuff`: the text and its terminator, or nothing if there is no room. -/
def formatInto (octets : Octets) (addressBuff : Block 16) : Block 16 :=
  (copyInto addressBuff 0 (inetNtop octets ++ [0])).getD addressBuff

/-- `getAddressStr`: the string at `addressBuff.data()`, and the statics after it. -/
def getAddressStr (a : SocketAddressIpv4) (statics : AddressStatics) :
    Option (List UInt8) × AddressStatics :=
  let statics :=
    if statics.isEvalSocketAddress then statics
    else ⟨formatInto a.socketAddress.front statics.addressBuff, true⟩
  (cString statics.addressBuff.1, statics)

end SocketAddressIpv4

/-- `Socket::addressStr`, on a socket with this `address_`. -/
def addressStr (address : Option SocketAddressIpv4) (statics : AddressStatics) :
    Option (List UInt8) × AddressStatics :=
  match address with
  | none => (some [], statics)
  | some a => a.getAddressStr statics

/-- A call for a text, on an address or on a socket with or without one. -/
inductive TextCall where
  | getAddressStr (a : SocketAddressIpv4)
  | addressStr (address : Option SocketAddressIpv4)

namespace TextCall

/-- The address whose text is asked for. -/
def object : TextCall → Option SocketAddressIpv4
  | .getAddressStr a => some a
  | .addressStr address => address

def run (statics : AddressStatics) : TextCall → Option (List UInt8) × AddressStatics
  | .getAddressStr a => a.getAddressStr statics
  | .addressStr address => Engine.addressStr address statics

/-- The answers to a sequence of calls. -/
def answers (statics : AddressStatics) : List TextCall → List (Option (List UInt8))
  | [] => []
  | call :: calls => (call.run statics).1 :: answers (call.run statics).2 calls

/-- The answer is the text of the object's own `sin_addr`. -/
def Right (call : TextCall) (answer : Option (List UInt8)) : Prop :=
  ∀ a, call.object = some a → answer = some (inetNtop a.socketAddress.address)

/-- The addresses asked for, in the order of the calls. -/
def objects (calls : List TextCall) : List SocketAddressIpv4 := calls.filterMap object

theorem run_of_none {call : TextCall} (h : call.object = none) (statics : AddressStatics) :
    call.run statics = (some [], statics) := by
  cases call with
  | getAddressStr a => cases h
  | addressStr address =>
    obtain rfl : address = none := h
    rfl

theorem run_of_some {call : TextCall} {a : SocketAddressIpv4} (h : call.object = some a)
    (statics : AddressStatics) : call.run statics = a.getAddressStr statics := by
  cases call with
  | getAddressStr b =>
    obtain rfl : b = a := Option.some.inj h
    rfl
  | addressStr address =>
    obtain rfl : address = some a := h
    rfl

theorem objects_cons_none {call : TextCall} (h : call.object = none) (calls : List TextCall) :
    objects (call :: calls) = objects calls := List.filterMap_cons_none h

theorem objects_cons_some {call : TextCall} {a : SocketAddressIpv4} (h : call.object = some a)
    (calls : List TextCall) : objects (call :: calls) = a :: objects calls :=
  List.filterMap_cons_some h

theorem right_of_none {call : TextCall} (h : call.object = none) (answer : Option (List UInt8)) :
    call.Right answer := by
  intro a ha
  rw [h] at ha
  cases ha

theorem right_iff {call : TextCall} {a : SocketAddressIpv4} (h : call.object = some a)
    (octets : Octets) :
    call.Right (some (inetNtop octets)) ↔ a.socketAddress.address = octets := by
  constructor
  · intro hright
    exact (inetNtop_injective (Option.some.inj (hright a h))).symm
  · rintro rfl b hb
    obtain rfl : a = b := Option.some.inj (h.symm.trans hb)
    rfl

end TextCall

/-! ### The statics -/

/-- They are filled, with the text of these octets. -/
structure AddressStatics.Shows (statics : AddressStatics) (octets : Octets) : Prop where
  filled : statics.isEvalSocketAddress = true
  text : cString statics.addressBuff.1 = some (inetNtop octets)

theorem cString_formatInto (octets : Octets) (addressBuff : Block 16) :
    cString (SocketAddressIpv4.formatInto octets addressBuff).1 = some (inetNtop octets) := by
  have hlen := length_inetNtop_le octets
  obtain ⟨b, hb⟩ := copyInto_isSome addressBuff 0 (inetNtop octets ++ [0]) (by
    simp only [List.length_append, List.length_singleton]
    omega)
  rw [SocketAddressIpv4.formatInto, hb, Option.getD_some, (copyInto_val hb).2, List.take_zero,
    List.nil_append, List.append_assoc, cString_append_iff]
  exact ⟨nul_not_mem_inetNtop octets, rfl⟩

namespace SocketAddressIpv4

/-- The first call fills them, for its own object. -/
theorem getAddressStr_first (a : SocketAddressIpv4) {statics : AddressStatics}
    (h : statics.isEvalSocketAddress = false) :
    (a.getAddressStr statics).1 = some (inetNtop a.socketAddress.front) ∧
      (a.getAddressStr statics).2.Shows a.socketAddress.front := by
  have htext := cString_formatInto a.socketAddress.front statics.addressBuff
  have hrun : a.getAddressStr statics =
      (cString (formatInto a.socketAddress.front statics.addressBuff).1,
        ⟨formatInto a.socketAddress.front statics.addressBuff, true⟩) := by
    simp [getAddressStr, h]
  rw [hrun]
  exact ⟨htext, rfl, htext⟩

/-- STEP: every later call, on whatever object, finds them filled and leaves them. -/
theorem getAddressStr_later (a : SocketAddressIpv4) {statics : AddressStatics} {octets : Octets}
    (h : statics.Shows octets) : a.getAddressStr statics = (some (inetNtop octets), statics) := by
  simp only [getAddressStr, h.filled, if_true, h.text]

end SocketAddressIpv4

namespace TextCall

/-- RUN: once the statics are filled, the answers are right for one address only. -/
theorem right_iff_of_shows {statics : AddressStatics} {octets : Octets} (h : statics.Shows octets)
    (calls : List TextCall) : List.Forall₂ Right calls (answers statics calls) ↔
      ∀ a ∈ objects calls, a.socketAddress.address = octets := by
  induction calls with
  | nil => simp [answers, objects]
  | cons call calls ih =>
    rw [answers, List.forall₂_cons]
    cases hobject : call.object with
    | none =>
      rw [run_of_none hobject, ih, objects_cons_none hobject]
      exact and_iff_right (right_of_none hobject _)
    | some a =>
      rw [run_of_some hobject, a.getAddressStr_later h, ih, objects_cons_some hobject,
        List.forall_mem_cons, right_iff hobject]

/-- CORRECT: from the start of the program, every call in a sequence is answered with the text of
    its own object exactly when the `sin_addr` of every object asked is what the structure of the
    first one asked begins with. -/
theorem all_right_iff (calls : List TextCall) :
    List.Forall₂ Right calls (answers .initial calls) ↔
      ∀ first, (objects calls).head? = some first →
        ∀ a ∈ objects calls, a.socketAddress.address = first.socketAddress.front := by
  induction calls with
  | nil => simp [answers, objects]
  | cons call calls ih =>
    rw [answers, List.forall₂_cons]
    cases hobject : call.object with
    | none =>
      rw [run_of_none hobject, ih, objects_cons_none hobject]
      exact and_iff_right (right_of_none hobject _)
    | some a =>
      have hstart : AddressStatics.initial.isEvalSocketAddress = false := rfl
      obtain ⟨hanswer, hshows⟩ := a.getAddressStr_first hstart
      rw [run_of_some hobject, hanswer, right_iff_of_shows hshows, right_iff hobject,
        objects_cons_some hobject]
      constructor
      · rintro hall first hfirst
        obtain rfl : a = first := Option.some.inj hfirst
        exact List.forall_mem_cons.mpr hall
      · intro hall
        exact List.forall_mem_cons.mp (hall a rfl)

/-- A client at 192.168.0.7, port 8080, as accept(2) reports it. -/
def client : SocketAddressIpv4 :=
  .ofSockaddr ⟨[2, 0, 31, 144, 192, 168, 0, 7, 0, 0, 0, 0, 0, 0, 0, 0], rfl⟩ 0

/-- Its text is that of its family and port. -/
theorem family_and_port_shown :
    answers .initial [.addressStr (some client)] = [some (ascii "2.0.31.144")] ∧
      ¬ List.Forall₂ Right [.addressStr (some client)]
        (answers .initial [.addressStr (some client)]) := by
  have hanswer : answers .initial [.addressStr (some client)] = [some (ascii "2.0.31.144")] := by
    decide +kernel
  refine ⟨hanswer, ?_⟩
  rw [hanswer, List.forall₂_cons]
  rintro ⟨hright, -⟩
  exact absurd (hright client rfl) (by decide +kernel)

end TextCall
end UnixIpc.Engine
