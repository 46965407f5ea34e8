import UnixIpc.Clients.Dialing

/-! The UDP client and its server: one datagram, out of a buffer that nobody has initialised into
    another one.

        client   strcpy(buffer, "Hello Server\n")     │ greeting 0 │ … as it was … │
                                                          sendto(1024 bytes) ──▶
        server   recvfrom(1024 bytes), printf("%s")   │ greeting 0 │ … as it was … │ … stack

    What the server prints is up to the first NUL, wherever that is: in the datagram, in what was in
    the buffer before, or behind it. -/

namespace UnixIpc.Clients
open UnixIpc.Bytes UnixIpc.Engine

/-- What a process finds in `buffer` and behind it. -/
structure Memory where
  buffer : Block 1024
  stack : List UInt8

/-- The text of the client. -/
def greeting : List UInt8 := ascii "Hello Server\n"

/-- `strcpy(buffer, greeting)`; sendto(2) is handed all of it. -/
def datagram (m : Memory) : Option (Block 1024) := copyInto m.buffer 0 (greeting ++ [0])

/-- `buffer` after recvfrom(2) (`none`: -1); of a longer datagram the rest is discarded. -/
def received (m : Memory) (arrived : Option (List UInt8)) : List UInt8 :=
  match arrived with
  | none => m.buffer.1
  | some bytes => bytes.take 1024 ++ m.buffer.1.drop (bytes.take 1024).length

/-- What `printf("%s", buffer)` prints. -/
def printed (m : Memory) (arrived : Option (List UInt8)) : Option (List UInt8) :=
  cString (received m arrived ++ m.stack)

/-- `serverAddr` of the client and `si_me` of the server: the same stores. -/
def loopbackAddress (port : Int32) : Option SockaddrIn := do
  let address ← copyInto (zeros 16) 0 (toLE 2 afInet)
  let address ← copyInto address 2 (htons (portOf port))
  copyInto address 4 [127, 0, 0, 1]

/-- The client's datagrams go to the server just when the ports agree in 16 bits. -/
theorem loopbackAddress_eq_iff (port port' : Int32) :
    loopbackAddress port = loopbackAddress port' ↔ portOf port = portOf port' := by
  have hlaid (port : Int32) : ∃ a, loopbackAddress port = some a ∧
      Laid a (toLE 2 afInet) (htons (portOf port)) [127, 0, 0, 1] := by
    obtain ⟨a1, h1, hlaid1⟩ := laid_zeros.setFamily length_family
    obtain ⟨a2, h2, hlaid2⟩ := hlaid1.setPort (length_port (portOf port))
    have hhost : ([127, 0, 0, 1] : List UInt8).length = 4 := rfl
    obtain ⟨a3, h3, hlaid3⟩ := hlaid2.setAddr hhost
    refine ⟨a3, ?_, hlaid3⟩
    simp only [loopbackAddress, h1, h2, Option.bind_eq_bind, Option.bind_some]
    exact h3
  obtain ⟨a, ha, halaid⟩ := hlaid port
  obtain ⟨b, hb, hblaid⟩ := hlaid port'
  rw [ha, hb, Option.some.injEq, halaid.eq_iff hblaid, htons_inj]
  simp

/-- A NUL in the datagram ends the text there, whatever else is in memory. -/
theorem printed_of_mem {bytes : List UInt8} (hnul : 0 ∈ bytes.take 1024) (m : Memory) :
    printed m (some bytes) = cString (bytes.take 1024) := by
  rw [printed, received, List.append_assoc]
  exact cString_append_of_mem hnul _

theorem length_received (m : Memory) (arrived : Option (List UInt8)) :
    (received m arrived).length = 1024 := by
  unfold received
  split
  · exact m.buffer.2
  · have hle : (List.take 1024 ‹List UInt8›).length ≤ 1024 := List.length_take_le _ _
    rw [List.length_append, List.length_drop, m.buffer.2]
    omega

/-- The memory of zeros, and one without a NUL up to the end of `buffer`. -/
def quiet : Memory := ⟨zeros 1024, [0]⟩

def loud : Memory := ⟨⟨List.replicate 1024 1, List.length_replicate ..⟩, [1, 0]⟩

/-- Without a NUL in the datagram the text goes on into the memory behind it. -/
theorem printed_loud {arrived : Option (List UInt8)}
    (hnul : ∀ bytes, arrived = some bytes → 0 ∉ bytes.take 1024) :
    printed loud arrived = some (received loud arrived ++ [1]) := by
  have hbuffer : ∀ n, 0 ∉ loud.buffer.1.drop n := by
    intro n hmem
    have hone := List.eq_of_mem_replicate (List.mem_of_mem_drop hmem)
    exact absurd hone (by decide)
  have hreceived : 0 ∉ received loud arrived := by
    cases arrived with
    | none => exact hbuffer 0
    | some bytes =>
      rw [received, List.mem_append, not_or]
      exact ⟨hnul bytes rfl, hbuffer _⟩
  have hstack : loud.stack = [1] ++ [0] := rfl
  rw [printed, hstack, ← List.append_assoc, cString_append_iff]
  refine ⟨?_, rfl⟩
  rw [List.mem_append, not_or]
  exact ⟨hreceived, by decide⟩

/-- EXACT: what the server prints depends on its memory unless the datagram, as far as it fits, has a
    NUL in it; a recvfrom(2) that fails never has. -/
theorem determined_iff (arrived : Option (List UInt8)) :
    (∀ m m', printed m arrived = printed m' arrived) ↔
      ∃ bytes, arrived = some bytes ∧ 0 ∈ bytes.take 1024 := by
  constructor
  · intro hsame
    by_contra hnone
    have hnul : ∀ bytes, arrived = some bytes → 0 ∉ bytes.take 1024 := fun bytes hsome hmem =>
      hnone ⟨bytes, hsome, hmem⟩
    have htext : printed quiet arrived = some (received loud arrived ++ [1]) :=
      (hsame quiet loud).trans (printed_loud hnul)
    have hshort := length_lt_of_cString htext
    have hstack : quiet.stack.length = 1 := rfl
    rw [List.length_append, List.length_append, length_received, length_received, hstack] at hshort
    exact absurd hshort (by decide)
  · rintro ⟨bytes, rfl, hnul⟩ m m'
    rw [printed_of_mem hnul, printed_of_mem hnul]

/-- Whatever is in the memory of either, the client sends all of its buffer and the server prints
    the greeting. -/
theorem printed_datagram (m m' : Memory) : ∃ d, datagram m = some d ∧
    d.1 = greeting ++ [0] ++ m.buffer.1.drop 14 ∧ printed m' (some d.1) = some greeting := by
  have hlength : (greeting ++ [0]).length = 14 := by decide
  obtain ⟨d, hd⟩ := copyInto_isSome m.buffer 0 (greeting ++ [0]) (by rw [hlength]; omega)
  have hbytes : d.1 = greeting ++ [0] ++ m.buffer.1.drop 14 := by
    rw [(copyInto_val hd).2, Nat.zero_add, hlength, List.take_zero, List.nil_append]
  refine ⟨d, hd, hbytes, ?_⟩
  have hwhole : d.1.take 1024 = d.1 := List.take_of_length_le d.2.le
  have hnul : 0 ∈ d.1.take 1024 := by
    rw [hwhole, hbytes]
    simp
  rw [printed_of_mem hnul, hwhole, hbytes, List.append_assoc, cString_append_iff]
  exact ⟨by decide, rfl⟩

end UnixIpc.Clients
