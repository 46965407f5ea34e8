import UnixIpc.Engine.Acceptor
import UnixIpc.Engine.Buffer

/-! `TcpSender`, over a `StaticBuffer` for each payload. `send` hands `size()` bytes on, and nobody
    has told the buffer its size:

        payload ──write──▶ data(), size() = 0 ──send──▶ write(fd, data(), 0)  -/

namespace UnixIpc.Engine

/-- One call of write(2) with the bytes it is handed. -/
structure WriteCall where
  fd : ℤ
  bytes : List UInt8
  deriving DecidableEq

/-- `io_operation::WriteTo`: the call it makes, over readable memory. -/
def writeTo (fd : ℤ) (buffer : List UInt8) (size : ℕ) : Except Fault WriteCall :=
  if size ≤ buffer.length then .ok ⟨fd, buffer.take size⟩ else .error .undefined

/-- `Socket::write`. -/
def Socket.write (s : Socket) (buffer : Buffer) (size : ℕ) : Except Fault WriteCall :=
  writeTo s.fd buffer.data size

/-- `TcpSender`, connected. -/
structure TcpSender where
  socket : Socket

namespace TcpSender

def send (t : TcpSender) (buffer : Buffer) : Except Fault WriteCall :=
  t.socket.write buffer buffer.size

/-- One payload: a fresh buffer, `write`, `send`. -/
def sendOne (t : TcpSender) (Capacity : ℕ) (payload : List UInt8) : Except Fault WriteCall :=
  (StaticBuffer.fresh Capacity).write payload payload.length >>= fun written =>
    t.send written.1.toBuffer

/-- The loop of the sender's main. -/
def sendEach (t : TcpSender) (Capacity : ℕ) : List (List UInt8) → Except Fault (List WriteCall)
  | [] => .ok []
  | payload :: payloads =>
    t.sendOne Capacity payload >>= fun call =>
      (t.sendEach Capacity payloads).map fun calls => call :: calls

/-- What goes to write(2) is the payloads, in order and on the sender's socket. -/
def Transmits (t : TcpSender) (Capacity : ℕ) (payloads : List (List UInt8)) : Prop :=
  ∃ calls, t.sendEach Capacity payloads = .ok calls ∧
    calls.flatMap (·.bytes) = payloads.flatten ∧ ∀ call ∈ calls, call.fd = t.socket.fd

/-- `size()` is still 0, so the call is for no bytes. -/
theorem bytes_of_sendOne {t : TcpSender} {Capacity : ℕ} {payload : List UInt8} {call : WriteCall}
    (h : t.sendOne Capacity payload = .ok call) : call = ⟨t.socket.fd, []⟩ := by
  unfold sendOne at h
  cases hw : (StaticBuffer.fresh Capacity).write payload payload.length with
  | error fault =>
    rw [hw] at h
    exact absurd h (by simp [bind, Except.bind])
  | ok written =>
    have hsize : written.1.size = 0 := StaticBuffer.size_of_write hw
    simp only [hw, bind, Except.bind, send, Socket.write, writeTo, hsize, Nat.zero_le, if_true,
      List.take_zero, Except.ok.injEq] at h
    exact h.symm

/-- An empty payload goes through. -/
theorem sendOne_nil (t : TcpSender) (Capacity : ℕ) :
    t.sendOne Capacity [] = .ok ⟨t.socket.fd, []⟩ := by
  obtain ⟨b, hb, _⟩ := (StaticBuffer.fresh Capacity).write_ok (Nat.zero_le ([] : List UInt8).length)
    (Nat.zero_le Capacity) (Nat.zero_le intMax)
  have hsize : b.size = 0 := StaticBuffer.size_of_write hb
  rw [sendOne, List.length_nil, hb]
  simp [bind, Except.bind, send, Socket.write, writeTo, hsize]

theorem bytes_of_sendEach {t : TcpSender} {Capacity : ℕ} {payloads : List (List UInt8)}
    {calls : List WriteCall} (h : t.sendEach Capacity payloads = .ok calls) :
    calls.flatMap (·.bytes) = [] := by
  induction payloads generalizing calls with
  | nil =>
    rw [sendEach, Except.ok.injEq] at h
    rw [← h]
    rfl
  | cons payload payloads ih =>
    rw [sendEach] at h
    cases hone : t.sendOne Capacity payload with
    | error fault =>
      rw [hone] at h
      exact absurd h (by simp [bind, Except.bind])
    | ok call =>
      cases hrest : t.sendEach Capacity payloads with
      | error fault =>
        rw [hone, hrest] at h
        exact absurd h (by simp [bind, Except.bind, Except.map])
      | ok rest =>
        simp only [hone, hrest, bind, Except.bind, Except.map, Except.ok.injEq] at h
        rw [← h, List.flatMap_cons, ih hrest, bytes_of_sendOne hone]
        rfl

theorem sendEach_nils (t : TcpSender) (Capacity : ℕ) {payloads : List (List UInt8)}
    (h : ∀ payload ∈ payloads, payload = []) :
    t.sendEach Capacity payloads = .ok (payloads.map fun _ => ⟨t.socket.fd, []⟩) := by
  induction payloads with
  | nil => rfl
  | cons payload payloads ih =>
    obtain ⟨rfl, hrest⟩ := List.forall_mem_cons.mp h
    rw [sendEach, sendOne_nil, ih hrest]
    rfl

/-- CORRECT: for every capacity, the payloads arrive just when there is nothing in them. -/
theorem transmits_iff (t : TcpSender) (Capacity : ℕ) (payloads : List (List UInt8)) :
    t.Transmits Capacity payloads ↔ ∀ payload ∈ payloads, payload = [] := by
  constructor
  · rintro ⟨calls, hcalls, hbytes, -⟩
    rw [bytes_of_sendEach hcalls] at hbytes
    exact List.flatten_eq_nil_iff.mp hbytes.symm
  · intro h
    refine ⟨_, sendEach_nils t Capacity h, ?_, ?_⟩
    · rw [List.flatten_eq_nil_iff.mpr h]
      simp
    · intro call hcall
      obtain ⟨_, _, rfl⟩ := List.mem_map.mp hcall
      rfl

/-- Two bytes in a buffer for four: write(2) is asked to write none. -/
theorem hi_lost : (⟨⟨3, .usual⟩⟩ : TcpSender).sendEach 4 [[104, 105]] = .ok [⟨3, []⟩] ∧
    ¬ (⟨⟨3, .usual⟩⟩ : TcpSender).Transmits 4 [[104, 105]] := by
  have hcalls : (⟨⟨3, .usual⟩⟩ : TcpSender).sendEach 4 [[104, 105]] = .ok [⟨3, []⟩] := by decide
  refine ⟨hcalls, ?_⟩
  rintro ⟨calls, hok, hbytes, -⟩
  rw [bytes_of_sendEach hok] at hbytes
  exact absurd hbytes (by decide)

end TcpSender
end UnixIpc.Engine
