import UnixIpc.Engine.Sender

/-! What a transfer reports, from the system call up to the caller:

        read(2), write(2)   ssize_t   -1, or 0 … size
        ReadFrom, WriteTo   size_t    n, after a test n < 0 that no size_t passes
        Socket, TcpSender   IOResult  Ok(n)

    A failed call leaves the first line as -1 and the second as 2^64-1, and is Ok in the third. -/

namespace UnixIpc.Engine

section Operations

/-- What read(2) or write(2) does for a request of `size` bytes: it fails, or moves `n` of them. -/
abbrev Transfer (size : ℕ) := Option {n : ℕ // n ≤ size ∧ n < 2 ^ 63}

/-- The same for read(2), with the bytes. -/
abbrev Incoming (size : ℕ) :=
  Option {bytes : List UInt8 // bytes.length ≤ size ∧ bytes.length < 2 ^ 63}

/-- What becomes of a call of write(2): it returns, or its peer is gone and it raises SIGPIPE, which
    nothing here ignores. -/
inductive Written (size : ℕ) where
  | returned (transfer : Transfer size)
  | sigpipe
  deriving DecidableEq

variable {size : ℕ}

/-- The `ssize_t` the call returns. -/
def Transfer.ret : Transfer size → Int64
  | none => -1
  | some n => Int64.ofNat n.1

def Incoming.transfer (incoming : Incoming size) : Transfer size :=
  incoming.map fun bytes => ⟨bytes.1.length, bytes.2⟩

/-- The memory from `buffer` on after the read. -/
def Incoming.over (incoming : Incoming size) (buffer : List UInt8) : List UInt8 :=
  match incoming with
  | none => buffer
  | some bytes => bytes.1 ++ buffer.drop bytes.1.length

/-! ### io_operation -/

namespace IoOperation

/-- The text of the `std::runtime_error` of both functions. -/
def errorText : String := "error when attempt read data from file descriptor"

/-- `ReadFrom`, with the memory from `buffer` on. -/
def readFrom (buffer : List UInt8) (incoming : Incoming size) :
    Except String (UInt64 × List UInt8) :=
  let n := incoming.transfer.ret.toUInt64
  if n < 0 then .error errorText else .ok (n, incoming.over buffer)

/-- `WriteTo`. -/
def writeTo (transfer : Transfer size) : Except String UInt64 :=
  let n := transfer.ret.toUInt64
  if n < 0 then .error errorText else .ok n

/-- `ClearBuffer`. -/
def clearBuffer (buffer : List UInt8) (size : ℕ) : List UInt8 :=
  List.replicate size 0 ++ buffer.drop size

/-- No `size_t` is negative: neither function ever throws. -/
theorem readFrom_eq (buffer : List UInt8) (incoming : Incoming size) :
    readFrom buffer incoming = .ok (incoming.transfer.ret.toUInt64, incoming.over buffer) := by
  rw [readFrom]
  exact if_neg UInt64.not_lt_zero

theorem writeTo_eq (transfer : Transfer size) :
    writeTo transfer = .ok transfer.ret.toUInt64 := by
  rw [writeTo]
  exact if_neg UInt64.not_lt_zero

end IoOperation

/-- A count survives the conversions. -/
theorem Transfer.toUInt64_ret_some (n : {n : ℕ // n ≤ size ∧ n < 2 ^ 63}) :
    (Transfer.ret (some n)).toUInt64.toNat = n.1 := by
  have hn := n.2.2
  rw [ret, Int64.toUInt64_ofNat', UInt64.toNat_ofNat']
  exact Nat.mod_eq_of_lt (by omega)

/-! ### Socket and TcpSender -/

/-- `enum class SocketState`. -/
inductive SocketState where
  | close | open | undefinedError
  deriving DecidableEq

/-- `util::Result<size_t, SocketState>`. -/
inductive IOResult where
  | ok (value : UInt64)
  | error (error : SocketState)
  deriving DecidableEq

/-- `Socket::read`: the result, and the buffer after it. The count becomes the result by way of the
    constructor for values. -/
def Socket.read (_ : Socket) (buffer : Buffer) (incoming : Incoming size) :
    Except String (IOResult × Buffer) :=
  (IoOperation.readFrom buffer.data incoming).map fun read =>
    (.ok read.1, { buffer with data := read.2 })

/-- What `Socket::write` returns when its call of write(2) is answered. -/
def Socket.written (_ : Socket) (_ : Buffer) (transfer : Transfer size) : Except String IOResult :=
  (IoOperation.writeTo transfer).map .ok

/-- What `TcpSender::send` returns. -/
def TcpSender.sent (t : TcpSender) (buffer : Buffer) (transfer : Transfer buffer.size) :
    Except String IOResult :=
  t.socket.written buffer transfer

end Operations

/-- A call, and how the system answers it. -/
inductive IOCall where
  | read (socket : Socket) (buffer : Buffer) (size : ℕ) (incoming : Incoming size)
  | write (socket : Socket) (buffer : Buffer) (size : ℕ) (transfer : Transfer size)
  | send (sender : TcpSender) (buffer : Buffer) (transfer : Transfer buffer.size)

namespace IOCall

/-- The requested size. -/
def size : IOCall → ℕ
  | .read _ _ size _ => size
  | .write _ _ size _ => size
  | .send _ buffer _ => buffer.size

def transfer : (call : IOCall) → Transfer call.size
  | .read _ _ _ incoming => incoming.transfer
  | .write _ _ _ transfer => transfer
  | .send _ _ transfer => transfer

def result : IOCall → Except String IOResult
  | .read socket buffer _ incoming => (socket.read buffer incoming).map Prod.fst
  | .write socket buffer _ transfer => socket.written buffer transfer
  | .send sender buffer transfer => sender.sent buffer transfer

/-- Ok(n) stands for exactly n bytes moved, of at most as many as were asked for. -/
def Truthful (call : IOCall) : Prop :=
  ∀ n, call.result = .ok (.ok n) →
    (∃ moved, call.transfer = some moved ∧ moved.1 = n.toNat) ∧ n.toNat ≤ call.size

/-- Every call is Ok, with whatever the unsigned variable holds. -/
theorem result_eq (call : IOCall) : call.result = .ok (.ok call.transfer.ret.toUInt64) := by
  cases call with
  | read socket buffer size incoming =>
    rw [result, Socket.read, IoOperation.readFrom_eq]
    rfl
  | write socket buffer size transfer =>
    rw [result, Socket.written, IoOperation.writeTo_eq]
    rfl
  | send sender buffer transfer =>
    rw [result, TcpSender.sent, Socket.written, IoOperation.writeTo_eq]
    rfl

theorem truthful_iff (call : IOCall) : call.Truthful ↔ call.transfer ≠ none := by
  constructor
  · intro h hfailed
    obtain ⟨⟨moved, hmoved, -⟩, -⟩ := h _ call.result_eq
    rw [hfailed] at hmoved
    cases hmoved
  · intro h n hn
    obtain ⟨moved, hmoved⟩ := Option.ne_none_iff_exists'.mp h
    have hcount : n.toNat = moved.1 := by
      rw [result_eq, hmoved, Except.ok.injEq, IOResult.ok.injEq] at hn
      rw [← hn, Transfer.toUInt64_ret_some]
    exact ⟨⟨moved, hmoved, hcount.symm⟩, hcount.trans_le moved.2.1⟩

/-- CORRECT: the results of a sequence of calls are truthful exactly when none of them fails. -/
theorem all_truthful_iff (calls : List IOCall) :
    (∀ call ∈ calls, call.Truthful) ↔ ∀ call ∈ calls, call.transfer ≠ none := by
  constructor
  · intro h call hcall
    exact call.truthful_iff.mp (h call hcall)
  · intro h call hcall
    exact call.truthful_iff.mpr (h call hcall)

/-- A read that fails is a success of 2^64-1 bytes, through a buffer for two. -/
theorem failed_read_ok :
    (IOCall.read ⟨3, .usual⟩ ⟨0, 2, true, [0, 0]⟩ 2 none).result =
        .ok (.ok 18446744073709551615) ∧
      ¬ (IOCall.read ⟨3, .usual⟩ ⟨0, 2, true, [0, 0]⟩ 2 none).Truthful := by
  have hok := result_eq (.read ⟨3, .usual⟩ ⟨0, 2, true, [0, 0]⟩ 2 none)
  refine ⟨hok, fun h => ?_⟩
  obtain ⟨⟨moved, hmoved, -⟩, -⟩ := h _ hok
  cases hmoved

end IOCall
end UnixIpc.Engine
