import Mathlib.Logic.Function.Basic
import UnixIpc.Lib.Descriptors
import UnixIpc.Lib.IndexLoop

/-! `TcpMultiplexAcceptor`: one poll set and one list of sessions, walked side by side, entry 0 of
    both being the listener. The listener's handler is a callable that holds references to the two
    vectors of one acceptor object and appends each new connection to them.

    References make the identity of objects matter, so the model is a world of acceptor objects
    under numbers (their addresses), with the open descriptors of the process. `handleEvent`,
    `handleClientsSocket` and the special members are the code's; `run` strings them together.

        poll ──revents──▶ handleClientsSocket ──i──▶ handleEvent ──▶ session i's handler
                                                                       │ listener
                          clientPollFdSet ++ [fd] ◀── accept ◀─────────┘
                          tcpSessions     ++ [fd]        (of the acceptor it refers to) -/

namespace UnixIpc.Engine
open UnixIpc.Descriptors UnixIpc.IndexLoop

/-- `Socket::Type`. -/
inductive SocketType where
  | listener | usual
  deriving DecidableEq

/-- `Socket`, as far as the acceptor reads it. -/
structure Socket where
  fd : ℤ
  type : SocketType
  deriving DecidableEq

/-- The exceptions that can leave `handleClientsSocket`. -/
inductive Failure where
  | usualAccept | accept | close | poll | badFunctionCall | handler
  deriving DecidableEq

/-- The text of those the engine throws itself. -/
def Failure.what : Failure → Option String
  | .usualAccept => some "attempt call accept for usual socket"
  | .accept => some "error when try accept new simple_tcp_client connection"
  | .close => some "error when try close active net_api"
  | .poll => some "error in system call poll"
  | .badFunctionCall | .handler => none

/-- A moved-from socket. -/
def Socket.moved (s : Socket) : Socket := { s with fd := -1 }

/-- `Socket::accept`, for the result of accept(2). -/
def Socket.accept (s : Socket) (result : ℤ) : Except Failure Socket :=
  if s.type = .usual then .error .usualAccept
  else if result < 0 then .error .accept
  else .ok ⟨result, .usual⟩

/-- `Socket::close`, over the open descriptors: nothing for a descriptor that is not positive, `none`
    when close(2) fails. -/
def Socket.close (s : Socket) (openFds : List ℤ) : Option (List ℤ) :=
  if 0 < s.fd then if s.fd ∈ openFds then some (openFds.erase s.fd) else none else some openFds

/-- `TcpListener`: its constructors have made or bound the socket and put it into the listening
    state, which throws for a bad descriptor and for a usual socket. -/
structure TcpListener where
  socket : Socket
  listening : socket.type = .listener
  valid : 0 ≤ socket.fd

/-- `TcpListener::getSocket`, a copy. -/
def TcpListener.getSocket (l : TcpListener) : Socket := l.socket

/-- The target of a `std::function<bool(Socket &&)>`: the user's handler (`none` once moved from),
    or a `TcpListenerRequestHandler` with the acceptor whose vectors it refers to. -/
inductive Handler (H : Type) where
  | client (target : Option H)
  | listener (acceptor : ℕ) (clientRequestHandler : Option H)

structure TcpSession (H : Type) where
  socket : Socket
  requestHandler : Handler H

structure Acceptor (H : Type) where
  listenerSocket : Socket
  clientPollFdSet : List PollFd
  tcpSessions : List (TcpSession H)
  clientRequestHandler : Option H
  listenerHandler : Handler H

/-- The live acceptors by address and the open descriptors. -/
structure World (H : Type) where
  acceptors : ℕ → Option (Acceptor H)
  openFds : List ℤ

/-- A connection taken in: the acceptor it was appended to, its descriptor and its handler. -/
structure Admission (H : Type) where
  acceptor : ℕ
  fd : ℤ
  handler : Option H

/-- What the outside does when an entry is dispatched: the result of accept(2) for a listener; for
    a client's handler what it returns (`none`: it throws) and whether it closes its socket. -/
structure Answer where
  accepted : ℤ
  returned : Option Bool
  closes : Bool

/-- One poll and the dispatches after it, by index. -/
structure PollAnswer where
  result : ℤ
  revents : ℕ → UInt16
  answers : ℕ → Answer

inductive Outcome where
  | running
  | threw (failure : Failure)
  | undefined
  deriving DecidableEq

/-- The state inside `handleClientsSocket`, with a record of the handlers called (index and socket)
    and of the connections taken in. -/
structure Pass (H : Type) where
  world : World H
  readyCount : ℤ
  dispatched : List (ℕ × Socket)
  admitted : List (Admission H)
  outcome : Outcome

namespace Acceptor
variable {H : Type}

/-- `clientPollFdSet_.push_back` and `tcpSessions_.emplace_back`. -/
def push (a : Acceptor H) (x : Admission H) : Acceptor H :=
  { a with
    clientPollFdSet := a.clientPollFdSet ++ [⟨x.fd, pollRdNorm, 0⟩]
    tcpSessions := a.tcpSessions ++ [⟨⟨x.fd, .usual⟩, .client x.handler⟩] }

/-- What `poll` leaves in the entries. -/
def polled (a : Acceptor H) (revents : ℕ → UInt16) : Acceptor H :=
  { a with clientPollFdSet := report a.clientPollFdSet revents }

/-- The constructor, for the object at address `id`. -/
def construct (id : ℕ) (tcpListener : TcpListener) (clientRequestHandler : H) : Acceptor H where
  listenerSocket := tcpListener.getSocket
  clientPollFdSet := [⟨tcpListener.getSocket.fd, pollRdNorm, 0⟩]
  tcpSessions := [⟨tcpListener.getSocket, .listener id (some clientRequestHandler)⟩]
  clientRequestHandler := some clientRequestHandler
  listenerHandler := .listener id (some clientRequestHandler)

/-- What a move leaves behind. -/
def moved (a : Acceptor H) : Acceptor H where
  listenerSocket := a.listenerSocket.moved
  clientPollFdSet := []
  tcpSessions := []
  clientRequestHandler := none
  listenerHandler := a.listenerHandler

/-- The member-wise move that both special members make. -/
def taken (id : ℕ) (other : Acceptor H) (tcpSessions : List (TcpSession H)) : Acceptor H where
  listenerSocket := other.listenerSocket
  clientPollFdSet := other.clientPollFdSet
  tcpSessions := tcpSessions
  clientRequestHandler := other.clientRequestHandler
  listenerHandler := .listener id other.clientRequestHandler

/-- The move constructor: session 0 gets the new listener handler. Without a session there,
    `tcpSessions_[0]` is undefined. -/
def moveConstruct (id : ℕ) (other : Acceptor H) : Option (Acceptor H) :=
  match other.tcpSessions with
  | [] => none
  | session :: rest =>
    some (taken id other
      ({ session with requestHandler := .listener id other.clientRequestHandler } :: rest))

/-- The move assignment, into the object at address `id`. -/
def moveAssign (id : ℕ) (other : Acceptor H) : Acceptor H := taken id other other.tcpSessions

end Acceptor

/-- A connection appended to the vectors a listener handler refers to. -/
def admitTo {H : Type} (acceptors : ℕ → Option (Acceptor H)) (x : Admission H) :
    ℕ → Option (Acceptor H) :=
  Function.update acceptors x.acceptor ((acceptors x.acceptor).map (·.push x))

/-- The destructor's loop; a failing `close` there ends the program. -/
def closeAll {H : Type} : List (TcpSession H) → List ℤ → Option (List ℤ)
  | [], openFds => some openFds
  | session :: rest, openFds => (session.socket.close openFds).bind (closeAll rest)

namespace World
variable {H : Type}

def empty : World H where
  acceptors := fun _ => none
  openFds := []

def put (w : World H) (id : ℕ) (a : Option (Acceptor H)) : World H :=
  { w with acceptors := Function.update w.acceptors id a }

/-- A session's handler is called with a copy of its socket. -/
def invoke (w : World H) (session : TcpSession H) (ans : Answer) :
    World H × List (Admission H) × Outcome :=
  match session.requestHandler with
  | .client none => (w, [], .threw .badFunctionCall)
  | .client (some _) =>
    match if ans.closes then session.socket.close w.openFds else some w.openFds with
    | none => (w, [], .threw .close)
    | some openFds =>
      ({ w with openFds := openFds }, [],
        if ans.returned.isSome then .running else .threw .handler)
  | .listener acceptor clientRequestHandler =>
    match session.socket.accept ans.accepted with
    | .error failure => (w, [], .threw failure)
    | .ok clientSocket =>
      if (w.acceptors acceptor).isSome then
        let x : Admission H := ⟨acceptor, clientSocket.fd, clientRequestHandler⟩
        (⟨admitTo w.acceptors x, clientSocket.fd :: w.openFds⟩, [x], .running)
      else (w, [], .undefined)

end World

namespace Pass
variable {H : Type}

/-- `handleEvent(tcpSessions_[i], clientPollFdSet_[i], readyCount)` of the acceptor at `id`. -/
def handleEvent (id : ℕ) (answers : ℕ → Answer) (i : ℕ) (p : Pass H) : Pass H :=
  match (p.world.acceptors id).bind (·.tcpSessions[i]?),
    (p.world.acceptors id).bind (·.clientPollFdSet[i]?) with
  | some session, some pollFd =>
    if pollFd.revents = pollRdNorm then
      let called := p.world.invoke session (answers i)
      { world := called.1
        readyCount := if called.2.2 = .running then p.readyCount - 1 else p.readyCount
        dispatched := p.dispatched ++ [(i, session.socket)]
        admitted := p.admitted ++ called.2.1
        outcome := called.2.2 }
    else p
  | _, _ => { p with outcome := .undefined }

/-- The number of sessions the loop sees. -/
def size (id : ℕ) (p : Pass H) : ℕ := ((p.world.acceptors id).map (·.tcpSessions.length)).getD 0

/-- The loop goes on: nothing was thrown, `readyCount > 0` and `i < tcpSessions_.size()`. -/
def goesOn (id i : ℕ) (p : Pass H) : Bool :=
  p.outcome = .running && 0 < p.readyCount && i < p.size id

end Pass

namespace World
variable {H : Type}

/-- `handleClientsSocket(readyCount)` of the acceptor at `id`. -/
def handleClientsSocket (w : World H) (id : ℕ) (readyCount : ℤ) (answers : ℕ → Answer) : Pass H :=
  let start : Pass H := ⟨w, readyCount, [], [], .running⟩
  (loop (Pass.goesOn id) (Pass.handleEvent id answers) (start.size id + readyCount.toNat) 0 start).2

/-- `poll` writes the revents of the acceptor's entries. -/
def poll (w : World H) (id : ℕ) (revents : ℕ → UInt16) : World H :=
  w.put id ((w.acceptors id).map (·.polled revents))

/-- `getCountReadyTcpSessions`, then `handleClientsSocket` with its result. -/
def pass (w : World H) (id : ℕ) (p : PollAnswer) : Pass H :=
  if p.result < 0 then ⟨w, p.result, [], [], .threw .poll⟩
  else (w.poll id p.revents).handleClientsSocket id p.result p.answers

end World

/-- What happens to the acceptors of a program. -/
inductive Event (H : Type) where
  | construct (id : ℕ) (tcpListener : TcpListener) (clientRequestHandler : H)
  | moveConstruct (id other : ℕ)
  | moveAssign (id other : ℕ)
  | destroy (id : ℕ)
  | pass (id : ℕ) (p : PollAnswer)

namespace World
variable {H : Type}

/-- One event; `none` when it is not possible here: objects that are dead or not yet gone, a call
    that is undefined, a destructor that throws. An exception out of `pass` is caught. -/
def step (w : World H) : Event H → Option (World H)
  | .construct id tcpListener clientRequestHandler =>
    match w.acceptors id with
    | some _ => none
    | none => some
      { w.put id (some (.construct id tcpListener clientRequestHandler)) with
        openFds := tcpListener.socket.fd :: w.openFds }
  | .moveConstruct id other =>
    match w.acceptors id, w.acceptors other with
    | none, some o =>
      (Acceptor.moveConstruct id o).map fun a => (w.put other (some o.moved)).put id (some a)
    | _, _ => none
  | .moveAssign id other =>
    match w.acceptors id, w.acceptors other with
    | some _, some o =>
      if id = other then none
      else some ((w.put other (some o.moved)).put id (some (.moveAssign id o)))
    | _, _ => none
  | .destroy id =>
    match w.acceptors id with
    | none => none
    | some a =>
      (closeAll a.tcpSessions w.openFds).map fun openFds => { w.put id none with openFds := openFds }
  | .pass id p =>
    match w.acceptors id with
    | none => none
    | some _ =>
      let result := w.pass id p
      if result.outcome = .undefined then none else some result.world

/-- A whole history. -/
def run (w : World H) (es : List (Event H)) : Option (World H) := es.foldlM step w

end World
end UnixIpc.Engine
