import UnixIpc.Engine.Acceptor
import UnixIpc.Lib.Run

/-! `TcpMultiThreadAcceptor`: a loop that accepts and starts a detached thread for each connection.
    The descriptor goes from the accepted socket into the session, and with it into the thread:

        pollingLoop   accept ──▶ TcpSession, std::thread ──▶ detach ──▶ push_back ──▶ accept …
        a thread                 clientRequestHandler_(Socket(clientSocket_)) ──▶ ~TcpSession

    Threads and loop take turns in any order. At the end of a thread only `~Socket` is left to close
    the descriptor, and it does nothing; nothing ever takes an element out of `tcpSessions_`. -/

namespace UnixIpc.Engine
open UnixIpc.Descriptors

/-- `~Socket()`, over the open descriptors. -/
def Socket.destroyed (_ : Socket) (openFds : List (ℕ × ℤ)) : List (ℕ × ℤ) := openFds

/-- How far a connection is: accepted, its thread in the handler, back from it, over. -/
inductive Stage where
  | accepted | running | returned | ended
  deriving DecidableEq

/-- `TcpMultiThreadAcceptor::TcpSession`, and how far it is. -/
structure ThreadSession where
  clientSocket : Socket
  stage : Stage
  deriving DecidableEq

/-- A `std::thread` of `tcpSessions_`, with the connection it was started for. -/
structure Task where
  session : ℕ
  joinable : Bool
  deriving DecidableEq

/-- Where `pollingLoop` stands, with its local variables. -/
inductive PollingLoop where
  | accepting
  | creating (session : ℕ)
  | detaching (task : Task)
  | pushing (task : Task)
  | threw (failure : Failure)
  deriving DecidableEq

/-- The acceptor with its threads. Connections are numbered as they come; `clientFds` are the client
    descriptors that are open, each with the number of its connection. -/
structure MultiThreadAcceptor where
  listenerSocket : Socket
  loop : PollingLoop
  sessions : List ThreadSession
  tcpSessions : List Task
  clientFds : List (ℕ × ℤ)

/-- Whose turn it is. For the loop at accept(2): whether that fails, and else which free number it
    may return. -/
inductive Turn where
  | loop (accepted : ℤ)
  | returns (session : ℕ)
  | ends (session : ℕ)

namespace MultiThreadAcceptor

/-- The constructor, which moves a copy of the listener's socket. -/
def start (tcpListenerSocket : TcpListener) : MultiThreadAcceptor where
  listenerSocket := tcpListenerSocket.getSocket
  loop := .accepting
  sessions := []
  tcpSessions := []
  clientFds := []

/-- What accept(2) returns. -/
def acceptResult (s : MultiThreadAcceptor) (accepted : ℤ) : ℤ :=
  if accepted < 0 then accepted
  else freeFd (s.listenerSocket.fd :: s.clientFds.map (·.2)) accepted

/-- A connection goes from one stage to the next, if that is where it is. -/
def advance (s : MultiThreadAcceptor) (session : ℕ) (stage stage' : Stage) : MultiThreadAcceptor :=
  match s.sessions[session]? with
  | none => s
  | some x =>
    if x.stage = stage then { s with sessions := s.sessions.set session { x with stage := stage' } }
    else s

/-- The socket of a connection is destroyed: the session's, or a copy of it. -/
def destroySocket (s : MultiThreadAcceptor) (session : ℕ) : MultiThreadAcceptor :=
  match s.sessions[session]? with
  | none => s
  | some x => { s with clientFds := x.clientSocket.destroyed s.clientFds }

/-- One thing `pollingLoop` does, or `createNewTcpSessionThread` in it. -/
def pollingLoop (s : MultiThreadAcceptor) (accepted : ℤ) : MultiThreadAcceptor :=
  match s.loop with
  | .accepting =>
    match s.listenerSocket.accept (s.acceptResult accepted) with
    | .error failure => { s with loop := .threw failure }
    | .ok clientSocket =>
      { s with
        loop := .creating s.sessions.length
        sessions := s.sessions ++ [⟨clientSocket, .accepted⟩]
        clientFds := s.clientFds ++ [(s.sessions.length, clientSocket.fd)] }
  | .creating session =>
    { s.advance session .accepted .running with loop := .detaching ⟨session, true⟩ }
  | .detaching task => { s with loop := .pushing { task with joinable := false } }
  | .pushing task => { s with loop := .accepting, tcpSessions := s.tcpSessions ++ [task] }
  | .threw _ => s

/-- One turn. The handler gets a copy of the socket, which is destroyed when it returns; with the
    thread ends the session. -/
def step (s : MultiThreadAcceptor) : Turn → MultiThreadAcceptor
  | .loop accepted => s.pollingLoop accepted
  | .returns session => (s.advance session .running .returned).destroySocket session
  | .ends session => (s.advance session .returned .ended).destroySocket session

/-- The connection with this number is over. -/
def Ended (s : MultiThreadAcceptor) (session : ℕ) : Prop :=
  ∃ x, s.sessions[session]? = some x ∧ x.stage = .ended

/-- Whatever is over has left nothing open and no entry, so that no more descriptors are open than
    connections are not over. -/
structure Released (s : MultiThreadAcceptor) : Prop where
  closed : ∀ session, s.Ended session → ∀ fd, (session, fd) ∉ s.clientFds
  erased : ∀ session, s.Ended session → ∀ task ∈ s.tcpSessions, task.session ≠ session
  bounded : s.clientFds.length ≤ s.sessions.countP (·.stage ≠ .ended)

/-- This turn is the end of a thread. -/
def ThreadEnds (s : MultiThreadAcceptor) (turn : Turn) : Prop :=
  ∃ session x, turn = .ends session ∧ s.sessions[session]? = some x ∧ x.stage = .returned

/-! ### Nothing is closed -/

/-- The descriptors of all connections so far. -/
def fds (s : MultiThreadAcceptor) : List ℤ := s.sessions.map (·.clientSocket.fd)

/-- All of them are open. -/
def Kept (s : MultiThreadAcceptor) : Prop := s.clientFds = s.fds.mapIdx Prod.mk

/-- No thread has ended yet. -/
def Going (s : MultiThreadAcceptor) : Prop := ∀ x ∈ s.sessions, x.stage ≠ .ended

variable {s : MultiThreadAcceptor} {session : ℕ} {stage stage' : Stage} {x : ThreadSession}

theorem destroySocket_eq (s : MultiThreadAcceptor) (session : ℕ) : s.destroySocket session = s := by
  unfold destroySocket
  split <;> rfl

theorem advance_of_stage (hx : s.sessions[session]? = some x) (hstage : x.stage = stage) :
    s.advance session stage stage' =
      { s with sessions := s.sessions.set session { x with stage := stage' } } := by
  simp only [advance, hx, if_pos hstage]

/-- Advancing a connection moves on that one alone, or nothing. -/
theorem advance_cases (s : MultiThreadAcceptor) (session : ℕ) (stage stage' : Stage) :
    (∃ x, s.sessions[session]? = some x ∧ x.stage = stage ∧
      s.advance session stage stage' =
        { s with sessions := s.sessions.set session { x with stage := stage' } }) ∨
    (¬ ∃ x, s.sessions[session]? = some x ∧ x.stage = stage) ∧
      s.advance session stage stage' = s := by
  rcases em (∃ x, s.sessions[session]? = some x ∧ x.stage = stage) with ⟨x, hx, hstage⟩ | hnot
  · exact .inl ⟨x, hx, hstage, advance_of_stage hx hstage⟩
  · refine .inr ⟨hnot, ?_⟩
    unfold advance
    split
    · rfl
    · rename_i x hx
      exact if_neg fun hstage => hnot ⟨x, hx, hstage⟩

theorem kept_advance (h : s.Kept) (session : ℕ) (stage stage' : Stage) :
    (s.advance session stage stage').Kept := by
  rcases advance_cases s session stage stage' with ⟨x, hx, _, heq⟩ | ⟨_, heq⟩
  · have hfd : s.fds[session]? = some x.clientSocket.fd := by
      rw [fds, List.getElem?_map, hx]
      rfl
    obtain ⟨hlt, hget⟩ := List.getElem?_eq_some_iff.mp hfd
    have hfds : (s.advance session stage stage').fds = s.fds := by
      rw [heq]
      calc (s.sessions.set session { x with stage := stage' }).map (·.clientSocket.fd)
        _ = s.fds.set session x.clientSocket.fd := List.map_set
        _ = s.fds.set session s.fds[session] := by rw [hget]
        _ = s.fds := List.set_getElem_self hlt
    rw [Kept, hfds, heq]
    exact h
  · rw [heq]
    exact h

theorem going_advance (h : s.Going) (session : ℕ) (stage : Stage) (hstage : stage' ≠ .ended) :
    (s.advance session stage stage').Going := by
  rcases advance_cases s session stage stage' with ⟨x, _, _, heq⟩ | ⟨_, heq⟩
  · rw [heq]
    intro y hy
    rcases List.mem_or_eq_of_mem_set hy with hmem | rfl
    · exact h y hmem
    · exact hstage
  · rw [heq]
    exact h

/-- STEP: every turn leaves all descriptors open. -/
theorem kept_step (h : s.Kept) (turn : Turn) : (s.step turn).Kept := by
  match turn with
  | .loop accepted =>
    rw [step]
    unfold pollingLoop
    split
    · split
      · exact h
      · rename_i clientSocket _
        have hlen : s.fds.length = s.sessions.length := List.length_map ..
        rw [Kept, fds, List.map_append, List.map_singleton, List.mapIdx_concat, ← hlen]
        exact congrArg (· ++ [(s.fds.length, clientSocket.fd)]) h
    · rename_i session _
      exact kept_advance h session .accepted .running
    · exact h
    · exact h
    · exact h
  | .returns session =>
    rw [step, destroySocket_eq]
    exact kept_advance h session .running .returned
  | .ends session =>
    rw [step, destroySocket_eq]
    exact kept_advance h session .returned .ended

/-- STEP: and no turn but the end of a thread makes a connection end. -/
theorem going_step (h : s.Going) {turn : Turn} (hturn : ¬ s.ThreadEnds turn) :
    (s.step turn).Going := by
  match turn, hturn with
  | .loop accepted, _ =>
    rw [step]
    unfold pollingLoop
    split
    · split
      · exact h
      · intro x hx
        rcases List.mem_append.mp hx with hmem | hnew
        · exact h x hmem
        · rw [List.mem_singleton.mp hnew]
          exact Stage.noConfusion
    · rename_i session _
      exact going_advance h session .accepted Stage.noConfusion
    · exact h
    · exact h
    · exact h
  | .returns session, _ =>
    rw [step, destroySocket_eq]
    exact going_advance h session .running Stage.noConfusion
  | .ends session, hturn =>
    rcases advance_cases s session .returned .ended with ⟨x, hx, hstage, _⟩ | ⟨_, heq⟩
    · exact absurd ⟨session, x, rfl, hx, hstage⟩ hturn
    · rw [step, destroySocket_eq, heq]
      exact h

/-- While no thread has ended there is nothing to release. -/
theorem released_of_going (hkept : s.Kept) (h : s.Going) : s.Released := by
  have hnone : ∀ session, ¬ s.Ended session := by
    rintro session ⟨x, hx, hended⟩
    exact h x (List.mem_of_getElem? hx) hended
  refine ⟨fun session hended => absurd hended (hnone session),
    fun session hended => absurd hended (hnone session), ?_⟩
  rw [hkept, List.length_mapIdx, fds, List.length_map, List.countP_eq_length.mpr ?_]
  exact fun x hx => decide_eq_true (h x hx)

/-- STEP: the end of a thread leaves its descriptor open. -/
theorem not_released_of_threadEnds (hkept : s.Kept) {turn : Turn} (hturn : s.ThreadEnds turn) :
    ¬ (s.step turn).Released := by
  obtain ⟨session, x, rfl, hx, hstage⟩ := hturn
  intro hreleased
  have hstep : s.step (.ends session) =
      { s with sessions := s.sessions.set session { x with stage := .ended } } := by
    rw [step, destroySocket_eq, advance_of_stage hx hstage]
  have hlt : session < s.sessions.length := (List.getElem?_eq_some_iff.mp hx).1
  have hended : (s.step (.ends session)).Ended session := by
    rw [hstep]
    exact ⟨{ x with stage := .ended }, List.getElem?_set_self hlt, rfl⟩
  have hopen : (session, x.clientSocket.fd) ∈ s.clientFds := by
    rw [hkept, fds]
    refine List.mem_of_getElem? (i := session) ?_
    rw [List.getElem?_mapIdx, List.getElem?_map, hx]
    rfl
  refine hreleased.closed session hended x.clientSocket.fd ?_
  rw [hstep]
  exact hopen

/-- EXACT: along a run finished sessions are released just as long as none finishes. -/
theorem released_iff (tcpListenerSocket : TcpListener) (turns : List Turn) :
    Run.Along step Released (start tcpListenerSocket) turns ↔
      Run.Throughout step (fun s turn => ¬ s.ThreadEnds turn) (start tcpListenerSocket) turns := by
  refine Run.along_iff_throughout (G := fun s => s.Kept ∧ s.Going) (A := fun _ => True) ?_ ?_ ?_
    turns _ (fun _ _ => trivial) ⟨rfl, fun x hx => absurd hx List.not_mem_nil⟩
  · rintro s ⟨hkept, hgoing⟩
    exact released_of_going hkept hgoing
  · rintro s turn ⟨hkept, hgoing⟩ _ hturn
    exact ⟨kept_step hkept turn, going_step hgoing hturn⟩
  · rintro s turn ⟨hkept, _⟩ _ hturn
    exact not_released_of_threadEnds hkept (not_not.mp hturn)

/-- One connection whose handler returns, and the thread ends. -/
def oneSession : List Turn :=
  [.loop 4, .loop 0, .loop 0, .loop 0, .returns 0, .ends 0]

/-- The descriptor is open, and the entry is there. -/
theorem oneSession_kept :
    let s := oneSession.foldl step (start ⟨⟨3, .listener⟩, rfl, by decide⟩)
    s.sessions = [⟨⟨4, .usual⟩, .ended⟩] ∧ s.clientFds = [(0, 4)] ∧ s.tcpSessions = [⟨0, false⟩] ∧
      ¬ Run.Along step Released (start ⟨⟨3, .listener⟩, rfl, by decide⟩) oneSession := by
  refine ⟨rfl, rfl, rfl, fun halong => ?_⟩
  have hended : (oneSession.foldl step (start ⟨⟨3, .listener⟩, rfl, by decide⟩)).Ended 0 :=
    ⟨⟨⟨4, .usual⟩, .ended⟩, rfl, rfl⟩
  exact halong.last.closed 0 hended 4 (List.mem_singleton.mpr rfl)

end MultiThreadAcceptor
end UnixIpc.Engine
