import UnixIpc.Engine.IoOperations
import UnixIpc.Engine.MultiThread
import UnixIpc.Servers.Request

/-! The server with a thread for each connection: the acceptor of the engine, and the handler that
    main passes to it. A handler goes round in its own loop, over a fresh buffer each time, and looks
    neither at what its read returns nor at what its write does:

        StaticBuffer<1024> ──read──▶ data = buffer as a C string ──▶ write(1024 bytes) ─┐
               ▲                                                                         │
               └───────────────────────────── else ──── data == "stop\r\n" ◀────────────┘
                                                              └─▶ return true

    Threads and accepting loop take turns in any order. The calls of write(2) for a connection are made
    of its own reads alone (`served`), a whole buffer for each (`returns_bytes_iff`), and no connection
    changes what the accepting loop does, until a scan leaves memory or a write meets a peer that is
    gone, and SIGPIPE ends the process with all of them (`accepts_alone`). -/

namespace UnixIpc.Servers
open UnixIpc.Bytes UnixIpc.Descriptors UnixIpc.Engine UnixIpc.Run

namespace ThreadServer

/-- What one round of a handler meets: its read, the stack behind its buffer, its write. -/
structure Round where
  incoming : Incoming 1024
  stack : List UInt8
  written : Written 1024

/-- How the round ends: with another one, behind the loop, with an exception, inside its write, or
    out of bounds. -/
inductive RoundEnd where
  | again (call : WriteCall)
  | breaks (call : WriteCall)
  | threw (what : String)
  | killed (call : WriteCall)
  | undefined
  deriving DecidableEq

/-- One round of `handler`. -/
def handlerRound (socket : Socket) (r : Round) : RoundEnd :=
  match socket.read (StaticBuffer.fresh 1024).toBuffer r.incoming with
  | .error what => .threw what
  | .ok (_, buffer) =>
    match cString (buffer.data ++ r.stack) with
    | none => .undefined
    | some data =>
      match socket.write buffer buffer.capacity with
      | .error _ => .undefined
      | .ok call =>
        match r.written with
        | .sigpipe => .killed call
        | .returned transfer =>
          match socket.written buffer transfer with
          | .error what => .threw what
          | .ok _ => if data = stopCommand then .breaks call else .again call

/-- How the process stands: `terminated` by an exception that nobody catches, `killed` by SIGPIPE,
    `undefined` after a read out of bounds. -/
inductive State where
  | running | terminated | killed | undefined
  deriving DecidableEq

end ThreadServer

/-- The process: the acceptor with its threads, and the calls of write(2) so far. A connection whose
    thread is in the handler is `running`, and `returned` once its loop is left. -/
structure ThreadServer where
  acceptor : MultiThreadAcceptor
  state : ThreadServer.State
  written : List WriteCall

namespace ThreadServer

/-- Whose turn it is: the accepting loop's, a handler's for one round, or a thread's to end. -/
inductive ServerTurn where
  | loop (accepted : ℤ)
  | round (session : ℕ) (round : Round)
  | ends (session : ℕ)

/-- Main, at `pollingLoop`. -/
def start (tcpListener : TcpListener) : ThreadServer where
  acceptor := .start tcpListener
  state := .running
  written := []

/-- What leaves `pollingLoop` leaves main. -/
def loop (s : ThreadServer) (accepted : ℤ) : ThreadServer :=
  let acceptor := s.acceptor.step (.loop accepted)
  match acceptor.loop with
  | .threw _ => { s with acceptor := acceptor, state := .terminated }
  | _ => { s with acceptor := acceptor }

/-- The process after a round of this session. -/
def ended (s : ThreadServer) (session : ℕ) : RoundEnd → ThreadServer
  | .again call => { s with written := s.written ++ [call] }
  | .breaks call =>
    { s with acceptor := s.acceptor.step (.returns session), written := s.written ++ [call] }
  | .threw _ => { s with state := .terminated }
  | .killed call => { s with state := .killed, written := s.written ++ [call] }
  | .undefined => { s with state := .undefined }

/-- One turn; `none` where it is not there to take. -/
def step (s : ThreadServer) (turn : ServerTurn) : Option ThreadServer :=
  if s.state ≠ .running then none
  else
    match turn with
    | .loop accepted => some (s.loop accepted)
    | .round session r =>
      match s.acceptor.sessions[session]? with
      | some x =>
        if x.stage = .running then some (s.ended session (handlerRound x.clientSocket r)) else none
      | none => none
    | .ends session =>
      match s.acceptor.sessions[session]? with
      | some x =>
        if x.stage = .returned then
          some { s with acceptor := s.acceptor.step (.ends session) }
        else none
      | none => none

/-! ### One round -/

namespace Round

/-- The bytes that its read brings; a read that fails brings none. -/
def received (r : Round) : List UInt8 :=
  match r.incoming with
  | none => []
  | some bytes => bytes.1

/-- The buffer after the read. -/
def frame (r : Round) : List UInt8 := r.incoming.over (zeros 1024).1

/-- `data`, if the scan of the buffer ends. -/
def text (r : Round) : Option (List UInt8) := cString (r.frame ++ r.stack)

/-- What the round hands to write(2). -/
def answer (r : Round) : Option (List UInt8) := r.text.map fun _ => r.frame

/-- The round is the last of its handler: it has read the command, and its write has returned. -/
def Stops (r : Round) : Prop := r.text = some stopCommand ∧ r.written ≠ .sigpipe

instance (r : Round) : Decidable r.Stops := inferInstanceAs (Decidable (_ ∧ _))

theorem received_length_le (r : Round) : r.received.length ≤ 1024 := by
  unfold received
  split
  · exact Nat.zero_le _
  · rename_i bytes _
    exact bytes.2.1

/-- What the read brings, and zeros up to the end of the buffer. -/
theorem frame_eq (r : Round) :
    r.frame = r.received ++ List.replicate (1024 - r.received.length) 0 := by
  unfold frame received Incoming.over
  cases r.incoming with
  | none => exact (List.nil_append _).symm
  | some bytes => exact congrArg (bytes.1 ++ ·) List.drop_replicate

theorem length_frame (r : Round) : r.frame.length = 1024 := by
  have hle := r.received_length_le
  rw [frame_eq, List.length_append, List.length_replicate]
  omega

theorem received_eq_frame_iff (r : Round) : r.received = r.frame ↔ r.received.length = 1024 := by
  constructor
  · intro h
    rw [h, length_frame]
  · intro h
    rw [frame_eq, h, Nat.sub_self, List.replicate_zero, List.append_nil]

end Round

/-- The system calls of a round: none throws, however the write returns, and it is of the whole
    buffer. -/
theorem Round.calls_eq (socket : Socket) (r : Round) : ∃ buffer : Buffer,
    socket.read (StaticBuffer.fresh 1024).toBuffer r.incoming =
      .ok (.ok r.incoming.transfer.ret.toUInt64, buffer) ∧
    cString (buffer.data ++ r.stack) = r.text ∧
    socket.write buffer buffer.capacity = .ok ⟨socket.fd, r.frame⟩ ∧
    ∀ transfer : Transfer 1024,
      socket.written buffer transfer = .ok (.ok transfer.ret.toUInt64) := by
  refine ⟨{ (StaticBuffer.fresh 1024).toBuffer with data := r.frame }, ?_, rfl, ?_, ?_⟩
  · rw [Socket.read, IoOperation.readFrom_eq]
    rfl
  · have hlength : r.frame.length = 1024 := r.length_frame
    rw [Socket.write, writeTo]
    dsimp only
    rw [if_pos (show (StaticBuffer.fresh 1024).capacity ≤ _ from hlength.ge)]
    exact congrArg (fun bytes => Except.ok (WriteCall.mk socket.fd bytes))
      (List.take_of_length_le hlength.le)
  · intro transfer
    rw [Socket.written, IoOperation.writeTo_eq]
    rfl

/-- A round in terms of its read. -/
theorem handlerRound_eq (socket : Socket) (r : Round) :
    handlerRound socket r =
      match r.text with
      | none => .undefined
      | some data =>
        if r.written = .sigpipe then .killed ⟨socket.fd, r.frame⟩
        else if data = stopCommand then .breaks ⟨socket.fd, r.frame⟩
        else .again ⟨socket.fd, r.frame⟩ := by
  obtain ⟨buffer, hread, htext, hwrite, hwritten⟩ := r.calls_eq socket
  simp only [handlerRound, hread, htext, hwrite]
  cases r.text with
  | none => rfl
  | some data =>
    cases r.written with
    | sigpipe => rfl
    | returned transfer => simp only [hwritten, reduceCtorEq, if_false]

/-! ### One connection -/

/-- The rounds of this connection among the turns. -/
def ServerTurn.roundOf (session : ℕ) : ServerTurn → Option Round
  | .round k r => if k = session then some r else none
  | .loop _ | .ends _ => none

theorem roundOf_round (session : ℕ) (r : Round) :
    (ServerTurn.round session r).roundOf session = some r := if_pos rfl

theorem roundOf_round_of_ne {session other : ℕ} (h : session ≠ other) (r : Round) :
    (ServerTurn.round session r).roundOf other = none := if_neg h

def roundsOf (session : ℕ) (turns : List ServerTurn) : List Round :=
  turns.filterMap (·.roundOf session)

/-- What the calls of write(2) have passed for a descriptor, call by call. -/
def bytesTo (fd : ℤ) (written : List WriteCall) : List (List UInt8) :=
  (written.filter (·.fd = fd)).map (·.bytes)

/-- The handler is back. -/
def isBack : Stage → Bool
  | .accepted | .running => false
  | .returned | .ended => true

/-- A connection with these rounds: each has got to a write of its buffer, unless its scan left memory,
    and the handler is back just when the last one stopped it. -/
structure Conversation (rounds : List Round) (stage : Stage) (sent : List (List UInt8)) : Prop where
  sent_eq : sent = rounds.filterMap Round.answer
  going : isBack stage = false → ∀ r ∈ rounds, ¬ r.Stops
  stopped : isBack stage = true →
    ∃ front r, rounds = front ++ [r] ∧ r.Stops ∧ ∀ q ∈ front, ¬ q.Stops

theorem conversation_nil : Conversation [] .accepted [] where
  sent_eq := rfl
  going _ _ hr := absurd hr List.not_mem_nil
  stopped h := Bool.noConfusion h

theorem Conversation.restage {rounds : List Round} {stage stage' : Stage}
    {sent : List (List UInt8)} (h : Conversation rounds stage sent) (hsame : isBack stage' = isBack stage) :
    Conversation rounds stage' sent where
  sent_eq := h.sent_eq
  going hback := h.going (hsame ▸ hback)
  stopped hback := h.stopped (hsame ▸ hback)

/-- STEP: one more round of a handler that is not back. -/
theorem Conversation.round {rounds : List Round} {stage stage' : Stage} {sent : List (List UInt8)}
    (h : Conversation rounds stage sent) (hgoing : isBack stage = false) {r : Round}
    (hback : isBack stage' = decide r.Stops) :
    Conversation (rounds ++ [r]) stage' (sent ++ r.answer.toList) where
  sent_eq := by
    rw [List.filterMap_append, ← h.sent_eq]
    cases hr : r.answer with
    | none => rw [List.filterMap_cons_none hr]; rfl
    | some frame => rw [List.filterMap_cons_some hr]; rfl
  going hstage := by
    rw [hback, decide_eq_false_iff_not] at hstage
    intro q hq
    rcases List.mem_append.mp hq with hold | hnew
    · exact h.going hgoing q hold
    · exact (List.mem_singleton.mp hnew) ▸ hstage
  stopped hstage := by
    rw [hback, decide_eq_true_eq] at hstage
    exact ⟨rounds, r, rfl, hstage, h.going hgoing⟩

theorem bytesTo_append (fd : ℤ) (written more : List WriteCall) :
    bytesTo fd (written ++ more) = bytesTo fd written ++ bytesTo fd more := by
  rw [bytesTo, List.filter_append, List.map_append]
  rfl

/-- Nothing has been written to a descriptor that no call names. -/
theorem bytesTo_eq_nil {fd : ℤ} {written : List WriteCall} (h : ∀ call ∈ written, call.fd ≠ fd) :
    bytesTo fd written = [] := by
  have hnone : written.filter (·.fd = fd) = [] := by
    rw [List.filter_eq_nil_iff]
    exact fun call hcall hfd => h call hcall (of_decide_eq_true hfd)
  rw [bytesTo, hnone, List.map_nil]

/-- The calls of write(2) in a round. -/
def callsOf (socket : Socket) (r : Round) : List WriteCall :=
  (r.answer.map (WriteCall.mk socket.fd)).toList

theorem bytesTo_callsOf (socket : Socket) (r : Round) :
    bytesTo socket.fd (callsOf socket r) = r.answer.toList := by
  unfold callsOf
  cases r.answer with
  | none => rfl
  | some frame =>
    rw [Option.map_some, Option.toList_some, bytesTo, List.filter_singleton, decide_eq_true rfl]
    rfl

theorem bytesTo_callsOf_of_ne {fd : ℤ} {socket : Socket} (h : socket.fd ≠ fd) (r : Round) :
    bytesTo fd (callsOf socket r) = [] := by
  refine bytesTo_eq_nil ?_
  intro call hcall
  unfold callsOf at hcall
  cases hanswer : r.answer with
  | none => simp [hanswer] at hcall
  | some frame =>
    rw [hanswer, Option.map_some, Option.toList_some, List.mem_singleton] at hcall
    rw [hcall]
    exact h

/-! ### All connections -/

/-- The connections after these turns: no two on one descriptor, nothing written elsewhere, and what
    each has been written comes of its own rounds. -/
structure Recorded (listenfd : ℤ) (turns : List ServerTurn) (sessions : List ThreadSession)
    (written : List WriteCall) : Prop where
  apart : (listenfd :: sessions.map (·.clientSocket.fd)).Nodup
  addressed : ∀ call ∈ written, call.fd ∈ sessions.map (·.clientSocket.fd)
  unknown : ∀ session, sessions.length ≤ session → roundsOf session turns = []
  talks : ∀ session x, sessions[session]? = some x →
    Conversation (roundsOf session turns) x.stage (bytesTo x.clientSocket.fd written)

section Recorded
variable {listenfd : ℤ} {turns : List ServerTurn} {turn : ServerTurn} {session : ℕ}
  {x : ThreadSession} {sessions : List ThreadSession} {written : List WriteCall}

theorem roundsOf_append (session : ℕ) (turns : List ServerTurn) (turn : ServerTurn) :
    roundsOf session (turns ++ [turn]) = roundsOf session turns ++ (turn.roundOf session).toList := by
  rw [roundsOf, List.filterMap_append]
  cases h : turn.roundOf session with
  | none => rw [List.filterMap_cons_none h]; rfl
  | some r => rw [List.filterMap_cons_some h]; rfl

theorem roundsOf_append_of_none (h : turn.roundOf session = none) :
    roundsOf session (turns ++ [turn]) = roundsOf session turns := by
  rw [roundsOf_append, h, Option.toList_none, List.append_nil]

/-- A turn that is no round. -/
theorem Recorded.silent (h : Recorded listenfd turns sessions written)
    (hturn : ∀ session, turn.roundOf session = none) :
    Recorded listenfd (turns ++ [turn]) sessions written where
  apart := h.apart
  addressed := h.addressed
  unknown session hle := by
    rw [roundsOf_append_of_none (hturn session)]
    exact h.unknown session hle
  talks session x hx := by
    rw [roundsOf_append_of_none (hturn session)]
    exact h.talks session x hx

/-- A new connection on a descriptor of its own. -/
theorem Recorded.push (h : Recorded listenfd turns sessions written) {clientSocket : Socket}
    (hfresh : clientSocket.fd ∉ listenfd :: sessions.map (·.clientSocket.fd)) :
    Recorded listenfd turns (sessions ++ [⟨clientSocket, .accepted⟩]) written where
  apart := by
    rw [List.map_append, List.map_singleton, ← List.cons_append, List.nodup_append_comm]
    exact List.nodup_cons.mpr ⟨hfresh, h.apart⟩
  addressed call hcall := by
    rw [List.map_append]
    exact List.mem_append_left _ (h.addressed call hcall)
  unknown session hle := by
    rw [List.length_append] at hle
    exact h.unknown session (by omega)
  talks session x hx := by
    rcases lt_or_ge session sessions.length with hlt | hge
    · rw [List.getElem?_append_left hlt] at hx
      exact h.talks session x hx
    · have hx' : x = ⟨clientSocket, .accepted⟩ := by
        have hmem := List.mem_of_getElem? (List.getElem?_append_right hge ▸ hx)
        exact List.mem_singleton.mp hmem
      have hnothing : bytesTo clientSocket.fd written = [] := by
        refine bytesTo_eq_nil fun call hcall heq => hfresh (List.mem_cons_of_mem _ ?_)
        exact heq ▸ h.addressed call hcall
      rw [h.unknown session hge, hx', hnothing]
      exact conversation_nil

theorem fds_set (hx : sessions[session]? = some x) (stage : Stage) :
    (sessions.set session { x with stage := stage }).map (·.clientSocket.fd) =
      sessions.map (·.clientSocket.fd) := by
  obtain ⟨hlt, rfl⟩ := List.getElem?_eq_some_iff.mp hx
  refine List.ext_getElem? fun k => ?_
  rw [List.getElem?_map, List.getElem?_map, List.getElem?_set]
  split
  · rename_i heq
    subst heq
    rw [hx]
    rfl
  · rfl

/-- A connection that moves on without a round. -/
theorem Recorded.restage (h : Recorded listenfd turns sessions written)
    (hx : sessions[session]? = some x) {stage : Stage} (hsame : isBack stage = isBack x.stage) :
    Recorded listenfd turns (sessions.set session { x with stage := stage }) written where
  apart := fds_set hx stage ▸ h.apart
  addressed := fds_set hx stage ▸ h.addressed
  unknown k hle := h.unknown k (List.length_set .. ▸ hle)
  talks k y hy := by
    rw [List.getElem?_set] at hy
    split at hy
    · rename_i heq
      subst heq
      split at hy
      · obtain rfl := Option.some.inj hy
        exact (h.talks session x hx).restage hsame
      · exact absurd hy (by simp)
    · exact h.talks k y hy

/-- STEP: a round changes the conversation it is part of, and no other. -/
theorem Recorded.round (h : Recorded listenfd turns sessions written)
    (hx : sessions[session]? = some x) (hgoing : isBack x.stage = false) {r : Round} {stage : Stage}
    (hback : isBack stage = decide r.Stops) :
    Recorded listenfd (turns ++ [.round session r])
      (sessions.set session { x with stage := stage }) (written ++ callsOf x.clientSocket r) where
  apart := fds_set hx stage ▸ h.apart
  addressed call hcall := by
    rw [fds_set hx stage]
    rcases List.mem_append.mp hcall with hold | hnew
    · exact h.addressed call hold
    · have hfd : call.fd = x.clientSocket.fd := by
        by_contra hne
        have hnone := List.map_eq_nil_iff.mp (bytesTo_callsOf_of_ne (Ne.symm hne) r)
        exact List.filter_eq_nil_iff.mp hnone call hnew (decide_eq_true rfl)
      rw [hfd]
      exact List.mem_map_of_mem (List.mem_of_getElem? hx)
  unknown k hle := by
    rw [List.length_set] at hle
    have hlt := (List.getElem?_eq_some_iff.mp hx).1
    rw [roundsOf_append_of_none (roundOf_round_of_ne (by omega) r)]
    exact h.unknown k hle
  talks k y hy := by
    rw [List.getElem?_set] at hy
    split at hy
    · rename_i heq
      subst heq
      split at hy
      · obtain rfl := Option.some.inj hy
        rw [roundsOf_append, bytesTo_append]
        rw [roundOf_round, Option.toList_some, bytesTo_callsOf]
        exact (h.talks session x hx).round hgoing hback
      · exact absurd hy (by simp)
    · rename_i hne
      -- another connection, and so another descriptor
      have hfd : x.clientSocket.fd ≠ y.clientSocket.fd := by
        intro heq
        have hlt := (List.getElem?_eq_some_iff.mp hx).1
        refine hne ((List.getElem?_inj (by rwa [List.length_map])
          (List.nodup_cons.mp h.apart).2).mp ?_)
        rw [List.getElem?_map, List.getElem?_map, hx, hy, Option.map_some, Option.map_some, heq]
      rw [roundsOf_append_of_none (roundOf_round_of_ne hne r), bytesTo_append, bytesTo_callsOf_of_ne hfd,
        List.append_nil]
      exact h.talks k y hy

end Recorded

/-! ### The server -/

section Acceptor
variable {a : MultiThreadAcceptor} {session : ℕ} {x : ThreadSession}

/-- A connection gets a descriptor that neither the listener nor another connection has. -/
theorem fresh_of_accept (hkept : a.Kept) {accepted : ℤ} {clientSocket : Socket}
    (haccept : a.listenerSocket.accept (a.acceptResult accepted) = .ok clientSocket) :
    clientSocket.fd ∉ a.listenerSocket.fd :: a.fds := by
  have hopen : a.clientFds.map (·.2) = a.fds := by
    rw [hkept]
    refine List.ext_getElem? fun k => ?_
    rw [List.getElem?_map, List.getElem?_mapIdx, Option.map_map]
    exact Option.map_id'
  unfold Socket.accept at haccept
  split at haccept
  · exact absurd haccept (by simp)
  · split at haccept
    · exact absurd haccept (by simp)
    · rename_i hresult
      rw [← Except.ok.inj haccept]
      unfold MultiThreadAcceptor.acceptResult at hresult ⊢
      split
      · rename_i hneg
        exact absurd hneg (by rwa [if_pos hneg] at hresult)
      · rw [hopen]
        exact freeFd_not_mem _ accepted

/-- What a turn of the accepting loop does to the connections: a new one, on a free descriptor, or
    one of them starts, or nothing. -/
theorem loop_sessions (hkept : a.Kept) (accepted : ℤ) :
    (∃ clientSocket : Socket, clientSocket.fd ∉ a.listenerSocket.fd :: a.fds ∧
      (a.step (.loop accepted)).sessions = a.sessions ++ [⟨clientSocket, .accepted⟩]) ∨
    (∃ session x, a.sessions[session]? = some x ∧ x.stage = .accepted ∧
      (a.step (.loop accepted)).sessions =
        a.sessions.set session { x with stage := .running }) ∨
    (a.step (.loop accepted)).sessions = a.sessions := by
  rw [MultiThreadAcceptor.step]
  unfold MultiThreadAcceptor.pollingLoop
  split
  · split
    · exact .inr (.inr rfl)
    · rename_i clientSocket haccept
      exact .inl ⟨clientSocket, fresh_of_accept hkept haccept, rfl⟩
  · rename_i session _
    rcases MultiThreadAcceptor.advance_cases a session .accepted .running with
      ⟨x, hx, hstage, heq⟩ | ⟨_, heq⟩
    · exact .inr (.inl ⟨session, x, hx, hstage, by rw [heq]⟩)
    · exact .inr (.inr (by rw [heq]))
  · exact .inr (.inr rfl)
  · exact .inr (.inr rfl)
  · exact .inr (.inr rfl)

theorem listenerSocket_loop (a : MultiThreadAcceptor) (accepted : ℤ) :
    (a.step (.loop accepted)).listenerSocket = a.listenerSocket := by
  rw [MultiThreadAcceptor.step]
  unfold MultiThreadAcceptor.pollingLoop
  split
  · split <;> rfl
  · rename_i session _
    rcases MultiThreadAcceptor.advance_cases a session .accepted .running with
      ⟨x, _, _, heq⟩ | ⟨_, heq⟩ <;> rw [heq]
  · rfl
  · rfl
  · rfl

theorem returns_eq (hx : a.sessions[session]? = some x) (hstage : x.stage = .running) :
    a.step (.returns session) =
      { a with sessions := a.sessions.set session { x with stage := .returned } } := by
  rw [MultiThreadAcceptor.step, MultiThreadAcceptor.destroySocket_eq,
    MultiThreadAcceptor.advance_of_stage hx hstage]

theorem ends_eq (hx : a.sessions[session]? = some x) (hstage : x.stage = .returned) :
    a.step (.ends session) =
      { a with sessions := a.sessions.set session { x with stage := .ended } } := by
  rw [MultiThreadAcceptor.step, MultiThreadAcceptor.destroySocket_eq,
    MultiThreadAcceptor.advance_of_stage hx hstage]

end Acceptor

section Step
variable {s s' : ThreadServer} {session : ℕ} {x : ThreadSession} {turn : ServerTurn}

/-- What a turn can be, and what it does. -/
theorem step_cases (h : s.step turn = some s') : s.state = .running ∧
    ((∃ accepted, turn = .loop accepted ∧ s' = s.loop accepted) ∨
      (∃ session r x, turn = .round session r ∧ s.acceptor.sessions[session]? = some x ∧
        x.stage = .running ∧ s' = s.ended session (handlerRound x.clientSocket r)) ∨
      ∃ session x, turn = .ends session ∧ s.acceptor.sessions[session]? = some x ∧
        x.stage = .returned ∧ s' = { s with acceptor := s.acceptor.step (.ends session) }) := by
  unfold step at h
  split at h
  · exact absurd h (by simp)
  · rename_i hrunning
    refine ⟨not_not.mp hrunning, ?_⟩
    split at h
    · rename_i accepted
      exact .inl ⟨accepted, rfl, (Option.some.inj h).symm⟩
    · rename_i session r
      split at h
      · rename_i x hx
        split at h
        · rename_i hstage
          exact .inr (.inl ⟨session, r, x, rfl, hx, hstage, (Option.some.inj h).symm⟩)
        · exact absurd h (by simp)
      · exact absurd h (by simp)
    · rename_i session
      split at h
      · rename_i x hx
        split at h
        · rename_i hstage
          exact .inr (.inr ⟨session, x, rfl, hx, hstage, (Option.some.inj h).symm⟩)
        · exact absurd h (by simp)
      · exact absurd h (by simp)

theorem loop_acceptor (s : ThreadServer) (accepted : ℤ) :
    (s.loop accepted).acceptor = s.acceptor.step (.loop accepted) := by
  unfold loop
  dsimp only
  split <;> rfl

theorem loop_written (s : ThreadServer) (accepted : ℤ) : (s.loop accepted).written = s.written := by
  unfold loop
  dsimp only
  split <;> rfl

/-- The process after a round: the call is made, the session is back if it has stopped, and a SIGPIPE
    or a scan that leaves memory is the end. -/
theorem ended_eq (hx : s.acceptor.sessions[session]? = some x) (hstage : x.stage = .running)
    (r : Round) : ∃ stage : Stage, isBack stage = decide r.Stops ∧
      s.ended session (handlerRound x.clientSocket r) =
        { acceptor := { s.acceptor with
            sessions := s.acceptor.sessions.set session { x with stage := stage } }
          state := if r.text = none then .undefined
            else if r.written = .sigpipe then .killed else s.state
          written := s.written ++ callsOf x.clientSocket r } := by
  have hsame : s.acceptor.sessions.set session { x with stage := .running } =
      s.acceptor.sessions := by
    obtain ⟨hlt, rfl⟩ := List.getElem?_eq_some_iff.mp hx
    rw [← hstage]
    exact List.set_getElem_self hlt
  rw [handlerRound_eq]
  cases htext : r.text with
  | none =>
    have hstops : ¬ r.Stops := by simp [Round.Stops, htext]
    refine ⟨.running, (decide_eq_false hstops).symm, ?_⟩
    rw [hsame, callsOf, Round.answer, htext, Option.map_none, Option.map_none, Option.toList_none,
      List.append_nil]
    rfl
  | some data =>
    have hcalls : callsOf x.clientSocket r = [⟨x.clientSocket.fd, r.frame⟩] := by
      rw [callsOf, Round.answer, htext]
      rfl
    rcases em (r.written = .sigpipe) with hpipe | hreturned
    · have hstops : ¬ r.Stops := fun hstops => hstops.2 hpipe
      refine ⟨.running, (decide_eq_false hstops).symm, ?_⟩
      simp only [if_pos hpipe, ended, hsame, hcalls]
      rfl
    · rcases em (data = stopCommand) with hstop | hgo
      · have hstops : r.Stops := ⟨by rw [htext, hstop], hreturned⟩
        refine ⟨.returned, (decide_eq_true hstops).symm, ?_⟩
        simp only [if_neg hreturned, if_pos hstop, ended, returns_eq hx hstage, hcalls]
        rfl
      · have hstops : ¬ r.Stops := by simp [Round.Stops, htext, hgo]
        refine ⟨.running, (decide_eq_false hstops).symm, ?_⟩
        simp only [if_neg hreturned, if_neg hgo, ended, hsame, hcalls]
        rfl

end Step

/-- A run so far, recorded. -/
structure Serving (tcpListener : TcpListener) (turns : List ServerTurn) (s : ThreadServer) : Prop where
  listener : s.acceptor.listenerSocket = tcpListener.socket
  kept : s.acceptor.Kept
  recorded : Recorded tcpListener.socket.fd turns s.acceptor.sessions s.written

theorem serving_start (tcpListener : TcpListener) : Serving tcpListener [] (start tcpListener) where
  listener := rfl
  kept := rfl
  recorded := {
    apart := List.nodup_singleton _
    addressed _ hcall := absurd hcall List.not_mem_nil
    unknown _ _ := rfl
    talks _ _ hx := absurd hx (by simp [start, MultiThreadAcceptor.start]) }

theorem Serving.step {tcpListener : TcpListener} {turns : List ServerTurn} {s s' : ThreadServer}
    (h : Serving tcpListener turns s) {turn : ServerTurn} (hstep : s.step turn = some s') :
    Serving tcpListener (turns ++ [turn]) s' := by
  obtain ⟨-, ⟨accepted, rfl, rfl⟩ | ⟨session, r, x, rfl, hx, hstage, rfl⟩ |
    ⟨session, x, rfl, hx, hstage, rfl⟩⟩ := step_cases hstep
  · have hrecorded : Recorded tcpListener.socket.fd turns
        (s.acceptor.step (.loop accepted)).sessions s.written := by
      rcases loop_sessions h.kept accepted with
        ⟨clientSocket, hfresh, heq⟩ | ⟨session, x, hx, hstage, heq⟩ | heq
      · rw [heq]
        rw [h.listener] at hfresh
        exact h.recorded.push hfresh
      · rw [heq]
        exact h.recorded.restage hx (by rw [hstage]; rfl)
      · rw [heq]
        exact h.recorded
    refine ⟨?_, ?_, ?_⟩
    · rw [loop_acceptor, listenerSocket_loop, h.listener]
    · rw [loop_acceptor]
      exact MultiThreadAcceptor.kept_step h.kept (.loop accepted)
    · rw [loop_acceptor, loop_written]
      exact hrecorded.silent fun _ => rfl
  · obtain ⟨stage, hback, heq⟩ := ended_eq hx hstage r
    rw [heq]
    refine ⟨h.listener, ?_, h.recorded.round hx (by rw [hstage]; rfl) hback⟩
    rw [MultiThreadAcceptor.Kept, MultiThreadAcceptor.fds, fds_set hx stage]
    exact h.kept
  · refine ⟨?_, MultiThreadAcceptor.kept_step h.kept (.ends session), ?_⟩
    · rw [ends_eq hx hstage]
      exact h.listener
    · rw [ends_eq hx hstage]
      exact (h.recorded.restage hx (by rw [hstage]; rfl)).silent fun _ => rfl

theorem serving_run {tcpListener : TcpListener} {turns : List ServerTurn} {s : ThreadServer}
    (hrun : turns.foldlM ThreadServer.step (start tcpListener) = some s) :
    Serving tcpListener turns s :=
  foldlM_history (serving_start tcpListener) (fun _ _ _ _ h hstep => h.step hstep) turns s hrun

/-- CORRECT: in every run connections have descriptors of their own, all calls of write(2) go to
    them, and what one is written is one buffer for each of its rounds, up to the one that stops. -/
theorem served {tcpListener : TcpListener} {turns : List ServerTurn} {s : ThreadServer}
    (hrun : turns.foldlM step (start tcpListener) = some s) :
    (tcpListener.socket.fd :: s.acceptor.fds).Nodup ∧
      (∀ call ∈ s.written, call.fd ∈ s.acceptor.fds) ∧
      ∀ session x, s.acceptor.sessions[session]? = some x →
        Conversation (roundsOf session turns) x.stage (bytesTo x.clientSocket.fd s.written) := by
  have h := (serving_run hrun).recorded
  exact ⟨h.apart, h.addressed, h.talks⟩

/-- A listener at descriptor 3. -/
def atThree : TcpListener := ⟨⟨3, .listener⟩, rfl, by decide⟩

theorem capacity_fits : 1024 ≤ 1024 ∧ 1024 < 2 ^ 63 := by decide

theorem take_fits (bytes : List UInt8) :
    (bytes.take 1024).length ≤ 1024 ∧ (bytes.take 1024).length < 2 ^ 63 := by
  have hle : (bytes.take 1024).length ≤ 1024 := List.length_take_le ..
  omega

/-- A round that reads the first of these bytes and whose write takes the whole buffer. -/
def echoing (bytes : List UInt8) : Round :=
  ⟨some ⟨bytes.take 1024, take_fits bytes⟩, [], .returned (some ⟨1024, capacity_fits⟩)⟩

/-- Two connections, with their rounds in turn. The second one says stop, and its thread ends. -/
def twoInTurn : List ServerTurn :=
  [.loop 4, .loop 0, .loop 0, .loop 0, .loop 5, .loop 0, .round 0 (echoing (ascii "hi")),
    .round 1 (echoing (ascii "ab")), .round 0 (echoing (ascii "c")), .loop 0,
    .round 1 (echoing stopCommand), .ends 1, .round 0 (echoing (ascii "ho"))]

theorem exists_twoInTurn : ∃ s x, twoInTurn.foldlM step (start atThree) = some s ∧
    s.acceptor.sessions[0]? = some x := by
  have hsome : ((twoInTurn.foldlM step (start atThree)).bind
      (·.acceptor.sessions[0]?)).isSome = true := by decide +kernel
  obtain ⟨x, hx⟩ := Option.isSome_iff_exists.mp hsome
  obtain ⟨s, hrun, hget⟩ := Option.bind_eq_some_iff.mp hx
  exact ⟨s, x, hrun, hget⟩

theorem served_twoInTurn : ∃ s, twoInTurn.foldlM step (start atThree) = some s ∧
    (3 :: s.acceptor.fds).Nodup ∧ (∀ call ∈ s.written, call.fd ∈ s.acceptor.fds) ∧
    ∀ session x, s.acceptor.sessions[session]? = some x →
      Conversation (roundsOf session twoInTurn) x.stage (bytesTo x.clientSocket.fd s.written) := by
  obtain ⟨s, _, hrun, _⟩ := exists_twoInTurn
  exact ⟨s, hrun, served hrun⟩

/-! ### Bytes back -/

/-- The rounds that have got to their write. -/
def answered (rounds : List Round) : List Round := rounds.filter fun r => r.text.isSome

theorem filterMap_answer (rounds : List Round) :
    rounds.filterMap Round.answer = (answered rounds).map Round.frame := by
  induction rounds with
  | nil => rfl
  | cons r rounds ih =>
    cases htext : r.text with
    | none =>
      rw [List.filterMap_cons_none (by rw [Round.answer, htext]; rfl), ih, answered, answered,
        List.filter_cons_of_neg (by simp [htext])]
    | some data =>
      rw [List.filterMap_cons_some (b := r.frame) (by rw [Round.answer, htext]; rfl), ih, answered,
        answered, List.filter_cons_of_pos (by simp [htext]), List.map_cons]

theorem length_flatten_frames (rounds : List Round) :
    ((rounds.map Round.frame).flatten).length = 1024 * rounds.length := by
  induction rounds with
  | nil => rfl
  | cons r rounds ih =>
    rw [List.map_cons, List.flatten_cons, List.length_append, ih, r.length_frame, List.length_cons]
    omega

/-- EXACT: a connection is written 1024 bytes for each read, which are the bytes read from it just
    when every read fills the buffer. -/
theorem returns_bytes_iff {tcpListener : TcpListener} {turns : List ServerTurn} {s : ThreadServer}
    (hrun : turns.foldlM step (start tcpListener) = some s) {session : ℕ} {x : ThreadSession}
    (hx : s.acceptor.sessions[session]? = some x) :
    let rounds := answered (roundsOf session turns)
    let back := (bytesTo x.clientSocket.fd s.written).flatten
    back.length = 1024 * rounds.length ∧
      (back = (rounds.map Round.received).flatten ↔
        ∀ r ∈ rounds, r.received.length = 1024) := by
  intro rounds back
  have hback : back = (rounds.map Round.frame).flatten := by
    have hsent := ((serving_run hrun).recorded.talks session x hx).sent_eq
    rw [filterMap_answer] at hsent
    exact congrArg List.flatten hsent
  have hprefix : ∀ r ∈ rounds, r.received <+: r.frame := by
    intro r _
    rw [r.frame_eq]
    exact List.prefix_append ..
  rw [hback]
  refine ⟨length_flatten_frames rounds, ?_⟩
  rw [eq_comm, flatten_eq_iff_of_prefix hprefix]
  exact forall₂_congr fun r _ => r.received_eq_frame_iff

theorem returns_bytes_iff_twoInTurn : ∃ s x,
    twoInTurn.foldlM step (start atThree) = some s ∧ s.acceptor.sessions[0]? = some x ∧
      (bytesTo x.clientSocket.fd s.written).flatten.length =
        1024 * (answered (roundsOf 0 twoInTurn)).length ∧
      ((bytesTo x.clientSocket.fd s.written).flatten =
          ((answered (roundsOf 0 twoInTurn)).map Round.received).flatten ↔
        ∀ r ∈ answered (roundsOf 0 twoInTurn), r.received.length = 1024) := by
  obtain ⟨s, x, hrun, hx⟩ := exists_twoInTurn
  exact ⟨s, x, hrun, hx, returns_bytes_iff hrun hx⟩

/-! ### The accepting loop -/

/-- What accept(2) is answered with, turn by turn of the loop. -/
def acceptsOf (turns : List ServerTurn) : List ℤ :=
  turns.filterMap fun
    | .loop accepted => some accepted
    | .round _ _ | .ends _ => none

/-- The acceptor as its loop sees it, without the stages. -/
def accepting (a : MultiThreadAcceptor) : MultiThreadAcceptor :=
  { a with sessions := a.sessions.map fun x => { x with stage := .accepted } }

theorem map_set_stage {sessions : List ThreadSession} {session : ℕ} {x : ThreadSession}
    (hx : sessions[session]? = some x) (stage : Stage) :
    (sessions.set session { x with stage := stage }).map
        (fun x => ({ x with stage := .accepted } : ThreadSession)) =
      sessions.map fun x => { x with stage := .accepted } := by
  obtain ⟨hlt, rfl⟩ := List.getElem?_eq_some_iff.mp hx
  refine List.ext_getElem? fun k => ?_
  rw [List.getElem?_map, List.getElem?_map, List.getElem?_set]
  split
  · rename_i heq
    subst heq
    rw [hx]
    rfl
  · rfl

theorem accepting_set {a : MultiThreadAcceptor} {session : ℕ} {x : ThreadSession}
    (hx : a.sessions[session]? = some x) (stage : Stage) :
    accepting { a with sessions := a.sessions.set session { x with stage := stage } } =
      accepting a := by
  rw [accepting, accepting, map_set_stage hx stage]

theorem accepting_advance (a : MultiThreadAcceptor) (session : ℕ) (stage stage' : Stage) :
    accepting (a.advance session stage stage') = accepting a := by
  rcases MultiThreadAcceptor.advance_cases a session stage stage' with ⟨x, hx, _, heq⟩ | ⟨_, heq⟩
  · rw [heq, accepting_set hx]
  · rw [heq]

/-- STEP: the loop does not see the stages. -/
theorem accepting_pollingLoop (a : MultiThreadAcceptor) (accepted : ℤ) :
    accepting (a.pollingLoop accepted) = accepting ((accepting a).pollingLoop accepted) := by
  have hloop : (accepting a).loop = a.loop := rfl
  have hresult : (accepting a).listenerSocket.accept ((accepting a).acceptResult accepted) =
      a.listenerSocket.accept (a.acceptResult accepted) := rfl
  have hagain : accepting (accepting a) = accepting a := by
    simp only [accepting, List.map_map, Function.comp_def]
  unfold MultiThreadAcceptor.pollingLoop
  rw [hloop, hresult]
  cases a.loop with
  | accepting =>
    cases a.listenerSocket.accept (a.acceptResult accepted) with
    | error failure =>
      exact congrArg (fun b : MultiThreadAcceptor => { b with loop := .threw failure }) hagain.symm
    | ok clientSocket => simp [accepting, Function.comp_def]
  | creating session =>
    have hboth : accepting (a.advance session .accepted .running) =
        accepting ((accepting a).advance session .accepted .running) := by
      rw [accepting_advance, accepting_advance, hagain]
    exact congrArg (fun b : MultiThreadAcceptor => { b with loop := .detaching ⟨session, true⟩ }) hboth
  | detaching task =>
    exact congrArg (fun b : MultiThreadAcceptor =>
      { b with loop := .pushing { task with joinable := false } }) hagain.symm
  | pushing task =>
    exact congrArg (fun b : MultiThreadAcceptor =>
      { b with loop := .accepting, tcpSessions := b.tcpSessions ++ [task] }) hagain.symm
  | threw failure => exact hagain.symm

/-- The accepting loop alone, for these answers of accept(2). -/
def alone (tcpListener : TcpListener) (accepts : List ℤ) : MultiThreadAcceptor :=
  accepts.foldl MultiThreadAcceptor.pollingLoop (.start tcpListener)

/-- One of the rounds is like this. -/
def Met (P : Round → Prop) (turns : List ServerTurn) : Prop :=
  ∃ session r, .round session r ∈ turns ∧ P r

/-- In one of the rounds the scan of the buffer has left memory. -/
def Overran (turns : List ServerTurn) : Prop := Met (fun r => r.text = none) turns

/-- One of the rounds has got to its write, and the peer was gone. -/
def Killed (turns : List ServerTurn) : Prop :=
  Met (fun r => r.text ≠ none ∧ r.written = .sigpipe) turns

/-- How far a run is, with the accepting loop as it would be alone. -/
structure Accepting (tcpListener : TcpListener) (turns : List ServerTurn) (s : ThreadServer) :
    Prop where
  same : accepting s.acceptor = accepting (alone tcpListener (acceptsOf turns))
  terminated : s.state = .terminated ↔ ∃ failure, s.acceptor.loop = .threw failure
  killed : s.state = .killed ↔ Killed turns
  undefined : s.state = .undefined ↔ Overran turns

section Accepting
variable {tcpListener : TcpListener} {turns : List ServerTurn} {s s' : ThreadServer}
  {turn : ServerTurn} {P : Round → Prop}

theorem not_met_nil (P : Round → Prop) : ¬ Met P [] :=
  fun ⟨_, _, hmem, _⟩ => absurd hmem List.not_mem_nil

theorem met_append_round (session : ℕ) (r : Round) :
    Met P (turns ++ [.round session r]) ↔ Met P turns ∨ P r := by
  constructor
  · rintro ⟨k, q, hmem, hq⟩
    rcases List.mem_append.mp hmem with hold | hnew
    · exact .inl ⟨k, q, hold, hq⟩
    · injection List.mem_singleton.mp hnew with _ heq
      exact .inr (heq ▸ hq)
  · rintro (⟨k, q, hmem, hq⟩ | hr)
    · exact ⟨k, q, List.mem_append_left _ hmem, hq⟩
    · exact ⟨session, r, List.mem_append_right _ (List.mem_singleton_self _), hr⟩

theorem met_append_of_silent (hturn : ∀ session, turn.roundOf session = none) :
    Met P (turns ++ [turn]) ↔ Met P turns := by
  constructor
  · rintro ⟨k, q, hmem, hq⟩
    rcases List.mem_append.mp hmem with hold | hnew
    · exact ⟨k, q, hold, hq⟩
    · have hround := roundOf_round k q
      rw [List.mem_singleton.mp hnew, hturn k] at hround
      exact absurd hround (by simp)
  · rintro ⟨k, q, hmem, hq⟩
    exact ⟨k, q, List.mem_append_left _ hmem, hq⟩

theorem acceptsOf_append (turns : List ServerTurn) (turn : ServerTurn) :
    acceptsOf (turns ++ [turn]) = acceptsOf turns ++ acceptsOf [turn] := List.filterMap_append ..

theorem loop_state (hrunning : s.state = .running) (accepted : ℤ) :
    ((s.loop accepted).state = .terminated ↔
      ∃ failure, (s.loop accepted).acceptor.loop = .threw failure) ∧
    (s.loop accepted).state ≠ .killed ∧ (s.loop accepted).state ≠ .undefined := by
  rw [loop_acceptor]
  unfold loop
  dsimp only
  split
  · rename_i failure hthrew
    exact ⟨iff_of_true rfl ⟨failure, hthrew⟩, State.noConfusion, State.noConfusion⟩
  · rename_i hnot
    rw [hrunning]
    exact ⟨iff_of_false State.noConfusion fun ⟨failure, hthrew⟩ => hnot failure hthrew,
      State.noConfusion, State.noConfusion⟩

/-- STEP: the loop goes on as it would alone, and only it, a SIGPIPE and an overrun end the
    process. -/
theorem Accepting.step (h : Accepting tcpListener turns s) (hstep : s.step turn = some s') :
    Accepting tcpListener (turns ++ [turn]) s' := by
  obtain ⟨hrunning, hturn⟩ := step_cases hstep
  have hwithin : ¬ Overran turns := by
    rw [← h.undefined, hrunning]
    exact State.noConfusion
  have halive : ¬ Killed turns := by
    rw [← h.killed, hrunning]
    exact State.noConfusion
  have hgoing : ¬ ∃ failure, s.acceptor.loop = .threw failure := by
    rw [← h.terminated, hrunning]
    exact State.noConfusion
  rcases hturn with ⟨accepted, rfl, rfl⟩ | ⟨session, r, x, rfl, hx, hstage, rfl⟩ |
    ⟨session, x, rfl, hx, hstage, rfl⟩
  · obtain ⟨hterminated, hkilled, hundefined⟩ := loop_state hrunning accepted
    have hsilent : ∀ session, (ServerTurn.loop accepted).roundOf session = none := fun _ => rfl
    refine ⟨?_, hterminated, iff_of_false hkilled ?_, iff_of_false hundefined ?_⟩
    · rw [loop_acceptor, MultiThreadAcceptor.step, accepting_pollingLoop, h.same,
        ← accepting_pollingLoop, acceptsOf_append, alone, alone, List.foldl_append]
      rfl
    · exact mt (met_append_of_silent hsilent).mp halive
    · exact mt (met_append_of_silent hsilent).mp hwithin
  · obtain ⟨stage, -, heq⟩ := ended_eq hx hstage r
    have hkilled : Killed (turns ++ [.round session r]) ↔ r.text ≠ none ∧ r.written = .sigpipe :=
      (met_append_round session r).trans (or_iff_right halive)
    have hoverran : Overran (turns ++ [.round session r]) ↔ r.text = none :=
      (met_append_round session r).trans (or_iff_right hwithin)
    have hsame : accepting { s.acceptor with
          sessions := s.acceptor.sessions.set session { x with stage := stage } } =
        accepting (alone tcpListener (acceptsOf (turns ++ [.round session r]))) := by
      rw [accepting_set hx, h.same, acceptsOf_append]
      exact congrArg _ (congrArg _ (List.append_nil _).symm)
    rw [heq]
    refine ⟨hsame, iff_of_false ?_ hgoing, Iff.trans ?_ hkilled.symm, Iff.trans ?_ hoverran.symm⟩
    all_goals
      dsimp only
      rw [hrunning]
      by_cases htext : r.text = none <;> by_cases hpipe : r.written = .sigpipe <;>
        simp [htext, hpipe]
  · rw [ends_eq hx hstage]
    have hsilent : ∀ k, (ServerTurn.ends session).roundOf k = none := fun _ => rfl
    refine ⟨?_, h.terminated, ?_, ?_⟩
    · rw [accepting_set hx, h.same, acceptsOf_append]
      exact congrArg _ (congrArg _ (List.append_nil _).symm)
    · exact h.killed.trans (met_append_of_silent hsilent).symm
    · exact h.undefined.trans (met_append_of_silent hsilent).symm

end Accepting

/-- CORRECT: whatever the connections do, the accepting loop accepts, starts threads and opens
    descriptors as it would without them; and nothing ends the process but an exception of that loop,
    a round whose write meets a peer that is gone, or one whose scan leaves memory: no command, and no
    read or write that returns, failed or not. -/
theorem accepts_alone {tcpListener : TcpListener} {turns : List ServerTurn} {s : ThreadServer}
    (hrun : turns.foldlM step (start tcpListener) = some s) :
    let loop := alone tcpListener (acceptsOf turns)
    s.acceptor.loop = loop.loop ∧ s.acceptor.tcpSessions = loop.tcpSessions ∧
      s.acceptor.clientFds = loop.clientFds ∧ s.acceptor.fds = loop.fds ∧
      (s.state = .terminated ↔ ∃ failure, loop.loop = .threw failure) ∧
      (s.state = .killed ↔ Killed turns) ∧ (s.state = .undefined ↔ Overran turns) := by
  intro loop
  have h : Accepting tcpListener turns s := by
    refine foldlM_history (P := fun turns s => Accepting tcpListener turns s) ?_
      (fun _ _ _ _ h hstep => h.step hstep) turns s hrun
    exact ⟨rfl, iff_of_false State.noConfusion fun ⟨_, h⟩ => PollingLoop.noConfusion h,
      iff_of_false State.noConfusion (not_met_nil _), iff_of_false State.noConfusion (not_met_nil _)⟩
  have hfds (a : MultiThreadAcceptor) : (accepting a).fds = a.fds := by
    rw [MultiThreadAcceptor.fds, accepting, List.map_map]
    rfl
  have hloop : s.acceptor.loop = loop.loop := congrArg (·.loop) h.same
  refine ⟨hloop, congrArg (·.tcpSessions) h.same, congrArg (·.clientFds) h.same, ?_,
    hloop ▸ h.terminated, h.killed, h.undefined⟩
  rw [← hfds s.acceptor, h.same, hfds]

theorem accepts_alone_twoInTurn : ∃ s, twoInTurn.foldlM step (start atThree) = some s ∧
    s.acceptor.loop = (alone atThree (acceptsOf twoInTurn)).loop ∧
    s.acceptor.tcpSessions = (alone atThree (acceptsOf twoInTurn)).tcpSessions ∧
    s.acceptor.clientFds = (alone atThree (acceptsOf twoInTurn)).clientFds ∧
    s.acceptor.fds = (alone atThree (acceptsOf twoInTurn)).fds ∧
    (s.state = .terminated ↔
      ∃ failure, (alone atThree (acceptsOf twoInTurn)).loop = .threw failure) ∧
    (s.state = .killed ↔ Killed twoInTurn) ∧ (s.state = .undefined ↔ Overran twoInTurn) := by
  obtain ⟨s, _, hrun, _⟩ := exists_twoInTurn
  exact ⟨s, hrun, accepts_alone hrun⟩

end ThreadServer
end UnixIpc.Servers
