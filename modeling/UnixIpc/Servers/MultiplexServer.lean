import UnixIpc.Engine.Connections
import UnixIpc.Servers.ThreadServer

/-! The server on `TcpMultiplexAcceptor`, with whoever is connected. Its handler reads once, into a
    fresh buffer, prints that and writes all of it back:

        poll ──▶ handleClientsSocket ──client i──▶ read ──▶ cout << data() ──▶ write(1024 bytes)

    For each chunk that TCP makes of a peer's stream there is one call of write(2), with one buffer
    (`answers_chunks`); one to a peer that is gone may end the process by SIGPIPE. The client that
    belongs to it sends `size()` bytes of a buffer, which is none, and waits for the answer
    (`unanswered`). -/

namespace UnixIpc.Servers
open UnixIpc.Bytes UnixIpc.Descriptors UnixIpc.Engine UnixIpc.Links UnixIpc.Run

namespace MultiplexServer
open ThreadServer (Round State bytesTo)

/-- How a call of the handler ends. -/
inductive HandlerEnd where
  | returned (call : WriteCall) (result : Bool)
  | threw (what : String)
  | killed (call : WriteCall)
  | undefined
  deriving DecidableEq

/-- `handler`. -/
def handler (socket : Socket) (r : Round) : HandlerEnd :=
  match socket.read (StaticBuffer.fresh 1024).toBuffer r.incoming with
  | .error what => .threw what
  | .ok (_, buffer) =>
    match cString (buffer.data ++ r.stack) with
    | none => .undefined
    | some _ =>
      match socket.write buffer buffer.capacity with
      | .error _ => .undefined
      | .ok call =>
        match r.written with
        | .sigpipe => .killed call
        | .returned transfer =>
          match socket.written buffer transfer with
          | .error what => .threw what
          | .ok _ => .returned call true

namespace HandlerEnd

/-- What the acceptor gets. -/
def result : HandlerEnd → Option Bool
  | .returned _ result => some result
  | .threw _ | .killed _ | .undefined => none

/-- The call of write(2) that has been made. -/
def call : HandlerEnd → Option WriteCall
  | .returned call _ | .killed call => some call
  | .threw _ | .undefined => none

def isKilled : HandlerEnd → Bool
  | .killed _ => true
  | .returned _ _ | .threw _ | .undefined => false

end HandlerEnd

/-- A call of the handler, with what it meets. -/
structure HandlerCall where
  socket : Socket
  round : Round

namespace HandlerCall

def ends (c : HandlerCall) : HandlerEnd := handler c.socket c.round

/-- The bytes it has read, under its descriptor. -/
def chunk (c : HandlerCall) : ℤ × List UInt8 := (c.socket.fd, c.round.received)

end HandlerCall

/-- One poll: what it finds (`none`: it fails), the result of accept(2), and what the handlers meet by
    index. -/
structure ServerPoll where
  revents : Option (ℕ → UInt16)
  accepted : ℤ
  round : ℕ → Round

/-- The same for the acceptor. -/
def ServerPoll.onAcceptor (p : ServerPoll) (a : Acceptor Unit) : PollAnswer where
  result :=
    match p.revents with
    | none => -1
    | some revents => (report a.clientPollFdSet revents).countP (·.revents ≠ 0)
  revents := p.revents.getD fun _ => 0
  answers i :=
    ⟨p.accepted, (a.tcpSessions[i]?).bind fun session => (handler session.socket (p.round i)).result,
      false⟩

/-- How the process stands after these calls of the handler, and the pass they are part of: main
    catches nothing. -/
def stateAfter (calls : List HandlerCall) (outcome : Outcome) : State :=
  if calls.any (·.ends = .undefined) then .undefined
  else if calls.any (·.ends.isKilled) then .killed
  else
    match outcome with
    | .running => .running
    | .threw _ => .terminated
    | .undefined => .undefined

end MultiplexServer

/-- The process: the world of its acceptor, its connections by descriptor, and a record of the calls
    of the handler. -/
structure MultiplexServer where
  world : World Unit
  links : ℤ → Option (Link UInt8)
  calls : List MultiplexServer.HandlerCall
  state : ThreadServer.State

namespace MultiplexServer
open ThreadServer (Round State bytesTo)

/-- Whose turn it is: a peer writes or goes, or the server polls. -/
inductive ServerEvent where
  | write (fd : ℤ) (bytes : List UInt8)
  | hangUp (fd : ℤ)
  | poll (p : ServerPoll)

/-- `MakeTcpMultiplexAcceptor`: an acceptor at address 1 is moved into main's, at address 0. -/
def makeTcpMultiplexAcceptor (tcpListener : TcpListener) : List (Event Unit) :=
  [.construct 1 tcpListener (), .moveConstruct 0 1, .destroy 1]

/-- Main's acceptor then. -/
def made (tcpListener : TcpListener) : Acceptor Unit :=
  .taken 0 (.construct 1 tcpListener ()) [⟨tcpListener.getSocket, .listener 0 (some ())⟩]

/-- Main, at `pollingLoop`. -/
def start (tcpListener : TcpListener) : MultiplexServer where
  world := { World.empty.put 0 (some (made tcpListener)) with openFds := [tcpListener.socket.fd] }
  links := fun _ => none
  calls := []
  state := .running

/-- The calls of write(2). -/
def written (s : MultiplexServer) : List WriteCall := s.calls.filterMap (·.ends.call)

theorem chunk_fits (l : Link UInt8) (wanted : ℕ) :
    (l.chunk 1024 wanted).length ≤ 1024 ∧ (l.chunk 1024 wanted).length < 2 ^ 63 := by
  have hle := l.length_chunk_le 1024 wanted
  omega

/-- What a read of session `i` returns: it fails, or takes some of the bytes under way. -/
def incoming (s : MultiplexServer) (a : Acceptor Unit) (i : ℕ) (wanted : Incoming 1024) :
    Incoming 1024 :=
  match a.link s.links i, wanted with
  | some l, some bytes => some ⟨l.chunk 1024 bytes.1.length, chunk_fits l _⟩
  | _, _ => none

/-- What becomes of a write to session `i`: SIGPIPE is for a peer that is gone. -/
def outgoing (s : MultiplexServer) (a : Acceptor Unit) (i : ℕ) (wanted : Written 1024) :
    Written 1024 :=
  if (a.link s.links i).any Link.isOpen ∧ wanted = .sigpipe then .returned none else wanted

/-- The poll as the kernel answers it. -/
def onLinks (s : MultiplexServer) (a : Acceptor Unit) (p : ServerPoll) : ServerPoll where
  revents := p.revents.map (a.onLinks s.links)
  accepted := freeAnswer s.world.openFds p.accepted
  round i := { p.round i with
    incoming := s.incoming a i (p.round i).incoming
    written := s.outgoing a i (p.round i).written }

/-- The call of the handler when session `i` is dispatched, if it is a client's. -/
def callOf (a : Acceptor Unit) (p : ServerPoll) (e : ℕ × Socket) : Option HandlerCall :=
  if (a.tcpSessions[e.1]?).any (·.requestHandler.isClient) then some ⟨e.2, p.round e.1⟩ else none

/-- One turn of `pollingLoop`. -/
def poll (s : MultiplexServer) (p : ServerPoll) : MultiplexServer :=
  match s.world.acceptors 0 with
  | none => s
  | some a =>
    let q := s.onLinks a p
    let result := s.world.pass 0 (q.onAcceptor a)
    let calls := result.dispatched.filterMap (callOf a q)
    { world := result.world
      links := turn s.links (calls.map HandlerCall.chunk) (result.admitted.map (·.fd))
      calls := s.calls ++ calls
      state := stateAfter calls result.outcome }

/-- A process that has ended does not poll. -/
def next (s : MultiplexServer) : ServerEvent → MultiplexServer
  | .write fd bytes => { s with links := modify s.links fd (·.write bytes) }
  | .hangUp fd => { s with links := modify s.links fd Link.hangUp }
  | .poll p => if s.state = .running then s.poll p else s

/-! ### One call -/

/-- The handler in terms of its read: it writes the whole buffer, and returns true if that returns. -/
theorem handler_eq (socket : Socket) (r : Round) :
    handler socket r = match r.text with
      | none => .undefined
      | some _ =>
        if r.written = .sigpipe then .killed ⟨socket.fd, r.frame⟩
        else .returned ⟨socket.fd, r.frame⟩ true := by
  obtain ⟨buffer, hread, htext, hwrite, hwritten⟩ := r.calls_eq socket
  simp only [handler, hread, htext, hwrite]
  cases r.text with
  | none => rfl
  | some data =>
    cases r.written with
    | sigpipe => rfl
    | returned transfer => simp only [hwritten, reduceCtorEq, if_false]

theorem HandlerCall.ends_undefined_iff (c : HandlerCall) :
    c.ends = .undefined ↔ c.round.text = none := by
  rw [ends, handler_eq]
  cases c.round.text with
  | none => simp
  | some data => by_cases hpipe : c.round.written = .sigpipe <;> simp [hpipe]

theorem HandlerCall.call_ends (c : HandlerCall) :
    c.ends.call = c.round.answer.map (WriteCall.mk c.socket.fd) := by
  rw [ends, handler_eq, Round.answer]
  cases c.round.text with
  | none => rfl
  | some data => by_cases hpipe : c.round.written = .sigpipe <;> simp [hpipe, HandlerEnd.call]

/-- A call that ends the process has made its write, and got SIGPIPE. -/
theorem HandlerCall.of_isKilled {c : HandlerCall} (h : c.ends.isKilled = true) :
    c.round.written = .sigpipe ∧ ∃ call, c.ends.call = some call ∧ call.fd = c.socket.fd := by
  rw [ends, handler_eq] at h ⊢
  cases htext : c.round.text with
  | none =>
    rw [htext] at h
    cases h
  | some data =>
    rw [htext] at h
    by_cases hpipe : c.round.written = .sigpipe
    · exact ⟨hpipe, ⟨c.socket.fd, c.round.frame⟩, by simp [hpipe, HandlerEnd.call], rfl⟩
    · simp [hpipe, HandlerEnd.isKilled] at h

/-- The acceptor's part is defined, so the process is unless a scan has left memory. -/
theorem stateAfter_undefined_iff (calls : List HandlerCall) {outcome : Outcome}
    (h : outcome ≠ .undefined) :
    stateAfter calls outcome = .undefined ↔ ∃ c ∈ calls, c.round.text = none := by
  have hany : calls.any (·.ends = .undefined) = true ↔ ∃ c ∈ calls, c.round.text = none := by
    simp only [List.any_eq_true, decide_eq_true_eq, HandlerCall.ends_undefined_iff]
  unfold stateAfter
  split
  · rename_i hover
    exact iff_of_true rfl (hany.mp hover)
  · rename_i hover
    refine iff_of_false ?_ (mt hany.mpr hover)
    split
    · exact State.noConfusion
    · cases outcome with
      | running | threw => exact State.noConfusion
      | undefined => exact absurd rfl h

/-- Only a call that is killed ends the process so. -/
theorem exists_killed_of_stateAfter {calls : List HandlerCall} {outcome : Outcome}
    (h : stateAfter calls outcome = .killed) : ∃ c ∈ calls, c.ends.isKilled = true := by
  rw [← List.any_eq_true]
  unfold stateAfter at h
  split at h
  · cases h
  · split at h
    · assumption
    · cases outcome <;> cases h

/-- The scan leaves memory only behind a buffer that is full, without a NUL. -/
theorem received_of_overrun {r : Round} (h : r.text = none) :
    r.received.length = 1024 ∧ 0 ∉ r.received := by
  have hnul : 0 ∉ r.frame ++ r.stack := by
    unfold Round.text cString at h
    split at h
    · cases h
    · assumption
  rw [List.mem_append, not_or] at hnul
  have hframe := hnul.1
  rw [r.frame_eq, List.mem_append, not_or] at hframe
  refine ⟨?_, hframe.1⟩
  have hle := r.received_length_le
  by_contra hne
  refine hframe.2 (List.mem_replicate.mpr ⟨?_, rfl⟩)
  omega

theorem cString_zeros (stack : List UInt8) : cString (List.replicate 1024 0 ++ stack) = some [] := by
  have hnul : 0 ∈ List.replicate 1024 (0 : UInt8) ++ stack :=
    List.mem_append_left _ (List.mem_replicate.mpr ⟨by decide, rfl⟩)
  rw [cString, if_pos hnul]
  rfl

/-- A read without a byte leaves zeros. -/
theorem text_of_nothing {r : Round} (h : r.received = []) : r.text = some [] := by
  have hframe : r.frame = List.replicate 1024 0 := by rw [r.frame_eq, h]; rfl
  rw [Round.text, hframe, cString_zeros]

/-! ### Main up to its loop -/

theorem makeTcpMultiplexAcceptor_eq (tcpListener : TcpListener) :
    World.empty.run (makeTcpMultiplexAcceptor tcpListener) = some (start tcpListener).world := by
  have hacceptors : Function.update (Function.update (Function.update (Function.update
      (fun _ => none) 1 (some (.construct 1 tcpListener ()))) 1
        (some (Acceptor.construct 1 tcpListener ()).moved)) 0 (some (made tcpListener))) 1 none =
      Function.update (fun _ => none) 0 (some (made tcpListener)) := by
    funext id
    rcases eq_or_ne id 1 with rfl | hone
    · rfl
    · rcases eq_or_ne id 0 with rfl | hzero
      · rfl
      · simp only [Function.update_of_ne hone, Function.update_of_ne hzero]
  exact congrArg (fun acceptors => some (World.mk acceptors [tcpListener.socket.fd])) hacceptors

/-! ### Conservation -/

section Kept
variable {s : MultiplexServer} {a : Acceptor Unit}

/-- INVARIANT: no byte is lost or doubled between the peers and the handler, only a scan that leaves
    memory makes the process undefined, and only a write to a peer that is gone kills it. -/
structure Kept (s : MultiplexServer) : Prop where
  sound : s.world.Sound
  wired : ∃ a, s.world.acceptors 0 = some a ∧ Tidy 0 s.world.openFds a ∧
    Wired s.world.openFds a s.links
  conserved : Conserved s.links (s.calls.map HandlerCall.chunk)
  defined : s.state = .undefined ↔ ∃ c ∈ s.calls, c.round.text = none
  killed : s.state = .killed →
    ∃ call ∈ s.written, ∃ l, s.links call.fd = some l ∧ l.isOpen = false

theorem start_kept (tcpListener : TcpListener) : (start tcpListener).Kept where
  sound := by
    refine (World.empty_all _).put_some ?_
    exact (Acceptor.construct_sound 1 tcpListener ()).moveConstruct rfl
  wired := by
    refine ⟨made tcpListener, rfl, ⟨⟨(), [], rfl, rfl, by simp⟩, tcpListener.listening, rfl, ?_, ?_⟩, ?_⟩
    · exact List.nodup_singleton _
    · intro fd hfd
      exact hfd
    · exact wired_none le_rfl
  conserved := conserved_none
  defined := iff_of_false State.noConfusion fun ⟨_, h, _⟩ => absurd h List.not_mem_nil
  killed h := State.noConfusion h

theorem gone_of_outgoing {i : ℕ} {l : Link UInt8} {wanted : Written 1024}
    (hl : a.link s.links i = some l) (hpipe : s.outgoing a i wanted = .sigpipe) : l.isOpen = false := by
  rw [outgoing, hl, Option.any_some] at hpipe
  split at hpipe
  · cases hpipe
  · rename_i hnot
    rw [Bool.eq_false_iff]
    exact fun hopen => hnot ⟨hopen, hpipe⟩

/-- The handler is called for sessions that are readable, at most once for each, gets the beginning of
    what is under way, and a SIGPIPE only if the peer is gone. -/
theorem calls_of_poll (ha : s.world.acceptors 0 = some a) (htidy : Tidy 0 s.world.openFds a)
    (hwired : Wired s.world.openFds a s.links) (p : ServerPoll) :
    let q := s.onLinks a p
    let calls := (s.world.pass 0 (q.onAcceptor a)).dispatched.filterMap (callOf a q)
    ((calls.map HandlerCall.chunk).map Prod.fst).Nodup ∧
      Genuine s.links (calls.map HandlerCall.chunk) ∧
      (∀ r ∈ calls.map HandlerCall.chunk, ∀ l, s.links r.1 = some l → l.readable = true) ∧
      ∀ c ∈ calls, c.round.written = .sigpipe →
        ∃ l, s.links c.socket.fd = some l ∧ l.isOpen = false := by
  intro q calls
  obtain ⟨made, hmade, hsub, hcalled⟩ := htidy.aligned.dispatched ha (p := q.onAcceptor a)
  have hcalls : calls = (made.filter fun d => decide (0 < d.1)).map fun d =>
      ⟨d.2.socket, q.round d.1⟩ := by
    show (s.world.pass 0 (q.onAcceptor a)).dispatched.filterMap (callOf a q) = _
    rw [hmade, List.filterMap_map, ← List.filterMap_eq_map, List.filterMap_filter]
    refine List.filterMap_congr fun d hd => ?_
    have hclient := htidy.isClient (hcalled d hd).1
    simp only [Function.comp_apply, callOf, (hcalled d hd).1, Option.any_some, hclient]
    by_cases hpos : 0 < d.1 <;> simp [hpos]
  have hfrom : ∀ c ∈ calls, ∃ (i : ℕ) (session : TcpSession Unit) (l : Link UInt8),
      s.links session.socket.fd = some l ∧
      a.link s.links i = some l ∧ c = ⟨session.socket, q.round i⟩ ∧
      (q.onAcceptor a).revents i = pollRdNorm := by
    intro c hc
    rw [hcalls] at hc
    obtain ⟨d, hd, rfl⟩ := List.mem_map.mp hc
    obtain ⟨hd, hpos⟩ := List.mem_filter.mp hd
    obtain ⟨hs, hready⟩ := hcalled d hd
    obtain ⟨l, hl⟩ := hwired.linked d.1 d.2 (of_decide_eq_true hpos) hs
    exact ⟨d.1, d.2, l, hl, by rw [Acceptor.link, hs]; exact hl, rfl, hready⟩
  refine ⟨?_, ?_, ?_, ?_⟩
  · rw [hcalls, List.map_map, List.map_map]
    have hclients := (List.filter_sublist (p := fun d => decide (0 < d.1)) (l := made)).map
      fun d => d.2.socket.fd
    have hall := hsub.map (·.socket.fd)
    rw [List.map_map] at hall
    exact (hclients.trans hall).nodup htidy.distinct
  · intro r hr
    obtain ⟨c, hc, rfl⟩ := List.mem_map.mp hr
    obtain ⟨i, session, l, hl, hlink, rfl, -⟩ := hfrom c hc
    refine ⟨l, hl, ?_⟩
    show Round.received { p.round i with
      incoming := s.incoming a i (p.round i).incoming
      written := s.outgoing a i (p.round i).written } <+: _
    unfold Round.received incoming
    rw [hlink]
    cases (p.round i).incoming with
    | none => exact List.nil_prefix
    | some bytes => exact l.chunk_prefix _ _
  · intro r hr l' hl'
    obtain ⟨c, hc, rfl⟩ := List.mem_map.mp hr
    obtain ⟨i, session, l, hl, hlink, rfl, hready⟩ := hfrom c hc
    obtain rfl := Option.some.inj (hl.symm.trans hl')
    have hrevents : (q.onAcceptor a).revents = (p.revents.map (a.onLinks s.links)).getD fun _ => 0 := rfl
    rw [hrevents] at hready
    cases hp : p.revents with
    | none =>
      rw [hp] at hready
      exact absurd (show (0 : UInt16) = pollRdNorm from hready) (by decide)
    | some revents =>
      rw [hp, Option.map_some, Option.getD_some] at hready
      exact Acceptor.readable_of_onLinks hready hlink
  · intro c hc hpipe
    obtain ⟨i, session, l, hl, hlink, rfl, -⟩ := hfrom c hc
    have hwritten : s.outgoing a i (p.round i).written = .sigpipe := hpipe
    exact ⟨l, hl, gone_of_outgoing hlink hwritten⟩

/-- STEP: a poll, in terms of what it has read and taken in. -/
theorem Kept.poll_eq (h : s.Kept) (hrunning : s.state = .running) (p : ServerPoll) :
    ∃ calls opened, (s.poll p).links = turn s.links (calls.map HandlerCall.chunk) opened ∧
      (s.poll p).calls = s.calls ++ calls ∧ (s.poll p).Kept ∧
      ((calls.map HandlerCall.chunk).map Prod.fst).Nodup ∧
      Genuine s.links (calls.map HandlerCall.chunk) ∧
      (∀ r ∈ calls.map HandlerCall.chunk, ∀ l, s.links r.1 = some l → l.readable = true) ∧
      ∀ fd ∈ opened, s.links fd = none := by
  obtain ⟨a, ha, htidy, hwired⟩ := h.wired
  obtain ⟨q, hq⟩ : ∃ q, q = s.onLinks a p := ⟨_, rfl⟩
  obtain ⟨hnodup, hgenuine, hready, hgone⟩ := calls_of_poll ha htidy hwired p
  rw [← hq] at hnodup hgenuine hready hgone
  obtain ⟨l, hadmitted, hnew, hfds, b, hb, hbtidy, hbsessions⟩ :=
    htidy.taken ha (p := q.onAcceptor a) (fun _ => rfl) (by rw [hq]; exact freeAnswer_fresh)
  have hopened := hwired.fresh hnew
  have hpoll : s.poll p =
      { world := (s.world.pass 0 (q.onAcceptor a)).world
        links := turn s.links
          (((s.world.pass 0 (q.onAcceptor a)).dispatched.filterMap (callOf a q)).map
            HandlerCall.chunk) (l.map (·.fd))
        calls := s.calls ++ (s.world.pass 0 (q.onAcceptor a)).dispatched.filterMap (callOf a q)
        state := stateAfter ((s.world.pass 0 (q.onAcceptor a)).dispatched.filterMap (callOf a q))
          (s.world.pass 0 (q.onAcceptor a)).outcome } := by
    simp only [poll, ha, ← hq, hadmitted]
  refine ⟨_, l.map (·.fd), by rw [hpoll], by rw [hpoll], ?_, hnodup, hgenuine, hready, hopened⟩
  rw [hpoll]
  refine ⟨h.sound.pass ha _, ⟨b, hb, hbtidy, ?_⟩, ?_, ?_, ?_⟩
  · dsimp only
    rw [hfds]
    exact hwired.turn _ hbsessions
  · rw [List.map_append]
    exact h.conserved.turn hgenuine hnodup hopened
  · have hbefore : ¬ ∃ c ∈ s.calls, c.round.text = none := by
      rw [← h.defined, hrunning]
      exact State.noConfusion
    have hdefined := (h.sound.pass_orderly ha (q.onAcceptor a)).defined
    refine (stateAfter_undefined_iff _ hdefined).trans ⟨?_, ?_⟩
    · rintro ⟨c, hc, htext⟩
      exact ⟨c, List.mem_append_right _ hc, htext⟩
    · rintro ⟨c, hc, htext⟩
      rcases List.mem_append.mp hc with hold | hnew
      · exact absurd ⟨c, hold, htext⟩ hbefore
      · exact ⟨c, hnew, htext⟩
  · intro hstate
    obtain ⟨c, hc, hends⟩ := exists_killed_of_stateAfter hstate
    obtain ⟨hpipe, call, hcall, hfd⟩ := HandlerCall.of_isKilled hends
    obtain ⟨l, hl, hclosed⟩ := hgone c hc hpipe
    have hmem : c ∈ s.calls ++ _ := List.mem_append_right _ hc
    exact ⟨call, List.mem_filterMap.mpr ⟨c, hmem, hcall⟩, _, turn_old _ hopened (hfd ▸ hl), hclosed⟩

/-- A peer's move; one that is gone does not come back. -/
theorem Kept.modify (h : s.Kept) (fd : ℤ) {f : Link UInt8 → Link UInt8}
    (hf : ∀ l front, front ++ l.toReceiver = l.sent → front ++ (f l).toReceiver = (f l).sent)
    (hclosed : ∀ l, l.isOpen = false → (f l).isOpen = false) :
    ({ s with links := Links.modify s.links fd f } : MultiplexServer).Kept := by
  obtain ⟨a, ha, htidy, hwired⟩ := h.wired
  refine ⟨h.sound, ⟨a, ha, htidy, hwired.modify fd f⟩, h.conserved.modify fd hf, h.defined, ?_⟩
  intro hkilled
  obtain ⟨call, hcall, l, hl, hgone⟩ := h.killed hkilled
  obtain ⟨l', hl'⟩ := exists_modify fd f ⟨l, hl⟩
  refine ⟨call, hcall, l', hl', ?_⟩
  obtain ⟨old, hold, rfl | rfl⟩ := modify_cases hl'
  · exact Option.some.inj (hold.symm.trans hl) ▸ hgone
  · exact hclosed old (Option.some.inj (hold.symm.trans hl) ▸ hgone)

theorem Kept.next (h : s.Kept) (e : ServerEvent) : (s.next e).Kept := by
  cases e with
  | write fd bytes =>
    refine h.modify fd (fun _ _ => Link.write_content bytes) ?_
    intro l hclosed
    rw [Link.write, hclosed]
    exact hclosed
  | hangUp fd => exact h.modify fd (fun _ _ hl => hl) fun _ _ => rfl
  | poll p =>
    rw [MultiplexServer.next]
    split
    · rename_i hrunning
      obtain ⟨_, _, -, -, hkept, -⟩ := h.poll_eq hrunning p
      exact hkept
    · exact h

end Kept

theorem kept_run (tcpListener : TcpListener) (events : List ServerEvent) :
    (events.foldl MultiplexServer.next (start tcpListener)).Kept :=
  foldl_inv (fun _ e h => h.next e) events _ (start_kept tcpListener)

/-! ### What is written -/

/-- A chunk in a buffer of its own. -/
def padded (chunk : List UInt8) : List UInt8 := chunk ++ List.replicate (1024 - chunk.length) 0

/-- A descriptor is written the answers of its own calls. -/
theorem bytesTo_written (fd : ℤ) (calls : List HandlerCall) :
    bytesTo fd (calls.filterMap (·.ends.call)) =
      ((calls.filter (·.socket.fd = fd)).map HandlerCall.round).filterMap Round.answer := by
  induction calls with
  | nil => rfl
  | cons c calls ih =>
    have hrest : bytesTo fd ((c :: calls).filterMap (·.ends.call)) =
        bytesTo fd (ThreadServer.callsOf c.socket c.round) ++
          ((calls.filter (·.socket.fd = fd)).map HandlerCall.round).filterMap Round.answer := by
      rw [← ih, ← ThreadServer.bytesTo_append]
      congr 1
      rw [ThreadServer.callsOf, ← c.call_ends]
      cases hcall : c.ends.call <;> simp only [List.filterMap_cons, hcall] <;> rfl
    rw [hrest]
    by_cases hfd : c.socket.fd = fd
    · subst hfd
      rw [ThreadServer.bytesTo_callsOf, List.filter_cons_of_pos (by simp), List.map_cons]
      cases hanswer : c.round.answer with
      | none => rw [List.filterMap_cons_none hanswer]; rfl
      | some frame => rw [List.filterMap_cons_some hanswer]; rfl
    · rw [ThreadServer.bytesTo_callsOf_of_ne hfd, List.filter_cons_of_neg (by simpa using hfd)]
      rfl

/-- Whatever is written goes to where something was read. -/
theorem exists_call_of_written {s : MultiplexServer} {call : WriteCall} (h : call ∈ s.written) :
    ∃ c ∈ s.calls, c.chunk.1 = call.fd := by
  obtain ⟨c, hc, hcall⟩ := List.mem_filterMap.mp h
  rw [c.call_ends] at hcall
  obtain ⟨frame, _, rfl⟩ := Option.map_eq_some_iff.mp hcall
  exact ⟨c, hc, rfl⟩

/-- CORRECT: whoever writes what and when, and whoever goes, the calls of write(2) for each connection
    pass its own stream as far as it was read, chunk by chunk, in buffers with zeros behind; unless a
    chunk that fills the buffer, without a NUL, has sent the scan out of it. If SIGPIPE has killed the
    process, one of the calls went to a peer that is gone. -/
theorem answers_chunks (tcpListener : TcpListener) (events : List ServerEvent) :
    let s := events.foldl next (start tcpListener)
    (∀ call ∈ s.written, ∃ l, s.links call.fd = some l) ∧
      (s.state = .undefined →
        ∃ c ∈ s.calls, c.round.received.length = 1024 ∧ 0 ∉ c.round.received) ∧
      (s.state = .killed → ∃ call ∈ s.written, ∃ l, s.links call.fd = some l ∧ l.isOpen = false) ∧
      ∀ fd l, s.links fd = some l → ∃ chunks : List (List UInt8),
        (∀ chunk ∈ chunks, chunk.length ≤ 1024) ∧ chunks.flatten ++ l.toReceiver = l.sent ∧
        (bytesTo fd s.written).Sublist (chunks.map padded) ∧
        (s.state ≠ .undefined → bytesTo fd s.written = chunks.map padded) := by
  intro s
  have h : s.Kept := kept_run tcpListener events
  refine ⟨?_, ?_, h.killed, ?_⟩
  · intro call hcall
    obtain ⟨c, hc, hfd⟩ := exists_call_of_written hcall
    rw [← hfd]
    exact h.conserved.known _ (List.mem_map_of_mem hc)
  · intro hundefined
    obtain ⟨c, hc, htext⟩ := h.defined.mp hundefined
    exact ⟨c, hc, received_of_overrun htext⟩
  · intro fd l hl
    obtain ⟨rounds, hrounds⟩ : ∃ rounds, rounds =
        (s.calls.filter (·.socket.fd = fd)).map HandlerCall.round := ⟨_, rfl⟩
    have hwritten : bytesTo fd s.written = (ThreadServer.answered rounds).map Round.frame := by
      rw [hrounds, ← ThreadServer.filterMap_answer]
      exact bytesTo_written fd s.calls
    have hframes : rounds.map Round.frame = (rounds.map Round.received).map padded := by
      rw [List.map_map]
      exact List.map_congr_left fun r _ => r.frame_eq
    refine ⟨rounds.map Round.received, ?_, ?_, ?_, ?_⟩
    · intro chunk hchunk
      obtain ⟨r, _, rfl⟩ := List.mem_map.mp hchunk
      exact r.received_length_le
    · rw [← h.conserved.content fd l hl, hrounds, readFrom, List.filter_map, List.flatMap_map,
        List.map_map, List.flatMap_def]
      rfl
    · rw [hwritten, ← hframes]
      exact List.filter_sublist.map _
    · intro hdefined
      rw [hwritten, ← hframes, ThreadServer.answered, List.filter_eq_self.mpr]
      intro r hr
      rw [hrounds] at hr
      obtain ⟨c, hc, rfl⟩ := List.mem_map.mp hr
      rw [Option.isSome_iff_ne_none]
      exact fun htext => hdefined (h.defined.mpr ⟨c, (List.mem_filter.mp hc).1, htext⟩)

/-- A peer is accepted and writes "hi", which is answered. -/
def hiToServer : List ServerEvent :=
  [.poll ⟨some fun i => if i = 0 then 64 else 0, 4, fun _ => ⟨none, [], .returned none⟩⟩,
    .write 4 (ascii "hi"),
    .poll ⟨some fun i => if i = 1 then 64 else 0, 4,
      fun _ => ⟨some ⟨[0, 0, 0], by decide⟩, [], .returned (some ⟨1024, ThreadServer.capacity_fits⟩)⟩⟩]

theorem answers_chunks_hiToServer :
    let s := hiToServer.foldl next (start (listenerAt 3))
    s.links 4 = some ⟨ascii "hi", [], true⟩ ∧ s.state = .running ∧
      (∀ call ∈ s.written, ∃ l, s.links call.fd = some l) ∧ ∃ chunks : List (List UInt8),
        (∀ chunk ∈ chunks, chunk.length ≤ 1024) ∧ chunks.flatten ++ [] = ascii "hi" ∧
        bytesTo 4 s.written = chunks.map padded := by
  intro s
  have hlink : s.links 4 = some ⟨ascii "hi", [], true⟩ := by decide +kernel
  have hstate : s.state = .running := by decide +kernel
  obtain ⟨hknown, -, -, hstreams⟩ := answers_chunks (listenerAt 3) hiToServer
  obtain ⟨chunks, hsizes, hcontent, -, hwritten⟩ := hstreams 4 ⟨ascii "hi", [], true⟩ hlink
  refine ⟨hlink, hstate, hknown, chunks, hsizes, hcontent, hwritten ?_⟩
  rw [hstate]
  exact State.noConfusion

/-! ### Its own client -/

/-- `simple_tcp_client` once it is connected: at `std::cin`, in its read, past it, or gone. -/
inductive ClientStage where
  | typing
  | waiting (buffer : Buffer)
  | printed (text : Option (List UInt8))
  | left

/-- What main does with what was typed: `buffer.write`, `socket.write`, `buffer.clear`. -/
def clientWrite (socket : Socket) (msg : List UInt8) : Except Fault (WriteCall × Buffer) :=
  (StaticBuffer.fresh 1024).write msg msg.length >>= fun written =>
    socket.write written.1.toBuffer written.1.size >>= fun call =>
      written.1.clear.map fun cleared => (call, cleared)

/-- And with what it gets: `socket.read`, and the text that it prints, if there is one. -/
def clientPrints (socket : Socket) (buffer : Buffer) (incoming : Incoming 1024)
    (stack : List UInt8) : Option (List UInt8) :=
  match socket.read buffer incoming with
  | .error _ => none
  | .ok (_, filled) => cString (filled.data ++ stack)

/-- The server and its clients, by the server's descriptors. -/
structure Clients where
  server : MultiplexServer
  stage : ℤ → ClientStage

/-- Whose turn it is: a client's user types a word, its read is answered with at most so many bytes
    and one more, it is killed, or the server polls. -/
inductive ClientEvent where
  | types (socket : Socket) (fd : ℤ) (msg : List UInt8)
  | reads (socket : Socket) (fd : ℤ) (wanted : ℕ) (stack : List UInt8)
  | killed (fd : ℤ)
  | poll (p : ServerPoll)

namespace Clients

/-- Nobody has typed anything. -/
def start (tcpListener : TcpListener) : Clients := ⟨.start tcpListener, fun _ => .typing⟩

/-- A client is there, on an accepted connection. -/
def isThere (c : Clients) (fd : ℤ) : Bool := (c.server.links fd).any Link.isOpen

/-- What is under way to a client that has read nothing yet. -/
def arriving (c : Clients) (fd : ℤ) : Link UInt8 :=
  let back := (bytesTo fd c.server.written).flatten
  ⟨back, back, c.server.state = .running⟩

/-- Its process ends. -/
def leaves (c : Clients) (fd : ℤ) (stage : ClientStage) : Clients :=
  ⟨c.server.next (.hangUp fd), Function.update c.stage fd stage⟩

/-- A turn that is not there to take changes nothing. -/
def next (c : Clients) : ClientEvent → Clients
  | .types socket fd msg =>
    match c.stage fd with
    | .typing =>
      if c.isThere fd then
        match clientWrite socket msg with
        | .error _ => c.leaves fd .left
        | .ok (call, cleared) =>
          ⟨c.server.next (.write fd call.bytes), Function.update c.stage fd (.waiting cleared)⟩
      else c
    | _ => c
  | .reads socket fd wanted stack =>
    match c.stage fd with
    | .waiting buffer =>
      if c.isThere fd && (c.arriving fd).readable then
        let incoming : Incoming 1024 :=
          some ⟨(c.arriving fd).chunk 1024 wanted, chunk_fits (c.arriving fd) wanted⟩
        c.leaves fd (.printed (clientPrints socket buffer incoming stack))
      else c
    | _ => c
  | .killed fd => if c.isThere fd then c.leaves fd .left else c
  | .poll p => { c with server := c.server.next (.poll p) }

end Clients

/-- `size()` is still 0, so the call is for no bytes; and the buffer is cleared. -/
theorem clientWrite_spec {socket : Socket} {msg : List UInt8} {call : WriteCall} {cleared : Buffer}
    (h : clientWrite socket msg = .ok (call, cleared)) :
    call.bytes = [] ∧ cleared.data = List.replicate 1024 0 := by
  unfold clientWrite at h
  cases hw : (StaticBuffer.fresh 1024).write msg msg.length with
  | error fault =>
    rw [hw] at h
    exact absurd h (by simp [bind, Except.bind])
  | ok written =>
    have hsize : written.1.size = 0 := StaticBuffer.size_of_write hw
    have hclear : written.1.clear =
        .ok { written.1.toBuffer with data := List.replicate 1024 0 } := by
      have hfits : written.1.capacity ≤ written.1.data.length :=
        (written.1.capacity_eq.trans written.1.length_data.symm).le
      have hdata : List.replicate written.1.capacity 0 ++ written.1.data.drop written.1.capacity =
          List.replicate 1024 0 := by
        rw [List.drop_eq_nil_of_le (written.1.length_data.trans written.1.capacity_eq.symm).le,
          List.append_nil, written.1.capacity_eq]
      rw [Buffer.clear, if_pos hfits, hdata]
    rw [hw] at h
    simp only [bind, Except.bind, Socket.write, writeTo, hsize, Nat.zero_le, if_true, hclear,
      Except.map, Except.ok.injEq, Prod.mk.injEq] at h
    obtain ⟨rfl, rfl⟩ := h
    exact ⟨rfl, rfl⟩

/-- The end of the stream leaves the buffer as it was. -/
theorem clientPrints_nothing (socket : Socket) {buffer : Buffer}
    (hdata : buffer.data = List.replicate 1024 0) {incoming : Incoming 1024}
    (hnothing : incoming.over buffer.data = buffer.data) (stack : List UInt8) :
    clientPrints socket buffer incoming stack = some [] := by
  rw [clientPrints, Socket.read, IoOperation.readFrom_eq, hnothing, hdata]
  exact cString_zeros stack

/-! ### Waiting -/

/-- INVARIANT: nobody has sent a byte to the server, and whoever it has read from was gone. -/
structure Muted (s : MultiplexServer) : Prop where
  kept : s.Kept
  silent : Links.Silent s.links (s.calls.map HandlerCall.chunk)

section Muted
variable {s : MultiplexServer}

theorem Muted.modify (h : s.Muted) (fd : ℤ) {f : Link UInt8 → Link UInt8}
    (hf : ∀ l, (f l).sent = l.sent ∧ (f l).toReceiver = l.toReceiver ∧
      (l.isOpen = false → (f l).isOpen = false)) :
    ({ s with links := Links.modify s.links fd f } : MultiplexServer).Muted where
  kept := h.kept.modify fd (fun l front hl => by rw [(hf l).1, (hf l).2.1, hl]) fun l => (hf l).2.2
  silent := h.silent.modify fd hf

theorem Muted.hangUp (h : s.Muted) (fd : ℤ) : (s.next (.hangUp fd)).Muted :=
  h.modify fd fun _ => ⟨rfl, rfl, fun _ => rfl⟩

theorem Muted.write_nil (h : s.Muted) (fd : ℤ) : (s.next (.write fd [])).Muted :=
  h.modify fd fun l => by rw [Link.write_nil]; exact ⟨rfl, rfl, id⟩

theorem Muted.poll (h : s.Muted) (p : ServerPoll) : (s.next (.poll p)).Muted := by
  refine ⟨h.kept.next (.poll p), ?_⟩
  rw [MultiplexServer.next]
  split
  · rename_i hrunning
    obtain ⟨calls, opened, hlinks, hcalls, -, hnodup, hgenuine, hready, hopened⟩ :=
      h.kept.poll_eq hrunning p
    rw [hlinks, hcalls, List.map_append]
    exact h.silent.turn hgenuine hready hnodup hopened
  · exact h.silent

/-- Whoever has been written to is gone. -/
theorem Muted.gone (h : s.Muted) {call : WriteCall} (hcall : call ∈ s.written) {l : Link UInt8}
    (hl : s.links call.fd = some l) : l.isOpen = false := by
  obtain ⟨c, hc, hfd⟩ := exists_call_of_written hcall
  exact h.silent.gone _ (List.mem_map_of_mem hc) l (hfd ▸ hl)

theorem Muted.defined (h : s.Muted) : s.state ≠ .undefined := by
  intro hundefined
  obtain ⟨c, hc, htext⟩ := h.kept.defined.mp hundefined
  rw [text_of_nothing (h.silent.read_eq_nil (List.mem_map_of_mem hc))] at htext
  cases htext

end Muted

namespace Clients
variable {c : Clients} {fd : ℤ}

/-- INVARIANT: nobody's read has come back, but by the end of the server. -/
structure Unanswered (c : Clients) : Prop where
  muted : c.server.Muted
  cleared : ∀ fd buffer, c.stage fd = .waiting buffer → buffer.data = List.replicate 1024 0
  printed : ∀ fd text, c.stage fd = .printed text → text = some [] ∧ c.server.state ≠ .running

theorem start_unanswered (tcpListener : TcpListener) : (start tcpListener).Unanswered where
  muted := ⟨start_kept tcpListener, silent_none⟩
  cleared _ _ h := ClientStage.noConfusion h
  printed _ _ h := ClientStage.noConfusion h

/-- One client moves on, and the server with it. -/
theorem Unanswered.move (h : c.Unanswered) {s : MultiplexServer} (hmuted : s.Muted)
    (hstate : s.state = c.server.state) {stage : ClientStage}
    (hwaiting : ∀ buffer, stage = .waiting buffer → buffer.data = List.replicate 1024 0)
    (hprinted : ∀ text, stage = .printed text → text = some [] ∧ s.state ≠ .running) :
    Unanswered ⟨s, Function.update c.stage fd stage⟩ where
  muted := hmuted
  cleared other buffer hother := by
    rcases eq_or_ne other fd with rfl | hne
    · exact hwaiting buffer ((Function.update_self ..).symm.trans hother)
    · exact h.cleared other buffer ((Function.update_of_ne hne ..).symm.trans hother)
  printed other text hother := by
    rcases eq_or_ne other fd with rfl | hne
    · exact hprinted text ((Function.update_self ..).symm.trans hother)
    · obtain ⟨htext, hended⟩ := h.printed other text ((Function.update_of_ne hne ..).symm.trans hother)
      exact ⟨htext, hstate ▸ hended⟩

theorem Unanswered.leaves (h : c.Unanswered) (fd : ℤ) {stage : ClientStage}
    (hwaiting : ∀ buffer, stage ≠ .waiting buffer)
    (hprinted : ∀ text, stage = .printed text → text = some [] ∧ c.server.state ≠ .running) :
    (c.leaves fd stage).Unanswered :=
  h.move (h.muted.hangUp fd) rfl (fun buffer hstage => absurd hstage (hwaiting buffer)) hprinted

/-- Nothing is under way to a client that is there. -/
theorem Unanswered.arriving_eq (h : c.Unanswered) (hthere : c.isThere fd = true) :
    c.arriving fd = ⟨[], [], c.server.state = .running⟩ := by
  obtain ⟨l, hl, hopen⟩ := (Option.any_eq_true _ _).mp hthere
  have hnothing : bytesTo fd c.server.written = [] := by
    refine ThreadServer.bytesTo_eq_nil ?_
    rintro call hcall rfl
    rw [h.muted.gone hcall hl] at hopen
    cases hopen
  rw [arriving, hnothing]
  rfl

/-- STEP: whoever moves. -/
theorem Unanswered.next (h : c.Unanswered) (e : ClientEvent) : (c.next e).Unanswered := by
  cases e with
  | types socket fd msg =>
    rw [Clients.next]
    split
    · split
      · split
        · exact h.leaves fd (fun _ => ClientStage.noConfusion) fun _ hstage => ClientStage.noConfusion hstage
        · rename_i call cleared hwrite
          obtain ⟨hbytes, hdata⟩ := clientWrite_spec hwrite
          have hwritten : (c.server.next (.write fd call.bytes)).Muted := by
            rw [hbytes]
            exact h.muted.write_nil fd
          refine h.move hwritten rfl ?_ ?_
          · intro buffer hstage
            injection hstage with hbuffer
            exact hbuffer ▸ hdata
          · exact fun _ hstage => ClientStage.noConfusion hstage
      · exact h
    · exact h
  | reads socket fd wanted stack =>
    rw [Clients.next]
    split
    · rename_i buffer hstage
      split
      · rename_i hready
        obtain ⟨hthere, hreadable⟩ := Bool.and_eq_true_iff.mp hready
        have harriving := h.arriving_eq hthere
        have hended : c.server.state ≠ .running := by
          rw [harriving] at hreadable
          simpa [Link.readable] using hreadable
        refine h.leaves fd (fun _ => ClientStage.noConfusion) ?_
        intro text htext
        injection htext with htext
        refine ⟨htext ▸ clientPrints_nothing socket (h.cleared fd buffer hstage) ?_ stack, hended⟩
        have hchunk : (c.arriving fd).chunk 1024 wanted = [] :=
          Link.chunk_of_nil (by rw [harriving]) _ _
        rw [Incoming.over]
        dsimp only
        rw [hchunk]
        rfl
      · exact h
    · exact h
  | killed fd =>
    rw [Clients.next]
    split
    · exact h.leaves fd (fun _ => ClientStage.noConfusion) fun _ hstage => ClientStage.noConfusion hstage
    · exact h
  | poll p =>
    refine ⟨h.muted.poll p, h.cleared, ?_⟩
    intro fd text hstage
    obtain ⟨htext, hended⟩ := h.printed fd text hstage
    refine ⟨htext, ?_⟩
    show (c.server.next (.poll p)).state ≠ .running
    rw [MultiplexServer.next, if_neg hended]
    exact hended

end Clients

/-- CORRECT: whatever is typed, and whoever moves when, the server writes only to clients that are
    gone; a client that is there waits in its read as long as the server runs, and prints nothing
    when it ends. -/
theorem unanswered (tcpListener : TcpListener) (events : List ClientEvent) :
    let c := events.foldl Clients.next (.start tcpListener)
    c.server.state ≠ .undefined ∧
      (∀ call ∈ c.server.written, ∀ l, c.server.links call.fd = some l → l.isOpen = false) ∧
      (∀ fd, c.isThere fd = true → c.server.state = .running →
        ∀ socket wanted stack, c.next (.reads socket fd wanted stack) = c) ∧
      ∀ fd text, c.stage fd = .printed text → text = some [] ∧ c.server.state ≠ .running := by
  intro c
  have h : c.Unanswered := foldl_inv (fun _ e h => h.next e) events _ (Clients.start_unanswered tcpListener)
  refine ⟨h.muted.defined, fun call hcall l hl => h.muted.gone hcall hl, ?_, h.printed⟩
  intro fd hthere hrunning socket wanted stack
  have hblocked : (c.arriving fd).readable = false := by
    rw [h.arriving_eq hthere, hrunning]
    rfl
  rw [Clients.next]
  split
  · rw [if_neg (by rw [hblocked, Bool.and_false]; exact Bool.false_ne_true)]
  · rfl

/-- A client is accepted, and "hi" is typed into it. -/
def hiFromClient : List ClientEvent :=
  [.poll ⟨some fun i => if i = 0 then 64 else 0, 4, fun _ => ⟨none, [], .returned none⟩⟩,
    .types ⟨3, .usual⟩ 4 [104, 105]]

theorem unanswered_hiFromClient : ∃ c, c = hiFromClient.foldl Clients.next (.start (listenerAt 3)) ∧
    c.isThere 4 = true ∧ c.server.state = .running ∧
    c.next (.reads ⟨3, .usual⟩ 4 1023 []) = c := by
  have hthere : (hiFromClient.foldl Clients.next (.start (listenerAt 3))).isThere 4 = true := by
    decide +kernel
  have hrunning :
      (hiFromClient.foldl Clients.next (.start (listenerAt 3))).server.state = .running := by
    decide +kernel
  obtain ⟨-, -, hblocked, -⟩ := unanswered (listenerAt 3) hiFromClient
  exact ⟨_, rfl, hthere, hrunning, hblocked 4 hthere hrunning ⟨3, .usual⟩ 1023 []⟩

end MultiplexServer
end UnixIpc.Servers
