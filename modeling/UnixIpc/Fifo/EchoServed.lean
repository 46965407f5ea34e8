import UnixIpc.Fifo.EchoRest

/-! One echo client and the server in an endless schedule in which both move again and again and no
    call fails by itself: is the client served?

    The two go through one conversation together; `Stage` says where they are. Two things can lead out
    of it, and then for good: the client comes before the server has made the public FIFO, or it reads
    in the gap (see `EchoHandshake`).

        client     connect   connectStatus ......... message   response ........ close   closing
        server     accept    accept openFile greet   session   session    echo   accept  accept ─▶ exited
        public FIFO          name                              message                   close
        private FIFO                          success                     message

    The system comes to rest, and of the stages only the last one rests. -/

namespace UnixIpc.Fifo
open UnixIpc.Bytes UnixIpc.Descriptors UnixIpc.Run

/-- No call fails for a reason of its own. -/
def Action.Succeeds : Action → Prop
  | .server a => a.openOk ∧ a.taken
  | .client _ _ ok => ok

/-- The two processes, and whose call it is. -/
inductive Party where
  | server | client

def Action.By : Party → Action → Prop
  | .server, act => ∃ a, act = .server a
  | .client, act => ∃ mem, act = .client 0 mem true

/-- The client has heard the greeting and the echo, printed the echo, and is about to leave. -/
structure Client.Leaves (c : Client) : Prop where
  pc : c.pc = .closeFifo ∨ c.pc = .closeServer ∨ c.pc = .closeClient ∨ c.pc = .exited
  decoded : c.decoded = heard
  response : c.response = some hello

/-- The client has decoded the cleared buffer, or is gone with an exception. -/
def Client.Astray (c : Client) : Prop := zeroBuffer ∈ c.decoded ∨ ∃ failure, c.pc = .threw failure

/-- Nothing decoded is forgotten. -/
theorem Client.receive_decoded (c : Client) (mem : Memory) (result : ReadResult) :
    c.decoded <+: (c.receive mem result).decoded := by
  unfold receive
  split
  · exact List.prefix_rfl
  · exact List.prefix_rfl
  · simp only [connectStatus, respond]
    split <;> split <;> exact List.prefix_append ..

namespace System

/-- The call is not a client's `open` of a public FIFO that is not there. -/
def InTime (sys : System) : Action → Prop
  | .server _ => True
  | .client i _ _ => ∀ c, sys.clients[i]? = some c → c.pc = .openServer → sys.linked = true

/-- The system with its one client: the server's process and what the two FIFOs hold. -/
structure At (sys : System) (c : Client) (proc : ServerProc) (onWay inbox : List Buffer) :
    Prop where
  alone : sys.clients = [c]
  server : sys.server = proc
  onWay : sys.publicQueue = onWay
  inbox : sys.queue c.name = inbox

/-- The client has printed the echo of its message and has exited, and so has the server, with both
    FIFOs empty. -/
def Served (sys : System) : Prop :=
  ∃ c s, sys.At c (.running s) [] [] ∧ c.pc = .exited ∧ c.decoded = heard ∧
    c.response = some hello ∧ s.pc = .exited

/-- The stages of the conversation. -/
inductive Stage (sys : System) (c : Client) : Prop
  | gathering {proc} (h : sys.At c proc [] [])
      (hpc : c.pc = .createFifo ∨ c.pc = .openClient ∨ c.pc = .openServer)
      (hproc : proc = .createFifo ∧ sys.linked = false ∨ proc = .openFifo ∧ sys.linked = true)
      (hother : c.name ≠ sys.fifoName) (hd : c.decoded = [])
  | connecting {s} (h : sys.At c (.running s) [] []) (hpc : c.pc = .connect)
      (hs : s.pc = .accept) (hfifo : s.attends) (hd : c.decoded = [])
  | asking {s} (h : sys.At c (.running s) [nameFrame c.name] []) (hpc : c.pc = .connectStatus)
      (hs : s.pc = .accept) (hfifo : s.attends) (hd : c.decoded = [])
  | opening {s} (h : sys.At c (.running s) [] []) (hpc : c.pc = .connectStatus)
      (hs : s.pc = .openFile c.name) (hfifo : s.attends) (hd : c.decoded = [])
  | greeting {s fd} (h : sys.At c (.running s) [] []) (hpc : c.pc = .connectStatus)
      (hs : s.pc = .greet fd) (hfd : 0 ≤ fd) (hfile : s.files.lookup fd = some (.fifo c.name))
      (hfifo : s.attends) (hd : c.decoded = [])
  | greeted {s fd} (h : sys.At c (.running s) [] [Server.successFrame])
      (hpc : c.pc = .connectStatus) (hs : s.pc = .session fd)
      (hfile : s.files.lookup fd = some (.fifo c.name)) (hfifo : s.attends) (hd : c.decoded = [])
  | telling {s fd} (h : sys.At c (.running s) [] []) (hpc : c.pc = .message)
      (hs : s.pc = .session fd) (hfile : s.files.lookup fd = some (.fifo c.name))
      (hfifo : s.attends) (hd : c.decoded = [Server.successFrame])
  | told {s fd} (h : sys.At c (.running s) [messageFrame] []) (hpc : c.pc = .response)
      (hs : s.pc = .session fd) (hfile : s.files.lookup fd = some (.fifo c.name))
      (hfifo : s.attends) (hd : c.decoded = [Server.successFrame])
  | echoing {s fd} (h : sys.At c (.running s) [] []) (hpc : c.pc = .response)
      (hs : s.pc = .echo fd messageFrame) (hfile : s.files.lookup fd = some (.fifo c.name))
      (hfifo : s.attends) (hd : c.decoded = [Server.successFrame])
  | echoed {s} (h : sys.At c (.running s) [] [messageFrame]) (hpc : c.pc = .response)
      (hs : s.pc = .accept) (hfifo : s.attends) (hd : c.decoded = [Server.successFrame])
  | closing {s} (h : sys.At c (.running s) [] []) (hpc : c.pc = .close) (hs : s.pc = .accept)
      (hfifo : s.attends) (hd : c.decoded = heard) (hr : c.response = some hello)
  | closed {s} (h : sys.At c (.running s) [closeFrame] []) (hleaves : c.Leaves)
      (hs : s.pc = .accept) (hfifo : s.attends)
  | done {s} (h : sys.At c (.running s) [] []) (hleaves : c.Leaves)
      (hs : (s.pc = .closeFifo ∨ s.pc = .closeServer) ∧ s.attends ∨ s.pc = .exited)

/-! ### The server's calls -/

namespace At
variable {sys sys' : System} {c : Client} {s : Server} {a : Answers} {onWay inbox : List Buffer}

/-- In its loop the server waits for a frame. -/
theorem blocks (h : sys.At c (.running s) [] inbox) (hloop : s.InLoop) (hfifo : s.attends) :
    sys.serverStep a = none := by
  simp only [serverStep, h.server, serverRun, if_pos hloop, if_pos hfifo, h.onWay]

theorem reads {b : Buffer} (h : sys.At c (.running s) (b :: onWay) inbox) (hloop : s.InLoop)
    (hfifo : s.attends) : ∃ sys', sys.serverStep a = some sys' ∧
      sys'.At c (.running (s.receive a.mem b)) onWay inbox := by
  refine ⟨{ sys with server := .running (s.receive a.mem b), publicQueue := onWay }, ?_,
    h.alone, rfl, rfl, h.inbox⟩
  simp only [serverStep, h.server, serverRun, if_pos hloop, if_pos hfifo, h.onWay]

theorem calls {s' : Server} {calls : List Call} (h : sys.At c (.running s) onWay inbox)
    (hcall : s.syscall (sys.answers s a) = some (s', calls)) (hloop : ¬ s.InLoop) :
    ∃ sys', sys.serverStep a = some sys' ∧
      sys'.At c (.running s') onWay (inbox ++ delivered c.name calls) := by
  obtain ⟨hclients, hpublic, hprivate⟩ := foldl_deliver calls sys
  refine ⟨{ calls.foldl deliver sys with server := .running s' }, ?_, hclients.trans h.alone, rfl,
    hpublic.trans h.onWay, ?_⟩
  · simp only [serverStep, h.server, serverRun, if_neg hloop, hcall]
  · rw [← h.inbox]
    exact (hprivate c.name).2

/-- A frame written to the client's FIFO, while the client reads it. -/
theorem writes {fd : ℤ} {buffer : Buffer} {next : Pc} (h : sys.At c (.running s) onWay inbox)
    (hcall : ∀ a, s.syscall a = some (s.writeTo fd buffer a.written next))
    (hpc : s.pc = .greet fd ∨ s.pc = .echo fd buffer) (hholds : c.holds)
    (hfile : s.files.lookup fd = some (.fifo c.name)) (htaken : a.taken) :
    ∃ sys', sys.serverStep a = some sys' ∧
      sys'.At c (.running { s with pc := next }) onWay (inbox ++ [buffer]) := by
  have hreader : sys.hasReader c.name = true := by simp [hasReader, h.alone, hholds]
  refine ⟨_, serverStep_writes h.server hcall hpc hfile hreader htaken, h.alone, rfl, h.onWay, ?_⟩
  simp [deliver, h.inbox]

theorem leaves {s' : Server} (h : sys.At c (.running s) onWay inbox) (hloop : ¬ s.InLoop)
    (hquiet : ∀ a, s.syscall a = none) (hleave : s.leave sys.fifoName a.openOk = some s') :
    ∃ sys', sys.serverStep a = some sys' ∧ sys'.At c (.running s') onWay inbox := by
  refine ⟨{ sys with server := .running s', linked := sys.linked && s'.pc ≠ .closeServer }, ?_,
    h.alone, rfl, h.onWay, h.inbox⟩
  simp only [serverStep, h.server, serverRun, if_neg hloop, hquiet, hleave, Option.map_some]

/-! ### The client's calls -/

theorem moves {proc : ServerProc} {e : Client} (h : sys.At c proc onWay inbox)
    (hname : e.name = c.name) : (sys.put 0 e).At e proc onWay inbox :=
  ⟨by simp [System.put, h.alone], h.server, h.onWay, hname ▸ h.inbox⟩

/-- A frame written to the public FIFO, while the server reads it. -/
theorem sends (h : sys.At c (.running s) onWay inbox) (hfifo : s.attends) (hloop : s.InLoop)
    (fd : ℤ) (t : Client.PackageType) {data : List UInt8} (hfit : data.length ≤ 1012)
    (next : Client.Pc) : (sys.send 0 c ⟨fd, t, data⟩ next).At { c with pc := next } (.running s)
      (onWay ++ [Client.frame ⟨0, t, data⟩]) inbox := by
  have hholds : sys.serverHolds .publicFifo = true := by
    obtain ⟨before, after, hfiles, _⟩ := List.lookup_eq_some_iff.mp (Server.attends_iff.mp hfifo)
    have hlive : s.live = true := by
      rcases Server.inLoop_iff.mp hloop with hpc | ⟨fd, hpc⟩ <;> simp [Server.live, hpc]
    simp [serverHolds, h.server, hlive, hfiles]
  rw [send, Client.writeTo, serialize_at, if_pos hfit, hholds]
  exact ⟨by simp [System.put, h.alone], h.server, by simp [h.onWay], h.inbox⟩

/-- A read of the next frame of the private FIFO. -/
theorem fetches {proc : ServerProc} {b : Buffer} {mem : Memory} {e : Client}
    (h : sys.At c proc onWay (b :: inbox)) (hrec : c.receive mem (.frame b) = e)
    (hname : e.name = c.name) : (sys.fetch 0 c mem).At e proc onWay inbox := by
  have hread : sys.readFifo c.name = .frame b := by simp [readFifo, h.inbox]
  rw [fetch, hread, hrec]
  exact ⟨by simp [System.put, h.alone], h.server, h.onWay, by simp [hname, h.inbox]⟩

/-- Behind its conversation the client unlinks its FIFO, closes both and exits. -/
theorem closes {proc : ServerProc} (h : sys.At c proc onWay inbox) (hleaves : c.Leaves)
    (mem : Memory) : sys.clientStep 0 c mem true = none ∨
      ∃ sys' e, sys.clientStep 0 c mem true = some sys' ∧ sys'.At e proc onWay inbox ∧ e.Leaves ∧
        e.name = c.name := by
  obtain ⟨hpc | hpc | hpc | hpc, hd, hr⟩ := hleaves
  · exact .inr ⟨_, { c with pc := .closeServer }, by rw [clientStep, hpc]; rfl, h.moves rfl,
      ⟨.inr (.inl rfl), hd, hr⟩, rfl⟩
  · exact .inr ⟨_, { c with pc := .closeClient }, by rw [clientStep, hpc]; rfl, h.moves rfl,
      ⟨.inr (.inr (.inl rfl)), hd, hr⟩, rfl⟩
  · exact .inr ⟨_, { c with pc := .exited }, by rw [clientStep, hpc]; rfl, h.moves rfl,
      ⟨.inr (.inr (.inr rfl)), hd, hr⟩, rfl⟩
  · exact .inl (by rw [clientStep, hpc])

end At

/-- The server can only wait for the client's next call, or has exited. -/
inductive Awaited (sys : System) (c : Client) : Prop
  | calls (hpc : c.pc = .createFifo ∨ c.pc = .openClient ∨ c.pc = .connect ∨ c.pc = .message ∨
      c.pc = .close)
  | opens (hpc : c.pc = .openServer) (hproc : sys.server = .openFifo) (hlinked : sys.linked = true)
  | reads (hreads : c.Reads) (hqueue : sys.queue c.name ≠ [])
  | leaves {s} (h : sys.At c (.running s) [] []) (hleaves : c.Leaves) (hs : s.pc = .exited)

namespace Stage
variable {sys sys' : System} {c : Client} {a : Answers} {mem : Memory}

/-- STEP: the server's next call brings the two to the next stage, unless it is the client's turn. -/
theorem server (h : sys.Stage c) (hfit : c.name.length ≤ 1012) (hmem : a.mem.Clean) (hok : a.openOk)
    (htaken : a.taken) : (∃ sys', sys.serverStep a = some sys' ∧ sys'.Stage c) ∨
      sys.serverStep a = none ∧ sys.Awaited c := by
  cases h with
  | @gathering proc h hpc hproc hother hd =>
    rcases hproc with ⟨rfl, hlinked⟩ | ⟨rfl, hlinked⟩
    · refine .inl ⟨{ sys with server := .openFifo, linked := true }, ?_,
        .gathering ⟨h.alone, rfl, h.onWay, h.inbox⟩ hpc (.inr ⟨rfl, rfl⟩) hother hd⟩
      have hfree : sys.inUse sys.fifoName = false := by simp [inUse, hlinked, h.alone, hother]
      simp [serverStep, h.server, hok, hfree]
    · refine .inr ⟨by simp [serverStep, h.server, hok], ?_⟩
      rcases hpc with hpc | hpc | hpc
      · exact .calls (.inl hpc)
      · exact .calls (.inr (.inl hpc))
      · exact .opens hpc h.server hlinked
  | connecting h hpc hs hfifo hd =>
    refine .inr ⟨h.blocks (Server.inLoop_iff.mpr (.inl hs)) hfifo, .calls ?_⟩
    simp [hpc]
  | asking h hpc hs hfifo hd =>
    obtain ⟨sys', hstep, hat⟩ := h.reads (a := a) (Server.inLoop_iff.mpr (.inl hs)) hfifo
    obtain ⟨hrec, hnew, _⟩ := accept_of_decoded hs hfifo
      (decode_nameFrame hfit c.nulFree hmem Server.package)
    rw [hrec, hnew rfl] at hat
    exact .inl ⟨sys', hstep, .opening hat hpc rfl hfifo hd⟩
  | @opening s h hpc hs hfifo hd =>
    have hcan : sys.canOpen c.name = true := by
      simp [canOpen, h.alone, Client.linked, Client.holds, hpc]
    have hcall : s.syscall (sys.answers s a) =
        some (s.opened c.name (.greet (lowestFree s.descriptors)),
          [.openFile c.name (some (lowestFree s.descriptors))]) := by
      simp only [Server.syscall, hs, answers, Server.openFile, hok, hcan, Bool.and_self, if_true,
        Server.opened]
    obtain ⟨sys', hstep, hat⟩ := h.calls hcall (by simp [Server.InLoop, hs])
    exact .inl ⟨sys', hstep, .greeting hat hpc rfl (lowestFree_nonneg _) (by simp)
      (Server.attends_opened hfifo _ _) hd⟩
  | @greeting s fd h hpc hs hfd hfile hfifo hd =>
    obtain ⟨sys', hstep, hat⟩ := h.writes (Server.syscall_greet hs hfd) (.inl hs)
      (by simp [Client.holds, hpc]) hfile htaken
    exact .inl ⟨sys', hstep, .greeted hat hpc rfl hfile hfifo hd⟩
  | greeted h hpc hs hfile hfifo hd =>
    refine .inr ⟨h.blocks (Server.inLoop_iff.mpr (.inr ⟨_, hs⟩)) hfifo, .reads (.inl hpc) ?_⟩
    simp [h.inbox]
  | telling h hpc hs hfile hfifo hd =>
    refine .inr ⟨h.blocks (Server.inLoop_iff.mpr (.inr ⟨_, hs⟩)) hfifo, .calls ?_⟩
    simp [hpc]
  | @told s fd h hpc hs hfile hfifo hd =>
    obtain ⟨sys', hstep, hat⟩ := h.reads (a := a) (Server.inLoop_iff.mpr (.inr ⟨_, hs⟩)) hfifo
    have hrec : s.receive a.mem messageFrame = { s with pc := .echo fd messageFrame } := by
      rw [Server.receive, hs]
      simp only [Server.readFrom_eq (Server.serverFd_mem_of_attends hfifo),
        Server.createNewSession, decode_messageFrame hmem Server.package]
    rw [hrec] at hat
    exact .inl ⟨sys', hstep, .echoing hat hpc rfl hfile hfifo hd⟩
  | @echoing s fd h hpc hs hfile hfifo hd =>
    have hcall : ∀ a, s.syscall a = some (s.writeTo fd messageFrame a.written .accept) := by
      intro a
      simp only [Server.syscall, hs]
    obtain ⟨sys', hstep, hat⟩ := h.writes hcall (.inr hs)
      (by simp [Client.holds, hpc]) hfile htaken
    exact .inl ⟨sys', hstep, .echoed hat hpc rfl hfifo hd⟩
  | echoed h hpc hs hfifo hd =>
    refine .inr ⟨h.blocks (Server.inLoop_iff.mpr (.inl hs)) hfifo, .reads (.inr hpc) ?_⟩
    simp [h.inbox]
  | closing h hpc hs hfifo hd hr =>
    refine .inr ⟨h.blocks (Server.inLoop_iff.mpr (.inl hs)) hfifo, .calls ?_⟩
    simp [hpc]
  | closed h hleaves hs hfifo =>
    obtain ⟨sys', hstep, hat⟩ := h.reads (a := a) (Server.inLoop_iff.mpr (.inl hs)) hfifo
    obtain ⟨hrec, _, hclose⟩ := accept_of_decoded hs hfifo (decode_closeFrame hmem Server.package)
    rw [hrec, hclose rfl] at hat
    exact .inl ⟨sys', hstep, .done hat hleaves (.inl ⟨.inl rfl, hfifo⟩)⟩
  | @done s h hleaves hs =>
    rcases hs with ⟨hpc | hpc, hfifo⟩ | hpc
    · have hleave : s.leave sys.fifoName a.openOk = some { s with pc := .closeServer } := by
        simp [Server.leave, hpc, hok]
      obtain ⟨sys', hstep, hat⟩ := h.leaves (by simp [Server.InLoop, hpc])
        (fun a => by simp [Server.syscall, hpc]) hleave
      exact .inl ⟨sys', hstep, .done hat hleaves (.inl ⟨.inr rfl, hfifo⟩)⟩
    · have hopen : s.serverFd ∈ s.descriptors := Server.serverFd_mem_of_attends hfifo
      have hleave : s.leave sys.fifoName a.openOk =
          some { s with files := s.files.filter (·.1 ≠ s.serverFd), pc := .exited } := by
        simp [Server.leave, hpc, hopen]
      obtain ⟨sys', hstep, hat⟩ := h.leaves (by simp [Server.InLoop, hpc])
        (fun a => by simp [Server.syscall, hpc]) hleave
      exact .inl ⟨sys', hstep, .done hat hleaves (.inr rfl)⟩
    · refine .inr ⟨?_, .leaves h hleaves hpc⟩
      simp [serverStep, h.server, serverRun, Server.InLoop, Server.syscall, Server.leave, hpc]

/-- STEP: the client's next call brings the two to the next stage, unless there is none. -/
theorem client (h : sys.Stage c) (mem : Memory) (hfit : c.name.length ≤ 1012) (hmem : mem.Clean)
    (htime : c.pc = .openServer → sys.linked = true)
    (hgap : c.Reads → sys.queue c.name = [] → sys.serverHolds (.fifo c.name) = false) :
    sys.clientStep 0 c mem true = none ∨ ∃ sys' c', sys.clientStep 0 c mem true = some sys' ∧
      sys'.Stage c' ∧ c'.name = c.name := by
  have hwait : ∀ {proc onWay}, sys.At c proc onWay [] → c.Reads → sys.Stage c →
      ∃ sys' c', sys.clientStep 0 c mem true = some sys' ∧ sys'.Stage c' ∧ c'.name = c.name := by
    intro proc onWay hat hreads hstage
    have hread : sys.readFifo c.name = .ended := by
      simp [readFifo, hat.inbox, hgap hreads hat.inbox]
    have hsame : sys.fetch 0 c mem = sys := fetch_ended (by simp [hat.alone]) hread
    refine ⟨sys, c, ?_, hstage, rfl⟩
    rcases hreads with hpc | hpc <;> simp [clientStep, hpc, hsame]
  have hthis : sys.Stage c := h
  cases h with
  | @gathering proc h hpc hproc hother hd =>
    rcases hpc with hpc | hpc | hpc
    · have hfree : sys.inUse c.name = false := by
        simp [inUse, hother, h.alone, Client.linked, hpc]
      refine .inr ⟨sys.put 0 { c with pc := .openClient }, { c with pc := .openClient }, ?_,
        .gathering (h.moves rfl) (by simp) hproc hother hd, rfl⟩
      rw [clientStep, hpc]
      simp [hfree, Client.orThrow]
    · exact .inr ⟨_, { c with pc := .openServer }, by rw [clientStep, hpc]; rfl,
        .gathering (h.moves rfl) (by simp) hproc hother hd, rfl⟩
    · rcases hproc with ⟨_, hlinked⟩ | ⟨rfl, hlinked⟩
      · exact absurd (htime hpc) (by simp [hlinked])
      · have hput := h.moves (e := { c with pc := .connect }) rfl
        refine .inr ⟨{ sys.put 0 { c with pc := .connect } with
            server := .running (Server.start sys.inherited) }, { c with pc := .connect }, ?_,
          .connecting ⟨hput.alone, rfl, hput.onWay, hput.inbox⟩ rfl rfl (Server.attends_start _) hd,
          rfl⟩
        simp [clientStep, hpc, openServer, h.server, hlinked]
  | connecting h hpc hs hfifo hd =>
    have hat := h.sends hfifo (Server.inLoop_iff.mpr (.inl hs)) c.clientFd .newConnection hfit
      .connectStatus
    exact .inr ⟨_, _, by rw [clientStep, hpc], .asking hat rfl hs hfifo hd, rfl⟩
  | asking h hpc | opening h hpc | greeting h hpc => exact .inr (hwait h (.inl hpc) hthis)
  | told h hpc | echoing h hpc => exact .inr (hwait h (.inr hpc) hthis)
  | greeted h hpc hs hfile hfifo hd =>
    have hrec : c.receive mem (.frame Server.successFrame) =
        { c with decoded := c.decoded ++ [Server.successFrame], pc := .message } := by
      simp [Client.receive, readFrom_frame, hpc, Client.connectStatus, decode_successFrame hmem]
    have hat := h.fetches hrec rfl
    exact .inr ⟨_, _, by rw [clientStep, hpc],
      .telling hat rfl hs hfile hfifo (by simp [hd]), rfl⟩
  | telling h hpc hs hfile hfifo hd =>
    have hhello : hello.length ≤ 1012 := by decide
    have hat := h.sends hfifo (Server.inLoop_iff.mpr (.inr ⟨_, hs⟩)) c.clientFd .message hhello
      .response
    exact .inr ⟨_, _, by rw [clientStep, hpc], .told hat rfl hs hfile hfifo hd, rfl⟩
  | echoed h hpc hs hfifo hd =>
    have hrec : c.receive mem (.frame messageFrame) =
        { c with decoded := c.decoded ++ [messageFrame], response := some hello
                 pc := .close } := by
      simp [Client.receive, readFrom_frame, hpc, Client.respond, decode_echo hmem]
    have hat := h.fetches hrec rfl
    exact .inr ⟨_, _, by rw [clientStep, hpc],
      .closing hat rfl hs hfifo (by simp [hd, heard]) rfl, rfl⟩
  | closing h hpc hs hfifo hd hr =>
    have hnone : ([] : List UInt8).length ≤ 1012 := by decide
    have hat := h.sends hfifo (Server.inLoop_iff.mpr (.inl hs)) c.clientFd .connectionClose hnone
      .closeFifo
    exact .inr ⟨_, _, by rw [clientStep, hpc], .closed hat ⟨.inl rfl, hd, hr⟩ hs hfifo, rfl⟩
  | closed h hleaves hs hfifo =>
    refine (h.closes hleaves mem).imp_right ?_
    rintro ⟨sys', e, hstep, hat, hleaves', hname⟩
    exact ⟨sys', e, hstep, .closed hat hleaves' hs hfifo, hname⟩
  | done h hleaves hs =>
    refine (h.closes hleaves mem).imp_right ?_
    rintro ⟨sys', e, hstep, hat, hleaves', hname⟩
    exact ⟨sys', e, hstep, .done hat hleaves' hs, hname⟩

theorem alone (h : sys.Stage c) : sys.clients = [c] := by
  cases h with
  | gathering h | connecting h | asking h | opening h | greeting h | greeted h | telling h | told h
  | echoing h | echoed h | closing h | closed h | done h => exact h.alone

/-- The last stage is the only one in which neither of the two moves. -/
theorem rests (h : sys.Stage c) (hkept : sys.Kept) (hfit : c.name.length ≤ 1012)
    (hclean : a.mem.Clean) (hok : a.openOk) (htaken : a.taken)
    (hserver : sys.next (.server a) = sys) (hclient : sys.next (.client 0 mem true) = sys) :
    sys.Served := by
  have hawaited : sys.Awaited c := by
    rcases h.server hfit hclean hok htaken with ⟨sys', hstep, _⟩ | ⟨_, hawaited⟩
    · rw [serverStep_of_idle hkept hserver] at hstep
      exact absurd hstep (by simp)
    · exact hawaited
  have hidle := clientStep_of_idle hkept (c := c) (by simp [h.alone]) hclient
  cases hawaited with
  | calls hpc =>
    rcases hpc with hpc | hpc | hpc | hpc | hpc <;> simp [clientStep, Client.Reads, hpc] at hidle
  | opens hpc hproc hlinked =>
    simp [clientStep, openServer, Client.Reads, hpc, hproc, hlinked] at hidle
  | reads hreads hqueue =>
    rcases hidle with hnone | ⟨_, hread⟩
    · rcases hreads with hpc | hpc <;> simp [clientStep, hpc] at hnone
    · cases hq : sys.queue c.name with
      | nil => exact absurd hq hqueue
      | cons b rest => simp [readFifo, hq] at hread
  | @leaves s hat hleaves hs =>
    rcases hleaves.pc with hpc | hpc | hpc | hpc
    · simp [clientStep, Client.Reads, hpc] at hidle
    · simp [clientStep, Client.Reads, hpc] at hidle
    · simp [clientStep, Client.Reads, hpc] at hidle
    · exact ⟨c, s, hat, hpc, hleaves.decoded, hleaves.response, hs⟩

end Stage

/-- The conversation is at some stage. -/
def Staged (sys : System) : Prop := ∃ c, sys.Stage c ∧ c.name.length ≤ 1012

/-- STEP: any call that succeeds, comes in time and is no read in the gap. -/
theorem Staged.next {sys : System} {a : Action} (h : sys.Staged) (hmem : a.mem.Clean)
    (hok : a.Succeeds) (htime : sys.InTime a) (hgap : sys.NoGap a) : (sys.next a).Staged := by
  obtain ⟨c, h, hfit⟩ := h
  cases a with
  | server a =>
    rw [System.next]
    rcases h.server hfit hmem hok.1 hok.2 with ⟨sys', hstep, h'⟩ | ⟨hnone, _⟩
    · rw [hstep]
      exact ⟨c, h', hfit⟩
    · rw [hnone]
      exact ⟨c, h, hfit⟩
  | client i mem ok =>
    obtain rfl : ok = true := hok
    rw [System.next]
    cases i with
    | succ i => simp only [h.alone]; exact ⟨c, h, hfit⟩
    | zero =>
      have hc : sys.clients[0]? = some c := by simp [h.alone]
      simp only [hc]
      rcases h.client mem hfit hmem (htime c hc) (hgap c hc) with hnone | ⟨sys', e, hstep, h', hname⟩
      · rw [hnone]
        exact ⟨c, h, hfit⟩
      · rw [hstep]
        exact ⟨e, h', hname ▸ hfit⟩

/-- Where neither process moves, the client has been served. -/
theorem Staged.rests {sys : System} (h : sys.Staged) (hkept : sys.Kept)
    (hidle : ∀ p : Party, ∃ a : Action, (a.mem.Clean ∧ a.Succeeds) ∧ Action.By p a ∧ sys.next a = sys) :
    sys.Served := by
  obtain ⟨c, hstage, hfit⟩ := h
  obtain ⟨_, ⟨hmem, hok⟩, ⟨a, rfl⟩, hserver⟩ := hidle .server
  obtain ⟨_, _, ⟨mem, rfl⟩, hclient⟩ := hidle .client
  exact hstage.rests hkept hfit hmem hok.1 hok.2 hserver hclient

theorem start_staged (fifoName : List UInt8) (inherited : List ℤ) (l : Launch)
    (hfit : l.name.length ≤ 1012) (hother : l.name ≠ fifoName) :
    (start fifoName inherited [l.client]).Staged :=
  ⟨l.client, .gathering ⟨rfl, rfl, rfl, rfl⟩ (.inl rfl) (.inl ⟨rfl, rfl⟩) hother rfl, hfit⟩

/-! ### Astray, and after the end -/

/-- Once served, nothing moves. -/
theorem Served.next {sys : System} (h : sys.Served) (a : Action) : sys.next a = sys := by
  obtain ⟨c, s, hat, hpc, _, _, hs⟩ := h
  cases a with
  | server a =>
    have hnone : sys.serverStep a = none := by
      simp [serverStep, hat.server, serverRun, Server.InLoop, Server.syscall, Server.leave, hs]
    rw [System.next, hnone, Option.getD_none]
  | client i mem ok =>
    rw [System.next, hat.alone]
    rcases i with _ | i <;> simp [clientStep, hpc]

/-- A client has gone astray. -/
def Strayed (sys : System) : Prop := ∃ c ∈ sys.clients, c.Astray

theorem messageFrame_ne_zero : messageFrame ≠ zeroBuffer := by
  intro heq
  have hframe : Client.serialize ⟨0, .message, hello⟩ zeroBuffer = some messageFrame :=
    Client.serialize_frame (by decide)
  have hsize := (Package.serialize_fields hframe).2.2.1
  rw [heq] at hsize
  exact absurd hsize (by decide)

theorem Strayed.not_served {sys : System} (h : sys.Strayed) : ¬ sys.Served := by
  rintro ⟨c', s, hat, hpc, hd, _⟩
  obtain ⟨c, hc, hastray⟩ := h
  obtain rfl : c = c' := by simpa [hat.alone] using hc
  rcases hastray with hzero | ⟨failure, hthrew⟩
  · simp only [hd, heard, List.mem_cons, List.not_mem_nil, or_false] at hzero
    rcases hzero with heq | heq
    · exact successFrame_ne_zero heq.symm
    · exact messageFrame_ne_zero heq.symm
  · rw [hpc] at hthrew
    exact Client.Pc.noConfusion hthrew

/-- A call replaces the client by one that has forgotten nothing it has decoded. -/
theorem ClientMoves.decoded {sys sys' : System} {i : ℕ} {c : Client} {mem : Memory}
    (h : sys.ClientMoves i c mem sys') :
    ∃ e, sys'.clients = sys.clients.set i e ∧ c.decoded <+: e.decoded := by
  cases h with
  | moves | starts | sends => exact ⟨_, rfl, List.prefix_rfl⟩
  | fetches => exact ⟨_, rfl, c.receive_decoded mem _⟩

/-- A client that makes a call at all is not gone. -/
theorem astray_of_call {sys sys' : System} {i : ℕ} {c : Client} {mem : Memory} {ok : Bool}
    (hstep : sys.clientStep i c mem ok = some sys') (h : c.Astray) : zeroBuffer ∈ c.decoded := by
  refine h.resolve_right ?_
  rintro ⟨failure, hpc⟩
  simp [clientStep, hpc] at hstep

theorem Strayed.next {sys : System} (h : sys.Strayed) (a : Action) : (sys.next a).Strayed := by
  obtain ⟨c, hc, hastray⟩ := h
  cases a with
  | server a =>
    rw [System.next]
    cases hstep : sys.serverStep a with
    | none => exact ⟨c, hc, hastray⟩
    | some sys' =>
      refine ⟨c, ?_, hastray⟩
      rw [Option.getD_some]
      cases serverStep_cases hstep with
      | begins | reads | misreads | leaves => exact hc
      | calls => exact (foldl_deliver _ sys).1 ▸ hc
  | client i mem ok =>
    rw [System.next]
    cases hi : sys.clients[i]? with
    | none => exact ⟨c, hc, hastray⟩
    | some d =>
      simp only
      cases hstep : sys.clientStep i d mem ok with
      | none => exact ⟨c, hc, hastray⟩
      | some sys' =>
        obtain ⟨e, hclients, hgrows⟩ := (clientStep_cases hstep).decoded
        rw [Option.getD_some, Strayed, hclients]
        obtain ⟨j, hj⟩ := List.mem_iff_getElem?.mp hc
        obtain ⟨hlt, _⟩ := List.getElem?_eq_some_iff.mp hi
        by_cases hij : i = j
        · obtain rfl : d = c := by simpa [← hij, hi] using hj
          exact ⟨e, List.mem_set hlt e, .inl (hgrows.subset (astray_of_call hstep hastray))⟩
        · exact ⟨c, List.mem_iff_getElem?.mpr ⟨j, by rw [List.getElem?_set_ne hij, hj]⟩, hastray⟩

/-- An `open` that comes too early throws. -/
theorem strayed_of_early {sys : System} {a : Action} (htime : ¬ sys.InTime a) :
    (sys.next a).Strayed := by
  cases a with
  | server a => exact absurd trivial htime
  | client i mem ok =>
    simp only [InTime, not_forall, Bool.not_eq_true] at htime
    obtain ⟨c, hi, hpc, hlinked⟩ := htime
    have hnext : sys.next (.client i mem ok) =
        sys.put i { c with pc := .threw (.openFile sys.fifoName) } := by
      rw [System.next, hi]
      simp [clientStep, hpc, openServer, hlinked]
    obtain ⟨hlt, _⟩ := List.getElem?_eq_some_iff.mp hi
    rw [hnext]
    exact ⟨_, List.mem_set hlt _, .inr ⟨_, rfl⟩⟩

/-- A read in the gap leaves its mark. -/
theorem strayed_of_gap {sys : System} {a : Action} (hgap : ¬ sys.NoGap a) : (sys.next a).Strayed := by
  cases a with
  | server a => exact absurd trivial hgap
  | client i mem ok =>
    simp only [NoGap, not_forall, Bool.not_eq_false] at hgap
    obtain ⟨c, hi, hreads, hq, hheld⟩ := hgap
    have hread : sys.readFifo c.name = .failed := by simp [readFifo, hq, hheld]
    have hfetch : sys.next (.client i mem ok) = sys.fetch i c mem := by
      rw [System.next, hi]
      rcases hreads with hpc | hpc <;> simp [clientStep, hpc]
    have hdec : (c.receive mem .failed).decoded = c.decoded ++ [zeroBuffer] :=
      (Client.receive_decodes (readFrom_failed zeroBuffer)).1
    obtain ⟨hlt, _⟩ := List.getElem?_eq_some_iff.mp hi
    refine ⟨c.receive mem .failed, ?_, .inl (by simp [hdec])⟩
    rw [hfetch, fetch, hread]
    exact List.mem_set hlt _

/-- CORRECT: in every endless schedule of successful calls in which both the client and the server
    move again and again, the client gets the echo of its message, and both leave main, if and only
    if the client opens the public FIFO when it is there, and none of the client's reads finds its
    own FIFO empty while the server holds it open. -/
theorem completes_iff (fifoName : List UInt8) (inherited : List ℤ) (l : Launch)
    (hfit : l.name.length ≤ 1012) (hother : l.name ≠ fifoName) (acts : ℕ → Action)
    (hmem : ∀ n, (acts n).mem.Clean) (hok : ∀ n, (acts n).Succeeds)
    (hserver : ∀ n, ∃ m, n ≤ m ∧ ∃ a, acts m = .server a)
    (hclient : ∀ n, ∃ m, n ≤ m ∧ ∃ mem, acts m = .client 0 mem true) :
    (∃ n, (after next (start fifoName inherited [l.client]) acts n).Served) ↔
      ∀ n, (after next (start fifoName inherited [l.client]) acts n).InTime (acts n) ∧
        (after next (start fifoName inherited [l.client]) acts n).NoGap (acts n) := by
  refine pays.ends_well_iff (G := Staged) (B := Strayed) (C := fun sys a => sys.InTime a ∧ sys.NoGap a)
    (A := fun a => a.mem.Clean ∧ a.Succeeds) (K := Action.By)
    (fun _ _ h hA hC => h.next hA.1 hA.2 hC.1 hC.2) ?_ (fun _ a h => h.next a)
    (fun _ h => h.not_served) (fun _ a h => h.next a) (fun _ hkept h hidle => h.rests hkept hidle)
    (start_kept fifoName inherited [l.client]) (start_staged fifoName inherited l hfit hother) acts
    (fun n => ⟨hmem n, hok n⟩) ?_
  · intro sys a _ _ hnot
    rcases not_and_or.mp hnot with htime | hgap
    · exact strayed_of_early htime
    · exact strayed_of_gap hgap
  rintro (_ | _) n
  · exact hserver n
  · exact hclient n

/-- Three calls of the server to one of the client. -/
def threeToOne (n : ℕ) : Action :=
  if n % 4 = 3 then .client 0 ⟨[], [0]⟩ true else .server ⟨⟨[], [0]⟩, true, some 1024⟩

theorem completes_iff_threeToOne :
    (∃ n, (after next (start (ascii "s") [0, 1, 2] [(⟨ascii "c", by decide, 3⟩ : Launch).client])
        threeToOne n).Served) ↔
      ∀ n, (after next (start (ascii "s") [0, 1, 2] [(⟨ascii "c", by decide, 3⟩ : Launch).client])
        threeToOne n).InTime (threeToOne n) ∧
        (after next (start (ascii "s") [0, 1, 2] [(⟨ascii "c", by decide, 3⟩ : Launch).client])
          threeToOne n).NoGap (threeToOne n) := by
  refine completes_iff (ascii "s") [0, 1, 2] ⟨ascii "c", by decide, 3⟩ (by decide) (by decide)
    threeToOne ?_ ?_ ?_ ?_
  · intro n
    unfold threeToOne
    split <;> rfl
  · intro n
    unfold threeToOne
    split
    · rfl
    · exact ⟨rfl, by decide⟩
  · intro n
    refine ⟨4 * n, by omega, ⟨⟨[], [0]⟩, true, some 1024⟩, if_neg (by omega)⟩
  · intro n
    exact ⟨4 * n + 3, by omega, ⟨[], [0]⟩, if_pos (by omega)⟩

end System
end UnixIpc.Fifo
