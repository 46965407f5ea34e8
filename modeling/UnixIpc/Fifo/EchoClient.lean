import Mathlib.Logic.Function.Basic
import UnixIpc.Fifo.EchoServer

/-! The echo FIFO client, and the system it forms with the server: any number of clients, the one
    server, the public FIFO and the private ones.

    Every action of the system is one system call of one process. A FIFO is a queue of frames; what
    a call on it returns depends on who holds its other end, and a process that is gone holds
    nothing.

        client:  createFifo ▶ openClient ▶ openServer ▶ connect ▶ connectStatus ─▶ refused
                                                                       │
                 exited ◀ closeClient ◀ closeServer ◀ closeFifo ◀ close ◀ response ◀ message -/

namespace UnixIpc.Fifo
open UnixIpc.Bytes UnixIpc.Descriptors

/-- The next system call of the client. -/
inductive Client.Pc where
  | createFifo | openClient | openServer | connect | connectStatus | message | response | close
  | closeFifo | closeServer | closeClient | exited
  | refused | killed
  | threw (failure : Failure)
  | undefined
  deriving DecidableEq

/-- A client by its program counter and what it has read: `decoded` are the frames it passed to
    `deserialize`, `response` is the text it prints. The name comes from `argv`. -/
structure Client where
  name : List UInt8
  nulFree : 0 ∉ name
  clientFd : ℤ
  pc : Client.Pc
  decoded : List Buffer
  response : Option (List UInt8)
  deriving DecidableEq

/-- What `read` on a FIFO returns: -1, 0, or the next frame. -/
inductive ReadResult where
  | failed | ended
  | frame (buffer : Buffer)

/-- `size_t size = read(..)`: the unsigned variable turns -1 into the largest count. -/
def ReadResult.size : ReadResult → ℕ
  | .failed => 2 ^ 64 - 1
  | .ended => 0
  | .frame _ => 1024

/-- The buffer after the call, over its earlier content. -/
def ReadResult.over (buffer : Buffer) : ReadResult → Buffer
  | .frame b => b
  | _ => buffer

/-- One round of the loop of `ReadFrom`; `none` when it goes round again. -/
def readFrom (result : ReadResult) (buffer : Buffer) : Option (Except Failure Buffer) :=
  if result.size < 0 then some (.error .read)
  else if result.size = 0 then none
  else some (.ok (result.over buffer))

/-- A failed `read` passes for a full one. -/
theorem readFrom_failed (buffer : Buffer) : readFrom .failed buffer = some (.ok buffer) := rfl

theorem readFrom_ended (buffer : Buffer) : readFrom .ended buffer = none := rfl

theorem readFrom_frame (b buffer : Buffer) : readFrom (.frame b) buffer = some (.ok b) := rfl

namespace Client

/-- The client at the start of main; `clientFd` is what its `open` will return. -/
def start (name : List UInt8) (nulFree : 0 ∉ name) (clientFd : ℤ) : Client where
  name := name
  nulFree := nulFree
  clientFd := clientFd
  pc := .createFifo
  decoded := []
  response := none

/-- A call that either goes through or throws. -/
def orThrow (c : Client) (ok : Bool) (next : Pc) (failure : Failure) : Client :=
  { c with pc := if ok then next else .threw failure }

/-- `WriteTo(serverFd, buffer)` of a package put into the cleared buffer, with the frame written.
    Without a reader `write` raises SIGPIPE. -/
def writeTo (c : Client) (package : Client.Package) (serverReads : Bool) (next : Pc) :
    Client × List Buffer :=
  match Client.serialize package zeroBuffer with
  | none => ({ c with pc := .undefined }, [])
  | some buffer =>
    if serverReads then ({ c with pc := next }, [buffer]) else ({ c with pc := .killed }, [])

/-- `connectStatus << buffer` and the test of its type. -/
def connectStatus (c : Client) (mem : Memory) (buffer : Buffer) : Client :=
  match Client.deserialize Client.package mem buffer with
  | none => { c with decoded := c.decoded ++ [buffer], pc := .undefined }
  | some status =>
    { c with decoded := c.decoded ++ [buffer]
             pc := if status.type ≠ .connectionSuccess then .refused else .message }

/-- `response << buffer` and the print of its data. -/
def respond (c : Client) (mem : Memory) (buffer : Buffer) : Client :=
  match Client.deserialize Client.package mem buffer with
  | none => { c with decoded := c.decoded ++ [buffer], pc := .undefined }
  | some response =>
    { c with decoded := c.decoded ++ [buffer], response := some response.data, pc := .close }

/-- The client is about to read its private FIFO. -/
def Reads (c : Client) : Prop := c.pc = .connectStatus ∨ c.pc = .response

instance (c : Client) : Decidable c.Reads := inferInstanceAs (Decidable (_ ∨ _))

/-- `ReadFrom(clientFd, buffer)` into the cleared buffer, with what main does next. -/
def receive (c : Client) (mem : Memory) (result : ReadResult) : Client :=
  match readFrom result zeroBuffer with
  | none => c
  | some (.error failure) => { c with pc := .threw failure }
  | some (.ok buffer) =>
    if c.pc = .connectStatus then c.connectStatus mem buffer else c.respond mem buffer

/-- Whatever `ReadFrom` hands back is decoded. -/
theorem receive_decodes {c : Client} {mem : Memory} {result : ReadResult} {buffer : Buffer}
    (h : readFrom result zeroBuffer = some (.ok buffer)) :
    (c.receive mem result).decoded = c.decoded ++ [buffer] ∧
      (c.receive mem result).name = c.name := by
  rw [receive, h]
  simp only [connectStatus, respond]
  split <;> split <;> exact ⟨rfl, rfl⟩

/-- The client's FIFO can be opened by name: `mkfifo` has made it, `unlink` has not removed it. -/
def linked (c : Client) : Bool :=
  match c.pc with
  | .createFifo | .threw (.createFifo _) => false
  | .closeServer | .closeClient | .exited | .threw .closeFile => false
  | _ => true

/-- The client holds the read end of its FIFO. -/
def holds (c : Client) : Bool :=
  match c.pc with
  | .openServer | .connect | .connectStatus | .message | .response | .close
  | .closeFifo | .closeServer | .closeClient => true
  | _ => false

end Client

/-- The server's process: before its descriptor is there, in main, or stopped by an exception. -/
inductive ServerProc where
  | createFifo | openFifo
  | running (s : Server)
  | failed (failure : Failure)
  deriving DecidableEq

namespace Server

/-- The process exists, so its descriptors are open. -/
def live (s : Server) : Bool :=
  match s.pc with
  | .exited | .killed | .threw _ | .undefined => false
  | _ => true

/-- `serverFd` is still the read end of the public FIFO. -/
def attends (s : Server) : Bool := s.files.lookup s.serverFd = some .publicFifo

theorem attends_iff {s : Server} :
    s.attends ↔ s.files.lookup s.serverFd = some .publicFifo := decide_eq_true_iff

theorem attends_start (inherited : List ℤ) : (start inherited).attends :=
  attends_iff.mpr List.lookup_cons_self

theorem serverFd_mem_of_attends {s : Server} (h : s.attends) : s.serverFd ∈ s.descriptors := by
  obtain ⟨before, after, hfiles, _⟩ := List.lookup_eq_some_iff.mp (attends_iff.mp h)
  simp [descriptors, hfiles]

/-- A new descriptor takes no number in use. -/
theorem attends_opened {s : Server} (h : s.attends) (fileName : List UInt8) (pc : Pc) :
    (s.opened fileName pc).attends := by
  have hne : (s.serverFd == lowestFree s.descriptors) = false := by
    rw [beq_eq_false_iff_ne]
    intro heq
    exact lowestFree_not_mem s.descriptors (heq ▸ serverFd_mem_of_attends h)
  rw [attends_iff] at h ⊢
  rw [opened_files, List.lookup_cons]
  simp only [opened, hne, h]

/-- `CloseFifo(serverFifoName)` and `CloseFile(serverFd)` behind the loop. -/
def leave (s : Server) (fifoName : List UInt8) (ok : Bool) : Option Server :=
  match s.pc with
  | .closeFifo =>
    some (if ok then { s with pc := .closeServer } else { s with pc := .threw (.closeFifo fifoName) })
  | .closeServer =>
    some (if s.serverFd ∈ s.descriptors then
        { s with files := s.files.filter (·.1 ≠ s.serverFd), pc := .exited }
      else { s with pc := .threw .closeFile })
  | _ => none

end Server

structure System where
  fifoName : List UInt8
  inherited : List ℤ
  server : ServerProc
  /-- The public FIFO can be opened by name. -/
  linked : Bool
  clients : List Client
  /-- Frames in the public FIFO. -/
  publicQueue : List Buffer
  /-- Frames in the private FIFO of that name. -/
  queue : List UInt8 → List Buffer
  /-- Frames the server ever put there. -/
  written : List UInt8 → List Buffer

/-- One system call: of the server, with the system's answers, or of the client at an index. `ok`
    is false when the call fails for a reason of its own. -/
inductive Action where
  | server (answers : Answers)
  | client (i : ℕ) (mem : Memory) (ok : Bool)

namespace System

def start (fifoName : List UInt8) (inherited : List ℤ) (clients : List Client) : System where
  fifoName := fifoName
  inherited := inherited
  server := .createFifo
  linked := false
  clients := clients
  publicQueue := []
  queue := fun _ => []
  written := fun _ => []

/-- The server holds an end of the file. -/
def serverHolds (sys : System) (file : File) : Bool :=
  match sys.server with
  | .running s => s.live && (s.files.map Prod.snd).contains file
  | _ => false

/-- There is a file of that name, and `mkfifo` fails. -/
def inUse (sys : System) (name : List UInt8) : Bool :=
  sys.linked && name = sys.fifoName || sys.clients.any fun c => c.name = name && c.linked

/-- `open(name, O_WRONLY | O_NONBLOCK)` finds the FIFO and a reader. -/
def canOpen (sys : System) (name : List UInt8) : Bool :=
  sys.clients.any fun c => c.name = name && c.linked && c.holds

/-- Somebody has the private FIFO of that name open for reading. -/
def hasReader (sys : System) (name : List UInt8) : Bool :=
  sys.clients.any fun c => c.name = name && c.holds

/-- What `write` of a frame to the file returns. A private FIFO takes it whole if there is room;
    without a reader there is SIGPIPE. The public FIFO is open for reading only. -/
def wrote (sys : System) (a : Answers) : File → Option ℤ
  | .fifo name =>
    if sys.hasReader name then if a.taken then some 1024 else some (-1) else none
  | .publicFifo => some (-1)
  | .inherited => a.written

/-- The answers to the server's calls: `open` needs a reader, and so does `write`. -/
def answers (sys : System) (s : Server) (a : Answers) : Answers where
  mem := a.mem
  openOk :=
    match s.pc with
    | .openFile fileName => a.openOk && sys.canOpen fileName
    | _ => a.openOk
  written :=
    match s.pc with
    | .greet fd | .echo fd _ => (s.files.lookup fd).elim (some (-1)) (sys.wrote a)
    | _ => some (-1)

/-- What a call of the server leaves in the private FIFOs. -/
def deliver (sys : System) : Call → System
  | .writeTo _ buffer (some (.fifo name)) =>
    { sys with queue := Function.update sys.queue name (sys.queue name ++ [buffer])
               written := Function.update sys.written name (sys.written name ++ [buffer]) }
  | _ => sys

/-- The server in its main loop and behind it; `read` blocks on the empty public FIFO. Where
    `serverFd` was closed, or has become the write end of a private FIFO, `read` fails at once. -/
def serverRun (sys : System) (s : Server) (a : Answers) : Option System :=
  if s.InLoop then
    if s.attends then
      match sys.publicQueue with
      | [] => none
      | buffer :: rest =>
        some { sys with server := .running (s.receive a.mem buffer), publicQueue := rest }
    else some { sys with server := .running (s.receive a.mem zeroBuffer) }
  else
    match s.syscall (sys.answers s a) with
    | some (s', calls) => some { calls.foldl deliver sys with server := .running s' }
    | none =>
      (s.leave sys.fifoName a.openOk).map fun s' =>
        { sys with server := .running s', linked := sys.linked && s'.pc ≠ .closeServer }

/-- The server's next call; `none` while it blocks or when it is gone. -/
def serverStep (sys : System) (a : Answers) : Option System :=
  match sys.server with
  | .createFifo =>
    if a.openOk && !sys.inUse sys.fifoName then
      some { sys with server := .openFifo, linked := true }
    else some { sys with server := .failed (.createFifo sys.fifoName) }
  | .openFifo =>
    if a.openOk then none else some { sys with server := .failed (.openFile sys.fifoName) }
  | .running s => sys.serverRun s a
  | .failed _ => none

def put (sys : System) (i : ℕ) (c : Client) : System := { sys with clients := sys.clients.set i c }

/-- `buffer << package` and `WriteTo(serverFd, buffer)`. -/
def send (sys : System) (i : ℕ) (c : Client) (package : Client.Package) (next : Client.Pc) :
    System :=
  let sent := c.writeTo package (sys.serverHolds .publicFifo) next
  { sys.put i sent.1 with publicQueue := sys.publicQueue ++ sent.2 }

/-- `read` on the private FIFO, opened with `O_NONBLOCK`. -/
def readFifo (sys : System) (name : List UInt8) : ReadResult :=
  match sys.queue name with
  | buffer :: _ => .frame buffer
  | [] => if sys.serverHolds (.fifo name) then .failed else .ended

/-- `ReadFrom(clientFd, buffer)` and what follows it up to the next call. -/
def fetch (sys : System) (i : ℕ) (c : Client) (mem : Memory) : System :=
  { sys.put i (c.receive mem (sys.readFifo c.name)) with
    queue := Function.update sys.queue c.name (sys.queue c.name).tail }

/-- `OpenFile(serverFifoName, O_WRONLY)`: returns together with the server's own `open`, or at once
    when that one has returned, and throws where there is no such FIFO. -/
def openServer (sys : System) (i : ℕ) (c : Client) (ok : Bool) : Option System :=
  if ok && sys.linked then
    match sys.server with
    | .openFifo =>
      some { sys.put i { c with pc := .connect } with
             server := .running (Server.start sys.inherited) }
    | _ => if sys.serverHolds .publicFifo then some (sys.put i { c with pc := .connect }) else none
  else some (sys.put i { c with pc := .threw (.openFile sys.fifoName) })

/-- The next call of client main; `none` while it blocks or when it is gone. -/
def clientStep (sys : System) (i : ℕ) (c : Client) (mem : Memory) (ok : Bool) : Option System :=
  match c.pc with
  | .createFifo =>
    some (sys.put i (c.orThrow (ok && !sys.inUse c.name) .openClient (.createFifo c.name)))
  | .openClient => some (sys.put i (c.orThrow ok .openServer (.openFile c.name)))
  | .openServer => sys.openServer i c ok
  | .connect => some (sys.send i c ⟨c.clientFd, .newConnection, c.name⟩ .connectStatus)
  | .connectStatus => some (sys.fetch i c mem)
  | .message => some (sys.send i c ⟨c.clientFd, .message, hello⟩ .response)
  | .response => some (sys.fetch i c mem)
  | .close => some (sys.send i c ⟨c.clientFd, .connectionClose, []⟩ .closeFifo)
  | .closeFifo => some (sys.put i (c.orThrow ok .closeServer (.closeFifo c.name)))
  | .closeServer => some (sys.put i (c.orThrow ok .closeClient .closeFile))
  | .closeClient => some (sys.put i (c.orThrow ok .exited .closeFile))
  | .exited | .refused | .killed | .threw _ | .undefined => none

def next (sys : System) : Action → System
  | .server a => (sys.serverStep a).getD sys
  | .client i mem ok =>
    match sys.clients[i]? with
    | none => sys
    | some c => (sys.clientStep i c mem ok).getD sys

/-! ### What a call of the server is -/

/-- The calls of the server that return: before its loop, the two kinds of read in it, the calls
    between two reads, and those behind the loop. -/
inductive ServerMoves (sys : System) (a : Answers) : System → Prop
  | begins {proc linked} (hproc : ∀ s, sys.server ≠ .running s) (hnext : ∀ s, proc ≠ .running s) :
      ServerMoves sys a { sys with server := proc, linked := linked }
  | reads {s b rest} (hproc : sys.server = .running s) (hloop : s.InLoop) (hfifo : s.attends)
      (hqueue : sys.publicQueue = b :: rest) : ServerMoves sys a
        { sys with server := .running (s.receive a.mem b), publicQueue := rest }
  | misreads {s} (hproc : sys.server = .running s) (hloop : s.InLoop) (hfifo : ¬ s.attends) :
      ServerMoves sys a { sys with server := .running (s.receive a.mem zeroBuffer) }
  | calls {s s' calls} (hproc : sys.server = .running s)
      (hcall : s.syscall (sys.answers s a) = some (s', calls)) :
      ServerMoves sys a { calls.foldl deliver sys with server := .running s' }
  | leaves {s s' linked} (hproc : sys.server = .running s)
      (hleave : s.leave sys.fifoName a.openOk = some s') :
      ServerMoves sys a { sys with server := .running s', linked := linked }

/-- STEP: every call of the server is one of these. -/
theorem serverStep_cases {sys sys' : System} {a : Answers} (h : sys.serverStep a = some sys') :
    sys.ServerMoves a sys' := by
  unfold serverStep at h
  split at h
  · rename_i hproc
    split at h
    · obtain rfl := Option.some.inj h
      exact .begins (by simp [hproc]) (by simp)
    · obtain rfl := Option.some.inj h
      exact .begins (by simp [hproc]) (by simp)
  · rename_i hproc
    split at h
    · exact absurd h (by simp)
    · obtain rfl := Option.some.inj h
      exact .begins (by simp [hproc]) (by simp)
  · rename_i s hproc
    unfold serverRun at h
    split at h
    · rename_i hloop
      split at h
      · rename_i hfifo
        split at h
        · exact absurd h (by simp)
        · rename_i b rest hqueue
          obtain rfl := Option.some.inj h
          exact .reads hproc hloop hfifo hqueue
      · rename_i hfifo
        obtain rfl := Option.some.inj h
        exact .misreads hproc hloop hfifo
    · split at h
      · rename_i s' calls hcall
        obtain rfl := Option.some.inj h
        exact .calls hproc hcall
      · obtain ⟨s', hleave, rfl⟩ := Option.map_eq_some_iff.mp h
        exact .leaves hproc hleave
  · exact absurd h (by simp)

end System
end UnixIpc.Fifo
