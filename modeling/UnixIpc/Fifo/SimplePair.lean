import UnixIpc.Lib.Run
import UnixIpc.Fifo.EchoClient

/-! The simple FIFO client and server, call by call in every order. The client writes the name of its
    FIFO and then opens it for reading; the server reads the name and opens the FIFO for writing,
    which fails while nobody has it open for reading.

        client   openServer ▶ createFifo ▶ write ─┬─▶ openFifo ▶ read ▶ closeFifo …
                                              name│               ▲
        server   createFifo ▶ openFifo ▶ read ◀───┘▶ openFile ▶ write ▶ closeFifo …

    A read that finds a writer and no data gives -1, which `ReadFrom` takes for a full buffer. So
    there is a second way to miss each other, and `meets_iff` says that there is no third. -/

namespace UnixIpc.Fifo.Simple
open UnixIpc.Bytes UnixIpc.Run

/-- The next system call of the client. -/
inductive Client.Pc where
  | openServer | createFifo | write | openFifo | read | closeFifo | closeRead | closeWrite | exited
  | killed | undefined
  | threw (failure : Failure)
  deriving DecidableEq

/-- The client: its FIFO's name from `argv[2]`, whether the name is written, and the text printed. -/
structure Client where
  name : List UInt8
  pc : Client.Pc
  wrote : Bool
  printed : Option (List UInt8)
  deriving DecidableEq

/-- The next system call of the server. -/
inductive Server.Pc where
  | createFifo | openFifo | read
  | openFile (fifoName : List UInt8)
  | write | closeFifo | closeRead | closeWrite | exited
  | killed
  | threw (failure : Failure)
  deriving DecidableEq

/-- The server: its FIFO's name from `argv[1]`, and the name of the FIFO it has open for writing. -/
structure Server where
  fifoName : List UInt8
  pc : Server.Pc
  opened : Option (List UInt8)
  deriving DecidableEq

/-- Both processes and what is in the two FIFOs. -/
structure Pair where
  server : Server
  client : Client
  publicQueue : List Buffer
  privateQueue : List Buffer

/-- Who makes the next call. `behind` is the memory behind a buffer that is used as a string, `ok`
    says that mkfifo(3) finds the path free. -/
inductive Action where
  | server (behind : List UInt8) (ok : Bool)
  | client (behind : List UInt8) (ok : Bool)

/-- The string that `buff.data()` denotes. -/
def text (buffer : Buffer) (behind : List UInt8) : List UInt8 :=
  (buffer.1 ++ behind).takeWhile (· ≠ 0)

/-- `Buffer msg = {"Hello from server!"}`. -/
def greeting : List UInt8 := ascii "Hello from server!"
def greetingFrame : Buffer := (copyInto zeroBuffer 0 greeting).getD zeroBuffer

/-- The client can find its FIFO by name. -/
def Client.linked (c : Client) : Bool := c.pc ∈ [.write, .openFifo, .read, .closeFifo]

/-- The client holds the read end of its FIFO. -/
def Client.reads (c : Client) : Bool := c.pc ∈ [.read, .closeFifo, .closeRead]

/-- The client holds the write end of the server's FIFO. -/
def Client.writes (c : Client) : Bool :=
  c.pc ∈ [.createFifo, .write, .openFifo, .read, .closeFifo, .closeRead, .closeWrite]

namespace Server

/-- The server's FIFO can be opened by name. -/
def linked (s : Server) : Bool :=
  match s.pc with
  | .openFifo | .read | .openFile _ | .write | .closeFifo => true
  | _ => false

/-- The server holds the read end of its FIFO. -/
def reads (s : Server) : Bool :=
  match s.pc with
  | .read | .openFile _ | .write | .closeFifo | .closeRead => true
  | _ => false

/-- The server holds the write end of the FIFO it has opened. -/
def writes (s : Server) : Bool := s.pc ∈ [.write, .closeFifo, .closeRead, .closeWrite]

end Server

namespace Pair

def start (fifoName name : List UInt8) : Pair where
  server := ⟨fifoName, .createFifo, none⟩
  client := ⟨name, .openServer, false, none⟩
  publicQueue := []
  privateQueue := []

/-- `read` on a FIFO opened with `O_NONBLOCK`. -/
def readFifo (queue : List Buffer) (writer : Bool) : ReadResult :=
  match queue with
  | buffer :: _ => .frame buffer
  | [] => if writer then .failed else .ended

/-- `open(name, O_NONBLOCK | O_WRONLY)` of the server finds a FIFO and a reader: the client, or
    itself. -/
def canOpen (p : Pair) (name : List UInt8) : Bool :=
  name = p.client.name && p.client.linked && p.client.reads || name = p.server.fifoName

/-- `WriteTo(wfd, msg)` of the server; without a reader it gets SIGPIPE. -/
def greet (p : Pair) : Pair :=
  if p.server.opened = some p.server.fifoName then
    { p with publicQueue := p.publicQueue ++ [greetingFrame]
             server := { p.server with pc := .closeFifo } }
  else if p.client.reads then
    { p with privateQueue := p.privateQueue ++ [greetingFrame]
             server := { p.server with pc := .closeFifo } }
  else { p with server := { p.server with pc := .killed } }

/-- The next call of server main, and what follows it up to the one after. -/
def serverStep (p : Pair) (behind : List UInt8) (ok : Bool) : Pair :=
  let goto (pc : Server.Pc) : Server := { p.server with pc := pc }
  match p.server.pc with
  | .createFifo =>
    if ok ∧ p.server.fifoName ≠ [] then { p with server := goto .openFifo }
    else { p with server := goto (.threw (.createFifo p.server.fifoName)) }
  | .openFifo => { p with server := goto .read }
  | .read =>
    match readFrom (readFifo p.publicQueue p.client.writes) zeroBuffer with
    | none => p
    | some (.error failure) => { p with server := goto (.threw failure) }
    | some (.ok buff) =>
      { p with server := goto (.openFile (text buff behind)), publicQueue := p.publicQueue.tail }
  | .openFile fifoName =>
    if p.canOpen fifoName then
      { p with server := { p.server with opened := some fifoName, pc := .write } }
    else { p with server := goto (.threw (.openFile fifoName)) }
  | .write => p.greet
  | .closeFifo => { p with server := goto .closeRead }
  | .closeRead => { p with server := goto .closeWrite }
  | .closeWrite => { p with server := goto .exited }
  | .exited | .killed | .threw _ => p

/-- `memcpy(buff.data(), argv[2], strlen(argv[2]))` and `WriteTo(wfd, buff)` of the client. -/
def sendName (p : Pair) : Pair :=
  match copyInto zeroBuffer 0 p.client.name with
  | none => { p with client := { p.client with pc := .undefined } }
  | some buff =>
    if p.server.reads then
      { p with publicQueue := p.publicQueue ++ [buff]
               client := { p.client with wrote := true, pc := .openFifo } }
    else { p with client := { p.client with pc := .killed } }

/-- The next call of client main. -/
def clientStep (p : Pair) (behind : List UInt8) (ok : Bool) : Pair :=
  let goto (pc : Client.Pc) : Client := { p.client with pc := pc }
  match p.client.pc with
  | .openServer =>
    if p.server.linked ∧ p.server.reads then { p with client := goto .createFifo }
    else { p with client := goto (.threw (.openFile p.server.fifoName)) }
  | .createFifo =>
    if ok ∧ p.client.name ≠ [] ∧ p.client.name ≠ p.server.fifoName then
      { p with client := goto .write }
    else { p with client := goto (.threw (.createFifo p.client.name)) }
  | .write => p.sendName
  | .openFifo => { p with client := goto .read }
  | .read =>
    let writer := p.server.writes && p.server.opened = some p.client.name
    match readFrom (readFifo p.privateQueue writer) zeroBuffer with
    | none => p
    | some (.error failure) => { p with client := goto (.threw failure) }
    | some (.ok msg) =>
      { p with client := { p.client with printed := some (text msg behind), pc := .closeFifo }
               privateQueue := p.privateQueue.tail }
  | .closeFifo => { p with client := goto .closeRead }
  | .closeRead => { p with client := goto .closeWrite }
  | .closeWrite => { p with client := goto .exited }
  | .exited | .killed | .undefined | .threw _ => p

def next (p : Pair) : Action → Pair
  | .server behind ok => p.serverStep behind ok
  | .client behind ok => p.clientStep behind ok

end Pair

/-- The server has not been stopped. -/
def Server.Pc.Going : Server.Pc → Prop
  | .killed | .threw _ => False
  | _ => True

/-- The code behind the one write, or the one read. -/
def Server.Pc.Leaving : Server.Pc → Prop
  | .closeFifo | .closeRead | .closeWrite | .exited => True
  | _ => False

def Client.Pc.Leaving : Client.Pc → Prop
  | .closeFifo | .closeRead | .closeWrite | .exited => True
  | _ => False

namespace Pair

/-- The rendezvous: once the client has written its name the server goes on, what it opens is the
    client's FIFO, and what the client reads is the greeting. -/
structure Meets (p : Pair) : Prop where
  going : p.client.wrote = true → p.server.pc.Going
  target : p.client.wrote = true → ∀ name, p.server.opened = some name → name = p.client.name
  greeted : p.client.pc.Leaving → p.client.printed = some greeting

/-- The order of the calls that matter. Once the client has written, the server opens its FIFO only
    with the name in hand and after the client has opened it; and the client does not read between
    the server's open and its write. -/
def InTime (p : Pair) : Action → Prop
  | .server _ _ => ∀ name, p.server.pc = .openFile name → p.client.wrote = true →
      name = p.client.name ∧ p.client.pc ≠ .openFifo
  | .client _ _ => p.client.pc = .read → p.server.pc ≠ .write

end Pair

/-! ### Strings in buffers -/

theorem text_zero (behind : List UInt8) : text zeroBuffer behind = [] := by
  have hhead : zeroBuffer.1 = 0 :: List.replicate 1023 0 := rfl
  rw [text, hhead, List.cons_append, List.takeWhile_cons_of_neg (by simp)]

theorem greeting_nulFree : 0 ∉ greeting := by decide

theorem text_greetingFrame (behind : List UInt8) : text greetingFrame behind = greeting := by
  have hframe : greetingFrame.1 = greeting ++ 0 :: List.replicate 1005 0 := by decide +kernel
  have hbytes : ∀ b ∈ greeting, decide (b ≠ 0) = true := by
    intro b hb
    exact decide_eq_true (ne_of_mem_of_not_mem hb greeting_nulFree)
  rw [text, hframe, List.append_assoc, List.cons_append, List.takeWhile_append_of_pos hbytes,
    List.takeWhile_cons_of_neg (by simp), List.append_nil]

theorem greeting_ne_nil : greeting ≠ [] := by decide

/-! ### Where the two are -/

/-- Before the client has written: the server can only have misread. -/
def Server.Alone (s : Server) : Prop :=
  match s.pc with
  | .createFifo | .threw _ => True
  | .openFifo | .read => s.fifoName ≠ []
  | .openFile name => s.fifoName ≠ [] ∧ name = []
  | _ => False

def Client.Before (c : Client) (fifoName : List UInt8) : Prop :=
  match c.pc with
  | .openServer | .createFifo | .killed | .undefined | .threw _ => True
  | .write => c.name ≠ [] ∧ c.name ≠ fifoName
  | _ => False

/-- The client is behind its write and has not read yet. -/
structure Client.Waits (c : Client) (fifoName : List UInt8) : Prop where
  pc : c.pc = .openFifo ∨ c.pc = .read
  wrote : c.wrote = true
  printed : c.printed = none
  name : c.name ≠ fifoName

theorem Client.Waits.not_leaving {c : Client} {fifoName : List UInt8} (h : c.Waits fifoName) :
    ¬ c.pc.Leaving := by
  rcases h.pc with hpc | hpc <;> simp [hpc, Client.Pc.Leaving]

theorem Client.Before.not_leaving {c : Client} {fifoName : List UInt8} (h : c.Before fifoName) :
    ¬ c.pc.Leaving := by
  intro hleaving
  rcases hpc : c.pc <;> rw [hpc] at hleaving <;>
    first | exact hleaving | simp [Client.Before, hpc] at h

theorem Server.Pc.Leaving.going {pc : Server.Pc} (h : pc.Leaving) : pc.Going := by
  rcases pc <;> trivial

theorem Client.Before.not_reads {c : Client} {fifoName : List UInt8} (h : c.Before fifoName) :
    c.reads = false := by
  unfold Client.reads
  rcases hpc : c.pc
  case read | closeFifo | closeRead => simp [Client.Before, hpc] at h
  all_goals rfl

namespace Pair

/-- INVARIANT: the stages of a rendezvous that has not failed. -/
inductive Stage (p : Pair) : Prop
  | early (hs : p.server.Alone) (hc : p.client.Before p.server.fifoName)
      (hwrote : p.client.wrote = false) (hprinted : p.client.printed = none)
      (hopened : p.server.opened = none) (hpublic : p.publicQueue = [])
      (hprivate : p.privateQueue = [])
  | sent (hs : p.server.pc = .read) (hc : p.client.Waits p.server.fifoName)
      (hopened : p.server.opened = none) (hpublic : p.publicQueue ≠ [])
      (hprivate : p.privateQueue = [])
  | read {name} (hs : p.server.pc = .openFile name) (hc : p.client.Waits p.server.fifoName)
      (hopened : p.server.opened = none) (hprivate : p.privateQueue = [])
  | opened (hs : p.server.pc = .write) (hc : p.client.Waits p.server.fifoName)
      (hpc : p.client.pc = .read) (hopened : p.server.opened = some p.client.name)
      (hprivate : p.privateQueue = [])
  | greeted (hs : p.server.pc.Leaving) (hc : p.client.Waits p.server.fifoName)
      (hpc : p.client.pc = .read) (hopened : p.server.opened = some p.client.name)
      (hprivate : p.privateQueue = [greetingFrame])
  | finished (hs : p.server.pc.Leaving) (hc : p.client.pc.Leaving)
      (hopened : p.server.opened = some p.client.name) (hprinted : p.client.printed = some greeting)

theorem start_stage (fifoName name : List UInt8) : (start fifoName name).Stage :=
  .early trivial trivial rfl rfl rfl rfl rfl

theorem Stage.meets {p : Pair} (h : p.Stage) : p.Meets := by
  cases h with
  | early _ hc hwrote =>
    exact ⟨by simp [hwrote], by simp [hwrote], fun hleaving => absurd hleaving hc.not_leaving⟩
  | sent hs hc hopened | read hs hc hopened =>
    refine ⟨fun _ => ?_, by simp [hopened], fun hleaving => absurd hleaving hc.not_leaving⟩
    rw [hs]
    trivial
  | opened hs hc _ hopened =>
    refine ⟨fun _ => ?_, by simp [hopened], fun hleaving => absurd hleaving hc.not_leaving⟩
    rw [hs]
    trivial
  | greeted hs hc _ hopened =>
    exact ⟨fun _ => hs.going, by simp [hopened], fun hleaving => absurd hleaving hc.not_leaving⟩
  | finished hs _ hopened hprinted => exact ⟨fun _ => hs.going, by simp [hopened], fun _ => hprinted⟩

/-- The server behind its write. -/
theorem serverStep_leaving {p : Pair} (hs : p.server.pc.Leaving) (behind : List UInt8) (ok : Bool) :
    ∃ pc, pc.Leaving ∧ p.serverStep behind ok = { p with server := { p.server with pc := pc } } := by
  rcases hpc : p.server.pc <;> rw [hpc] at hs <;> simp only [serverStep, hpc]
  case closeFifo => exact ⟨.closeRead, trivial, rfl⟩
  case closeRead => exact ⟨.closeWrite, trivial, rfl⟩
  case closeWrite => exact ⟨.exited, trivial, rfl⟩
  case exited => exact ⟨.exited, trivial, by rw [← hpc]⟩
  all_goals exact absurd hs id

/-- STEP: the server before the client has written. -/
theorem Stage.server_early {p : Pair} (hs : p.server.Alone)
    (hc : p.client.Before p.server.fifoName) (hwrote : p.client.wrote = false)
    (hprinted : p.client.printed = none) (hopened : p.server.opened = none)
    (hpublic : p.publicQueue = []) (hprivate : p.privateQueue = []) (behind : List UInt8)
    (ok : Bool) : (p.serverStep behind ok).Stage := by
  unfold Server.Alone at hs
  rcases hpc : p.server.pc <;> rw [hpc] at hs <;> simp only [serverStep, hpc]
  case createFifo =>
    split
    · rename_i hok
      exact .early hok.2 hc hwrote hprinted hopened hpublic hprivate
    · exact .early trivial hc hwrote hprinted hopened hpublic hprivate
  case openFifo => exact .early hs hc hwrote hprinted hopened hpublic hprivate
  case read =>
    rw [hpublic, readFifo]
    by_cases hwriter : p.client.writes = true
    · rw [if_pos hwriter, readFrom_failed]
      exact .early ⟨hs, text_zero behind⟩ hc hwrote hprinted hopened rfl hprivate
    · rw [if_neg hwriter, readFrom_ended]
      refine .early ?_ hc hwrote hprinted hopened hpublic hprivate
      rw [Server.Alone, hpc]
      exact hs
  case openFile name =>
    obtain ⟨hfifo, rfl⟩ := hs
    have hcan : p.canOpen [] = false := by simp [canOpen, hc.not_reads, hfifo.symm]
    rw [hcan]
    exact .early trivial hc hwrote hprinted hopened hpublic hprivate
  case threw =>
    refine .early ?_ hc hwrote hprinted hopened hpublic hprivate
    rw [Server.Alone, hpc]
    trivial
  all_goals exact absurd hs id

/-- STEP: a call of the server in time. -/
theorem Stage.server {p : Pair} (h : p.Stage) {behind : List UInt8} {ok : Bool}
    (htime : p.InTime (.server behind ok)) : (p.serverStep behind ok).Stage := by
  cases h with
  | early hs hc hwrote hprinted hopened hpublic hprivate =>
    exact server_early hs hc hwrote hprinted hopened hpublic hprivate behind ok
  | sent hs hc hopened hpublic hprivate =>
    obtain ⟨buff, rest, hqueue⟩ := List.exists_cons_of_ne_nil hpublic
    simp only [serverStep, hs, hqueue, readFifo, readFrom_frame]
    exact .read rfl hc hopened hprivate
  | read hs hc hopened hprivate =>
    obtain ⟨rfl, hopen⟩ := htime _ hs hc.wrote
    have hpc := hc.pc.resolve_left hopen
    have hcan : p.canOpen p.client.name = true := by
      simp [canOpen, Client.linked, Client.reads, hpc]
    simp only [serverStep, hs, hcan, if_true]
    exact .opened rfl hc hpc rfl hprivate
  | opened hs hc hpc hopened hprivate =>
    have hown : p.server.opened ≠ some p.server.fifoName := by
      rw [hopened]
      simpa using hc.name
    have hreads : p.client.reads = true := by simp [Client.reads, hpc]
    simp only [serverStep, hs, greet, if_neg hown, if_pos hreads]
    exact .greeted trivial hc hpc hopened (by simp [hprivate])
  | greeted hs hc hpc hopened hprivate =>
    obtain ⟨pc, hleaving, hstep⟩ := serverStep_leaving hs behind ok
    rw [hstep]
    exact .greeted hleaving hc hpc hopened hprivate
  | finished hs hc hopened hprinted =>
    obtain ⟨pc, hleaving, hstep⟩ := serverStep_leaving hs behind ok
    rw [hstep]
    exact .finished hleaving hc hopened hprinted

/-- The client behind its read. -/
theorem clientStep_leaving {p : Pair} (hc : p.client.pc.Leaving) (behind : List UInt8) (ok : Bool) :
    ∃ pc, pc.Leaving ∧ p.clientStep behind ok = { p with client := { p.client with pc := pc } } := by
  rcases hpc : p.client.pc <;> rw [hpc] at hc <;> simp only [clientStep, hpc]
  case closeFifo => exact ⟨.closeRead, trivial, rfl⟩
  case closeRead => exact ⟨.closeWrite, trivial, rfl⟩
  case closeWrite => exact ⟨.exited, trivial, rfl⟩
  case exited => exact ⟨.exited, trivial, by rw [← hpc]⟩
  all_goals exact absurd hc id

/-- STEP: the client writes its name, or is stopped. -/
theorem Stage.sendName {p : Pair} (hs : p.server.Alone) (hpc : p.client.pc = .write)
    (hc : p.client.Before p.server.fifoName) (hwrote : p.client.wrote = false)
    (hprinted : p.client.printed = none) (hopened : p.server.opened = none)
    (hpublic : p.publicQueue = []) (hprivate : p.privateQueue = []) : p.sendName.Stage := by
  rw [Client.Before, hpc] at hc
  rw [Pair.sendName]
  split
  · exact .early hs trivial hwrote hprinted hopened hpublic hprivate
  · split
    · rename_i buff _ hreads
      have hwaits : ({ p.client with wrote := true, pc := .openFifo } : Client).Waits
          p.server.fifoName := ⟨.inl rfl, rfl, hprinted, hc.2⟩
      rcases hserver : p.server.pc
      case read => exact .sent hserver hwaits hopened (by simp [hpublic]) hprivate
      case openFile => exact .read hserver hwaits hopened hprivate
      all_goals simp [Server.Alone, Server.reads, hserver] at hs hreads
    · exact .early hs trivial hwrote hprinted hopened hpublic hprivate

/-- STEP: the client up to its write. -/
theorem Stage.client_early {p : Pair} (hs : p.server.Alone)
    (hc : p.client.Before p.server.fifoName) (hwrote : p.client.wrote = false)
    (hprinted : p.client.printed = none) (hopened : p.server.opened = none)
    (hpublic : p.publicQueue = []) (hprivate : p.privateQueue = []) (behind : List UInt8)
    (ok : Bool) : (p.clientStep behind ok).Stage := by
  have hsame : p.Stage := .early hs hc hwrote hprinted hopened hpublic hprivate
  rcases hpc : p.client.pc <;> simp only [clientStep, hpc]
  case openServer =>
    split
    · exact .early hs trivial hwrote hprinted hopened hpublic hprivate
    · exact .early hs trivial hwrote hprinted hopened hpublic hprivate
  case createFifo =>
    split
    · rename_i hok
      exact .early hs hok.2 hwrote hprinted hopened hpublic hprivate
    · exact .early hs trivial hwrote hprinted hopened hpublic hprivate
  case write => exact sendName hs hpc hc hwrote hprinted hopened hpublic hprivate
  case exited | killed | undefined | threw => exact hsame
  all_goals simp [Client.Before, hpc] at hc

/-- STEP: a client that waits and whose FIFO the server has not opened. -/
theorem Client.Waits.step {p : Pair} (hc : p.client.Waits p.server.fifoName)
    (hopened : p.server.opened = none) (hprivate : p.privateQueue = []) (behind : List UInt8)
    (ok : Bool) : ∃ c, c.Waits p.server.fifoName ∧ p.clientStep behind ok = { p with client := c } := by
  rcases hc.pc with hpc | hpc
  · exact ⟨{ p.client with pc := .read }, ⟨.inr rfl, hc.wrote, hc.printed, hc.name⟩,
      by simp only [clientStep, hpc]⟩
  · have hread : readFifo p.privateQueue
        (p.server.writes && p.server.opened = some p.client.name) = .ended := by
      simp [readFifo, hprivate, hopened]
    refine ⟨p.client, hc, ?_⟩
    simp only [clientStep, hpc, hread, readFrom_ended]

/-- STEP: a call of the client in time. -/
theorem Stage.client {p : Pair} (h : p.Stage) {behind : List UInt8} {ok : Bool}
    (htime : p.InTime (.client behind ok)) : (p.clientStep behind ok).Stage := by
  cases h with
  | early hs hc hwrote hprinted hopened hpublic hprivate =>
    exact client_early hs hc hwrote hprinted hopened hpublic hprivate behind ok
  | sent hs hc hopened hpublic hprivate =>
    obtain ⟨c, hc', hstep⟩ := Client.Waits.step hc hopened hprivate behind ok
    rw [hstep]
    exact .sent hs hc' hopened hpublic hprivate
  | read hs hc hopened hprivate =>
    obtain ⟨c, hc', hstep⟩ := Client.Waits.step hc hopened hprivate behind ok
    rw [hstep]
    exact .read hs hc' hopened hprivate
  | opened hs _ hpc => exact absurd hs (htime hpc)
  | greeted hs hc hpc hopened hprivate =>
    simp only [clientStep, hpc, hprivate, readFifo, readFrom_frame]
    exact .finished hs trivial hopened (congrArg some (text_greetingFrame behind))
  | finished hs hc hopened hprinted =>
    obtain ⟨pc, hleaving, hstep⟩ := clientStep_leaving hc behind ok
    rw [hstep]
    exact .finished hs hleaving hopened hprinted

/-! ### Calls out of time -/

/-- STEP: the server opens with another name in hand, or before the client has opened. -/
theorem Stage.server_late {p : Pair} (h : p.Stage) {name : List UInt8}
    (hs : p.server.pc = .openFile name) (hwrote : p.client.wrote = true)
    (hnot : ¬ (name = p.client.name ∧ p.client.pc ≠ .openFifo)) (behind : List UInt8) (ok : Bool) :
    ¬ (p.serverStep behind ok).Meets := by
  intro hmeets
  have hfifo : p.client.name ≠ p.server.fifoName := by
    cases h with
    | early _ _ hearly => exact absurd (hearly.symm.trans hwrote) (by simp)
    | finished hleaving => exact absurd hleaving (by simp [hs, Server.Pc.Leaving])
    | sent _ hc | read _ hc | opened _ hc | greeted _ hc => exact hc.name
  simp only [serverStep, hs] at hmeets
  split at hmeets
  · rename_i hcan
    obtain rfl : name = p.client.name := hmeets.target hwrote name rfl
    have hopen : p.client.pc = .openFifo := by
      by_contra hne
      exact hnot ⟨rfl, hne⟩
    simp [canOpen, Client.reads, hopen, hfifo] at hcan
  · exact hmeets.going hwrote

/-- STEP: the client reads between the server's open and its write. -/
theorem Stage.client_early_read {p : Pair} (h : p.Stage) (hpc : p.client.pc = .read)
    (hs : p.server.pc = .write) (behind : List UInt8) (ok : Bool) :
    ¬ (p.clientStep behind ok).Meets := by
  intro hmeets
  cases h with
  | early _ hc => simp [Client.Before, hpc] at hc
  | sent hs' | read hs' => simp [hs] at hs'
  | greeted hs' | finished hs' => simp [hs, Server.Pc.Leaving] at hs'
  | opened _ _ _ hopened hprivate =>
    have hread : readFifo p.privateQueue
        (p.server.writes && p.server.opened = some p.client.name) = .failed := by
      simp [readFifo, hprivate, hopened, Server.writes, hs]
    simp only [clientStep, hpc, hread, readFrom_failed] at hmeets
    have hprinted := hmeets.greeted trivial
    rw [text_zero, Option.some.injEq] at hprinted
    exact greeting_ne_nil hprinted.symm

/-- EXACT: in every interleaving of the two mains the rendezvous works as long as, and only as long
    as, every call is made in time. -/
theorem meets_iff (fifoName name : List UInt8) (acts : List Action) :
    Along next Meets (start fifoName name) acts ↔
      Throughout next InTime (start fifoName name) acts := by
  refine along_iff_throughout (A := fun _ => True) (G := Stage) (fun _ h => h.meets) ?_ ?_ acts _
    (fun _ _ => trivial) (start_stage fifoName name)
  · rintro p (⟨behind, ok⟩ | ⟨behind, ok⟩) h - htime
    · exact h.server htime
    · exact h.client htime
  · rintro p (⟨behind, ok⟩ | ⟨behind, ok⟩) h - hlate
    · simp only [InTime, not_forall] at hlate
      obtain ⟨fifoName, hs, hwrote, hnot⟩ := hlate
      exact h.server_late hs hwrote hnot behind ok
    · simp only [InTime, not_forall, not_not] at hlate
      obtain ⟨hpc, hs⟩ := hlate
      exact h.client_early_read hpc hs behind ok

/-- The client writes its name, and the server reads it and opens the FIFO before the client does. -/
def openedTooEarly : List Action :=
  [.server [] true, .server [] true, .client [] true, .client [] true, .client [] true,
    .server [] true, .server [] true]

/-- The server has opened the client's FIFO, and the client reads it before the greeting is there. -/
def readTooEarly : List Action :=
  [.server [] true, .server [] true, .client [] true, .client [] true, .client [] true,
    .client [] true, .server [] true, .server [] true, .client [] true]

/-- In the one run the server throws, in the other the client prints an empty line. -/
theorem missed :
    let early := openedTooEarly.foldl next (start (ascii "s") (ascii "c"))
    let read := readTooEarly.foldl next (start (ascii "s") (ascii "c"))
    early.client.wrote = true ∧ early.server.pc = .threw (.openFile (ascii "c")) ∧
      read.client.printed = some [] ∧
      ¬ Along next Meets (start (ascii "s") (ascii "c")) openedTooEarly ∧
      ¬ Along next Meets (start (ascii "s") (ascii "c")) readTooEarly := by
  refine ⟨by decide +kernel, by decide +kernel, by decide +kernel, ?_, ?_⟩
  · intro h
    have hgoing := h.last.going (by decide +kernel)
    rw [show (openedTooEarly.foldl next (start (ascii "s") (ascii "c"))).server.pc =
      .threw (.openFile (ascii "c")) by decide +kernel] at hgoing
    exact hgoing
  · intro h
    have hpc : (readTooEarly.foldl next (start (ascii "s") (ascii "c"))).client.pc = .closeFifo := by
      decide +kernel
    have hgreeted := h.last.greeted (by rw [hpc]; trivial)
    rw [show (readTooEarly.foldl next (start (ascii "s") (ascii "c"))).client.printed = some [] by
      decide +kernel, Option.some.injEq] at hgreeted
    exact greeting_ne_nil hgreeted.symm

end Pair
end UnixIpc.Fifo.Simple
