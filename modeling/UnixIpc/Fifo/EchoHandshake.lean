import UnixIpc.Lib.Run
import UnixIpc.Fifo.EchoClient

/-! One echo client and the server, call by call in every order: does the client ever decode a
    package that nobody sent?

    `ReadFrom` keeps the result of `read` in an unsigned variable, so -1 passes for a full frame and
    the cleared buffer is decoded as an empty message. The read gives -1 just when the server holds
    the private FIFO open with nothing in it: between its `open` and its greeting, and between the
    greeting and the echo.

        client   connectStatus ........................... response ...............
        server        openFile ──gap──▶ greet   session ────────gap────────▶ echo

    `faithful_iff` says that these reads are all that can go wrong. -/

namespace UnixIpc.Fifo
open UnixIpc.Bytes UnixIpc.Descriptors UnixIpc.Run

/-- Frames decode to what was encoded: a NUL follows the decoder's block. -/
def Memory.Clean (mem : Memory) : Prop := mem.heap.head? = some 0

def Action.mem : Action → Memory
  | .server a => a.mem
  | .client _ mem _ => mem

/-- The type a frame carries, for the client. -/
def Client.frameType (b : Buffer) : Client.PackageType :=
  WireEnum.ofCode (UInt32.ofNat (ofLE (slice b.1 0 4)))

/-- The three frames of client main, the same for every descriptor. -/
def nameFrame (name : List UInt8) : Buffer := Client.frame ⟨0, .newConnection, name⟩
def messageFrame : Buffer := Client.frame ⟨0, .message, hello⟩
def closeFrame : Buffer := Client.frame ⟨0, .connectionClose, []⟩

/-- What the client says over a whole conversation, and what it hears. -/
def spoken (name : List UInt8) : List Buffer := [nameFrame name, messageFrame, closeFrame]
def heard : List Buffer := [Server.successFrame, messageFrame]

namespace System

/-- The call is not a client's read of an empty FIFO that the server holds open. -/
def NoGap (sys : System) : Action → Prop
  | .server _ => True
  | .client i _ _ => ∀ c, sys.clients[i]? = some c → c.Reads → sys.queue c.name = [] →
      sys.serverHolds (.fifo c.name) = false

end System

/-! ### The frames and their meaning -/

theorem decode_nameFrame {name : List UInt8} (hfit : name.length ≤ 1012) (h0 : 0 ∉ name)
    {mem : Memory} (hmem : mem.Clean) (q : Server.Package) :
    Server.deserialize q mem (nameFrame name) = some ⟨q.fd, .newConnection, name⟩ :=
  Package.deserialize_of_clean (Client.serialize_frame hfit) q h0 hmem

theorem decode_messageFrame {mem : Memory} (hmem : mem.Clean) (q : Server.Package) :
    Server.deserialize q mem messageFrame = some ⟨q.fd, .message, hello⟩ :=
  Package.deserialize_of_clean (Client.serialize_frame (by decide)) q (by decide) hmem

theorem decode_closeFrame {mem : Memory} (hmem : mem.Clean) (q : Server.Package) :
    Server.deserialize q mem closeFrame = some ⟨q.fd, .conectionClose, []⟩ :=
  Package.deserialize_of_clean (Client.serialize_frame (by decide)) q (by decide) hmem

theorem decode_successFrame {mem : Memory} (hmem : mem.Clean) (q : Client.Package) :
    Client.deserialize q mem Server.successFrame = some ⟨q.fd, .connectionSuccess, []⟩ :=
  Package.deserialize_of_clean (Server.serialize_success 0) q (by decide) hmem

theorem decode_echo {mem : Memory} (hmem : mem.Clean) (q : Client.Package) :
    Client.deserialize q mem messageFrame = some ⟨q.fd, .message, hello⟩ :=
  Package.deserialize_of_clean (Client.serialize_frame (by decide)) q (by decide) hmem

theorem successFrame_ne_zero : Server.successFrame ≠ zeroBuffer := by
  intro heq
  have htype := (Package.serialize_fields (Server.serialize_success 0)).2.1
  rw [heq] at htype
  exact absurd htype (by decide)

/-- The frame of a package that fits, whatever its descriptor. -/
theorem serialize_at (fd : ℤ) (t : Client.PackageType) (data : List UInt8) :
    Client.serialize ⟨fd, t, data⟩ zeroBuffer =
      if data.length ≤ 1012 then some (Client.frame ⟨0, t, data⟩) else none := by
  have hfd : Client.serialize ⟨fd, t, data⟩ zeroBuffer =
      Client.serialize ⟨0, t, data⟩ zeroBuffer := rfl
  rw [hfd]
  split
  · rename_i hfit
    exact Client.serialize_frame hfit
  · rename_i hfit
    cases hs : Client.serialize ⟨0, t, data⟩ zeroBuffer with
    | none => rfl
    | some b => exact absurd (Package.serialize_fields hs).1 hfit

/-! ### The server's side -/

/-- Where the server is in its conversation: the frames it has read and those it has written. -/
inductive Serving (name : List UInt8) : Server → List Buffer → List Buffer → Prop
  | waiting {s} (hpc : s.pc = .accept) (hfifo : s.attends) : Serving name s [] []
  | opening {s} (hpc : s.pc = .openFile name) (hfifo : s.attends) :
      Serving name s [nameFrame name] []
  | greeting {s fd} (hpc : s.pc = .greet fd) (hfd : 0 ≤ fd)
      (hfile : s.files.lookup fd = some (.fifo name))
      (hfifo : s.attends) : Serving name s [nameFrame name] []
  | listening {s fd} (hpc : s.pc = .session fd) (hfile : s.files.lookup fd = some (.fifo name))
      (hfifo : s.attends) : Serving name s [nameFrame name] [Server.successFrame]
  | echoing {s fd} (hpc : s.pc = .echo fd messageFrame)
      (hfile : s.files.lookup fd = some (.fifo name)) (hfifo : s.attends) :
      Serving name s [nameFrame name, messageFrame] [Server.successFrame]
  | answered {s} (hpc : s.pc = .accept) (hfifo : s.attends) :
      Serving name s [nameFrame name, messageFrame] heard
  | ended {s read written} (hloop : ¬ s.InLoop) (hquiet : ∀ a, s.syscall a = none)
      (hw : written <+: heard) : Serving name s read written

theorem Serving.written_heard {name s read written} (h : Serving name s read written) :
    written <+: heard := by
  cases h with
  | ended _ _ hw => exact hw
  | answered => exact List.prefix_refl _
  | listening | echoing => exact ⟨[messageFrame], rfl⟩
  | _ => exact List.nil_prefix

/-- A server that waits for a frame can still read the public FIFO. -/
theorem Serving.attends {name s read written} (h : Serving name s read written)
    (hloop : s.InLoop) : s.attends := by
  cases h with
  | waiting _ hfifo | opening _ hfifo | greeting _ _ _ hfifo | listening _ _ hfifo
  | echoing _ _ hfifo | answered _ hfifo => exact hfifo
  | ended hn => exact absurd hloop hn

theorem accept_of_decoded {s : Server} {mem : Memory} {b : Buffer} {p : Server.Package}
    (hpc : s.pc = .accept) (hfifo : s.attends) (hd : Server.deserialize Server.package mem b = some p) :
    s.receive mem b = s.accept mem b ∧
      (p.type = .newConnection → s.accept mem b = { s with pc := .openFile p.data }) ∧
      (p.type = .conectionClose → s.accept mem b = { s with pc := .closeFifo }) := by
  refine ⟨?_, ?_, ?_⟩
  · rw [Server.receive, hpc, Server.readFrom_eq (Server.serverFd_mem_of_attends hfifo)]
  · intro hp
    rw [Server.accept, hd]
    simp only [hp]
  · intro hp
    rw [Server.accept, hd]
    simp only [hp]
    rfl

/-- The server reads the next frame of the conversation. -/
theorem Serving.receive {name s read written b mem} (h : Serving name s read written)
    (hloop : s.InLoop) (hb : read ++ [b] <+: spoken name) (hfit : name.length ≤ 1012)
    (h0 : 0 ∉ name) (hmem : mem.Clean) :
    Serving name (s.receive mem b) (read ++ [b]) written := by
  cases h with
  | waiting hpc hfifo =>
    obtain rfl : b = nameFrame name := by simpa [spoken] using hb
    have hd := decode_nameFrame hfit h0 hmem Server.package
    obtain ⟨hrec, hnew, _⟩ := accept_of_decoded hpc hfifo hd
    rw [hrec, hnew rfl]
    exact .opening rfl hfifo
  | opening hpc | greeting hpc | echoing hpc => simp [Server.InLoop, hpc] at hloop
  | @listening fd hpc hfile hfifo =>
    obtain rfl : b = messageFrame := by simpa [spoken] using hb
    have hd := decode_messageFrame hmem Server.package
    have hrec : s.receive mem messageFrame = { s with pc := .echo fd messageFrame } := by
      rw [Server.receive, hpc]
      simp only [Server.readFrom_eq (Server.serverFd_mem_of_attends hfifo),
        Server.createNewSession, hd]
    rw [hrec]
    exact .echoing rfl hfile hfifo
  | answered hpc hfifo =>
    obtain rfl : b = closeFrame := by simpa [spoken] using hb
    have hd := decode_closeFrame hmem Server.package
    obtain ⟨hrec, _, hclose⟩ := accept_of_decoded hpc hfifo hd
    rw [hrec, hclose rfl]
    exact .ended id (fun _ => rfl) (List.prefix_refl _)
  | ended hn => exact absurd hloop hn

/-- The frames a call leaves in the private FIFO of that name, and those a sequence of calls does. -/
def Call.frameFor (name : List UInt8) : Call → List Buffer
  | .writeTo _ buffer (some (.fifo n)) => if n = name then [buffer] else []
  | _ => []

def delivered (name : List UInt8) (calls : List Call) : List Buffer :=
  calls.flatMap (Call.frameFor name)

theorem Serving.cut {name s read written pc} (h : Serving name s read written)
    (hcut : pc.Cut) : Serving name { s with pc := pc } read written :=
  .ended (Server.not_inLoop_of_cut hcut) (Server.syscall_of_cut hcut) h.written_heard

/-- The server makes the next call of the conversation. -/
theorem Serving.syscall {name s read written a s' calls} (h : Serving name s read written)
    (hcall : s.syscall a = some (s', calls)) :
    Serving name s' read (written ++ delivered name calls) := by
  cases h with
  | waiting hpc | answered hpc | listening hpc => simp [Server.syscall, hpc] at hcall
  | ended _ hquiet => simp [hquiet] at hcall
  | opening hpc hfifo =>
    have hthis : Serving name s [nameFrame name] [] := .opening hpc hfifo
    simp only [Server.syscall, hpc, Server.openFile, Option.some.injEq] at hcall
    split at hcall
    · simp only [Prod.mk.injEq] at hcall
      obtain ⟨rfl, rfl⟩ := hcall
      refine .greeting rfl (lowestFree_nonneg _) ?_ (Server.attends_opened hfifo name _)
      simp
    · simp only [Prod.mk.injEq] at hcall
      obtain ⟨rfl, rfl⟩ := hcall
      exact hthis.cut (Pc.cut_threw _)
  | @greeting fd hpc hfd hfile hfifo =>
    have hthis : Serving name s [nameFrame name] [] := .greeting hpc hfd hfile hfifo
    have hnext : Server.afterAccept fd = .session fd := if_neg (not_lt.mpr hfd)
    simp only [Server.syscall, hpc, Server.greet_eq, hnext, Option.some.injEq] at hcall
    rcases Server.writeTo_cases s fd Server.successFrame a (.session fd) with
      ⟨file, hf, _, heq⟩ | ⟨pc, hcut, _, heq⟩
    · rw [heq, Prod.mk.injEq] at hcall
      obtain ⟨rfl, rfl⟩ := hcall
      obtain rfl : file = .fifo name := by simpa [hfile] using hf.symm
      have hout : delivered name [.writeTo fd Server.successFrame (some (.fifo name))] =
          [Server.successFrame] := by simp [delivered, Call.frameFor]
      rw [hout]
      exact .listening rfl hfile hfifo
    · rw [heq, Prod.mk.injEq] at hcall
      obtain ⟨rfl, rfl⟩ := hcall
      exact hthis.cut hcut
  | @echoing fd hpc hfile hfifo =>
    have hthis : Serving name s [nameFrame name, messageFrame] [Server.successFrame] :=
      .echoing hpc hfile hfifo
    simp only [Server.syscall, hpc, Option.some.injEq] at hcall
    rcases Server.writeTo_cases s fd messageFrame a .accept with
      ⟨file, hf, _, heq⟩ | ⟨pc, hcut, _, heq⟩
    · rw [heq, Prod.mk.injEq] at hcall
      obtain ⟨rfl, rfl⟩ := hcall
      obtain rfl : file = .fifo name := by simpa [hfile] using hf.symm
      have hout : delivered name [.writeTo fd messageFrame (some (.fifo name))] =
          [messageFrame] := by simp [delivered, Call.frameFor]
      rw [hout]
      exact .answered rfl hfifo
    · rw [heq, Prod.mk.injEq] at hcall
      obtain ⟨rfl, rfl⟩ := hcall
      exact hthis.cut hcut

/-- The server leaves main. -/
theorem Serving.leave {name s read written fifoName ok s'} (h : Serving name s read written)
    (hleave : s.leave fifoName ok = some s') : Serving name s' read written := by
  unfold Server.leave at hleave
  split at hleave
  · simp only [Option.some.injEq] at hleave
    subst hleave
    split
    · exact .ended id (fun _ => rfl) h.written_heard
    · exact h.cut (Pc.cut_threw _)
  · simp only [Option.some.injEq] at hleave
    subst hleave
    split
    · exact .ended id (fun _ => rfl) h.written_heard
    · exact h.cut (Pc.cut_threw _)
  · exact absurd hleave (by simp)

/-- The server's process in the conversation. -/
def Conducts (name : List UInt8) : ServerProc → List Buffer → List Buffer → Prop
  | .running s, read, written => Serving name s read written
  | _, read, written => read = [] ∧ written = []

/-! ### The client's side -/

/-- Before its first frame, and after its last or cut short. -/
def Client.Pc.Silent : Client.Pc → Prop
  | .createFifo | .openClient | .openServer | .connect => True
  | _ => False

def Client.Pc.Over : Client.Pc → Prop
  | .closeFifo | .closeServer | .closeClient | .exited | .killed | .threw _ | .undefined => True
  | _ => False

/-- Where the client is in its conversation: what it has sent, decoded and printed. -/
inductive Speaking (c : Client) : List Buffer → Prop
  | silent (hpc : c.pc.Silent) (hd : c.decoded = []) (hr : c.response = none) : Speaking c []
  | connected (hpc : c.pc = .connectStatus) (hd : c.decoded = []) (hr : c.response = none)
      (hfit : c.name.length ≤ 1012) : Speaking c [nameFrame c.name]
  | welcomed (hpc : c.pc = .message) (hd : c.decoded = [Server.successFrame])
      (hr : c.response = none) (hfit : c.name.length ≤ 1012) : Speaking c [nameFrame c.name]
  | asked (hpc : c.pc = .response) (hd : c.decoded = [Server.successFrame])
      (hr : c.response = none) (hfit : c.name.length ≤ 1012) :
      Speaking c [nameFrame c.name, messageFrame]
  | answered (hpc : c.pc = .close) (hd : c.decoded = heard) (hr : c.response = some hello)
      (hfit : c.name.length ≤ 1012) : Speaking c [nameFrame c.name, messageFrame]
  | ended {sent} (hpc : c.pc.Over) (hsent : sent <+: spoken c.name)
      (hfit : sent ≠ [] → c.name.length ≤ 1012)
      (hr : c.response = none ∨ c.response = some hello ∧ c.decoded = heard) : Speaking c sent

theorem Speaking.spoken {c sent} (h : Speaking c sent) : sent <+: spoken c.name := by
  cases h with
  | silent => exact List.nil_prefix
  | connected | welcomed => exact ⟨[messageFrame, closeFrame], rfl⟩
  | asked | answered => exact ⟨[closeFrame], rfl⟩
  | ended _ hsent => exact hsent

theorem Speaking.fits {c sent} (h : Speaking c sent) (hne : sent ≠ []) :
    c.name.length ≤ 1012 := by
  cases h with
  | silent => exact absurd rfl hne
  | connected _ _ _ hfit | welcomed _ _ _ hfit | asked _ _ _ hfit | answered _ _ _ hfit =>
    exact hfit
  | ended _ _ hfit => exact hfit hne

theorem Speaking.printed {c sent} (h : Speaking c sent) :
    c.response = none ∨ c.response = some hello ∧ c.decoded = heard := by
  cases h with
  | silent _ _ hr | connected _ _ hr | welcomed _ _ hr | asked _ _ hr => exact Or.inl hr
  | answered _ hd hr => exact Or.inr ⟨hr, hd⟩
  | ended _ _ _ hr => exact hr

/-- The client is stopped wherever it is. -/
theorem Speaking.stop {c sent} (h : Speaking c sent) {pc : Client.Pc} (hpc : pc.Over) :
    Speaking { c with pc := pc } sent :=
  .ended hpc h.spoken h.fits h.printed

theorem Client.Pc.Over.not_silent {pc : Client.Pc} (h : pc.Over) : ¬ pc.Silent := by
  cases pc <;> simp_all [Over, Silent]

/-- What the client has done, by the call it is to make. -/
theorem Speaking.silent_inv {c sent} (h : Speaking c sent) (hpc : c.pc.Silent) :
    sent = [] ∧ c.decoded = [] ∧ c.response = none := by
  cases h with
  | silent _ hd hr => exact ⟨rfl, hd, hr⟩
  | connected hpc' | welcomed hpc' | asked hpc' | answered hpc' =>
    simp [hpc', Client.Pc.Silent] at hpc
  | ended hover => exact absurd hpc hover.not_silent

theorem Speaking.message_inv {c sent} (h : Speaking c sent) (hpc : c.pc = .message) :
    sent = [nameFrame c.name] ∧ c.decoded = [Server.successFrame] ∧ c.response = none ∧
      c.name.length ≤ 1012 := by
  cases h with
  | welcomed _ hd hr hfit => exact ⟨rfl, hd, hr, hfit⟩
  | connected hpc' | asked hpc' | answered hpc' => simp [hpc'] at hpc
  | silent hpc' | ended hpc' => simp [hpc, Client.Pc.Silent, Client.Pc.Over] at hpc'

theorem Speaking.close_inv {c sent} (h : Speaking c sent) (hpc : c.pc = .close) :
    sent = [nameFrame c.name, messageFrame] ∧ c.decoded = heard ∧ c.response = some hello ∧
      c.name.length ≤ 1012 := by
  cases h with
  | answered _ hd hr hfit => exact ⟨rfl, hd, hr, hfit⟩
  | connected hpc' | welcomed hpc' | asked hpc' => simp [hpc'] at hpc
  | silent hpc' | ended hpc' => simp [hpc, Client.Pc.Silent, Client.Pc.Over] at hpc'

/-- A client's `WriteTo` puts its frame into the public FIFO, or is the client's end. -/
theorem System.send_cases (sys : System) (i : ℕ) (c : Client) (fd : ℤ) (t : Client.PackageType)
    (data : List UInt8) (next : Client.Pc) :
    (data.length ≤ 1012 ∧ sys.send i c ⟨fd, t, data⟩ next =
      { sys.put i { c with pc := next } with
        publicQueue := sys.publicQueue ++ [Client.frame ⟨0, t, data⟩] }) ∨
    ∃ pc : Client.Pc, pc.Over ∧ sys.send i c ⟨fd, t, data⟩ next = sys.put i { c with pc := pc } := by
  rw [System.send, Client.writeTo, serialize_at]
  by_cases hfit : data.length ≤ 1012
  · rw [if_pos hfit]
    cases sys.serverHolds .publicFifo with
    | true => exact Or.inl ⟨hfit, rfl⟩
    | false => exact Or.inr ⟨.killed, trivial, by simp [put]⟩
  · rw [if_neg hfit]
    exact Or.inr ⟨.undefined, trivial, by simp [put]⟩

/-! ### Both sides -/

/-- The conversation of the one client with the server: frames sent and not read yet are in the
    public FIFO, frames written and not decoded yet are in the private one. -/
structure Talk (sys : System) (c : Client) (sent read : List Buffer) : Prop where
  alone : sys.clients = [c]
  speaks : Speaking c sent
  conducts : Conducts c.name sys.server read (sys.written c.name)
  onWay : sent = read ++ sys.publicQueue
  inbox : sys.written c.name = c.decoded ++ sys.queue c.name

def Talking (sys : System) : Prop := ∃ c sent read, Talk sys c sent read

theorem Conducts.written_heard {name proc read written} (h : Conducts name proc read written) :
    written <+: heard := by
  cases proc with
  | running s => exact Serving.written_heard h
  | _ => exact h.2 ▸ List.nil_prefix

/-- A call that only moves the client's program counter. -/
theorem Talk.put {sys c sent read} (h : Talk sys c sent read) {pc : Client.Pc}
    (hnext : Speaking { c with pc := pc } sent) : Talking (sys.put 0 { c with pc := pc }) :=
  ⟨_, sent, read, by simp [System.put, h.alone], hnext, h.conducts, h.onWay, h.inbox⟩

theorem Talk.orThrow {sys c sent read} (h : Talk sys c sent read) {next : Client.Pc}
    (hnext : Speaking { c with pc := next } sent) (ok : Bool) (failure : Failure) :
    Talking (sys.put 0 (c.orThrow ok next failure)) := by
  cases ok with
  | true => exact h.put hnext
  | false => exact h.put (h.speaks.stop trivial)

/-- The client writes its next frame. -/
theorem Talk.send {sys c sent read} (h : Talk sys c sent read) {t : Client.PackageType}
    {data : List UInt8} {next : Client.Pc} (hnext : data.length ≤ 1012 →
      Speaking { c with pc := next } (sent ++ [Client.frame ⟨0, t, data⟩])) (fd : ℤ) :
    Talking (sys.send 0 c ⟨fd, t, data⟩ next) := by
  rcases sys.send_cases 0 c fd t data next with ⟨hfit, heq⟩ | ⟨pc, hover, heq⟩
  · rw [heq]
    refine ⟨_, _, read, by simp [System.put, h.alone], hnext hfit, h.conducts, ?_, h.inbox⟩
    simp [h.onWay]
  · rw [heq]
    exact h.put (h.speaks.stop hover)

/-- The client's read finds the next frame of what it is to hear, or waits. -/
theorem Talk.fetch {sys c sent read mem} (h : Talk sys c sent read) (hmem : mem.Clean)
    (hreads : c.Reads) (hgap : sys.queue c.name = [] → sys.serverHolds (.fifo c.name) = false) :
    Talking (sys.fetch 0 c mem) := by
  cases hq : sys.queue c.name with
  | nil =>
    have hread : sys.readFifo c.name = .ended := by simp [System.readFifo, hq, hgap hq]
    have hstay : c.receive mem .ended = c := rfl
    refine ⟨c, sent, read, ?_, h.speaks, h.conducts, h.onWay, ?_⟩
    · simp [System.fetch, System.put, hread, hstay, h.alone]
    · simpa [System.fetch, System.put, hq] using h.inbox
  | cons b rest =>
    have hread : sys.readFifo c.name = .frame b := by simp [System.readFifo, hq]
    have hheard : c.decoded ++ [b] <+: heard := by
      have hw := h.conducts.written_heard
      rw [h.inbox, hq] at hw
      exact List.IsPrefix.trans ⟨rest, by simp⟩ hw
    have hlater : ∀ c', c'.name = c.name → c'.decoded = c.decoded ++ [b] → Speaking c' sent →
        c.receive mem (.frame b) = c' → Talking (sys.fetch 0 c mem) := by
      intro c' hname hdec hspeak hrec
      refine ⟨c', sent, read, ?_, hspeak, ?_, h.onWay, ?_⟩
      · simp [System.fetch, System.put, hread, hrec, h.alone]
      · rw [hname]; exact h.conducts
      · simp [System.fetch, System.put, hname, hdec, hq, h.inbox]
    cases h.speaks with
    | silent hpc | ended hpc =>
      rcases hreads with hr | hr <;> simp [hr, Client.Pc.Silent, Client.Pc.Over] at hpc
    | welcomed hpc | answered hpc => rcases hreads with hr | hr <;> simp [hr] at hpc
    | connected hpc hd hr hfit =>
      obtain rfl : b = Server.successFrame := by simpa [hd, heard] using hheard
      refine hlater { c with decoded := c.decoded ++ [Server.successFrame], pc := .message } rfl rfl
        (.welcomed rfl (by simp [hd]) hr hfit) ?_
      simp [Client.receive, readFrom_frame, hpc, Client.connectStatus, decode_successFrame hmem]
    | asked hpc hd hr hfit =>
      obtain rfl : b = messageFrame := by simpa [hd, heard] using hheard
      refine hlater { c with decoded := c.decoded ++ [messageFrame], response := some hello
                             pc := .close } rfl rfl
        (.answered rfl (by simp [hd, heard]) rfl hfit) ?_
      simp [Client.receive, readFrom_frame, hpc, Client.respond, decode_echo hmem]

theorem Talk.openServer {sys c sent read ok sys'} (h : Talk sys c sent read)
    (hnext : Speaking { c with pc := .connect } sent) (hstep : sys.openServer 0 c ok = some sys') :
    Talking sys' := by
  unfold System.openServer at hstep
  split at hstep
  · split at hstep
    · rename_i hproc
      simp only [Option.some.injEq] at hstep
      subst hstep
      have hnone : read = [] ∧ sys.written c.name = [] := by
        have hc := h.conducts
        rwa [hproc] at hc
      refine ⟨{ c with pc := .connect }, sent, read, by simp [System.put, h.alone], hnext, ?_,
        h.onWay, h.inbox⟩
      rw [hnone.1]
      have hstart : Serving c.name (Server.start sys.inherited) [] [] :=
        .waiting rfl (Server.attends_start _)
      exact hnone.2 ▸ hstart
    · split at hstep
      · simp only [Option.some.injEq] at hstep
        exact hstep ▸ h.put hnext
      · exact absurd hstep (by simp)
  · simp only [Option.some.injEq] at hstep
    exact hstep ▸ h.put (h.speaks.stop trivial)

/-- Any call of the client, outside the gap. -/
theorem Talk.client_step {sys c sent read mem ok sys'} (h : Talk sys c sent read)
    (hmem : mem.Clean)
    (hgap : c.Reads → sys.queue c.name = [] → sys.serverHolds (.fifo c.name) = false)
    (hstep : sys.clientStep 0 c mem ok = some sys') : Talking sys' := by
  cases hpc : c.pc with
  | createFifo | openClient =>
    simp only [System.clientStep, hpc, Option.some.injEq] at hstep
    subst hstep
    obtain ⟨rfl, hd, hr⟩ := h.speaks.silent_inv (by simp [hpc, Client.Pc.Silent])
    refine h.orThrow ?_ _ _
    exact .silent trivial hd hr
  | openServer =>
    simp only [System.clientStep, hpc] at hstep
    obtain ⟨rfl, hd, hr⟩ := h.speaks.silent_inv (by simp [hpc, Client.Pc.Silent])
    exact h.openServer (.silent trivial hd hr) hstep
  | connect =>
    simp only [System.clientStep, hpc, Option.some.injEq] at hstep
    subst hstep
    obtain ⟨rfl, hd, hr⟩ := h.speaks.silent_inv (by simp [hpc, Client.Pc.Silent])
    refine h.send ?_ _
    intro hfit
    exact .connected rfl hd hr hfit
  | connectStatus =>
    simp only [System.clientStep, hpc, Option.some.injEq] at hstep
    exact hstep ▸ h.fetch hmem (Or.inl hpc) (hgap (Or.inl hpc))
  | message =>
    simp only [System.clientStep, hpc, Option.some.injEq] at hstep
    subst hstep
    obtain ⟨rfl, hd, hr, hfit⟩ := h.speaks.message_inv hpc
    refine h.send ?_ _
    intro _
    exact .asked rfl hd hr hfit
  | response =>
    simp only [System.clientStep, hpc, Option.some.injEq] at hstep
    exact hstep ▸ h.fetch hmem (Or.inr hpc) (hgap (Or.inr hpc))
  | close =>
    simp only [System.clientStep, hpc, Option.some.injEq] at hstep
    subst hstep
    obtain ⟨rfl, hd, hr, hfit⟩ := h.speaks.close_inv hpc
    refine h.send ?_ _
    intro _
    exact .ended trivial (List.prefix_refl _) (fun _ => hfit) (Or.inr ⟨hr, hd⟩)
  | closeFifo | closeServer | closeClient =>
    simp only [System.clientStep, hpc, Option.some.injEq] at hstep
    subst hstep
    refine h.orThrow ?_ ok _
    exact h.speaks.stop trivial
  | exited | refused | killed | threw | undefined =>
    simp [System.clientStep, hpc] at hstep

/-! ### The whole system -/

/-- The private FIFOs after a call of the server; nothing else changes. -/
theorem deliver_call (sys : System) (call : Call) :
    (sys.deliver call).clients = sys.clients ∧ (sys.deliver call).publicQueue = sys.publicQueue ∧
      ∀ name, (sys.deliver call).written name = sys.written name ++ call.frameFor name ∧
        (sys.deliver call).queue name = sys.queue name ++ call.frameFor name := by
  rcases call with _ | ⟨fd, buffer, _ | _ | _ | n⟩ | _
  case writeTo.some.fifo =>
    refine ⟨rfl, rfl, ?_⟩
    intro name
    by_cases hn : n = name
    · subst hn; simp [System.deliver, Call.frameFor]
    · simp [System.deliver, Call.frameFor, hn, Function.update_of_ne (Ne.symm hn)]
  all_goals exact ⟨rfl, rfl, fun name => by simp [System.deliver, Call.frameFor]⟩

theorem foldl_deliver (calls : List Call) (sys : System) :
    (calls.foldl System.deliver sys).clients = sys.clients ∧
      (calls.foldl System.deliver sys).publicQueue = sys.publicQueue ∧
      ∀ name, (calls.foldl System.deliver sys).written name =
          sys.written name ++ delivered name calls ∧
        (calls.foldl System.deliver sys).queue name = sys.queue name ++ delivered name calls := by
  induction calls generalizing sys with
  | nil => simp [delivered]
  | cons call calls ih =>
    obtain ⟨hclients, hpublic, hprivate⟩ := ih (sys.deliver call)
    obtain ⟨hclients', hpublic', hprivate'⟩ := deliver_call sys call
    rw [List.foldl_cons]
    refine ⟨hclients.trans hclients', hpublic.trans hpublic', ?_⟩
    intro name
    rw [(hprivate name).1, (hprivate name).2, (hprivate' name).1, (hprivate' name).2]
    simp [delivered]

/-- Any call of the server. -/
theorem Talk.server_step {sys c sent read a sys'} (h : Talk sys c sent read) (hmem : a.mem.Clean)
    (hstep : sys.serverStep a = some sys') : Talking sys' := by
  obtain ⟨halone, hspeaks, hconducts, hway, hinbox⟩ := h
  cases System.serverStep_cases hstep with
  | @begins proc _ hproc hnext =>
    refine ⟨c, sent, read, halone, hspeaks, ?_, hway, hinbox⟩
    have hnone : read = [] ∧ sys.written c.name = [] := by
      cases hs : sys.server with
      | running s => exact absurd hs (hproc s)
      | _ => rwa [hs] at hconducts
    cases proc with
    | running s => exact absurd rfl (hnext s)
    | _ => exact hnone
  | @reads s b rest hproc hloop hfifo hqueue =>
    rw [hproc] at hconducts
    rw [hqueue] at hway
    have hnext : read ++ [b] <+: spoken c.name :=
      List.IsPrefix.trans ⟨rest, by simp [hway]⟩ hspeaks.spoken
    have hne : sent ≠ [] := by rw [hway]; simp
    exact ⟨c, sent, read ++ [b], halone, hspeaks,
      hconducts.receive hloop hnext (hspeaks.fits hne) c.nulFree hmem, by simp [hway], hinbox⟩
  | misreads hproc hloop hfifo =>
    rw [hproc] at hconducts
    exact absurd (Serving.attends hconducts hloop) hfifo
  | @calls s s' calls hproc hcall =>
    rw [hproc] at hconducts
    obtain ⟨hclients, hpublic, hprivate⟩ := foldl_deliver calls sys
    obtain ⟨hw, hq⟩ := hprivate c.name
    refine ⟨c, sent, read, hclients.trans halone, hspeaks, ?_, ?_, ?_⟩
    · rw [hw]
      exact hconducts.syscall hcall
    · rw [hpublic]
      exact hway
    · rw [hw, hq, hinbox, List.append_assoc]
  | leaves hproc hleave =>
    rw [hproc] at hconducts
    exact ⟨c, sent, read, halone, hspeaks, Serving.leave hconducts hleave, hway, hinbox⟩

theorem Talking.next {sys a} (h : Talking sys) (hmem : a.mem.Clean) (hgap : sys.NoGap a) :
    Talking (sys.next a) := by
  obtain ⟨c, sent, read, h⟩ := h
  cases a with
  | server a =>
    rw [System.next]
    cases hstep : sys.serverStep a with
    | none => exact ⟨c, sent, read, h⟩
    | some sys' => exact h.server_step hmem hstep
  | client i mem ok =>
    rw [System.next]
    cases i with
    | succ i => simp only [h.alone]; exact ⟨c, sent, read, h⟩
    | zero =>
      have hc : sys.clients[0]? = some c := by simp [h.alone]
      simp only [hc]
      cases hstep : sys.clientStep 0 c mem ok with
      | none => exact ⟨c, sent, read, h⟩
      | some sys' => exact h.client_step hmem (hgap c hc) hstep

namespace System

end System
end UnixIpc.Fifo
