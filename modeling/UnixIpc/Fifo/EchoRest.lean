import UnixIpc.Lib.Potential
import UnixIpc.Fifo.EchoReady

/-! Any number of echo clients and the server: does the system ever come to rest?

    Every loop of the two programs waits for somebody: the clients poll their FIFOs, the server its
    own, so a run ends when all that is left polls in vain. It does end, since a frame costs the
    server at most three calls and a client sends at most three frames. The one loop that could run
    dry is the server's: had it closed `serverFd`, its reads would give -1 for ever, each of them an
    empty message. It can close it, where `serverFd` is 0; the message then goes to descriptor 0,
    which is closed, and the write ends the server.

        accept ─3─▶ session ─2─▶ echo ─1─▶ threw            (serverFd closed) -/

namespace UnixIpc.Fifo
open UnixIpc.Bytes UnixIpc.Descriptors UnixIpc.Run

namespace Server

/-- The descriptor the server is about to write to or to close. -/
def client (s : Server) : Option ℤ :=
  match s.pc with
  | .greet fd | .session fd | .echo fd _ | .closeFile fd => some fd
  | _ => none

/-- The calls left for what the server has read already, and those behind its loop. -/
def callsLeft (s : Server) : ℕ :=
  match s.pc with
  | .openFile _ => 5
  | .greet _ | .closeFile _ => 4
  | .echo _ _ => if s.attends then 4 else 1
  | .session _ => if s.attends then 3 else 2
  | .accept => 3
  | .closeFifo => 2
  | .closeServer => 1
  | .exited | .killed | .threw _ | .undefined => 0

/-- The server takes `serverFd` for a client's at most when it is 0. Once closed, it is closed for
    good, and all that the server still does concerns descriptor 0. Behind its loop it concerns no
    descriptor of a client. -/
inductive Kept (s : Server) : Prop
  | keeps (hfifo : s.attends) (hclient : ∀ fd, s.client = some fd → fd = 0 ∨ fd ≠ s.serverFd)
  | lost (hfd : s.serverFd = 0) (hfree : 0 ∉ s.descriptors) (hopening : s.opening = [])
      (hclient : ∀ fd, s.client = some fd → fd = 0)
  | left (hloop : ¬ s.InLoop) (hopening : s.opening = []) (hclient : s.client = none)

theorem Kept.not_attends {s : Server} (hfd : s.serverFd = 0) (hfree : 0 ∉ s.descriptors) :
    ¬ s.attends :=
  fun hfifo => hfree (hfd ▸ serverFd_mem_of_attends hfifo)

/-- A server that can read is about to touch no descriptor but a client's or 0. -/
theorem Kept.client_of_attends {s : Server} (h : s.Kept) (hfifo : s.attends) {fd : ℤ}
    (hfd : s.client = some fd) : fd = 0 ∨ fd ≠ s.serverFd := by
  cases h with
  | keeps _ hclient => exact hclient fd hfd
  | lost hzero hfree => exact absurd hfifo (Kept.not_attends hzero hfree)
  | left _ _ hnone => simp [hnone] at hfd

/-- A process that is gone makes no call. -/
theorem Kept.cut {s : Server} (h : s.pc.Cut) : s.Kept := by
  refine .left (not_inLoop_of_cut h) (opening_of_cut h) ?_
  unfold client
  cases hpc : s.pc <;> simp_all [Pc.Cut]

theorem callsLeft_of_cut {s : Server} (h : s.pc.Cut) : s.callsLeft = 0 := by
  unfold callsLeft
  cases hpc : s.pc <;> simp_all [Pc.Cut]

theorem start_kept (inherited : List ℤ) : (start inherited).Kept := by
  have hnone : (start inherited).client = none := rfl
  exact .keeps (attends_start _) (by simp [hnone])

/-- Closing one descriptor leaves the others. -/
theorem lookup_filter_ne (files : List (ℤ × File)) {fd k : ℤ} (hne : fd ≠ k) :
    (files.filter (·.1 ≠ fd)).lookup k = files.lookup k := by
  induction files with
  | nil => rfl
  | cons file files ih =>
    rw [List.filter_cons]
    by_cases hfile : file.1 = fd
    · have hk : (k == file.1) = false := by simpa [hfile] using Ne.symm hne
      rw [if_neg (by simpa using hfile), ih, List.lookup_cons, hk]
    · rw [if_pos (by simpa using hfile), List.lookup_cons, List.lookup_cons, ih]

/-- Every package comes out of the decoder with descriptor 0. -/
theorem deserialize_fd {mem : Memory} {buffer : Buffer} {p : Server.Package}
    (h : Server.deserialize Server.package mem buffer = some p) : p.fd = 0 := by
  simp only [Server.deserialize, Package.deserialize, Option.bind_eq_bind,
    Option.bind_eq_some_iff, Option.pure_def, Option.some.injEq] at h
  obtain ⟨_, _, _, _, rfl⟩ := h
  rfl

/-- Where `Accept` leads, whatever it has read. -/
theorem accept_goes (s : Server) (mem : Memory) (buffer : Buffer) :
    ∃ pc, s.accept mem buffer = { s with pc := pc } ∧
      (pc = .undefined ∨ (∃ fileName, pc = .openFile fileName) ∨ pc = .session 0 ∨
        pc = .closeFifo) := by
  unfold accept
  cases hd : Server.deserialize Server.package mem buffer with
  | none => exact ⟨_, rfl, .inl rfl⟩
  | some p =>
    simp only
    cases hp : p.type with
    | newConnection => exact ⟨_, rfl, .inr (.inl ⟨_, rfl⟩)⟩
    | message =>
      simp only
      cases hfind : s.connections.find? (· = p.fd) with
      | none => exact ⟨_, rfl, .inr (.inr (.inr rfl))⟩
      | some result =>
        have hzero : result = 0 := by
          have hres := List.find?_some hfind
          simpa [deserialize_fd hd] using hres
        exact ⟨_, rfl, .inr (.inr (.inl (by rw [hzero]; rfl)))⟩
    | _ => exact ⟨_, rfl, .inr (.inr (.inr rfl))⟩

/-- Where `CreateNewSession` leads; for the empty message it is never to the close. -/
theorem createNewSession_goes (s : Server) (fd : ℤ) (mem : Memory) (buffer : Buffer) :
    ∃ pc connections, s.createNewSession fd mem buffer =
        { s with pc := pc, connections := connections } ∧
      (pc = .undefined ∨ pc = .accept ∨ pc = .echo fd buffer ∨ pc = .closeFile fd) ∧
      (buffer = zeroBuffer → pc = .undefined ∨ pc = .echo fd buffer) := by
  unfold createNewSession
  cases hd : Server.deserialize Server.package mem buffer with
  | none => exact ⟨_, _, rfl, .inl rfl, fun _ => .inl rfl⟩
  | some p =>
    simp only
    cases hp : p.type with
    | conectionClose =>
      have hne : buffer ≠ zeroBuffer := by
        rintro rfl
        rw [deserialize_zeroBuffer hd] at hp
        simp at hp
      simp only [sessionClose]
      split
      · exact ⟨_, _, rfl, .inr (.inr (.inr rfl)), fun heq => absurd heq hne⟩
      · exact ⟨_, _, rfl, .inr (.inl rfl), fun heq => absurd heq hne⟩
    | _ => exact ⟨_, _, rfl, .inr (.inr (.inl rfl)), fun _ => .inr rfl⟩

/-- The greeting is a `WriteTo` of one fixed frame. -/
theorem syscall_greet {s : Server} {fd : ℤ} (hpc : s.pc = .greet fd) (hfd : 0 ≤ fd)
    (a : Answers) : s.syscall a = some (s.writeTo fd successFrame a.written (.session fd)) := by
  have hnext : afterAccept fd = .session fd := if_neg (not_lt.mpr hfd)
  simp only [syscall, hpc, greet_eq, hnext]

/-! ### What a call costs -/

/-- STEP: a frame of the public FIFO brings the server at most three calls. -/
theorem Kept.receive {s : Server} (h : s.Kept) (hloop : s.InLoop) (hfifo : s.attends)
    (mem : Memory) (buffer : Buffer) : (s.receive mem buffer).Kept ∧
      (s.receive mem buffer).callsLeft < s.callsLeft + 3 := by
  rcases inLoop_iff.mp hloop with hpc | ⟨fd, hpc⟩
  · have hrec : s.receive mem buffer = s.accept mem (s.readFrom buffer) := by
      rw [Server.receive, hpc]
    have hleft : s.callsLeft = 3 := by simp [callsLeft, hpc]
    obtain ⟨pc, heq, hto⟩ := s.accept_goes mem (s.readFrom buffer)
    rw [hrec, heq, hleft]
    rcases hto with rfl | ⟨fileName, rfl⟩ | rfl | rfl
    · exact ⟨.keeps hfifo (by simp [client]), by simp [callsLeft]⟩
    · exact ⟨.keeps hfifo (by simp [client]), by simp [callsLeft]⟩
    · refine ⟨.keeps hfifo (by simp [client]), ?_⟩
      simp only [callsLeft]
      split <;> omega
    · exact ⟨.keeps hfifo (by simp [client]), by simp [callsLeft]⟩
  · have hrec : s.receive mem buffer = s.createNewSession fd mem (s.readFrom buffer) := by
      rw [Server.receive, hpc]
    have hleft : s.callsLeft = 3 := by simp [callsLeft, hpc, hfifo]
    have hfd : fd = 0 ∨ fd ≠ s.serverFd := h.client_of_attends hfifo (by simp [client, hpc])
    obtain ⟨pc, connections, heq, hto, _⟩ := s.createNewSession_goes fd mem (s.readFrom buffer)
    rw [hrec, heq, hleft]
    rcases hto with rfl | rfl | rfl | rfl
    · exact ⟨.keeps hfifo (by simp [client]), by simp [callsLeft]⟩
    · exact ⟨.keeps hfifo (by simp [client]), by simp [callsLeft]⟩
    · refine ⟨.keeps hfifo (by simpa [client] using hfd), ?_⟩
      simp only [callsLeft]
      split <;> omega
    · exact ⟨.keeps hfifo (by simpa [client] using hfd), by simp [callsLeft]⟩

/-- STEP: a server that reads a closed descriptor is on the way to its end. -/
theorem Kept.misread {s : Server} (h : s.Kept) (hloop : s.InLoop) (hfifo : ¬ s.attends)
    (mem : Memory) : (s.receive mem zeroBuffer).Kept ∧
      (s.receive mem zeroBuffer).callsLeft < s.callsLeft := by
  have hzero : s.readFrom zeroBuffer = zeroBuffer := ite_self _
  have hnone : (s.receive mem zeroBuffer).opening = [] := receive_zeroBuffer hloop mem
  cases h with
  | keeps hfifo' => exact absurd hfifo' hfifo
  | left hleft => exact absurd hloop hleft
  | lost hfd hfree _ hclient =>
    rcases inLoop_iff.mp hloop with hpc | ⟨fd, hpc⟩
    · have hrec : s.receive mem zeroBuffer = s.accept mem zeroBuffer := by
        rw [Server.receive, hpc, hzero]
      have hleft : s.callsLeft = 3 := by simp [callsLeft, hpc]
      obtain ⟨pc, heq, hto⟩ := s.accept_goes mem zeroBuffer
      rw [hrec, heq] at hnone
      rw [hrec, heq, hleft]
      rcases hto with rfl | ⟨fileName, rfl⟩ | rfl | rfl
      · exact ⟨.lost hfd hfree rfl (by simp [client]), by simp [callsLeft]⟩
      · simp [opening] at hnone
      · refine ⟨.lost hfd hfree rfl (by simp [client]), ?_⟩
        have hdeaf : ¬ ({ s with pc := .session 0 } : Server).attends := not_attends hfd hfree
        simp [callsLeft, hdeaf]
      · exact ⟨.lost hfd hfree rfl (by simp [client]), by simp [callsLeft]⟩
    · have hrec : s.receive mem zeroBuffer = s.createNewSession fd mem zeroBuffer := by
        rw [Server.receive, hpc]
        simp only [hzero]
      have hleft : s.callsLeft = 2 := by simp [callsLeft, hpc, hfifo]
      have hfd0 : fd = 0 := hclient fd (by simp [client, hpc])
      obtain ⟨pc, connections, heq, _, hto⟩ := s.createNewSession_goes fd mem zeroBuffer
      rw [hrec, heq, hleft]
      rcases hto rfl with rfl | rfl
      · exact ⟨.lost hfd hfree rfl (by simp [client]), by simp [callsLeft]⟩
      · refine ⟨.lost hfd hfree rfl (by simpa [client] using hfd0), ?_⟩
        have hdeaf : ¬ ({ s with pc := .echo fd zeroBuffer, connections := connections } :
            Server).attends := not_attends hfd hfree
        simp [callsLeft, hdeaf]

theorem Kept.writeTo {s s' : Server} (h : s.Kept) {fd : ℤ} {buffer : Buffer} {written : Option ℤ}
    {next : Pc} {calls : List Call} (hfd : s.client = some fd)
    (hclient : ∀ k, ({ s with pc := next } : Server).client = some k → k = fd)
    (hcall : s.writeTo fd buffer written next = (s', calls)) :
    s'.Kept ∧ (s' = { s with pc := next } ∧ s.attends ∨ s'.callsLeft = 0) := by
  rcases writeTo_cases s fd buffer ⟨⟨[], []⟩, true, written⟩ next with
    ⟨file, hfile, _, heq⟩ | ⟨pc, hcut, _, heq⟩
  · obtain ⟨rfl, rfl⟩ := Prod.mk.inj (heq.symm.trans hcall)
    cases h with
    | keeps hfifo hkept =>
      refine ⟨.keeps hfifo ?_, .inl ⟨rfl, hfifo⟩⟩
      intro k hk
      exact hclient k hk ▸ hkept fd hfd
    | lost _ hfree _ hkept =>
      obtain rfl : fd = 0 := hkept fd hfd
      have hnone : s.files.lookup 0 = none := by
        rw [List.lookup_eq_none_iff]
        intro file' hfile'
        rw [bne_iff_ne]
        intro heq0
        exact hfree (List.mem_map.mpr ⟨file', hfile', heq0.symm⟩)
      simp [hnone] at hfile
    | left _ _ hnone => simp [hnone] at hfd
  · obtain ⟨rfl, rfl⟩ := Prod.mk.inj (heq.symm.trans hcall)
    exact ⟨.cut hcut, .inr (callsLeft_of_cut hcut)⟩

/-- STEP: any other call in the loop. -/
theorem Kept.syscall {s s' : Server} (h : s.Kept) {a : Answers} {calls : List Call}
    (hcall : s.syscall a = some (s', calls)) : s'.Kept ∧ s'.callsLeft < s.callsLeft := by
  unfold Server.syscall at hcall
  split at hcall
  · rename_i fileName hpc
    cases h with
    | keeps hfifo =>
      have hne : lowestFree s.descriptors ≠ s.serverFd := by
        intro heq
        exact lowestFree_not_mem s.descriptors (heq ▸ serverFd_mem_of_attends hfifo)
      rw [Option.some.injEq, openFile] at hcall
      split at hcall
      · obtain ⟨rfl, rfl⟩ := Prod.mk.inj hcall
        refine ⟨.keeps (attends_opened hfifo fileName _) ?_, by simp [callsLeft, hpc]⟩
        intro fd hfd
        exact .inr ((Option.some.inj hfd : lowestFree s.descriptors = fd) ▸ hne)
      · obtain ⟨rfl, rfl⟩ := Prod.mk.inj hcall
        exact ⟨.keeps hfifo (by simp [client]), by simp [callsLeft, hpc]⟩
    | lost _ _ hopening | left _ hopening => simp [opening, hpc] at hopening
  · rename_i fd hpc
    have hleft : s.callsLeft = 4 := by simp [callsLeft, hpc]
    rw [Option.some.injEq, greet_eq] at hcall
    have hclient : ∀ k, ({ s with pc := afterAccept fd } : Server).client = some k → k = fd := by
      intro k hk
      simp only [afterAccept] at hk
      split at hk
      · simp [client] at hk
      · simpa [client] using hk.symm
    obtain ⟨hkept, ⟨rfl, hfifo⟩ | hdone⟩ :=
      h.writeTo (by simp [client, hpc]) hclient hcall
    · refine ⟨hkept, ?_⟩
      rw [hleft]
      simp only [afterAccept, callsLeft]
      split <;> grind
    · exact ⟨hkept, by omega⟩
  · rename_i fd buffer hpc
    rw [Option.some.injEq] at hcall
    obtain ⟨hkept, ⟨rfl, hfifo⟩ | hdone⟩ :=
      h.writeTo (by simp [client, hpc]) (by simp [client]) hcall
    · exact ⟨hkept, by simp [callsLeft, hpc, hfifo]⟩
    · refine ⟨hkept, ?_⟩
      rw [hdone]
      simp only [callsLeft, hpc]
      split <;> omega
  · rename_i fd hpc
    rw [Option.some.injEq, closeFile] at hcall
    split at hcall
    · obtain ⟨rfl, rfl⟩ := Prod.mk.inj hcall
      refine ⟨?_, by simp [callsLeft, hpc]⟩
      have hfree : fd ∉ ({ s with files := s.files.filter (·.1 ≠ fd), pc := .accept } :
          Server).descriptors := by simp [descriptors]
      cases h with
      | keeps hfifo hkept =>
        by_cases heq : fd = s.serverFd
        · have hzero : fd = 0 := (hkept fd (by simp [client, hpc])).resolve_right (not_not.mpr heq)
          exact .lost (heq ▸ hzero) (hzero ▸ hfree) rfl (by simp [client])
        · refine .keeps (attends_iff.mpr ?_) (by simp [client])
          exact (lookup_filter_ne s.files heq).trans (attends_iff.mp hfifo)
      | lost hfd _ _ hkept =>
        have hzero : fd = 0 := hkept fd (by simp [client, hpc])
        exact .lost hfd (hzero ▸ hfree) rfl (by simp [client])
      | left _ _ hnone => simp [client, hpc] at hnone
    · obtain ⟨rfl, rfl⟩ := Prod.mk.inj hcall
      exact ⟨.left id rfl rfl, by simp [callsLeft, hpc]⟩
  · exact absurd hcall (by simp)

/-- STEP: a call behind the loop. -/
theorem leave_kept {s s' : Server} {fifoName : List UInt8} {ok : Bool}
    (hleave : s.leave fifoName ok = some s') : s'.Kept ∧ s'.callsLeft < s.callsLeft := by
  unfold leave at hleave
  split at hleave
  · rename_i hpc
    rw [Option.some.injEq] at hleave
    subst hleave
    split <;> exact ⟨.left id rfl rfl, by simp [callsLeft, hpc]⟩
  · rename_i hpc
    rw [Option.some.injEq] at hleave
    subst hleave
    split <;> exact ⟨.left id rfl rfl, by simp [callsLeft, hpc]⟩
  · exact absurd hleave (by simp)

end Server

/-! ### What a call of a client is -/

namespace System

/-- The calls of a client that return: those that only move it on, the one that lets the server's
    own `open` return, a frame for the public FIFO, a read of the private one. -/
inductive ClientMoves (sys : System) (i : ℕ) (c : Client) (mem : Memory) : System → Prop
  | moves {pc} : ClientMoves sys i c mem (sys.put i { c with pc := pc })
  | starts : ClientMoves sys i c mem { sys.put i { c with pc := .connect } with
      server := .running (Server.start sys.inherited) }
  | sends {pc} (m : Says) (hm : ∀ n, m.request = some n → n = c.name ∧ n.length ≤ 1012) :
      ClientMoves sys i c mem { sys.put i { c with pc := pc } with
        publicQueue := sys.publicQueue ++ [m.frame] }
  | fetches (hreads : c.Reads) : ClientMoves sys i c mem (sys.fetch i c mem)

/-- STEP: every call of a client is one of these. -/
theorem clientStep_cases {sys sys' : System} {i : ℕ} {c : Client} {mem : Memory} {ok : Bool}
    (h : sys.clientStep i c mem ok = some sys') : sys.ClientMoves i c mem sys' := by
  cases hpc : c.pc with
  | createFifo | openClient | closeFifo | closeServer | closeClient =>
    simp only [clientStep, hpc, Option.some.injEq] at h
    exact h ▸ .moves
  | openServer =>
    simp only [clientStep, hpc, openServer] at h
    split at h
    · split at h
      · exact Option.some.inj h ▸ .starts
      · split at h
        · exact Option.some.inj h ▸ .moves
        · exact absurd h (by simp)
    · exact Option.some.inj h ▸ .moves
  | connect =>
    simp only [clientStep, hpc, Option.some.injEq] at h
    subst h
    rcases sys.send_cases i c c.clientFd .newConnection c.name .connectStatus with
      ⟨hfit, heq⟩ | ⟨pc, _, heq⟩
    · exact heq ▸ .sends (.name c.name) fun n hn => Option.some.inj hn ▸ ⟨rfl, hfit⟩
    · exact heq ▸ .moves
  | message =>
    simp only [clientStep, hpc, Option.some.injEq] at h
    subst h
    rcases sys.send_cases i c c.clientFd .message hello .response with ⟨_, heq⟩ | ⟨pc, _, heq⟩
    · exact heq ▸ .sends .message fun n hn => absurd hn (by simp [Says.request])
    · exact heq ▸ .moves
  | close =>
    simp only [clientStep, hpc, Option.some.injEq] at h
    subst h
    rcases sys.send_cases i c c.clientFd .connectionClose [] .closeFifo with ⟨_, heq⟩ | ⟨pc, _, heq⟩
    · exact heq ▸ .sends .close fun n hn => absurd hn (by simp [Says.request])
    · exact heq ▸ .moves
  | connectStatus | response =>
    simp only [clientStep, hpc, Option.some.injEq] at h
    exact h ▸ .fetches (by simp [Client.Reads, hpc])
  | exited | refused | killed | threw | undefined => simp [clientStep, hpc] at h

/-- A whole frame goes into a private FIFO, while its client reads it. -/
theorem serverStep_writes {sys : System} {s : Server} {a : Answers} {fd : ℤ} {buffer : Buffer}
    {next : Pc} {name : List UInt8} (hproc : sys.server = .running s)
    (hcall : ∀ a, s.syscall a = some (s.writeTo fd buffer a.written next))
    (hpc : s.pc = .greet fd ∨ s.pc = .echo fd buffer)
    (hfile : s.files.lookup fd = some (.fifo name)) (hreader : sys.hasReader name)
    (htaken : a.taken) : sys.serverStep a =
      some { sys.deliver (.writeTo fd buffer (some (.fifo name))) with
        server := .running { s with pc := next } } := by
  have hloop : ¬ s.InLoop := by
    rcases hpc with hpc | hpc <;> simp [Server.InLoop, hpc]
  have hwritten : (sys.answers s a).written = some 1024 := by
    rcases hpc with hpc | hpc <;> simp [answers, wrote, hpc, htaken, hfile, hreader]
  have hto : s.syscall (sys.answers s a) =
      some ({ s with pc := next }, [.writeTo fd buffer (some (.fifo name))]) := by
    rw [hcall, hwritten]
    simp [Server.writeTo, hfile]
  simp only [serverStep, hproc, serverRun, if_neg hloop, hto, List.foldl_cons, List.foldl_nil]

end System

/-! ### The potential of the system -/

def ServerProc.callsLeft : ServerProc → ℕ
  | .createFifo => 5
  | .openFifo => 4
  | .running s => s.callsLeft
  | .failed _ => 0

/-- The calls left for the client, with three of the server for each frame it has yet to send. -/
def Client.callsLeft (c : Client) : ℕ :=
  match c.pc with
  | .createFifo => 20
  | .openClient => 19
  | .openServer => 18
  | .connect => 17
  | .connectStatus => 13
  | .message => 12
  | .response => 8
  | .close => 7
  | .closeFifo => 3
  | .closeServer => 2
  | .closeClient => 1
  | .exited | .refused | .killed | .threw _ | .undefined => 0

theorem Client.callsLeft_of_over {c : Client} (h : c.pc.Over) : c.callsLeft ≤ 3 := by
  unfold callsLeft
  cases hpc : c.pc <;> simp_all [Client.Pc.Over]

/-- A read that gives -1 or a frame takes the client out of its loop. -/
theorem Client.receive_callsLeft {c : Client} (hreads : c.Reads) (mem : Memory)
    {result : ReadResult} (hresult : result ≠ .ended) :
    (c.receive mem result).callsLeft < c.callsLeft := by
  obtain ⟨buffer, hread⟩ : ∃ buffer, readFrom result zeroBuffer = some (.ok buffer) := by
    cases result with
    | failed => exact ⟨_, readFrom_failed _⟩
    | ended => exact absurd rfl hresult
    | frame b => exact ⟨_, readFrom_frame b _⟩
  rw [receive, hread]
  rcases hreads with hpc | hpc
  · simp only [hpc, if_true, connectStatus]
    split
    · simp [callsLeft, hpc]
    · rename_i status _
      by_cases htype : status.type = .connectionSuccess <;> simp [callsLeft, hpc, htype]
  · have hne : ¬ c.pc = .connectStatus := by simp [hpc]
    simp only [if_neg hne, respond]
    split <;> simp [callsLeft, hpc]

namespace System

def callsLeft (sys : System) : ℕ :=
  sys.server.callsLeft + (sys.clients.map Client.callsLeft).sum + 3 * sys.publicQueue.length

def Kept (sys : System) : Prop := ∀ s, sys.server = .running s → s.Kept

/-- STEP: every call of the server that returns is paid for. -/
theorem serverStep_pays {sys sys' : System} {a : Answers} (h : sys.Kept)
    (hstep : sys.serverStep a = some sys') : sys'.Kept ∧ sys'.callsLeft < sys.callsLeft := by
  cases hproc : sys.server with
  | createFifo =>
    simp only [serverStep, hproc] at hstep
    split at hstep
    · rw [Option.some.injEq] at hstep
      subst hstep
      exact ⟨by simp [Kept], by simp [callsLeft, hproc, ServerProc.callsLeft]⟩
    · rw [Option.some.injEq] at hstep
      subst hstep
      exact ⟨by simp [Kept], by simp [callsLeft, hproc, ServerProc.callsLeft]⟩
  | openFifo =>
    simp only [serverStep, hproc] at hstep
    split at hstep
    · exact absurd hstep (by simp)
    · rw [Option.some.injEq] at hstep
      subst hstep
      exact ⟨by simp [Kept], by simp [callsLeft, hproc, ServerProc.callsLeft]⟩
  | failed => simp [serverStep, hproc] at hstep
  | running s =>
    have hkept : s.Kept := h s hproc
    have hleft : sys.callsLeft =
        s.callsLeft + (sys.clients.map Client.callsLeft).sum + 3 * sys.publicQueue.length := by
      rw [callsLeft, hproc, ServerProc.callsLeft]
    cases serverStep_cases hstep with
    | begins hnot => exact absurd hproc (hnot s)
    | @reads _ b rest hproc' hloop hfifo hqueue =>
      obtain rfl := ServerProc.running.inj (hproc.symm.trans hproc')
      obtain ⟨hkept', hless⟩ := hkept.receive hloop hfifo a.mem b
      refine ⟨by rintro _ ⟨⟩; exact hkept', ?_⟩
      rw [hleft]
      simp only [callsLeft, ServerProc.callsLeft, hqueue, List.length_cons]
      omega
    | misreads hproc' hloop hfifo =>
      obtain rfl := ServerProc.running.inj (hproc.symm.trans hproc')
      obtain ⟨hkept', hless⟩ := hkept.misread hloop hfifo a.mem
      refine ⟨by rintro _ ⟨⟩; exact hkept', ?_⟩
      rw [hleft]
      simp only [callsLeft, ServerProc.callsLeft]
      omega
    | @calls _ s' calls hproc' hcall =>
      obtain rfl := ServerProc.running.inj (hproc.symm.trans hproc')
      obtain ⟨hkept', hless⟩ := hkept.syscall hcall
      obtain ⟨hclients, hpublic, _⟩ := foldl_deliver calls sys
      refine ⟨by rintro _ ⟨⟩; exact hkept', ?_⟩
      rw [hleft]
      simp only [callsLeft, ServerProc.callsLeft, hclients, hpublic]
      omega
    | leaves hproc' hleave =>
      obtain rfl := ServerProc.running.inj (hproc.symm.trans hproc')
      obtain ⟨hkept', hless⟩ := Server.leave_kept hleave
      refine ⟨by rintro _ ⟨⟩; exact hkept', ?_⟩
      rw [hleft]
      simp only [callsLeft, ServerProc.callsLeft]
      omega

variable {sys sys' : System} {c e : Client} {i : ℕ}

/-- STEP: a client that pays for its call and for the frame it has sent. -/
theorem put_pays (h : sys.Kept) (hi : sys.clients[i]? = some c)
    (hclients : sys'.clients = (sys.put i e).clients) (hserver : sys'.server = sys.server)
    (hless : e.callsLeft + 3 * sys'.publicQueue.length < c.callsLeft + 3 * sys.publicQueue.length) :
    sys'.Kept ∧ sys'.callsLeft < sys.callsLeft := by
  refine ⟨fun s hs => h s (hserver ▸ hs), ?_⟩
  have hset := sum_map_set Client.callsLeft hi e
  simp only [callsLeft, hserver, hclients, put]
  omega

/-- A call that only moves the client's program counter. -/
theorem moves_pays (h : sys.Kept) (hi : sys.clients[i]? = some c)
    (hless : e.callsLeft < c.callsLeft) :
    (sys.put i e).Kept ∧ (sys.put i e).callsLeft < sys.callsLeft :=
  put_pays h hi rfl rfl (Nat.add_lt_add_right hless _)

theorem orThrow_pays (h : sys.Kept) (hi : sys.clients[i]? = some c) {next : Client.Pc}
    (hnext : ({ c with pc := next } : Client).callsLeft < c.callsLeft) (ok : Bool)
    (failure : Failure) :
    (sys.put i (c.orThrow ok next failure)).Kept ∧
      (sys.put i (c.orThrow ok next failure)).callsLeft < sys.callsLeft := by
  cases ok with
  | true => exact moves_pays h hi hnext
  | false => exact moves_pays h hi (Nat.zero_lt_of_lt hnext)

/-- A frame sent is paid for in advance. -/
theorem send_pays (h : sys.Kept) (hi : sys.clients[i]? = some c) {next : Client.Pc}
    (hnext : ({ c with pc := next } : Client).callsLeft + 3 < c.callsLeft) (fd : ℤ)
    (t : Client.PackageType) (data : List UInt8) :
    (sys.send i c ⟨fd, t, data⟩ next).Kept ∧
      (sys.send i c ⟨fd, t, data⟩ next).callsLeft < sys.callsLeft := by
  rcases sys.send_cases i c fd t data next with ⟨_, heq⟩ | ⟨pc, hover, heq⟩
  · rw [heq]
    refine put_pays (e := { c with pc := next }) h hi rfl rfl ?_
    simp only [List.length_append, List.length_singleton]
    omega
  · rw [heq]
    have hlast : ({ c with pc := pc } : Client).callsLeft ≤ 3 := Client.callsLeft_of_over hover
    exact moves_pays h hi (by omega)

/-- A read that gives 0 leaves everything as it is. -/
theorem fetch_ended {mem : Memory} (hi : sys.clients[i]? = some c)
    (hread : sys.readFifo c.name = .ended) : sys.fetch i c mem = sys := by
  have hempty : sys.queue c.name = [] := by
    cases hq : sys.queue c.name with
    | nil => rfl
    | cons b rest => simp [readFifo, hq] at hread
  have hsame : sys.put i c = sys := by
    obtain ⟨hlt, rfl⟩ := List.getElem?_eq_some_iff.mp hi
    rw [put, List.set_getElem_self]
  rw [fetch, hread, show c.receive mem .ended = c from rfl, hsame, hempty, List.tail_nil,
    ← hempty, Function.update_eq_self]

theorem fetch_pays (h : sys.Kept) (hi : sys.clients[i]? = some c) (hreads : c.Reads)
    (mem : Memory) : sys.readFifo c.name = .ended ∧ sys.fetch i c mem = sys ∨
      (sys.fetch i c mem).Kept ∧ (sys.fetch i c mem).callsLeft < sys.callsLeft := by
  by_cases hread : sys.readFifo c.name = .ended
  · exact .inl ⟨hread, fetch_ended hi hread⟩
  · refine .inr (put_pays (e := c.receive mem (sys.readFifo c.name)) h hi rfl rfl ?_)
    exact Nat.add_lt_add_right (Client.receive_callsLeft hreads mem hread) _

theorem openServer_pays (h : sys.Kept) (hi : sys.clients[i]? = some c) (hpc : c.pc = .openServer)
    {ok : Bool} (hstep : sys.openServer i c ok = some sys') :
    sys'.Kept ∧ sys'.callsLeft < sys.callsLeft := by
  have hleft : c.callsLeft = 18 := by simp [Client.callsLeft, hpc]
  have hput : (sys.put i { c with pc := .connect }).Kept ∧
      (sys.put i { c with pc := .connect }).callsLeft < sys.callsLeft :=
    moves_pays h hi (by simp [Client.callsLeft, hpc])
  unfold openServer at hstep
  split at hstep
  · split at hstep
    · rename_i hproc
      rw [Option.some.injEq] at hstep
      subst hstep
      refine ⟨?_, ?_⟩
      · rintro _ ⟨⟩
        exact Server.start_kept sys.inherited
      · have hless := hput.2
        simp only [callsLeft, put, hproc, ServerProc.callsLeft] at hless ⊢
        have hthree : (Server.start sys.inherited).callsLeft = 3 := rfl
        omega
    · split at hstep
      · rw [Option.some.injEq] at hstep
        exact hstep ▸ hput
      · exact absurd hstep (by simp)
  · rw [Option.some.injEq] at hstep
    exact hstep ▸ moves_pays h hi (by simp [Client.callsLeft, hpc])

/-- STEP: every call of a client is paid for, but for the reads that give 0. -/
theorem clientStep_pays (h : sys.Kept) (hi : sys.clients[i]? = some c) {mem : Memory} {ok : Bool}
    (hstep : sys.clientStep i c mem ok = some sys') :
    (c.Reads ∧ sys.readFifo c.name = .ended ∧ sys' = sys) ∨
      sys'.Kept ∧ sys'.callsLeft < sys.callsLeft := by
  cases hpc : c.pc with
  | createFifo | openClient | closeFifo | closeServer | closeClient =>
    simp only [clientStep, hpc, Option.some.injEq] at hstep
    subst hstep
    exact .inr (orThrow_pays h hi (by simp [Client.callsLeft, hpc]) _ _)
  | openServer =>
    simp only [clientStep, hpc] at hstep
    exact .inr (openServer_pays h hi hpc hstep)
  | connect | message | close =>
    simp only [clientStep, hpc, Option.some.injEq] at hstep
    subst hstep
    exact .inr (send_pays h hi (by simp [Client.callsLeft, hpc]) c.clientFd ..)
  | connectStatus | response =>
    simp only [clientStep, hpc, Option.some.injEq] at hstep
    subst hstep
    have hreads : c.Reads := by simp [Client.Reads, hpc]
    exact (fetch_pays h hi hreads mem).imp_left (And.intro hreads)
  | exited | refused | killed | threw | undefined =>
    simp [clientStep, hpc] at hstep

/-- INVARIANT: any call of any process leaves the system as it is or is paid for. -/
theorem pays : Pays next Kept callsLeft := by
  have hnext : ∀ sys a, Kept sys → sys.next a = sys ∨
      (sys.next a).Kept ∧ (sys.next a).callsLeft < sys.callsLeft := by
    intro sys a h
    cases a with
    | server a =>
      rw [next]
      cases hstep : sys.serverStep a with
      | none => exact .inl rfl
      | some sys' => exact .inr (serverStep_pays h hstep)
    | client i mem ok =>
      rw [next]
      cases hi : sys.clients[i]? with
      | none => exact .inl rfl
      | some c =>
        simp only
        cases hstep : sys.clientStep i c mem ok with
        | none => exact .inl rfl
        | some sys' => exact (clientStep_pays h hi hstep).imp_left fun hidle => hidle.2.2
  refine ⟨?_, ?_⟩
  · intro sys a h
    rcases hnext sys a h with hidle | ⟨hkept, _⟩
    · rwa [hidle]
    · exact hkept
  · intro sys a h
    exact (hnext sys a h).imp_right And.right

/-- A process whose call changes nothing is blocked or gone, or polls in vain. -/
theorem serverStep_of_idle (h : sys.Kept) {a : Answers} (hidle : sys.next (.server a) = sys) :
    sys.serverStep a = none := by
  cases hstep : sys.serverStep a with
  | none => rfl
  | some sys' =>
    obtain ⟨_, hless⟩ := serverStep_pays h hstep
    rw [next, hstep, Option.getD_some] at hidle
    exact absurd (congrArg callsLeft hidle) hless.ne

theorem clientStep_of_idle (h : sys.Kept) (hi : sys.clients[i]? = some c) {mem : Memory} {ok : Bool}
    (hidle : sys.next (.client i mem ok) = sys) :
    sys.clientStep i c mem ok = none ∨ c.Reads ∧ sys.readFifo c.name = .ended := by
  cases hstep : sys.clientStep i c mem ok with
  | none => exact .inl rfl
  | some sys' =>
    rcases clientStep_pays h hi hstep with ⟨hreads, hread, _⟩ | ⟨_, hless⟩
    · exact .inr ⟨hreads, hread⟩
    · rw [next, hi] at hidle
      simp only [hstep, Option.getD_some] at hidle
      exact absurd (congrArg callsLeft hidle) hless.ne

theorem start_kept (fifoName : List UInt8) (inherited : List ℤ) (clients : List Client) :
    (start fifoName inherited clients).Kept := by
  rintro s ⟨⟩

theorem start_callsLeft (fifoName : List UInt8) (inherited : List ℤ) (launches : List Launch) :
    (start fifoName inherited (launches.map Launch.client)).callsLeft =
      20 * launches.length + 5 := by
  have hclients : ((launches.map Launch.client).map Client.callsLeft).sum =
      20 * launches.length := by
    induction launches with
    | nil => rfl
    | cons l launches ih =>
      rw [List.map_cons, List.map_cons, List.sum_cons, ih, List.length_cons]
      have hone : l.client.callsLeft = 20 := rfl
      omega
  simp only [callsLeft, start, hclients, ServerProc.callsLeft, List.length_nil]
  omega

/-- CORRECT: with any number of clients, in every endless schedule of calls, whatever memory holds
    and however calls fail, the system changes at most 20 times for each client and 5 times more,
    and so comes to rest. -/
theorem comes_to_rest (fifoName : List UInt8) (inherited : List ℤ) (launches : List Launch)
    (acts : ℕ → Action) :
    (changes next (start fifoName inherited (launches.map Launch.client)) acts).encard ≤
        (20 * launches.length + 5 : ℕ) ∧
      ∃ n, ∀ m, n ≤ m →
        after next (start fifoName inherited (launches.map Launch.client)) acts m =
          after next (start fifoName inherited (launches.map Launch.client)) acts n := by
  have hkept := start_kept fifoName inherited (launches.map Launch.client)
  refine ⟨?_, pays.rests hkept acts⟩
  rw [← start_callsLeft fifoName inherited launches]
  exact pays.encard_changes_le hkept acts

end System
end UnixIpc.Fifo
