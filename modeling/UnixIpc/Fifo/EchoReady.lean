import UnixIpc.Fifo.EchoHandshake

/-! Any number of echo clients and the server, call by call in every order: when `Accept` opens a
    private FIFO, is it there, and does its client read it?

    A client's request for its FIFO is in the public FIFO, or is the one the server is about to
    serve, or is gone. Up to its end nobody writes the private FIFO, so every `read` of the client
    gives 0 and it cannot leave the loop of `ReadFrom`.

        client   connect ─▶ connectStatus ◀┐ read = 0
                    │ name frame     └─────┘ ··············▶ greeting, or -1 in the gap
        server      └──▶ public FIFO ──▶ openFile ──▶ greet -/

namespace UnixIpc.Fifo
open UnixIpc.Bytes UnixIpc.Descriptors UnixIpc.Run

/-- How a client's process is started: its name from `argv`, and the descriptor `open` will give. -/
structure Launch where
  name : List UInt8
  nulFree : 0 ∉ name
  clientFd : ℤ

def Launch.client (l : Launch) : Client := Client.start l.name l.nulFree l.clientFd

/-- What a client says in one frame. -/
inductive Says where
  | name (fileName : List UInt8)
  | message | close

def Says.frame : Says → Buffer
  | .name fileName => nameFrame fileName
  | .message => messageFrame
  | .close => closeFrame

/-- The private FIFO the frame asks for. -/
def Says.request : Says → Option (List UInt8)
  | .name fileName => some fileName
  | _ => none

/-- The private FIFO `Accept` is about to open. -/
def Server.opening (s : Server) : List (List UInt8) :=
  match s.pc with
  | .openFile fileName => [fileName]
  | _ => []

def ServerProc.opening : ServerProc → List (List UInt8)
  | .running s => s.opening
  | _ => []

/-- The server has the private FIFO open. -/
def Server.Has (s : Server) (name : List UInt8) : Prop := ∃ fd, (fd, File.fifo name) ∈ s.files

def ServerProc.Has (name : List UInt8) : ServerProc → Prop
  | .running s => s.Has name
  | _ => False

namespace System

/-- When the server is about to open a private FIFO, the FIFO exists, its client holds the read end,
    and `OpenFile` goes on to the greeting unless the call fails for a reason of its own. -/
def OpensReady (sys : System) : Prop :=
  ∀ s fileName, sys.server = .running s → s.pc = .openFile fileName →
    (∃ c ∈ sys.clients, c.name = fileName ∧ c.linked ∧ c.holds) ∧
      ∀ a, a.openOk → sys.serverStep a = some { sys with
        server := .running (s.opened fileName (.greet (lowestFree s.descriptors))) }

/-- The requests the server has yet to serve, in order. -/
def asked (sys : System) (said : List Says) : List (List UInt8) :=
  sys.server.opening ++ said.filterMap Says.request

/-- Nobody has written the private FIFO, and the server does not have it open. -/
structure Untouched (sys : System) (name : List UInt8) : Prop where
  empty : sys.queue name = []
  closed : ¬ sys.server.Has name

/-- The public FIFO holds what was said. Every request stands for one client, which waits for the
    answer with its FIFO open; the FIFOs of those and of the clients before them are untouched. -/
structure Expects (sys : System) (said : List Says) : Prop where
  onWay : sys.publicQueue = said.map Says.frame
  names : (sys.clients.map Client.name).Nodup
  once : (sys.asked said).Nodup
  waits : ∀ name ∈ sys.asked said, sys.Untouched name ∧
    ∃ c ∈ sys.clients, c.name = name ∧ c.pc = .connectStatus ∧ c.name.length ≤ 1012
  silent : ∀ c ∈ sys.clients, c.pc.Silent → sys.Untouched c.name

end System

/-! ### The server's calls -/

namespace Server

theorem opening_afterAccept (s : Server) (fd : ℤ) :
    ({ s with pc := afterAccept fd } : Server).opening = [] := by
  unfold afterAccept
  split <;> rfl

/-- `Accept` goes on to an `open` just for a `NewConnection` package. -/
theorem accept_opening (s : Server) (mem : Memory) (buffer : Buffer) :
    (s.accept mem buffer).opening =
      match Server.deserialize Server.package mem buffer with
      | some ⟨_, .newConnection, data⟩ => [data]
      | _ => [] := by
  unfold accept
  rcases Server.deserialize Server.package mem buffer with _ | ⟨fd, type, data⟩
  · rfl
  · rcases type with _ | _ | _ | _ | _
    · simp only
      split <;> exact opening_afterAccept s _
    · rfl
    all_goals exact opening_afterAccept s _

theorem createNewSession_opening (s : Server) (clientFd : ℤ) (mem : Memory) (buffer : Buffer) :
    (s.createNewSession clientFd mem buffer).opening = [] := by
  unfold createNewSession sessionClose
  split
  · rfl
  · split
    · split <;> rfl
    · rfl

theorem deserialize_zeroBuffer {mem : Memory} {p : Server.Package}
    (h : Server.deserialize Server.package mem zeroBuffer = some p) :
    p = ⟨0, .message, p.data⟩ := by
  have hcode : ofLE (slice zeroBuffer.1 0 4) = 0 := by decide
  simp only [Server.deserialize, Package.deserialize, Option.bind_eq_bind,
    Option.bind_eq_some_iff, Option.pure_def, Option.some.injEq] at h
  obtain ⟨_, _, data, _, rfl⟩ := h
  rw [hcode]
  rfl

/-- Taking a frame opens and closes nothing. -/
theorem receive_files (s : Server) (mem : Memory) (buffer : Buffer) :
    (s.receive mem buffer).files = s.files := by
  unfold receive accept createNewSession sessionClose
  repeat' split
  all_goals rfl

theorem receive_has (s : Server) (mem : Memory) (buffer : Buffer) (name : List UInt8) :
    (s.receive mem buffer).Has name ↔ s.Has name := by
  rw [Has, Has, receive_files]

theorem start_has (inherited : List ℤ) (name : List UInt8) : ¬ (start inherited).Has name := by
  rintro ⟨fd, hfd⟩
  rcases List.mem_cons.mp hfd with heq | hold
  · exact absurd (congrArg Prod.snd heq) (by simp)
  · obtain ⟨_, _, heq⟩ := List.mem_map.mp hold
    exact absurd (congrArg Prod.snd heq) (by simp)

theorem opening_of_inLoop {s : Server} (h : s.InLoop) : s.opening = [] := by
  rcases inLoop_iff.mp h with hpc | ⟨fd, hpc⟩ <;> simp only [opening, hpc]

theorem opening_of_cut {s : Server} (h : s.pc.Cut) : s.opening = [] := by
  unfold opening
  cases hpc : s.pc <;> simp_all [Pc.Cut]

/-- The cleared buffer is a message. -/
theorem receive_zeroBuffer {s : Server} (hloop : s.InLoop) (mem : Memory) :
    (s.receive mem zeroBuffer).opening = [] := by
  have hzero : s.readFrom zeroBuffer = zeroBuffer := ite_self _
  rw [receive, hzero]
  rcases inLoop_iff.mp hloop with hpc | ⟨fd, hpc⟩
  · simp only [hpc, accept_opening]
    cases hd : Server.deserialize Server.package mem zeroBuffer with
    | none => rfl
    | some p => rw [deserialize_zeroBuffer hd]
  · simp only [hpc]
    exact createNewSession_opening ..

/-- A frame of client main sets the server to open at most the FIFO it asks for. -/
theorem receive_said {s : Server} {mem : Memory} {m : Says} (hloop : s.InLoop) (hfifo : s.attends)
    (hmem : mem.Clean) (hfits : ∀ n, m.request = some n → n.length ≤ 1012 ∧ 0 ∉ n) :
    (s.receive mem m.frame).opening.Sublist m.request.toList := by
  rw [receive, readFrom_eq (serverFd_mem_of_attends hfifo)]
  rcases inLoop_iff.mp hloop with hpc | ⟨fd, hpc⟩
  · simp only [hpc, accept_opening]
    cases m with
    | name n =>
      rw [Says.frame, decode_nameFrame (hfits n rfl).1 (hfits n rfl).2 hmem]
      exact List.Sublist.refl _
    | message =>
      rw [Says.frame, decode_messageFrame hmem]
      exact List.nil_sublist _
    | close =>
      rw [Says.frame, decode_closeFrame hmem]
      exact List.nil_sublist _
  · simp only [hpc, createNewSession_opening]
    exact List.nil_sublist _

/-- `WriteTo` goes into a file the server holds. -/
theorem writeTo_frame {s s' : Server} {fd : ℤ} {buffer : Buffer} {written : Option ℤ} {next : Pc}
    {calls : List Call} (hnext : ({ s with pc := next } : Server).opening = [])
    (h : s.writeTo fd buffer written next = (s', calls)) :
    s'.opening = [] ∧ ∀ n, n ∉ s.opening → ¬ s.Has n → ¬ s'.Has n ∧ delivered n calls = [] := by
  rcases writeTo_cases s fd buffer ⟨⟨[], []⟩, true, written⟩ next with
    ⟨file, hfile, _, heq⟩ | ⟨pc, hcut, _, heq⟩
  · obtain ⟨rfl, rfl⟩ := Prod.mk.inj (heq.symm.trans h)
    refine ⟨hnext, ?_⟩
    intro n _ hhas
    refine ⟨hhas, ?_⟩
    rcases file with _ | _ | name
    · rfl
    · rfl
    · have hne : name ≠ n := by
        rintro rfl
        obtain ⟨before, after, hfiles, _⟩ := List.lookup_eq_some_iff.mp hfile
        exact hhas ⟨fd, by simp [hfiles]⟩
      simp [delivered, Call.frameFor, hne]
  · obtain ⟨rfl, rfl⟩ := Prod.mk.inj (heq.symm.trans h)
    exact ⟨opening_of_cut hcut, fun n _ hhas => ⟨hhas, rfl⟩⟩

/-- STEP: any other call leaves nothing to open; the server comes to hold no FIFO but the one it
    was about to open, and writes only into FIFOs it holds. -/
theorem syscall_frame {s s' : Server} {a : Answers} {calls : List Call}
    (h : s.syscall a = some (s', calls)) :
    s'.opening = [] ∧ ∀ n, n ∉ s.opening → ¬ s.Has n → ¬ s'.Has n ∧ delivered n calls = [] := by
  unfold syscall at h
  split at h
  · rename_i fileName hpc
    rw [Option.some.injEq, openFile] at h
    split at h
    · obtain ⟨rfl, rfl⟩ := Prod.mk.inj h
      refine ⟨rfl, ?_⟩
      rintro n hn hhas
      refine ⟨?_, rfl⟩
      rintro ⟨fd, hfd⟩
      rcases List.mem_cons.mp hfd with heq | hold
      · simp only [Prod.mk.injEq, File.fifo.injEq] at heq
        exact hn (by simp [opening, hpc, heq.2])
      · exact hhas ⟨fd, hold⟩
    · obtain ⟨rfl, rfl⟩ := Prod.mk.inj h
      exact ⟨rfl, fun n _ hhas => ⟨hhas, rfl⟩⟩
  · rename_i fd hpc
    rw [Option.some.injEq, greet_eq] at h
    exact writeTo_frame (opening_afterAccept s fd) h
  · rw [Option.some.injEq] at h
    exact writeTo_frame rfl h
  · rename_i fd hpc
    rw [Option.some.injEq, closeFile] at h
    split at h
    · obtain ⟨rfl, rfl⟩ := Prod.mk.inj h
      refine ⟨rfl, ?_⟩
      intro n _ hhas
      refine ⟨?_, rfl⟩
      rintro ⟨fd', hfd'⟩
      exact hhas ⟨fd', List.mem_of_mem_filter hfd'⟩
    · obtain ⟨rfl, rfl⟩ := Prod.mk.inj h
      exact ⟨rfl, fun n _ hhas => ⟨hhas, rfl⟩⟩
  · exact absurd h (by simp)

/-- Behind the loop nothing is opened. -/
theorem leave_frame {s s' : Server} {fifoName : List UInt8} {ok : Bool}
    (h : s.leave fifoName ok = some s') :
    s'.opening = [] ∧ ∀ n, ¬ s.Has n → ¬ s'.Has n := by
  unfold leave at h
  split at h
  · rw [Option.some.injEq] at h
    subst h
    split <;> exact ⟨rfl, fun n hhas => hhas⟩
  · rw [Option.some.injEq] at h
    subst h
    split
    · refine ⟨rfl, ?_⟩
      rintro n hhas ⟨fd, hfd⟩
      exact hhas ⟨fd, List.mem_of_mem_filter hfd⟩
    · exact ⟨rfl, fun n hhas => hhas⟩
  · exact absurd h (by simp)

end Server

/-- A read that does not leave the client in its loop brings it past its silence. -/
theorem Client.receive_cases (c : Client) (mem : Memory) (result : ReadResult) :
    c.receive mem result = c ∨
      (c.receive mem result).name = c.name ∧ ¬ (c.receive mem result).pc.Silent := by
  unfold receive
  split
  · exact Or.inl rfl
  · exact Or.inr ⟨rfl, id⟩
  · refine Or.inr ?_
    unfold connectStatus respond
    split
    · split
      · exact ⟨rfl, id⟩
      · refine ⟨rfl, ?_⟩
        simp only
        split <;> exact id
    · split <;> exact ⟨rfl, id⟩

namespace System

theorem asked_running {sys : System} {s : Server} (h : sys.server = .running s)
    (said : List Says) : sys.asked said = s.opening ++ said.filterMap Says.request := by
  rw [asked, h]
  rfl

theorem asked_append (sys : System) (said : List Says) (n : List UInt8) :
    sys.asked (said ++ [.name n]) = sys.asked said ++ [n] := by
  simp [asked, Says.request]

/-- Without a writer a read of the FIFO gives 0. -/
theorem Untouched.readFifo {sys : System} {name : List UInt8} (h : sys.Untouched name) :
    sys.readFifo name = .ended := by
  have hholds : sys.serverHolds (.fifo name) = false := by
    have hclosed := h.closed
    unfold serverHolds
    split
    · rename_i s hproc
      rw [hproc] at hclosed
      have hnone : File.fifo name ∉ s.files.map Prod.snd := by
        intro hmem
        obtain ⟨⟨fd, file⟩, hfile, rfl⟩ := List.mem_map.mp hmem
        exact hclosed ⟨fd, hfile⟩
      simp only [List.contains_eq_mem, hnone, decide_false, Bool.and_false]
    · rfl
  simp [System.readFifo, h.empty, hholds]

namespace Expects
variable {sys sys' : System} {said said' : List Says} {c e : Client} {i : ℕ} {mem : Memory}

/-! ### What the expectation says -/

/-- A client that does not wait for its answer has no request left. -/
theorem not_asked (h : sys.Expects said) (hc : c ∈ sys.clients) (hpc : c.pc ≠ .connectStatus) :
    c.name ∉ sys.asked said := by
  intro hasked
  obtain ⟨_, c', hc', hname, hpc', _⟩ := h.waits c.name hasked
  obtain rfl : c' = c := List.inj_on_of_nodup_map h.names hc' hc hname
  exact hpc hpc'

theorem fits (h : sys.Expects said) {n : List UInt8} (hn : n ∈ sys.asked said) :
    n.length ≤ 1012 ∧ 0 ∉ n := by
  obtain ⟨_, c, _, rfl, _, hfit⟩ := h.waits n hn
  exact ⟨hfit, c.nulFree⟩

/-- The server's `open` finds what it needs. -/
theorem opensReady (h : sys.Expects said) : sys.OpensReady := by
  intro s fileName hproc hpc
  have hasked : fileName ∈ sys.asked said :=
    List.mem_append_left _ (by simp [hproc, ServerProc.opening, Server.opening, hpc])
  obtain ⟨_, c, hc, hname, hwaits, _⟩ := h.waits fileName hasked
  have hlinked : c.linked ∧ c.holds := by simp [Client.linked, Client.holds, hwaits]
  refine ⟨⟨c, hc, hname, hlinked⟩, ?_⟩
  intro a hok
  have hcan : sys.canOpen fileName = true := by
    refine List.any_eq_true.mpr ⟨c, hc, ?_⟩
    simp [hname, hlinked.1, hlinked.2]
  have hanswer : (sys.answers s a).openOk = true := by simp [answers, hpc, hok, hcan]
  have hloop : ¬ s.InLoop := by simp [Server.InLoop, hpc]
  have hcall : s.syscall (sys.answers s a) =
      some (s.opened fileName (.greet (lowestFree s.descriptors)),
        [.openFile fileName (some (lowestFree s.descriptors))]) := by
    simp only [Server.syscall, hpc, Server.openFile, hanswer, if_true, Server.opened]
  simp only [serverStep, hproc, serverRun, if_neg hloop, hcall]
  rfl

/-! ### The server's steps -/

/-- The server took a request or opened the first: what is left keeps waiting. -/
theorem server (h : sys.Expects said) (hclients : sys'.clients = sys.clients)
    (hway : sys'.publicQueue = said'.map Says.frame)
    (hasked : (sys'.asked said').Sublist (sys.asked said))
    (huntouched : ∀ n, n ∈ sys'.asked said' ∨ n ∉ sys.asked said → sys.Untouched n →
      sys'.Untouched n) : sys'.Expects said' where
  onWay := hway
  names := hclients ▸ h.names
  once := hasked.nodup h.once
  waits := by
    intro n hn
    obtain ⟨hfifo, c, hc, hwaits⟩ := h.waits n (hasked.subset hn)
    exact ⟨huntouched n (Or.inl hn) hfifo, c, hclients ▸ hc, hwaits⟩
  silent := by
    intro c hc hpc
    rw [hclients] at hc
    have hnot : c.name ∉ sys.asked said := by
      refine h.not_asked hc ?_
      intro heq
      simp [heq, Client.Pc.Silent] at hpc
    exact huntouched c.name (Or.inr hnot) (h.silent c hc hpc)

/-- A server that makes no call of its own and has nothing to open. -/
theorem server_quiet (h : sys.Expects said) {proc : ServerProc} {linked : Bool}
    (hopening : proc.opening = []) (hhas : ∀ n, ¬ sys.server.Has n → ¬ proc.Has n) :
    ({ sys with server := proc, linked := linked } : System).Expects said := by
  refine h.server rfl h.onWay ?_ ?_
  · rw [asked, hopening]
    exact List.sublist_append_right ..
  · intro n _ hfifo
    exact ⟨hfifo.empty, hhas n hfifo.closed⟩

/-- STEP: the server takes a frame from the public FIFO. -/
theorem serverReads (h : sys.Expects said) {s : Server} (hproc : sys.server = .running s)
    (hloop : s.InLoop) (hfifo : s.attends) {b : Buffer} {rest : List Buffer}
    (hqueue : sys.publicQueue = b :: rest) (hmem : mem.Clean) :
    ∃ said', ({ sys with server := .running (s.receive mem b), publicQueue := rest } :
      System).Expects said' := by
  obtain ⟨m, said, rfl, rfl, rfl⟩ : ∃ m said', said = m :: said' ∧ b = m.frame ∧
      rest = said'.map Says.frame := by
    rcases said with _ | ⟨m, said⟩
    · simp [h.onWay] at hqueue
    · rw [h.onWay, List.map_cons, List.cons.injEq] at hqueue
      exact ⟨m, said, rfl, hqueue.1.symm, hqueue.2.symm⟩
  have hasked : sys.asked (m :: said) = m.request.toList ++ said.filterMap Says.request := by
    cases hm : m.request <;> simp [asked_running hproc, Server.opening_of_inLoop hloop, hm]
  have hopens : (s.receive mem m.frame).opening.Sublist m.request.toList := by
    refine Server.receive_said hloop hfifo hmem ?_
    intro n hn
    exact h.fits (by simp [hasked, hn])
  refine ⟨said, h.server rfl rfl ?_ ?_⟩
  · rw [hasked]
    exact hopens.append_right _
  · intro n _ hopen
    have hclosed := hopen.closed
    rw [hproc] at hclosed
    exact ⟨hopen.empty, mt (Server.receive_has ..).mp hclosed⟩

/-- STEP: the server makes its pending call. -/
theorem serverCalls (h : sys.Expects said) {s s' : Server} (hproc : sys.server = .running s)
    {a : Answers} {calls : List Call} (hcall : s.syscall a = some (s', calls)) :
    ({ calls.foldl deliver sys with server := .running s' } : System).Expects said := by
  obtain ⟨hopening, hframe⟩ := Server.syscall_frame hcall
  obtain ⟨hclients, hpublic, hprivate⟩ := foldl_deliver calls sys
  have hleft : ({ calls.foldl deliver sys with server := .running s' } : System).asked said =
      said.filterMap Says.request := by
    rw [asked_running rfl, hopening, List.nil_append]
  refine h.server hclients (hpublic.trans h.onWay) ?_ ?_
  · rw [hleft, asked_running hproc]
    exact List.sublist_append_right ..
  · intro n hn hopen
    have hnot : n ∉ s.opening := by
      intro hnow
      have honce := h.once
      rw [asked_running hproc, List.nodup_append] at honce
      rw [hleft, asked_running hproc] at hn
      rcases hn with hlater | hnever
      · exact honce.2.2 n hnow n hlater rfl
      · exact hnever (List.mem_append_left _ hnow)
    have hclosed := hopen.closed
    rw [hproc] at hclosed
    obtain ⟨hclosed', hnothing⟩ := hframe n hnot hclosed
    refine ⟨(hprivate n).2.trans ?_, hclosed'⟩
    rw [hopen.empty, hnothing, List.nil_append]

/-- STEP: any call of the server. -/
theorem serverStep (h : sys.Expects said) {a : Answers} (hmem : a.mem.Clean)
    (hstep : sys.serverStep a = some sys') : ∃ said', sys'.Expects said' := by
  cases serverStep_cases hstep with
  | @begins proc _ _ hnext =>
    refine ⟨said, h.server_quiet ?_ ?_⟩
    · cases proc with
      | running s => exact absurd rfl (hnext s)
      | _ => rfl
    · intro n _
      cases proc with
      | running s => exact absurd rfl (hnext s)
      | _ => exact id
  | reads hproc hloop hfifo hqueue => exact h.serverReads hproc hloop hfifo hqueue hmem
  | misreads hproc hloop =>
    refine ⟨said, h.server_quiet (Server.receive_zeroBuffer hloop a.mem) ?_⟩
    intro n hclosed
    rw [hproc] at hclosed
    exact mt (Server.receive_has ..).mp hclosed
  | calls hproc hcall => exact ⟨said, h.serverCalls hproc hcall⟩
  | leaves hproc hleave =>
    obtain ⟨hopening, hframe⟩ := Server.leave_frame hleave
    refine ⟨said, h.server_quiet hopening ?_⟩
    intro n hclosed
    rw [hproc] at hclosed
    exact hframe n hclosed

/-! ### The clients' steps -/

theorem names_put (hi : sys.clients[i]? = some c) (hname : e.name = c.name) :
    (sys.put i e).clients.map Client.name = sys.clients.map Client.name := by
  obtain ⟨hlt, rfl⟩ := List.getElem?_eq_some_iff.mp hi
  have hlt' : i < (sys.clients.map Client.name).length := by simpa using hlt
  rw [put, List.map_set, hname]
  simpa using List.set_getElem_self hlt'

/-- After a client's step every request still has its client, if the step kept it waiting. -/
theorem waits_put (hi : sys.clients[i]? = some c) (hname : e.name = c.name) {n : List UInt8}
    (hstay : c.name = n → e.pc = .connectStatus)
    (h : ∃ d ∈ sys.clients, d.name = n ∧ d.pc = .connectStatus ∧ d.name.length ≤ 1012) :
    ∃ d ∈ (sys.put i e).clients,
      d.name = n ∧ d.pc = .connectStatus ∧ d.name.length ≤ 1012 := by
  obtain ⟨d, hd, hdname, hdpc, hfit⟩ := h
  obtain ⟨j, hj⟩ := List.mem_iff_getElem?.mp hd
  by_cases hij : i = j
  · subst hij
    obtain rfl : c = d := by simpa [hi] using hj
    have hlt : i < sys.clients.length := (List.getElem?_eq_some_iff.mp hi).1
    exact ⟨e, List.mem_set hlt e, hname.trans hdname, hstay hdname, hname ▸ hfit⟩
  · refine ⟨d, List.mem_iff_getElem?.mpr ⟨j, ?_⟩, hdname, hdpc, hfit⟩
    rw [put, List.getElem?_set_ne hij, hj]

/-- STEP: a client's call that asks for nothing: what was asked is still asked, the client waits on
    if it was asking, and no FIFO that was untouched is touched. -/
theorem client (h : sys.Expects said) (hi : sys.clients[i]? = some c) (hname : e.name = c.name)
    (hclients : sys'.clients = (sys.put i e).clients)
    (hway : sys'.publicQueue = said'.map Says.frame)
    (hasked : sys'.asked said' = sys.asked said)
    (huntouched : ∀ n, sys.Untouched n → sys'.Untouched n)
    (hsilent : e.pc.Silent → c.pc.Silent)
    (hstay : c.name ∈ sys.asked said → e.pc = .connectStatus) : sys'.Expects said' where
  onWay := hway
  names := by
    rw [hclients, names_put hi hname]
    exact h.names
  once := hasked ▸ h.once
  waits := by
    intro n hn
    rw [hasked] at hn
    obtain ⟨hfifo, hwaits⟩ := h.waits n hn
    rw [hclients]
    exact ⟨huntouched n hfifo, waits_put hi hname (fun heq => hstay (heq ▸ hn)) hwaits⟩
  silent := by
    intro d hd hpc
    rw [hclients] at hd
    rcases List.mem_or_eq_of_mem_set hd with hold | rfl
    · exact huntouched d.name (h.silent d hold hpc)
    · have hc := List.mem_of_getElem? hi
      exact hname ▸ huntouched c.name (h.silent c hc (hsilent hpc))

/-- A step that only moves the client's program counter. -/
theorem put (h : sys.Expects said) (hi : sys.clients[i]? = some c) {pc : Client.Pc}
    (hpc : c.pc ≠ .connectStatus) (hsilent : pc.Silent → c.pc.Silent) :
    (sys.put i { c with pc := pc }).Expects said :=
  h.client (e := { c with pc := pc }) hi rfl rfl h.onWay rfl (fun _ hn => ⟨hn.1, hn.2⟩) hsilent
    fun hn => absurd hn (h.not_asked (List.mem_of_getElem? hi) hpc)

theorem orThrow (h : sys.Expects said) (hi : sys.clients[i]? = some c) {next : Client.Pc}
    (hpc : c.pc ≠ .connectStatus) (hsilent : next.Silent → c.pc.Silent) (ok : Bool)
    (failure : Failure) : (sys.put i (c.orThrow ok next failure)).Expects said := by
  cases ok with
  | true => exact h.put hi hpc hsilent
  | false => exact h.put hi hpc False.elim

/-- STEP: a frame that asks for nothing. -/
theorem sendOther (h : sys.Expects said) (hi : sys.clients[i]? = some c) {m : Says}
    {t : Client.PackageType} {data : List UInt8} {next : Client.Pc}
    (hm : m.frame = Client.frame ⟨0, t, data⟩) (hnone : m.request = none)
    (hpc : c.pc ≠ .connectStatus) (hsilent : ¬ next.Silent) (fd : ℤ) :
    ∃ said', (sys.send i c ⟨fd, t, data⟩ next).Expects said' := by
  rcases sys.send_cases i c fd t data next with ⟨_, heq⟩ | ⟨pc, hover, heq⟩
  · rw [heq]
    refine ⟨said ++ [m], h.client (e := { c with pc := next }) hi rfl rfl ?_ ?_
      (fun _ hn => ⟨hn.1, hn.2⟩) (fun hs => absurd hs hsilent) ?_⟩
    · simp [h.onWay, hm]
    · simp [asked, System.put, hnone]
    · exact fun hn => absurd hn (h.not_asked (List.mem_of_getElem? hi) hpc)
  · rw [heq]
    exact ⟨said, h.put hi hpc fun hs => absurd hs hover.not_silent⟩

/-- STEP: the client asks for its FIFO, and waits. -/
theorem sendName (h : sys.Expects said) (hi : sys.clients[i]? = some c) (hpc : c.pc = .connect)
    (fd : ℤ) :
    ∃ said', (sys.send i c ⟨fd, .newConnection, c.name⟩ .connectStatus).Expects said' := by
  have hc : c ∈ sys.clients := List.mem_of_getElem? hi
  have hwas : c.pc ≠ .connectStatus := by simp [hpc]
  have hsilent : c.pc.Silent := by simp [hpc, Client.Pc.Silent]
  rcases sys.send_cases i c fd .newConnection c.name .connectStatus with
    ⟨hfit, heq⟩ | ⟨pc, hover, heq⟩
  · rw [heq]
    have hput : (sys.put i { c with pc := .connectStatus }).Expects said :=
      h.put hi hwas False.elim
    have hlt : i < sys.clients.length := (List.getElem?_eq_some_iff.mp hi).1
    refine ⟨said ++ [.name c.name], ?_, hput.names, ?_, ?_, ?_⟩
    · simp [h.onWay, Says.frame, nameFrame]
    · rw [asked_append]
      exact List.nodup_append.mpr ⟨h.once, List.nodup_singleton _, by
        rintro n hn _ hname rfl
        exact h.not_asked hc hwas (List.mem_singleton.mp hname ▸ hn)⟩
    · intro n hn
      rw [asked_append] at hn
      rcases List.mem_append.mp hn with hold | hnew
      · obtain ⟨hfifo, hwaits⟩ := hput.waits n hold
        exact ⟨⟨hfifo.empty, hfifo.closed⟩, hwaits⟩
      · obtain rfl : n = c.name := List.mem_singleton.mp hnew
        have hfifo := h.silent c hc hsilent
        exact ⟨⟨hfifo.empty, hfifo.closed⟩, _, List.mem_set hlt _, rfl, rfl, hfit⟩
    · intro d hd hs
      have hfifo := hput.silent d hd hs
      exact ⟨hfifo.empty, hfifo.closed⟩
  · rw [heq]
    exact ⟨said, h.put hi hwas fun hs => absurd hs hover.not_silent⟩

/-- STEP: a read of the private FIFO. The client that waits for its greeting finds it untouched
    and stays where it is. -/
theorem fetch (h : sys.Expects said) (hi : sys.clients[i]? = some c) :
    (sys.fetch i c mem).Expects said := by
  have hc : c ∈ sys.clients := List.mem_of_getElem? hi
  have hcases := c.receive_cases mem (sys.readFifo c.name)
  refine h.client (e := c.receive mem (sys.readFifo c.name)) hi ?_ rfl h.onWay rfl ?_ ?_ ?_
  · rcases hcases with heq | ⟨hname, _⟩
    · rw [heq]
    · exact hname
  · intro n hn
    refine ⟨?_, hn.closed⟩
    by_cases heq : n = c.name
    · subst heq
      simp [System.fetch, hn.empty]
    · simpa [System.fetch, System.put, Function.update_of_ne heq] using hn.empty
  · rcases hcases with heq | ⟨_, hloud⟩
    · rw [heq]
      exact id
    · exact fun hs => absurd hs hloud
  · intro hasked
    obtain ⟨hfifo, _⟩ := h.waits c.name hasked
    have hwaits : c.pc = .connectStatus := by
      by_contra hne
      exact h.not_asked hc hne hasked
    rw [hfifo.readFifo]
    exact hwaits

/-- STEP: the client opens the public FIFO, with or after the server. -/
theorem openServer (h : sys.Expects said) (hi : sys.clients[i]? = some c) (hpc : c.pc = .openServer)
    {ok : Bool} (hstep : sys.openServer i c ok = some sys') : sys'.Expects said := by
  have hwas : c.pc ≠ .connectStatus := by simp [hpc]
  have hsilent : c.pc.Silent := by simp [hpc, Client.Pc.Silent]
  have hconnect : (sys.put i { c with pc := .connect }).Expects said := h.put hi hwas fun _ => hsilent
  unfold System.openServer at hstep
  split at hstep
  · split at hstep
    · rw [Option.some.injEq] at hstep
      exact hstep ▸ hconnect.server_quiet rfl fun n _ => Server.start_has sys.inherited n
    · split at hstep
      · rw [Option.some.injEq] at hstep
        exact hstep ▸ hconnect
      · exact absurd hstep (by simp)
  · rw [Option.some.injEq] at hstep
    exact hstep ▸ h.put hi hwas False.elim

/-- STEP: any call of client main. -/
theorem clientStep (h : sys.Expects said) (hi : sys.clients[i]? = some c) {ok : Bool}
    (hstep : sys.clientStep i c mem ok = some sys') : ∃ said', sys'.Expects said' := by
  cases hpc : c.pc with
  | createFifo | openClient =>
    simp only [System.clientStep, hpc, Option.some.injEq] at hstep
    refine ⟨said, hstep ▸ h.orThrow hi ?_ (fun _ => ?_) _ _⟩
    · simp [hpc]
    · simp [hpc, Client.Pc.Silent]
  | openServer =>
    simp only [System.clientStep, hpc] at hstep
    exact ⟨said, h.openServer hi hpc hstep⟩
  | connect =>
    simp only [System.clientStep, hpc, Option.some.injEq] at hstep
    exact hstep ▸ h.sendName hi hpc c.clientFd
  | connectStatus | response =>
    simp only [System.clientStep, hpc, Option.some.injEq] at hstep
    exact ⟨said, hstep ▸ h.fetch hi⟩
  | message =>
    simp only [System.clientStep, hpc, Option.some.injEq] at hstep
    exact hstep ▸ h.sendOther (m := .message) hi rfl rfl (by simp [hpc]) id c.clientFd
  | close =>
    simp only [System.clientStep, hpc, Option.some.injEq] at hstep
    exact hstep ▸ h.sendOther (m := .close) hi rfl rfl (by simp [hpc]) id c.clientFd
  | closeFifo | closeServer | closeClient =>
    simp only [System.clientStep, hpc, Option.some.injEq] at hstep
    refine ⟨said, hstep ▸ h.orThrow hi ?_ False.elim ok _⟩
    simp [hpc]
  | exited | refused | killed | threw | undefined =>
    simp [System.clientStep, hpc] at hstep

/-- INVARIANT: any call of any process. -/
theorem next (h : sys.Expects said) {a : Action} (hmem : a.mem.Clean) :
    ∃ said', (sys.next a).Expects said' := by
  cases a with
  | server a =>
    rw [System.next]
    cases hstep : sys.serverStep a with
    | none => exact ⟨said, h⟩
    | some sys' => exact h.serverStep hmem hstep
  | client i mem ok =>
    rw [System.next]
    cases hi : sys.clients[i]? with
    | none => exact ⟨said, h⟩
    | some c =>
      simp only
      cases hstep : sys.clientStep i c mem ok with
      | none => exact ⟨said, h⟩
      | some sys' => exact h.clientStep hi hstep

theorem start (fifoName : List UInt8) (inherited : List ℤ) {launches : List Launch}
    (hnames : (launches.map Launch.name).Nodup) :
    (System.start fifoName inherited (launches.map Launch.client)).Expects [] where
  onWay := rfl
  names := by
    rw [System.start, List.map_map]
    exact hnames
  once := List.nodup_nil
  waits := fun _ hn => absurd hn List.not_mem_nil
  silent := fun _ _ _ => ⟨rfl, id⟩

end Expects

/-- CORRECT: for every number of clients of distinct names and every interleaving of their calls
    with the server's, whenever the server is about to open the FIFO a client named, the FIFO is
    there with the client at its read end, and the `open` goes through. -/
theorem opensReady_of_distinct (fifoName : List UInt8) (inherited : List ℤ)
    (launches : List Launch) (hnames : (launches.map Launch.name).Nodup) (acts : List Action)
    (hmem : ∀ a ∈ acts, a.mem.Clean) :
    Along next OpensReady (start fifoName inherited (launches.map Launch.client)) acts := by
  have hinv : Along next (fun sys => ∃ said, sys.Expects said)
      (start fifoName inherited (launches.map Launch.client)) acts :=
    along_of_step (fun _ _ ⟨_, h⟩ hclean => h.next hclean) acts _
      ⟨[], Expects.start fifoName inherited hnames⟩ (throughout_of_forall hmem _)
  exact hinv.mono fun _ ⟨_, h⟩ => h.opensReady

/-- Two clients ask at once; the server takes the first request while both read their FIFOs. -/
def crossing : List Action :=
  [.server ⟨⟨[], [0]⟩, true, some 1024⟩, .client 0 ⟨[], [0]⟩ true, .client 0 ⟨[], [0]⟩ true,
    .client 1 ⟨[], [0]⟩ true, .client 1 ⟨[], [0]⟩ true, .client 0 ⟨[], [0]⟩ true,
    .client 1 ⟨[], [0]⟩ true, .client 1 ⟨[], [0]⟩ true, .client 0 ⟨[], [0]⟩ true,
    .client 1 ⟨[], [0]⟩ true, .client 0 ⟨[], [0]⟩ true, .server ⟨⟨[], [0]⟩, true, some 1024⟩]

/-- The run ends with the server about to open the second client's FIFO. -/
theorem opensReady_crossing :
    Along next OpensReady (start (ascii "s") [0, 1, 2]
        ([⟨ascii "a", by decide, 3⟩, ⟨ascii "b", by decide, 3⟩].map Launch.client)) crossing ∧
      (crossing.foldl next (start (ascii "s") [0, 1, 2]
        ([⟨ascii "a", by decide, 3⟩, ⟨ascii "b", by decide, 3⟩].map Launch.client))).server.opening =
        [ascii "b"] := by
  refine ⟨opensReady_of_distinct (ascii "s") [0, 1, 2] _ (by decide) crossing ?_, ?_⟩
  · intro a ha
    simp only [crossing, List.mem_cons, List.not_mem_nil, or_false] at ha
    rcases ha with rfl | rfl | rfl | rfl | rfl | rfl | rfl | rfl | rfl | rfl | rfl | rfl <;> rfl
  · decide +kernel

end System
end UnixIpc.Fifo
