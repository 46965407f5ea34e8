import UnixIpc.Lib.Descriptors
import UnixIpc.Fifo.Package

/-! The echo FIFO server: `Accept` and `CreateNewSession` take frames from the one public FIFO in
    alternation, open and greet the private FIFO a client names, echo one frame into it, and close.

    The model moves by system calls. `pc` says which call comes next; `accept`, `createNewSession`
    and `sessionClose` are the code between two calls, and `openFile`, `greet`, `echo`, `closeFile`
    are the calls with what follows them up to the next one. `step` is everything the server does
    for one frame it reads.

        accept ──new──▶ openFile ──▶ greet ──▶ session ──data──▶ echo ──▶ accept
          │ message, fd listed ──────────────────▲  │ close ──▶ closeFile ──▶ accept
          └ anything else ──▶ closeFifo (the loop has ended) -/

namespace UnixIpc.Fifo
open UnixIpc.Bytes UnixIpc.Descriptors

/-- What a descriptor of the server refers to. -/
inductive File where
  | inherited | publicFifo
  | fifo (name : List UInt8)
  deriving DecidableEq

/-- The `std::runtime_error`s of the two programs. -/
inductive Failure where
  | createFifo (fifoName : List UInt8) | openFile (fileName : List UInt8)
  | read | write | shortWrite | closeFile
  | closeFifo (fifoName : List UInt8)
  deriving DecidableEq

/-- The text of the exception. -/
def Failure.what : Failure → List UInt8
  | .createFifo fifoName => ascii "error when try create fifo: " ++ fifoName
  | .openFile fileName => ascii "error when try open created fifo file: " ++ fileName
  | .read => ascii "error when try read from file descriptor"
  | .write => ascii "error when try write data to file descriptor"
  | .shortWrite => ascii "error when was write less then buffer size"
  | .closeFile => ascii "error when close file descriptor"
  | .closeFifo fifoName => ascii "error when try close fifo: " ++ fifoName

/-- The next system call of the server. -/
inductive Pc where
  | accept
  | openFile (fileName : List UInt8)
  | greet (clientFd : ℤ)
  | session (clientFd : ℤ)
  | echo (clientFd : ℤ) (buffer : Buffer)
  | closeFile (clientFd : ℤ)
  | closeFifo | closeServer | exited
  | killed
  | threw (failure : Failure)
  | undefined
  deriving DecidableEq

/-- Killed by a signal, or stopped by an exception. -/
def Pc.Cut : Pc → Prop
  | .killed | .threw _ => True
  | _ => False

theorem Pc.cut_threw (failure : Failure) : (Pc.threw failure).Cut := trivial

theorem Pc.Cut.ne_session {pc : Pc} (h : pc.Cut) (fd : ℤ) : pc ≠ .session fd := by
  rintro rfl
  exact h

/-- A call as it was made: `writeTo` records the file that took the whole frame, if one did. -/
inductive Call where
  | openFile (fileName : List UInt8) (fd : Option ℤ)
  | writeTo (fd : ℤ) (buffer : Buffer) (taken : Option File)
  | closeFile (fd : ℤ)
  deriving DecidableEq

structure Server where
  serverFd : ℤ
  files : List (ℤ × File)
  connections : List ℤ
  pc : Pc
  deriving DecidableEq

/-- How the system answers while one frame is handled: the memory around the decoder, whether
    `open` succeeds, what `write` returns. `none` stands for SIGPIPE, which a FIFO without a reader
    raises and nothing handles. -/
structure Answers where
  mem : Memory
  openOk : Bool
  written : Option ℤ

/-- One frame of the public FIFO, with the answers to the calls it leads to. -/
structure Read extends Answers where
  buffer : Buffer

/-- The whole frame was written. -/
def Answers.taken (a : Answers) : Prop := ∃ n ∈ a.written, 1024 ≤ n

instance (a : Answers) : Decidable a.taken := inferInstanceAs (Decidable (∃ _ ∈ _, _))

namespace Server

def descriptors (s : Server) : List ℤ := s.files.map Prod.fst

/-- `main` up to its loop: the public FIFO takes the lowest free descriptor, and `connections` is
    built with 1024 elements. -/
def start (inherited : List ℤ) : Server where
  serverFd := lowestFree inherited
  files := (lowestFree inherited, .publicFifo) :: inherited.map fun fd => (fd, .inherited)
  connections := List.replicate 1024 0
  pc := .accept

@[simp] theorem start_serverFd (inherited : List ℤ) :
    (start inherited).serverFd = lowestFree inherited := rfl

@[simp] theorem start_connections (inherited : List ℤ) :
    (start inherited).connections = List.replicate 1024 0 := rfl

@[simp] theorem start_descriptors (inherited : List ℤ) :
    (start inherited).descriptors = lowestFree inherited :: inherited := by
  have hkeys : (start inherited).descriptors =
      lowestFree inherited :: (inherited.map fun fd => (fd, File.inherited)).map Prod.fst := rfl
  rw [hkeys, List.map_map]
  exact congrArg _ (List.map_id inherited)

/-- `main` after `Accept` returned. -/
def afterAccept (clientFd : ℤ) : Pc := if clientFd < 0 then .closeFifo else .session clientFd

/-- `WriteTo`, then on to `next`. -/
def writeTo (s : Server) (fd : ℤ) (buffer : Buffer) (written : Option ℤ) (next : Pc) :
    Server × List Call :=
  match s.files.lookup fd with
  | none => ({ s with pc := .threw .write }, [.writeTo fd buffer none])
  | some file =>
    match written with
    | none => ({ s with pc := .killed }, [.writeTo fd buffer none])
    | some size =>
      if size < 0 then ({ s with pc := .threw .write }, [.writeTo fd buffer none])
      else if size < 1024 then ({ s with pc := .threw .shortWrite }, [.writeTo fd buffer none])
      else ({ s with pc := next }, [.writeTo fd buffer (some file)])

/-- `ReadFrom(serverFd, buffer)` into a zeroed buffer. On a closed descriptor `read` returns -1,
    which the unsigned `size` holds as a large count: the buffer is handed back as it was. -/
def readFrom (s : Server) (buffer : Buffer) : Buffer :=
  if s.serverFd ∈ s.descriptors then buffer else zeroBuffer

/-- `Accept`, from the frame read to the next system call. -/
def accept (s : Server) (mem : Memory) (buffer : Buffer) : Server :=
  match Server.deserialize Server.package mem buffer with
  | none => { s with pc := .undefined }
  | some package =>
    match package.type with
    | .newConnection => { s with pc := .openFile package.data }
    | .message =>
      match s.connections.find? (· = package.fd) with
      | some result => { s with pc := afterAccept result }
      | none => { s with pc := afterAccept (-1) }
    | _ => { s with pc := afterAccept (-1) }

/-- `OpenFile(package.data(), O_WRONLY | O_NONBLOCK)` and `connections.push_back`. -/
def openFile (s : Server) (fileName : List UInt8) (ok : Bool) : Server × List Call :=
  if ok then
    let clientFd := lowestFree s.descriptors
    ({ s with files := (clientFd, .fifo fileName) :: s.files
              connections := s.connections ++ [clientFd]
              pc := .greet clientFd }, [.openFile fileName (some clientFd)])
  else ({ s with pc := .threw (.openFile fileName) }, [.openFile fileName none])

/-- `WriteTo(clientFd, buffer)` of the `ConnectionSuccess` package, the end of `Accept`. -/
def greet (s : Server) (clientFd : ℤ) (written : Option ℤ) : Server × List Call :=
  match Server.serialize ⟨s.serverFd, .connectionSuccess, []⟩ zeroBuffer with
  | none => ({ s with pc := .undefined }, [])
  | some buffer => s.writeTo clientFd buffer written (afterAccept clientFd)

/-- `SessionClose` up to `CloseFile`. -/
def sessionClose (s : Server) (clientFd : ℤ) : Server :=
  if clientFd ∈ s.connections then
    { s with connections := s.connections.erase clientFd, pc := .closeFile clientFd }
  else { s with pc := .accept }

/-- `CreateNewSession`, from the frame read to the next system call. -/
def createNewSession (s : Server) (clientFd : ℤ) (mem : Memory) (buffer : Buffer) : Server :=
  match Server.deserialize Server.package mem buffer with
  | none => { s with pc := .undefined }
  | some package =>
    match package.type with
    | .conectionClose => s.sessionClose clientFd
    | _ => { s with pc := .echo clientFd buffer }

/-- `CloseFile`. -/
def closeFile (s : Server) (fd : ℤ) : Server × List Call :=
  if fd ∈ s.descriptors then
    ({ s with files := s.files.filter (·.1 ≠ fd), pc := .accept }, [.closeFile fd])
  else ({ s with pc := .threw .closeFile }, [.closeFile fd])

/-- A frame has been read. -/
def receive (s : Server) (mem : Memory) (buffer : Buffer) : Server :=
  match s.pc with
  | .accept => s.accept mem (s.readFrom buffer)
  | .session clientFd => s.createNewSession clientFd mem (s.readFrom buffer)
  | _ => s

/-- The pending system call of the main loop, unless the server waits for a frame or has left. -/
def syscall (s : Server) (a : Answers) : Option (Server × List Call) :=
  match s.pc with
  | .openFile fileName => some (s.openFile fileName a.openOk)
  | .greet clientFd => some (s.greet clientFd a.written)
  | .echo clientFd buffer => some (s.writeTo clientFd buffer a.written .accept)
  | .closeFile clientFd => some (s.closeFile clientFd)
  | _ => none

/-- Up to `n` pending calls, one after another. -/
def finish : ℕ → Server → Answers → Server × List Call
  | 0, s, _ => (s, [])
  | n + 1, s, a =>
    match s.syscall a with
    | none => (s, [])
    | some (s', calls) => ((finish n s' a).1, calls ++ (finish n s' a).2)

/-- Everything the server does for one frame. -/
def step (s : Server) (r : Read) : Server × List Call :=
  finish 2 (s.receive r.mem r.buffer) r.toAnswers

/-- The server waits for a frame, in `Accept` or in `CreateNewSession`. -/
def InLoop (s : Server) : Prop :=
  match s.pc with
  | .accept | .session _ => True
  | _ => False

instance (s : Server) : Decidable s.InLoop := by
  unfold InLoop; split <;> infer_instance

theorem inLoop_iff {s : Server} : s.InLoop ↔ s.pc = .accept ∨ ∃ fd, s.pc = .session fd := by
  unfold InLoop
  cases s.pc <;> simp

/-- A process that is gone reads nothing and calls nothing. -/
theorem not_inLoop_of_cut {s : Server} (h : s.pc.Cut) : ¬ s.InLoop := by
  unfold InLoop
  cases hpc : s.pc <;> simp_all [Pc.Cut]

theorem syscall_of_cut {s : Server} (h : s.pc.Cut) (a : Answers) : s.syscall a = none := by
  unfold syscall
  cases hpc : s.pc <;> simp_all [Pc.Cut]

/-- The server is in `Accept` and still holds its public FIFO. -/
structure Ready (s : Server) : Prop where
  pc : s.pc = .accept
  fifo : s.serverFd ∈ s.descriptors

theorem start_ready (inherited : List ℤ) : Ready (start inherited) :=
  ⟨rfl, by simp⟩

theorem readFrom_eq {s : Server} (h : s.serverFd ∈ s.descriptors) (buffer : Buffer) :
    s.readFrom buffer = buffer := if_pos h

/-! ### What one frame can do -/

/-- The greeting frame of `Accept`. -/
def successFrame : Buffer :=
  (Server.serialize ⟨0, .connectionSuccess, []⟩ zeroBuffer).getD zeroBuffer

/-- The descriptor is not encoded, so every server sends the same greeting. -/
theorem serialize_success (fd : ℤ) :
    Server.serialize ⟨fd, .connectionSuccess, []⟩ zeroBuffer = some successFrame := by
  have hfd : Server.serialize ⟨fd, .connectionSuccess, []⟩ zeroBuffer =
      Server.serialize ⟨0, .connectionSuccess, []⟩ zeroBuffer := rfl
  obtain ⟨b, hb⟩ := Package.serialize_isSome
    (p := (⟨0, .connectionSuccess, []⟩ : Server.Package)) (by simp) zeroBuffer
  rw [hfd, successFrame, Server.serialize, hb, Option.getD_some]

/-- The package `deserialize` makes of the frame the server reads. -/
def decoded (s : Server) (r : Read) : Option Server.Package :=
  Server.deserialize Server.package r.mem (s.readFrom r.buffer)

/-- `deserialize` leaves `fd_` at the constructor's default. -/
theorem decoded_fd {s : Server} {r : Read} {p : Server.Package} (h : s.decoded r = some p) :
    p.fd = 0 := by
  simp only [decoded, Server.deserialize, Package.deserialize, Option.bind_eq_bind,
    Option.bind_eq_some_iff, Option.pure_def, Option.some.injEq] at h
  obtain ⟨_, _, _, _, rfl⟩ := h
  rfl

/-- The server after a client's FIFO was opened. -/
def opened (s : Server) (fileName : List UInt8) (pc : Pc) : Server where
  serverFd := s.serverFd
  files := (lowestFree s.descriptors, .fifo fileName) :: s.files
  connections := s.connections ++ [lowestFree s.descriptors]
  pc := pc

/-- The server after a session was closed. -/
def closed (s : Server) (clientFd : ℤ) : Server where
  serverFd := s.serverFd
  files := s.files.filter (·.1 ≠ clientFd)
  connections := s.connections.erase clientFd
  pc := .accept

/-- Every way `Accept` can end: the guard, the state after it, the calls made. -/
inductive Accepts (s : Server) (r : Read) : Server → List Call → Prop where
  | faulted (hd : s.decoded r = none) : Accepts s r { s with pc := .undefined } []
  | refused {p} (hd : s.decoded r = some p) (hp : p.type ≠ .newConnection)
      (hm : p.type = .message → 0 ∉ s.connections) : Accepts s r { s with pc := .closeFifo } []
  | routed {p} (hd : s.decoded r = some p) (hp : p.type = .message) (hm : 0 ∈ s.connections) :
      Accepts s r { s with pc := .session 0 } []
  | openFailed {p} (hd : s.decoded r = some p) (hp : p.type = .newConnection)
      (ho : r.openOk = false) :
      Accepts s r { s with pc := .threw (.openFile p.data) } [.openFile p.data none]
  | greetFailed {p pc} (hpc : pc.Cut) (hd : s.decoded r = some p) (hp : p.type = .newConnection)
      (ho : r.openOk = true) (hw : ¬ r.taken) :
      Accepts s r (s.opened p.data pc)
        [.openFile p.data (some (lowestFree s.descriptors)),
         .writeTo (lowestFree s.descriptors) successFrame none]
  | greeted {p} (hd : s.decoded r = some p) (hp : p.type = .newConnection)
      (ho : r.openOk = true) (hw : r.taken) :
      Accepts s r (s.opened p.data (.session (lowestFree s.descriptors)))
        [.openFile p.data (some (lowestFree s.descriptors)),
         .writeTo (lowestFree s.descriptors) successFrame (some (.fifo p.data))]

/-- Every way `CreateNewSession(c, serverFd)` can end. -/
inductive Serves (s : Server) (c : ℤ) (r : Read) : Server → List Call → Prop where
  | faulted (hd : s.decoded r = none) : Serves s c r { s with pc := .undefined } []
  | echoed {p} (file) (hd : s.decoded r = some p) (hp : p.type ≠ .conectionClose)
      (hf : s.files.lookup c = some file) (hw : r.taken) :
      Serves s c r { s with pc := .accept } [.writeTo c (s.readFrom r.buffer) (some file)]
  | echoFailed {p pc} (hpc : pc.Cut) (hd : s.decoded r = some p) (hp : p.type ≠ .conectionClose)
      (hw : s.files.lookup c = none ∨ ¬ r.taken) :
      Serves s c r { s with pc := pc } [.writeTo c (s.readFrom r.buffer) none]
  | ended {p} (hd : s.decoded r = some p) (hp : p.type = .conectionClose)
      (hc : c ∈ s.connections) (ho : c ∈ s.descriptors) :
      Serves s c r (s.closed c) [.closeFile c]
  | endFailed {p} (hd : s.decoded r = some p) (hp : p.type = .conectionClose)
      (hc : c ∈ s.connections) (ho : c ∉ s.descriptors) :
      Serves s c r { s with connections := s.connections.erase c, pc := .threw .closeFile }
        [.closeFile c]
  | ignored {p} (hd : s.decoded r = some p) (hp : p.type = .conectionClose)
      (hc : c ∉ s.connections) : Serves s c r { s with pc := .accept } []

theorem finish_quiet {s : Server} {a : Answers} (h : s.syscall a = none) (n : ℕ) :
    finish n s a = (s, []) := by
  cases n with
  | zero => rfl
  | succ n => rw [finish, h]

theorem finish_call {s s' : Server} {a : Answers} {calls : List Call}
    (h : s.syscall a = some (s', calls)) (h' : s'.syscall a = none) :
    finish 2 s a = (s', calls) := by
  rw [finish, h]; simp [finish_quiet h']

/-- `WriteTo` either takes the whole frame and goes on, or ends the process. -/
theorem writeTo_cases (s : Server) (fd : ℤ) (buffer : Buffer) (a : Answers) (next : Pc) :
    (∃ file, s.files.lookup fd = some file ∧ a.taken ∧
      s.writeTo fd buffer a.written next = ({ s with pc := next }, [.writeTo fd buffer (some file)])) ∨
    (∃ pc : Pc, pc.Cut ∧ (s.files.lookup fd = none ∨ ¬ a.taken) ∧
      s.writeTo fd buffer a.written next = ({ s with pc := pc }, [.writeTo fd buffer none])) := by
  unfold writeTo Answers.taken
  cases hf : s.files.lookup fd with
  | none => exact Or.inr ⟨.threw .write, trivial, Or.inl rfl, rfl⟩
  | some file =>
    cases a.written with
    | none => exact Or.inr ⟨.killed, trivial, Or.inr (by simp), rfl⟩
    | some size =>
      by_cases hneg : size < 0
      · exact Or.inr ⟨.threw .write, trivial, Or.inr (by simp; omega), by simp [hneg]⟩
      · by_cases hshort : size < 1024
        · exact Or.inr ⟨.threw .shortWrite, trivial, Or.inr (by simpa using hshort),
            by simp [hneg, hshort]⟩
        · exact Or.inl ⟨file, rfl, by simpa using hshort, by simp [hneg, hshort]⟩

theorem afterAccept_lowestFree (used : List ℤ) :
    afterAccept (lowestFree used) = .session (lowestFree used) :=
  if_neg (not_lt.mpr (lowestFree_nonneg used))

/-- The greeting is the frame `successFrame`, whatever the state. -/
theorem greet_eq (s : Server) (clientFd : ℤ) (written : Option ℤ) :
    s.greet clientFd written = s.writeTo clientFd successFrame written (afterAccept clientFd) := by
  rw [greet, serialize_success]

/-- The calls after a `NewConnection` package: open, and then greet what was opened. -/
theorem finish_openFile (s : Server) (fileName : List UInt8) (a : Answers) :
    finish 2 { s with pc := .openFile fileName } a =
      if a.openOk then
        let greeted := (s.opened fileName (.greet (lowestFree s.descriptors))).writeTo
          (lowestFree s.descriptors) successFrame a.written (.session (lowestFree s.descriptors))
        (greeted.1, .openFile fileName (some (lowestFree s.descriptors)) :: greeted.2)
      else ({ s with pc := .threw (.openFile fileName) }, [.openFile fileName none]) := by
  cases ho : a.openOk with
  | false => exact finish_call (by simp [syscall, openFile, ho]) rfl
  | true =>
    have hopen : ({ s with pc := .openFile fileName } : Server).syscall a =
        some (s.opened fileName (.greet (lowestFree s.descriptors)),
          [.openFile fileName (some (lowestFree s.descriptors))]) := by
      simp [syscall, openFile, opened, ho, descriptors]
    have hgreet : (s.opened fileName (.greet (lowestFree s.descriptors))).syscall a =
        some ((s.opened fileName (.greet (lowestFree s.descriptors))).writeTo
          (lowestFree s.descriptors) successFrame a.written
          (.session (lowestFree s.descriptors))) := by
      simp only [syscall, opened, greet_eq, afterAccept_lowestFree]
    simp only [finish, hopen, hgreet, if_true, List.append_nil, List.singleton_append]

@[simp] theorem opened_files (s : Server) (fileName : List UInt8) (pc : Pc) :
    (s.opened fileName pc).files = (lowestFree s.descriptors, .fifo fileName) :: s.files := rfl

theorem step_accept {s : Server} {r : Read} (ha : s.pc = .accept) :
    Accepts s r (s.step r).1 (s.step r).2 := by
  have hrec : s.receive r.mem r.buffer = s.accept r.mem (s.readFrom r.buffer) := by
    rw [receive, ha]
  rw [step, hrec, accept]
  cases hd : s.decoded r with
  | none =>
    rw [show Server.deserialize _ _ _ = _ from hd]
    exact .faulted hd
  | some p =>
    rw [show Server.deserialize _ _ _ = _ from hd]
    cases hp : p.type with
    | newConnection =>
      simp only [hp, finish_openFile]
      cases ho : r.openOk with
      | false => exact .openFailed hd hp ho
      | true =>
        simp only [if_true]
        rcases writeTo_cases (s.opened p.data (.greet (lowestFree s.descriptors)))
          (lowestFree s.descriptors) successFrame r.toAnswers
          (.session (lowestFree s.descriptors)) with ⟨file, hf, hw, heq⟩ | ⟨pc, hpc, hw, heq⟩
        · rw [heq]
          simp only [opened_files, List.lookup_cons, beq_self_eq_true, Option.some.injEq] at hf
          subst hf
          exact .greeted hd hp ho hw
        · rw [heq]
          refine .greetFailed hpc hd hp ho (hw.resolve_left ?_)
          simp
    | message =>
      simp only [hp]
      cases hfind : s.connections.find? (· = p.fd) with
      | none =>
        refine .refused hd (by simp [hp]) ?_
        intro _ hmem
        have hnone := List.find?_eq_none.mp hfind 0 hmem
        simp [decoded_fd hd] at hnone
      | some result =>
        have hres : result = 0 := by
          have := List.find?_some hfind
          simpa [decoded_fd hd] using this
        subst hres
        exact .routed hd hp (List.mem_of_find?_eq_some hfind)
    | _ =>
      simp only [hp]
      exact .refused hd (by simp [hp]) (by simp [hp])

theorem createNewSession_close {s : Server} {c : ℤ} {r : Read} {p : Server.Package}
    (hd : s.decoded r = some p) (hp : p.type = .conectionClose) :
    s.createNewSession c r.mem (s.readFrom r.buffer) = s.sessionClose c := by
  rw [createNewSession, show Server.deserialize _ _ _ = _ from hd]
  simp only [hp]

theorem createNewSession_data {s : Server} {c : ℤ} {r : Read} {p : Server.Package}
    (hd : s.decoded r = some p) (hp : p.type ≠ .conectionClose) :
    s.createNewSession c r.mem (s.readFrom r.buffer) =
      { s with pc := .echo c (s.readFrom r.buffer) } := by
  rw [createNewSession, show Server.deserialize _ _ _ = _ from hd]
  cases hp' : p.type with
  | conectionClose => exact absurd hp' hp
  | _ => simp only [hp']

/-- `CloseFile` on a listed descriptor, after `SessionClose` took it off the list. -/
theorem finish_closeFile (s : Server) (c : ℤ) (a : Answers) :
    finish 2 { s with connections := s.connections.erase c, pc := .closeFile c } a =
      if c ∈ s.descriptors then (s.closed c, [.closeFile c])
      else ({ s with connections := s.connections.erase c, pc := .threw .closeFile },
        [.closeFile c]) := by
  by_cases ho : c ∈ s.descriptors
  · rw [if_pos ho]
    refine finish_call ?_ rfl
    simp only [syscall]
    exact congrArg some (if_pos ho)
  · rw [if_neg ho]
    refine finish_call ?_ rfl
    simp only [syscall]
    exact congrArg some (if_neg ho)

theorem step_session {s : Server} {r : Read} {c : ℤ} (ha : s.pc = .session c) :
    Serves s c r (s.step r).1 (s.step r).2 := by
  have hrec : s.receive r.mem r.buffer = s.createNewSession c r.mem (s.readFrom r.buffer) := by
    rw [receive, ha]
  rw [step, hrec]
  cases hd : s.decoded r with
  | none =>
    rw [createNewSession, show Server.deserialize _ _ _ = _ from hd]
    exact .faulted hd
  | some p =>
    by_cases hp : p.type = .conectionClose
    · rw [createNewSession_close hd hp, sessionClose]
      by_cases hc : c ∈ s.connections
      · rw [if_pos hc, finish_closeFile]
        split
        · rename_i ho; exact .ended hd hp hc ho
        · rename_i ho; exact .endFailed hd hp hc ho
      · rw [if_neg hc]
        exact .ignored hd hp hc
    · rw [createNewSession_data hd hp]
      have hcall : ({ s with pc := .echo c (s.readFrom r.buffer) } : Server).syscall r.toAnswers =
          some (s.writeTo c (s.readFrom r.buffer) r.written .accept) := by
        simp only [syscall, writeTo]
      rcases writeTo_cases s c (s.readFrom r.buffer) r.toAnswers .accept with
        ⟨file, hf, hw, heq⟩ | ⟨pc, hpc, hw, heq⟩
      · rw [finish_call (hcall.trans (congrArg some heq)) rfl]
        exact .echoed file hd hp hf hw
      · have hquiet : ({ s with pc := pc } : Server).syscall r.toAnswers = none :=
          syscall_of_cut hpc _
        rw [finish_call (hcall.trans (congrArg some heq)) hquiet]
        exact .echoFailed hpc hd hp hw

end Server
end UnixIpc.Fifo
