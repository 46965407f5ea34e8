import UnixIpc.Lib.Bytes
import UnixIpc.Lib.Descriptors

/-! What the two multiplex servers have in common: the process they run in, and `handleRequest` up to
    the one thing they do differently, taking a client off their list.

        read ──-1──▶ exit        ──0──▶ disconnected
             └─n──▶ buff as a C string ──"stop\r\n"──▶ isRunning = false
                                       └─ else ──▶ write(strlen(buff) bytes) ──-1──▶ exit -/

namespace UnixIpc.Servers
open UnixIpc.Bytes UnixIpc.Descriptors

/-- What `read(sockfd, buff, 1024)` can put into `buff`. -/
abbrev Chunk := {bytes : List UInt8 // bytes.length ≤ 1024}

/-- `char buff[1024] = {0}` after the read. -/
def buff (chunk : Chunk) : Block 1024 :=
  ⟨chunk.1 ++ List.replicate (1024 - chunk.1.length) 0, by
    have := chunk.2; simp only [List.length_append, List.length_replicate]; omega⟩

/-- The command that ends the main loop. -/
def stopCommand : List UInt8 := ascii "stop\r\n"

theorem stopCommand_length_le : stopCommand.length ≤ 1024 := by decide

theorem nil_length_le : ([] : List UInt8).length ≤ 1024 := Nat.zero_le _

/-- What `handleRequest` makes of a read. -/
inductive Reply where
  | readError | disconnected | stop
  | echo (data : List UInt8)
  | overrun
  deriving DecidableEq

/-- The read (`none`: -1, no bytes: 0), and then `buff` as a C string, which runs on into `stack`
    when `buff` holds no NUL. -/
def reply (chunk : Option Chunk) (stack : List UInt8) : Reply :=
  match chunk with
  | none => .readError
  | some chunk =>
    if chunk.1 = [] then .disconnected
    else
      match cString ((buff chunk).1 ++ stack) with
      | none => .overrun
      | some data => if data = stopCommand then .stop else .echo data

/-- How the process stands: `exited` after `errorHandler`, or by a SIGPIPE in the write before it;
    `undefined` after a read out of bounds. -/
inductive Status where
  | running | exited | undefined
  deriving DecidableEq

/-- The process of a multiplex server: `isRunning`, its descriptors, and what it has done: the
    descriptors closed, the bytes written to each, the requests handled in the last round. -/
structure Process where
  isRunning : Bool
  status : Status
  openFds : List ℤ
  closed : List ℤ
  written : List (ℤ × List UInt8)
  handled : List ℤ
  deriving DecidableEq

/-- What the outside does in one round: the descriptor accept(2) would like to return (`none`: it
    fails), and for each client its read, whether a write to it succeeds, and the stack behind
    `buff`. -/
structure Outside where
  accepted : Option ℤ
  read : ℤ → Option Chunk
  writes : ℤ → Bool
  stack : ℤ → List UInt8

namespace Outside

def reply (o : Outside) (sockfd : ℤ) : Reply := Servers.reply (o.read sockfd) (o.stack sockfd)

/-- The client has closed its connection. -/
def drops (o : Outside) (sockfd : ℤ) : Bool := o.reply sockfd = .disconnected

/-- The request ends the process: a read or a write fails, or the scan of `buff` leaves memory. -/
def halts (o : Outside) (sockfd : ℤ) : Bool :=
  match o.reply sockfd with
  | .readError | .overrun => true
  | .echo _ => !o.writes sockfd
  | .disconnected | .stop => false

/-- A client comes where one is accepted, and every client that is read from has gone. -/
def comeAndGo : Outside where
  accepted := some 0
  read _ := some ⟨[], by simp⟩
  writes _ := true
  stack _ := []

end Outside

namespace Process

/-- Before main: the listener takes the lowest free descriptor. -/
def start (inherited : List ℤ) : Process where
  isRunning := true
  status := .running
  openFds := lowestFree inherited :: inherited
  closed := []
  written := []
  handled := []

/-- `errorHandler(-1, ..)`. -/
def exit (p : Process) : Process := { p with status := .exited }

/-- `while (isRunning)`, as long as the process is there. -/
def Looping (p : Process) : Prop := p.isRunning = true ∧ p.status = .running

instance (p : Process) : Decidable p.Looping := inferInstanceAs (Decidable (_ ∧ _))

/-- `close(sockfd)`. -/
def close (p : Process) (sockfd : ℤ) : Process :=
  { p with openFds := p.openFds.erase sockfd, closed := p.closed ++ [sockfd] }

/-- A connection has been accepted at `connfd`. -/
def accept (p : Process) (connfd : ℤ) : Process := { p with openFds := connfd :: p.openFds }

/-- What `handleRequest` does with a client that stays. -/
def respond (p : Process) (sockfd : ℤ) (writes : Bool) : Reply → Process
  | .readError => p.exit
  | .disconnected => p
  | .stop => { p with isRunning := false }
  | .echo data => if writes then { p with written := p.written ++ [(sockfd, data)] } else p.exit
  | .overrun => { p with status := .undefined }

end Process

namespace Process
variable (p : Process) (sockfd : ℤ) (writes : Bool) (reply : Reply)

@[simp] theorem respond_openFds : (p.respond sockfd writes reply).openFds = p.openFds := by
  unfold respond exit; split <;> first | rfl | split <;> rfl

@[simp] theorem respond_handled : (p.respond sockfd writes reply).handled = p.handled := by
  unfold respond exit; split <;> first | rfl | split <;> rfl

@[simp] theorem respond_closed : (p.respond sockfd writes reply).closed = p.closed := by
  unfold respond exit; split <;> first | rfl | split <;> rfl

@[simp] theorem exit_status : p.exit.status = .exited := rfl

@[simp] theorem exit_handled : p.exit.handled = p.handled := rfl

@[simp] theorem accept_status : (p.accept sockfd).status = p.status := rfl

@[simp] theorem accept_handled : (p.accept sockfd).handled = p.handled := rfl

@[simp] theorem accept_openFds : (p.accept sockfd).openFds = sockfd :: p.openFds := rfl

@[simp] theorem close_handled : (p.close sockfd).handled = p.handled := rfl

@[simp] theorem close_openFds : (p.close sockfd).openFds = p.openFds.erase sockfd := rfl

@[simp] theorem close_status : (p.close sockfd).status = p.status := rfl

end Process

/-- A request leaves the process running exactly when it does not halt it. -/
theorem Outside.respond_status {o : Outside} {p : Process} {sockfd : ℤ} (hrun : p.status = .running) :
    decide ((p.respond sockfd (o.writes sockfd) (o.reply sockfd)).status ≠ .running) =
      o.halts sockfd := by
  unfold Outside.halts Process.respond Process.exit
  cases o.reply sockfd with
  | echo data => cases o.writes sockfd <;> simp [hrun]
  | _ => simp [hrun]

theorem Outside.halts_of_drops {o : Outside} {sockfd : ℤ} (h : o.drops sockfd = true) :
    o.halts sockfd = false := by
  simp only [Outside.drops, decide_eq_true_eq] at h
  rw [Outside.halts, h]

/-! ### The clients among the descriptors -/

/-- The clients are open, distinct and above the listener, and below the listener nothing is free. -/
structure Tracked (listenfd : ℤ) (openFds clients : List ℤ) : Prop where
  below : ∀ fd, 0 ≤ fd → fd < listenfd → fd ∈ openFds
  listen : listenfd ∈ openFds
  client : ∀ fd ∈ clients, fd ∈ openFds ∧ listenfd < fd
  nodup : clients.Nodup

theorem tracked_start (inherited : List ℤ) :
    Tracked (lowestFree inherited) (Process.start inherited).openFds [] where
  below _ h0 hlt := List.mem_cons_of_mem _ (mem_of_lt_lowestFree h0 hlt)
  listen := List.mem_cons_self ..
  client := by simp
  nodup := List.nodup_nil

theorem Tracked.lt_freeFd {listenfd : ℤ} {openFds clients : List ℤ}
    (h : Tracked listenfd openFds clients) (wanted : ℤ) : listenfd < freeFd openFds wanted := by
  have hnew := freeFd_not_mem openFds wanted
  by_contra hle
  rcases lt_or_eq_of_le (not_lt.mp hle) with hlt | heq
  · exact hnew (h.below _ (freeFd_nonneg openFds wanted) hlt)
  · exact hnew (heq ▸ h.listen)

theorem Tracked.accept {listenfd : ℤ} {openFds clients : List ℤ}
    (h : Tracked listenfd openFds clients) (wanted : ℤ) :
    Tracked listenfd (freeFd openFds wanted :: openFds) (clients ++ [freeFd openFds wanted]) where
  below fd h0 hlt := List.mem_cons_of_mem _ (h.below fd h0 hlt)
  listen := List.mem_cons_of_mem _ h.listen
  client fd hfd := by
    rcases List.mem_append.mp hfd with hfd | hfd
    · exact ⟨List.mem_cons_of_mem _ (h.client fd hfd).1, (h.client fd hfd).2⟩
    · rw [List.mem_singleton.mp hfd]
      exact ⟨List.mem_cons_self .., h.lt_freeFd wanted⟩
  nodup := by
    refine List.nodup_append.mpr ⟨h.nodup, List.nodup_singleton _, ?_⟩
    intro fd hfd new hnew heq
    rw [List.mem_singleton.mp hnew] at heq
    exact freeFd_not_mem openFds wanted (heq ▸ (h.client fd hfd).1)

theorem Tracked.close {listenfd fd : ℤ} {openFds clients : List ℤ}
    (h : Tracked listenfd openFds clients) (hfd : fd ∈ clients) :
    Tracked listenfd (openFds.erase fd) (clients.erase fd) where
  below fd' h0 hlt := by
    have hgt := (h.client fd hfd).2
    exact (List.mem_erase_of_ne (by omega)).mpr (h.below fd' h0 hlt)
  listen := by
    have hgt := (h.client fd hfd).2
    exact (List.mem_erase_of_ne (by omega)).mpr h.listen
  client fd' hfd' := by
    obtain ⟨hne, hmem⟩ := h.nodup.mem_erase_iff.mp hfd'
    exact ⟨(List.mem_erase_of_ne hne).mpr (h.client fd' hmem).1, (h.client fd' hmem).2⟩
  nodup := h.nodup.erase fd

/-! ### Reads that end in the buffer -/

/-- The chunk leaves room for a terminator, or brings one along. -/
def Terminated (chunk : Option Chunk) : Prop :=
  ∀ c, chunk = some c → c.1.length < 1024 ∨ 0 ∈ c.1

theorem cString_buff {c : Chunk} (h : c.1.length < 1024 ∨ 0 ∈ c.1) (stack : List UInt8) :
    cString ((buff c).1 ++ stack) = cString (buff c).1 := by
  have h0 : (0 : UInt8) ∈ (buff c).1 := by
    rcases h with hlen | hmem
    · refine List.mem_append_right _ (List.mem_replicate.mpr ⟨?_, rfl⟩)
      omega
    · exact List.mem_append_left _ hmem
  exact cString_append_of_mem h0 stack

/-- Such a read is answered without looking behind the buffer. -/
theorem reply_of_terminated {chunk : Option Chunk} (h : Terminated chunk) (stack : List UInt8) :
    reply chunk stack = reply chunk [] := by
  cases chunk with
  | none => rfl
  | some c => simp only [reply, cString_buff (h c rfl), List.append_nil]

end UnixIpc.Servers
