import UnixIpc.Fifo.EchoServed
import UnixIpc.Fifo.LongNames

/-! The simple FIFO client and server in an endless schedule in which both move again and again: do
    they get to their ends, the client with the greeting?

    They do just when the calls fall into one order. Up to the read of the name it is the client
    that has to be late: it opens the server's FIFO only when the server has it open, and then
    writes before the server reads. From there on it has to be early: it opens its own FIFO before
    the server does, and does not read between the server's open and the server's write.

        client   openServer  createFifo  write │ openFifo          │             read
        server   read ·······················  │ read  ·········   │ openFile  write   -/

namespace UnixIpc.Fifo.Simple
open UnixIpc.Bytes UnixIpc.Run

def Action.ok : Action → Bool
  | .server _ ok | .client _ ok => ok

def Action.By : Party → Action → Prop
  | .server, act => ∃ behind ok, act = .server behind ok
  | .client, act => ∃ behind ok, act = .client behind ok

/-- Over the zeroed buffer a name is a string, unless it fills the buffer. -/
theorem text_name {name : List UInt8} {buff : Buffer} (hcopy : copyInto zeroBuffer 0 name = some buff)
    (hfit : name.length ≤ 1023) (h0 : 0 ∉ name) (behind : List UInt8) : text buff behind = name := by
  obtain ⟨k, hk⟩ : ∃ k, 1024 - name.length = k + 1 := ⟨1023 - name.length, by omega⟩
  have hbytes : ∀ b ∈ name, decide (b ≠ 0) = true := by
    intro b hb
    exact decide_eq_true (ne_of_mem_of_not_mem hb h0)
  rw [text, copyInto_zeroBuffer hcopy, hk, List.replicate_succ, List.append_assoc, List.cons_append,
    List.takeWhile_append_of_pos hbytes, List.takeWhile_cons_of_neg (by simp), List.append_nil]

/-- The calls left. -/
def Server.callsLeft (s : Server) : ℕ :=
  match s.pc with
  | .createFifo => 8
  | .openFifo => 7
  | .read => 6
  | .openFile _ => 5
  | .write => 4
  | .closeFifo => 3
  | .closeRead => 2
  | .closeWrite => 1
  | .exited | .killed | .threw _ => 0

def Client.callsLeft (c : Client) : ℕ :=
  match c.pc with
  | .openServer => 8
  | .createFifo => 7
  | .write => 6
  | .openFifo => 5
  | .read => 4
  | .closeFifo => 3
  | .closeRead => 2
  | .closeWrite => 1
  | .exited | .killed | .undefined | .threw _ => 0

namespace Pair

def callsLeft (p : Pair) : ℕ := p.server.callsLeft + p.client.callsLeft

/-- STEP: a call of the server takes it on, unless it polls in vain or is gone. -/
theorem serverStep_pays (p : Pair) (behind : List UInt8) (ok : Bool) :
    p.serverStep behind ok = p ∨ (p.serverStep behind ok).callsLeft < p.callsLeft := by
  rcases hpc : p.server.pc <;> simp only [serverStep, hpc]
  case createFifo =>
    split <;> exact .inr (by simp [callsLeft, Server.callsLeft, hpc])
  case read =>
    cases readFifo p.publicQueue p.client.writes with
    | ended => exact .inl rfl
    | failed | frame =>
      exact .inr (by simp [readFrom, ReadResult.size, callsLeft, Server.callsLeft, hpc])
  case openFile =>
    split <;> exact .inr (by simp [callsLeft, Server.callsLeft, hpc])
  case write =>
    simp only [greet]
    split
    · exact .inr (by simp [callsLeft, Server.callsLeft, hpc])
    · split <;> exact .inr (by simp [callsLeft, Server.callsLeft, hpc])
  case exited | killed | threw => exact .inl trivial
  all_goals exact .inr (by simp [callsLeft, Server.callsLeft, hpc])

/-- STEP: and so does a call of the client. -/
theorem clientStep_pays (p : Pair) (behind : List UInt8) (ok : Bool) :
    p.clientStep behind ok = p ∨ (p.clientStep behind ok).callsLeft < p.callsLeft := by
  rcases hpc : p.client.pc <;> simp only [clientStep, hpc]
  case openServer | createFifo =>
    split <;> exact .inr (by simp [callsLeft, Client.callsLeft, hpc])
  case write =>
    simp only [sendName]
    split
    · exact .inr (by simp [callsLeft, Client.callsLeft, hpc])
    · split <;> exact .inr (by simp [callsLeft, Client.callsLeft, hpc])
  case read =>
    cases readFifo p.privateQueue (p.server.writes && p.server.opened = some p.client.name) with
    | ended => exact .inl rfl
    | failed | frame =>
      exact .inr (by simp [readFrom, ReadResult.size, callsLeft, Client.callsLeft, hpc])
  case exited | killed | undefined | threw => exact .inl trivial
  all_goals exact .inr (by simp [callsLeft, Client.callsLeft, hpc])

theorem pays : Pays next (fun _ => True) callsLeft where
  keeps _ _ _ := trivial
  pays := by
    rintro p (⟨behind, ok⟩ | ⟨behind, ok⟩) _
    · exact p.serverStep_pays behind ok
    · exact p.clientStep_pays behind ok

/-- Both processes are at the end of main, and the client has printed the greeting. -/
structure Done (p : Pair) : Prop where
  server : p.server.pc = .exited
  client : p.client.pc = .exited
  printed : p.client.printed = some greeting

/-- The order of the calls. The server does not read while the client has its FIFO open and has not
    written; it opens the client's FIFO after the client. The client opens the server's FIFO after
    the server, and does not read between the server's open and its write. -/
def InOrder (p : Pair) : Action → Prop
  | .server _ _ => (p.server.pc = .read → p.client.writes = true → p.publicQueue ≠ []) ∧
      ∀ name, p.server.pc = .openFile name → p.client.pc ≠ .openFifo
  | .client _ _ => (p.client.pc = .openServer → p.server.pc = .read) ∧
      (p.client.pc = .read → p.server.pc ≠ .write)

/-- Two names that the calls can work with: mkfifo takes them, and the server's buffer holds the
    client's with its terminator. -/
structure Fit (p : Pair) : Prop where
  name : p.client.name ≠ []
  fifoName : p.server.fifoName ≠ []
  differ : p.client.name ≠ p.server.fifoName
  fits : p.client.name.length ≤ 1023
  nulFree : 0 ∉ p.client.name

/-- The stages of a run in order. -/
inductive Course (p : Pair) : Prop
  | apart (hs : p.server.pc = .createFifo ∨ p.server.pc = .openFifo ∨ p.server.pc = .read)
      (hc : p.client.pc = .openServer) (hopened : p.server.opened = none)
      (hpublic : p.publicQueue = []) (hprivate : p.privateQueue = [])
  | joined (hs : p.server.pc = .read) (hc : p.client.pc = .createFifo ∨ p.client.pc = .write)
      (hopened : p.server.opened = none) (hpublic : p.publicQueue = [])
      (hprivate : p.privateQueue = [])
  | sent {buff} (hs : p.server.pc = .read) (hc : p.client.pc = .openFifo ∨ p.client.pc = .read)
      (hopened : p.server.opened = none) (hpublic : p.publicQueue = [buff])
      (hname : ∀ behind, text buff behind = p.client.name) (hprivate : p.privateQueue = [])
  | named (hs : p.server.pc = .openFile p.client.name)
      (hc : p.client.pc = .openFifo ∨ p.client.pc = .read) (hopened : p.server.opened = none)
      (hprivate : p.privateQueue = [])
  | opened (hs : p.server.pc = .write) (hc : p.client.pc = .read)
      (hopened : p.server.opened = some p.client.name) (hprivate : p.privateQueue = [])
  | greeted (hs : p.server.pc.Leaving) (hc : p.client.pc = .read)
      (hprivate : p.privateQueue = [greetingFrame])
  | finished (hs : p.server.pc.Leaving) (hc : p.client.pc.Leaving)
      (hprinted : p.client.printed = some greeting)

/-! ### What a call leaves alone -/

theorem serverStep_client (p : Pair) (behind : List UInt8) (ok : Bool) :
    (p.serverStep behind ok).client = p.client ∧
      (p.serverStep behind ok).server.fifoName = p.server.fifoName := by
  unfold serverStep greet
  repeat' split
  all_goals exact ⟨rfl, rfl⟩

theorem clientStep_server (p : Pair) (behind : List UInt8) (ok : Bool) :
    (p.clientStep behind ok).server = p.server ∧
      (p.clientStep behind ok).client.name = p.client.name := by
  simp only [clientStep, sendName]
  repeat' split
  all_goals exact ⟨rfl, rfl⟩

theorem Fit.next {p : Pair} (h : p.Fit) (a : Action) : (p.next a).Fit := by
  obtain ⟨hname, hfifo⟩ : (p.next a).client.name = p.client.name ∧
      (p.next a).server.fifoName = p.server.fifoName := by
    cases a with
    | server behind ok =>
      obtain ⟨hclient, hfifo⟩ := p.serverStep_client behind ok
      exact ⟨congrArg Client.name hclient, hfifo⟩
    | client behind ok =>
      obtain ⟨hserver, hname⟩ := p.clientStep_server behind ok
      exact ⟨hname, congrArg Server.fifoName hserver⟩
  exact ⟨hname ▸ h.name, hfifo ▸ h.fifoName, hname ▸ hfifo ▸ h.differ, hname ▸ h.fits,
    hname ▸ h.nulFree⟩

/-! ### Calls in order -/

/-- STEP: a call of the server in order. -/
theorem Course.server {p : Pair} (h : p.Course) (hfit : p.Fit) {behind : List UInt8}
    (horder : p.InOrder (.server behind true)) : (p.serverStep behind true).Course := by
  cases h with
  | apart hs hc hopened hpublic hprivate =>
    rcases hs with hs | hs | hs
    · simp only [serverStep, hs, true_and, ne_eq, hfit.fifoName, not_false_eq_true, if_true]
      exact .apart (.inr (.inl rfl)) hc hopened hpublic hprivate
    · simp only [serverStep, hs]
      exact .apart (.inr (.inr rfl)) hc hopened hpublic hprivate
    · have hwriter : p.client.writes = false := by simp [Client.writes, hc]
      simp only [serverStep, hs, hpublic, readFifo, hwriter, Bool.false_eq_true, if_false,
        readFrom_ended]
      exact .apart (.inr (.inr hs)) hc hopened hpublic hprivate
  | joined hs hc hopened hpublic hprivate =>
    have hwriter : p.client.writes = true := by
      rcases hc with hc | hc <;> simp [Client.writes, hc]
    exact absurd hpublic (horder.1 hs hwriter)
  | sent hs hc hopened hpublic hname hprivate =>
    simp only [serverStep, hs, hpublic, readFifo, readFrom_frame, hname]
    exact .named rfl hc hopened hprivate
  | named hs hc hopened hprivate =>
    have hread : p.client.pc = .read := hc.resolve_left (horder.2 _ hs)
    have hcan : p.canOpen p.client.name = true := by
      simp [canOpen, Client.linked, Client.reads, hread]
    simp only [serverStep, hs, hcan, if_true]
    exact .opened rfl hread rfl hprivate
  | opened hs hc hopened hprivate =>
    have hown : p.server.opened ≠ some p.server.fifoName := by
      rw [hopened]
      simpa using hfit.differ
    have hreads : p.client.reads = true := by simp [Client.reads, hc]
    simp only [serverStep, hs, greet, if_neg hown, if_pos hreads]
    exact .greeted trivial hc (by simp [hprivate])
  | greeted hs hc hprivate =>
    obtain ⟨pc, hleaving, hstep⟩ := serverStep_leaving hs behind true
    rw [hstep]
    exact .greeted hleaving hc hprivate
  | finished hs hc hprinted =>
    obtain ⟨pc, hleaving, hstep⟩ := serverStep_leaving hs behind true
    rw [hstep]
    exact .finished hleaving hc hprinted

/-- A client that waits for the greeting reads 0 as long as its FIFO has no writer. -/
theorem clientStep_waits {p : Pair} (hc : p.client.pc = .openFifo ∨ p.client.pc = .read)
    (hopened : p.server.opened = none) (hprivate : p.privateQueue = []) (behind : List UInt8)
    (ok : Bool) : p.clientStep behind ok = { p with client := { p.client with pc := .read } } := by
  rcases hc with hpc | hpc
  · simp only [clientStep, hpc]
  · have hread : readFifo p.privateQueue
        (p.server.writes && p.server.opened = some p.client.name) = .ended := by
      simp [readFifo, hprivate, hopened]
    simp only [clientStep, hpc, hread, readFrom_ended]
    rw [← hpc]

/-- STEP: a call of the client in order. -/
theorem Course.client {p : Pair} (h : p.Course) (hfit : p.Fit) {behind : List UInt8}
    (horder : p.InOrder (.client behind true)) : (p.clientStep behind true).Course := by
  cases h with
  | apart _ hc hopened hpublic hprivate =>
    have hs : p.server.pc = .read := horder.1 hc
    have hopens : p.server.linked = true ∧ p.server.reads = true := by
      simp [Server.linked, Server.reads, hs]
    simp only [clientStep, hc, if_pos hopens]
    exact .joined hs (.inl rfl) hopened hpublic hprivate
  | joined hs hc hopened hpublic hprivate =>
    rcases hc with hc | hc
    · have hmakes : True ∧ p.client.name ≠ [] ∧ p.client.name ≠ p.server.fifoName :=
        ⟨trivial, hfit.name, hfit.differ⟩
      simp only [clientStep, hc, if_pos hmakes]
      exact .joined hs (.inr rfl) hopened hpublic hprivate
    · have hreads : p.server.reads = true := by simp [Server.reads, hs]
      obtain ⟨buff, hcopy⟩ := copyInto_isSome zeroBuffer 0 p.client.name
        (by have := hfit.fits; omega)
      simp only [clientStep, hc, Pair.sendName, hcopy, if_pos hreads]
      exact .sent hs (.inl rfl) hopened (by simp [hpublic])
        (text_name hcopy hfit.fits hfit.nulFree) hprivate
  | sent hs hc hopened hpublic hname hprivate =>
    rw [clientStep_waits hc hopened hprivate]
    exact .sent hs (.inr rfl) hopened hpublic hname hprivate
  | named hs hc hopened hprivate =>
    rw [clientStep_waits hc hopened hprivate]
    exact .named hs (.inr rfl) hopened hprivate
  | opened hs hc => exact absurd hs (horder.2 hc)
  | greeted hs hc hprivate =>
    simp only [clientStep, hc, hprivate, readFifo, readFrom_frame]
    exact .finished hs trivial (congrArg some (text_greetingFrame behind))
  | finished hs hc hprinted =>
    obtain ⟨pc, hleaving, hstep⟩ := clientStep_leaving hc behind true
    rw [hstep]
    exact .finished hs hleaving hprinted

/-- The last stage is the only one in which neither of the two moves. -/
theorem Course.rests {p : Pair} (h : p.Course) (hfit : p.Fit) {behind behind' : List UInt8}
    (hserver : p.serverStep behind true = p) (hclient : p.clientStep behind' true = p) : p.Done := by
  have hs' : (p.serverStep behind true).server.pc = p.server.pc := by rw [hserver]
  have hc' : (p.clientStep behind' true).client.pc = p.client.pc := by rw [hclient]
  cases h with
  | apart hs hc =>
    rcases hs with hs | hs | hs
    · simp [serverStep, hs, hfit.fifoName] at hs'
    · simp [serverStep, hs] at hs'
    · simp [clientStep, hc, Server.linked, Server.reads, hs] at hc'
  | joined hs hc =>
    rcases hc with hc | hc
    · simp [clientStep, hc, hfit.name, hfit.differ] at hc'
    · have hreads : p.server.reads = true := by simp [Server.reads, hs]
      cases hcopy : copyInto zeroBuffer 0 p.client.name with
      | none => simp [clientStep, hc, sendName, hcopy] at hc'
      | some buff => simp [clientStep, hc, sendName, hcopy, hreads] at hc'
  | sent hs _ _ hpublic => simp [serverStep, hs, hpublic, readFifo, readFrom_frame] at hs'
  | named hs =>
    simp only [serverStep, hs] at hs'
    split at hs' <;> simp at hs'
  | opened hs =>
    simp only [serverStep, hs, greet] at hs'
    split at hs'
    · simp at hs'
    · split at hs' <;> simp at hs'
  | greeted _ hc hprivate => simp [clientStep, hc, hprivate, readFifo, readFrom_frame] at hc'
  | finished hs hc hprinted =>
    refine ⟨?_, ?_, hprinted⟩
    · rcases hpc : p.server.pc <;> rw [hpc] at hs <;> simp [serverStep, hpc] at hs'
      all_goals exact absurd hs id
    · rcases hpc : p.client.pc <;> rw [hpc] at hc <;> simp [clientStep, hpc] at hc'
      all_goals exact absurd hc id

/-- Behind the end nothing moves. -/
theorem Done.next {p : Pair} (h : p.Done) (a : Action) : p.next a = p := by
  cases a with
  | server => simp [Pair.next, serverStep, h.server]
  | client => simp [Pair.next, clientStep, h.client]

/-! ### Calls out of order -/

/-- The two have missed each other: a process has been stopped, or the server is about to open the
    file of no name, or the client has printed an empty text. -/
inductive Missed (p : Pair) : Prop
  | server (h : ¬ p.server.pc.Going)
  | client (h : ∃ failure, p.client.pc = .threw failure)
  | name (h : p.server.pc = .openFile [])
  | text (h : p.client.printed = some []) (hc : p.client.pc.Leaving)

theorem Missed.not_done {p : Pair} (h : p.Missed) : ¬ p.Done := by
  intro hdone
  cases h with
  | server h =>
    rw [hdone.server] at h
    exact h trivial
  | client h =>
    obtain ⟨failure, h⟩ := h
    exact absurd (h.symm.trans hdone.client) (by simp)
  | name h => exact absurd (h.symm.trans hdone.server) (by simp)
  | text h =>
    have hnil := Option.some.inj (h.symm.trans hdone.printed)
    exact greeting_ne_nil hnil.symm

/-- STEP: nothing brings them together again. -/
theorem Missed.next {p : Pair} (h : p.Missed) (hfit : p.Fit) (a : Action) : (p.next a).Missed := by
  cases a with
  | server behind ok =>
    obtain ⟨hclient, _⟩ := p.serverStep_client behind ok
    cases h with
    | server h =>
      refine .server ?_
      rcases hpc : p.server.pc <;> rw [hpc] at h <;>
        first | exact absurd trivial h | simp [Pair.next, serverStep, hpc, Server.Pc.Going]
    | client h => exact .client (hclient ▸ h)
    | name h =>
      have hcan : p.canOpen [] = false := by simp [canOpen, hfit.name.symm, hfit.fifoName.symm]
      refine .server ?_
      simp [Pair.next, serverStep, h, hcan, Server.Pc.Going]
    | text h hc => exact .text (hclient ▸ h) (hclient ▸ hc)
  | client behind ok =>
    obtain ⟨hserver, _⟩ := p.clientStep_server behind ok
    cases h with
    | server h => exact .server (hserver ▸ h)
    | client h =>
      obtain ⟨failure, h⟩ := h
      exact .client ⟨failure, by simp [Pair.next, clientStep, h]⟩
    | name h => exact .name (hserver ▸ h)
    | text h hc =>
      obtain ⟨pc, hleaving, hstep⟩ := clientStep_leaving hc behind ok
      rw [Pair.next, hstep]
      exact .text h hleaving

/-- STEP: a call out of order is a miss. -/
theorem Course.missed {p : Pair} (h : p.Course) (hfit : p.Fit) {a : Action} (hlate : ¬ p.InOrder a) :
    (p.next a).Missed := by
  cases a with
  | server behind ok =>
    simp only [InOrder, not_and_or, not_forall, not_not] at hlate
    rcases hlate with ⟨hs, hwriter, hpublic⟩ | ⟨name, hs, hc⟩
    · refine .name ?_
      simp [Pair.next, serverStep, hs, hpublic, readFifo, hwriter, readFrom_failed, text_zero]
    · have hname : name = p.client.name := by
        cases h with
        | named hs' => simpa [hs] using hs'
        | apart hs' => simp [hs] at hs'
        | joined hs' | sent hs' | opened hs' => simp [hs] at hs'
        | greeted hs' | finished hs' => simp [hs, Server.Pc.Leaving] at hs'
      have hcan : p.canOpen name = false := by
        simp [canOpen, hname, Client.reads, hc, hfit.differ]
      refine .server ?_
      simp [Pair.next, serverStep, hs, hcan, Server.Pc.Going]
  | client behind ok =>
    simp only [InOrder, not_and_or, not_forall, not_not] at hlate
    rcases hlate with ⟨hc, hs⟩ | ⟨hc, hs⟩
    · have hshut : ¬ (p.server.linked = true ∧ p.server.reads = true) := by
        cases h with
        | apart hs' =>
          rcases hs' with hs' | hs' | hs'
          · simp [Server.linked, hs']
          · simp [Server.reads, hs']
          · exact absurd hs' hs
        | joined _ hc' | sent _ hc' | named _ hc' => simp [hc] at hc'
        | opened _ hc' | greeted _ hc' => simp [hc] at hc'
        | finished _ hc' => simp [hc, Client.Pc.Leaving] at hc'
      refine .client ⟨.openFile p.server.fifoName, ?_⟩
      simp only [Pair.next, clientStep, hc, if_neg hshut]
    · cases h with
      | opened _ _ hopened hprivate =>
        refine .text ?_ ?_ <;>
          simp [Pair.next, clientStep, hc, hprivate, readFifo, hopened, Server.writes, hs,
            readFrom_failed, text_zero, Client.Pc.Leaving]
      | apart hs' => simp [hs] at hs'
      | joined hs' | sent hs' | named hs' => simp [hs] at hs'
      | greeted hs' | finished hs' => simp [hs, Server.Pc.Leaving] at hs'

/-- CORRECT: in every endless schedule in which mkfifo succeeds and both processes move again and
    again, the client prints the greeting and both processes get to the end of main if and only if
    every call is made in order. -/
theorem done_iff (fifoName name : List UInt8) (hfit : (start fifoName name).Fit) (acts : ℕ → Action)
    (hok : ∀ n, (acts n).ok) (hserver : ∀ n, ∃ m, n ≤ m ∧ ∃ behind ok, acts m = .server behind ok)
    (hclient : ∀ n, ∃ m, n ≤ m ∧ ∃ behind ok, acts m = .client behind ok) :
    (∃ n, (after next (start fifoName name) acts n).Done) ↔
      ∀ n, (after next (start fifoName name) acts n).InOrder (acts n) := by
  refine pays.ends_well_iff (G := fun p => p.Fit ∧ p.Course) (B := fun p => p.Fit ∧ p.Missed)
    (A := fun a => a.ok) (K := Action.By) ?_ ?_ ?_ ?_ ?_ ?_ trivial
    ⟨hfit, .apart (.inl rfl) rfl rfl rfl rfl⟩ acts hok ?_
  · rintro p (⟨behind, ok⟩ | ⟨behind, ok⟩) ⟨hp, h⟩ hsucceeds horder
    · obtain rfl : ok = true := hsucceeds
      exact ⟨hp.next _, h.server hp horder⟩
    · obtain rfl : ok = true := hsucceeds
      exact ⟨hp.next _, h.client hp horder⟩
  · rintro p a ⟨hp, h⟩ - hlate
    exact ⟨hp.next a, h.missed hp hlate⟩
  · rintro p a ⟨hp, h⟩
    exact ⟨hp.next a, h.next hp a⟩
  · rintro p ⟨-, h⟩
    exact h.not_done
  · intro p a h
    exact h.next a
  · rintro p - ⟨hp, h⟩ hidle
    obtain ⟨_, hok, ⟨behind, ok, rfl⟩, hs⟩ := hidle .server
    obtain ⟨_, hok', ⟨behind', ok', rfl⟩, hc⟩ := hidle .client
    obtain rfl : ok = true := hok
    obtain rfl : ok' = true := hok'
    exact h.rests hp hs hc
  · rintro (_ | _) n
    · exact hserver n
    · exact hclient n

/-- The server up to its read, the client up to its open, and then by turns. -/
def byTurns (n : ℕ) : Action :=
  if n < 2 then .server [] true
  else if n < 6 then .client [] true
  else if n % 2 = 0 then .server [] true
  else .client [] true

theorem done_iff_byTurns :
    (∃ n, (after next (start (ascii "s") (ascii "c")) byTurns n).Done) ↔
      ∀ n, (after next (start (ascii "s") (ascii "c")) byTurns n).InOrder (byTurns n) := by
  refine done_iff (ascii "s") (ascii "c") ⟨by decide, by decide, by decide, by decide, by decide⟩
    byTurns ?_ ?_ ?_
  · intro n
    unfold byTurns
    repeat' split
    all_goals rfl
  · intro n
    refine ⟨2 * n + 6, by omega, [], true, ?_⟩
    rw [byTurns, if_neg (by omega), if_neg (by omega), if_pos (by omega)]
  · intro n
    refine ⟨2 * n + 7, by omega, [], true, ?_⟩
    rw [byTurns, if_neg (by omega), if_neg (by omega), if_neg (by omega)]

end Pair
end UnixIpc.Fifo.Simple
