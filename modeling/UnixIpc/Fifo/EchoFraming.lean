import UnixIpc.Lib.Pipe
import UnixIpc.Lib.Run
import UnixIpc.Fifo.EchoHandshake

/-! The public FIFO of the echo pair, byte by byte. Any number of clients write into it, the server
    reads from it in `Accept` and in `CreateNewSession`, and nothing between two frames says where
    one ends. What keeps them apart is that every `WriteTo` puts in `buffer.size()` bytes at once
    and every `ReadFrom` asks for `buffer.size()` bytes.

        WriteTo(i, b) ──1024──▶ │ … │ b₂ │ b₁ │ ──1024──▶ ReadFrom ──▶ Accept, CreateNewSession

    `whole_frames` says that frames come out as they went in. The system of clients and server, where
    the FIFO is a queue of frames, is carried by this one: what its runs do to the FIFO (`fifoCalls`)
    leaves that queue here, byte for byte (`System.carried`). -/

namespace UnixIpc.Fifo
open UnixIpc.Bytes UnixIpc.Pipe UnixIpc.Run

/-- The bytes in the FIFO. Beside them: the frames written and the frames `ReadFrom` has handed
    back, in order. -/
structure PublicFifo where
  pipe : List UInt8
  sent : List Buffer
  handed : List Buffer

/-- A call on the FIFO: a client's `WriteTo`, with whether write(2) takes the frame (at most
    `PIPE_BUF` bytes go in whole or not at all), or a round of the server's `ReadFrom`, with what
    its buffer holds and whether a writer is left. -/
inductive FifoCall where
  | writeTo (client : ℕ) (buffer : Buffer) (taken : Bool)
  | readFrom (buffer : Buffer) (writable : Bool)

/-- The frame that a `WriteTo` has put into the FIFO. -/
def FifoCall.frame : FifoCall → Option Buffer
  | .writeTo _ buffer true => some buffer
  | _ => none

namespace PublicFifo

def start : PublicFifo := ⟨[], [], []⟩

/-- One round of the loop of `ReadFrom`, for a read of these bytes; `none` when it goes round
    again. -/
def round (data : List UInt8) (buffer : Buffer) : Option (Except Failure Buffer) :=
  if data.length < 0 then some (.error .read)
  else if data.length = 0 then none
  else some (.ok ((copyInto buffer 0 data).getD buffer))

/-- `WriteTo(serverFd, buffer)`; a write that is not taken throws. -/
def writeTo (f : PublicFifo) (buffer : Buffer) (taken : Bool) : PublicFifo :=
  if taken then { f with pipe := f.pipe ++ buffer.1, sent := f.sent ++ [buffer] } else f

/-- `read(fd, buffer.data(), buffer.size())` and what `ReadFrom` makes of it. -/
def readFrom (f : PublicFifo) (buffer : Buffer) (writable : Bool) : PublicFifo :=
  match Pipe.read 1024 writable f.pipe with
  | none => f
  | some data =>
    match round data buffer with
    | some (.ok frame) => { f with pipe := rest 1024 f.pipe, handed := f.handed ++ [frame] }
    | _ => { f with pipe := rest 1024 f.pipe }

def next (f : PublicFifo) : FifoCall → PublicFifo
  | .writeTo _ buffer taken => f.writeTo buffer taken
  | .readFrom buffer writable => f.readFrom buffer writable

/-- INVARIANT: what is written and not handed back is in the FIFO, in whole frames. -/
structure Framed (f : PublicFifo) (onWay : List Buffer) : Prop where
  sent : f.sent = f.handed ++ onWay
  holds : Holds 1024 f.pipe (onWay.map (·.1))

theorem framed_start : start.Framed [] := ⟨rfl, .empty⟩

/-- A full read replaces all of the buffer. -/
theorem round_frame (b buffer : Buffer) : round b.1 buffer = some (.ok b) := by
  have hfit : 0 + b.1.length ≤ 1024 := by rw [b.2]
  have hcopy : copyInto buffer 0 b.1 = some b := by
    obtain ⟨b', hb'⟩ := copyInto_isSome buffer 0 b.1 hfit
    have hval := (copyInto_val hb').2
    have hdrop : buffer.1.drop (0 + b.1.length) = [] := by
      rw [List.drop_eq_nil_iff, buffer.2, b.2]
    rw [hdrop, List.take_zero, List.nil_append, List.append_nil] at hval
    rw [hb', Subtype.ext hval]
  rw [round, b.2, hcopy]
  rfl

theorem Framed.writeTo {f : PublicFifo} {onWay : List Buffer} (h : f.Framed onWay)
    (buffer : Buffer) : (f.writeTo buffer true).Framed (onWay ++ [buffer]) where
  sent := by
    change f.sent ++ [buffer] = f.handed ++ (onWay ++ [buffer])
    rw [h.sent, List.append_assoc]
  holds := by
    rw [List.map_append, List.map_singleton]
    exact h.holds.write buffer.2

/-- With a frame on the way, `ReadFrom` hands it back, whatever its buffer held. -/
theorem Framed.readFrom_eq {f : PublicFifo} {b : Buffer} {onWay : List Buffer}
    (h : f.Framed (b :: onWay)) (buffer : Buffer) (writable : Bool) :
    f.readFrom buffer writable =
      { f with pipe := rest 1024 f.pipe, handed := f.handed ++ [b] } := by
  have hread : Pipe.read 1024 writable f.pipe = some b.1 := h.holds.read_eq (by omega) writable
  rw [readFrom, hread]
  simp only [round_frame]

theorem Framed.readFrom {f : PublicFifo} {b : Buffer} {onWay : List Buffer}
    (h : f.Framed (b :: onWay)) (buffer : Buffer) (writable : Bool) :
    (f.readFrom buffer writable).Framed onWay where
  sent := by
    rw [h.readFrom_eq, h.sent]
    simp
  holds := by
    rw [h.readFrom_eq]
    exact h.holds.rest

/-- With nothing on the way it blocks, or sleeps. -/
theorem Framed.readFrom_nil {f : PublicFifo} (h : f.Framed []) (buffer : Buffer)
    (writable : Bool) : f.readFrom buffer writable = f := by
  obtain ⟨pipe, sent, handed⟩ := f
  obtain rfl : pipe = [] := h.holds.eq_nil
  rw [PublicFifo.readFrom, read_nil]
  cases writable with
  | true => rfl
  | false => rfl

/-- STEP: every call keeps the frames whole. -/
theorem Framed.next {f : PublicFifo} {onWay : List Buffer} (h : f.Framed onWay) (call : FifoCall) :
    ∃ onWay', (f.next call).Framed onWay' := by
  cases call with
  | writeTo client buffer taken =>
    cases taken with
    | true => exact ⟨onWay ++ [buffer], h.writeTo buffer⟩
    | false => exact ⟨onWay, h⟩
  | readFrom buffer writable =>
    cases onWay with
    | nil =>
      refine ⟨[], ?_⟩
      rw [PublicFifo.next, h.readFrom_nil]
      exact h
    | cons b onWay => exact ⟨onWay, h.readFrom buffer writable⟩

theorem framed_run (calls : List FifoCall) : ∃ onWay, (calls.foldl next start).Framed onWay :=
  foldl_inv (P := fun f => ∃ onWay, f.Framed onWay) (fun _ call ⟨_, h⟩ => h.next call) calls start
    ⟨[], framed_start⟩

/-- STEP: a call has put its frame into the FIFO behind those before it. -/
theorem next_sent (f : PublicFifo) (call : FifoCall) :
    (f.next call).sent = f.sent ++ call.frame.toList := by
  rcases call with ⟨client, buffer, _ | _⟩ | ⟨buffer, writable⟩
  · exact (List.append_nil _).symm
  · rfl
  · refine Eq.trans ?_ (List.append_nil _).symm
    rw [next, PublicFifo.readFrom]
    split
    · rfl
    · split <;> rfl

/-- RUN: what was sent are the frames of the calls of `WriteTo`, in their order. -/
theorem sent_run (calls : List FifoCall) (f : PublicFifo) :
    (calls.foldl next f).sent = f.sent ++ calls.filterMap FifoCall.frame := by
  induction calls generalizing f with
  | nil => exact (List.append_nil _).symm
  | cons call calls ih =>
    rw [List.foldl_cons, ih, next_sent, List.append_assoc]
    congr 1
    cases hframe : call.frame with
    | none => rw [List.filterMap_cons_none hframe]; rfl
    | some b => rw [List.filterMap_cons_some hframe]; rfl

/-- CORRECT: after any calls in any order, what `ReadFrom` has handed back is a prefix of the frames
    that the calls of `WriteTo` have written, the rest of them is in the FIFO byte for byte, and the
    next `ReadFrom` hands back the next frame, whatever is in its buffer. -/
theorem whole_frames (calls : List FifoCall) :
    let f := calls.foldl next start
    f.sent = calls.filterMap FifoCall.frame ∧ f.handed <+: f.sent ∧
      f.pipe = ((f.sent.drop f.handed.length).map (·.1)).flatten ∧
      ∀ b, f.sent[f.handed.length]? = some b → ∀ buffer writable,
        (f.readFrom buffer writable).handed = f.handed ++ [b] := by
  intro f
  obtain ⟨onWay, h⟩ := framed_run calls
  change f.Framed onWay at h
  have hdrop : f.sent.drop f.handed.length = onWay := by rw [h.sent, List.drop_left]
  refine ⟨sent_run calls start, ⟨onWay, h.sent.symm⟩, hdrop ▸ h.holds.content, ?_⟩
  intro b hb buffer writable
  rw [h.sent, List.getElem?_append_right le_rfl, Nat.sub_self] at hb
  cases onWay with
  | nil => exact absurd hb (by simp)
  | cons b' onWay =>
    obtain rfl : b' = b := by simpa using hb
    rw [h.readFrom_eq]

end PublicFifo

/-! ### The system's queue -/

/-- The frame of the client's next call, where that is `WriteTo(serverFd, buffer)`. -/
def Client.writes (c : Client) : Option Buffer :=
  match c.pc with
  | .connect => Client.serialize ⟨c.clientFd, .newConnection, c.name⟩ zeroBuffer
  | .message => Client.serialize ⟨c.clientFd, .message, hello⟩ zeroBuffer
  | .close => Client.serialize ⟨c.clientFd, .connectionClose, []⟩ zeroBuffer
  | _ => none

namespace System
open PublicFifo

/-- What an action calls on the public FIFO: a read of the server in its loop, a client's write. -/
def fifoCall (sys : System) : Action → Option FifoCall
  | .server _ =>
    match sys.server with
    | .running s => if s.InLoop ∧ s.attends then some (.readFrom zeroBuffer true) else none
    | _ => none
  | .client i _ _ =>
    (sys.clients[i]?.bind Client.writes).map fun buffer =>
      .writeTo i buffer (sys.serverHolds .publicFifo)

/-- The calls on the public FIFO in a run. -/
def fifoCalls : System → List Action → List FifoCall
  | _, [] => []
  | sys, a :: as => (sys.fifoCall a).toList ++ fifoCalls (sys.next a) as

variable {sys sys' : System} {f : PublicFifo}

theorem send_queue (sys : System) (i : ℕ) (c : Client) (package : Client.Package)
    (next : Client.Pc) : (sys.send i c package next).publicQueue = sys.publicQueue ++
      if sys.serverHolds .publicFifo then (Client.serialize package zeroBuffer).toList else [] := by
  unfold send Client.writeTo
  cases Client.serialize package zeroBuffer with
  | none => simp
  | some b => cases sys.serverHolds .publicFifo <;> simp

/-- What a client's call leaves in the public FIFO: the frame it writes, if the server reads. -/
theorem clientStep_queue {i : ℕ} {c : Client} {mem : Memory} {ok : Bool}
    (h : sys.clientStep i c mem ok = some sys') : sys'.publicQueue = sys.publicQueue ++
      if sys.serverHolds .publicFifo then c.writes.toList else [] := by
  unfold clientStep at h
  split at h
  case h_4 hpc | h_6 hpc | h_8 hpc =>
    rw [← Option.some.inj h, send_queue, Client.writes, hpc]
  case h_3 hpc =>
    rw [Client.writes, hpc, Option.toList_none, ite_self, List.append_nil]
    unfold openServer at h
    split at h
    · split at h
      · exact Option.some.inj h ▸ rfl
      · split at h
        · exact Option.some.inj h ▸ rfl
        · exact absurd h (by simp)
    · exact Option.some.inj h ▸ rfl
  case h_1 hpc | h_2 hpc | h_5 hpc | h_7 hpc | h_9 hpc | h_10 hpc | h_11 hpc =>
    rw [Client.writes, hpc, Option.toList_none, ite_self, List.append_nil]
    exact Option.some.inj h ▸ rfl
  all_goals exact absurd h (by simp)

/-- A client that blocks or is gone is at no write. -/
theorem writes_of_none {i : ℕ} {c : Client} {mem : Memory} {ok : Bool}
    (h : sys.clientStep i c mem ok = none) : c.writes = none := by
  unfold Client.writes
  split
  case h_1 hpc | h_2 hpc | h_3 hpc => simp [clientStep, hpc] at h
  case h_4 => rfl

/-- STEP: any call of the server. -/
theorem carried_server (h : f.Framed sys.publicQueue) (a : Answers) :
    ((sys.fifoCall (.server a)).toList.foldl PublicFifo.next f).Framed
      (sys.next (.server a)).publicQueue := by
  by_cases hreads : ∃ s, sys.server = .running s ∧ s.InLoop ∧ s.attends
  · obtain ⟨s, hproc, hloop, hfifo⟩ := hreads
    have hcall : sys.fifoCall (.server a) = some (.readFrom zeroBuffer true) := by
      simp only [fifoCall, hproc, hloop, hfifo, and_self, if_true]
    rw [hcall, Option.toList_some, List.foldl_cons, List.foldl_nil, PublicFifo.next, System.next]
    simp only [serverStep, hproc, serverRun, if_pos hloop, if_pos hfifo]
    cases hqueue : sys.publicQueue with
    | nil =>
      rw [hqueue] at h
      rw [h.readFrom_nil, Option.getD_none, hqueue]
      exact h
    | cons b rest =>
      rw [hqueue] at h
      exact h.readFrom zeroBuffer true
  · have hcall : sys.fifoCall (.server a) = none := by
      cases hproc : sys.server with
      | running s =>
        simp only [fifoCall, hproc]
        exact if_neg fun hs => hreads ⟨s, hproc, hs⟩
      | _ => simp only [fifoCall, hproc]
    rw [hcall, Option.toList_none, List.foldl_nil, System.next]
    cases hstep : sys.serverStep a with
    | none => exact h
    | some sys' =>
      rw [Option.getD_some]
      cases serverStep_cases hstep with
      | reads hproc hloop hfifo => exact absurd ⟨_, hproc, hloop, hfifo⟩ hreads
      | @calls s s' calls => exact (foldl_deliver calls sys).2.1.symm ▸ h
      | begins | misreads | leaves => exact h

/-- STEP: any call of a client. -/
theorem carried_client (h : f.Framed sys.publicQueue) (i : ℕ) (mem : Memory) (ok : Bool) :
    ((sys.fifoCall (.client i mem ok)).toList.foldl PublicFifo.next f).Framed
      (sys.next (.client i mem ok)).publicQueue := by
  rw [fifoCall, System.next]
  cases sys.clients[i]? with
  | none => exact h
  | some c =>
    simp only [Option.bind_some]
    cases hstep : sys.clientStep i c mem ok with
    | none =>
      rw [writes_of_none hstep]
      exact h
    | some sys' =>
      rw [Option.getD_some, clientStep_queue hstep]
      cases c.writes with
      | none =>
        rw [Option.toList_none, ite_self, List.append_nil]
        exact h
      | some b =>
        cases sys.serverHolds .publicFifo with
        | true => exact h.writeTo b
        | false =>
          rw [if_neg Bool.false_ne_true, List.append_nil]
          exact h

/-- SIMULATION: the calls that a run of the system makes on the FIFO of bytes leave there the queue of
    frames that the run ends with. -/
theorem carried (fifoName : List UInt8) (inherited : List ℤ) (clients : List Client)
    (as : List Action) :
    (((start fifoName inherited clients).fifoCalls as).foldl PublicFifo.next .start).Framed
      (as.foldl System.next (start fifoName inherited clients)).publicQueue := by
  have hrun : ∀ (as : List Action) (sys : System) (f : PublicFifo), f.Framed sys.publicQueue →
      ((sys.fifoCalls as).foldl PublicFifo.next f).Framed
        (as.foldl System.next sys).publicQueue := by
    intro as
    induction as with
    | nil => exact fun _ _ h => h
    | cons a as ih =>
      intro sys f h
      rw [fifoCalls, List.foldl_append, List.foldl_cons]
      refine ih (sys.next a) _ ?_
      cases a with
      | server a => exact carried_server h a
      | client i mem ok => exact carried_client h i mem ok
  exact hrun as _ _ framed_start

end System
end UnixIpc.Fifo
