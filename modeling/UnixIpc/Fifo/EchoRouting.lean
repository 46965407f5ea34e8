import UnixIpc.Fifo.EchoServer

/-! Whose frame goes where: the echo server fed with the interleaved conversations of any number of
    clients. A client is known by the name of its private FIFO, so "the descriptor opened for a
    client" is one that refers to that file.

    The server reads frames in pairs, the first in `Accept`, the second in `CreateNewSession`.
    A message that comes first in a pair is dropped, one that comes second goes to whoever opened
    the pair. `routed_iff` turns this into the exact condition on the order of frames. -/

namespace UnixIpc.Fifo
open UnixIpc.Bytes UnixIpc.Descriptors

/-- A frame in the public FIFO: which client wrote it and what it encoded. -/
structure Arrival extends Read where
  client : List UInt8
  sent : Client.Package
  encoded : ∃ prior, Client.serialize sent prior = some buffer
  named : sent.type = .newConnection → sent.data = client

namespace Arrival

/-- The frame decodes to the type and the data that were encoded. -/
def Decodes (a : Arrival) : Prop :=
  ∀ q : Server.Package, Server.deserialize q a.mem a.buffer =
    some { q with type := WireEnum.ofCode (WireEnum.code a.sent.type), data := a.sent.data }

/-- `Accept` gets through: the client's FIFO is opened and takes the greeting. -/
def Served (a : Arrival) : Prop := a.openOk = true ∧ a.taken

end Arrival

/-- The enumerators of the two programs correspond. -/
theorem wire_eq_iff (t : Client.PackageType) (u : Server.PackageType) :
    (WireEnum.ofCode (WireEnum.code t) : Server.PackageType) = u ↔
      t = WireEnum.ofCode (WireEnum.code u) := by
  constructor
  · rintro rfl
    rw [WireEnum.code_ofCode, WireEnum.ofCode_code]
  · rintro rfl
    rw [WireEnum.code_ofCode, WireEnum.ofCode_code]

def Call.isWrite : Call → Bool
  | .writeTo .. => true
  | _ => false

@[simp] theorem filter_writeTo (fd : ℤ) (buffer : Buffer) (taken : Option File) :
    [Call.writeTo fd buffer taken].filter Call.isWrite = [.writeTo fd buffer taken] := rfl

namespace Server

/-- The frames the main loop reads, each with the calls made before the next one is read. -/
def trace : Server → List Arrival → List (Arrival × List Call)
  | _, [] => []
  | s, a :: as =>
    if s.InLoop then (a, (s.step a.toRead).2) :: trace (s.step a.toRead).1 as else []

/-- The frame is written back once, to its sender's FIFO, and nothing else is written. -/
def EchoedOnce (h : Arrival × List Call) : Prop :=
  ∃ fd, h.2.filter Call.isWrite = [.writeTo fd h.1.buffer (some (.fifo h.1.client))]

/-- Every message read is echoed once to its sender and to nobody else. -/
def Routed (tr : List (Arrival × List Call)) : Prop :=
  ∀ h ∈ tr, h.1.sent.type = .message → EchoedOnce h

/-- The frames come in pairs that belong together: no message opens a pair, and a message that
    closes one follows the `NewConnection` of its own client. Only the part up to the pair in which
    the loop ends counts. -/
def InTurn : List Arrival → Prop
  | [] => True
  | [a] => a.sent.type ≠ .message
  | a :: b :: rest =>
    a.sent.type ≠ .message ∧
      (a.sent.type = .newConnection → a.Served →
        (b.sent.type = .message → b.client = a.client ∧ b.taken) ∧
          (b.sent.type = .connectionClose ∨ b.taken → InTurn rest))

theorem decoded_arrival {s : Server} {a : Arrival} (hs : s.serverFd ∈ s.descriptors)
    (ha : a.Decodes) : s.decoded a.toRead =
      some ⟨0, WireEnum.ofCode (WireEnum.code a.sent.type), a.sent.data⟩ := by
  rw [decoded, readFrom_eq hs, ha]
  rfl

theorem trace_over {s : Server} (h : ¬ s.InLoop) (as : List Arrival) : s.trace as = [] := by
  cases as with
  | nil => rfl
  | cons a as => rw [trace, if_neg h]

theorem trace_cons {s : Server} (h : s.InLoop) (a : Arrival) (as : List Arrival) :
    s.trace (a :: as) = (a, (s.step a.toRead).2) :: (s.step a.toRead).1.trace as := by
  rw [trace, if_pos h]

theorem routed_cons (h : Arrival × List Call) (tr : List (Arrival × List Call)) :
    Routed (h :: tr) ↔ (h.1.sent.type = .message → EchoedOnce h) ∧ Routed tr := by
  simp [Routed]

theorem not_echoedOnce_nil (a : Arrival) : ¬ EchoedOnce (a, []) := by
  rintro ⟨fd, h⟩; simp at h

/-! ### The two frames of a pair -/

/-- The first frame: a `NewConnection` that is served opens the pair, a message is dropped, and
    anything else ends the loop. -/
theorem first_frame {s : Server} {a : Arrival} (hs : Ready s) (ha : a.Decodes) :
    (a.sent.type = .newConnection ∧ a.Served ∧
      s.step a.toRead = (s.opened a.client (.session (lowestFree s.descriptors)),
        [.openFile a.client (some (lowestFree s.descriptors)),
         .writeTo (lowestFree s.descriptors) successFrame (some (.fifo a.client))])) ∨
    (a.sent.type = .message ∧ (s.step a.toRead).2 = []) ∨
    (a.sent.type ≠ .message ∧ ¬ (a.sent.type = .newConnection ∧ a.Served) ∧
      ¬ (s.step a.toRead).1.InLoop) := by
  have hd := decoded_arrival hs.fifo ha
  have hout := step_accept (r := a.toRead) hs.pc
  have hnew := wire_eq_iff a.sent.type .newConnection
  have hmsg := wire_eq_iff a.sent.type .message
  generalize s.step a.toRead = res at hout
  obtain ⟨s', calls⟩ := res
  simp only at hout ⊢
  cases hout with
  | faulted h => rw [hd] at h; exact absurd h (by simp)
  | refused h hp hm =>
    rw [hd, Option.some.injEq] at h; subst h
    by_cases ht : a.sent.type = .message
    · exact Or.inr (Or.inl ⟨ht, rfl⟩)
    · exact Or.inr (Or.inr ⟨ht, fun hn => hp (hnew.mpr hn.1), id⟩)
  | routed h hp hm =>
    rw [hd, Option.some.injEq] at h; subst h
    exact Or.inr (Or.inl ⟨hmsg.mp hp, rfl⟩)
  | openFailed h hp ho =>
    rw [hd, Option.some.injEq] at h; subst h
    have ht : a.sent.type = .newConnection := hnew.mp hp
    exact Or.inr (Or.inr ⟨by rw [ht]; decide, fun hn => by simp [hn.2.1] at ho, id⟩)
  | greetFailed hcut h hp ho hw =>
    rw [hd, Option.some.injEq] at h; subst h
    have ht : a.sent.type = .newConnection := hnew.mp hp
    exact Or.inr (Or.inr ⟨by rw [ht]; decide, fun hn => hw hn.2.2, not_inLoop_of_cut hcut⟩)
  | greeted h hp ho hw =>
    rw [hd, Option.some.injEq] at h; subst h
    have ht : a.sent.type = .newConnection := hnew.mp hp
    exact Or.inl ⟨ht, ⟨ho, hw⟩, by simp only [a.named ht]⟩

/-- The second frame: the close package closes what the first one opened, anything else is echoed
    to it. -/
theorem second_frame {s : Server} {b : Arrival} (name : List UInt8) (hs : Ready s)
    (hb : b.Decodes) :
    (b.sent.type = .connectionClose ∧
      (s.opened name (.session (lowestFree s.descriptors))).step b.toRead =
        ((s.opened name (.session (lowestFree s.descriptors))).closed (lowestFree s.descriptors),
          [.closeFile (lowestFree s.descriptors)])) ∨
    (b.sent.type ≠ .connectionClose ∧ b.taken ∧
      (s.opened name (.session (lowestFree s.descriptors))).step b.toRead =
        (s.opened name .accept,
          [.writeTo (lowestFree s.descriptors) b.buffer (some (.fifo name))])) ∨
    (b.sent.type ≠ .connectionClose ∧ ¬ b.taken ∧
      ¬ ((s.opened name (.session (lowestFree s.descriptors))).step b.toRead).1.InLoop ∧
      ((s.opened name (.session (lowestFree s.descriptors))).step b.toRead).2 =
        [.writeTo (lowestFree s.descriptors) b.buffer none]) := by
  have hfifo : (s.opened name (.session (lowestFree s.descriptors))).serverFd ∈
      (s.opened name (.session (lowestFree s.descriptors))).descriptors :=
    List.mem_cons_of_mem _ hs.fifo
  have hd := decoded_arrival hfifo hb
  have hread := readFrom_eq hfifo b.buffer
  have hpc : (s.opened name (.session (lowestFree s.descriptors))).pc =
      .session (lowestFree s.descriptors) := rfl
  have hout := step_session (r := b.toRead) hpc
  have hend := wire_eq_iff b.sent.type .conectionClose
  generalize (s.opened name (.session (lowestFree s.descriptors))).step b.toRead = res at hout ⊢
  obtain ⟨s', calls⟩ := res
  simp only at hout ⊢
  cases hout with
  | faulted h => rw [hd] at h; exact absurd h (by simp)
  | echoed file h hp hf hw =>
    rw [hd, Option.some.injEq] at h; subst h
    simp only [opened_files, List.lookup_cons, beq_self_eq_true, Option.some.injEq] at hf
    subst hf
    exact Or.inr (Or.inl ⟨fun hc => hp (hend.mpr hc), hw, by rw [hread]; rfl⟩)
  | echoFailed hcut h hp hw =>
    rw [hd, Option.some.injEq] at h; subst h
    refine Or.inr (Or.inr ⟨fun hc => hp (hend.mpr hc), hw.resolve_left (by simp),
      not_inLoop_of_cut hcut, ?_⟩)
    rw [hread]
  | ended h hp =>
    rw [hd, Option.some.injEq] at h; subst h
    exact Or.inl ⟨hend.mp hp, rfl⟩
  | endFailed h hp hc ho =>
    exact absurd (List.mem_cons_self ..) ho
  | ignored h hp hc =>
    exact absurd (List.mem_append_right _ (List.mem_singleton_self _)) hc

/-- A served client's descriptor is not the public FIFO's, so closing it leaves the FIFO open. -/
theorem closed_ready {s : Server} (name : List UInt8) (pc : Pc) (hs : Ready s) :
    Ready ((s.opened name pc).closed (lowestFree s.descriptors)) := by
  refine ⟨rfl, ?_⟩
  have hne : s.serverFd ≠ lowestFree s.descriptors := by
    intro heq
    exact lowestFree_not_mem s.descriptors (heq ▸ hs.fifo)
  obtain ⟨file, hfile, hfd⟩ := List.mem_map.mp hs.fifo
  refine List.mem_map.mpr ⟨file, List.mem_filter.mpr ⟨List.mem_cons_of_mem _ hfile, ?_⟩, hfd⟩
  simpa [hfd] using hne

theorem opened_ready {s : Server} (name : List UInt8) (hs : Ready s) :
    Ready (s.opened name .accept) :=
  ⟨rfl, List.mem_cons_of_mem _ hs.fifo⟩

/-! ### Whole runs -/

/-- The second frame of a pair, read for the client whose FIFO was just opened. -/
theorem routed_pair {s : Server} {a b : Arrival} {rest : List Arrival} (hs : Ready s)
    (hb : b.Decodes) (ih : ∀ t, Ready t → (Routed (t.trace rest) ↔ InTurn rest)) :
    Routed ((s.opened a.client (.session (lowestFree s.descriptors))).trace (b :: rest)) ↔
      (b.sent.type = .message → b.client = a.client ∧ b.taken) ∧
        (b.sent.type = .connectionClose ∨ b.taken → InTurn rest) := by
  have hloop : (s.opened a.client (.session (lowestFree s.descriptors))).InLoop := trivial
  rw [trace_cons hloop, routed_cons]
  rcases second_frame a.client hs hb with ⟨ht, hstep⟩ | ⟨ht, hw, hstep⟩ | ⟨ht, hw, hover, hcalls⟩
  · rw [hstep, ih _ (closed_ready _ _ hs)]
    simp [ht]
  · rw [hstep, ih _ (opened_ready _ hs)]
    have hecho : EchoedOnce (b, [.writeTo (lowestFree s.descriptors) b.buffer
        (some (.fifo a.client))]) ↔ b.client = a.client := by
      simp only [EchoedOnce, filter_writeTo, List.cons.injEq, and_true, Call.writeTo.injEq,
        Option.some.injEq, File.fifo.injEq, true_and]
      exact ⟨fun ⟨_, h⟩ => h.2.symm, fun h => ⟨_, rfl, h.symm⟩⟩
    simp [hecho, ht, hw]
  · rw [trace_over hover, hcalls]
    have hecho : ¬ EchoedOnce (b, [.writeTo (lowestFree s.descriptors) b.buffer none]) := by
      rintro ⟨fd, h⟩
      simp at h
    simp [hecho, ht, hw, Routed]

/-- Routing, from any state in which the server waits in `Accept`. -/
theorem routed_iff_of_ready : ∀ (as : List Arrival), (∀ a ∈ as, a.Decodes) → ∀ s, Ready s →
    (Routed (s.trace as) ↔ InTurn as)
  | [], _, s, _ => by simp [trace, Routed, InTurn]
  | [a], hdec, s, hs => by
    have hloop : s.InLoop := by simp [InLoop, hs.pc]
    rw [trace_cons hloop, routed_cons, InTurn]
    rcases first_frame hs (hdec a (List.mem_cons_self ..)) with ⟨ht, _⟩ | ⟨ht, hcalls⟩ | ⟨ht, _, _⟩
    · simp [ht, trace, Routed]
    · simp [ht, hcalls, not_echoedOnce_nil]
    · simp [ht, trace, Routed]
  | a :: b :: rest, hdec, s, hs => by
    have hloop : s.InLoop := by simp [InLoop, hs.pc]
    rw [trace_cons hloop, routed_cons, InTurn]
    rcases first_frame hs (hdec a (List.mem_cons_self ..)) with
      ⟨ht, hserved, hstep⟩ | ⟨ht, hcalls⟩ | ⟨ht, hnot, hover⟩
    · have ih := routed_iff_of_ready rest fun c hc =>
        hdec c (List.mem_cons_of_mem _ (List.mem_cons_of_mem _ hc))
      rw [hstep, routed_pair hs (hdec b (by simp)) ih]
      simp [ht, hserved]
    · simp [ht, hcalls, not_echoedOnce_nil]
    · rw [trace_over hover]
      have himp : ∀ P : Prop, a.sent.type = .newConnection → a.Served → P :=
        fun _ h1 h2 => absurd ⟨h1, h2⟩ hnot
      exact ⟨fun _ => ⟨ht, himp _⟩, fun _ => ⟨fun h => absurd h ht, by simp [Routed]⟩⟩

/-- CORRECT: started with any descriptors inherited and fed with the frames of any number of
    clients in any order, the server echoes every message it reads once, to its own client, exactly
    when the frames come in turn. -/
theorem routed_iff (inherited : List ℤ) (as : List Arrival) (hdec : ∀ a ∈ as, a.Decodes) :
    Routed ((start inherited).trace as) ↔ InTurn as :=
  routed_iff_of_ready as hdec _ (start_ready inherited)

end Server

/-! ### Frames of well-behaved clients -/

/-- A frame that is answered without a failure, with a NUL behind the decoder's block. -/
def Arrival.smooth (client : List UInt8) (p : Client.Package) (hlen : p.data.length ≤ 1012)
    (hname : p.type = .newConnection → p.data = client) : Arrival where
  mem := ⟨[], [0]⟩
  openOk := true
  written := some 1024
  buffer := Client.frame p
  client := client
  sent := p
  encoded := ⟨zeroBuffer, Client.serialize_frame hlen⟩
  named := hname

theorem Arrival.smooth_decodes {client : List UInt8} {p : Client.Package}
    {hlen : p.data.length ≤ 1012} {hname : p.type = .newConnection → p.data = client}
    (hdata : 0 ∉ p.data) : (Arrival.smooth client p hlen hname).Decodes :=
  fun q => Package.deserialize_of_clean (Client.serialize_frame hlen) q hdata rfl

/-- The three packages of client main, for a client whose FIFO has a one-letter name. -/
def hail (c : Char) : Arrival :=
  .smooth (ascii (String.singleton c)) ⟨3, .newConnection, ascii (String.singleton c)⟩
    (by simp [ascii]) fun _ => rfl

def say (c : Char) : Arrival :=
  .smooth (ascii (String.singleton c)) ⟨3, .message, hello⟩ (by decide) nofun

def bye (c : Char) : Arrival :=
  .smooth (ascii (String.singleton c)) ⟨3, .connectionClose, []⟩ (by decide) nofun

namespace Server

theorem routed_iff_hello : Routed ((start [0, 1, 2]).trace [hail 'a', say 'a']) ↔
    InTurn [hail 'a', say 'a'] :=
  routed_iff [0, 1, 2] [hail 'a', say 'a'] (by
    intro a ha
    simp only [List.mem_cons, List.not_mem_nil, or_false] at ha
    rcases ha with rfl | rfl <;> exact Arrival.smooth_decodes (by decide))

/-- Two clients connect one right after the other: the second `NewConnection` closes the pair of
    the first, and the first client's message is read by `Accept`, which drops it. -/
theorem message_dropped : ¬ Routed ((start [0, 1, 2]).trace [hail 'a', hail 'b', say 'a']) := by
  have hdec : ∀ a ∈ [hail 'a', hail 'b', say 'a'], a.Decodes := by
    intro a ha
    simp only [List.mem_cons, List.not_mem_nil, or_false] at ha
    rcases ha with rfl | rfl | rfl <;> exact Arrival.smooth_decodes (by decide)
  rw [routed_iff_of_ready _ hdec _ (start_ready _)]
  intro h
  have htaken : ∀ c, (hail c).taken := fun _ => ⟨1024, rfl, le_rfl⟩
  exact (h.2 rfl ⟨rfl, htaken 'a'⟩).2 (Or.inr (htaken 'b')) rfl

end Server
end UnixIpc.Fifo
