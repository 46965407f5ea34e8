import UnixIpc.Fifo.EchoSessions

/-! Complete conversations, one after another: what the echo server keeps of a client that has
    closed its session.

    A conversation is a `NewConnection`, messages, and the close package. Only a conversation
    without messages ends where it should: with one message the close package reaches `Accept`,
    which leaves the loop; with more, a message reaches `Accept` and the client's descriptor is
    left open for good. `settled_iff` is the exact statement. -/

namespace UnixIpc.Fifo
open UnixIpc.Bytes UnixIpc.Descriptors

/-- One client's conversation, as client main sends it. -/
structure Conversation where
  opening : Arrival
  messages : List Arrival
  closing : Arrival
  hopening : opening.sent.type = .newConnection
  hmessages : ∀ m ∈ messages, m.sent.type = .message ∧ m.client = opening.client
  hclosing : closing.sent.type = .connectionClose ∧ closing.client = opening.client

namespace Conversation

def arrivals (c : Conversation) : List Arrival := c.opening :: (c.messages ++ [c.closing])

/-- The frames of conversations run one after another. -/
def frames (cs : List Conversation) : List Read := (cs.flatMap arrivals).map Arrival.toRead

/-- Every frame of every conversation decodes to what was encoded. -/
def Decodes (cs : List Conversation) : Prop := ∀ c ∈ cs, ∀ a ∈ c.arrivals, a.Decodes

/-- The conversation holds no message, and its client was served. -/
def Quiet (c : Conversation) : Prop := c.messages = [] ∧ c.opening.Served

end Conversation

/-- The descriptor a call opens. -/
def Call.opens : Call → Option ℤ
  | .openFile _ fd => fd
  | _ => none

@[simp] theorem Call.opens_openFile (name : List UInt8) (fd : Option ℤ) :
    (Call.openFile name fd).opens = fd := rfl
@[simp] theorem Call.opens_writeTo (fd : ℤ) (buffer : Buffer) (taken : Option File) :
    (Call.writeTo fd buffer taken).opens = none := rfl
@[simp] theorem Call.opens_closeFile (fd : ℤ) : (Call.closeFile fd).opens = none := rfl

/-- Between each opening of a descriptor and the next opening of the same number, it is passed to
    `CloseFile` exactly once. -/
def ClosedOnce (calls : List Call) : Prop :=
  ∀ pre name fd post, calls = pre ++ .openFile name (some fd) :: post →
    (post.takeWhile fun c => c.opens ≠ some fd).count (.closeFile fd) = 1

namespace Server

/-- The conversations left nothing behind: the server is in its loop, `connections` is what it was,
    and each client descriptor was closed once. -/
structure Settled (before : Server) (res : Server × List Call) : Prop where
  inLoop : res.1.InLoop
  connections : res.1.connections = before.connections
  closedOnce : ClosedOnce res.2

/-! ### Calls of sessions without messages -/

/-- Sessions that are opened, greeted and closed, one after another. -/
inductive Balanced : List Call → Prop where
  | nil : Balanced []
  | cons (name fd buffer taken) {cs : List Call} (h : Balanced cs) :
      Balanced (.openFile name (some fd) :: .writeTo fd buffer taken :: .closeFile fd :: cs)

/-- Between openings of `fd`, balanced calls do not close it. -/
theorem Balanced.count_takeWhile {cs : List Call} (h : Balanced cs) (fd : ℤ) :
    (cs.takeWhile fun c => c.opens ≠ some fd).count (.closeFile fd) = 0 := by
  induction h with
  | nil => rfl
  | cons name fd' buffer taken h ih =>
    by_cases hfd : fd' = fd
    · simp [hfd]
    · simpa [hfd] using ih

theorem Balanced.closedOnce {cs : List Call} (h : Balanced cs) : ClosedOnce cs := by
  induction h with
  | nil => intro pre name fd post heq; simp at heq
  | cons name fd buffer taken h ih =>
    intro pre name' fd' post heq
    match pre with
    | [] =>
      simp only [List.nil_append, List.cons.injEq, Call.openFile.injEq, Option.some.injEq] at heq
      obtain ⟨⟨rfl, rfl⟩, rfl⟩ := heq
      simpa using h.count_takeWhile fd
    | [_] | [_, _] => simp at heq
    | _ :: _ :: _ :: pre =>
      simp only [List.cons_append, List.cons.injEq] at heq
      exact ih pre name' fd' post heq.2.2.2

/-! ### A descriptor left behind -/

/-- The client descriptor `fd` is open and listed, and no session is about to close it. -/
structure Leaked (s : Server) (fd : ℤ) : Prop where
  nonzero : fd ≠ 0
  listed : fd ∈ s.connections
  opened : fd ∈ s.descriptors
  idle : s.pc ≠ .session fd

/-- No frame ever closes it: a session closes only the descriptor it was opened for, or 0. -/
theorem step_leaked {s : Server} {fd : ℤ} (hs : Leaked s fd) (hloop : s.InLoop) (r : Read) :
    Leaked (s.step r).1 fd := by
  have hmoved : ∀ pc, pc ≠ .session fd → Leaked { s with pc := pc } fd :=
    fun pc hpc => ⟨hs.nonzero, hs.listed, hs.opened, hpc⟩
  have hmore : ∀ name pc, pc ≠ .session fd → Leaked (s.opened name pc) fd := fun name pc hpc =>
    ⟨hs.nonzero, List.mem_append_left _ hs.listed, List.mem_cons_of_mem _ hs.opened, hpc⟩
  cases hpc : s.pc with
  | accept =>
    have hout := step_accept (r := r) hpc
    generalize s.step r = res at hout ⊢
    obtain ⟨s', calls⟩ := res
    simp only at hout ⊢
    cases hout with
    | routed => exact hmoved _ fun h => hs.nonzero (Pc.session.inj h).symm
    | greetFailed hcut => exact hmore _ _ (hcut.ne_session fd)
    | greeted =>
      refine hmore _ _ fun h => lowestFree_not_mem s.descriptors ?_
      rw [Pc.session.inj h]; exact hs.opened
    | _ => exact hmoved _ (by simp)
  | session c =>
    have hne : fd ≠ c := fun h => hs.idle (h ▸ hpc)
    have hout := step_session (r := r) hpc
    generalize s.step r = res at hout ⊢
    obtain ⟨s', calls⟩ := res
    simp only at hout ⊢
    cases hout with
    | ended =>
      exact ⟨hs.nonzero, (List.mem_erase_of_ne hne).mpr hs.listed, mem_closed hs.opened hne,
        by simp [closed]⟩
    | endFailed =>
      exact ⟨hs.nonzero, (List.mem_erase_of_ne hne).mpr hs.listed, hs.opened, by simp⟩
    | echoFailed hcut => exact hmoved _ (hcut.ne_session fd)
    | _ => exact hmoved _ (by simp)
  | _ => simp [InLoop, hpc] at hloop

theorem run_leaked {fd : ℤ} : ∀ (rs : List Read) (s : Server), Leaked s fd →
    Leaked (s.run rs).1 fd
  | [], _, hs => hs
  | r :: rs, s, hs => by
    by_cases hloop : s.InLoop
    · rw [run_cons hloop]; exact run_leaked rs _ (step_leaked hs hloop r)
    · rw [run_over hloop]; exact hs

theorem not_settled_of_leaked {before : Server} {res : Server × List Call} {fd : ℤ}
    (hb : before.connections = List.replicate 1024 0) (h : Leaked res.1 fd) :
    ¬ Settled before res := by
  intro hset
  have hmem := h.listed
  rw [hset.connections, hb] at hmem
  exact h.nonzero (List.eq_of_mem_replicate hmem)

theorem run_append (rs ts : List Read) (s : Server) :
    (s.run (rs ++ ts)).1 = ((s.run rs).1.run ts).1 ∧
      (s.run (rs ++ ts)).2 = (s.run rs).2 ++ ((s.run rs).1.run ts).2 := by
  induction rs generalizing s with
  | nil => simp [run]
  | cons r rs ih =>
    by_cases hloop : s.InLoop
    · simp only [List.cons_append, run_cons hloop, (ih _).1, (ih _).2, List.append_assoc, and_self]
    · simp [run_over hloop]

/-! ### One conversation after another -/

/-- A quiet conversation leaves the state in step and its calls balanced. -/
theorem run_quiet {s : Server} (hs : Tracks s []) {c : Conversation}
    (hdec : ∀ a ∈ c.arrivals, a.Decodes) (hc : c.Quiet) :
    ∃ t name fd buffer taken, Tracks t [] ∧
      s.run (c.arrivals.map Arrival.toRead) =
        (t, [.openFile name (some fd), .writeTo fd buffer taken, .closeFile fd]) := by
  have hloop : s.InLoop := by simp [InLoop, hs.pc]
  have hfr : c.arrivals.map Arrival.toRead = [c.opening.toRead, c.closing.toRead] := by
    simp [Conversation.arrivals, hc.1]
  rcases first_frame hs.toReady (hdec _ (List.mem_cons_self ..)) with
    ⟨_, _, hstep⟩ | ⟨hmsg, _⟩ | ⟨_, hnot, _⟩
  · have hloop' : (s.opened c.opening.client (.session (lowestFree s.descriptors))).InLoop :=
      trivial
    rcases second_frame c.opening.client hs.toReady
      (hdec c.closing (by simp [Conversation.arrivals])) with ⟨_, hstep'⟩ | ⟨hne, _⟩ | ⟨hne, _⟩
    · refine ⟨_, c.opening.client, lowestFree s.descriptors, successFrame,
        some (.fifo c.opening.client),
        closed_tracks c.opening.client (.session (lowestFree s.descriptors)) hs, ?_⟩
      rw [hfr, run_cons hloop, hstep, run_cons hloop', hstep']
      rfl
    · exact absurd c.hclosing.1 hne
    · exact absurd c.hclosing.1 hne
  · rw [c.hopening] at hmsg; exact absurd hmsg (by simp)
  · exact absurd ⟨c.hopening, hc.2⟩ hnot

/-- Any other conversation stops the server or leaks the client's descriptor. -/
theorem run_spoiled {s : Server} (hs : Tracks s []) {c : Conversation}
    (hdec : ∀ a ∈ c.arrivals, a.Decodes) (hc : ¬ c.Quiet) (rs : List Read) :
    ¬ (s.run (c.arrivals.map Arrival.toRead ++ rs)).1.InLoop ∨
      ∃ fd, Leaked (s.run (c.arrivals.map Arrival.toRead ++ rs)).1 fd := by
  have hloop : s.InLoop := by simp [InLoop, hs.pc]
  rw [Conversation.arrivals, List.map_cons, List.cons_append, run_cons hloop]
  rcases first_frame hs.toReady (hdec _ (List.mem_cons_self ..)) with
    ⟨_, hserved, hstep⟩ | ⟨hmsg, _⟩ | ⟨_, _, hover⟩
  · rw [hstep]
    have hloop' : (s.opened c.opening.client (.session (lowestFree s.descriptors))).InLoop :=
      trivial
    cases hm : c.messages with
    | nil => exact absurd ⟨hm, hserved⟩ hc
    | cons m ms =>
      have hmem : m ∈ c.messages := hm ▸ List.mem_cons_self ..
      have htype := (c.hmessages m hmem).1
      simp only [List.cons_append, List.map_cons, run_cons hloop']
      rcases second_frame c.opening.client hs.toReady
        (hdec m (by simp [Conversation.arrivals, hmem])) with
        ⟨hend, _⟩ | ⟨_, _, hstep'⟩ | ⟨_, _, hover, _⟩
      · rw [htype] at hend; exact absurd hend (by simp)
      · -- the next frame is read by `Accept`, so nothing will close what was just opened
        rw [hstep']
        exact Or.inr ⟨_, run_leaked _ _ ⟨lowestFree_ne_zero hs,
          List.mem_append_right _ (List.mem_singleton_self _), List.mem_cons_self .., by
            simp [opened]⟩⟩
      · rw [run_over hover]; exact Or.inl hover
  · rw [c.hopening] at hmsg; exact absurd hmsg (by simp)
  · rw [run_over hover]; exact Or.inl hover

/-- Conversations one after another, from a state in step with no client open. -/
theorem run_conversations : ∀ (cs : List Conversation) (s : Server), Tracks s [] →
    Conversation.Decodes cs →
    ((∀ c ∈ cs, c.Quiet) → Tracks (s.run (Conversation.frames cs)).1 [] ∧
      Balanced (s.run (Conversation.frames cs)).2) ∧
    (¬ (∀ c ∈ cs, c.Quiet) → ¬ (s.run (Conversation.frames cs)).1.InLoop ∨
      ∃ fd, Leaked (s.run (Conversation.frames cs)).1 fd)
  | [], s, hs, _ => ⟨fun _ => ⟨hs, .nil⟩, fun h => absurd (by simp) h⟩
  | c :: cs, s, hs, hdec => by
    have hc := hdec c (List.mem_cons_self ..)
    have hfr : Conversation.frames (c :: cs) =
        c.arrivals.map Arrival.toRead ++ Conversation.frames cs := by
      simp [Conversation.frames]
    rw [hfr]
    by_cases hq : c.Quiet
    · obtain ⟨t, name, fd, buffer, taken, ht, hrun⟩ := run_quiet hs hc hq
      have ih := run_conversations cs t ht fun d hd => hdec d (List.mem_cons_of_mem _ hd)
      rw [(run_append ..).1, (run_append ..).2, hrun]
      simp only [List.forall_mem_cons, hq, true_and]
      exact ⟨fun h => ⟨(ih.1 h).1, .cons name fd buffer taken (ih.1 h).2⟩, ih.2⟩
    · exact ⟨fun h => absurd (h c (List.mem_cons_self ..)) hq,
        fun _ => run_spoiled hs hc hq _⟩

theorem not_settled {inherited : List ℤ} {cs : List Conversation}
    (hdec : Conversation.Decodes cs) (hbad : ¬ ∀ c ∈ cs, c.Quiet) :
    ¬ Settled (start inherited) ((start inherited).run (Conversation.frames cs)) := by
  intro hset
  rcases (run_conversations cs _ (start_tracks inherited) hdec).2 hbad with hover | ⟨fd, hleak⟩
  · exact hover hset.inLoop
  · exact not_settled_of_leaked (start_connections inherited) hleak hset

/-- CORRECT: after any complete conversations run one after another, the server is in its main
    loop, `connections` is what it was, and every client descriptor was closed exactly once,
    exactly when no conversation held a message and every client was served. -/
theorem settled_iff (inherited : List ℤ) (cs : List Conversation)
    (hdec : Conversation.Decodes cs) :
    Settled (start inherited) ((start inherited).run (Conversation.frames cs)) ↔
      ∀ c ∈ cs, c.Quiet := by
  constructor
  · intro hset
    by_contra hbad
    exact not_settled hdec hbad hset
  · intro hq
    obtain ⟨ht, hbal⟩ := (run_conversations cs _ (start_tracks inherited) hdec).1 hq
    refine ⟨by simp [InLoop, ht.pc], ?_, hbal.closedOnce⟩
    rw [ht.connections, List.append_nil, start_connections]

/-! ### The conversation of client main -/

/-- `NewConnection`, the messages, the close package, all of them answered without a failure. -/
def talk (c : Char) (count : ℕ) : Conversation where
  opening := hail c
  messages := List.replicate count (say c)
  closing := bye c
  hopening := rfl
  hmessages := fun m hm => by rw [List.eq_of_mem_replicate hm]; exact ⟨rfl, rfl⟩
  hclosing := ⟨rfl, rfl⟩

theorem talk_decodes (c : Char) (count : ℕ) (hc : 0 ∉ ascii (String.singleton c)) :
    ∀ a ∈ (talk c count).arrivals, a.Decodes := by
  have hsay : (say c).Decodes := Arrival.smooth_decodes (by decide)
  intro a ha
  simp only [talk, Conversation.arrivals, List.mem_cons, List.mem_append, List.mem_replicate,
    List.not_mem_nil, or_false] at ha
  rcases ha with rfl | ⟨_, rfl⟩ | rfl
  · exact Arrival.smooth_decodes hc
  · exact hsay
  · exact Arrival.smooth_decodes (by decide)

theorem settled_iff_silent :
    Settled (start [0, 1, 2]) ((start [0, 1, 2]).run (Conversation.frames [talk 'a' 0])) ↔
      ∀ c ∈ [talk 'a' 0], c.Quiet :=
  settled_iff [0, 1, 2] [talk 'a' 0] (List.forall_mem_singleton.mpr (talk_decodes 'a' 0 (by decide)))

/-- The one conversation that client main can hold, with a single message, ends the server. -/
theorem one_message_unsettled :
    ¬ Settled (start [0, 1, 2]) ((start [0, 1, 2]).run (Conversation.frames [talk 'a' 1])) := by
  have hdec : Conversation.Decodes [talk 'a' 1] :=
    List.forall_mem_singleton.mpr (talk_decodes 'a' 1 (by decide))
  have hbad : ¬ ∀ c ∈ [talk 'a' 1], c.Quiet := fun h =>
    absurd (h _ (List.mem_singleton_self _)).1 (List.cons_ne_nil _ _)
  exact not_settled hdec hbad

end Server
end UnixIpc.Fifo
