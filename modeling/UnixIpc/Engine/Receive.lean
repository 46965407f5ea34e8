import UnixIpc.Engine.Delivery

/-! `TcpReceiver::receive`, call after call, on a receiver that is never moved. Each turn of its
    loop may add entries or none; what is in `messages_` stays there:

        dispatched     0  1  2   │ 0 │ 1  3   │ …      session 0 is the listener
        messages_        +m +m   │   │ +m +m  │ …      a call returns at `expected` entries -/

namespace UnixIpc.Engine
open UnixIpc.Run

variable {Capacity : ℕ}

/-- A call of `receive`, with the polls to come. -/
structure ReceiveCall (Capacity : ℕ) where
  expected : ℕ
  polls : List (ReceiverPoll Capacity)

namespace Receivers

/-- The sessions dispatched in a turn, by index and socket. -/
def dispatched (s : Receivers Capacity) (id : ℕ) (p : ReceiverPoll Capacity) : List (ℕ × Socket) :=
  match s.world.acceptors id with
  | none => []
  | some a => (s.world.pass id (p.onAcceptor a)).dispatched

/-- The sessions dispatched in a call of `receive`, each with what its turn brings. -/
def dispatches (id expected : ℕ) :
    List (ReceiverPoll Capacity) → Receivers Capacity → List (ReceiverPoll Capacity × ℕ × Socket)
  | [], _ => []
  | p :: ps, s =>
    let turn := s.pass id p
    (s.dispatched id p).map (fun d => (p, d)) ++
      if turn.2 = .running ∧ (turn.1.messages id).length < expected then
        dispatches id expected ps turn.1
      else []

/-- The entry for a dispatched client, which is read from; there is none for the listener. -/
def entryOf (d : ReceiverPoll Capacity × ℕ × Socket) : Option (Message Capacity) :=
  if d.2.1 = 0 then none else some (.read d.2.2 (d.1.read d.2.1))

/-- Calls of `receive`, one after the other. -/
def receives (s : Receivers Capacity) (calls : List (ReceiveCall Capacity)) : Receivers Capacity :=
  calls.foldl (fun s c => (receive 0 c.expected c.polls s).1) s

variable {s : Receivers Capacity} {p : ReceiverPoll Capacity}

namespace Unmoved

/-- The entries of a turn's dispatches are those of its reads. -/
theorem entries (h : s.Unmoved) (p : ReceiverPoll Capacity) :
    ((s.dispatched 0 p).map fun d => (p, d)).filterMap entryOf =
      (s.readsOf 0 p).map ReadCall.entry := by
  obtain ⟨a, ha, _⟩ := h.home
  have hdispatched : s.dispatched 0 p = (s.calls 0 p).map fun d => (d.1, d.2.socket) := by
    rw [dispatched, ha]
    exact (dispatched_eq ha (h.sound 0 a ha).aligned).1
  rw [hdispatched, List.map_map, List.filterMap_map, readsOf, List.map_filterMap]
  refine List.filterMap_congr ?_
  intro d hd
  rw [h.callback_eq hd]
  by_cases hzero : d.1 = 0
  · rw [if_pos hzero]
    exact if_pos hzero
  · rw [if_neg hzero]
    exact if_neg hzero

/-- STEP: a turn appends the entries of its dispatches. -/
theorem messages_next (h : s.Unmoved) (p : ReceiverPoll Capacity) :
    (s.next p).messages 0 =
      s.messages 0 ++ ((s.dispatched 0 p).map fun d => (p, d)).filterMap entryOf := by
  obtain ⟨hnext, hreads⟩ := h.next p
  rw [hnext.messages, hreads, h.messages, h.entries, List.map_append]

/-- And it is defined: the handlers refer to objects that exist. -/
theorem pass_ne_undefined (h : s.Unmoved) (p : ReceiverPoll Capacity) :
    (s.pass 0 p).2 ≠ .undefined := by
  obtain ⟨a, ha, _⟩ := h.home
  have hal := (h.sound 0 a ha).aligned
  intro hundefined
  rcases (pass_spec ha hal).2.mp hundefined with ⟨d, hd, hverdict⟩ | ⟨c, hc, hdead⟩
  · exact verdict_ne_undefined h.sound ha hd hverdict
  · rw [h.target hc, World.live, ha] at hdead
    exact Bool.noConfusion hdead

/-- RUN: a call appends the entries of its dispatches, and returns with as many as expected. -/
theorem receive (h : s.Unmoved) (expected : ℕ) (ps : List (ReceiverPoll Capacity)) :
    (Receivers.receive 0 expected ps s).1.Unmoved ∧
      (Receivers.receive 0 expected ps s).1.messages 0 =
        s.messages 0 ++ (dispatches 0 expected ps s).filterMap entryOf ∧
      ((Receivers.receive 0 expected ps s).2 = some .running →
        expected ≤ ((Receivers.receive 0 expected ps s).1.messages 0).length) ∧
      (Receivers.receive 0 expected ps s).2 ≠ some .undefined := by
  induction ps generalizing s with
  | nil => exact ⟨h, (List.append_nil _).symm, by rintro ⟨⟩, by rintro ⟨⟩⟩
  | cons p ps ih =>
    have hnext : (s.next p).Unmoved := (h.next p).1
    have hmessages := h.messages_next p
    simp only [Receivers.receive, dispatches]
    by_cases hon : (s.pass 0 p).2 = .running ∧ ((s.pass 0 p).1.messages 0).length < expected
    · obtain ⟨hkept, hall, hcount, hdefined⟩ := ih hnext
      rw [if_pos hon, if_pos hon, List.filterMap_append, ← List.append_assoc, ← hmessages]
      exact ⟨hkept, hall, hcount, hdefined⟩
    · rw [if_neg hon, if_neg hon, List.append_nil]
      refine ⟨hnext, hmessages, fun hrunning => ?_, fun hundefined => ?_⟩
      · have hrun : (s.pass 0 p).2 = .running := Option.some.inj hrunning
        exact Nat.le_of_not_lt fun hlt => hon ⟨hrun, hlt⟩
      · exact h.pass_ne_undefined p (Option.some.inj hundefined)

/-- RUN: any calls keep what is there. -/
theorem receives (h : s.Unmoved) (calls : List (ReceiveCall Capacity)) :
    (s.receives calls).Unmoved ∧ s.messages 0 <+: (s.receives calls).messages 0 := by
  refine foldl_inv (P := fun t => t.Unmoved ∧ s.messages 0 <+: t.messages 0) ?_ calls s
    ⟨h, List.prefix_rfl⟩
  rintro t c ⟨ht, hfront⟩
  obtain ⟨hkept, hmessages, _⟩ := ht.receive c.expected c.polls
  refine ⟨hkept, hfront.trans ?_⟩
  rw [hmessages]
  exact List.prefix_append ..

end Unmoved

/-- KEEPS: after any calls on a receiver that is not moved, the next one leaves the entries there
    where they were, those after any `earlier` calls among them, and appends one for each client it
    dispatches, in that order; it returns with at least the expected number. -/
theorem receive_keeps (tcpListener : TcpListener) (earlier later : List (ReceiveCall Capacity))
    (expected : ℕ) (ps : List (ReceiverPoll Capacity)) :
    let s := (start tcpListener).receives (earlier ++ later)
    let call := Receivers.receive 0 expected ps s
    ((start tcpListener).receives earlier).messages 0 <+: call.1.messages 0 ∧
      call.1.messages 0 = s.messages 0 ++ (dispatches 0 expected ps s).filterMap entryOf ∧
      (call.2 = some .running → expected ≤ (call.1.messages 0).length) ∧
      call.2 ≠ some .undefined := by
  intro s call
  have hsplit : s = ((start tcpListener).receives earlier).receives later := List.foldl_append ..
  have hearlier := ((start_unmoved tcpListener).receives earlier).1
  obtain ⟨hs, hfront⟩ := hearlier.receives later
  rw [← hsplit] at hs hfront
  obtain ⟨_, hmessages, hcount, hdefined⟩ := hs.receive expected ps
  refine ⟨?_, hmessages, hcount, hdefined⟩
  exact hfront.trans (hmessages ▸ List.prefix_append ..)

end Receivers
end UnixIpc.Engine
