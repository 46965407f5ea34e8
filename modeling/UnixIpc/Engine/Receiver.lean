import UnixIpc.Engine.Buffer
import UnixIpc.Engine.Calls
import UnixIpc.Engine.MoveAssign

/-! `TcpReceiver`: a list of messages, filled by a callback that an acceptor calls for each readable
    client. The callback reads into a fresh buffer, ignores what the read returned, and appends to
    the `messages_` of the object whose `this` it captured.

    A receiver and its acceptor are one object, so they share an address, and the handler of the
    acceptor's clients is just that captured address.

        receive:  do  poll ──▶ handleClientsSocket ──client i──▶ read ──▶ messages_ of *this
                  while messages_.size() < expected -/

namespace UnixIpc.Engine
open UnixIpc.Descriptors UnixIpc.IndexLoop

/-- What one read(2) of at most `Capacity` bytes returns: `none` for -1, no bytes for 0. -/
abbrev ReadBytes (Capacity : ℕ) := Option {bytes : List UInt8 // bytes.length ≤ Capacity}

/-- The buffer after a read into `data()`: the bytes are there, and nobody calls `setSize`. -/
def StaticBuffer.filled {Capacity : ℕ} (b : StaticBuffer Capacity) (result : ReadBytes Capacity) :
    StaticBuffer Capacity :=
  match result with
  | none => b
  | some bytes =>
    { b with
      data := bytes.1 ++ b.data.drop bytes.1.length
      length_data := by
        have := bytes.2
        have := b.length_data
        simp only [List.length_append, List.length_drop]
        omega }

/-- `Message`. -/
structure Message (Capacity : ℕ) where
  socket : Socket
  buffer : StaticBuffer Capacity

/-- What the callback appends. `ReadFrom` compares an unsigned count with 0, so -1 does not throw. -/
def Message.read {Capacity : ℕ} (socket : Socket) (result : ReadBytes Capacity) : Message Capacity :=
  ⟨socket, (StaticBuffer.fresh Capacity).filled result⟩

/-- A read by the callback of the object at `target`. -/
structure ReadCall (Capacity : ℕ) where
  target : ℕ
  socket : Socket
  result : ReadBytes Capacity

/-- The entry it makes. -/
def ReadCall.entry {Capacity : ℕ} (c : ReadCall Capacity) : Message Capacity := .read c.socket c.result

/-- The receivers of a program by address: their acceptors, their `messages_`, and a record of the
    reads. -/
structure Receivers (Capacity : ℕ) where
  world : World ℕ
  messages : ℕ → List (Message Capacity)
  reads : List (ReadCall Capacity)

/-- One turn of `receive`: what poll finds (`none`: it fails), the result of accept(2), and by index
    what the reads return. -/
structure ReceiverPoll (Capacity : ℕ) where
  revents : Option (ℕ → UInt16)
  accepted : ℤ
  read : ℕ → ReadBytes Capacity

/-- The callback returns true, whatever it read, and closes nothing. -/
def ReceiverPoll.answers {Capacity : ℕ} (p : ReceiverPoll Capacity) : ℕ → Answer :=
  fun _ => ⟨p.accepted, some true, false⟩

/-- The same for the acceptor: poll returns the number of entries with something in `revents`. -/
def ReceiverPoll.onAcceptor {Capacity : ℕ} (p : ReceiverPoll Capacity) (a : Acceptor ℕ) : PollAnswer :=
  match p.revents with
  | none => ⟨-1, fun _ => 0, p.answers⟩
  | some revents =>
    ⟨(report a.clientPollFdSet revents).countP (·.revents ≠ 0), revents, p.answers⟩

namespace Receivers
variable {Capacity : ℕ}

/-- `messages_.emplace_back(..)` for each read, in the object of its callback. -/
def appendAll (messages : ℕ → List (Message Capacity)) (calls : List (ReadCall Capacity)) :
    ℕ → List (Message Capacity) :=
  calls.foldl (fun m c => Function.update m c.target (m c.target ++ [c.entry])) messages

/-- The read made when session `d` is dispatched, if it is a client's. -/
def callback (p : ReceiverPoll Capacity) (d : ℕ × TcpSession ℕ) : Option (ReadCall Capacity) :=
  match d.2.requestHandler with
  | .client (some target) => some ⟨target, d.2.socket, p.read d.1⟩
  | _ => none

/-- One turn of the loop of `receive`, on the object at `id`. A callback whose object is gone is
    undefined. -/
def pass (s : Receivers Capacity) (id : ℕ) (p : ReceiverPoll Capacity) :
    Receivers Capacity × Outcome :=
  match s.world.acceptors id with
  | none => (s, .undefined)
  | some a =>
    let result := s.world.pass id (p.onAcceptor a)
    let calls := result.dispatched.filterMap fun e =>
      (a.tcpSessions[e.1]?).bind fun session => callback p (e.1, session)
    ({ world := result.world
       messages := appendAll s.messages calls
       reads := s.reads ++ calls },
      if calls.any fun c => (s.world.acceptors c.target).isNone then .undefined else result.outcome)

/-- `receive`, over the polls to come: the state where it returns or throws, or where it still waits
    for a poll (`none`). -/
def receive (id expected : ℕ) :
    List (ReceiverPoll Capacity) → Receivers Capacity → Receivers Capacity × Option Outcome
  | [], s => (s, none)
  | p :: ps, s =>
    let turn := s.pass id p
    if turn.2 = .running ∧ (turn.1.messages id).length < expected then receive id expected ps turn.1
    else (turn.1, some turn.2)

end Receivers

/-- What happens to the receivers of a program. -/
inductive ReceiverEvent (Capacity : ℕ) where
  | construct (id : ℕ) (tcpListener : TcpListener)
  | moveConstruct (id other : ℕ)
  | moveAssign (id other : ℕ)
  | destroy (id : ℕ)
  | pass (id : ℕ) (p : ReceiverPoll Capacity)

namespace Receivers
variable {Capacity : ℕ}

def empty : Receivers Capacity := ⟨World.empty, fun _ => [], []⟩

/-- `messages_` of an object that is moved. -/
def moveMessages (messages : ℕ → List (Message Capacity)) (id other : ℕ) :
    ℕ → List (Message Capacity) :=
  Function.update (Function.update messages id (messages other)) other []

/-- One event; `none` when it is not possible, or undefined. The implicit moves of `TcpReceiver` move
    member by member; its constructor hands `this` to the acceptor, in the callback. -/
def step (s : Receivers Capacity) : ReceiverEvent Capacity → Option (Receivers Capacity)
  | .construct id tcpListener =>
    (s.world.step (.construct id tcpListener id)).map fun w =>
      { s with world := w, messages := Function.update s.messages id [] }
  | .moveConstruct id other =>
    (s.world.step (.moveConstruct id other)).map fun w =>
      { s with world := w, messages := moveMessages s.messages id other }
  | .moveAssign id other =>
    (s.world.step (.moveAssign id other)).map fun w =>
      { s with world := w, messages := moveMessages s.messages id other }
  | .destroy id =>
    (s.world.step (.destroy id)).map fun w =>
      { s with world := w, messages := Function.update s.messages id [] }
  | .pass id p =>
    let turn := s.pass id p
    if turn.2 = .undefined then none else some turn.1

/-- A whole history. -/
def run (s : Receivers Capacity) (es : List (ReceiverEvent Capacity)) : Option (Receivers Capacity) :=
  es.foldlM step s

end Receivers

/-! ### Handlers that stay together

Without move assignment the clients of an acceptor all have the handler the acceptor itself has. -/

section Uniform
variable {H : Type}

/-- Every client session has the acceptor's own handler. -/
def Acceptor.Uniform (a : Acceptor H) : Prop :=
  ∀ session ∈ a.tcpSessions, ∀ target, session.requestHandler = .client target →
    target = a.clientRequestHandler

/-- A sound acceptor's listener hands on the acceptor's own handler. -/
theorem Acceptor.Sound.listener_target {id j : ℕ} {a : Acceptor H} {session : TcpSession H}
    {ref : ℕ} {target : Option H} (h : a.Sound id) (hs : a.tcpSessions[j]? = some session)
    (hl : session.requestHandler = .listener ref target) : target = a.clientRequestHandler := by
  obtain ⟨rfl, _⟩ := h.listener hs hl
  cases h with
  | moved _ hnil => simp [hnil] at hs
  | whole h rest heq _ hh _ =>
    rw [heq, List.getElem?_cons_zero, Option.some.injEq] at hs
    subst hs
    simp only [Handler.listener.injEq] at hl
    rw [hh, ← hl.2]

theorem Acceptor.Uniform.foldl_push (l : List (Admission H)) (a : Acceptor H) (h : a.Uniform)
    (hl : ∀ x ∈ l, x.handler = a.clientRequestHandler) : (l.foldl Acceptor.push a).Uniform := by
  intro session hmem target hc
  rw [Engine.foldl_push] at hmem ⊢
  rcases List.mem_append.mp hmem with hmem | hmem
  · exact h session hmem target hc
  · obtain ⟨x, hx, rfl⟩ := List.mem_map.mp hmem
    rw [Handler.client.injEq] at hc
    rw [← hc]
    exact hl x hx

/-- A pass appends clients with the acceptor's own handler. -/
theorem World.uniform_pass {w : World H} {id : ℕ} {a : Acceptor H} (h : w.Sound)
    (hu : w.All fun _ => Acceptor.Uniform) (ha : w.acceptors id = some a) (p : PollAnswer) :
    (w.pass id p).world.All fun _ => Acceptor.Uniform := by
  rw [World.pass]
  split
  · exact hu
  have ha' : (w.poll id p.revents).acceptors id = some (a.polled p.revents) := by
    simp [World.poll_acceptors, ha]
  have hpolled : (w.poll id p.revents).All fun _ => Acceptor.Uniform := by
    refine hu.put ?_
    intro b hb
    rw [ha, Option.map_some, Option.some.injEq] at hb
    exact hb ▸ hu id a ha
  obtain ⟨i, hsweep, _, hadm⟩ := (h.poll id p.revents).handleClientsSocket ha' p.result p.answers
  intro id' b hb
  rw [hsweep.acceptors, foldl_admitTo, Option.map_eq_some_iff] at hb
  obtain ⟨b0, hb0, rfl⟩ := hb
  refine Acceptor.Uniform.foldl_push _ _ (hpolled id' b0 hb0) ?_
  intro x hx
  obtain ⟨hx, hid⟩ := List.mem_filter.mp hx
  obtain ⟨j, session, hj, hl, _⟩ := hsweep.admitted x hx
  have hb0' : b0 = a.polled p.revents := by
    have heq : id' = id := by rw [← of_decide_eq_true hid, (hadm x hx).1]
    rw [heq, ha'] at hb0
    exact (Option.some.inj hb0).symm
  rw [hb0']
  exact ((h id a ha).polled p.revents).listener_target hj hl

end Uniform

/-! ### The sessions a pass calls -/

section Called
variable {H : Type}

/-- How the call of a session's handler ends, when clients neither throw nor close. -/
def TcpSession.verdict (live : ℕ → Bool) (accepted : ℤ) (session : TcpSession H) : Outcome :=
  match session.requestHandler with
  | .client none => .threw .badFunctionCall
  | .client (some _) => .running
  | .listener ref _ =>
    match session.socket.accept accepted with
    | .error failure => .threw failure
    | .ok _ => if live ref then .running else .undefined

/-- The sessions called out of those that are due: up to the first that does not come back. -/
def called (live : ℕ → Bool) (accepted : ℤ) : List (ℕ × TcpSession H) → List (ℕ × TcpSession H)
  | [] => []
  | d :: ds => d :: if d.2.verdict live accepted = .running then called live accepted ds else []

/-- The objects that exist. -/
def World.live (w : World H) (id : ℕ) : Bool := (w.acceptors id).isSome

theorem invoke_outcome (w : World H) (session : TcpSession H) (accepted : ℤ) :
    (w.invoke session ⟨accepted, some true, false⟩).2.2 = session.verdict w.live accepted := by
  unfold World.invoke TcpSession.verdict World.live
  cases hh : session.requestHandler with
  | client target => cases target <;> simp
  | listener ref h =>
    cases hsock : session.socket.accept accepted with
    | error failure => simp
    | ok clientSocket => by_cases hlive : (w.acceptors ref).isSome <;> simp [hlive]

theorem live_call (answers : ℕ → Answer) (p : Pass H) (d : ℕ × TcpSession H) :
    (Pass.call answers p d).world.live = p.world.live := by
  unfold Pass.call
  split
  · funext id
    rcases invoke_cases p.world d.2 (answers d.1) with ⟨hw, _⟩ | ⟨ref, h, _, _, _, _, hw, _⟩
    · simp only [World.live, hw]
    · simp only [World.live, hw]
      exact isSome_foldl_admitTo [_] p.world.acceptors id
  · rfl

/-- What a pass dispatches, and how it can be undefined. -/
theorem calls_called (accepted : ℤ) (ds : List (ℕ × TcpSession H)) (p : Pass H)
    (hrun : p.outcome = .running) (hcount : (ds.length : ℤ) ≤ p.readyCount) :
    (ds.foldl (Pass.call fun _ => ⟨accepted, some true, false⟩) p).dispatched = p.dispatched ++
        (called p.world.live accepted ds).map (fun d => (d.1, d.2.socket)) ∧
      ((ds.foldl (Pass.call fun _ => ⟨accepted, some true, false⟩) p).outcome = .undefined ↔
        ∃ d ∈ called p.world.live accepted ds,
          d.2.verdict p.world.live accepted = .undefined) := by
  induction ds generalizing p with
  | nil => simp [called, hrun]
  | cons d ds ih =>
    rw [List.length_cons] at hcount
    push_cast at hcount
    obtain ⟨q, hq⟩ : ∃ q, q = Pass.call (fun _ => ⟨accepted, some true, false⟩) p d := ⟨_, rfl⟩
    have hopen : p.outcome = .running ∧ 0 < p.readyCount := ⟨hrun, by omega⟩
    have hout : q.outcome = d.2.verdict p.world.live accepted := by
      rw [hq, Pass.call, if_pos hopen]
      exact invoke_outcome p.world d.2 accepted
    have hdisp : q.dispatched = p.dispatched ++ [(d.1, d.2.socket)] := by
      rw [hq, Pass.call, if_pos hopen]
    have hlive : q.world.live = p.world.live := by rw [hq]; exact live_call _ p d
    rw [List.foldl_cons, ← hq, called]
    by_cases hback : d.2.verdict p.world.live accepted = .running
    · have hleft : q.readyCount = p.readyCount - 1 := by
        rw [hq]
        exact (call_back hopen ((invoke_outcome p.world d.2 accepted).trans hback)).2
      obtain ⟨hd, hu⟩ := ih q (hout.trans hback) (by omega)
      rw [if_pos hback, hd, hu, hdisp, hlive]
      refine ⟨by simp, ?_⟩
      simp [hback]
    · rw [if_neg hback, call_stopped (by rw [hout]; exact fun hopen' => hback hopen'.1), hdisp, hout]
      exact ⟨by simp, by simp⟩

theorem called_subset (live : ℕ → Bool) (accepted : ℤ) (ds : List (ℕ × TcpSession H)) :
    called live accepted ds ⊆ ds := by
  induction ds with
  | nil => exact List.Subset.refl _
  | cons d ds ih =>
    rw [called]
    split
    · exact List.cons_subset_cons d ih
    · exact List.cons_subset_cons d (List.nil_subset ds)

end Called

namespace Receivers
variable {Capacity : ℕ} {s : Receivers Capacity} {id : ℕ} {a : Acceptor ℕ}
  {p : ReceiverPoll Capacity}

/-- The sessions whose handlers a turn of `receive` calls: of those with `revents == POLLRDNORM`, up
    to the first that throws. -/
def calls (s : Receivers Capacity) (id : ℕ) (p : ReceiverPoll Capacity) :
    List (ℕ × TcpSession ℕ) :=
  match s.world.acceptors id, p.revents with
  | some a, some revents => called s.world.live p.accepted (a.polled revents).due
  | _, _ => []

/-- The reads of a turn. -/
def readsOf (s : Receivers Capacity) (id : ℕ) (p : ReceiverPoll Capacity) :
    List (ReadCall Capacity) := (s.calls id p).filterMap (callback p)

theorem onAcceptor_reports {revents : ℕ → UInt16} (hr : p.revents = some revents) :
    p.onAcceptor a = ⟨(report a.clientPollFdSet revents).countP (·.revents ≠ 0), revents,
      p.answers⟩ := by
  rw [ReceiverPoll.onAcceptor, hr]

/-- The acceptor's part of a turn: what is dispatched, and how it can be undefined. -/
theorem dispatched_eq (ha : s.world.acceptors id = some a) (hal : a.Aligned) :
    (s.world.pass id (p.onAcceptor a)).dispatched =
        (s.calls id p).map (fun d => (d.1, d.2.socket)) ∧
      ((s.world.pass id (p.onAcceptor a)).outcome = .undefined ↔
        ∃ d ∈ s.calls id p, d.2.verdict s.world.live p.accepted = .undefined) ∧
      ∀ d ∈ s.calls id p, a.tcpSessions[d.1]? = some d.2 := by
  cases hr : p.revents with
  | none =>
    have hcalls : s.calls id p = [] := by rw [calls, ha, hr]
    have hfail : s.world.pass id (p.onAcceptor a) = ⟨s.world, -1, [], [], .threw .poll⟩ := by
      rw [ReceiverPoll.onAcceptor, hr]
      rfl
    rw [hcalls, hfail]
    simp
  | some revents =>
    have hp : a.Reports (p.onAcceptor a) := by
      rw [onAcceptor_reports hr]
      rfl
    have hcalls : s.calls id p = called s.world.live p.accepted (a.polled revents).due := by
      rw [calls, ha, hr]
    have hdue := length_due_le hal hp
    have hpass := World.pass_eq ha hal hp.nonneg
    have hmem := fun d => mem_due_polled (d := d) hal (p := p.onAcceptor a)
    have hlive : ((s.world.poll id revents).begin (p.onAcceptor a).result).world.live =
        s.world.live := by
      funext other
      simp only [World.begin, World.live, World.poll_acceptors]
      by_cases hid : other = id
      · subst hid
        rw [Function.update_self, Option.isSome_map]
      · rw [Function.update_of_ne hid]
    have hall := calls_called p.accepted (a.polled revents).due
      ((s.world.poll id revents).begin (p.onAcceptor a).result) rfl
      (by rw [onAcceptor_reports hr] at hdue ⊢; exact hdue)
    rw [hlive] at hall
    rw [hpass, hcalls]
    rw [onAcceptor_reports hr] at hmem hall ⊢
    refine ⟨hall.1, hall.2, ?_⟩
    intro d hd
    exact ((hmem d).mp (called_subset _ _ _ hd)).1

/-- No call is undefined while all acceptors are sound: a listener refers to its own. -/
theorem verdict_ne_undefined (hsound : s.world.Sound) (ha : s.world.acceptors id = some a)
    {d : ℕ × TcpSession ℕ} (hd : d ∈ s.calls id p) :
    d.2.verdict s.world.live p.accepted ≠ .undefined := by
  have hdefined := (hsound.pass_orderly ha (p.onAcceptor a)).defined
  intro hverdict
  exact hdefined ((dispatched_eq ha (hsound id a ha).aligned).2.1.mpr ⟨d, hd, hverdict⟩)

/-- One turn of `receive`: its reads, and where their entries go. -/
theorem pass_spec (ha : s.world.acceptors id = some a) (hal : a.Aligned) :
    (s.pass id p).1 = ⟨(s.world.pass id (p.onAcceptor a)).world,
        appendAll s.messages (s.readsOf id p), s.reads ++ s.readsOf id p⟩ ∧
      ((s.pass id p).2 = .undefined ↔
        (∃ d ∈ s.calls id p, d.2.verdict s.world.live p.accepted = .undefined) ∨
          ∃ c ∈ s.readsOf id p, s.world.live c.target = false) := by
  obtain ⟨hd, hu, hs⟩ := dispatched_eq (p := p) ha hal
  have hreads : ((s.world.pass id (p.onAcceptor a)).dispatched.filterMap fun e =>
      (a.tcpSessions[e.1]?).bind fun session => callback p (e.1, session)) = s.readsOf id p := by
    rw [hd, List.filterMap_map, readsOf]
    refine List.filterMap_congr ?_
    intro d hmem
    simp only [Function.comp, hs d hmem, Option.bind_some]
  unfold pass
  simp only [ha, hreads]
  refine ⟨trivial, ?_⟩
  have hdead : (s.readsOf id p).any (fun c => (s.world.acceptors c.target).isNone) = true ↔
      ∃ c ∈ s.readsOf id p, s.world.live c.target = false := by
    rw [List.any_eq_true]
    refine exists_congr fun c => and_congr_right fun _ => ?_
    rw [World.live, ← Option.not_isSome]
    simp
  by_cases hany : ∃ c ∈ s.readsOf id p, s.world.live c.target = false
  · rw [if_pos (hdead.mpr hany)]
    exact iff_of_true rfl (Or.inr hany)
  · rw [if_neg (mt hdead.mp hany), hu]
    exact ⟨Or.inl, fun h => h.resolve_right hany⟩

theorem appendAll_apply (messages : ℕ → List (Message Capacity)) (calls : List (ReadCall Capacity))
    (target : ℕ) : appendAll messages calls target =
      messages target ++ (calls.filter (·.target = target)).map ReadCall.entry := by
  induction calls generalizing messages with
  | nil => simp [appendAll]
  | cons c calls ih =>
    have hcons : appendAll messages (c :: calls) = appendAll
        (Function.update messages c.target (messages c.target ++ [c.entry])) calls := rfl
    rw [hcons, ih]
    by_cases hc : c.target = target
    · subst hc
      simp
    · rw [Function.update_of_ne (Ne.symm hc), List.filter_cons_of_neg (by simpa using hc)]

/-- `receive` is some number of turns. -/
theorem receive_turns (id expected : ℕ) (ps : List (ReceiverPoll Capacity))
    (s : Receivers Capacity) : ∃ taken, taken <+: ps ∧
      (receive id expected ps s).1 = taken.foldl (fun s p => (s.pass id p).1) s := by
  induction ps generalizing s with
  | nil => exact ⟨[], List.prefix_rfl, rfl⟩
  | cons p ps ih =>
    rw [receive]
    split
    · obtain ⟨taken, hfront, heq⟩ := ih (s.pass id p).1
      exact ⟨p :: taken, (List.prefix_cons_inj p).mpr hfront, heq⟩
    · exact ⟨[p], (List.prefix_cons_inj p).mpr List.nil_prefix, rfl⟩

end Receivers
end UnixIpc.Engine
