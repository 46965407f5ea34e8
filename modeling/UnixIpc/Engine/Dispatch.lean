import UnixIpc.Lib.Run
import UnixIpc.Engine.Acceptor

/-! What one pass of `handleClientsSocket` does to the acceptors, and what every history built from
    constructors, move constructors, destructors and polls keeps.

    A pass only ever appends: `Sweep` says so of any world, with where each admission came from and
    which entries were dispatched. Appended entries have revents 0, so the loop passes over them, and
    up to there the vectors are the ones poll saw.

    Where every listener handler refers to its own acceptor (`Sound`), that is all there is to it. -/

namespace UnixIpc.Engine
open UnixIpc.Descriptors UnixIpc.IndexLoop UnixIpc.Run

variable {H : Type}

/-- The two vectors go together, entry by entry. -/
structure Acceptor.Parallel (a : Acceptor H) : Prop where
  length : a.clientPollFdSet.length = a.tcpSessions.length
  fd : ∀ (i : ℕ) (entry : PollFd) (session : TcpSession H), a.clientPollFdSet[i]? = some entry →
    a.tcpSessions[i]? = some session → entry.fd = session.socket.fd

/-- The same, as one equation of lists. -/
def Acceptor.Aligned (a : Acceptor H) : Prop :=
  a.clientPollFdSet.map (·.fd) = a.tcpSessions.map (·.socket.fd)

theorem Acceptor.Aligned.parallel {a : Acceptor H} (h : a.Aligned) : a.Parallel := by
  refine ⟨by simpa using congrArg List.length h, ?_⟩
  intro i entry session he hs
  have hi := congrArg (·[i]?) h
  simp only [List.getElem?_map, he, hs, Option.map_some, Option.some.injEq] at hi
  exact hi

theorem Acceptor.Aligned.push {a : Acceptor H} (h : a.Aligned) (x : Admission H) :
    (a.push x).Aligned := by
  simp only [Aligned, Acceptor.push, List.map_append, List.map_cons, List.map_nil]
  rw [show a.clientPollFdSet.map (·.fd) = _ from h]

theorem Acceptor.Aligned.polled {a : Acceptor H} (h : a.Aligned) (revents : ℕ → UInt16) :
    (a.polled revents).Aligned := (report_fd _ _).trans h

/-! ### Admissions -/

theorem foldl_push (l : List (Admission H)) (a : Acceptor H) :
    l.foldl Acceptor.push a = { a with
      clientPollFdSet := a.clientPollFdSet ++ l.map fun x => ⟨x.fd, pollRdNorm, 0⟩
      tcpSessions := a.tcpSessions ++ l.map fun x => ⟨⟨x.fd, .usual⟩, .client x.handler⟩ } := by
  induction l generalizing a with
  | nil => simp
  | cons x l ih => rw [List.foldl_cons, ih]; simp [Acceptor.push]

/-- An acceptor after some admissions: those made to it, in order. -/
theorem foldl_admitTo (l : List (Admission H)) (acceptors : ℕ → Option (Acceptor H)) (id : ℕ) :
    l.foldl admitTo acceptors id =
      (acceptors id).map fun a => (l.filter (·.acceptor = id)).foldl Acceptor.push a := by
  induction l generalizing acceptors with
  | nil => simp
  | cons x l ih =>
    rw [List.foldl_cons, ih, admitTo]
    by_cases hx : x.acceptor = id
    · subst hx
      simp [Option.map_map, Function.comp_def]
    · simp [hx, Function.update_of_ne (Ne.symm hx)]

/-- What calling a handler can do to the acceptors: nothing, or one admission by a listener. -/
theorem invoke_cases (w : World H) (session : TcpSession H) (ans : Answer) :
    ((w.invoke session ans).1.acceptors = w.acceptors ∧ (w.invoke session ans).2.1 = [] ∧
      ((w.invoke session ans).2.2 = .undefined → ∃ ref h, session.requestHandler =
        .listener ref h ∧ session.socket.type = .listener ∧ w.acceptors ref = none)) ∨
    (∃ ref h, session.requestHandler = .listener ref h ∧ session.socket.type = .listener ∧
      0 ≤ ans.accepted ∧ (w.acceptors ref).isSome ∧
      (w.invoke session ans).1.acceptors = admitTo w.acceptors ⟨ref, ans.accepted, h⟩ ∧
      (w.invoke session ans).2.1 = [⟨ref, ans.accepted, h⟩] ∧
      (w.invoke session ans).2.2 = .running) := by
  rcases hh : session.requestHandler with target | ⟨ref, h⟩
  · refine Or.inl ?_
    cases target with
    | none => simp [World.invoke, hh]
    | some target =>
      cases hc : (if ans.closes then session.socket.close w.openFds else some w.openFds) with
      | none => simp [World.invoke, hh, hc]
      | some openFds =>
        cases hr : ans.returned <;> simp [World.invoke, hh, hc, hr]
  · rcases ht : session.socket.type with _ | _
    · by_cases hneg : ans.accepted < 0
      · refine Or.inl ?_
        simp [World.invoke, hh, Socket.accept, ht, hneg]
      · cases hlive : (w.acceptors ref) with
        | none =>
          refine Or.inl ?_
          simp [World.invoke, hh, Socket.accept, ht, hneg, hlive]
        | some a =>
          refine Or.inr ⟨ref, h, rfl, rfl, not_lt.mp hneg, by simp [hlive], ?_⟩
          simp [World.invoke, hh, Socket.accept, ht, hneg, hlive]
    · refine Or.inl ?_
      simp [World.invoke, hh, Socket.accept, ht]

/-! ### One pass -/

/-- The state of a pass over the acceptor at `id`, before it looks at entry `i`. -/
structure Sweep (w : World H) (id : ℕ) (a : Acceptor H) (answers : ℕ → Answer) (i : ℕ)
    (p : Pass H) : Prop where
  acceptors : p.world.acceptors = p.admitted.foldl admitTo w.acceptors
  admitted : ∀ x ∈ p.admitted, ∃ (j : ℕ) (session : TcpSession H), a.tcpSessions[j]? = some session ∧
    session.requestHandler = .listener x.acceptor x.handler ∧ session.socket.type = .listener ∧
      0 ≤ (answers j).accepted
  dispatched : ∀ d ∈ p.dispatched, d.1 < i ∧ ∃ (entry : PollFd) (session : TcpSession H),
    a.clientPollFdSet[d.1]? = some entry ∧ a.tcpSessions[d.1]? = some session ∧
      entry.revents = pollRdNorm ∧ d.2 = session.socket
  once : p.dispatched.Pairwise (·.1 < ·.1)
  undefined : p.outcome = .undefined → ∃ session ∈ a.tcpSessions, ∃ ref h,
    session.requestHandler = .listener ref h ∧ session.socket.type = .listener ∧
      w.acceptors ref = none

/-- An index below the size: an entry that poll saw, or one appended since, whose revents are 0. -/
theorem getElem?_foldl_push {a : Acceptor H} (hlen : a.clientPollFdSet.length = a.tcpSessions.length)
    (l : List (Admission H)) {i : ℕ} (hi : i < (l.foldl Acceptor.push a).tcpSessions.length) :
    ∃ (entry : PollFd) (session : TcpSession H),
      (l.foldl Acceptor.push a).clientPollFdSet[i]? = some entry ∧
      (l.foldl Acceptor.push a).tcpSessions[i]? = some session ∧
      (a.clientPollFdSet[i]? = some entry ∧ a.tcpSessions[i]? = some session ∨
        entry.revents = 0) := by
  simp only [foldl_push, List.length_append, List.length_map] at hi ⊢
  by_cases hlt : i < a.tcpSessions.length
  · refine ⟨a.clientPollFdSet[i], a.tcpSessions[i], ?_, ?_, Or.inl ⟨?_, ?_⟩⟩
    · rw [List.getElem?_append_left (by omega), List.getElem?_eq_getElem]
    · rw [List.getElem?_append_left hlt, List.getElem?_eq_getElem]
    · exact List.getElem?_eq_getElem _
    · exact List.getElem?_eq_getElem _
  · have hk : i - a.tcpSessions.length < l.length := by omega
    refine ⟨⟨l[i - a.tcpSessions.length].fd, pollRdNorm, 0⟩,
      ⟨⟨l[i - a.tcpSessions.length].fd, .usual⟩, .client l[i - a.tcpSessions.length].handler⟩,
      ?_, ?_, Or.inr rfl⟩
    · rw [List.getElem?_append_right (by omega), hlen, List.getElem?_map,
        List.getElem?_eq_getElem hk]
      rfl
    · rw [List.getElem?_append_right (by omega), List.getElem?_map, List.getElem?_eq_getElem hk]
      rfl

theorem handleEvent_eq {id i : ℕ} {answers : ℕ → Answer} {p : Pass H} {a : Acceptor H}
    {entry : PollFd} {session : TcpSession H} (ha : p.world.acceptors id = some a)
    (he : a.clientPollFdSet[i]? = some entry) (hs : a.tcpSessions[i]? = some session) :
    p.handleEvent id answers i =
      if entry.revents = pollRdNorm then
        { world := (p.world.invoke session (answers i)).1
          readyCount := if (p.world.invoke session (answers i)).2.2 = .running then p.readyCount - 1
            else p.readyCount
          dispatched := p.dispatched ++ [(i, session.socket)]
          admitted := p.admitted ++ (p.world.invoke session (answers i)).2.1
          outcome := (p.world.invoke session (answers i)).2.2 }
      else p := by
  simp only [Pass.handleEvent, ha, Option.bind_some, he, hs]

theorem Sweep.current {w : World H} {id i : ℕ} {a : Acceptor H} {answers : ℕ → Answer} {p : Pass H}
    (h : Sweep w id a answers i p) (ha : w.acceptors id = some a) :
    ∃ l : List (Admission H), p.world.acceptors id = some (l.foldl Acceptor.push a) := by
  rw [h.acceptors, foldl_admitTo, ha]
  exact ⟨_, rfl⟩

theorem isSome_foldl_admitTo (l : List (Admission H)) (acceptors : ℕ → Option (Acceptor H))
    (id : ℕ) : (l.foldl admitTo acceptors id).isSome = (acceptors id).isSome := by
  rw [foldl_admitTo, Option.isSome_map]

theorem Sweep.later {w : World H} {id i : ℕ} {a : Acceptor H} {answers : ℕ → Answer} {p : Pass H}
    (h : Sweep w id a answers i p) : Sweep w id a answers (i + 1) p :=
  ⟨h.acceptors, h.admitted, fun d hd => ⟨by have := (h.dispatched d hd).1; omega,
    (h.dispatched d hd).2⟩, h.once, h.undefined⟩

/-- One round of the loop. -/
theorem Sweep.step {w : World H} {id i : ℕ} {a : Acceptor H} {answers : ℕ → Answer} {p : Pass H}
    (h : Sweep w id a answers i p) (ha : w.acceptors id = some a)
    (hlen : a.clientPollFdSet.length = a.tcpSessions.length) (hgo : p.goesOn id i = true) :
    Sweep w id a answers (i + 1) (p.handleEvent id answers i) := by
  obtain ⟨l, hl⟩ := h.current ha
  have hi : i < (l.foldl Acceptor.push a).tcpSessions.length := by
    simp only [Pass.goesOn, Pass.size, hl, Option.map_some, Option.getD_some, Bool.and_eq_true,
      decide_eq_true_eq] at hgo
    exact hgo.2
  obtain ⟨entry, session, he, hs, hold⟩ := getElem?_foldl_push hlen l hi
  rw [handleEvent_eq hl he hs]
  split
  · rename_i hready
    obtain ⟨he', hs'⟩ : a.clientPollFdSet[i]? = some entry ∧ a.tcpSessions[i]? = some session := by
      rcases hold with hold | hzero
      · exact hold
      · rw [hzero] at hready; exact absurd hready (by decide)
    have hdispatched : ∀ d ∈ p.dispatched ++ [(i, session.socket)], d.1 < i + 1 ∧
        ∃ (entry : PollFd) (session : TcpSession H), a.clientPollFdSet[d.1]? = some entry ∧
          a.tcpSessions[d.1]? = some session ∧ entry.revents = pollRdNorm ∧
          d.2 = session.socket := by
      intro d hd
      rcases List.mem_append.mp hd with hd | hd
      · exact h.later.dispatched d hd
      · rw [List.mem_singleton.mp hd]
        exact ⟨Nat.lt_succ_self i, entry, session, he', hs', hready, rfl⟩
    have honce : (p.dispatched ++ [(i, session.socket)]).Pairwise (·.1 < ·.1) := by
      rw [List.pairwise_append]
      refine ⟨h.once, List.pairwise_singleton _ _, ?_⟩
      intro d hd e he
      rw [List.mem_singleton.mp he]
      exact (h.dispatched d hd).1
    rcases invoke_cases p.world session (answers i) with ⟨hw, hadm, hund⟩ |
      ⟨ref, hdl, hh, ht, hacc, _, hw, hadm, hrun⟩
    · refine ⟨?_, ?_, hdispatched, honce, ?_⟩
      · rw [hw, hadm, List.append_nil]; exact h.acceptors
      · rw [hadm, List.append_nil]; exact h.admitted
      · intro hu
        obtain ⟨ref, hdl, hh, ht, hdead⟩ := hund hu
        refine ⟨session, List.mem_of_getElem? hs', ref, hdl, hh, ht, ?_⟩
        rwa [h.acceptors, ← Option.isNone_iff_eq_none, ← Option.not_isSome,
          isSome_foldl_admitTo, Option.not_isSome, Option.isNone_iff_eq_none] at hdead
    · refine ⟨?_, ?_, hdispatched, honce, by simp [hrun]⟩
      · rw [hw, hadm, List.foldl_append, h.acceptors]; rfl
      · intro x hx
        rw [hadm] at hx
        rcases List.mem_append.mp hx with hx | hx
        · exact h.admitted x hx
        · rw [List.mem_singleton.mp hx]
          exact ⟨i, session, hs', hh, ht, hacc⟩
  · exact h.later

/-- A whole pass over an acceptor whose entries and sessions match in number. -/
theorem sweep_handleClientsSocket {w : World H} {id : ℕ} {a : Acceptor H}
    (ha : w.acceptors id = some a) (hlen : a.clientPollFdSet.length = a.tcpSessions.length)
    (readyCount : ℤ) (answers : ℕ → Answer) :
    ∃ i, Sweep w id a answers i (w.handleClientsSocket id readyCount answers) := by
  refine ⟨_, loop_inv (Sweep w id a answers) (fun i p h hgo => h.step ha hlen hgo) _ 0 _ ?_⟩
  exact ⟨rfl, by simp, by simp, List.Pairwise.nil, by simp⟩

/-- The rounds a pass has left: unseen entries, and events that may each append one more. -/
def remaining (id i : ℕ) (p : Pass H) : ℕ := p.size id - i + p.readyCount.toNat

theorem size_admitTo_le (acceptors : ℕ → Option (Acceptor H)) (x : Admission H) (id : ℕ) :
    ((admitTo acceptors x id).map (·.tcpSessions.length)).getD 0 ≤
      ((acceptors id).map (·.tcpSessions.length)).getD 0 + 1 := by
  rw [admitTo]
  by_cases hx : x.acceptor = id
  · subst hx
    cases acceptors x.acceptor <;> simp [Acceptor.push]
  · rw [Function.update_of_ne (Ne.symm hx)]; omega

theorem remaining_lt (id i : ℕ) (answers : ℕ → Answer) (p : Pass H) (hgo : p.goesOn id i = true) :
    remaining id (i + 1) (p.handleEvent id answers i) < remaining id i p := by
  simp only [Pass.goesOn, Bool.and_eq_true, decide_eq_true_eq] at hgo
  obtain ⟨⟨hrun, hready⟩, hi⟩ := hgo
  unfold Pass.handleEvent
  split
  · rename_i session entry _ _
    split
    · simp only [remaining]
      rcases invoke_cases p.world session (answers i) with ⟨hw, _, _⟩ |
        ⟨ref, hdl, _, _, _, _, hw, _, hout⟩
      · simp only [Pass.size, hw] at hi ⊢
        split <;> omega
      · have hle := size_admitTo_le p.world.acceptors ⟨ref, (answers i).accepted, hdl⟩ id
        rw [if_pos hout]
        simp only [Pass.size, hw] at hi ⊢
        omega
    · simp only [remaining]; omega
  · simp only [remaining]
    simp only [Pass.size] at hi ⊢
    omega

/-- The pass ends by its own condition, never for want of fuel. -/
theorem handleClientsSocket_ended (w : World H) (id : ℕ) (readyCount : ℤ)
    (answers : ℕ → Answer) :
    ∃ i, (w.handleClientsSocket id readyCount answers).goesOn id i = false :=
  ⟨_, loop_ended (fun i p => remaining_lt id i answers p) _ 0 _ (by simp [remaining])⟩

/-! ### Events -/

/-- The events that are possible in a world, each with what it takes and what it leaves. -/
inductive World.Steps (w : World H) : Event H → World H → Prop
  | construct {id l target} (hfree : w.acceptors id = none) :
      Steps w (.construct id l target)
        { w.put id (some (.construct id l target)) with openFds := l.socket.fd :: w.openFds }
  | moveConstruct {id other o a} (hfree : w.acceptors id = none)
      (ho : w.acceptors other = some o) (ha : Acceptor.moveConstruct id o = some a) :
      Steps w (.moveConstruct id other) ((w.put other (some o.moved)).put id (some a))
  | moveAssign {id other t o} (hne : id ≠ other) (ht : w.acceptors id = some t)
      (ho : w.acceptors other = some o) :
      Steps w (.moveAssign id other) ((w.put other (some o.moved)).put id (some (.moveAssign id o)))
  | destroy {id a openFds} (ha : w.acceptors id = some a)
      (hclose : closeAll a.tcpSessions w.openFds = some openFds) :
      Steps w (.destroy id) { w.put id none with openFds := openFds }
  | pass {id a p} (ha : w.acceptors id = some a) (hdefined : (w.pass id p).outcome ≠ .undefined) :
      Steps w (.pass id p) (w.pass id p).world

/-- A move construction needs a session 0, and renews its handler alone. -/
theorem moveConstruct_cases {id : ℕ} {o a : Acceptor H} (h : Acceptor.moveConstruct id o = some a) :
    ∃ session rest, o.tcpSessions = session :: rest ∧ a = Acceptor.taken id o
      ({ session with requestHandler := .listener id o.clientRequestHandler } :: rest) := by
  unfold Acceptor.moveConstruct at h
  split at h
  · exact absurd h (by simp)
  · rename_i session rest hs
    exact ⟨session, rest, hs, (Option.some.inj h).symm⟩

/-- STEP: every step is one of these. -/
theorem World.step_cases {w w' : World H} {e : Event H} (h : w.step e = some w') :
    w.Steps e w' := by
  cases e with
  | construct id l target =>
    simp only [World.step] at h
    split at h
    · exact absurd h (by simp)
    · rename_i hfree
      obtain rfl := Option.some.inj h
      exact .construct hfree
  | moveConstruct id other =>
    simp only [World.step] at h
    split at h
    · rename_i o hfree ho
      obtain ⟨a, ha, rfl⟩ := Option.map_eq_some_iff.mp h
      exact .moveConstruct hfree ho ha
    · exact absurd h (by simp)
  | moveAssign id other =>
    simp only [World.step] at h
    split at h
    · rename_i t o ht ho
      split at h
      · exact absurd h (by simp)
      · rename_i hne
        obtain rfl := Option.some.inj h
        exact .moveAssign hne ht ho
    · exact absurd h (by simp)
  | destroy id =>
    simp only [World.step] at h
    split at h
    · exact absurd h (by simp)
    · rename_i a ha
      obtain ⟨openFds, hclose, rfl⟩ := Option.map_eq_some_iff.mp h
      exact .destroy ha hclose
  | pass id p =>
    simp only [World.step] at h
    split at h
    · exact absurd h (by simp)
    · rename_i a ha
      split at h
      · exact absurd h (by simp)
      · rename_i hdefined
        obtain rfl := Option.some.inj h
        exact .pass ha hdefined

/-- Every live acceptor, with its address, is as `Q` says. -/
def World.All (Q : ℕ → Acceptor H → Prop) (w : World H) : Prop :=
  ∀ id a, w.acceptors id = some a → Q id a

theorem World.empty_all (Q : ℕ → Acceptor H → Prop) : (World.empty : World H).All Q :=
  fun _ _ h => absurd h (by simp [World.empty])

theorem World.All.put {Q : ℕ → Acceptor H → Prop} {w : World H} (h : w.All Q) {id : ℕ}
    {a : Option (Acceptor H)} (ha : ∀ a', a = some a' → Q id a') : (w.put id a).All Q := by
  intro id' a' ha'
  simp only [World.put] at ha'
  by_cases hid : id' = id
  · subst hid
    rw [Function.update_self] at ha'
    exact ha a' ha'
  · rw [Function.update_of_ne hid] at ha'
    exact h id' a' ha'

theorem World.All.put_some {Q : ℕ → Acceptor H → Prop} {w : World H} (h : w.All Q) {id : ℕ}
    {a : Acceptor H} (ha : Q id a) : (w.put id (some a)).All Q := by
  refine h.put ?_
  intro a' ha'
  rw [Option.some.injEq] at ha'
  exact ha' ▸ ha

/-- What an event keeps: the constructors, the moves and the passes have to keep it. -/
theorem World.All.step {Q : ℕ → Acceptor H → Prop} {w w' : World H} {e : Event H} (h : w.All Q)
    (hconstruct : ∀ id l target, Q id (.construct id l target))
    (hmoved : ∀ id (a : Acceptor H), Q id a.moved)
    (hmove : ∀ id other (o a : Acceptor H), Q other o → Acceptor.moveConstruct id o = some a →
      Q id a)
    (hassign : ∀ id other (o : Acceptor H), e = .moveAssign id other → Q other o →
      Q id (.moveAssign id o))
    (hpass : ∀ id a p, w.acceptors id = some a → (w.pass id p).world.All Q)
    (hstep : w.step e = some w') : w'.All Q := by
  cases World.step_cases hstep with
  | construct => exact h.put_some (hconstruct _ _ _)
  | moveConstruct _ ho ha =>
    exact (h.put_some (hmoved _ _)).put_some (hmove _ _ _ _ (h _ _ ho) ha)
  | moveAssign _ _ ho =>
    exact (h.put_some (hmoved _ _)).put_some (hassign _ _ _ rfl (h _ _ ho))
  | destroy => exact h.put fun _ hm => absurd hm (by simp)
  | pass ha => exact hpass _ _ _ ha

/-! ### Histories without move assignment -/

/-- An acceptor at address `id` as the constructors leave it: its listener session comes first and
    refers to it, every other session is a client's. Or it has been moved from and is empty. -/
inductive Acceptor.Sound (id : ℕ) (a : Acceptor H) : Prop
  | whole (h : H) (rest : List (TcpSession H))
      (hs : a.tcpSessions = ⟨a.listenerSocket, .listener id (some h)⟩ :: rest)
      (ht : a.listenerSocket.type = .listener) (hh : a.clientRequestHandler = some h)
      (hrest : ∀ session ∈ rest, ∃ target, session.requestHandler = .client target)
      (hal : a.Aligned)
  | moved (hp : a.clientPollFdSet = []) (hs : a.tcpSessions = []) (hh : a.clientRequestHandler = none)

def World.Sound (w : World H) : Prop := w.All fun id a => a.Sound id

/-- It has not been moved from: it still has its request handler. -/
def Acceptor.Whole (a : Acceptor H) : Prop := a.clientRequestHandler.isSome

/-- A pass `r` over the acceptor `a` at `id`: each session is dispatched at most once, only if poll
    reported its own entry, with that entry's descriptor, and only if it was there before; a refused
    connection leaves every vector as poll left it. -/
structure Orderly (w : World H) (id : ℕ) (a : Acceptor H) (p : PollAnswer) (r : Pass H) : Prop where
  defined : r.outcome ≠ .undefined
  once : r.dispatched.Pairwise (·.1 < ·.1)
  reported : ∀ d ∈ r.dispatched, ∃ entry, a.clientPollFdSet[d.1]? = some entry ∧
    p.revents d.1 = pollRdNorm ∧ d.2.fd = entry.fd
  old : ∀ d ∈ r.dispatched, d.1 < a.tcpSessions.length
  refused : (p.answers 0).accepted < 0 →
    r.world.acceptors = (if p.result < 0 then w else w.poll id p.revents).acceptors

theorem Acceptor.Sound.aligned {id : ℕ} {a : Acceptor H} (h : a.Sound id) : a.Aligned := by
  cases h with
  | whole _ _ _ _ _ _ hal => exact hal
  | moved hp hs => simp [Acceptor.Aligned, hp, hs]

/-- Only entry 0 is a listener, and it refers to its own acceptor. -/
theorem Acceptor.Sound.listener {id j : ℕ} {a : Acceptor H} {session : TcpSession H} {ref : ℕ}
    {target : Option H} (h : a.Sound id) (hs : a.tcpSessions[j]? = some session)
    (hl : session.requestHandler = .listener ref target) : j = 0 ∧ ref = id := by
  cases h with
  | moved _ hnil => simp [hnil] at hs
  | whole h rest heq _ _ hrest =>
    rw [heq] at hs
    rcases j with _ | j
    · simp only [List.getElem?_cons_zero, Option.some.injEq] at hs
      subst hs
      simp only [Handler.listener.injEq] at hl
      exact ⟨rfl, hl.1.symm⟩
    · rw [List.getElem?_cons_succ] at hs
      obtain ⟨target', hc⟩ := hrest session (List.mem_of_getElem? hs)
      rw [hc] at hl
      exact absurd hl (by simp)

theorem Acceptor.Sound.push {id : ℕ} {a : Acceptor H} (h : a.Sound id) (hne : a.tcpSessions ≠ [])
    (x : Admission H) : (a.push x).Sound id ∧ (a.push x).tcpSessions ≠ [] := by
  refine ⟨?_, by simp [Acceptor.push]⟩
  cases h with
  | moved _ hs => exact absurd hs hne
  | whole h rest hs ht hh hrest hal =>
    refine .whole h (rest ++ [⟨⟨x.fd, .usual⟩, .client x.handler⟩])
      (by simp [Acceptor.push, hs]) ht hh ?_ (hal.push x)
    intro session hmem
    rcases List.mem_append.mp hmem with hmem | hmem
    · exact hrest session hmem
    · exact ⟨x.handler, by rw [List.mem_singleton.mp hmem]⟩

theorem Acceptor.Sound.foldl_push {id : ℕ} : ∀ (l : List (Admission H)) (a : Acceptor H),
    a.Sound id → a.tcpSessions ≠ [] → (l.foldl Acceptor.push a).Sound id
  | [], _, h, _ => h
  | x :: l, a, h, hne => by
    obtain ⟨hpush, hne'⟩ := h.push hne x
    exact Sound.foldl_push l _ hpush hne'

theorem Acceptor.Sound.polled {id : ℕ} {a : Acceptor H} (h : a.Sound id) (revents : ℕ → UInt16) :
    (a.polled revents).Sound id := by
  cases h with
  | whole h rest hs ht hh hrest hal => exact .whole h rest hs ht hh hrest (hal.polled revents)
  | moved hp hs hh => exact .moved (by simp [Acceptor.polled, report, hp]) hs hh

theorem World.poll_acceptors (w : World H) (id : ℕ) (revents : ℕ → UInt16) :
    (w.poll id revents).acceptors =
      Function.update w.acceptors id ((w.acceptors id).map (·.polled revents)) := rfl

theorem World.Sound.poll {w : World H} (h : w.Sound) (id : ℕ) (revents : ℕ → UInt16) :
    (w.poll id revents).Sound := by
  intro id' a ha
  rw [World.poll_acceptors] at ha
  by_cases hid : id' = id
  · subst hid
    rw [Function.update_self, Option.map_eq_some_iff] at ha
    obtain ⟨a0, ha0, rfl⟩ := ha
    exact (h _ a0 ha0).polled revents
  · rw [Function.update_of_ne hid] at ha
    exact h id' a ha

/-- A pass, from a world in which every handler refers to its own acceptor. -/
theorem World.Sound.handleClientsSocket {w : World H} {id : ℕ} {a : Acceptor H} (h : w.Sound)
    (ha : w.acceptors id = some a) (readyCount : ℤ) (answers : ℕ → Answer) :
    ∃ i, Sweep w id a answers i (w.handleClientsSocket id readyCount answers) ∧
      (w.handleClientsSocket id readyCount answers).outcome ≠ .undefined ∧
      ∀ x ∈ (w.handleClientsSocket id readyCount answers).admitted,
        x.acceptor = id ∧ 0 ≤ (answers 0).accepted ∧ a.tcpSessions ≠ [] := by
  have hs := h id a ha
  have hlen := hs.aligned.parallel.length
  obtain ⟨i, hsweep⟩ := sweep_handleClientsSocket ha hlen readyCount answers
  refine ⟨i, hsweep, fun hu => ?_, fun x hx => ?_⟩
  · obtain ⟨session, hmem, ref, target, hl, _, hdead⟩ := hsweep.undefined hu
    obtain ⟨j, hj⟩ := List.mem_iff_getElem?.mp hmem
    obtain ⟨_, rfl⟩ := hs.listener hj hl
    rw [ha] at hdead
    exact absurd hdead (by simp)
  obtain ⟨j, session, hj, hl, _, hacc⟩ := hsweep.admitted x hx
  obtain ⟨rfl, href⟩ := hs.listener hj hl
  refine ⟨href, hacc, ?_⟩
  intro hnil
  simp [hnil] at hj

theorem World.Sound.pass {w : World H} {id : ℕ} {a : Acceptor H} (h : w.Sound)
    (ha : w.acceptors id = some a) (p : PollAnswer) : (w.pass id p).world.Sound := by
  rw [World.pass]
  split
  · exact h
  have ha' : (w.poll id p.revents).acceptors id = some (a.polled p.revents) := by
    simp [World.poll_acceptors, ha]
  obtain ⟨i, hsweep, _, hadm⟩ := (h.poll id p.revents).handleClientsSocket ha' p.result p.answers
  intro id' b hb
  rw [hsweep.acceptors, foldl_admitTo, Option.map_eq_some_iff] at hb
  obtain ⟨b0, hb0, rfl⟩ := hb
  have hb0s := h.poll id p.revents id' b0 hb0
  by_cases hid : id' = id
  · subst hid
    obtain rfl : b0 = a.polled p.revents := by rw [ha'] at hb0; exact (Option.some.inj hb0).symm
    cases hl : List.filter (fun x => decide (x.acceptor = id'))
        ((w.poll id' p.revents).handleClientsSocket id' p.result p.answers).admitted with
    | nil => exact hb0s
    | cons x l =>
      have hx : x ∈ ((w.poll id' p.revents).handleClientsSocket id' p.result p.answers).admitted :=
        (List.mem_filter.mp (hl ▸ List.mem_cons_self ..)).1
      exact Acceptor.Sound.foldl_push _ _ hb0s (hadm x hx).2.2
  · have hnil : List.filter (fun x => decide (x.acceptor = id'))
        ((w.poll id p.revents).handleClientsSocket id p.result p.answers).admitted = [] := by
      rw [List.filter_eq_nil_iff]
      intro x hx
      simp [(hadm x hx).1, Ne.symm hid]
    rw [hnil]
    exact hb0s

theorem World.Sound.pass_orderly {w : World H} {id : ℕ} {a : Acceptor H} (h : w.Sound)
    (ha : w.acceptors id = some a) (p : PollAnswer) : Orderly w id a p (w.pass id p) := by
  rw [World.pass]
  split
  · rename_i hneg
    exact ⟨by simp, List.Pairwise.nil, by simp, by simp, fun _ => by rw [if_pos hneg]⟩
  · rename_i hpos
    have ha' : (w.poll id p.revents).acceptors id = some (a.polled p.revents) := by
      simp [World.poll_acceptors, ha]
    obtain ⟨i, hsweep, hdef, hadm⟩ :=
      (h.poll id p.revents).handleClientsSocket ha' p.result p.answers
    refine ⟨hdef, hsweep.once, ?_, ?_, ?_⟩
    · intro d hd
      obtain ⟨_, entry, session, he, hs, hrev, hsock⟩ := hsweep.dispatched d hd
      simp only [Acceptor.polled, report_getElem?, Option.map_eq_some_iff] at he hs
      obtain ⟨e, hae, rfl⟩ := he
      refine ⟨e, hae, hrev, ?_⟩
      rw [hsock]
      exact ((h id a ha).aligned.parallel.fd _ _ _ hae hs).symm
    · intro d hd
      obtain ⟨_, _, session, _, hs, _⟩ := hsweep.dispatched d hd
      exact (List.getElem?_eq_some_iff.mp hs).1
    · intro hacc
      rw [if_neg hpos, hsweep.acceptors]
      cases hl : ((w.poll id p.revents).handleClientsSocket id p.result p.answers).admitted with
      | nil => rfl
      | cons x l =>
        have := (hadm x (hl ▸ List.mem_cons_self ..)).2.1
        omega

theorem Acceptor.construct_sound (id : ℕ) (l : TcpListener) (h : H) :
    (Acceptor.construct id l h).Sound id :=
  .whole h [] rfl l.listening rfl (by simp) rfl

theorem Acceptor.moved_sound (id : ℕ) (a : Acceptor H) : a.moved.Sound id := .moved rfl rfl rfl

/-- The move constructor rebinds session 0 to the new object. -/
theorem Acceptor.Sound.moveConstruct {id other : ℕ} {o a : Acceptor H} (h : o.Sound other)
    (hm : Acceptor.moveConstruct id o = some a) : a.Sound id := by
  cases h with
  | moved _ hs => simp [Acceptor.moveConstruct, hs] at hm
  | whole target rest hs ht hh hrest hal =>
    simp only [Acceptor.moveConstruct, hs, Option.some.injEq] at hm
    subst hm
    refine .whole target rest (by simp [Acceptor.taken, hh]) ht hh hrest ?_
    simpa [Acceptor.Aligned, Acceptor.taken, hs] using hal

/-- Every event but move assignment keeps the handlers bound to their own acceptors. -/
theorem World.Sound.step {w w' : World H} (h : w.Sound) {e : Event H}
    (he : ∀ id other, e ≠ .moveAssign id other) (hstep : w.step e = some w') : w'.Sound :=
  World.All.step h Acceptor.construct_sound Acceptor.moved_sound
    (fun _ _ _ _ hs hm => hs.moveConstruct hm)
    (fun id other _ heq _ => absurd heq (he id other)) (fun _ _ p ha => h.pass ha p) hstep

/-- CORRECT: after any history of constructions, move constructions, destructions and polls, every
    live acceptor has its two vectors in step, with the listener first unless it was moved from, and
    whatever the next poll and the handlers after it do, its pass is orderly. -/
theorem World.orderly (es : List (Event H)) (hes : ∀ e ∈ es, ∀ id other, e ≠ .moveAssign id other)
    (w : World H) (hrun : World.empty.run es = some w) (id : ℕ) (a : Acceptor H)
    (ha : w.acceptors id = some a) :
    a.Parallel ∧
      (a.Whole → (a.tcpSessions[0]?).map (·.socket) = some a.listenerSocket ∧
        a.listenerSocket.type = .listener) ∧
      ∀ p : PollAnswer, Orderly w id a p (w.pass id p) := by
  have hw : w.Sound :=
    foldlM_inv (fun _ _ _ h he hstep => h.step he hstep) es _ w (World.empty_all _) hes hrun
  refine ⟨(hw id a ha).aligned.parallel, ?_, fun p => hw.pass_orderly ha p⟩
  intro hwhole
  cases hw id a ha with
  | whole h rest hs ht => exact ⟨by simp [hs], ht⟩
  | moved _ _ hh => simp [Acceptor.Whole, hh] at hwhole

/-- A listening socket at a descriptor. -/
def listenerAt (fd : ℕ) : TcpListener := ⟨⟨fd, .listener⟩, rfl, Int.natCast_nonneg fd⟩

/-- An acceptor is built, moved into another object and polled with its listener ready. -/
def movedAndPolled : List (Event Unit) :=
  [.construct 0 (listenerAt 3) (), .moveConstruct 1 0,
    .pass 1 ⟨1, fun _ => pollRdNorm, fun _ => ⟨4, some true, false⟩⟩]

theorem World.orderly_movedAndPolled : ∃ w a, World.empty.run movedAndPolled = some w ∧
    w.acceptors 1 = some a ∧ a.tcpSessions.map (·.socket.fd) = [3, 4] ∧ a.Parallel ∧
    (a.Whole → (a.tcpSessions[0]?).map (·.socket) = some a.listenerSocket ∧
      a.listenerSocket.type = .listener) ∧
    ∀ p : PollAnswer, Orderly w 1 a p (w.pass 1 p) := by
  refine ⟨_, _, rfl, rfl, rfl, World.orderly movedAndPolled ?_ _ rfl 1 _ rfl⟩
  intro e he id other
  simp only [movedAndPolled, List.mem_cons, List.not_mem_nil, or_false] at he
  rcases he with rfl | rfl | rfl <;> simp

end UnixIpc.Engine
