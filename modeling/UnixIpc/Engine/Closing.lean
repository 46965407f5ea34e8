import UnixIpc.Lib.Ledger
import UnixIpc.Lib.Owners
import UnixIpc.Engine.Calls

/-! Who closes what an acceptor has opened. The listener's descriptor is in three sockets and a
    connection's in one; sessions go from object to object with the vectors, and only a destructor
    closes, the sessions it finds in its own object.

        construct, accept ──▶ opened      session 0, 1, 2 …  ──move──▶ the same sessions elsewhere
        destructor ──▶ closed                    of one object

    `History` is any sequence of constructions, polls, move constructions and destructions with the
    account of it. The sessions' descriptors are the live resources (`Owners`), and `Ledger` adds up
    what was opened and closed. -/

namespace UnixIpc.Engine
open UnixIpc.Descriptors UnixIpc.IndexLoop

variable {H : Type}

/-- The descriptors of the sessions. -/
def Acceptor.sessionFds (a : Acceptor H) : List ℤ := a.tcpSessions.map (·.socket.fd)

def World.sessionFds (w : World H) (id : ℕ) : List ℤ :=
  ((w.acceptors id).map Acceptor.sessionFds).getD []

/-- What the kernel gives out in an event: to the listener's socket, or at accept(2). -/
def Event.opens (w : World H) : Event H → List ℤ
  | .construct _ tcpListener _ => [tcpListener.socket.fd]
  | .pass id p => (w.pass id p).admitted.map (·.fd)
  | _ => []

/-- The calls of `CloseSocket`, all of them in the destructor's loop. -/
def Event.closes (w : World H) : Event H → List ℤ
  | .destroy id => (w.sessionFds id).filter (0 < ·)
  | _ => []

/-- New descriptors are positive and not open, no handler closes its socket, and nothing is move
    assigned. Answer 0 is the one for the listener's session. -/
def Event.Allowed (w : World H) : Event H → Prop
  | .construct _ tcpListener _ =>
    0 < tcpListener.socket.fd ∧ tcpListener.socket.fd ∉ w.openFds
  | .pass _ p => (∀ i, (p.answers i).closes = false) ∧
    ((p.answers 0).accepted < 0 ∨ 0 < (p.answers 0).accepted ∧ (p.answers 0).accepted ∉ w.openFds)
  | .moveAssign _ _ => False
  | _ => True

/-- The events so far, what they opened and what they closed, and the world after them. -/
inductive History : List (Event H) → List ℤ → List ℤ → World H → Prop
  | empty : History [] [] [] World.empty
  | next {es : List (Event H)} {opened closed : List ℤ} {w w' : World H} {e : Event H}
      (before : History es opened closed w) (allowed : e.Allowed w) (step : w.step e = some w') :
      History (es ++ [e]) (opened ++ e.opens w) (closed ++ e.closes w) w'

/-- The object at `id` has been moved from and not destroyed since. -/
def MovedFrom (id : ℕ) (es : List (Event H)) : Prop :=
  ∃ before id' later, es = before ++ .moveConstruct id' id :: later ∧ .destroy id ∉ later

/-! ### A pass opens at most one descriptor -/

/-- The call of the handler at index `i` throws: that of the listener when nothing is accepted, a
    client's when it says so. -/
def Answer.Throws (ans : Answer) (i : ℕ) : Prop :=
  if i = 0 then ans.accepted < 0 else ans.returned = none

/-- A client's handler that leaves its socket alone leaves the world alone. -/
theorem invoke_client {w : World H} {session : TcpSession H} {ans : Answer} {target : Option H}
    (hc : session.requestHandler = .client target) (hno : ans.closes = false) :
    (w.invoke session ans).1 = w ∧ (w.invoke session ans).2.1 = [] ∧
      (ans.returned = none → (w.invoke session ans).2.2 ≠ .running) := by
  rcases target with _ | target
  · simp [World.invoke, hc]
  · refine ⟨by simp [World.invoke, hc, hno], by simp [World.invoke, hc, hno], ?_⟩
    intro hthrows
    simp [World.invoke, hc, hno, hthrows]

/-- Calls of clients' handlers. None closes its socket as long as none has thrown. -/
theorem calls_clients {answers : ℕ → Answer} {ds : List (ℕ × TcpSession H)}
    (hclients : ∀ d ∈ ds, ∃ target, d.2.requestHandler = .client target)
    (hno : ∀ pre d post, ds = pre ++ d :: post → (∀ e ∈ pre, (answers e.1).returned ≠ none) →
      (answers d.1).closes = false) (p : Pass H) :
    (ds.foldl (Pass.call answers) p).world = p.world ∧
      (ds.foldl (Pass.call answers) p).admitted = p.admitted := by
  induction ds generalizing p with
  | nil => exact ⟨rfl, rfl⟩
  | cons d ds ih =>
    by_cases hopen : p.outcome = .running ∧ 0 < p.readyCount
    swap
    · rw [call_stopped hopen]
      exact ⟨rfl, rfl⟩
    obtain ⟨target, hd⟩ := hclients d (List.mem_cons_self ..)
    obtain ⟨hw, hadm, hthrows⟩ := invoke_client (w := p.world) hd (hno [] d ds rfl (by simp))
    have hcall : (Pass.call answers p d).world = p.world ∧
        (Pass.call answers p d).admitted = p.admitted := by
      rw [Pass.call, if_pos hopen]
      simp [hw, hadm]
    rw [List.foldl_cons]
    by_cases hreturned : (answers d.1).returned = none
    · rw [call_stopped (call_thrown hopen (hthrows hreturned))]
      exact hcall
    · rw [← hcall.1, ← hcall.2]
      refine ih (fun e he => hclients e (List.mem_cons_of_mem _ he)) ?_ _
      intro pre e post hsplit hpre
      refine hno (d :: pre) e post (by rw [hsplit, List.cons_append]) ?_
      intro e' he'
      rcases List.mem_cons.mp he' with rfl | he'
      · exact hreturned
      · exact hpre e' he'

theorem Socket.accept_ok {s c : Socket} {result : ℤ} (h : s.accept result = .ok c) :
    c = ⟨result, .usual⟩ ∧ 0 ≤ result := by
  unfold Socket.accept at h
  split at h
  · exact absurd h (by simp)
  split at h
  · exact absurd h (by simp)
  · rename_i hresult
    exact ⟨(Except.ok.inj h).symm, not_lt.mp hresult⟩

/-- The call of the listener's handler: a connection goes to the acceptor it refers to. -/
theorem invoke_listener (w : World H) (session : TcpSession H) (ans : Answer) {id : ℕ}
    {target : Option H} (hl : session.requestHandler = .listener id target)
    (hlive : (w.acceptors id).isSome) : ∃ l : List (Admission H),
      (l = [] ∨ l = [⟨id, ans.accepted, target⟩] ∧ 0 ≤ ans.accepted) ∧
      (w.invoke session ans).1 = ⟨l.foldl admitTo w.acceptors, l.map (·.fd) ++ w.openFds⟩ ∧
      (w.invoke session ans).2.1 = l ∧
      (ans.accepted < 0 → (w.invoke session ans).2.2 ≠ .running) := by
  rw [World.invoke, hl]
  dsimp only
  rcases haccept : session.socket.accept ans.accepted with failure | clientSocket
  · exact ⟨[], .inl rfl, rfl, rfl, by simp⟩
  · obtain ⟨rfl, hresult⟩ := Socket.accept_ok haccept
    dsimp only
    rw [if_pos hlive]
    exact ⟨_, .inr ⟨rfl, hresult⟩, rfl, rfl, fun hneg => absurd hneg (not_lt.mpr hresult)⟩

/-- The call of the listener's handler, and then those of clients who leave their sockets alone once
    a connection is taken in. -/
theorem calls_listener {w : World H} {id : ℕ} (hlive : (w.acceptors id).isSome) (socket : Socket)
    (target : Option H) (readyCount : ℤ) {answers : ℕ → Answer} {ds : List (ℕ × TcpSession H)}
    (hclients : ∀ d ∈ ds, ∃ target, d.2.requestHandler = .client target)
    (hno : ¬ (answers 0).Throws 0 → ∀ pre d post, ds = pre ++ d :: post →
      (∀ e ∈ pre, (answers e.1).returned ≠ none) → (answers d.1).closes = false) :
    ∃ l : List (Admission H),
      (l = [] ∨ l = [⟨id, (answers 0).accepted, target⟩] ∧ 0 ≤ (answers 0).accepted) ∧
      (((0, ⟨socket, .listener id target⟩) :: ds).foldl (Pass.call answers)
        (w.begin readyCount)).world = ⟨l.foldl admitTo w.acceptors, l.map (·.fd) ++ w.openFds⟩ ∧
      (((0, ⟨socket, .listener id target⟩) :: ds).foldl (Pass.call answers)
        (w.begin readyCount)).admitted = l := by
  by_cases hopen : (w.begin readyCount).outcome = .running ∧ 0 < (w.begin readyCount).readyCount
  swap
  · rw [call_stopped hopen]
    exact ⟨[], .inl rfl, rfl, rfl⟩
  obtain ⟨l, hl, hworld, hadmitted, hthrows⟩ :=
    invoke_listener w ⟨socket, .listener id target⟩ (answers 0) rfl hlive
  refine ⟨l, hl, ?_⟩
  obtain ⟨q, hq⟩ : ∃ q, q = Pass.call answers (w.begin readyCount)
    (0, ⟨socket, .listener id target⟩) := ⟨_, rfl⟩
  have hafter : (ds.foldl (Pass.call answers) q).world = q.world ∧
      (ds.foldl (Pass.call answers) q).admitted = q.admitted := by
    by_cases hneg : (answers 0).accepted < 0
    · have hover : ¬ (q.outcome = .running ∧ 0 < q.readyCount) := by
        rw [hq]
        exact call_thrown hopen (hthrows hneg)
      rw [call_stopped hover]
      exact ⟨rfl, rfl⟩
    · exact calls_clients hclients (hno hneg) q
  rw [List.foldl_cons, ← hq, hafter.1, hafter.2, hq, Pass.call, if_pos hopen]
  exact ⟨hworld, hadmitted⟩

/-- A pass over an acceptor whose listener refers to it, in which no client that is called closes its
    socket: at most one connection is taken in, into its own vectors, and nothing else happens to
    the world. -/
theorem Acceptor.Sound.handleClientsSocket_spec {w : World H} {id : ℕ} {a : Acceptor H}
    (hs : a.Sound id) (ha : w.acceptors id = some a) (readyCount : ℤ) {answers : ℕ → Answer}
    (hno : ∀ d ∈ a.due, 0 < d.1 → (∀ e ∈ a.due, e.1 < d.1 → ¬ (answers e.1).Throws e.1) →
      (answers d.1).closes = false) : ∃ l : List (Admission H),
      (l = [] ∨ l = [⟨id, (answers 0).accepted, a.clientRequestHandler⟩] ∧
        0 ≤ (answers 0).accepted ∧ a.tcpSessions ≠ []) ∧
      (w.handleClientsSocket id readyCount answers).world =
        ⟨l.foldl admitTo w.acceptors, l.map (·.fd) ++ w.openFds⟩ ∧
      (w.handleClientsSocket id readyCount answers).admitted = l := by
  have hlen := hs.aligned.parallel.length
  rw [handleClientsSocket_eq ha hlen]
  unfold Acceptor.due at hno ⊢
  cases hs with
  | moved hp hnil =>
    rw [hp, hnil]
    exact ⟨[], .inl rfl, rfl, rfl⟩
  | whole h rest hsessions _ hh hrest =>
    rw [hsessions, List.length_cons] at hlen
    obtain ⟨entry, entries, hentries⟩ := List.exists_cons_of_length_eq_add_one hlen
    rw [hsessions, hentries, dueFrom_cons] at hno ⊢
    have hclients : ∀ d ∈ dueFrom 1 entries rest,
        0 < d.1 ∧ ∃ target, d.2.requestHandler = .client target := by
      intro d hd
      obtain ⟨k, hi, hk, _⟩ := mem_dueFrom.mp hd
      exact ⟨by omega, hrest d.2 (List.mem_of_getElem? hk)⟩
    -- with the listener's call behind, or none
    have hrestNo (hlistener : entry.revents = pollRdNorm → ¬ (answers 0).Throws 0) :
        ∀ pre d post, dueFrom 1 entries rest = pre ++ d :: post →
          (∀ e ∈ pre, (answers e.1).returned ≠ none) → (answers d.1).closes = false := by
      refine forall_front_iff.mpr ?_
      intro d hd hfront
      have hthrows : ∀ e ∈ dueFrom 1 entries rest, e.1 < d.1 → ¬ (answers e.1).Throws e.1 := by
        intro e he hlt
        rw [Answer.Throws, if_neg (hclients e he).1.ne']
        exact hfront e he hlt
      split at hno
      · rename_i hready
        refine hno d (List.mem_cons_of_mem _ hd) (hclients d hd).1 ?_
        intro e he hlt
        rcases List.mem_cons.mp he with rfl | he
        · exact hlistener hready
        · exact hthrows e he hlt
      · exact hno d hd (hclients d hd).1 hthrows
    split
    · have hlive : (w.acceptors id).isSome := by simp [ha]
      obtain ⟨l, hl, hcalls⟩ := calls_listener hlive a.listenerSocket (some h) readyCount
        (fun d hd => (hclients d hd).2) fun hback => hrestNo fun _ => hback
      refine ⟨l, ?_, hcalls⟩
      rcases hl with rfl | ⟨rfl, hresult⟩
      · exact .inl rfl
      · exact .inr ⟨by rw [hh], hresult, by simp⟩
    · rename_i hidle
      obtain ⟨hw, hadm⟩ := calls_clients (fun d hd => (hclients d hd).2)
        (hrestNo fun hready => absurd hready hidle) (w.begin readyCount)
      rw [hw, hadm]
      exact ⟨[], .inl rfl, rfl, rfl⟩

/-- The same for a whole pass, poll included. -/
theorem Acceptor.Sound.pass_spec {w : World H} {id : ℕ} {a : Acceptor H} (hs : a.Sound id)
    (ha : w.acceptors id = some a) {p : PollAnswer}
    (hno : ∀ d ∈ (a.polled p.revents).due, 0 < d.1 →
      (∀ e ∈ (a.polled p.revents).due, e.1 < d.1 → ¬ (p.answers e.1).Throws e.1) →
      (p.answers d.1).closes = false) :
    ∃ (l : List (Admission H)) (polled : World H),
      (l = [] ∨ l = [⟨id, (p.answers 0).accepted, a.clientRequestHandler⟩] ∧
        0 ≤ (p.answers 0).accepted ∧ a.tcpSessions ≠ []) ∧
      (polled = w ∨ polled = w.poll id p.revents) ∧
      (w.pass id p).world = ⟨l.foldl admitTo polled.acceptors, l.map (·.fd) ++ w.openFds⟩ ∧
      (w.pass id p).admitted = l := by
  rw [World.pass]
  split
  · exact ⟨[], w, .inl rfl, .inl rfl, rfl, rfl⟩
  · have ha' : (w.poll id p.revents).acceptors id = some (a.polled p.revents) := by
      simp [World.poll_acceptors, ha]
    obtain ⟨l, hl, hworld, hadm⟩ :=
      (hs.polled p.revents).handleClientsSocket_spec ha' p.result hno
    exact ⟨l, _, hl, .inr rfl, hworld, hadm⟩

/-! ### The sessions' descriptors -/

theorem sessionFds_put (w : World H) (id : ℕ) (a : Option (Acceptor H)) :
    (w.put id a).sessionFds =
      Function.update w.sessionFds id ((a.map Acceptor.sessionFds).getD []) := by
  funext other
  rcases eq_or_ne other id with rfl | hne
  · simp [World.sessionFds, World.put]
  · simp [World.sessionFds, World.put, hne]

theorem sessionFds_of_none {w : World H} {id : ℕ} (hnone : w.acceptors id = none) :
    w.sessionFds id = [] := by
  simp [World.sessionFds, hnone]

theorem sessionFds_of_some {w : World H} {id : ℕ} {a : Acceptor H}
    (ha : w.acceptors id = some a) : w.sessionFds id = a.sessionFds := by
  simp [World.sessionFds, ha]

theorem sessionFds_poll (w : World H) (id : ℕ) (revents : ℕ → UInt16) :
    (w.poll id revents).sessionFds = w.sessionFds := by
  rw [World.poll, sessionFds_put, Option.map_map]
  exact Function.update_eq_self id w.sessionFds

/-- Session 0 gets another handler and keeps its socket. -/
theorem sessionFds_moveConstruct {id : ℕ} {o a : Acceptor H}
    (ha : Acceptor.moveConstruct id o = some a) : a.sessionFds = o.sessionFds := by
  obtain ⟨session, rest, hs, rfl⟩ := moveConstruct_cases ha
  simp [Acceptor.sessionFds, Acceptor.taken, hs]

theorem sessionFds_admitTo {acceptors : ℕ → Option (Acceptor H)} {openFds : List ℤ}
    {x : Admission H} (hlive : (acceptors x.acceptor).isSome) :
    (⟨admitTo acceptors x, openFds⟩ : World H).sessionFds =
      Function.update (World.sessionFds ⟨acceptors, openFds⟩) x.acceptor
        (World.sessionFds ⟨acceptors, openFds⟩ x.acceptor ++ [x.fd]) := by
  obtain ⟨a, ha⟩ := Option.isSome_iff_exists.mp hlive
  funext other
  rcases eq_or_ne other x.acceptor with rfl | hne
  · simp [World.sessionFds, admitTo, ha, Acceptor.sessionFds, Acceptor.push]
  · simp [World.sessionFds, admitTo, hne]

/-- The destructor's loop, over open descriptors that are all different. -/
theorem closeAll_spec {sessions : List (TcpSession H)} {openFds : List ℤ}
    (hdistinct : (sessions.map (·.socket.fd)).Nodup)
    (hopen : ∀ fd ∈ sessions.map (·.socket.fd), 0 < fd ∧ fd ∈ openFds) :
    ∃ rest, closeAll sessions openFds = some rest ∧
      (sessions.map (·.socket.fd) ++ rest).Perm openFds := by
  induction sessions generalizing openFds with
  | nil => exact ⟨openFds, rfl, List.Perm.refl _⟩
  | cons session sessions ih =>
    rw [List.map_cons, List.nodup_cons] at hdistinct
    obtain ⟨hnew, hdistinct⟩ := hdistinct
    obtain ⟨hpos, hmem⟩ := hopen session.socket.fd (List.mem_cons_self ..)
    have hrest : ∀ fd ∈ sessions.map (·.socket.fd),
        0 < fd ∧ fd ∈ openFds.erase session.socket.fd := by
      intro fd hfd
      obtain ⟨hpos', hmem'⟩ := hopen fd (List.mem_cons_of_mem _ hfd)
      refine ⟨hpos', (List.mem_erase_of_ne ?_).mpr hmem'⟩
      rintro rfl
      exact hnew hfd
    obtain ⟨rest, hclose, hperm⟩ := ih hdistinct hrest
    refine ⟨rest, ?_, ?_⟩
    · rw [closeAll, Socket.close, if_pos hpos, if_pos hmem]
      exact hclose
    · rw [List.map_cons, List.cons_append]
      exact (hperm.cons _).trans (List.perm_cons_erase hmem).symm

/-! ### What every history keeps -/

/-- INVARIANT: the handlers refer to their own acceptors, the sessions' descriptors are the open
    ones, each in one session, and the account is right. -/
structure Tended (opened closed : List ℤ) (w : World H) : Prop where
  sound : w.Sound
  owners : Owners w.sessionFds w.openFds
  ledger : Ledger opened closed w.openFds
  positive : ∀ fd ∈ w.openFds, 0 < fd

theorem Tended.empty : Tended [] [] (World.empty : World H) where
  sound := World.empty_all _
  owners := Owners.empty
  ledger := Ledger.nil
  positive := by simp [World.empty]

variable {opened closed : List ℤ} {w w' : World H}

/-- What the destructor of the acceptor at `id` does. -/
theorem Tended.destroy (h : Tended opened closed w) {id : ℕ} {a : Acceptor H}
    (ha : w.acceptors id = some a) : ∃ rest, closeAll a.tcpSessions w.openFds = some rest ∧
      (w.sessionFds id ++ rest).Perm w.openFds ∧
      (Event.destroy id).closes w = w.sessionFds id := by
  have hfds := sessionFds_of_some ha
  have hopen : ∀ fd ∈ a.sessionFds, 0 < fd ∧ fd ∈ w.openFds := by
    intro fd hfd
    have hmem := (h.owners.mem_live fd).mpr ⟨id, hfds ▸ hfd⟩
    exact ⟨h.positive fd hmem, hmem⟩
  have hdistinct : a.sessionFds.Nodup := hfds ▸ h.owners.distinct id
  obtain ⟨rest, hclose, hperm⟩ := closeAll_spec hdistinct hopen
  refine ⟨rest, hclose, hfds ▸ hperm, ?_⟩
  rw [Event.closes, List.filter_eq_self, hfds]
  intro fd hfd
  exact decide_eq_true (hopen fd hfd).1

/-- One descriptor more, at the acceptor at `id`. -/
theorem Tended.opening (h : Tended opened closed w) {fd : ℤ} (hpos : 0 < fd)
    (hnew : fd ∉ w.openFds) (id : ℕ) (hsound : w'.Sound) (hopen : w'.openFds = fd :: w.openFds)
    (hfds : w'.sessionFds = Function.update w.sessionFds id (w.sessionFds id ++ [fd])) :
    Tended (opened ++ [fd]) closed w' where
  sound := hsound
  owners := by
    rw [hfds, hopen]
    exact h.owners.take hnew id
  ledger := hopen ▸ h.ledger.opening hnew
  positive := by
    rw [hopen]
    intro fd' hmem
    rcases List.mem_cons.mp hmem with rfl | hmem
    · exact hpos
    · exact h.positive fd' hmem

/-- STEP: a pass, in which at most one connection is accepted. -/
theorem Tended.pass (h : Tended opened closed w) {id : ℕ} {a : Acceptor H}
    (ha : w.acceptors id = some a) {p : PollAnswer} (hallowed : (Event.pass id p).Allowed w) :
    Tended (opened ++ (w.pass id p).admitted.map (·.fd)) closed (w.pass id p).world := by
  obtain ⟨hno, hresult⟩ := hallowed
  obtain ⟨l, polled, hl, hpolled, hworld, hadm⟩ := (h.sound id a ha).pass_spec ha fun d _ _ _ => hno d.1
  have hsound := h.sound.pass ha p
  have hfds : polled.sessionFds = w.sessionFds := by
    rcases hpolled with rfl | rfl
    · rfl
    · exact sessionFds_poll w id p.revents
  rw [hworld] at hsound ⊢
  rw [hadm]
  rcases hl with rfl | ⟨rfl, hnonneg, _⟩
  · rw [List.map_nil, List.append_nil]
    have howners : Owners polled.sessionFds w.openFds := hfds ▸ h.owners
    exact ⟨hsound, howners, h.ledger, h.positive⟩
  · rcases hresult with hneg | ⟨hpos, hnew⟩
    · omega
    · have hlive : (polled.acceptors id).isSome := by
        rcases hpolled with rfl | rfl
        · simp [ha]
        · simp [World.poll_acceptors, ha]
      refine h.opening hpos hnew id hsound rfl ?_
      rw [← hfds]
      exact sessionFds_admitTo hlive

/-- STEP: every allowed event keeps it. -/
theorem Tended.step (h : Tended opened closed w) {e : Event H} (hallowed : e.Allowed w)
    (hstep : w.step e = some w') :
    Tended (opened ++ e.opens w) (closed ++ e.closes w) w' := by
  have hnotAssign : ∀ id other, e ≠ .moveAssign id other := by
    rintro id other rfl
    exact hallowed
  have hsound := h.sound.step hnotAssign hstep
  cases World.step_cases hstep with
  | @construct id l target hfree =>
    simp only [Event.opens, Event.closes, List.append_nil]
    refine h.opening hallowed.1 hallowed.2 id hsound rfl ?_
    rw [sessionFds_of_none hfree]
    exact sessionFds_put ..
  | @moveConstruct id other o a hfree ho ha =>
    simp only [Event.opens, Event.closes, List.append_nil]
    have hfds : ((w.put other (some o.moved)).put id (some a)).sessionFds =
        Function.update (Function.update w.sessionFds other []) id (w.sessionFds other) := by
      rw [sessionFds_put, sessionFds_put, sessionFds_of_some ho, ← sessionFds_moveConstruct ha]
      rfl
    have howners := h.owners.move (i := id) (j := other) (sessionFds_of_none hfree)
    exact ⟨hsound, hfds ▸ howners, h.ledger, h.positive⟩
  | moveAssign => exact absurd rfl (hnotAssign _ _)
  | @destroy id a openFds ha hclosed =>
    obtain ⟨rest, hclose, hperm, hcloses⟩ := h.destroy ha
    obtain rfl : rest = openFds := Option.some.inj (hclose.symm.trans hclosed)
    rw [hcloses]
    simp only [Event.opens, List.append_nil]
    have hledger := (h.ledger.perm hperm.symm).closing_append
    have howners := h.owners.drop hperm (hperm.nodup_iff.mpr h.ledger.distinct)
    have hfds : (w.put id none).sessionFds = Function.update w.sessionFds id [] :=
      sessionFds_put w id none
    refine ⟨hsound, hfds ▸ howners, hledger, ?_⟩
    intro fd hfd
    exact h.positive fd (hperm.subset (List.mem_append_right _ hfd))
  | pass ha =>
    simp only [Event.closes, List.append_nil]
    exact h.pass ha hallowed

theorem History.tended {es : List (Event H)} (h : History es opened closed w) :
    Tended opened closed w := by
  induction h with
  | empty => exact Tended.empty
  | next _ hallowed hstep ih => exact ih.step hallowed hstep

/-! ### Objects that have been moved from -/

/-- The object at `id` is there and has no sessions. -/
def World.Emptied (w : World H) (id : ℕ) : Prop :=
  ∃ a, w.acceptors id = some a ∧ a.tcpSessions = []

/-- STEP: a move leaves its source without sessions, and it gets none while it is there. -/
theorem Tended.emptied_step (h : Tended opened closed w) {e : Event H} (hallowed : e.Allowed w)
    (hstep : w.step e = some w') {id : ℕ}
    (hid : (∃ id', e = .moveConstruct id' id) ∨ w.Emptied id ∧ e ≠ .destroy id) :
    w'.Emptied id := by
  cases World.step_cases hstep with
  | @construct id0 _ _ hfree =>
    obtain ⟨⟨a, ha, hempty⟩, _⟩ := hid.resolve_left (by simp)
    have hne : id ≠ id0 := by
      rintro rfl
      exact absurd (hfree.symm.trans ha) (by simp)
    exact ⟨a, by simpa [World.put, hne] using ha, hempty⟩
  | @moveConstruct id0 other o b hfree ho =>
    have hne : id ≠ id0 := by
      rintro rfl
      rcases hid with ⟨id', heq⟩ | ⟨⟨a, ha, _⟩, _⟩
      · simp only [Event.moveConstruct.injEq] at heq
        rw [heq.2, hfree] at ho
        exact absurd ho (by simp)
      · exact absurd (hfree.symm.trans ha) (by simp)
    rcases eq_or_ne id other with rfl | hother
    · exact ⟨o.moved, by simp [World.put, hne], rfl⟩
    · obtain ⟨⟨a, ha, hempty⟩, _⟩ := hid.resolve_left (by simpa using hother.symm)
      exact ⟨a, by simpa [World.put, hne, hother] using ha, hempty⟩
  | moveAssign => exact absurd hallowed (by simp [Event.Allowed])
  | @destroy id0 =>
    obtain ⟨⟨a, ha, hempty⟩, hdestroy⟩ := hid.resolve_left (by simp)
    have hne : id ≠ id0 := by
      rintro rfl
      exact hdestroy rfl
    exact ⟨a, by simpa [World.put, hne] using ha, hempty⟩
  | @pass id0 b p hb =>
    obtain ⟨⟨a, ha, hempty⟩, _⟩ := hid.resolve_left (by simp)
    obtain ⟨l, polled, hl, hpolled, hworld, _⟩ :=
      (h.sound id0 b hb).pass_spec hb fun d _ _ _ => hallowed.1 d.1
    have hpolled' : polled.Emptied id := by
      rcases hpolled with rfl | rfl
      · exact ⟨a, ha, hempty⟩
      · rcases eq_or_ne id id0 with rfl | hne
        · exact ⟨a.polled p.revents, by simp [World.poll_acceptors, ha], hempty⟩
        · exact ⟨a, by simpa [World.poll_acceptors, hne] using ha, hempty⟩
    rw [hworld]
    rcases hl with rfl | ⟨rfl, _, hsessions⟩
    · exact hpolled'
    · have hne : id ≠ id0 := by
        rintro rfl
        obtain rfl := Option.some.inj (ha.symm.trans hb)
        exact hsessions hempty
      obtain ⟨c, hc, hcempty⟩ := hpolled'
      exact ⟨c, by simpa [admitTo, hne] using hc, hcempty⟩

theorem movedFrom_concat {id : ℕ} {es : List (Event H)} {e : Event H}
    (h : MovedFrom id (es ++ [e])) :
    (∃ id', e = .moveConstruct id' id) ∨ MovedFrom id es ∧ e ≠ .destroy id := by
  obtain ⟨before, id', later, heq, hlater⟩ := h
  rcases List.eq_nil_or_concat later with rfl | ⟨later, last, rfl⟩
  · obtain ⟨_, hlast⟩ := List.append_inj' heq rfl
    exact .inl ⟨id', List.singleton_inj.mp hlast⟩
  · rw [List.concat_eq_append, ← List.cons_append, ← List.append_assoc] at heq
    obtain ⟨hes, hlast⟩ := List.append_inj' heq rfl
    obtain rfl := List.singleton_inj.mp hlast
    refine .inr ⟨⟨before, id', later, hes, ?_⟩, ?_⟩
    · intro hmem
      exact hlater (by simp [hmem])
    · rintro rfl
      exact hlater (by simp)

theorem History.emptied {es : List (Event H)} (h : History es opened closed w) {id : ℕ}
    (hid : MovedFrom id es) : w.Emptied id := by
  induction h with
  | empty =>
    obtain ⟨before, id', later, heq, _⟩ := hid
    simp at heq
  | next hbefore hallowed hstep ih =>
    refine hbefore.tended.emptied_step hallowed hstep ?_
    rcases movedFrom_concat hid with hmove | ⟨hold, hdestroy⟩
    · exact .inl hmove
    · exact .inr ⟨ih hold, hdestroy⟩

/-- CORRECT: after any history, an acceptor's destructor runs to its end, takes just the descriptors it
    closes off the open ones, and closes nothing that another acceptor polls; that of an object moved
    from closes nothing. What was given out is open or has been closed once, and once all objects are
    gone every descriptor has been closed as often as it was given out. -/
theorem closed_exactly_once {es : List (Event H)} (h : History es opened closed w) :
    (∀ id a, w.acceptors id = some a →
      (∃ w', w.step (.destroy id) = some w' ∧
        ((Event.destroy id).closes w ++ w'.openFds).Perm w.openFds) ∧
      ∀ fd ∈ (Event.destroy id).closes w, ∀ other b, other ≠ id → w.acceptors other = some b →
        ∀ entry ∈ b.clientPollFdSet, entry.fd ≠ fd) ∧
    (∀ id, MovedFrom id es → (Event.destroy id).closes w = []) ∧
    Ledger opened closed w.openFds ∧
    ((∀ id, w.acceptors id = none) → ∀ fd, closed.count fd = opened.count fd) := by
  have htended := h.tended
  refine ⟨?_, ?_, htended.ledger, ?_⟩
  · intro id a ha
    obtain ⟨rest, hclose, hperm, hcloses⟩ := htended.destroy ha
    refine ⟨⟨{ w.put id none with openFds := rest }, by simp [World.step, ha, hclose],
      hcloses.symm ▸ hperm⟩, ?_⟩
    intro fd hfd other b hother hb entry hentry heq
    rw [hcloses] at hfd
    refine htended.owners.apart id other hother.symm fd hfd ?_
    rw [sessionFds_of_some hb, Acceptor.sessionFds, ← (htended.sound other b hb).aligned, ← heq]
    exact List.mem_map_of_mem hentry
  · intro id hmoved
    obtain ⟨a, ha, hempty⟩ := h.emptied hmoved
    simp [Event.closes, sessionFds_of_some ha, Acceptor.sessionFds, hempty]
  · intro hgone fd
    have hnone : w.openFds = [] :=
      htended.owners.eq_nil fun id => sessionFds_of_none (hgone id)
    exact (hnone ▸ htended.ledger).settled.count_eq fd

/-- An acceptor is built and moved into another object, which accepts a connection. Both go. -/
def movedAndClosed : List (Event Unit) :=
  [.construct 0 (listenerAt 3) (), .moveConstruct 1 0,
    .pass 1 ⟨1, fun _ => pollRdNorm, fun _ => ⟨4, some true, false⟩⟩, .destroy 0, .destroy 1]

theorem closed_exactly_once_moved : ∃ w, History movedAndClosed [3, 4] [3, 4] w ∧
    (∀ id a, w.acceptors id = some a →
      (∃ w', w.step (.destroy id) = some w' ∧
        ((Event.destroy id).closes w ++ w'.openFds).Perm w.openFds) ∧
      ∀ fd ∈ (Event.destroy id).closes w, ∀ other b, other ≠ id → w.acceptors other = some b →
        ∀ entry ∈ b.clientPollFdSet, entry.fd ≠ fd) ∧
    (∀ id, MovedFrom id movedAndClosed → (Event.destroy id).closes w = []) ∧
    Ledger [3, 4] [3, 4] w.openFds ∧
    ((∀ id, w.acceptors id = none) → ∀ fd : ℤ, [3, 4].count fd = [3, 4].count fd) := by
  have hbuilt := History.next (e := .construct 0 (listenerAt 3) ()) .empty
    ⟨by decide, by decide⟩ rfl
  have hmoved := History.next (e := .moveConstruct 1 0) hbuilt trivial rfl
  have haccepted := History.next
    (e := .pass 1 ⟨1, fun _ => pollRdNorm, fun _ => ⟨4, some true, false⟩⟩) hmoved
    ⟨fun _ => rfl, .inr ⟨by decide, by decide⟩⟩ rfl
  have hsource := History.next (e := .destroy 0) haccepted trivial rfl
  have htarget := History.next (e := .destroy 1) hsource trivial rfl
  exact ⟨_, htarget, closed_exactly_once htarget⟩

end UnixIpc.Engine
