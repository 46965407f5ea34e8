import UnixIpc.Engine.Closing
import UnixIpc.Engine.MoveAssign

/-! Client sessions that are finished: the handler has returned `false`, or has closed the socket it
    was given. `handleEvent` hands the result of a handler on, and `handleClientsSocket` drops it,
    so nothing ever leaves the two vectors.

        handler ──false──▶ handleEvent ──false──▶ handleClientsSocket ──▶ (nobody)

    A finished session would have to be gone at the next poll (`Cleared`). It is just as long as
    there is none (`Quiet`). -/

namespace UnixIpc.Engine
open UnixIpc.Descriptors UnixIpc.IndexLoop UnixIpc.Run

variable {H α : Type}

/-- The handler says that the session is over, or makes it so. -/
def Answer.Finishes (ans : Answer) : Prop := ans.returned = some false ∨ ans.closes = true

instance (ans : Answer) : Decidable ans.Finishes := inferInstanceAs (Decidable (_ ∨ _))

def Handler.isClient : Handler H → Bool
  | .client _ => true
  | .listener _ _ => false

/-- The descriptors of the client sessions of `a` that finished in a pass. -/
def Acceptor.finished (a : Acceptor H) (p : PollAnswer) (r : Pass H) : List ℤ :=
  (r.dispatched.filter fun d =>
    (a.tcpSessions[d.1]?).any (·.requestHandler.isClient) && decide (p.answers d.1).Finishes).map
      (·.2.fd)

/-- A poll as the kernel answers it: it fails, or returns the number of entries with something in
    `revents`; accept(2) fails, or returns a descriptor that is not open. -/
def PollAnswer.onKernel (p : PollAnswer) (w : World H) (a : Acceptor H) : PollAnswer where
  result := if p.result < 0 then p.result
    else (report a.clientPollFdSet p.revents).countP (·.revents ≠ 0)
  revents := p.revents
  answers := fun i => { p.answers i with
    accepted := if (p.answers i).accepted < 0 then (p.answers i).accepted
      else freeFd w.openFds (p.answers i).accepted }

/-- The acceptor's world, with the descriptors of the sessions that have finished and have not been
    accepted again. -/
structure Polling (H : Type) where
  world : World H
  finished : List ℤ

namespace Polling

/-- A new acceptor at `id`, in a process that has `inherited` open. -/
def start (id : ℕ) (tcpListener : TcpListener) (clientRequestHandler : H) (inherited : List ℤ) :
    Polling H where
  world :=
    { acceptors := Function.update (fun _ => none) id
        (some (.construct id tcpListener clientRequestHandler))
      openFds := tcpListener.socket.fd :: inherited }
  finished := []

/-- A poll and the dispatches after it. -/
def next (id : ℕ) (s : Polling H) (p : PollAnswer) : Polling H :=
  match s.world.acceptors id with
  | none => s
  | some a =>
    let q := p.onKernel s.world a
    let r := s.world.pass id q
    { world := r.world
      finished := s.finished.filter (· ∉ r.admitted.map (·.fd)) ++ a.finished q r }

/-- What has finished is in neither vector, so it is not polled and its handler is not called again,
    and no descriptor is polled twice. -/
structure Cleared (id : ℕ) (s : Polling H) : Prop where
  removed : ∀ a, s.world.acceptors id = some a → ∀ fd ∈ s.finished,
    fd ∉ a.clientPollFdSet.map (·.fd) ∧ fd ∉ a.sessionFds
  distinct : ∀ a, s.world.acceptors id = some a → (a.clientPollFdSet.map (·.fd)).Nodup

/-- Where poll does not fail, no client's handler finishes whose session is reported as readable, with
    no handler throwing before it. -/
def Quiet (id : ℕ) (s : Polling H) (p : PollAnswer) : Prop :=
  ∀ a, s.world.acceptors id = some a → 0 ≤ p.result →
    ∀ i, 0 < i → i < a.tcpSessions.length → p.revents i = pollRdNorm →
      (∀ j < i, p.revents j = pollRdNorm → ¬ (p.answers j).Throws j) → ¬ (p.answers i).Finishes

end Polling

/-! ### The calls of clients' handlers -/

/-- Whoever has only `B` in front of him is `Q`: the head is, and past a head that is `B` so is
    whoever has only `B` in front of him in the tail. -/
theorem forall_front_cons {B Q : α → Prop} {d : α} {ds : List α} :
    (∀ pre e post, d :: ds = pre ++ e :: post → (∀ x ∈ pre, B x) → Q e) ↔
      Q d ∧ (B d → ∀ pre e post, ds = pre ++ e :: post → (∀ x ∈ pre, B x) → Q e) := by
  constructor
  · intro hall
    refine ⟨hall [] d ds rfl (by simp), ?_⟩
    intro hd pre e post hsplit hpre
    refine hall (d :: pre) e post (by rw [hsplit, List.cons_append]) ?_
    exact List.forall_mem_cons.mpr ⟨hd, hpre⟩
  · rintro ⟨hd, htail⟩ (_ | ⟨x, pre⟩) e post hsplit hpre
    · obtain ⟨rfl, _⟩ := List.cons.inj hsplit
      exact hd
    · obtain ⟨rfl, hrest⟩ := List.cons.inj hsplit
      obtain ⟨hx, hfront⟩ := List.forall_mem_cons.mp hpre
      exact htail hx pre e post hrest hfront

/-- Of the clients that are called none finishes, just when none does in front of which nobody
    throws. -/
theorem calls_finish {answers : ℕ → Answer} {ds : List (ℕ × TcpSession H)}
    (hclients : ∀ d ∈ ds, ∃ target, d.2.requestHandler = .client (some target)) {p : Pass H}
    (hrun : p.outcome = .running) (hcount : (ds.length : ℤ) ≤ p.readyCount) :
    ∃ made, made <+: ds ∧ (ds.foldl (Pass.call answers) p).dispatched =
        p.dispatched ++ made.map (fun d => (d.1, d.2.socket)) ∧
      ((∀ d ∈ made, ¬ (answers d.1).Finishes) ↔
        ∀ pre d post, ds = pre ++ d :: post → (∀ e ∈ pre, (answers e.1).returned ≠ none) →
          ¬ (answers d.1).Finishes) := by
  induction ds generalizing p with
  | nil => exact ⟨[], List.prefix_rfl, by simp, by simp⟩
  | cons d ds ih =>
    rw [List.length_cons] at hcount
    push_cast at hcount
    have hopen : p.outcome = .running ∧ 0 < p.readyCount := ⟨hrun, by omega⟩
    obtain ⟨target, hd⟩ := hclients d (List.mem_cons_self ..)
    have hcalled : (Pass.call answers p d).dispatched = p.dispatched ++ [(d.1, d.2.socket)] := by
      rw [Pass.call, if_pos hopen]
    rw [List.foldl_cons, forall_front_cons]
    by_cases hfinishes : (answers d.1).Finishes
    · obtain ⟨made, hfront, hmade⟩ := calls_dispatched answers ds (Pass.call answers p d)
      refine ⟨d :: made, (List.prefix_cons_inj d).mpr hfront, ?_, ?_⟩
      · rw [hmade, hcalled, List.append_assoc]
        rfl
      · simp [hfinishes]
    obtain ⟨_, hcloses⟩ := not_or.mp hfinishes
    rw [Bool.not_eq_true] at hcloses
    by_cases hthrows : (answers d.1).returned = none
    · have hout : (p.world.invoke d.2 (answers d.1)).2.2 ≠ .running := by
        simp [World.invoke, hd, hcloses, hthrows]
      have hover := call_thrown hopen hout
      refine ⟨[d], ⟨ds, rfl⟩, by rw [call_stopped hover, hcalled]; rfl, ?_⟩
      simp [hfinishes, hthrows]
    · obtain ⟨b, hb⟩ := Option.ne_none_iff_exists'.mp hthrows
      have hback : (p.world.invoke d.2 (answers d.1)).2.2 = .running := by
        simp [World.invoke, hd, hcloses, hb]
      have hgoes := call_back hopen hback
      obtain ⟨made, hfront, hmade, hiff⟩ :=
        ih (fun e he => hclients e (List.mem_cons_of_mem _ he)) hgoes.1 (by omega)
      refine ⟨d :: made, (List.prefix_cons_inj d).mpr hfront, ?_, ?_⟩
      · rw [hmade, hcalled, List.append_assoc]
        rfl
      · rw [List.forall_mem_cons, forall_prop_of_true hthrows, hiff]

/-- The same by index, for the clients' part of what is due. -/
theorem calls_finish_due {answers : ℕ → Answer} {entries : List PollFd}
    {rest : List (TcpSession H)}
    (hrest : ∀ session ∈ rest, ∃ target, session.requestHandler = .client (some target))
    {p : Pass H} (hrun : p.outcome = .running) (hfresh : ∀ e ∈ p.dispatched, e.1 = 0)
    (hcount : ((dueFrom 1 entries rest).length : ℤ) ≤ p.readyCount) :
    (∀ e ∈ ((dueFrom 1 entries rest).foldl (Pass.call answers) p).dispatched, 0 < e.1 →
      ¬ (answers e.1).Finishes) ↔
    ∀ d ∈ dueFrom 1 entries rest,
      (∀ e ∈ dueFrom 1 entries rest, e.1 < d.1 → ¬ (answers e.1).Throws e.1) →
        ¬ (answers d.1).Finishes := by
  have hclients : ∀ d ∈ dueFrom 1 entries rest,
      0 < d.1 ∧ ∃ target, d.2.requestHandler = .client (some target) := by
    intro d hd
    obtain ⟨k, hi, hk, _⟩ := mem_dueFrom.mp hd
    exact ⟨by omega, hrest d.2 (List.mem_of_getElem? hk)⟩
  obtain ⟨made, hfront, hmade, hiff⟩ :=
    calls_finish (fun d hd => (hclients d hd).2) hrun hcount
  rw [forall_front_iff] at hiff
  have hthrows : ∀ e ∈ dueFrom 1 entries rest,
      (¬ (answers e.1).Throws e.1 ↔ (answers e.1).returned ≠ none) := by
    intro e he
    rw [Answer.Throws, if_neg (hclients e he).1.ne']
  have hdue : (∀ d ∈ dueFrom 1 entries rest,
      (∀ e ∈ dueFrom 1 entries rest, e.1 < d.1 → ¬ (answers e.1).Throws e.1) →
        ¬ (answers d.1).Finishes) ↔ ∀ d ∈ made, ¬ (answers d.1).Finishes := by
    rw [hiff]
    refine forall₂_congr fun d hd => imp_congr_left (forall₂_congr fun e he => ?_)
    rw [hthrows e he]
  rw [hdue, hmade, List.forall_mem_append, List.forall_mem_map]
  constructor
  · rintro ⟨_, hnone⟩ d hd
    exact hnone d hd (hclients d (hfront.subset hd)).1
  · intro hnone
    refine ⟨?_, fun d hd _ => hnone d hd⟩
    intro e he hpos
    exact absurd (hfresh e he) hpos.ne'

/-! ### A pass -/

/-- INVARIANT: the acceptor at `id` as its constructor leaves it and polls keep it, with the sessions'
    descriptors different and open. -/
structure Tidy (id : ℕ) (openFds : List ℤ) (a : Acceptor H) : Prop where
  sessions : ∃ h rest, a.tcpSessions = ⟨a.listenerSocket, .listener id (some h)⟩ :: rest ∧
    a.clientRequestHandler = some h ∧
    ∀ session ∈ rest, ∃ target, session.requestHandler = .client (some target)
  type : a.listenerSocket.type = .listener
  aligned : a.Aligned
  distinct : a.sessionFds.Nodup
  «open» : ∀ fd ∈ a.sessionFds, fd ∈ openFds

/-- Nobody due in front of whom nobody throws finishes. -/
def Acceptor.QuietDue (a : Acceptor H) (answers : ℕ → Answer) : Prop :=
  ∀ d ∈ a.due, 0 < d.1 → (∀ e ∈ a.due, e.1 < d.1 → ¬ (answers e.1).Throws e.1) →
    ¬ (answers d.1).Finishes

/-- The call of a listener throws exactly when nothing is accepted. -/
theorem call_listener {w : World H} {id : ℕ} (hlive : (w.acceptors id).isSome)
    (target : Option H) {socket : Socket} (ht : socket.type = .listener) {readyCount : ℤ}
    (hcount : 0 < readyCount) (answers : ℕ → Answer) {p : Pass H}
    (hp : p = Pass.call answers (w.begin readyCount) (0, ⟨socket, .listener id target⟩)) :
    p.dispatched = [(0, socket)] ∧ ((answers 0).Throws 0 → p.outcome ≠ .running) ∧
      (¬ (answers 0).Throws 0 → p.outcome = .running ∧ p.readyCount = readyCount - 1) := by
  have hopen : (w.begin readyCount).outcome = .running ∧ 0 < (w.begin readyCount).readyCount :=
    ⟨rfl, hcount⟩
  rw [Pass.call, if_pos hopen] at hp
  subst hp
  refine ⟨rfl, ?_, ?_⟩
  · intro hthrows
    have hneg : (answers 0).accepted < 0 := hthrows
    simp [World.invoke, Socket.accept, ht, hneg]
  · intro hthrows
    have hneg : ¬ (answers 0).accepted < 0 := hthrows
    simp [World.begin, World.invoke, Socket.accept, ht, hneg, hlive]

/-- EXACT: nobody finishes in a pass just when it is quiet. -/
theorem Tidy.finished_iff {id : ℕ} {openFds : List ℤ} {w : World H} {a : Acceptor H}
    (h : Tidy id openFds a)
    (ha : w.acceptors id = some a) {readyCount : ℤ} {answers : ℕ → Answer}
    (hcount : (a.due.length : ℤ) ≤ readyCount) :
    (∀ e ∈ (w.handleClientsSocket id readyCount answers).dispatched, 0 < e.1 →
      ¬ (answers e.1).Finishes) ↔ a.QuietDue answers := by
  obtain ⟨target, rest, hsessions, _, hrest⟩ := h.sessions
  have hlen := h.aligned.parallel.length
  rw [handleClientsSocket_eq ha hlen]
  unfold Acceptor.QuietDue
  unfold Acceptor.due at hcount ⊢
  rw [hsessions, List.length_cons] at hlen
  obtain ⟨entry, entries, hentries⟩ := List.exists_cons_of_length_eq_add_one hlen
  rw [hsessions, hentries, dueFrom_cons] at hcount ⊢
  have hpos : ∀ d ∈ dueFrom 1 entries rest, 0 < d.1 := by
    intro d hd
    obtain ⟨k, hi, _⟩ := mem_dueFrom.mp hd
    omega
  split
  · rename_i hready
    rw [if_pos hready, List.length_cons] at hcount
    push_cast at hcount
    rw [List.foldl_cons]
    have hlive : (w.acceptors id).isSome := by simp [ha]
    have hpositive : 0 < readyCount := by omega
    obtain ⟨hcalled, hstop, hgo⟩ :=
      call_listener hlive (some target) h.type hpositive answers rfl
    by_cases hthrows : (answers 0).Throws 0
    · rw [call_stopped fun hopen => hstop hthrows hopen.1, hcalled]
      refine iff_of_true (by simp) ?_
      intro d _ hd hfront
      exact absurd hthrows (hfront _ (List.mem_cons_self ..) hd)
    · obtain ⟨hrun, hleft⟩ := hgo hthrows
      rw [calls_finish_due hrest hrun (by simp [hcalled]) (by omega), List.forall_mem_cons]
      rw [and_iff_right fun hlt => absurd hlt (lt_irrefl _)]
      refine forall₂_congr fun d hd => ?_
      rw [forall_prop_of_true (hpos d hd), List.forall_mem_cons, and_iff_right fun _ => hthrows]
  · rename_i hidle
    rw [if_neg hidle] at hcount
    rw [calls_finish_due hrest rfl (by simp [World.begin]) hcount]
    refine forall₂_congr fun d hd => ?_
    rw [forall_prop_of_true (hpos d hd)]

theorem Tidy.sound {id : ℕ} {openFds : List ℤ} {a : Acceptor H} (h : Tidy id openFds a) : a.Sound id := by
  obtain ⟨target, rest, hsessions, htarget, hrest⟩ := h.sessions
  refine .whole target rest hsessions h.type htarget ?_ h.aligned
  intro session hmem
  obtain ⟨t, ht⟩ := hrest session hmem
  exact ⟨some t, ht⟩

theorem Tidy.polled {id : ℕ} {openFds : List ℤ} {a : Acceptor H} (h : Tidy id openFds a)
    (revents : ℕ → UInt16) : Tidy id openFds (a.polled revents) :=
  ⟨h.sessions, h.type, h.aligned.polled revents, h.distinct, h.open⟩

/-- STEP: a connection is taken in. -/
theorem Tidy.push {id : ℕ} {openFds : List ℤ} {a : Acceptor H} (h : Tidy id openFds a)
    {x : Admission H} (hnew : x.fd ∉ openFds) (hx : x.handler = a.clientRequestHandler) :
    Tidy id (x.fd :: openFds) (a.push x) := by
  obtain ⟨target, rest, hsessions, htarget, hrest⟩ := h.sessions
  have hfds : (a.push x).sessionFds = a.sessionFds ++ [x.fd] := by
    simp [Acceptor.sessionFds, Acceptor.push]
  refine ⟨⟨target, rest ++ [⟨⟨x.fd, .usual⟩, .client x.handler⟩], ?_, htarget, ?_⟩, h.type,
    h.aligned.push x, ?_, ?_⟩
  · simp [Acceptor.push, hsessions]
  · intro session hmem
    rcases List.mem_append.mp hmem with hmem | hmem
    · exact hrest session hmem
    · exact ⟨target, by rw [List.mem_singleton.mp hmem, hx, htarget]⟩
  · rw [hfds]
    refine List.nodup_append.mpr ⟨h.distinct, List.nodup_singleton _, ?_⟩
    rintro fd hfd _ hfd' rfl
    exact hnew (List.mem_singleton.mp hfd' ▸ h.open fd hfd)
  · intro fd hfd
    rw [hfds] at hfd
    rcases List.mem_append.mp hfd with hfd | hfd
    · exact List.mem_cons_of_mem _ (h.open fd hfd)
    · exact List.mem_cons.mpr (.inl (List.mem_singleton.mp hfd))

/-- Only entry 0 is not a client's. -/
theorem Tidy.isClient {id : ℕ} {openFds : List ℤ} {a : Acceptor H} (h : Tidy id openFds a) {i : ℕ}
    {session : TcpSession H} (hs : a.tcpSessions[i]? = some session) :
    session.requestHandler.isClient = true ↔ 0 < i := by
  obtain ⟨target, rest, hsessions, _, hrest⟩ := h.sessions
  rw [hsessions] at hs
  rcases i with _ | i
  · rw [List.getElem?_cons_zero] at hs
    obtain rfl := Option.some.inj hs
    simp [Handler.isClient]
  · rw [List.getElem?_cons_succ] at hs
    obtain ⟨t, ht⟩ := hrest session (List.mem_of_getElem? hs)
    simp [ht, Handler.isClient]

variable {id : ℕ} {openFds : List ℤ} {w : World H} {a : Acceptor H} {p : PollAnswer}

theorem mem_finished (ha : w.acceptors id = some a) (hal : a.Aligned) (hresult : 0 ≤ p.result)
    {fd : ℤ} (hfd : fd ∈ a.finished p (w.pass id p)) : fd ∈ a.sessionFds := by
  obtain ⟨e, he, rfl⟩ := List.mem_map.mp hfd
  obtain ⟨session, hs, hsocket, _⟩ :=
    World.dispatched_due ha hal hresult (List.mem_filter.mp he).1
  rw [hsocket]
  exact List.mem_map_of_mem (List.mem_of_getElem? hs)

theorem Tidy.finished_eq_nil_iff (h : Tidy id openFds a) (ha : w.acceptors id = some a)
    (hresult : 0 ≤ p.result) : a.finished p (w.pass id p) = [] ↔
      ∀ e ∈ (w.pass id p).dispatched, 0 < e.1 → ¬ (p.answers e.1).Finishes := by
  rw [Acceptor.finished, List.map_eq_nil_iff, List.filter_eq_nil_iff]
  refine forall₂_congr fun e he => ?_
  obtain ⟨session, hs, _⟩ := World.dispatched_due ha h.aligned hresult he
  rw [hs, Option.any_some, Bool.and_eq_true, h.isClient hs, decide_eq_true_eq, not_and]

/-- What is due after a poll, by index. -/
theorem quietDue_polled_iff (hal : a.Aligned) : (a.polled p.revents).QuietDue p.answers ↔
    ∀ i, 0 < i → i < a.tcpSessions.length → p.revents i = pollRdNorm →
      (∀ j < i, p.revents j = pollRdNorm → ¬ (p.answers j).Throws j) →
        ¬ (p.answers i).Finishes := by
  constructor
  · intro hquiet i hpos hi hready hfront
    refine hquiet (i, a.tcpSessions[i]) ?_ hpos ?_
    · exact (mem_due_polled hal).mpr ⟨List.getElem?_eq_getElem hi, hready⟩
    · intro e he hlt
      exact hfront e.1 hlt ((mem_due_polled hal).mp he).2
  · intro hquiet d hd hpos hfront
    obtain ⟨hs, hready⟩ := (mem_due_polled hal).mp hd
    have hi := (List.getElem?_eq_some_iff.mp hs).1
    refine hquiet d.1 hpos hi hready ?_
    intro j hlt hj
    exact hfront (j, a.tcpSessions[j]) ((mem_due_polled hal).mpr
      ⟨List.getElem?_eq_getElem (hlt.trans hi), hj⟩) hlt

theorem onKernel_reports (hresult : 0 ≤ p.result) : a.Reports (p.onKernel w a) :=
  if_neg (not_lt.mpr hresult)

theorem onKernel_throws (i : ℕ) :
    ((p.onKernel w a).answers i).Throws i ↔ (p.answers i).Throws i := by
  have haccepted : ((p.onKernel w a).answers i).accepted < 0 ↔ (p.answers i).accepted < 0 := by
    simp only [PollAnswer.onKernel]
    split
    · exact Iff.rfl
    · rename_i hneg
      exact iff_of_false (not_lt.mpr (freeFd_nonneg _ _)) hneg
  unfold Answer.Throws
  split
  · exact haccepted
  · exact Iff.rfl

/-- A connection that is accepted has a new descriptor. -/
theorem onKernel_fresh {i : ℕ} (hresult : 0 ≤ ((p.onKernel w a).answers i).accepted) :
    ((p.onKernel w a).answers i).accepted ∉ w.openFds := by
  simp only [PollAnswer.onKernel] at hresult ⊢
  split at hresult
  · omega
  · rename_i hneg
    rw [if_neg hneg]
    exact freeFd_not_mem _ _

theorem Tidy.quiet_iff (h : Tidy id openFds a) (ha : w.acceptors id = some a) (hresult : 0 ≤ p.result) :
    a.finished (p.onKernel w a) (w.pass id (p.onKernel w a)) = [] ↔
      ∀ i, 0 < i → i < a.tcpSessions.length → p.revents i = pollRdNorm →
        (∀ j < i, p.revents j = pollRdNorm → ¬ (p.answers j).Throws j) →
          ¬ (p.answers i).Finishes := by
  have hreports := onKernel_reports (w := w) (a := a) hresult
  have ha' : (w.poll id p.revents).acceptors id = some (a.polled p.revents) := by
    simp [World.poll_acceptors, ha]
  have hpass : w.pass id (p.onKernel w a) = (w.poll id p.revents).handleClientsSocket id
      (p.onKernel w a).result (p.onKernel w a).answers :=
    if_neg (not_lt.mpr hreports.nonneg)
  have hcount : ((a.polled p.revents).due.length : ℤ) ≤ (p.onKernel w a).result :=
    length_due_le h.aligned hreports
  rw [h.finished_eq_nil_iff ha hreports.nonneg, hpass, (h.polled p.revents).finished_iff ha' hcount]
  have hquiet := quietDue_polled_iff (p := p.onKernel w a) h.aligned
  simp only [onKernel_throws] at hquiet
  exact hquiet

namespace Polling
variable {s : Polling H}

/-- INVARIANT: no session has finished yet. -/
structure Good (id : ℕ) (s : Polling H) : Prop where
  none : s.finished = []
  tidy : ∃ a, s.world.acceptors id = some a ∧ Tidy id s.world.openFds a

theorem Good.cleared (h : s.Good id) : s.Cleared id := by
  obtain ⟨a, ha, htidy⟩ := h.tidy
  refine ⟨?_, ?_⟩
  · intro _ _ fd hfd
    rw [h.none] at hfd
    exact absurd hfd List.not_mem_nil
  · intro b hb
    obtain rfl := Option.some.inj (ha.symm.trans hb)
    rw [show a.clientPollFdSet.map (·.fd) = _ from htidy.aligned]
    exact htidy.distinct

theorem next_eq (ha : s.world.acceptors id = some a) : s.next id p =
    { world := (s.world.pass id (p.onKernel s.world a)).world
      finished := s.finished.filter
          (· ∉ (s.world.pass id (p.onKernel s.world a)).admitted.map (·.fd)) ++
        a.finished (p.onKernel s.world a) (s.world.pass id (p.onKernel s.world a)) } := by
  rw [next, ha]

/-- A poll that fails changes nothing. -/
theorem next_failed (h : s.Good id) (hfail : p.result < 0) : s.next id p = s := by
  obtain ⟨a, ha, _⟩ := h.tidy
  have hresult : (p.onKernel s.world a).result < 0 := by
    simpa only [PollAnswer.onKernel, if_pos hfail] using hfail
  rw [next_eq ha, World.pass, if_pos hresult, h.none]
  simp only [Acceptor.finished, List.filter_nil, List.map_nil, List.append_nil]
  rw [← h.none]

/-- STEP: nobody finishes. -/
theorem Good.next (h : s.Good id) (hquiet : s.Quiet id p) : (s.next id p).Good id := by
  rcases lt_or_ge p.result 0 with hfail | hresult
  · rw [next_failed h hfail]
    exact h
  obtain ⟨a, ha, htidy⟩ := h.tidy
  have hindex := hquiet a ha hresult
  have hnone := (htidy.quiet_iff ha hresult).mpr hindex
  refine ⟨?_, ?_⟩
  · rw [next_eq ha, hnone, h.none, List.filter_nil, List.nil_append]
  have hdue : (a.polled p.revents).QuietDue (p.onKernel s.world a).answers := by
    have hkernel := quietDue_polled_iff (p := p.onKernel s.world a) htidy.aligned
    simp only [onKernel_throws] at hkernel
    exact hkernel.mpr hindex
  obtain ⟨l, polled, hl, hpolled, hworld, _⟩ := htidy.sound.pass_spec ha
    (p := p.onKernel s.world a) (by
      intro d hd hpos hfront
      exact Bool.eq_false_iff.mpr fun hcloses => hdue d hd hpos hfront (.inr hcloses))
  obtain ⟨b, hb, hbtidy, hbhandler⟩ : ∃ b, polled.acceptors id = some b ∧
      Tidy id s.world.openFds b ∧ b.clientRequestHandler = a.clientRequestHandler := by
    rcases hpolled with rfl | rfl
    · exact ⟨a, ha, htidy, rfl⟩
    · exact ⟨a.polled p.revents, by simp [World.poll_acceptors, ha, PollAnswer.onKernel],
        htidy.polled p.revents, rfl⟩
  rw [next_eq ha, hworld]
  rcases hl with rfl | ⟨rfl, hnonneg, _⟩
  · exact ⟨b, hb, hbtidy⟩
  · exact ⟨_, by simp [admitTo, hb], hbtidy.push (onKernel_fresh hnonneg) hbhandler.symm⟩

/-- STEP: somebody finishes, and nothing is removed. -/
theorem not_cleared_next (h : s.Good id) (hnoise : ¬ s.Quiet id p) : ¬ (s.next id p).Cleared id := by
  intro hcleared
  obtain ⟨a, ha, htidy⟩ := h.tidy
  have hresult : 0 ≤ p.result := by
    by_contra hfail
    exact hnoise fun _ _ hresult => absurd hresult hfail
  have hsome : a.finished (p.onKernel s.world a) (s.world.pass id (p.onKernel s.world a)) ≠ [] := by
    intro hnone
    refine hnoise ?_
    intro b hb _
    obtain rfl := Option.some.inj (ha.symm.trans hb)
    exact (htidy.quiet_iff ha hresult).mp hnone
  obtain ⟨fd, hfd⟩ := List.exists_mem_of_ne_nil _ hsome
  have hold : fd ∈ a.sessionFds :=
    mem_finished ha htidy.aligned (onKernel_reports hresult).nonneg hfd
  obtain ⟨f, hf, hkeep⟩ := World.pass_grows ha htidy.aligned (p.onKernel s.world a)
  have hstays : fd ∈ (f id a).sessionFds := by
    refine hkeep (fun b => fd ∈ b.sessionFds) (fun _ _ hb => hb) ?_ id a hold
    intro b x hb
    simp [Acceptor.sessionFds, Acceptor.push, Or.inl, show fd ∈ b.tcpSessions.map _ from hb]
  have hafter : (s.next id p).world.acceptors id = some (f id a) := by
    rw [next_eq ha, hf, ha]
    rfl
  refine (hcleared.removed (f id a) hafter fd ?_).2 hstays
  rw [next_eq ha]
  exact List.mem_append_right _ hfd

theorem start_good (id : ℕ) (l : TcpListener) (h : H) (inherited : List ℤ) :
    (start id l h inherited).Good id where
  none := rfl
  tidy := by
    refine ⟨.construct id l h, by simp [start], ⟨h, [], rfl, rfl, by simp⟩, l.listening, rfl,
      List.nodup_singleton _, ?_⟩
    intro fd hfd
    exact List.mem_cons.mpr (.inl (List.mem_singleton.mp hfd))

/-- EXACT: along a run of polls what has finished is gone before the next one, and no descriptor is
    polled twice, exactly when nobody ever finishes. -/
theorem cleared_iff_quiet (id : ℕ) (tcpListener : TcpListener) (clientRequestHandler : H)
    (inherited : List ℤ) (polls : List PollAnswer) :
    Along (next id) (Cleared id) (start id tcpListener clientRequestHandler inherited) polls ↔
      Throughout (next id) (Quiet id)
        (start id tcpListener clientRequestHandler inherited) polls := by
  refine along_iff_throughout (A := fun _ => True) (G := Good id) (fun _ h => h.cleared) ?_ ?_ polls
    _ (fun _ _ => trivial) (start_good id tcpListener clientRequestHandler inherited)
  · rintro s p h - hquiet
    exact h.next hquiet
  · rintro s p h - hnoise
    exact not_cleared_next h hnoise

/-- A poll that finds entry `i` readable, and what happens then. -/
def readableAt (i : ℕ) (ans : Answer) : PollAnswer :=
  ⟨1, fun j => if j = i then pollRdNorm else 0, fun _ => ans⟩

def connect : PollAnswer := readableAt 0 ⟨4, some true, false⟩

/-- A client's handler returns `false`: its entry stays, and it is called again. Another closes its
    socket: the next connection gets the descriptor, and two entries have it. -/
theorem finished_stays :
    let s := [connect, readableAt 1 ⟨-1, some false, false⟩].foldl (next 0)
      (start 0 (listenerAt 3) () [0, 1, 2])
    let t := [connect, readableAt 1 ⟨-1, some true, true⟩, connect].foldl (next 0)
      (start 0 (listenerAt 3) () [0, 1, 2])
    (s.world.acceptors 0).map (fun a => a.clientPollFdSet.map (·.fd)) = some [3, 4] ∧
      (s.world.pass 0 (readableAt 1 ⟨-1, some true, false⟩)).dispatched = [(1, ⟨4, .usual⟩)] ∧
      (t.world.acceptors 0).map (fun a => a.clientPollFdSet.map (·.fd)) = some [3, 4, 4] ∧
      ¬ Along (next 0) (Cleared 0) (start 0 (listenerAt 3) () [0, 1, 2])
        [connect, readableAt 1 ⟨-1, some false, false⟩] ∧
      ¬ Along (next 0) (Cleared 0) (start 0 (listenerAt 3) () [0, 1, 2])
        [connect, readableAt 1 ⟨-1, some true, true⟩, connect] := by
  refine ⟨by decide, by decide, by decide, ?_, ?_⟩
  · intro h
    exact absurd (h.last.removed _ rfl 4 (by decide)).1 (by decide)
  · intro h
    exact absurd (h.last.distinct _ rfl) (by decide)

end Polling

end UnixIpc.Engine
