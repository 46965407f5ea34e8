import UnixIpc.Engine.Calls
import UnixIpc.Engine.MoveAssign
import UnixIpc.Servers.Rounds

/-! Which of the entries poll reports as readable are dispatched. `revents` is a set of bits, and
    poll may set others beside `POLLRDNORM` (`POLLERR`, `POLLHUP`); both poll loops compare it as a
    whole:

        revents:  64        ──▶ == POLLRDNORM ──▶ dispatched
                  64 | 16   ──▶ no             ──▶ passed over, and reported again by the next poll

    The acceptor counts the dispatched entries down from what poll returned, so it ends a pass at 0
    just when nothing was passed over. -/

namespace UnixIpc.Engine
open UnixIpc.Descriptors UnixIpc.IndexLoop UnixIpc.Run
variable {H : Type}

/-- No entry has `POLLRDNORM` together with another bit. -/
def Acceptor.Unmixed (a : Acceptor H) (p : PollAnswer) : Prop :=
  ∀ i < a.tcpSessions.length, readable (p.revents i) → p.revents i = pollRdNorm

/-- Every readable entry is dispatched. -/
def World.Complete (w : World H) (id : ℕ) (a : Acceptor H) (p : PollAnswer) : Prop :=
  ∀ i < a.tcpSessions.length, readable (p.revents i) → ∃ d ∈ (w.pass id p).dispatched, d.1 = i

/-- Of the sessions with `revents == POLLRDNORM` only the last has a handler that throws, each called
    in the world that those before it leave. -/
def World.Undisturbed (w : World H) (id : ℕ) (a : Acceptor H) (p : PollAnswer) : Prop :=
  ∀ pre d post, (a.polled p.revents).due.dropLast = pre ++ d :: post →
    (((w.poll id p.revents).after p.answers pre).invoke d.2 (p.answers d.1)).2.2 = .running

/-- EXACT: nothing readable is missed just when no bits are mixed and no handler but the last
    throws. -/
theorem World.complete_iff {w : World H} {id : ℕ} {a : Acceptor H} {p : PollAnswer}
    (ha : w.acceptors id = some a) (hal : a.Aligned) (hp : a.Reports p) :
    w.Complete id a p ↔ a.Unmixed p ∧ w.Undisturbed id a p := by
  have hcalls := calls_complete p.answers (p := (w.poll id p.revents).begin p.result)
    rfl rfl (length_due_le hal hp) (nodup_dueFrom _ _ _)
  rw [← show w.pass id p = _ from World.pass_eq ha hal hp.nonneg] at hcalls
  have hcount : (((a.polled p.revents).due.dropLast).length : ℤ) ≤
      ((w.poll id p.revents).begin p.result).readyCount := by
    have hle := length_due_le hal hp
    rw [List.length_dropLast]
    change _ ≤ p.result
    omega
  have hundisturbed : _ ↔ w.Undisturbed id a p := calls_running_iff rfl hcount
  rw [← hundisturbed, ← show _ ↔ _ from hcalls]
  constructor
  · intro hall
    refine ⟨?_, ?_⟩
    · intro i hi hreadable
      obtain ⟨e, he, rfl⟩ := hall i hi hreadable
      obtain ⟨_, _, _, hready⟩ := World.dispatched_due ha hal hp.nonneg he
      exact hready
    · intro d hd
      obtain ⟨hs, hready⟩ := (mem_due_polled hal).mp hd
      exact hall d.1 (List.getElem?_eq_some_iff.mp hs).1 (hready ▸ readable_pollRdNorm)
  · rintro ⟨hunmixed, hall⟩ i hi hreadable
    exact hall (i, a.tcpSessions[i]) ((mem_due_polled hal).mpr
      ⟨List.getElem?_eq_getElem hi, hunmixed i hi hreadable⟩)

/-- The entries with something in `revents` are as many as those with `POLLRDNORM` alone, just when
    there are no others. -/
theorem countP_ready_iff (entries : List PollFd) :
    entries.countP (·.revents = pollRdNorm) = entries.countP (·.revents ≠ 0) ↔
      ∀ entry ∈ entries, entry.revents ≠ 0 → entry.revents = pollRdNorm := by
  have hpart : entries.countP (·.revents = pollRdNorm) =
      (entries.filter (·.revents ≠ 0)).countP (·.revents = pollRdNorm) := by
    rw [List.countP_filter]
    refine List.countP_congr ?_
    intro entry _
    rw [Bool.and_eq_true, decide_eq_true_eq, decide_eq_true_eq]
    exact ⟨fun hready => ⟨hready, hready ▸ by decide⟩, And.left⟩
  have hall : entries.countP (·.revents ≠ 0) = (entries.filter (·.revents ≠ 0)).length :=
    List.countP_eq_length_filter
  rw [hpart, hall, List.countP_eq_length]
  simp

/-- The count of a pass that returns. With nothing reported but readable entries, it ends at 0 just
    when no bits are mixed. -/
theorem World.readyCount_iff {w : World H} {id : ℕ} {a : Acceptor H} {p : PollAnswer}
    (ha : w.acceptors id = some a) (hal : a.Aligned) (hp : a.Reports p)
    (hothers : ∀ i < a.tcpSessions.length, p.revents i ≠ 0 → readable (p.revents i))
    (hend : (w.pass id p).outcome = .running) :
    (w.pass id p).readyCount = 0 ↔ a.Unmixed p := by
  have hlen := hal.parallel.length
  rw [World.pass_eq ha hal hp.nonneg] at hend ⊢
  obtain ⟨_, hcount⟩ := calls_running (p := (w.poll id p.revents).begin p.result)
    (length_due_le hal hp) hend
  have hbegin : ((w.poll id p.revents).begin p.result).readyCount = p.result := rfl
  rw [hcount, hbegin, length_due_polled hal p, hp, sub_eq_zero, Nat.cast_inj, eq_comm,
    countP_ready_iff]
  constructor
  · intro hall i hi hreadable
    refine hall { a.clientPollFdSet[i] with revents := p.revents i } ?_
      (ne_zero_of_readable hreadable)
    refine List.mem_of_getElem? (i := i) ?_
    rw [report_getElem?, List.getElem?_eq_getElem]
    rfl
  · intro hunmixed entry hentry hne
    obtain ⟨i, hi⟩ := List.mem_iff_getElem?.mp hentry
    rw [report_getElem?, Option.map_eq_some_iff] at hi
    obtain ⟨e, he, rfl⟩ := hi
    have hi := (List.getElem?_eq_some_iff.mp he).1
    exact hunmixed i (by omega) (hothers i (by omega) hne)

end UnixIpc.Engine

namespace UnixIpc.Servers
open UnixIpc.Descriptors UnixIpc.IndexLoop UnixIpc.Run UnixIpc.Engine

namespace PollServer
variable {s : PollServer} {r : PollRound}

/-- accept(2) is called: if it failed, the process would be gone before any request. -/
def Accepts (s : PollServer) (r : PollRound) : Prop :=
  (s.next { r with accepted := none }).status = .exited ∧
    (s.next { r with accepted := none }).handled = []

/-- Every readable entry is dispatched, unless an earlier client disconnects in this round. -/
def Complete (s : PollServer) (r : PollRound) : Prop :=
  s.Looping → ∀ revents, r.revents = some revents →
    (readable (revents 0) → s.Accepts r) ∧
    ∀ pre client post, (report s.clients revents).tail = pre ++ client :: post →
      readable client.revents → (∀ c ∈ pre, reported c = true → r.drops c.fd = false) →
        client.fd ∈ (s.next r).handled

/-- No such entry has another bit beside `POLLRDNORM`, and neither accept nor an earlier request ends
    the process before its turn. -/
def Unmixed (s : PollServer) (r : PollRound) : Prop :=
  s.Looping → ∀ revents, r.revents = some revents →
    (readable (revents 0) → revents 0 = pollRdNorm) ∧
    ∀ pre client post, (report s.clients revents).tail = pre ++ client :: post →
      readable client.revents → (∀ c ∈ pre, reported c = true → r.drops c.fd = false) →
        client.revents = pollRdNorm ∧ (revents 0 = pollRdNorm → r.accepted ≠ none) ∧
          ∀ c ∈ pre, reported c = true → r.halts c.fd = false

/-- A process that is gone after the requests has handled one. -/
theorem requests_idle (hrun : s.status = .running) (h : (s.requests r).handled = []) :
    (s.requests r).status = .running := by
  refine loop_inv (fun (_ : ℕ) (t : PollServer) => t.handled = [] → t.status = .running) ?_ _ 1 s
    (fun _ => hrun) h
  intro i t _ hgo
  obtain ⟨hgone, hlt⟩ := goesOn_iff.mp hgo
  have htrun : t.status = .running := by simpa using hgone
  have hget : t.clients[i]? = some t.clients[i] := List.getElem?_eq_getElem hlt
  have hmem : t.clients[i].fd ∈ t.fds := List.mem_map_of_mem (List.mem_of_getElem? hget)
  rw [visit_eq hget]
  split
  · intro hnil
    rw [(handleRequest_spec hmem htrun).1] at hnil
    exact absurd hnil (by simp)
  · exact fun _ => htrun

/-- accept is called for a listener with `POLLRDNORM` alone. -/
theorem Kept.accepts_iff (h : s.Kept) {revents : ℕ → UInt16} (hloop : s.Looping)
    (hr : r.revents = some revents) : s.Accepts r ↔ revents 0 = pollRdNorm := by
  unfold Accepts
  rw [h.next_eq (r := { r with accepted := none }) hloop hr]
  split
  case isTrue hl =>
    rw [accept_refused rfl, if_neg (by simp), requests_of_exited (by simp)]
    exact iff_of_true ⟨rfl, rfl⟩ hl
  case isFalse hl =>
    refine iff_of_false ?_ hl
    rintro ⟨hexit, hnil⟩
    have hrun : (s.polled revents).status = .running := hloop.2
    rw [requests_idle hrun hnil] at hexit
    exact absurd hexit (by decide)

/-- A client with nobody disconnecting in front of it is handled when poll reported `POLLRDNORM`
    alone and the process is still there at its turn. -/
theorem Kept.mem_handled_iff (h : s.Kept) {revents : ℕ → UInt16} (hloop : s.Looping)
    (hr : r.revents = some revents) {pre post : List PollFd} {client : PollFd}
    (hsplit : (Descriptors.report s.clients revents).tail = pre ++ client :: post)
    (hdrop : ∀ c ∈ pre, reported c = true → r.drops c.fd = false) :
    client.fd ∈ (s.next r).handled ↔
      client.revents = pollRdNorm ∧ (revents 0 = pollRdNorm → r.accepted ≠ none) ∧
        ∀ c ∈ pre, reported c = true → r.halts c.fd = false := by
  have hkept := h.polled revents
  rw [h.next_eq hloop hr]
  split
  case isTrue hl =>
    cases ha : r.accepted with
    | none =>
      rw [accept_refused ha, if_neg (by simp), requests_of_exited (by simp)]
      refine iff_of_false List.not_mem_nil ?_
      rintro ⟨_, haccept, _⟩
      exact haccept hl rfl
    | some wanted =>
      have hacc := (hkept.accept r).nodup
      rw [accept_taken ha] at hacc ⊢
      split
      case isTrue hn =>
        have hidle := idle_of_nready hl hn.2 client (by rw [hsplit]; simp)
        refine iff_of_false List.not_mem_nil ?_
        rintro ⟨hready, _⟩
        rw [reported_iff.mpr hready] at hidle
        exact absurd hidle (by decide)
      case isFalse hn =>
        rw [requests_handled hacc hloop.2]
        have htail := List.Nodup.sublist (List.tail_sublist _) hacc
        rw [fds, ← List.map_tail] at htail
        dsimp only at htail ⊢
        have hclients : (s.polled revents).clients.tail = pre ++ client :: post := hsplit
        rw [List.tail_append_of_ne_nil hkept.ne_nil, hclients, List.append_assoc,
          List.cons_append] at htail ⊢
        have hwalk := key_mem_walk_iff (r.halts ·.fd) PollFd.fd htail hdrop
        rw [reported_iff] at hwalk
        simp only [ne_eq, reduceCtorEq, not_false_eq_true, implies_true, true_and]
        exact hwalk
  case isFalse hl =>
    have hclients : (s.polled revents).clients.tail = pre ++ client :: post := hsplit
    have htail : ((s.polled revents).clients.tail.map PollFd.fd).Nodup := by
      rw [List.map_tail]
      exact hkept.nodup.sublist (List.tail_sublist _)
    rw [requests_handled hkept.nodup hloop.2, hclients] at *
    have hwalk := key_mem_walk_iff (r.halts ·.fd) PollFd.fd htail hdrop
    rw [reported_iff] at hwalk
    simp only [hl, false_implies, true_and]
    exact hwalk

theorem Kept.complete_iff (h : s.Kept) (r : PollRound) : s.Complete r ↔ s.Unmixed r := by
  refine imp_congr_right fun hloop => forall₂_congr ?_
  intro revents hr
  rw [h.accepts_iff hloop hr]
  refine and_congr_right fun _ => ?_
  refine forall₃_congr fun pre client post => forall₃_congr ?_
  intro hsplit _ hdrop
  exact h.mem_handled_iff hloop hr hsplit hdrop

end PollServer

/-! ### Both poll loops -/

/-- CORRECT: an acceptor after any history dispatches every readable entry of a pass just when no
    entry mixes `POLLRDNORM` with another bit and no handler but the last throws, and only then, if
    nothing but readable entries was reported, a pass that returns has counted down to 0. In a round
    of the poll server no readable entry with nobody disconnecting in front of it is missed, just
    when none is mixed and the process is still there at its turn. -/
theorem complete_iff_unmixed {H : Type} (es : List (Event H)) (w : World H)
    (hrun : World.empty.run es = some w) (id : ℕ) (a : Acceptor H) (ha : w.acceptors id = some a)
    (p : PollAnswer) (hp : a.Reports p) (inherited : List ℤ) (revents : UInt16)
    (qs : List PollRound) (q : PollRound) :
    (w.Complete id a p ↔ a.Unmixed p ∧ w.Undisturbed id a p) ∧
    ((∀ i < a.tcpSessions.length, p.revents i ≠ 0 → readable (p.revents i)) →
      (w.pass id p).outcome = .running → ((w.pass id p).readyCount = 0 ↔ a.Unmixed p)) ∧
    ((qs.foldl PollServer.next (.start inherited revents)).Complete q ↔
      (qs.foldl PollServer.next (.start inherited revents)).Unmixed q) := by
  have hal : w.All fun _ => Acceptor.Aligned :=
    foldlM_inv (C := fun _ => True) (fun _ _ _ h _ hstep => World.aligned_step h hstep) es _ w
      (World.empty_all _) (fun _ _ => trivial) hrun
  have hs : (qs.foldl PollServer.next (.start inherited revents)).Kept :=
    foldl_inv (fun _ q h => h.next q) qs _ (PollServer.start_kept inherited revents)
  refine ⟨World.complete_iff ha (hal id a ha) hp, ?_, hs.complete_iff q⟩
  exact World.readyCount_iff ha (hal id a ha) hp

/-- A poll that finds entry `i` with these revents and nothing else. -/
def found (i : ℕ) (revents : UInt16) : PollAnswer where
  result := 1
  revents := fun j => if j = i then revents else 0
  answers := fun _ => ⟨4, some true, false⟩

/-- One client is connected to an acceptor. -/
def oneClient : List (Event Unit) :=
  [.construct 0 (listenerAt 3) (), .pass 0 (found 0 pollRdNorm)]

/-- The same for the poll server. -/
def oneConnection : List PollRound := [⟨.comeAndGo, some (found 0 pollRdNorm).revents, 0⟩]

theorem complete_iff_unmixed_one : ∃ (w : World Unit) (a : Acceptor Unit),
    World.empty.run oneClient = some w ∧ w.acceptors 0 = some a ∧ a.tcpSessions.length = 2 ∧
    (w.Complete 0 a (found 1 pollRdNorm) ↔
      a.Unmixed (found 1 pollRdNorm) ∧ w.Undisturbed 0 a (found 1 pollRdNorm)) := by
  refine ⟨_, _, rfl, rfl, by decide, ?_⟩
  exact (complete_iff_unmixed oneClient _ rfl 0 _ rfl (found 1 pollRdNorm) (by decide) [] 0 []
    ⟨.comeAndGo, none, 0⟩).1

/-- The client has sent data and gone (`POLLRDNORM | POLLHUP`): its handler is not called, the count
    stays at 1, and the poll server does not read from it either. -/
theorem mixed_missed :
    (∃ (w : World Unit) (a : Acceptor Unit), World.empty.run oneClient = some w ∧
      w.acceptors 0 = some a ∧ a.Reports (found 1 80) ∧ ¬ w.Complete 0 a (found 1 80) ∧
      (w.pass 0 (found 1 80)).outcome = .running ∧ (w.pass 0 (found 1 80)).readyCount = 1) ∧
    ¬ (oneConnection.foldl PollServer.next (.start [0, 1, 2] 0)).Complete
      ⟨.comeAndGo, some (found 1 80).revents, 0⟩ := by
  constructor
  · refine ⟨_, _, rfl, rfl, by decide, ?_, by decide, by decide⟩
    intro hall
    exact absurd (hall 1 (by decide) (by decide)) (by decide)
  · intro hall
    have hmem := (hall (by decide) _ rfl).2 [] ⟨4, 64, 80⟩ [] (by decide) (by decide) (by simp)
    exact absurd hmem (by decide)

end UnixIpc.Servers
