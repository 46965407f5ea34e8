import UnixIpc.Lib.IndexLoop
import UnixIpc.Servers.Request

/-! The multiplex server over poll(2). Listener and clients share one vector of `pollfd`, the
    listener at index 0; a pushed entry has whatever `revents` the stack held.

        poll ──▶ clients[0]: accept, push_back ──nready < 2──▶ poll
                        └──▶ for i = 1..: revents == POLLRDNORM ──▶ request (0: erase) -/

namespace UnixIpc.Servers
open UnixIpc.Descriptors UnixIpc.IndexLoop

structure PollServer extends Process where
  listenfd : ℤ
  clients : List PollFd
  deriving DecidableEq

/-- One round: the revents poll finds, by index (`none`: it fails), and the `revents` of a new
    `clientPollfd`. -/
structure PollRound extends Outside where
  revents : Option (ℕ → UInt16)
  fresh : UInt16

namespace PollServer

/-- `revents` is the uninitialised field of `listenPollfd`. -/
def start (inherited : List ℤ) (revents : UInt16) : PollServer where
  toProcess := .start inherited
  listenfd := lowestFree inherited
  clients := [⟨lowestFree inherited, pollRdNorm, revents⟩]

def handleRequest (s : PollServer) (r : PollRound) (sockfd : ℤ) : PollServer :=
  let s : PollServer := { s with handled := s.handled ++ [sockfd] }
  match r.reply sockfd with
  | .disconnected =>
    if s.clients.any (·.fd = sockfd) then
      { s with
        clients := s.clients.eraseP (·.fd = sockfd)
        toProcess := s.toProcess.close sockfd }
    else { s with toProcess := s.toProcess.exit }
  | reply => { s with toProcess := s.toProcess.respond sockfd (r.writes sockfd) reply }

/-- The body of the loop over `clients`. -/
def visit (r : PollRound) (i : ℕ) (s : PollServer) : PollServer :=
  match s.clients[i]? with
  | none => s
  | some client => if client.revents = pollRdNorm then s.handleRequest r client.fd else s

def goesOn (i : ℕ) (s : PollServer) : Bool := s.status = .running && i < s.clients.length

/-- The loop over `clients`, from index 1 on. -/
def requests (s : PollServer) (r : PollRound) : PollServer :=
  (loop goesOn (visit r) (s.clients.length - 1) 1 s).2

/-- The accept branch up to `clients.push_back(clientPollfd)`. -/
def accept (s : PollServer) (r : PollRound) : PollServer :=
  match r.accepted with
  | none => { s with toProcess := s.toProcess.exit }
  | some wanted =>
    let connfd := freeFd s.openFds wanted
    { s with
      toProcess := s.toProcess.accept connfd
      clients := s.clients ++ [⟨connfd, pollRdNorm, r.fresh⟩] }

/-- What poll returns: the number of entries with something in `revents`. -/
def nready (s : PollServer) : ℕ := s.clients.countP (·.revents ≠ 0)

/-- The body of the main loop. -/
def round (s : PollServer) (r : PollRound) : PollServer :=
  let s : PollServer := { s with handled := [] }
  match r.revents with
  | none => { s with toProcess := s.toProcess.exit }
  | some revents =>
    let s : PollServer := { s with clients := report s.clients revents }
    match s.clients[0]? with
    | none => { s with status := .undefined }
    | some listener =>
      if listener.revents = pollRdNorm then
        if (s.accept r).status = .running ∧ s.nready < 2 then s.accept r
        else (s.accept r).requests r
      else s.requests r

/-- `while (isRunning)`. -/
def next (s : PollServer) (r : PollRound) : PollServer :=
  if s.Looping then s.round r else s

/-! ### What the steps do -/

/-- The descriptors in `clients`, the listener's first. -/
def fds (s : PollServer) : List ℤ := s.clients.map (·.fd)

/-- The request of a client that disconnects. -/
theorem handleRequest_drops {s : PollServer} {r : PollRound} {sockfd : ℤ}
    (hd : r.drops sockfd = true) (hmem : sockfd ∈ s.fds) :
    s.handleRequest r sockfd =
      { s with
        clients := s.clients.eraseP (·.fd = sockfd)
        toProcess := { s.toProcess with handled := s.handled ++ [sockfd] }.close sockfd } := by
  simp only [Outside.drops, decide_eq_true_eq] at hd
  have hany : s.clients.any (·.fd = sockfd) = true := by
    obtain ⟨client, hclient, hfd⟩ := List.mem_map.mp hmem
    exact List.any_eq_true.mpr ⟨client, hclient, by simpa using hfd⟩
  simp only [handleRequest, hd, if_pos hany]

/-- The request of any other client. -/
theorem handleRequest_stays {s : PollServer} {r : PollRound} {sockfd : ℤ}
    (hd : r.drops sockfd = false) :
    s.handleRequest r sockfd =
      { s with toProcess := { s.toProcess with handled := s.handled ++ [sockfd] }.respond sockfd
                 (r.writes sockfd) (r.reply sockfd) } := by
  simp only [Outside.drops, decide_eq_false_iff_not] at hd
  rw [handleRequest]
  split
  · exact absurd ‹_› hd
  · rfl

/-- What every request does to the process and the list. -/
theorem handleRequest_spec {s : PollServer} {r : PollRound} {sockfd : ℤ} (hmem : sockfd ∈ s.fds)
    (hrun : s.status = .running) :
    (s.handleRequest r sockfd).handled = s.handled ++ [sockfd] ∧
      (s.handleRequest r sockfd).listenfd = s.listenfd ∧
      decide ((s.handleRequest r sockfd).status ≠ .running) = r.halts sockfd ∧
      (s.handleRequest r sockfd).clients =
        (if r.drops sockfd then s.clients.eraseP (·.fd = sockfd) else s.clients) ∧
      (s.handleRequest r sockfd).openFds =
        (if r.drops sockfd then s.openFds.erase sockfd else s.openFds) := by
  cases hd : r.drops sockfd with
  | true =>
    rw [handleRequest_drops hd hmem, Outside.halts_of_drops hd]
    simp [hrun]
  | false =>
    rw [handleRequest_stays hd]
    refine ⟨by simp, rfl, Outside.respond_status hrun, rfl, by simp⟩

theorem handleRequest_subset {s : PollServer} {r : PollRound} {sockfd : ℤ} (hmem : sockfd ∈ s.fds)
    (hrun : s.status = .running) :
    (s.handleRequest r sockfd).clients.tail ⊆ s.clients.tail := by
  obtain ⟨_, _, _, hc, _⟩ := handleRequest_spec (r := r) hmem hrun
  rw [hc]
  split
  · exact List.eraseP_sublist.tail.subset
  · exact List.Subset.refl _

theorem accept_refused {s : PollServer} {r : PollRound} (ha : r.accepted = none) :
    s.accept r = { s with toProcess := s.toProcess.exit } := by
  rw [accept, ha]

theorem accept_taken {s : PollServer} {r : PollRound} {wanted : ℤ} (ha : r.accepted = some wanted) :
    s.accept r =
      { s with
        toProcess := s.toProcess.accept (freeFd s.openFds wanted)
        clients := s.clients ++ [⟨freeFd s.openFds wanted, pollRdNorm, r.fresh⟩] } := by
  rw [accept, ha]

theorem goesOn_iff {i : ℕ} {s : PollServer} :
    goesOn i s = true ↔ decide (s.status ≠ .running) = false ∧ i < s.clients.length := by
  simp [goesOn]

theorem visit_eq {r : PollRound} {i : ℕ} {s : PollServer} {client : PollFd}
    (h : s.clients[i]? = some client) :
    visit r i s = if client.revents = pollRdNorm then s.handleRequest r client.fd else s := by
  rw [visit, h]

theorem requests_of_exited {s : PollServer} {r : PollRound} (hgone : s.status ≠ .running) :
    s.requests r = s := by
  rw [requests, loop_done]
  simp [goesOn, hgone]

/-- The listener comes first, and the clients behind it are tracked among the descriptors of the
    process. -/
def Kept (s : PollServer) : Prop :=
  ∃ rest, s.fds = s.listenfd :: rest ∧ Tracked s.listenfd s.openFds rest

theorem start_kept (inherited : List ℤ) (revents : UInt16) : (start inherited revents).Kept :=
  ⟨[], rfl, tracked_start inherited⟩

theorem Kept.nodup {s : PollServer} (h : s.Kept) : s.fds.Nodup := by
  obtain ⟨rest, hfds, htracked⟩ := h
  rw [hfds, List.nodup_cons]
  exact ⟨fun hmem => lt_irrefl _ (htracked.client _ hmem).2, htracked.nodup⟩

theorem Kept.ne_nil {s : PollServer} (h : s.Kept) : s.clients ≠ [] := by
  obtain ⟨rest, hfds, -⟩ := h
  exact fun hnil => absurd hfds (by simp [fds, hnil])

theorem Kept.report {s : PollServer} (h : s.Kept) (revents : ℕ → UInt16) :
    ({ s with clients := report s.clients revents } : PollServer).Kept := by
  obtain ⟨rest, hfds, htracked⟩ := h
  exact ⟨rest, (report_fd s.clients revents).trans hfds, htracked⟩

/-- Taking a client off the list leaves the listener at the front. -/
theorem map_fd_eraseP {s : PollServer} {rest : List ℤ} {sockfd : ℤ}
    (hfds : s.fds = s.listenfd :: rest) (hlt : s.listenfd < sockfd) :
    (s.clients.eraseP (·.fd = sockfd)).map (·.fd) = s.listenfd :: rest.erase sockfd := by
  rw [map_eraseP_key, show s.clients.map (·.fd) = s.listenfd :: rest from hfds,
    List.erase_cons_tail (by simpa using hlt.ne)]

theorem Kept.handleRequest {s : PollServer} (h : s.Kept) {r : PollRound} {sockfd : ℤ}
    (hmem : sockfd ∈ s.fds.tail) (hrun : s.status = .running) : (s.handleRequest r sockfd).Kept := by
  obtain ⟨_, hl, _, hc, ho⟩ := handleRequest_spec (r := r) (List.mem_of_mem_tail hmem) hrun
  obtain ⟨rest, hfds, htracked⟩ := h
  rw [hfds, List.tail_cons] at hmem
  unfold Kept fds
  rw [hl, hc, ho]
  cases r.drops sockfd with
  | true =>
    exact ⟨rest.erase sockfd, map_fd_eraseP hfds (htracked.client _ hmem).2, htracked.close hmem⟩
  | false => exact ⟨rest, hfds, htracked⟩

theorem Kept.accept {s : PollServer} (h : s.Kept) (r : PollRound) : (s.accept r).Kept := by
  obtain ⟨rest, hfds, htracked⟩ := h
  cases ha : r.accepted with
  | none => rw [accept_refused ha]; exact ⟨rest, hfds, htracked⟩
  | some wanted =>
    rw [accept_taken ha]
    refine ⟨rest ++ [freeFd s.openFds wanted], ?_, htracked.accept wanted⟩
    rw [fds, List.map_append, ← List.cons_append, ← hfds]
    rfl

theorem getElem?_tail_fds {s : PollServer} {i : ℕ} {client : PollFd} (hi : 1 ≤ i)
    (h : s.clients[i]? = some client) : s.fds.tail[i - 1]? = some client.fd := by
  rw [List.getElem?_tail, Nat.sub_add_cancel hi, fds, List.getElem?_map, h]
  rfl

/-- Any number of turns of the loop over `clients`. -/
theorem Kept.loop {s : PollServer} {r : PollRound} (h : s.Kept) (fuel : ℕ) :
    (IndexLoop.loop goesOn (visit r) fuel 1 s).2.Kept := by
  refine (loop_inv (fun i s => 1 ≤ i ∧ s.Kept) ?_ fuel 1 s ⟨le_rfl, h⟩).2
  rintro i s ⟨hi, hs⟩ hgo
  obtain ⟨hrun, hlt⟩ := goesOn_iff.mp hgo
  have hget : s.clients[i]? = some s.clients[i] := List.getElem?_eq_getElem hlt
  refine ⟨Nat.le_succ_of_le hi, ?_⟩
  rw [visit_eq hget]
  split
  · exact hs.handleRequest (List.mem_of_getElem? (getElem?_tail_fds hi hget)) (by simpa using hrun)
  · exact hs

theorem Kept.requests {s : PollServer} (h : s.Kept) (r : PollRound) : (s.requests r).Kept :=
  h.loop (s.clients.length - 1)

theorem Kept.round {s : PollServer} (h : s.Kept) (r : PollRound) : (s.round r).Kept := by
  have h0 : ({ s with handled := [] } : PollServer).Kept := h
  unfold PollServer.round
  cases r.revents with
  | none => exact h0
  | some revents =>
    have h1 := h0.report revents
    simp only
    split
    · exact h1
    · split
      · split
        · exact h1.accept r
        · exact (h1.accept r).requests r
      · exact h1.requests r

theorem Kept.next {s : PollServer} (h : s.Kept) (r : PollRound) : (s.next r).Kept := by
  unfold PollServer.next
  split
  · exact h.round r
  · exact h

end PollServer
end UnixIpc.Servers
