import UnixIpc.Lib.Ledger
import UnixIpc.Servers.Rounds

/-! What the poll server opens and closes, and how it stops. The listener and each accepted client
    go onto the list when they are opened. They leave it when they are closed: one by one as clients
    disconnect, and all together behind the main loop.

        socket, accept ──▶ clients ──read 0──▶ close
                              └──stop──▶ CloseOpeningFileDescriptors ──▶ close, close, ..

    `Accounts` is the invariant: the descriptors of the process are the listed and the inherited
    ones, and whatever else it opened it has closed once. -/

namespace UnixIpc.Servers
open UnixIpc.Descriptors UnixIpc.IndexLoop UnixIpc.Run

/-- The listed descriptors are exactly what the process has opened and not closed. -/
structure Accounts (inherited opened fds : List ℤ) (p : Process) : Prop where
  openFds : p.openFds.Perm (fds ++ inherited)
  ledger : Ledger opened p.closed fds

theorem accounts_start (inherited : List ℤ) :
    Accounts inherited [lowestFree inherited] [lowestFree inherited] (.start inherited) where
  openFds := List.Perm.refl _
  ledger := Ledger.nil.opening List.not_mem_nil

theorem Accounts.mem {inherited opened fds : List ℤ} {p : Process} {fd : ℤ}
    (h : Accounts inherited opened fds p) (hfd : fd ∈ fds) : fd ∈ p.openFds :=
  h.openFds.mem_iff.mpr (List.mem_append_left _ hfd)

/-- STEP: an accepted descriptor goes onto the list. -/
theorem Accounts.accept {inherited opened fds : List ℤ} {p : Process}
    (h : Accounts inherited opened fds p) (wanted : ℤ) :
    Accounts inherited (opened ++ [freeFd p.openFds wanted]) (fds ++ [freeFd p.openFds wanted])
      (p.accept (freeFd p.openFds wanted)) where
  openFds := by
    rw [Process.accept_openFds, List.append_assoc, List.singleton_append]
    exact (h.openFds.cons _).trans List.perm_middle.symm
  ledger := by
    have hnew : freeFd p.openFds wanted ∉ fds :=
      fun hmem => freeFd_not_mem p.openFds wanted (h.mem hmem)
    exact (h.ledger.opening hnew).perm (List.perm_append_singleton _ fds).symm

/-- STEP: a closed descriptor leaves the list. -/
theorem Accounts.close {inherited opened fds : List ℤ} {p : Process} {fd : ℤ}
    (h : Accounts inherited opened fds p) (hfd : fd ∈ fds) :
    Accounts inherited opened (fds.erase fd) (p.close fd) where
  openFds := by
    rw [Process.close_openFds, ← List.erase_append_left inherited hfd]
    exact h.openFds.erase fd
  ledger := h.ledger.closing hfd

/-- STEP: nothing is opened or closed. -/
theorem Accounts.same {inherited opened fds : List ℤ} {p q : Process}
    (h : Accounts inherited opened fds p) (ho : q.openFds = p.openFds) (hc : q.closed = p.closed) :
    Accounts inherited opened fds q := by
  refine ⟨?_, ?_⟩
  · rw [ho]; exact h.openFds
  · rw [hc]; exact h.ledger

namespace PollServer
variable {inherited opened : List ℤ} {s : PollServer} {r : PollRound}

/-- The listed descriptors of the server are accounted for. -/
def Accounted (inherited opened : List ℤ) (s : PollServer) : Prop :=
  Accounts inherited opened s.fds s.toProcess

/-- What the round opens: the descriptor its accept returns. -/
def opens (s : PollServer) (r : PollRound) : List ℤ :=
  match r.revents, r.accepted with
  | some revents, some wanted =>
    if s.Looping ∧ revents 0 = pollRdNorm then [freeFd s.openFds wanted] else []
  | _, _ => []

/-- What a run opens from `s` on. -/
def opensAlong : PollServer → List PollRound → List ℤ
  | _, [] => []
  | s, r :: rs => s.opens r ++ opensAlong (s.next r) rs

/-- A state inside a round: poll has returned, the listener's turn is over and `k` more entries have
    been looked at. -/
def inside (s : PollServer) (r : PollRound) (revents : ℕ → UInt16) (k : ℕ) : PollServer :=
  (loop goesOn (visit r) k 1
    (if revents 0 = pollRdNorm then (s.polled revents).accept r else s.polled revents)).2

/-- `errorHandler(close(pollfdItem.fd), "close error")`. -/
def closeEntry (p : Process) (entry : PollFd) : Process :=
  if p.status = .running then
    if entry.fd ∈ p.openFds then p.close entry.fd else p.exit
  else p

/-- `CloseOpeningFileDescriptors`; a failing `close` ends the process before `clients.clear()`. -/
def closeOpeningFileDescriptors (s : PollServer) : PollServer :=
  let p := s.clients.foldl closeEntry s.toProcess
  { s with toProcess := p, clients := if p.status = .running then [] else s.clients }

/-- main behind its loop. -/
def stop (s : PollServer) : PollServer :=
  if s.isRunning = false ∧ s.status = .running then s.closeOpeningFileDescriptors else s

/-! ### Inside a round -/

theorem Accounted.handleRequest {sockfd : ℤ} (h : s.Accounted inherited opened)
    (hmem : sockfd ∈ s.fds) : (s.handleRequest r sockfd).Accounted inherited opened := by
  cases hd : r.drops sockfd with
  | true =>
    have hfds : (s.handleRequest r sockfd).fds = s.fds.erase sockfd := by
      rw [handleRequest_drops hd hmem]
      exact map_eraseP_key s.clients sockfd
    rw [Accounted, hfds, handleRequest_drops hd hmem]
    exact (h.close hmem).same rfl rfl
  | false =>
    rw [handleRequest_stays hd]
    exact h.same (Process.respond_openFds ..) (Process.respond_closed ..)

theorem Accounted.visit {i : ℕ} (h : s.Accounted inherited opened) :
    (PollServer.visit r i s).Accounted inherited opened := by
  cases hget : s.clients[i]? with
  | none => rw [PollServer.visit, hget]; exact h
  | some client =>
    have hmem : client.fd ∈ s.fds := List.mem_map_of_mem (List.mem_of_getElem? hget)
    rw [visit_eq hget]
    split
    · exact h.handleRequest hmem
    · exact h

/-- Any number of turns of the loop over `clients`. -/
theorem Accounted.loop (h : s.Accounted inherited opened) (fuel i : ℕ) :
    (IndexLoop.loop goesOn (PollServer.visit r) fuel i s).2.Accounted inherited opened :=
  loop_inv (fun _ s => s.Accounted inherited opened) (fun _ _ hs _ => hs.visit) fuel i s h

theorem Accounted.polled (h : s.Accounted inherited opened) (revents : ℕ → UInt16) :
    (s.polled revents).Accounted inherited opened := by
  have hfds : (s.polled revents).fds = s.fds := report_fd s.clients revents
  rw [Accounted, hfds]
  exact h.same rfl rfl

/-- The accept branch opens what the round opens. -/
theorem Accounted.accept {revents : ℕ → UInt16} (h : s.Accounted inherited opened)
    (hloop : s.Looping) (hr : r.revents = some revents) (hl : revents 0 = pollRdNorm) :
    ((s.polled revents).accept r).Accounted inherited (opened ++ s.opens r) := by
  have hp := h.polled revents
  cases ha : r.accepted with
  | none =>
    rw [accept_refused ha, opens, hr, ha, List.append_nil]
    exact hp.same rfl rfl
  | some wanted =>
    have hopens : s.opens r = [freeFd s.openFds wanted] := by
      rw [opens, hr, ha]
      exact if_pos ⟨hloop, hl⟩
    rw [accept_taken ha, hopens, Accounted, fds, List.map_append]
    exact Accounts.accept hp wanted

theorem opens_idle {revents : ℕ → UInt16} (hr : r.revents = some revents)
    (hl : revents 0 ≠ pollRdNorm) : s.opens r = [] := by
  rw [opens, hr]
  cases r.accepted with
  | none => rfl
  | some wanted => exact if_neg fun hc => hl hc.2

theorem Accounted.inside {revents : ℕ → UInt16} (h : s.Accounted inherited opened)
    (hloop : s.Looping) (hr : r.revents = some revents) (k : ℕ) :
    (s.inside r revents k).Accounted inherited (opened ++ s.opens r) := by
  unfold PollServer.inside
  split
  case isTrue hl => exact (h.accept hloop hr hl).loop k 1
  case isFalse hl =>
    rw [opens_idle hr hl, List.append_nil]
    exact (h.polled revents).loop k 1

theorem Kept.inside {revents : ℕ → UInt16} (h : s.Kept) (k : ℕ) :
    (s.inside r revents k).Kept := by
  unfold PollServer.inside
  split
  · exact ((h.polled revents).accept r).loop k
  · exact (h.polled revents).loop k

/-! ### Whole runs -/

/-- STEP: a round opens what it accepts and closes what leaves the list. -/
theorem Accounted.next (hk : s.Kept) (h : s.Accounted inherited opened) (r : PollRound) :
    (s.next r).Accounted inherited (opened ++ s.opens r) := by
  by_cases hloop : s.Looping
  · cases hr : r.revents with
    | none =>
      have hopens : s.opens r = [] := by rw [opens, hr]
      have hexit : s.next r = { s with toProcess := { s.toProcess with handled := [] }.exit } := by
        rw [PollServer.next, if_pos hloop, PollServer.round, hr]
      rw [hopens, List.append_nil, hexit]
      exact h.same rfl rfl
    | some revents =>
      rw [hk.next_eq hloop hr]
      split
      case isTrue hl =>
        split
        · exact h.accept hloop hr hl
        · exact (h.accept hloop hr hl).loop _ 1
      case isFalse hl =>
        rw [opens_idle hr hl, List.append_nil]
        exact (h.polled revents).loop _ 1
  · have hopens : s.opens r = [] := by
      unfold opens
      split
      · exact if_neg fun hc => hloop hc.1
      · rfl
    rw [PollServer.next, if_neg hloop, hopens, List.append_nil]
    exact h

/-- RUN: the list and the account through any number of rounds. -/
theorem accounted_run (rs : List PollRound) (s : PollServer) (opened : List ℤ) (hk : s.Kept)
    (h : s.Accounted inherited opened) :
    (rs.foldl PollServer.next s).Kept ∧
      (rs.foldl PollServer.next s).Accounted inherited (opened ++ s.opensAlong rs) := by
  induction rs generalizing s opened with
  | nil =>
    rw [opensAlong, List.append_nil]
    exact ⟨hk, h⟩
  | cons r rs ih =>
    rw [opensAlong, ← List.append_assoc]
    exact ih (s.next r) (opened ++ s.opens r) (hk.next r) (h.next hk r)

/-- The shutdown closes entry by entry what is accounted for. -/
theorem foldl_closeEntry (entries : List PollFd) (rest : List ℤ) (p : Process)
    (hrun : p.status = .running)
    (h : Accounts inherited opened (entries.map (·.fd) ++ rest) p) :
    (entries.foldl closeEntry p).status = .running ∧
      (entries.foldl closeEntry p).closed = p.closed ++ entries.map (·.fd) ∧
      Accounts inherited opened rest (entries.foldl closeEntry p) := by
  induction entries generalizing p with
  | nil => exact ⟨hrun, (List.append_nil _).symm, h⟩
  | cons entry entries ih =>
    have hmem : entry.fd ∈ (entry :: entries).map (·.fd) ++ rest := List.mem_cons_self ..
    have hclose : closeEntry p entry = p.close entry.fd := by
      rw [closeEntry, if_pos hrun, if_pos (h.mem hmem)]
    have hrest := h.close hmem
    rw [List.map_cons, List.cons_append, List.erase_cons_head] at hrest
    obtain ⟨hrun', hclosed, hacc⟩ := ih (p.close entry.fd) hrun hrest
    rw [List.foldl_cons, hclose]
    refine ⟨hrun', ?_, hacc⟩
    rw [hclosed, List.map_cons, Process.close, List.append_assoc]
    rfl

/-- What the list has to say about the descriptors: the listener first, none twice, and exactly
    what was opened and not closed. -/
structure InOrder (inherited opened : List ℤ) (s : PollServer) : Prop where
  listener : (s.clients[0]?).map (·.fd) = some s.listenfd
  openFds : s.openFds.Perm (s.fds ++ inherited)
  ledger : Ledger opened s.closed s.fds

theorem Accounted.inOrder (hk : s.Kept) (h : s.Accounted inherited opened) :
    s.InOrder inherited opened := by
  obtain ⟨rest, hfds, -⟩ := hk
  refine ⟨?_, h.openFds, h.ledger⟩
  rw [← List.getElem?_map, show s.clients.map (·.fd) = s.listenfd :: rest from hfds,
    List.getElem?_cons_zero]

/-- How a server is left behind: the list is empty, the process has its inherited descriptors and no
    other, and every descriptor on the list was closed in turn, so that each opening was closed
    once. -/
structure Stopped (inherited opened : List ℤ) (s final : PollServer) : Prop where
  status : final.status = .running
  clients : final.clients = []
  openFds : final.openFds.Perm inherited
  closed : final.closed = s.closed ++ s.fds
  once : final.closed.Perm opened

theorem Accounted.stop (h : s.Accounted inherited opened) (hstop : s.isRunning = false)
    (hrun : s.status = .running) : s.Stopped inherited opened s.stop := by
  have hall : Accounts inherited opened (s.clients.map (·.fd) ++ []) s.toProcess := by
    rw [List.append_nil]
    exact h
  obtain ⟨hrun', hclosed, hopen, hledger⟩ := foldl_closeEntry s.clients [] s.toProcess hrun hall
  rw [PollServer.stop, if_pos ⟨hstop, hrun⟩]
  exact ⟨hrun', if_pos hrun', hopen, hclosed, hledger.settled⟩

/-- CORRECT: at every point of every run the list is in order, inside the rounds too, and a run that
    ends through a stop command closes whatever is on it. -/
theorem inOrder_and_stopped (inherited : List ℤ) (revents : UInt16) (rs : List PollRound) :
    let opened := lowestFree inherited :: (start inherited revents).opensAlong rs
    let s := rs.foldl PollServer.next (start inherited revents)
    s.InOrder inherited opened ∧
      (∀ (r : PollRound) (found : ℕ → UInt16), s.Looping → r.revents = some found → ∀ k,
        (s.inside r found k).InOrder inherited (opened ++ s.opens r)) ∧
      (s.isRunning = false → s.status = .running → s.Stopped inherited opened s.stop) := by
  intro opened s
  obtain ⟨hk, h⟩ : s.Kept ∧ s.Accounted inherited opened :=
    accounted_run rs (start inherited revents) [lowestFree inherited]
      (start_kept inherited revents) (accounts_start inherited)
  refine ⟨h.inOrder hk, ?_, ?_⟩
  · intro r found hloop hr k
    exact (h.inside hloop hr k).inOrder (hk.inside k)
  · intro hstop hrun
    exact h.stop hstop hrun

/-- A client connects, and says stop. -/
example : (([⟨.comeAndGo, some fun i => if i = 0 then 64 else 0, 0⟩,
      ⟨{ Outside.comeAndGo with read := fun _ => some ⟨stopCommand, by decide⟩ },
        some fun i => if i = 1 then 64 else 0, 0⟩].foldl PollServer.next
    (start [0, 1, 2] 0)).stop).closed = [3, 4] := by decide +kernel

end PollServer
end UnixIpc.Servers
