import UnixIpc.Servers.Agreement
import UnixIpc.Servers.PollStop
import UnixIpc.Servers.Segments

/-! What the select server opens and closes, and how it stops. The listener is not on its list: behind
    the main loop `CloseConnections` closes the clients, and then main closes the listener.

        socket ──▶ listenfd ─────────────────────────stop──▶ CloseConnections ──▶ close(listenfd)
        accept ──▶ clients ──read 0──▶ close                  close, close, ..

    Neither of the two looks at failures, and there are none: what they close is open
    (`Accounted.stop`). Fed with the same rounds, the two multiplex servers leave the same behind. -/

namespace UnixIpc.Servers
open UnixIpc.Descriptors UnixIpc.IndexLoop UnixIpc.Run

namespace SelectServer
variable {inherited opened : List ℤ} {s : SelectServer} {r : SelectRound}

/-- The listener and the clients are what the process has opened and not closed. -/
def Accounted (inherited opened : List ℤ) (s : SelectServer) : Prop :=
  Accounts inherited opened (s.listenfd :: s.clients) s.toProcess

/-- What the round opens: the descriptor its accept returns. -/
def opens (s : SelectServer) (r : SelectRound) : List ℤ :=
  match r.readable, r.accepted with
  | some readable, some wanted =>
    if s.Looping ∧ s.listenfd ∈ s.readset readable then [freeFd s.openFds wanted] else []
  | _, _ => []

/-- What a run opens from `s` on. -/
def opensAlong : SelectServer → List SelectRound → List ℤ
  | _, [] => []
  | s, r :: rs => s.opens r ++ opensAlong (s.next r) rs

/-- `CloseConnection`, with what it prints. -/
def closeConnection (out : Process × List String) (clientfd : ℤ) : Process × List String :=
  if clientfd ∈ out.1.openFds then
    (out.1.close clientfd, out.2 ++ ["Close simple_tcp_client connection"])
  else
    (out.1, out.2 ++ ["Can`t close simple_tcp_client session", "Close simple_tcp_client connection"])

/-- `CloseConnections`. -/
def closeConnections (s : SelectServer) : SelectServer × List String :=
  let out := s.clients.foldl closeConnection (s.toProcess, [])
  ({ s with toProcess := out.1, clients := [] }, out.2)

/-- main behind its loop, with what it prints. -/
def stop (s : SelectServer) : SelectServer × List String :=
  if s.isRunning = false ∧ s.status = .running then
    let out := s.closeConnections
    let p := out.1.toProcess
    ({ out.1 with toProcess := if s.listenfd ∈ p.openFds then p.close s.listenfd else p },
      out.2 ++ ["Stop multiplex_server"])
  else (s, [])

/-! ### Inside a round -/

theorem Accounted.handleRequest {sockfd : ℤ} (h : s.Accounted inherited opened) (hk : s.Kept)
    (hmem : sockfd ∈ s.clients) : (s.handleRequest r sockfd).Accounted inherited opened := by
  cases hd : r.drops sockfd with
  | true =>
    have hne : s.listenfd ≠ sockfd := (hk.client sockfd hmem).2.ne
    have hclose := h.close (List.mem_cons_of_mem _ hmem)
    rw [List.erase_cons_tail (by simpa using hne)] at hclose
    rw [Accounted, handleRequest_drops hd hmem]
    simp only [updateMaxfd_listenfd, updateMaxfd_clients, updateMaxfd_toProcess]
    exact hclose.same rfl rfl
  | false =>
    rw [handleRequest_stays hd]
    exact h.same (Process.respond_openFds ..) (Process.respond_closed ..)

theorem Accounted.requests (h : s.Accounted inherited opened) (hk : s.Kept) (readset : Finset ℤ) :
    (s.requests r readset).Accounted inherited opened := by
  refine (loop_inv (fun _ s => s.Accounted inherited opened ∧ s.Kept) ?_ _ 0 s ⟨h, hk⟩).1
  rintro i s ⟨hs, hk⟩ hgo
  obtain ⟨hrun, hi⟩ := goesOn_iff.mp hgo
  have hmem : s.clients[i] ∈ s.clients := List.getElem_mem hi
  rw [visit_eq (List.getElem?_eq_getElem hi)]
  split
  · exact ⟨hs.handleRequest hk hmem, hk.handleRequest hmem (by simpa using hrun)⟩
  · exact ⟨hs, hk⟩

/-- The accept branch opens what the round opens. -/
theorem Accounted.accept {readable : ℤ → Bool} (h : s.Accounted inherited opened) (hloop : s.Looping)
    (hr : r.readable = some readable) (hl : s.listenfd ∈ s.readset readable) :
    (({ s with handled := [] } : SelectServer).accept r).Accounted inherited
      (opened ++ s.opens r) := by
  have h0 : ({ s with handled := [] } : SelectServer).Accounted inherited opened := h.same rfl rfl
  cases ha : r.accepted with
  | none =>
    rw [accept_refused ha, opens, hr, ha, List.append_nil]
    exact h0.same rfl rfl
  | some wanted =>
    have hopens : s.opens r = [freeFd s.openFds wanted] := by
      rw [opens, hr, ha]
      exact if_pos ⟨hloop, hl⟩
    obtain ⟨hp, hlisten, hc⟩ := accept_spec (s := { s with handled := [] }) ha
    rw [Accounted, hp, hlisten, hc, hopens]
    exact Accounts.accept h0 wanted

theorem opens_idle {readable : ℤ → Bool} (hr : r.readable = some readable)
    (hl : s.listenfd ∉ s.readset readable) : s.opens r = [] := by
  rw [opens, hr]
  cases r.accepted with
  | none => rfl
  | some wanted => exact if_neg fun hc => hl hc.2

/-! ### Whole runs -/

/-- STEP: a round opens what it accepts and closes what leaves the list. -/
theorem Accounted.next (hk : s.Kept) (h : s.Accounted inherited opened) (r : SelectRound) :
    (s.next r).Accounted inherited (opened ++ s.opens r) := by
  by_cases hloop : s.Looping
  · cases hr : r.readable with
    | none =>
      have hopens : s.opens r = [] := by rw [opens, hr]
      rw [hopens, List.append_nil, SelectServer.next, if_pos hloop, SelectServer.round, hr]
      exact h.same rfl rfl
    | some readable =>
      rw [next_eq hloop hr]
      split
      case isTrue hl =>
        exact (h.accept hloop hr hl).requests (Kept.accept (s := { s with handled := [] }) hk r) _
      case isFalse hl =>
        rw [opens_idle hr hl, List.append_nil]
        exact Accounted.requests (s := { s with handled := [] }) (h.same rfl rfl) hk _
  · have hopens : s.opens r = [] := by
      unfold opens
      split
      · exact if_neg fun hc => hloop hc.1
      · rfl
    rw [SelectServer.next, if_neg hloop, hopens, List.append_nil]
    exact h

/-- RUN: the list and the account through any number of rounds. -/
theorem accounted_run (rs : List SelectRound) (s : SelectServer) (opened : List ℤ) (hk : s.Kept)
    (h : s.Accounted inherited opened) :
    (rs.foldl SelectServer.next s).Accounted inherited (opened ++ s.opensAlong rs) := by
  induction rs generalizing s opened with
  | nil =>
    rw [opensAlong, List.append_nil]
    exact h
  | cons r rs ih =>
    rw [opensAlong, ← List.append_assoc]
    exact ih (s.next r) (opened ++ s.opens r) (hk.next r) (h.next hk r)

/-- `CloseConnections` finds every client open. -/
theorem foldl_closeConnection (clients rest : List ℤ) (p : Process) (printed : List String)
    (h : Accounts inherited opened (clients ++ rest) p) :
    Accounts inherited opened rest (clients.foldl closeConnection (p, printed)).1 ∧
      (clients.foldl closeConnection (p, printed)).1.closed = p.closed ++ clients ∧
      (clients.foldl closeConnection (p, printed)).2 =
        printed ++ clients.map fun _ => "Close simple_tcp_client connection" := by
  induction clients generalizing p printed with
  | nil => exact ⟨h, (List.append_nil _).symm, (List.append_nil _).symm⟩
  | cons fd clients ih =>
    have hmem : fd ∈ fd :: clients ++ rest := List.mem_cons_self ..
    have hclose := h.close hmem
    rw [List.cons_append, List.erase_cons_head] at hclose
    rw [List.foldl_cons, closeConnection, if_pos (h.mem hmem)]
    obtain ⟨hacc, hclosed, hprinted⟩ := ih (p.close fd)
      (printed ++ ["Close simple_tcp_client connection"]) hclose
    refine ⟨hacc, ?_, ?_⟩
    · rw [hclosed, Process.close, List.append_assoc]
      rfl
    · rw [hprinted, List.append_assoc]
      rfl

/-- How the server is left behind: nothing on the list, the inherited descriptors and no other, the
    clients closed in their order and then the listener, each opening closed once; and what is
    printed says of no client that it could not be closed. -/
structure Stopped (inherited opened : List ℤ) (s : SelectServer)
    (out : SelectServer × List String) : Prop where
  clients : out.1.clients = []
  openFds : out.1.openFds.Perm inherited
  closed : out.1.closed = s.closed ++ s.clients ++ [s.listenfd]
  once : out.1.closed.Perm opened
  printed : out.2 =
    (s.clients.map fun _ => "Close simple_tcp_client connection") ++ ["Stop multiplex_server"]

theorem Accounted.stop (h : s.Accounted inherited opened) (hstop : s.isRunning = false)
    (hrun : s.status = .running) : s.Stopped inherited opened s.stop := by
  have hall : Accounts inherited opened (s.clients ++ [s.listenfd]) s.toProcess := by
    have hperm : (s.listenfd :: s.clients).Perm (s.clients ++ [s.listenfd]) :=
      (List.perm_append_singleton s.listenfd s.clients).symm
    exact ⟨h.openFds.trans (hperm.append_right inherited), h.ledger.perm hperm⟩
  obtain ⟨hacc, hclosed, hprinted⟩ := foldl_closeConnection s.clients [s.listenfd] s.toProcess [] hall
  have hlisten := hacc.mem (List.mem_singleton.mpr rfl)
  have hlast := hacc.close (List.mem_singleton.mpr rfl)
  rw [List.erase_cons_head] at hlast
  rw [SelectServer.stop, if_pos ⟨hstop, hrun⟩]
  simp only [closeConnections, hlisten, if_true]
  refine ⟨rfl, hlast.openFds, ?_, hlast.ledger.settled, ?_⟩
  · simp only [Process.close, hclosed]
  · simp only [hprinted, List.nil_append]

/-- SAFETY: in every run that stays defined the listener and the listed clients are exactly what the
    server has opened and not closed, and a run that ends through a stop command closes them all. -/
theorem accounted_and_stopped (inherited : List ℤ) (rs : List SelectRound)
    (hdef : (rs.foldl SelectServer.next (start inherited)).defined = true) :
    let opened := lowestFree inherited :: (start inherited).opensAlong rs
    let s := rs.foldl SelectServer.next (start inherited)
    s.openFds.Perm (s.listenfd :: s.clients ++ inherited) ∧
      Ledger opened s.closed (s.listenfd :: s.clients) ∧
      (∀ fd, fd ∈ s.allset ↔ fd ∈ s.listenfd :: s.clients) ∧
      (s.isRunning = false → s.status = .running → s.Stopped inherited opened s.stop) := by
  intro opened s
  have h : s.Accounted inherited opened := accounted_run rs (start inherited)
    [lowestFree inherited] (start_kept inherited) (accounts_start inherited)
  have hbooked := (good_of_defined rs hdef).booked
  refine ⟨h.openFds, h.ledger, fun fd => ?_, fun hstop hrun => h.stop hstop hrun⟩
  rw [hbooked.allset fd, List.mem_cons]

/-- Every client that is read from says stop. -/
def sayStop : Outside :=
  { Outside.comeAndGo with read := fun _ => some ⟨stopCommand, stopCommand_length_le⟩ }

/-- A client connects, and stops the server. -/
def comeAndStop : List SelectRound :=
  [⟨.comeAndGo, some (· = 3), 0⟩, ⟨sayStop, some (· = 4), 0⟩]

theorem accounted_and_stopped_comeAndStop :
    (comeAndStop.foldl SelectServer.next (start [0, 1, 2])).Stopped [0, 1, 2] [3, 4]
      (comeAndStop.foldl SelectServer.next (start [0, 1, 2])).stop := by
  exact (accounted_and_stopped [0, 1, 2] comeAndStop (by decide)).2.2.2 (by decide) (by decide)

end SelectServer

/-! ### Both servers -/

theorem foldl_bothNext (rounds : List (SelectRound × PollRound)) (st : SelectServer × PollServer) :
    rounds.foldl bothNext st =
      ((rounds.map Prod.fst).foldl SelectServer.next st.1,
        (rounds.map Prod.snd).foldl PollServer.next st.2) := by
  induction rounds generalizing st with
  | nil => rfl
  | cons qr rounds ih =>
    rw [List.foldl_cons, ih]
    rfl

/-- Matching rounds keep the servers linked, and the select server in order. -/
theorem linked_of_matched {inherited : List ℤ} {revents : UInt16}
    {rounds : List (SelectRound × PollRound)} (hfits : lowestFree inherited < fdSetSize)
    (hmatched : Throughout bothNext Matched (.start inherited, .start inherited revents) rounds) :
    Linked (rounds.foldl bothNext (.start inherited, .start inherited revents)).1
      (rounds.foldl bothNext (.start inherited, .start inherited revents)).2 := by
  refine (Along.last rounds _ (along_of_step (P := fun st => Linked st.1 st.2 ∧ st.1.Good) ?_
    rounds _ ⟨Linked.start_linked inherited revents, SelectServer.start_good hfits⟩ hmatched)).1
  rintro st qr ⟨h, hgood⟩ hm
  refine ⟨h.next hgood hm, hgood.next ?_⟩
  by_contra hnot
  exact absurd hm.defined (by simp [SelectServer.undefined_of_not_safe hnot])

/-- Neither shutdown writes anything. -/
theorem SelectServer.stop_written (s : SelectServer) : s.stop.1.written = s.written := by
  have hfold : ∀ clients : List ℤ, ∀ out : Process × List String,
      (clients.foldl closeConnection out).1.written = out.1.written := fun clients out =>
    foldl_inv (P := fun o : Process × List String => o.1.written = out.1.written)
      (fun o fd ho => by rw [closeConnection]; split <;> exact ho) clients out rfl
  have hclose : ∀ (p : Process) (fd : ℤ),
      (if fd ∈ p.openFds then p.close fd else p).written = p.written := by
    intro p fd
    split <;> rfl
  rw [SelectServer.stop]
  split
  · exact (hclose _ s.listenfd).trans (hfold s.clients (s.toProcess, []))
  · rfl

theorem PollServer.stop_written (t : PollServer) : t.stop.written = t.written := by
  have hfold : (t.clients.foldl closeEntry t.toProcess).written = t.written :=
    foldl_inv (P := fun p : Process => p.written = t.written)
      (fun p entry hp => by rw [closeEntry]; split <;> first | exact hp | split <;> exact hp)
      t.clients t.toProcess rfl
  rw [PollServer.stop]
  split
  · exact hfold
  · rfl

/-- CORRECT: where matching rounds end through a stop command, the two servers leave the same behind:
    the same bytes written, the same descriptors closed, each opening once, and the inherited ones
    open. -/
theorem stop_alike (inherited : List ℤ) (revents : UInt16)
    (rounds : List (SelectRound × PollRound)) (hfits : lowestFree inherited < fdSetSize)
    (hmatched : Throughout bothNext Matched (.start inherited, .start inherited revents) rounds)
    (hstop : (rounds.foldl bothNext (.start inherited, .start inherited revents)).1.isRunning = false)
    (hrun : (rounds.foldl bothNext (.start inherited, .start inherited revents)).1.status = .running) :
    let s := (rounds.foldl bothNext (.start inherited, .start inherited revents)).1.stop.1
    let t := (rounds.foldl bothNext (.start inherited, .start inherited revents)).2.stop
    s.written = t.written ∧ s.closed.Perm t.closed ∧ s.openFds.Perm inherited ∧
      t.openFds.Perm inherited := by
  have hlinked := linked_of_matched hfits hmatched
  rw [foldl_bothNext] at hlinked hstop hrun ⊢
  obtain ⟨s, hs⟩ : ∃ s, s = (rounds.map Prod.fst).foldl SelectServer.next (.start inherited) :=
    ⟨_, rfl⟩
  obtain ⟨t, ht⟩ : ∃ t, t = (rounds.map Prod.snd).foldl PollServer.next (.start inherited revents) :=
    ⟨_, rfl⟩
  simp only [← hs, ← ht] at hlinked hstop hrun ⊢
  have hsacc : s.Accounted inherited _ := hs ▸ SelectServer.accounted_run _ _ _
    (SelectServer.start_kept inherited) (accounts_start inherited)
  have htacc : t.Accounted inherited _ := ht ▸ (PollServer.accounted_run _ _ _
    (PollServer.start_kept inherited revents) (accounts_start inherited)).2
  have hselect := hsacc.stop hstop hrun
  have hpoll := htacc.stop (hlinked.process ▸ hstop) (hlinked.process ▸ hrun)
  refine ⟨?_, ?_, hselect.openFds, hpoll.openFds⟩
  · rw [s.stop_written, t.stop_written, hlinked.process]
  · rw [hselect.closed, hpoll.closed, hlinked.process, hlinked.fds, ← hlinked.listenfd,
      List.append_assoc]
    exact (List.perm_append_singleton _ _).append_left _

/-- The same client comes to both servers, and stops them. -/
def comeAndStopBoth : List (SelectRound × PollRound) :=
  [(⟨.comeAndGo, some (· = 3), 0⟩, ⟨.comeAndGo, some fun i => if i = 0 then 64 else 0, 0⟩),
    (⟨SelectServer.sayStop, some (· = 4), 0⟩,
      ⟨SelectServer.sayStop, some fun i => if i = 1 then 64 else 0, 0⟩)]

theorem comeAndStopBoth_matched :
    Throughout bothNext Matched (.start [0, 1, 2], .start [0, 1, 2] 0) comeAndStopBoth := by
  refine ⟨?_, ?_, trivial⟩
  · refine ⟨rfl, rfl, rfl, rfl, ?_, by decide, ?_, by decide⟩
    · rintro readable revents ⟨⟩ ⟨⟩
      decide
    · rintro readable ⟨⟩ fd hfd
      exact absurd hfd List.not_mem_nil
  · refine ⟨rfl, rfl, rfl, rfl, ?_, by decide, ?_, by decide⟩
    · rintro readable revents ⟨⟩ ⟨⟩
      decide
    · rintro readable ⟨⟩ fd _ _ chunk ⟨⟩
      exact .inl (by decide)

theorem stop_alike_comeAndStopBoth :
    let s := (comeAndStopBoth.foldl bothNext (.start [0, 1, 2], .start [0, 1, 2] 0)).1.stop.1
    let t := (comeAndStopBoth.foldl bothNext (.start [0, 1, 2], .start [0, 1, 2] 0)).2.stop
    s.written = t.written ∧ s.closed.Perm t.closed ∧ s.openFds.Perm [0, 1, 2] ∧
      t.openFds.Perm [0, 1, 2] :=
  stop_alike [0, 1, 2] 0 comeAndStopBoth (by decide) comeAndStopBoth_matched (by decide) (by decide)

end UnixIpc.Servers
