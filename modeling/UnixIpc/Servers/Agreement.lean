import UnixIpc.Servers.Bookkeeping
import UnixIpc.Servers.Rounds

/-! The select server and the poll server do the same. Fed with the same connections, reads and
    writes, and with poll reporting what select would, the two stay linked: one process, and one
    list of clients, at an index that differs by one because poll keeps the listener at the front.

        select:              clients[0]  clients[1] …      readset = allset as it was
        poll:    listener    clients[1]  clients[2] …      revents beside each entry

    Both loops pass over the client behind one that leaves, so they stay linked even there. -/

namespace UnixIpc.Servers
open UnixIpc.Descriptors UnixIpc.IndexLoop UnixIpc.Run

/-- The two servers side by side, a round of each at a time. -/
def bothNext (st : SelectServer × PollServer) (qr : SelectRound × PollRound) :
    SelectServer × PollServer :=
  (st.1.next qr.1, st.2.next qr.2)

/-- What can be seen of the two servers is the same: the clients in their order, the bytes written
    to each, the clients closed, and `isRunning`. -/
structure Agree (st : SelectServer × PollServer) : Prop where
  clients : st.1.clients = st.2.clients.tail.map (·.fd)
  written : st.1.written = st.2.written
  closed : st.1.closed = st.2.closed
  isRunning : st.1.isRunning = st.2.isRunning

/-- The two rounds are one and the same: poll reports an entry as `POLLRDNORM`, and as nothing else,
    where it is readable, a new entry does not look reported, no ready client fills the buffer
    without a terminator, and the select server stays within what is defined. -/
structure Matched (st : SelectServer × PollServer) (qr : SelectRound × PollRound) : Prop where
  accepted : qr.1.accepted = qr.2.accepted
  read : qr.1.read = qr.2.read
  writes : qr.1.writes = qr.2.writes
  polled : qr.1.readable.isSome = qr.2.revents.isSome
  ready : ∀ readable revents, qr.1.readable = some readable → qr.2.revents = some revents →
    ∀ entry ∈ report st.2.clients revents, entry.revents = pollRdNorm ↔ readable entry.fd = true
  fresh : qr.2.fresh ≠ pollRdNorm
  terminated : ∀ readable, qr.1.readable = some readable →
    ∀ fd ∈ st.1.clients, readable fd = true → Terminated (qr.1.read fd)
  defined : (st.1.next qr.1).defined = true

/-- The simulation: one process, and the poll server's list is the select server's behind the
    listener. -/
structure Linked (s : SelectServer) (t : PollServer) : Prop where
  process : s.toProcess = t.toProcess
  listenfd : s.listenfd = t.listenfd
  fds : t.fds = t.listenfd :: s.clients

namespace Linked
variable {s : SelectServer} {t : PollServer} {q : SelectRound} {r : PollRound}

theorem start_linked (inherited : List ℤ) (revents : UInt16) :
    Linked (.start inherited) (.start inherited revents) := ⟨rfl, rfl, rfl⟩

theorem agree (h : Linked s t) : Agree (s, t) where
  clients := by
    rw [List.map_tail]
    exact (congrArg List.tail h.fds).symm
  written := congrArg Process.written h.process
  closed := congrArg Process.closed h.process
  isRunning := congrArg Process.isRunning h.process

theorem kept (h : Linked s t) (hs : s.Kept) : t.Kept := by
  refine ⟨s.clients, h.fds, ?_⟩
  rw [← h.listenfd, ← h.process]
  exact hs

theorem length (h : Linked s t) : t.clients.length = s.clients.length + 1 := by
  rw [← List.length_map (f := (·.fd)), show t.clients.map (·.fd) = _ from h.fds, List.length_cons]

/-- A request is answered the same way where the read ends in the buffer. -/
theorem handleRequest (h : Linked s t) (hs : s.Kept) {fd : ℤ} (hmem : fd ∈ s.clients)
    (hread : q.read fd = r.read fd) (hwrites : q.writes fd = r.writes fd)
    (hterm : Terminated (q.read fd)) : Linked (s.handleRequest q fd) (t.handleRequest r fd) := by
  have hreply : q.reply fd = r.reply fd := by
    rw [Outside.reply, Outside.reply, ← hread, reply_of_terminated hterm (q.stack fd),
      reply_of_terminated hterm (r.stack fd)]
  have hdrops : q.drops fd = r.drops fd := by rw [Outside.drops, Outside.drops, hreply]
  have hmem' : fd ∈ t.fds := h.fds ▸ List.mem_cons_of_mem _ hmem
  cases hd : q.drops fd with
  | true =>
    rw [SelectServer.handleRequest_drops hd hmem,
      PollServer.handleRequest_drops (hdrops ▸ hd) hmem']
    have hlt : t.listenfd < fd := h.listenfd ▸ (hs.client fd hmem).2
    refine ⟨?_, ?_, ?_⟩
    · rw [SelectServer.updateMaxfd_toProcess, h.process]
    · rw [SelectServer.updateMaxfd_listenfd, h.listenfd]
    · rw [SelectServer.updateMaxfd_clients]
      exact PollServer.map_fd_eraseP h.fds hlt
  | false =>
    rw [SelectServer.handleRequest_stays hd, PollServer.handleRequest_stays (hdrops ▸ hd)]
    refine ⟨?_, h.listenfd, h.fds⟩
    rw [hreply, hwrites, h.process]

theorem accept (h : Linked s t) (ha : q.accepted = r.accepted) :
    Linked (s.accept q) (t.accept r) := by
  cases hr : r.accepted with
  | none =>
    rw [SelectServer.accept_refused (ha.trans hr), PollServer.accept_refused hr, h.process]
    exact ⟨rfl, h.listenfd, h.fds⟩
  | some wanted =>
    obtain ⟨hp, hl, hc⟩ := SelectServer.accept_spec (s := s) (ha.trans hr)
    rw [PollServer.accept_taken hr]
    refine ⟨?_, hl.trans h.listenfd, ?_⟩
    · rw [hp, h.process]
    · rw [hc, h.process, PollServer.fds, List.map_append, ← List.cons_append, ← h.fds]
      rfl

theorem getElem?_succ (h : Linked s t) {i : ℕ} {fd : ℤ} (hget : s.clients[i]? = some fd) :
    ∃ entry, t.clients[i + 1]? = some entry ∧ entry.fd = fd := by
  have hfds : (t.clients.map (·.fd))[i + 1]? = some fd := by
    rw [show t.clients.map (·.fd) = _ from h.fds, List.getElem?_cons_succ, hget]
  rwa [List.getElem?_map, Option.map_eq_some_iff] at hfds

theorem goesOn_eq (h : Linked s t) (i : ℕ) : s.goesOn i = t.goesOn (i + 1) := by
  rw [SelectServer.goesOn, PollServer.goesOn, h.process, h.length]
  simp

end Linked

/-! ### The loops over the clients -/

/-- The two loops, an index apart: linked, with the same clients ready. -/
structure InStep (q : SelectRound) (readset : Finset ℤ) (i j : ℕ) (s : SelectServer)
    (t : PollServer) : Prop where
  index : j = i + 1
  linked : Linked s t
  kept : s.Kept
  terminated : ∀ fd ∈ s.clients, fd ∈ readset → Terminated (q.read fd)
  ready : ∀ entry ∈ t.clients.tail, entry.revents = pollRdNorm ↔ entry.fd ∈ readset

section
variable {s : SelectServer} {t : PollServer} {q : SelectRound} {r : PollRound} {readset : Finset ℤ}

/-- STEP: one turn of each loop. -/
theorem InStep.visit (hread : q.read = r.read) (hwrites : q.writes = r.writes) {i j : ℕ}
    (h : InStep q readset i j s t) (hgo : s.goesOn i = true) :
    InStep q readset (i + 1) (j + 1) (s.visit q readset i) (t.visit r j) := by
  obtain ⟨rfl, hlinked, hkept, hterm, hready⟩ := h
  obtain ⟨hrun, hi⟩ := SelectServer.goesOn_iff.mp hgo
  have hstatus : s.status = .running := by simpa using hrun
  have hget : s.clients[i]? = some s.clients[i] := List.getElem?_eq_getElem hi
  have hmem : s.clients[i] ∈ s.clients := List.getElem_mem hi
  obtain ⟨entry, hentry, hfd⟩ := hlinked.getElem?_succ hget
  have htail : entry ∈ t.clients.tail :=
    List.mem_of_getElem? (by rw [List.getElem?_tail, hentry])
  rw [SelectServer.visit_eq hget, PollServer.visit_eq hentry, hfd]
  rcases em (entry.revents = pollRdNorm) with hrep | hrep
  · have hin : s.clients[i] ∈ readset := hfd ▸ (hready entry htail).mp hrep
    have hmem' : s.clients[i] ∈ t.fds := hlinked.fds ▸ List.mem_cons_of_mem _ hmem
    rw [if_pos hin, if_pos hrep]
    refine ⟨rfl, ?_, hkept.handleRequest hmem hstatus, ?_, ?_⟩
    · exact hlinked.handleRequest hkept hmem (congrFun hread _) (congrFun hwrites _)
        (hterm _ hmem hin)
    · intro fd hfd
      exact hterm fd (SelectServer.handleRequest_subset hmem hstatus hfd)
    · intro entry' hentry'
      exact hready entry'
        (PollServer.handleRequest_subset hmem' (hlinked.process ▸ hstatus) hentry')
  · have hout : s.clients[i] ∉ readset := fun hin => hrep ((hready entry htail).mpr (hfd ▸ hin))
    rw [if_neg hout, if_neg hrep]
    exact ⟨rfl, hlinked, hkept, hterm, hready⟩

/-- The loops over the clients, an index apart. -/
theorem Linked.requests (h : Linked s t) (hs : s.Kept)
    (hready : ∀ entry ∈ t.clients.tail, entry.revents = pollRdNorm ↔ entry.fd ∈ readset)
    (hread : q.read = r.read) (hwrites : q.writes = r.writes)
    (hterm : ∀ fd ∈ s.clients, fd ∈ readset → Terminated (q.read fd)) :
    Linked (s.requests q readset) (t.requests r) := by
  rw [SelectServer.requests, PollServer.requests, h.length, Nat.add_sub_cancel]
  refine (loop_related (InStep q readset) (fun i j s t h => ?_) (fun i j s t h hgo => ?_)
    s.clients.length 0 1 s t ⟨rfl, h, hs, hterm, hready⟩).linked
  · rw [h.index]
    exact h.linked.goesOn_eq i
  · exact h.visit hread hwrites hgo

/-! ### Rounds -/

theorem Linked.polled (h : Linked s t) (revents : ℕ → UInt16) :
    Linked { s with handled := [] } (t.polled revents) where
  process := by rw [h.process]; rfl
  listenfd := h.listenfd
  fds := (report_fd t.clients revents).trans h.fds

/-- The client entries that poll reports are the clients that select finds ready. -/
theorem Matched.ready_iff (hm : Matched (s, t) (q, r)) (h : Linked s t) (hg : s.Good)
    {readable : ℤ → Bool} {revents : ℕ → UInt16} (hq : q.readable = some readable)
    (hr : r.revents = some revents) {entry : PollFd} (hmem : entry ∈ (t.polled revents).clients) :
    entry.revents = pollRdNorm ↔ entry.fd ∈ s.readset readable := by
  have hfd : entry.fd ∈ t.listenfd :: s.clients :=
    (h.polled revents).fds ▸ List.mem_map_of_mem hmem
  rw [hm.ready readable revents hq hr entry hmem, hg.booked.mem_readset]
  rw [hg.booked.allset, h.listenfd]
  exact List.mem_cons.mp hfd

/-- The listener is ready for both or for none. -/
theorem Matched.listener_iff (hm : Matched (s, t) (q, r)) (h : Linked s t) (hg : s.Good)
    {readable : ℤ → Bool} {revents : ℕ → UInt16} (hq : q.readable = some readable)
    (hr : r.revents = some revents) :
    revents 0 = pollRdNorm ↔ s.listenfd ∈ s.readset readable := by
  obtain ⟨listener, clients, hclients, hfd, -⟩ := List.map_eq_cons_iff.mp h.fds
  have hmem : { listener with revents := revents 0 } ∈ (t.polled revents).clients := by
    rw [PollServer.polled, hclients, report_cons]
    exact List.mem_cons_self ..
  rw [h.listenfd, ← hfd]
  exact hm.ready_iff h hg hq hr hmem

/-- After an accept the ready clients are those from before. -/
theorem accept_ready (hg : s.Good) {readable : ℤ → Bool} {fd : ℤ}
    (hmem : fd ∈ (({ s with handled := [] } : SelectServer).accept q).clients)
    (hready : fd ∈ s.readset readable) : fd ∈ s.clients := by
  cases ha : q.accepted with
  | none =>
    rw [SelectServer.accept_refused ha] at hmem
    exact hmem
  | some wanted =>
    rw [(SelectServer.accept_spec ha).2.2] at hmem
    rcases List.mem_append.mp hmem with hmem | hnew
    · exact hmem
    · rw [List.mem_singleton.mp hnew] at hready
      exact absurd hready (hg.new_not_ready wanted readable)

/-- After an accept poll's entries still look as select's set does. -/
theorem Matched.accept_iff (hm : Matched (s, t) (q, r)) (h : Linked s t) (hg : s.Good)
    {readable : ℤ → Bool} {revents : ℕ → UInt16} (hq : q.readable = some readable)
    (hr : r.revents = some revents) {entry : PollFd}
    (hmem : entry ∈ ((t.polled revents).accept r).clients.tail) :
    entry.revents = pollRdNorm ↔ entry.fd ∈ s.readset readable := by
  cases ha : r.accepted with
  | none =>
    rw [PollServer.accept_refused ha] at hmem
    exact hm.ready_iff h hg hq hr (List.mem_of_mem_tail hmem)
  | some wanted =>
    rw [PollServer.accept_taken ha] at hmem
    rcases List.mem_append.mp (List.mem_of_mem_tail hmem) with hmem | hnew
    · exact hm.ready_iff h hg hq hr hmem
    · rw [List.mem_singleton.mp hnew]
      refine iff_of_false hm.fresh ?_
      have hopen : (t.polled revents).openFds = s.openFds := (congrArg Process.openFds h.process).symm
      rw [hopen]
      exact hg.new_not_ready wanted readable

theorem Matched.terminated_ready (hm : Matched (s, t) (q, r)) {readable : ℤ → Bool}
    (hq : q.readable = some readable) :
    ∀ fd ∈ s.clients, fd ∈ s.readset readable → Terminated (q.read fd) :=
  fun fd hmem hready => hm.terminated readable hq fd hmem (Finset.mem_filter.mp hready).2.2

/-- A round that accepts: poll may go back to polling at once, but only where select finds no client
    ready. -/
theorem Linked.acceptRound (h : Linked s t) (hg : s.Good) (hm : Matched (s, t) (q, r))
    {readable : ℤ → Bool} {revents : ℕ → UInt16} (hq : q.readable = some readable)
    (hr : r.revents = some revents) (hl : revents 0 = pollRdNorm) :
    Linked
      ((({ s with handled := [] } : SelectServer).accept q).requests q (s.readset readable))
      (if ((t.polled revents).accept r).status = .running ∧ (t.polled revents).nready < 2
        then (t.polled revents).accept r
        else ((t.polled revents).accept r).requests r) := by
  have h0 := h.polled revents
  have hkept : ({ s with handled := [] } : SelectServer).Kept := hg.kept
  have hacc := h0.accept (q := q) hm.accepted
  split
  case isTrue hn =>
    rw [SelectServer.requests_of_idle]
    · exact hacc
    · intro fd hmem hready
      have hold : fd ∈ (t.polled revents).clients.tail.map (·.fd) :=
        h0.agree.clients ▸ accept_ready hg hmem hready
      obtain ⟨entry, hentry, rfl⟩ := List.mem_map.mp hold
      have hidle := PollServer.idle_of_nready hl hn.2 entry hentry
      have hrep := (hm.ready_iff h hg hq hr (List.mem_of_mem_tail hentry)).mpr hready
      exact absurd (PollServer.reported_iff.mpr hrep) (by simp [hidle])
  case isFalse hn =>
    refine hacc.requests (hkept.accept q) (fun entry hmem => ?_) hm.read hm.writes
      fun fd hmem hready => ?_
    · exact hm.accept_iff h hg hq hr hmem
    · exact hm.terminated_ready hq fd (accept_ready hg hmem hready) hready

/-- STEP: matching rounds keep the servers linked. -/
theorem Linked.next (h : Linked s t) (hg : s.Good) (hm : Matched (s, t) (q, r)) :
    Linked (s.next q) (t.next r) := by
  have hloop : s.Looping ↔ t.Looping := by rw [h.process]
  have hpolled : q.readable.isSome = r.revents.isSome := hm.polled
  rcases em s.Looping with hs | hs
  · cases hq : q.readable with
    | none =>
      have hr : r.revents = none := by
        rw [← Option.not_isSome_iff_eq_none, ← hpolled, hq]
        simp
      rw [SelectServer.next, if_pos hs, SelectServer.round, hq, PollServer.next,
        if_pos (hloop.mp hs), PollServer.round, hr]
      exact ⟨by simp only [h.process], h.listenfd, h.fds⟩
    | some readable =>
      obtain ⟨revents, hr⟩ : ∃ revents, r.revents = some revents := by
        rw [← Option.isSome_iff_exists, ← hpolled, hq]
        rfl
      have hlisten := hm.listener_iff h hg hq hr
      rw [SelectServer.next_eq hs hq, (h.kept hg.kept).next_eq (hloop.mp hs) hr]
      rcases em (revents 0 = pollRdNorm) with hl | hl
      · rw [if_pos hl, if_pos (hlisten.mp hl)]
        exact h.acceptRound hg hm hq hr hl
      · rw [if_neg hl, if_neg fun hin => hl (hlisten.mpr hin)]
        refine (h.polled revents).requests hg.kept (fun entry hmem => ?_) hm.read hm.writes
          (hm.terminated_ready hq)
        exact hm.ready_iff h hg hq hr (List.mem_of_mem_tail hmem)
  · rw [SelectServer.next, if_neg hs, PollServer.next, if_neg (fun ht => hs (hloop.mpr ht))]
    exact h

end

/-! ### Runs -/

/-- CORRECT: along every run of matching rounds the two servers agree. -/
theorem agree_along (inherited : List ℤ) (revents : UInt16)
    (rounds : List (SelectRound × PollRound)) (hfits : lowestFree inherited < fdSetSize)
    (hmatched : Throughout bothNext Matched (.start inherited, .start inherited revents) rounds) :
    Along bothNext Agree (.start inherited, .start inherited revents) rounds := by
  have hinv : Along bothNext (fun st => Linked st.1 st.2 ∧ st.1.Good)
      (.start inherited, .start inherited revents) rounds := by
    refine along_of_step (fun st qr ⟨h, hg⟩ hm => ?_) rounds _
      ⟨Linked.start_linked inherited revents, SelectServer.start_good hfits⟩ hmatched
    refine ⟨h.next hg hm, hg.next ?_⟩
    by_contra hnot
    have hdef := hm.defined
    rw [SelectServer.undefined_of_not_safe hnot] at hdef
    exact absurd hdef (by simp)
  exact hinv.mono fun st h => h.1.agree

/-- Descriptor 4 sends `data`, any other client the stop command. -/
def heard (data : Chunk) : Outside where
  accepted := some 0
  read fd := some (if fd = 4 then data else ⟨stopCommand, by decide⟩)
  writes _ := true
  stack _ := []

/-- Two clients connect, the first one sending a byte meanwhile and leaving next, which hides the
    second one's stop command for a round. -/
def leaveThenStop : List (SelectRound × PollRound) :=
  [(⟨heard ⟨[97], by decide⟩, some (· = 3), 0⟩,
      ⟨heard ⟨[97], by decide⟩, some fun i => if i = 0 then 64 else 0, 0⟩),
    (⟨heard ⟨[97], by decide⟩, some fun _ => true, 0⟩,
      ⟨heard ⟨[97], by decide⟩, some fun _ => 64, 0⟩),
    (⟨heard ⟨[], by decide⟩, some (· ≠ 3), 0⟩,
      ⟨heard ⟨[], by decide⟩, some fun i => if i = 0 then 0 else 64, 0⟩),
    (⟨heard ⟨[], by decide⟩, some (· ≠ 3), 0⟩,
      ⟨heard ⟨[], by decide⟩, some fun i => if i = 0 then 0 else 64, 0⟩)]

theorem heard_terminated {data : Chunk} (h : data.1.length < 1024) (fd : ℤ) :
    Terminated ((heard data).read fd) := by
  intro c hc
  obtain rfl := Option.some.inj hc
  left
  split
  · exact h
  · decide

theorem agree_along_leaveThenStop :
    Along bothNext Agree (.start [0, 1, 2], .start [0, 1, 2] 0) leaveThenStop := by
  refine agree_along [0, 1, 2] 0 leaveThenStop (by decide) ⟨?_, ?_, ?_, ?_, trivial⟩
  all_goals
    refine ⟨rfl, rfl, rfl, rfl, ?_, by decide, ?_, by decide⟩
    · rintro readable revents ⟨⟩ ⟨⟩
      decide
    · intro _ _ fd _ _
      exact heard_terminated (by decide) fd

end UnixIpc.Servers
