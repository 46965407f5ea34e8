import UnixIpc.Lib.Run
import UnixIpc.Servers.PollServer
import UnixIpc.Servers.SelectServer

/-! Which requests a round handles. Both servers walk their client list by index while
    `handleRequest` erases from it, so a round handles the elements of a `walk`, with the client
    just accepted at the end of the list. A ready client is missed exactly when it stands right
    behind a ready client that disconnects, or when the process is gone before its turn. -/

namespace UnixIpc.Servers
open UnixIpc.Descriptors UnixIpc.IndexLoop UnixIpc.Run

/-! ### The select server -/

namespace SelectServer
variable {s : SelectServer} {r : SelectRound} {readset : Finset ℤ}

/-- One turn of the loop at a client that is ready. -/
theorem visit_ready {i : ℕ} {fd : ℤ} (hnodup : s.clients.Nodup) (hrun : s.status = .running)
    (hget : s.clients[i]? = some fd) (hready : fd ∈ readset) :
    (visit r readset i s).clients.Nodup ∧ (visit r readset i s).handled = s.handled ++ [fd] ∧
      decide ((visit r readset i s).status ≠ .running) = r.halts fd ∧
      (visit r readset i s).clients =
        if r.drops fd then s.clients.eraseIdx i else s.clients := by
  obtain ⟨hi, hfd⟩ := List.getElem?_eq_some_iff.mp hget
  have herase : s.clients.erase fd = s.clients.eraseIdx i := hfd ▸ hnodup.erase_getElem i hi
  obtain ⟨hh, _, hst, hc, _⟩ := handleRequest_spec (r := r) (List.mem_of_getElem? hget) hrun
  rw [visit_eq hget, if_pos hready, hh, hst, hc, herase]
  refine ⟨?_, rfl, rfl, rfl⟩
  split
  · exact hnodup.sublist (List.eraseIdx_sublist ..)
  · exact hnodup

/-- The loop over `clients` handles the clients of the walk. -/
theorem requests_handled (hnodup : s.clients.Nodup) (hrun : s.status = .running) :
    (s.requests r readset).handled =
      s.handled ++ walk (fun fd => decide (fd ∈ readset)) r.drops r.halts false s.clients := by
  have hwalk : (loop goesOn (visit r readset) s.clients.length 0 s).2.handled = s.handled ++
      (walk (fun fd => decide (fd ∈ readset)) r.drops r.halts false (s.clients.drop 0)).map id := by
    refine loop_walk (·.clients) (·.handled) id (fun s => decide (s.status ≠ .running))
      (·.clients.Nodup) (fun _ _ => goesOn_iff) ?_ ?_ s.clients.length 0 s hnodup
      (by simp [hrun]) (by simp)
    · intro i s fd _ _ hget hidle
      rw [visit_eq hget, if_neg (of_decide_eq_false hidle)]
    · intro i s fd hok hs hget hready
      obtain ⟨hok', hh, hst, hc⟩ :=
        visit_ready (r := r) hok (by simpa using hs) hget (of_decide_eq_true hready)
      exact ⟨hok', hh, hst, fun _ => hc⟩
  rw [List.drop_zero, List.map_id] at hwalk
  exact hwalk

/-- Every client in the list when the round begins that select reports is handled once. -/
def Served (s : SelectServer) (r : SelectRound) : Prop :=
  s.Looping → ∀ readable, r.readable = some readable →
    ∀ fd ∈ s.clients, fd ∈ s.readset readable → (s.next r).handled.count fd = 1

/-- No client is ready when accept fails, and none stands behind a ready one that takes its place
    or its turn away. -/
def Unskipped (s : SelectServer) (r : SelectRound) : Prop :=
  s.Looping → ∀ readable, r.readable = some readable →
    (s.listenfd ∈ s.readset readable → r.accepted = none →
      ∀ fd ∈ s.clients, fd ∉ s.readset readable) ∧
    Clear (fun fd => decide (fd ∈ s.readset readable)) r.drops r.halts s.clients

/-- The requests of a round, once select has returned. -/
theorem Kept.next_handled (h : s.Kept) {readable : ℤ → Bool} (hloop : s.Looping)
    (hr : r.readable = some readable) :
    (s.next r).handled =
      if s.listenfd ∈ s.readset readable then
        match r.accepted with
        | none => []
        | some wanted => walk (fun fd => decide (fd ∈ s.readset readable)) r.drops r.halts false
            (s.clients ++ [freeFd s.openFds wanted])
      else walk (fun fd => decide (fd ∈ s.readset readable)) r.drops r.halts false s.clients := by
  have h0 : ({ s with handled := [] } : SelectServer).Kept := h
  have hacc := h0.accept r
  rw [next_eq hloop hr]
  split
  · cases ha : r.accepted with
    | none => rw [accept_refused ha, requests_of_exited (by simp)]; rfl
    | some wanted =>
      obtain ⟨hp, _, hc⟩ := accept_spec (s := { s with handled := [] }) ha
      rw [requests_handled hacc.nodup (by rw [hp]; exact hloop.2), hc, hp]
      rfl
  · exact requests_handled h0.nodup hloop.2

theorem Kept.served_iff (h : s.Kept) (r : SelectRound) : s.Served r ↔ s.Unskipped r := by
  refine imp_congr_right fun hloop => forall₂_congr ?_
  intro readable hr
  rw [h.next_handled hloop hr]
  split
  case isTrue hl =>
    cases ha : r.accepted with
    | none =>
      simp only [List.count_nil, Nat.zero_ne_one, hl, true_implies]
      exact ⟨fun hall => ⟨hall, clear_of_idle fun fd hfd => decide_eq_false (hall fd hfd)⟩,
        fun hall => hall.1⟩
    | some wanted =>
      have hnodup : ((s.clients ++ [freeFd s.openFds wanted]).map id).Nodup := by
        rw [List.map_id]
        exact (Tracked.accept h wanted).nodup
      rw [← count_walk_concat_iff id hnodup]
      simp
  case isFalse hl =>
    have hnodup : (s.clients.map id).Nodup := by
      rw [List.map_id]
      exact h.nodup
    rw [← count_walk_iff id hnodup]
    simp [hl]

end SelectServer

/-! ### The poll server -/

namespace PollServer
variable {s : PollServer} {r : PollRound}

/-- poll reports the entry as readable, and nothing else. -/
def reported (client : PollFd) : Bool := client.revents = pollRdNorm

theorem reported_iff {client : PollFd} :
    reported client = true ↔ client.revents = pollRdNorm := decide_eq_true_iff

/-- One turn of the loop at an entry that is reported. -/
theorem visit_reported {i : ℕ} {client : PollFd} (hnodup : s.fds.Nodup) (hrun : s.status = .running)
    (hget : s.clients[i]? = some client) (hready : reported client = true) :
    (visit r i s).fds.Nodup ∧ (visit r i s).handled = s.handled ++ [client.fd] ∧
      decide ((visit r i s).status ≠ .running) = r.halts client.fd ∧
      (visit r i s).clients =
        if r.drops client.fd then s.clients.eraseIdx i else s.clients := by
  have hmem : client.fd ∈ s.fds := List.mem_map_of_mem (List.mem_of_getElem? hget)
  obtain ⟨hh, _, hst, hc, _⟩ := handleRequest_spec (r := r) hmem hrun
  rw [visit_eq hget, if_pos (reported_iff.mp hready), fds, hh, hst, hc,
    eraseP_key_eq_eraseIdx hnodup hget]
  refine ⟨?_, rfl, rfl, rfl⟩
  split
  · exact hnodup.sublist ((List.eraseIdx_sublist ..).map _)
  · exact hnodup

/-- The loop over `clients` handles the clients of the walk behind the listener. -/
theorem requests_handled (hnodup : s.fds.Nodup) (hrun : s.status = .running) :
    (s.requests r).handled = s.handled ++
      (walk reported (r.drops ·.fd) (r.halts ·.fd) false s.clients.tail).map (·.fd) := by
  rw [← List.drop_one]
  refine loop_walk (·.clients) (·.handled) (·.fd) (fun s => decide (s.status ≠ .running))
    (·.fds.Nodup) (fun _ _ => goesOn_iff) ?_ ?_ (s.clients.length - 1) 1 s hnodup (by simp [hrun])
    (by omega)
  · intro i s client _ _ hget hidle
    rw [visit_eq hget, if_neg (of_decide_eq_false hidle)]
  · intro i s client hok hs hget hready
    obtain ⟨hok', hh, hst, hc⟩ := visit_reported (r := r) hok (by simpa using hs) hget hready
    exact ⟨hok', hh, hst, fun _ => hc⟩

/-- Every client in the list when the round begins that poll reports is handled once. -/
def Served (s : PollServer) (r : PollRound) : Prop :=
  s.Looping → ∀ revents, r.revents = some revents →
    ∀ client ∈ (report s.clients revents).tail, client.revents = pollRdNorm →
      (s.next r).handled.count client.fd = 1

/-- No client is reported when accept fails, and none stands behind a reported one that takes its
    place or its turn away. -/
def Unskipped (s : PollServer) (r : PollRound) : Prop :=
  s.Looping → ∀ revents, r.revents = some revents →
    (revents 0 = pollRdNorm → r.accepted = none →
      ∀ client ∈ (report s.clients revents).tail, client.revents ≠ pollRdNorm) ∧
    Clear reported (r.drops ·.fd) (r.halts ·.fd) (report s.clients revents).tail

/-- The state in which poll returns. -/
def polled (s : PollServer) (revents : ℕ → UInt16) : PollServer :=
  { s with handled := [], clients := report s.clients revents }

theorem Kept.polled (h : s.Kept) (revents : ℕ → UInt16) : (s.polled revents).Kept :=
  Kept.report (s := { s with handled := [] }) h revents

/-- What a round does once poll has returned. -/
theorem Kept.next_eq (h : s.Kept) {revents : ℕ → UInt16} (hloop : s.Looping)
    (hr : r.revents = some revents) :
    s.next r =
      if revents 0 = pollRdNorm then
        if ((s.polled revents).accept r).status = .running ∧ (s.polled revents).nready < 2
        then (s.polled revents).accept r
        else ((s.polled revents).accept r).requests r
      else (s.polled revents).requests r := by
  obtain ⟨rest, hfds, -⟩ := h
  obtain ⟨listener, clients, hclients, -, -⟩ := List.map_eq_cons_iff.mp hfds
  have hhead : (Descriptors.report s.clients revents)[0]? =
      some { listener with revents := revents 0 } := by
    rw [hclients, report_cons]
    rfl
  rw [PollServer.next, if_pos hloop, PollServer.round, hr]
  simp only [hhead]
  rfl

/-- With the listener reported and fewer than two entries ready, no client is reported. -/
theorem idle_of_nready {revents : ℕ → UInt16} (hl : revents 0 = pollRdNorm)
    (hn : (s.polled revents).nready < 2) :
    ∀ client ∈ (report s.clients revents).tail, reported client = false := by
  change List.countP (·.revents ≠ 0) (report s.clients revents) < 2 at hn
  intro client hclient
  cases hc : s.clients with
  | nil => rw [hc] at hclient; exact absurd hclient List.not_mem_nil
  | cons listener clients =>
    rw [hc, report_cons, List.tail_cons] at hclient
    rw [hc, report_cons, List.countP_cons_of_pos (by simp [hl, pollRdNorm])] at hn
    have hnone := Nat.lt_one_iff.mp (Nat.lt_of_succ_lt_succ hn)
    have hzero := List.countP_eq_zero.mp hnone client hclient
    have hidle : client.revents = 0 := by simpa using hzero
    simp [reported, hidle, pollRdNorm]

theorem Kept.served_iff (h : s.Kept) (r : PollRound) : s.Served r ↔ s.Unskipped r := by
  refine imp_congr_right fun hloop => forall₂_congr ?_
  intro revents hr
  have hnodup := (h.polled revents).nodup
  simp only [← reported_iff, ne_eq, Bool.not_eq_true]
  rw [h.next_eq hloop hr]
  split
  case isTrue hl =>
    cases ha : r.accepted with
    | none =>
      have hempty : (s.polled revents).toProcess.exit.handled = [] := rfl
      rw [accept_refused ha, if_neg (by simp), requests_of_exited (by simp)]
      simp only [hempty, List.count_nil, Nat.zero_ne_one, hl, true_implies, imp_false,
        Bool.not_eq_true]
      exact ⟨fun hall => ⟨hall, clear_of_idle hall⟩, And.left⟩
    | some wanted =>
      have hacc := ((h.polled revents).accept r).nodup
      rw [accept_taken ha] at hacc ⊢
      split
      case isTrue hn =>
        have hidle := idle_of_nready hl hn.2
        refine ⟨fun _ => ⟨by simp, clear_of_idle hidle⟩, ?_⟩
        intro _ client hmem hrep
        exact absurd hrep (by simp [hidle client hmem])
      case isFalse hn =>
        rw [requests_handled hacc hloop.2]
        have htail := List.Nodup.sublist (List.tail_sublist _) hacc
        rw [fds, ← List.map_tail] at htail
        dsimp only at htail ⊢
        rw [List.tail_append_of_ne_nil (h.polled revents).ne_nil] at htail ⊢
        simp only [reduceCtorEq, false_implies, implies_true, true_and]
        exact count_walk_concat_iff PollFd.fd htail
  case isFalse hl =>
    have htail : ((s.polled revents).clients.tail.map PollFd.fd).Nodup := by
      rw [List.map_tail]
      exact hnodup.sublist (List.tail_sublist _)
    rw [requests_handled hnodup hloop.2]
    simp only [hl, false_implies, true_and]
    exact count_walk_iff PollFd.fd htail

end PollServer

/-! ### Every round of every run -/

/-- CORRECT: whatever rounds came before, a round handles every client that was in the list and is
    reported ready exactly once just when no ready client is skipped. -/
theorem served_iff_unskipped (inherited : List ℤ) (revents : UInt16) (rs : List SelectRound)
    (r : SelectRound) (qs : List PollRound) (q : PollRound) :
    ((rs.foldl SelectServer.next (.start inherited)).Served r ↔
      (rs.foldl SelectServer.next (.start inherited)).Unskipped r) ∧
    ((qs.foldl PollServer.next (.start inherited revents)).Served q ↔
      (qs.foldl PollServer.next (.start inherited revents)).Unskipped q) := by
  have hs : (rs.foldl SelectServer.next (.start inherited)).Kept :=
    foldl_inv (fun _ r h => h.next r) rs _ (SelectServer.start_kept inherited)
  have ht : (qs.foldl PollServer.next (.start inherited revents)).Kept :=
    foldl_inv (fun _ q h => h.next q) qs _ (PollServer.start_kept inherited revents)
  exact ⟨hs.served_iff r, ht.served_iff q⟩

/-- Two clients connect and then leave in the same round: the second is not handled, by neither
    server. -/
theorem neighbour_skipped :
    ¬ SelectServer.Served
      ([⟨.comeAndGo, some (· = 3), 0⟩, ⟨.comeAndGo, some (· = 3), 0⟩].foldl SelectServer.next
        (.start [0, 1, 2]))
      ⟨.comeAndGo, some (fun fd => decide (fd ≠ 3)), 0⟩ ∧
    ¬ PollServer.Served
      ([⟨.comeAndGo, some fun i => if i = 0 then 64 else 0, 0⟩,
        ⟨.comeAndGo, some fun i => if i = 0 then 64 else 0, 0⟩].foldl PollServer.next
        (.start [0, 1, 2] 0))
      ⟨.comeAndGo, some fun i => if i = 0 then 0 else 64, 0⟩ := by
  constructor
  · intro hserved
    have hcount := hserved (by decide) _ rfl 5 (by decide) (by decide)
    exact absurd hcount (by decide)
  · intro hserved
    have hcount := hserved (by decide) _ rfl ⟨5, 64, 64⟩ (by decide) rfl
    exact absurd hcount (by decide)

end UnixIpc.Servers
