import UnixIpc.Servers.Rounds

/-! Does the poll server read only where poll has reported something? `handleRequest` reads a blocking
    descriptor, so a read without a report stops the server until that one client speaks.

    The new `clientPollfd` gets its `fd` and its `events`, and its `revents` stays what the stack held.
    As long as nobody else is ready that does no harm, since the round ends right after the push;
    otherwise the loop comes to the new entry and looks at it:

        accept ──▶ push_back ⟨connfd, POLLRDNORM, ?⟩ ──nready < 2──▶ poll
                                                     └─ else ──▶ … ? == POLLRDNORM ──▶ read -/

namespace UnixIpc.Servers
open UnixIpc.Descriptors UnixIpc.IndexLoop UnixIpc.Run

namespace PollServer
variable {s : PollServer} {r : PollRound}

/-- `handleRequest` is called only for what the poll of this round reported. -/
def OnlyReported (s : PollServer) (r : PollRound) : Prop :=
  s.Looping → ∀ fd ∈ (s.next r).handled, ∃ revents, r.revents = some revents ∧
    ∃ client ∈ report s.clients revents, client.fd = fd ∧ client.revents = pollRdNorm

/-- Where the loop comes to the entry of a new client, that entry does not happen to hold
    `POLLRDNORM`. It comes there when two entries or more are ready, no request ends the process,
    and the client in front is not taken off the list. -/
def Settled (s : PollServer) (r : PollRound) : Prop :=
  s.Looping → ∀ revents, r.revents = some revents → revents 0 = pollRdNorm → r.accepted ≠ none →
    2 ≤ (s.polled revents).nready →
    passes reported (r.drops ·.fd) (r.halts ·.fd) false (report s.clients revents).tail = true →
      r.fresh ≠ pollRdNorm

/-- A new descriptor is not in the list. -/
theorem Kept.free_not_mem (h : s.Kept) (wanted : ℤ) : freeFd s.openFds wanted ∉ s.fds := by
  obtain ⟨rest, hfds, htracked⟩ := h
  have hnew := freeFd_not_mem s.openFds wanted
  rw [hfds, List.mem_cons, not_or]
  exact ⟨fun heq => hnew (heq ▸ htracked.listen), fun hmem => hnew (htracked.client _ hmem).1⟩

/-- What the loop handles among the entries that poll has filled in, poll has reported. -/
theorem reported_of_walk {entries : List PollFd} {fd : ℤ}
    (h : fd ∈ (walk reported (r.drops ·.fd) (r.halts ·.fd) false entries.tail).map (·.fd)) :
    ∃ client ∈ entries, client.fd = fd ∧ client.revents = pollRdNorm := by
  obtain ⟨client, hclient, rfl⟩ := List.mem_map.mp h
  obtain ⟨hmem, hready⟩ := List.mem_filter.mp ((walk_sublist_filter false _).subset hclient)
  exact ⟨client, List.mem_of_mem_tail hmem, rfl, reported_iff.mp hready⟩

/-- With a client accepted and somebody else ready, the loop handles the walk over the old clients,
    and the new one where it gets there. -/
theorem Kept.handled_accepted (h : s.Kept) {revents : ℕ → UInt16} (hloop : s.Looping)
    (hr : r.revents = some revents) (hl : revents 0 = pollRdNorm) {wanted : ℤ}
    (ha : r.accepted = some wanted) (hn : 2 ≤ (s.polled revents).nready) :
    (s.next r).handled =
      (walk reported (r.drops ·.fd) (r.halts ·.fd) false (s.polled revents).clients.tail).map (·.fd)
        ++ if passes reported (r.drops ·.fd) (r.halts ·.fd) false (s.polled revents).clients.tail &&
              decide (r.fresh = pollRdNorm)
            then [freeFd s.openFds wanted] else [] := by
  have hacc := ((h.polled revents).accept r).nodup
  rw [h.next_eq hloop hr, if_pos hl, if_neg fun hq => absurd hq.2 (not_lt.mpr hn)]
  rw [accept_taken ha] at hacc ⊢
  rw [requests_handled hacc hloop.2]
  dsimp only
  rw [List.tail_append_of_ne_nil (h.polled revents).ne_nil, walk_concat, List.map_append]
  change [] ++ _ = _
  rw [List.nil_append]
  congr 1
  rw [apply_ite (List.map _)]
  rfl

/-- Where no client is accepted, or nobody else is ready, only what was reported is handled. -/
theorem Kept.handled_reported (h : s.Kept) {revents : ℕ → UInt16} (hloop : s.Looping)
    (hr : r.revents = some revents)
    (hquiet : revents 0 = pollRdNorm → r.accepted ≠ none → (s.polled revents).nready < 2) :
    ∀ fd ∈ (s.next r).handled,
      ∃ client ∈ Descriptors.report s.clients revents,
        client.fd = fd ∧ client.revents = pollRdNorm := by
  intro fd hfd
  by_cases hl : revents 0 = pollRdNorm
  · cases ha : r.accepted with
    | none =>
      rw [h.next_eq hloop hr, if_pos hl, accept_refused ha, if_neg (by simp),
        requests_of_exited (by simp)] at hfd
      exact absurd hfd List.not_mem_nil
    | some wanted =>
      have hquick : ((s.polled revents).accept r).status = .running ∧
          (s.polled revents).nready < 2 := by
        rw [accept_taken ha]
        exact ⟨hloop.2, hquiet hl (by simp [ha])⟩
      rw [h.next_eq hloop hr, if_pos hl, if_pos hquick, accept_taken ha] at hfd
      exact absurd hfd List.not_mem_nil
  · rw [h.next_eq hloop hr, if_neg hl, requests_handled (h.polled revents).nodup hloop.2] at hfd
    exact reported_of_walk hfd

/-- Otherwise it depends on the new entry, if the loop comes to it. -/
theorem Kept.handled_reported_iff (h : s.Kept) {revents : ℕ → UInt16} (hloop : s.Looping)
    (hr : r.revents = some revents) (hl : revents 0 = pollRdNorm) {wanted : ℤ}
    (ha : r.accepted = some wanted) (hn : 2 ≤ (s.polled revents).nready) :
    (∀ fd ∈ (s.next r).handled,
        ∃ client ∈ Descriptors.report s.clients revents,
          client.fd = fd ∧ client.revents = pollRdNorm) ↔
      (passes reported (r.drops ·.fd) (r.halts ·.fd) false
          (Descriptors.report s.clients revents).tail = true → r.fresh ≠ pollRdNorm) := by
  rw [h.handled_accepted hloop hr hl ha hn]
  constructor
  · intro hall hpasses hfresh
    obtain ⟨client, hclient, hfd, _⟩ := hall (freeFd s.openFds wanted) (by
      rw [show passes _ _ _ _ (s.polled revents).clients.tail = true from hpasses, hfresh]
      simp)
    have hmem : client.fd ∈ s.fds := by
      rw [fds, ← report_fd s.clients revents]
      exact List.mem_map_of_mem hclient
    exact h.free_not_mem wanted (hfd ▸ hmem)
  · intro hsettled fd hfd
    rcases List.mem_append.mp hfd with hold | hnew
    · exact reported_of_walk hold
    · split at hnew
      · rename_i hpasses
        obtain ⟨hpasses, hfresh⟩ := Bool.and_eq_true_iff.mp hpasses
        exact absurd (of_decide_eq_true hfresh) (hsettled hpasses)
      · exact absurd hnew List.not_mem_nil

/-- STEP: one round. -/
theorem Kept.onlyReported_iff (h : s.Kept) (r : PollRound) : s.OnlyReported r ↔ s.Settled r := by
  refine imp_congr_right fun hloop => ?_
  cases hr : r.revents with
  | none =>
    have hnil : (s.next r).handled = [] := by
      rw [PollServer.next, if_pos hloop, PollServer.round, hr]
      rfl
    rw [hnil]
    exact iff_of_true (by simp) (by simp)
  | some revents =>
    simp only [Option.some.injEq, forall_eq', exists_eq_left']
    by_cases hnew : revents 0 = pollRdNorm ∧ r.accepted ≠ none ∧ 2 ≤ (s.polled revents).nready
    · obtain ⟨hl, haccepted, hn⟩ := hnew
      obtain ⟨wanted, ha⟩ := Option.ne_none_iff_exists'.mp haccepted
      rw [h.handled_reported_iff hloop hr hl ha hn]
      exact ⟨fun hsettled _ _ _ => hsettled, fun hsettled => hsettled hl haccepted hn⟩
    · have hquiet : revents 0 = pollRdNorm → r.accepted ≠ none → (s.polled revents).nready < 2 :=
        fun hl ha => Nat.lt_of_not_le fun hn => hnew ⟨hl, ha, hn⟩
      exact iff_of_true (h.handled_reported hloop hr hquiet)
        fun hl ha hn => absurd ⟨hl, ha, hn⟩ hnew

/-! ### Runs -/

/-- CORRECT: along every run, whatever the stack held, `handleRequest` is called in a round only for
    what its poll reported, exactly when no new entry that the loop comes to holds `POLLRDNORM`. -/
theorem onlyReported_iff_settled (inherited : List ℤ) (revents : UInt16) (rs : List PollRound) :
    Throughout next OnlyReported (start inherited revents) rs ↔
      Throughout next Settled (start inherited revents) rs :=
  throughout_congr (fun _ r h => h.next r) (fun _ r h => h.onlyReported_iff r) rs _
    (start_kept inherited revents)

/-- Everybody who is read from says "hi". -/
def talk : Outside where
  accepted := some 0
  read _ := some ⟨[104, 105], by simp⟩
  writes _ := true
  stack _ := []

/-- One client is connected. In the next round it is ready, another one connects, and the stack
    happens to hold 64: the server reads from the new client, of whom poll has said nothing. -/
theorem stale_entry_read :
    ¬ Throughout next OnlyReported (start [0, 1, 2] 0)
      [⟨talk, some fun i => if i = 0 then 64 else 0, 0⟩, ⟨talk, some fun _ => 64, 64⟩] := by
  rintro ⟨_, hsecond, _⟩
  obtain ⟨revents, hr, client, hclient, hfd, _⟩ := hsecond (by decide) 5 (by decide)
  obtain rfl := Option.some.inj hr
  have hmem := List.mem_map_of_mem (f := PollFd.fd) hclient
  rw [hfd] at hmem
  exact absurd hmem (by decide)

end PollServer
end UnixIpc.Servers
