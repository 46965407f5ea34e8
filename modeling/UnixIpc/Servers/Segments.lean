import Mathlib.Data.List.TakeWhile
import UnixIpc.Servers.Bookkeeping
import UnixIpc.Servers.Echo
import UnixIpc.Servers.Rounds

/-! One client's byte stream, in whatever pieces TCP hands it over. The servers decide on each read by
    itself: a read that is just the command stops the server, any other read is echoed.

        stream   h e l l o s t o p ↵ ↵ m o r e
        reads    │ hello │ stop↵↵ │ …             echo "hello", stop
                 │ hellos │ top↵↵more │ …         echo everything, go on

    So all that the cutting decides is where the first read that is just the command begins, if there
    is one (`stopsAt`); what comes before is echoed. -/

namespace UnixIpc.Servers
open UnixIpc.Bytes UnixIpc.Descriptors UnixIpc.IndexLoop UnixIpc.Run

/-! ### A client's stream -/

/-- The stream cut into reads of 1 to 1023 bytes. -/
structure Splits (stream : List UInt8) (chunks : List Chunk) : Prop where
  content : (chunks.map (·.1)).flatten = stream
  size : ∀ c ∈ chunks, c.1 ≠ [] ∧ c.1.length < 1024

/-- The reads before the first that is the command. -/
def unstopped (chunks : List Chunk) : List Chunk := chunks.takeWhile (·.1 ≠ stopCommand)

/-- Where in the stream the first read that is the command begins. -/
def stopsAt (chunks : List Chunk) : Option ℕ :=
  if ∃ c ∈ chunks, c.1 = stopCommand then some ((unstopped chunks).map (·.1)).flatten.length
  else none

theorem unstopped_flatten_prefix (chunks : List Chunk) :
    ((unstopped chunks).map (·.1)).flatten <+: (chunks.map (·.1)).flatten := by
  obtain ⟨later, hlater⟩ := List.takeWhile_prefix (l := chunks) (fun c => decide (c.1 ≠ stopCommand))
  refine ⟨(later.map (·.1)).flatten, ?_⟩
  rw [unstopped, ← List.flatten_append, ← List.map_append, hlater]

theorem unstopped_eq_self {chunks : List Chunk} (h : ¬ ∃ c ∈ chunks, c.1 = stopCommand) :
    unstopped chunks = chunks := by
  refine List.takeWhile_eq_self_iff.mpr ?_
  intro c hc
  exact decide_eq_true fun hstop => h ⟨c, hc, hstop⟩

/-- Two ways of cutting a stream agree on whether and what exactly when they agree on where. -/
theorem stopsAt_eq_iff {stream : List UInt8} {cs ds : List Chunk} (hc : Splits stream cs)
    (hd : Splits stream ds) :
    ((∃ c ∈ cs, c.1 = stopCommand) ↔ ∃ d ∈ ds, d.1 = stopCommand) ∧
        ((unstopped cs).map (·.1)).flatten = ((unstopped ds).map (·.1)).flatten ↔
      stopsAt cs = stopsAt ds := by
  have hcp := unstopped_flatten_prefix cs
  have hdp := unstopped_flatten_prefix ds
  rw [hc.content] at hcp
  rw [hd.content] at hdp
  have hlen : ((unstopped cs).map (·.1)).flatten = ((unstopped ds).map (·.1)).flatten ↔
      ((unstopped cs).map (·.1)).flatten.length = ((unstopped ds).map (·.1)).flatten.length := by
    constructor
    · exact congrArg _
    · intro heq
      rw [List.prefix_iff_eq_take.mp hcp, List.prefix_iff_eq_take.mp hdp, heq]
  rw [stopsAt, stopsAt]
  by_cases hcs : ∃ c ∈ cs, c.1 = stopCommand
  · by_cases hds : ∃ d ∈ ds, d.1 = stopCommand
    · rw [if_pos hcs, if_pos hds, Option.some.injEq, hlen]
      exact and_iff_right (iff_of_true hcs hds)
    · rw [if_pos hcs, if_neg hds]
      exact iff_of_false (fun h => hds (h.1.mp hcs)) (by simp)
  · by_cases hds : ∃ d ∈ ds, d.1 = stopCommand
    · rw [if_neg hcs, if_pos hds]
      exact iff_of_false (fun h => hcs (h.1.mpr hds)) (by simp)
    · rw [if_neg hcs, if_neg hds, unstopped_eq_self hcs, unstopped_eq_self hds, hc.content,
        hd.content]
      exact iff_of_true ⟨iff_of_false hcs hds, rfl⟩ rfl

/-! ### What the process does -/

namespace Process

/-- All that has been written to a descriptor. -/
def echoed (p : Process) (sockfd : ℤ) : List UInt8 :=
  ((p.written.filter (·.1 = sockfd)).map (·.2)).flatten

/-- A round in which only this client is ready, and what it reads is this chunk. -/
def hear (sockfd : ℤ) (p : Process) (chunk : Chunk) : Process :=
  if p.Looping then
    ({ p with handled := [sockfd] } : Process).respond sockfd true (reply (some chunk) [])
  else p

theorem foldl_hear_stopped {sockfd : ℤ} {p : Process} (h : ¬ p.Looping) (chunks : List Chunk) :
    chunks.foldl (hear sockfd) p = p :=
  List.foldl_fixed' (fun _ => if_neg h) chunks

/-- RUN: up to the first read that is the command everything is echoed; that one ends the loop. -/
theorem foldl_hear (sockfd : ℤ) {p : Process} (h : p.Looping) {chunks : List Chunk}
    (hsize : ∀ c ∈ chunks, c.1 ≠ [] ∧ c.1.length < 1024) (hnul : ∀ c ∈ chunks, 0 ∉ c.1) :
    (chunks.foldl (hear sockfd) p).isRunning = !decide (∃ c ∈ chunks, c.1 = stopCommand) ∧
      (chunks.foldl (hear sockfd) p).echoed sockfd =
        p.echoed sockfd ++ ((unstopped chunks).map (·.1)).flatten := by
  induction chunks generalizing p with
  | nil => exact ⟨by simp [h.1], by simp [unstopped]⟩
  | cons c chunks ih =>
    obtain ⟨⟨hne, hlen⟩, hsize'⟩ := List.forall_mem_cons.mp hsize
    obtain ⟨hc, hnul'⟩ := List.forall_mem_cons.mp hnul
    rw [List.foldl_cons, hear, if_pos h, reply_plain hne hlen hc]
    by_cases hstop : c.1 = stopCommand
    · rw [if_pos hstop, foldl_hear_stopped fun hloop => absurd hloop.1 (by simp [respond])]
      refine ⟨by simp [respond, hstop], ?_⟩
      simp [respond, echoed, unstopped, hstop]
    · rw [if_neg hstop]
      obtain ⟨hrun, hecho⟩ := ih (p := ({ p with handled := [sockfd] } : Process).respond sockfd true
        (.echo c.1)) h hsize' hnul'
      refine ⟨by rw [hrun]; simp [hstop], ?_⟩
      rw [hecho]
      simp [respond, echoed, unstopped, hstop]

end Process

/-! ### The servers -/

/-- The round's outside, for a client that sends this chunk. -/
def Outside.sends (o : Outside) (sockfd : ℤ) (chunk : Chunk) : Outside :=
  { o with read := Function.update o.read sockfd (some chunk)
           writes := Function.update o.writes sockfd true }

theorem Outside.sends_reply {o : Outside} {sockfd : ℤ} {chunk : Chunk}
    (hlen : chunk.1.length < 1024) :
    (o.sends sockfd chunk).reply sockfd = Servers.reply (some chunk) [] := by
  rw [Outside.reply, Outside.sends]
  simp only [Function.update_self]
  refine reply_of_terminated ?_ _
  intro c hc
  exact Or.inl (Option.some.inj hc ▸ hlen)

theorem Outside.sends_drops {o : Outside} {sockfd : ℤ} {chunk : Chunk} (hne : chunk.1 ≠ []) :
    (o.sends sockfd chunk).drops sockfd = false := by
  have hread : (o.sends sockfd chunk).read sockfd = some chunk := by simp [Outside.sends]
  exact Outside.not_drops hread hne

namespace SelectServer

theorem next_undefined {s : SelectServer} (h : s.defined = false) (r : SelectRound) :
    (s.next r).defined = false := by
  have h0 : ({ s with handled := [] } : SelectServer).defined = false := h
  by_cases hloop : s.Looping
  · cases hr : r.readable with
    | none =>
      rw [SelectServer.next, if_pos hloop, SelectServer.round, hr]
      exact h
    | some readable =>
      rw [next_eq hloop hr]
      split
      · refine requests_undefined ?_ _
        cases ha : r.accepted with
        | none =>
          rw [accept_refused ha]
          exact h
        | some wanted =>
          simp only [accept, ha, fdSet]
          refine updateMaxfd_undefined ?_ _
          split
          · exact h
          · rfl
      · exact requests_undefined h0 _
  · rw [SelectServer.next, if_neg hloop]
    exact h

theorem foldl_undefined {s : SelectServer} (h : s.defined = false) (rs : List SelectRound) :
    (rs.foldl next s).defined = false :=
  foldl_inv (P := fun s : SelectServer => s.defined = false) (fun _ r hs => next_undefined hs r)
    rs s h

/-- A run that is still defined has kept everything in order. -/
theorem Good.foldl_of_defined {s : SelectServer} (h : s.Good) (rs : List SelectRound)
    (hdef : (rs.foldl SelectServer.next s).defined = true) :
    (rs.foldl SelectServer.next s).Good := by
  induction rs generalizing s with
  | nil => exact h
  | cons r rs ih =>
    rw [List.foldl_cons] at hdef ⊢
    by_cases hsafe : s.Safe r
    · exact ih (h.next hsafe) hdef
    · have hend := foldl_undefined (undefined_of_not_safe hsafe) rs
      exact absurd hdef (by simp [hend])

theorem good_of_defined {inherited : List ℤ} (rs : List SelectRound)
    (h : (rs.foldl next (start inherited)).defined = true) :
    (rs.foldl next (start inherited)).Good := by
  have hstart : (start inherited).defined = true := by
    by_contra hnot
    rw [Bool.not_eq_true] at hnot
    exact absurd h (by simp [foldl_undefined hnot rs])
  exact (start_good (start_defined.mp hstart)).foldl_of_defined rs h

/-- The round in which only `sockfd` is readable, with this chunk. -/
def sends (o : Outside) (sockfd : ℤ) (chunk : Chunk) : SelectRound where
  toOutside := o.sends sockfd chunk
  readable := some fun fd => decide (fd = sockfd)
  garbage := 0

/-- The loop over `clients` when only one is ready, and stays. -/
theorem requests_one {s : SelectServer} {r : SelectRound} {readset : Finset ℤ} {sockfd : ℤ}
    (hrun : s.status = .running) (hnodup : s.clients.Nodup) (hmem : sockfd ∈ s.clients)
    (hone : ∀ fd, fd ∈ readset ↔ fd = sockfd) (hd : r.drops sockfd = false) :
    s.requests r readset = s.handleRequest r sockfd := by
  obtain ⟨k, hk, hget⟩ := List.mem_iff_getElem.mp hmem
  have hbody : visit r readset k s = s.handleRequest r sockfd := by
    rw [visit_eq (List.getElem?_eq_getElem hk), hget, if_pos ((hone sockfd).mpr rfl)]
  have hclients : (s.handleRequest r sockfd).clients = s.clients := by rw [handleRequest_stays hd]
  rw [← hbody, requests]
  refine loop_once ?_ s.clients.length 0 ?_ (Nat.zero_le k) (by omega)
  · intro i hi t ht
    have hsame : t.clients = s.clients := by
      rcases ht with rfl | rfl
      · rfl
      · rw [hbody, hclients]
    rw [visit, hsame]
    cases hfd : s.clients[i]? with
    | none => rfl
    | some fd =>
      obtain ⟨hlt, hfd⟩ := List.getElem?_eq_some_iff.mp hfd
      have hne : fd ≠ sockfd := by
        rintro rfl
        exact hi (hnodup.getElem_inj_iff.mp (hfd.trans hget.symm))
      exact if_neg fun hready => hne ((hone fd).mp hready)
  · intro j _ hj
    exact goesOn_iff.mpr ⟨by simp [hrun], by omega⟩

/-- STEP: such a round is one request. -/
theorem Good.next_sends {s : SelectServer} (h : s.Good) (hloop : s.Looping) {sockfd : ℤ}
    (hmem : sockfd ∈ s.clients) {chunk : Chunk} (hne : chunk.1 ≠ []) (hlen : chunk.1.length < 1024)
    (o : Outside) : s.next (sends o sockfd chunk) =
      { s with toProcess := s.toProcess.hear sockfd chunk } := by
  have hone : ∀ fd, fd ∈ s.readset (fun fd => decide (fd = sockfd)) ↔ fd = sockfd := by
    intro fd
    constructor
    · intro hfd
      exact of_decide_eq_true (Finset.mem_filter.mp hfd).2.2
    · rintro rfl
      exact (h.booked.mem_readset ((h.booked.allset fd).mpr (Or.inr hmem))).mpr (by simp)
  have hlisten : s.listenfd ∉ s.readset (fun fd => decide (fd = sockfd)) := by
    intro hl
    exact (h.kept.client sockfd hmem).2.ne ((hone _).mp hl)
  have hd : (sends o sockfd chunk).drops sockfd = false := Outside.sends_drops hne
  have hreply : (sends o sockfd chunk).reply sockfd = reply (some chunk) [] :=
    Outside.sends_reply hlen
  have hwrites : (sends o sockfd chunk).writes sockfd = true := by simp [sends, Outside.sends]
  rw [next_eq hloop (r := sends o sockfd chunk) rfl, if_neg hlisten,
    requests_one (s := { s with handled := [] }) hloop.2 h.kept.nodup hmem hone hd,
    handleRequest_stays hd, hreply, hwrites, Process.hear, if_pos hloop]
  rfl

/-- A round in which the loop has ended, or that is one request, keeps everything in order. -/
theorem Good.sends_hears {s : SelectServer} (h : s.Good) {sockfd : ℤ} (hmem : sockfd ∈ s.clients)
    {chunk : Chunk} (hne : chunk.1 ≠ []) (hlen : chunk.1.length < 1024) (o : Outside) :
    ((s.next (sends o sockfd chunk)).Good ∧ sockfd ∈ (s.next (sends o sockfd chunk)).clients) ∧
      (s.next (sends o sockfd chunk)).toProcess = s.toProcess.hear sockfd chunk := by
  by_cases hloop : s.Looping
  · have hsafe : s.Safe (sends o sockfd chunk) := by
      intro _ readable hr
      obtain rfl := Option.some.inj hr
      refine ⟨fun hl => ?_, fun _ fd hone _ => ?_⟩
      · have heq := of_decide_eq_true (Finset.mem_filter.mp hl).2.2
        exact absurd heq (h.kept.client sockfd hmem).2.ne
      · obtain rfl : sockfd = fd := by simpa [hone] using hmem
        exact Outside.sends_drops hne
    have hgood := h.next hsafe
    rw [h.next_sends hloop hmem hne hlen] at hgood ⊢
    exact ⟨⟨hgood, hmem⟩, rfl⟩
  · have hstay : s.next (sends o sockfd chunk) = s := if_neg hloop
    rw [hstay, Process.hear, if_neg hloop]
    exact ⟨⟨h, hmem⟩, rfl⟩

/-- RUN: the process hears the reads one after another. -/
theorem Good.foldl_sends {s : SelectServer} (h : s.Good) {sockfd : ℤ} (hmem : sockfd ∈ s.clients)
    {chunks : List Chunk} (hsize : ∀ c ∈ chunks, c.1 ≠ [] ∧ c.1.length < 1024) (o : Outside) :
    ((chunks.map (sends o sockfd)).foldl SelectServer.next s).toProcess =
      chunks.foldl (Process.hear sockfd) s.toProcess :=
  foldl_image (P := fun s : SelectServer => s.Good ∧ sockfd ∈ s.clients)
    (fun _ _ hs hc => (hs.1.sends_hears hs.2 hc.1 hc.2 o).1)
    (fun _ _ hs hc => (hs.1.sends_hears hs.2 hc.1 hc.2 o).2) chunks s hsize ⟨h, hmem⟩

end SelectServer

namespace PollServer

/-- The round in which poll reports entry `k` alone, whose client sends this chunk. -/
def sends (o : Outside) (k : ℕ) (sockfd : ℤ) (chunk : Chunk) : PollRound where
  toOutside := o.sends sockfd chunk
  revents := some fun i => if i = k then pollRdNorm else 0
  fresh := 0

/-- The loop over `clients` when one entry is reported, and its client stays. -/
theorem requests_one {s : PollServer} {r : PollRound} {k : ℕ} {client : PollFd}
    (hrun : s.status = .running) (hk : 1 ≤ k) (hget : s.clients[k]? = some client)
    (hone : ∀ i c, s.clients[i]? = some c → (c.revents = pollRdNorm ↔ i = k))
    (hd : r.drops client.fd = false) : s.requests r = s.handleRequest r client.fd := by
  have hlt : k < s.clients.length := (List.getElem?_eq_some_iff.mp hget).1
  have hbody : visit r k s = s.handleRequest r client.fd := by
    rw [visit_eq hget, if_pos ((hone k client hget).mpr rfl)]
  have hclients : (s.handleRequest r client.fd).clients = s.clients := by
    rw [handleRequest_stays hd]
  rw [← hbody, requests]
  refine loop_once ?_ (s.clients.length - 1) 1 ?_ hk (by omega)
  · intro i hi t ht
    have hsame : t.clients = s.clients := by
      rcases ht with rfl | rfl
      · rfl
      · rw [hbody, hclients]
    rw [visit, hsame]
    cases hc : s.clients[i]? with
    | none => rfl
    | some c => exact if_neg fun hready => hi ((hone i c hc).mp hready)
  · intro j _ hj
    exact goesOn_iff.mpr ⟨by simp [hrun], by omega⟩

/-- STEP: such a round is one request. -/
theorem Kept.next_sends {s : PollServer} (h : s.Kept) (hloop : s.Looping) {k : ℕ} {sockfd : ℤ}
    (hk : 1 ≤ k) (hget : s.fds[k]? = some sockfd) {chunk : Chunk} (hne : chunk.1 ≠ [])
    (hlen : chunk.1.length < 1024) (o : Outside) : s.next (sends o k sockfd chunk) =
      { s with
        clients := Descriptors.report s.clients fun i => if i = k then pollRdNorm else 0
        toProcess := s.toProcess.hear sockfd chunk } := by
  obtain ⟨client, hclient, rfl⟩ : ∃ client, s.clients[k]? = some client ∧ client.fd = sockfd := by
    rwa [fds, List.getElem?_map, Option.map_eq_some_iff] at hget
  have hd : (sends o k client.fd chunk).drops client.fd = false := Outside.sends_drops hne
  have hreply : (sends o k client.fd chunk).reply client.fd = reply (some chunk) [] :=
    Outside.sends_reply hlen
  have hwrites : (sends o k client.fd chunk).writes client.fd = true := by
    simp [sends, Outside.sends]
  have hpolled : (s.polled fun i => if i = k then pollRdNorm else 0).clients[k]? =
      some { client with revents := pollRdNorm } := by
    rw [PollServer.polled, report_getElem?, hclient, Option.map_some, if_pos rfl]
  have hone : ∀ i c, (s.polled fun i => if i = k then pollRdNorm else 0).clients[i]? = some c →
      (c.revents = pollRdNorm ↔ i = k) := by
    intro i c hc
    rw [PollServer.polled, report_getElem?, Option.map_eq_some_iff] at hc
    obtain ⟨c, _, rfl⟩ := hc
    by_cases hi : i = k
    · simp [hi]
    · simp [hi, pollRdNorm]
  rw [h.next_eq hloop (r := sends o k client.fd chunk) rfl,
    if_neg (by rw [if_neg (by omega)]; decide),
    requests_one (s := s.polled _) hloop.2 hk hpolled hone hd,
    handleRequest_stays hd, hreply, hwrites, Process.hear, if_pos hloop]
  rfl

theorem Kept.sends_hears {s : PollServer} (h : s.Kept) {k : ℕ} {sockfd : ℤ} (hk : 1 ≤ k)
    (hget : s.fds[k]? = some sockfd) {chunk : Chunk} (hne : chunk.1 ≠ [])
    (hlen : chunk.1.length < 1024) (o : Outside) :
    ((s.next (sends o k sockfd chunk)).Kept ∧
        (s.next (sends o k sockfd chunk)).fds[k]? = some sockfd) ∧
      (s.next (sends o k sockfd chunk)).toProcess = s.toProcess.hear sockfd chunk := by
  by_cases hloop : s.Looping
  · have hkept := h.next (sends o k sockfd chunk)
    rw [h.next_sends hloop hk hget hne hlen] at hkept ⊢
    refine ⟨⟨hkept, ?_⟩, rfl⟩
    rw [fds, report_fd]
    exact hget
  · have hstay : s.next (sends o k sockfd chunk) = s := if_neg hloop
    rw [hstay, Process.hear, if_neg hloop]
    exact ⟨⟨h, hget⟩, rfl⟩

/-- RUN: the process hears the reads one after another. -/
theorem Kept.foldl_sends {s : PollServer} (h : s.Kept) {k : ℕ} {sockfd : ℤ} (hk : 1 ≤ k)
    (hget : s.fds[k]? = some sockfd) {chunks : List Chunk}
    (hsize : ∀ c ∈ chunks, c.1 ≠ [] ∧ c.1.length < 1024) (o : Outside) :
    ((chunks.map (sends o k sockfd)).foldl PollServer.next s).toProcess =
      chunks.foldl (Process.hear sockfd) s.toProcess :=
  foldl_image (P := fun s : PollServer => s.Kept ∧ s.fds[k]? = some sockfd)
    (fun _ _ hs hc => (hs.1.sends_hears hk hs.2 hc.1 hc.2 o).1)
    (fun _ _ hs hc => (hs.1.sends_hears hk hs.2 hc.1 hc.2 o).2) chunks s hsize ⟨h, hget⟩

end PollServer

/-! ### Two ways of cutting -/

/-- The server ends with the same `isRunning` and has echoed the same bytes to the client. -/
def SameOutcome (sockfd : ℤ) (p q : Process) : Prop :=
  p.isRunning = q.isRunning ∧ p.echoed sockfd = q.echoed sockfd

theorem sameOutcome_iff {sockfd : ℤ} {p : Process} (h : p.Looping) {stream : List UInt8}
    (hnul : 0 ∉ stream) {cs ds : List Chunk} (hc : Splits stream cs) (hd : Splits stream ds) :
    SameOutcome sockfd (cs.foldl (Process.hear sockfd) p) (ds.foldl (Process.hear sockfd) p) ↔
      stopsAt cs = stopsAt ds := by
  have hplain : ∀ {chunks}, Splits stream chunks → ∀ c ∈ chunks, 0 ∉ c.1 := by
    intro chunks hs c hmem h0
    refine hnul (hs.content ▸ List.mem_flatten.mpr ⟨c.1, List.mem_map_of_mem hmem, h0⟩)
  obtain ⟨hcrun, hcecho⟩ := Process.foldl_hear sockfd h hc.size (hplain hc)
  obtain ⟨hdrun, hdecho⟩ := Process.foldl_hear sockfd h hd.size (hplain hd)
  rw [SameOutcome, hcrun, hdrun, hcecho, hdecho, List.append_cancel_left_eq, Bool.not_inj_iff,
    decide_eq_decide, stopsAt_eq_iff hc hd]

/-- CORRECT: whatever happened before, as long as the server runs (and the select server has not left
    the defined behaviour), two ways of cutting one client's stream into reads end in the same
    `isRunning` and the same echo exactly when the first read that is just the command begins at the
    same place in both, or neither has one. -/
theorem sameOutcome_iff_stopsAt (inherited : List ℤ) (sockfd : ℤ) (o o' : Outside)
    (stream : List UInt8) (hnul : 0 ∉ stream) (cs ds : List Chunk) (hc : Splits stream cs)
    (hd : Splits stream ds) :
    (∀ (rs : List SelectRound) s, s = rs.foldl SelectServer.next (.start inherited) →
      s.defined = true → s.Looping → sockfd ∈ s.clients →
      (SameOutcome sockfd
          ((cs.map (SelectServer.sends o sockfd)).foldl SelectServer.next s).toProcess
          ((ds.map (SelectServer.sends o' sockfd)).foldl SelectServer.next s).toProcess ↔
        stopsAt cs = stopsAt ds)) ∧
    (∀ (revents : UInt16) (qs : List PollRound) t,
      t = qs.foldl PollServer.next (.start inherited revents) → t.Looping →
      ∀ k, 1 ≤ k → t.fds[k]? = some sockfd →
      (SameOutcome sockfd
          ((cs.map (PollServer.sends o k sockfd)).foldl PollServer.next t).toProcess
          ((ds.map (PollServer.sends o' k sockfd)).foldl PollServer.next t).toProcess ↔
        stopsAt cs = stopsAt ds)) := by
  constructor
  · rintro rs s rfl hdef hloop hmem
    have hgood := SelectServer.good_of_defined rs hdef
    rw [hgood.foldl_sends hmem hc.size, hgood.foldl_sends hmem hd.size]
    exact sameOutcome_iff hloop hnul hc hd
  · rintro revents qs t rfl hloop k hk hget
    have hkept : (qs.foldl PollServer.next (.start inherited revents)).Kept :=
      foldl_inv (fun _ q h => h.next q) qs _ (PollServer.start_kept inherited revents)
    rw [hkept.foldl_sends hk hget hc.size, hkept.foldl_sends hk hget hd.size]
    exact sameOutcome_iff hloop hnul hc hd

/-- "stop\r\n" in one read and in two. -/
def whole : List Chunk := [⟨ascii "stop\r\n", by decide⟩]
def inTwo : List Chunk := [⟨ascii "st", by decide⟩, ⟨ascii "op\r\n", by decide⟩]

/-- One client is connected, to either server. -/
def selectConnected : SelectServer :=
  [⟨.comeAndGo, some (· = 3), 0⟩].foldl SelectServer.next (.start [0, 1, 2])
def pollConnected : PollServer :=
  [⟨.comeAndGo, some fun i => if i = 0 then 64 else 0, 0⟩].foldl PollServer.next
    (.start [0, 1, 2] 0)

theorem splits_whole : Splits stopCommand whole := ⟨by decide, by decide⟩

theorem splits_inTwo : Splits stopCommand inTwo := ⟨by decide, by decide⟩

theorem sameOutcome_iff_stopsAt_stop :
    (SameOutcome 4
        ((whole.map (SelectServer.sends .comeAndGo 4)).foldl SelectServer.next
          selectConnected).toProcess
        ((inTwo.map (SelectServer.sends .comeAndGo 4)).foldl SelectServer.next
          selectConnected).toProcess ↔ stopsAt whole = stopsAt inTwo) ∧
      (SameOutcome 4
        ((whole.map (PollServer.sends .comeAndGo 1 4)).foldl PollServer.next
          pollConnected).toProcess
        ((inTwo.map (PollServer.sends .comeAndGo 1 4)).foldl PollServer.next
          pollConnected).toProcess ↔ stopsAt whole = stopsAt inTwo) := by
  have hboth := sameOutcome_iff_stopsAt [0, 1, 2] 4 .comeAndGo .comeAndGo stopCommand (by decide)
    whole inTwo splits_whole splits_inTwo
  exact ⟨hboth.1 _ _ rfl (by decide) (by decide) (by decide),
    hboth.2 _ _ _ rfl (by decide) 1 le_rfl (by decide)⟩

/-- In one read the command ends the loop, in two reads it is echoed, by either server. -/
theorem cut_command :
    ¬ SameOutcome 4
        ((whole.map (SelectServer.sends .comeAndGo 4)).foldl SelectServer.next
          selectConnected).toProcess
        ((inTwo.map (SelectServer.sends .comeAndGo 4)).foldl SelectServer.next
          selectConnected).toProcess ∧
      ¬ SameOutcome 4
        ((whole.map (PollServer.sends .comeAndGo 1 4)).foldl PollServer.next
          pollConnected).toProcess
        ((inTwo.map (PollServer.sends .comeAndGo 1 4)).foldl PollServer.next
          pollConnected).toProcess := by
  constructor
  · rintro ⟨hrun, _⟩
    exact absurd hrun (by decide)
  · rintro ⟨hrun, _⟩
    exact absurd hrun (by decide)

end UnixIpc.Servers
