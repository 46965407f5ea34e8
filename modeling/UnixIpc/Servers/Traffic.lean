import UnixIpc.Servers.SelectStop

/-! All that the multiplex servers write in a run, whoever the clients are and however their requests
    mix. Each round handles some requests, in list order; each request is answered at once or not at
    all, to the descriptor it came from.

        rounds     r₁            r₂       r₃
        requests   4:"hi" 5:""   6:"a"    4:"ho"
        written    4:"hi"        6:"a"    4:"ho"

    The two servers record their requests the same way, so the argument is made once, over whatever
    machine has a process in it (`written_run`). What a descriptor is written is then compared with
    what has been read from it (`echoes_heard_iff`). -/

namespace UnixIpc.Servers
open UnixIpc.Bytes UnixIpc.Descriptors UnixIpc.IndexLoop UnixIpc.Run

/-- A request that is handled: the outside in that round, and the client it comes from. -/
structure Request where
  outside : Outside
  sockfd : ℤ

namespace Request

def reply (q : Request) : Reply := q.outside.reply q.sockfd

/-- What its read brings. -/
def bytes (q : Request) : List UInt8 :=
  match q.outside.read q.sockfd with
  | some chunk => chunk.1
  | none => []

/-- What is written back, if anything. -/
def answer (q : Request) : Option (List UInt8) :=
  match q.reply with
  | .echo data => if q.outside.writes q.sockfd then some data else none
  | _ => none

/-- The answer, with the descriptor it is written to. -/
def addressed (q : Request) : Option (ℤ × List UInt8) := q.answer.map (q.sockfd, ·)

/-- The bytes written back. -/
def echo (q : Request) : List UInt8 := q.answer.getD []

/-- The request ends neither the process nor the main loop. -/
def Passed (q : Request) : Prop := q.outside.halts q.sockfd = false ∧ q.reply ≠ .stop

variable {q : Request}

theorem passed_of_drops (h : q.outside.drops q.sockfd = true) : q.Passed ∧ q.addressed = none := by
  have hreply : q.reply = .disconnected := of_decide_eq_true h
  refine ⟨⟨Outside.halts_of_drops h, by simp [hreply]⟩, ?_⟩
  rw [addressed, answer, hreply]
  rfl

/-- What is written back is the string in `buff`. -/
theorem string_of_answer {data : List UInt8} (h : q.answer = some data) :
    ∃ chunk, q.outside.read q.sockfd = some chunk ∧
      cString ((buff chunk).1 ++ q.outside.stack q.sockfd) = some data := by
  have hreply : q.reply = .echo data := by
    rw [answer] at h
    split at h
    · rename_i hecho
      split at h
      · rw [hecho, Option.some.inj h]
      · exact absurd h (by simp)
    · exact absurd h (by simp)
  rw [reply, Outside.reply] at hreply
  cases hread : q.outside.read q.sockfd with
  | none => simp [hread, Servers.reply] at hreply
  | some chunk =>
    rw [hread] at hreply
    have hne : chunk.1 ≠ [] := by
      intro hnil
      simp [Servers.reply, hnil] at hreply
    exact ⟨chunk, rfl, ((reply_eq_echo_iff hne _ data).mp hreply).1⟩

theorem nul_not_mem_echo (q : Request) : 0 ∉ q.echo := by
  rw [echo]
  cases hanswer : q.answer with
  | none => simp
  | some data =>
    obtain ⟨chunk, -, hstring⟩ := string_of_answer hanswer
    exact nul_not_mem_of_cString hstring

/-- A request that passes has read nothing, or is answered with the string in `buff`. -/
theorem Passed.cases (h : q.Passed) :
    (q.bytes = [] ∧ q.echo = []) ∨
      ∃ chunk : Chunk, q.bytes = chunk.1 ∧
        cString ((buff chunk).1 ++ q.outside.stack q.sockfd) = some q.echo := by
  obtain ⟨hhalts, hstop⟩ := h
  cases hread : q.outside.read q.sockfd with
  | none =>
    have hreply : q.outside.reply q.sockfd = .readError := by rw [Outside.reply, hread]; rfl
    exact absurd hhalts (by simp [Outside.halts, hreply])
  | some chunk =>
    by_cases hne : chunk.1 = []
    · have hreply : q.reply = .disconnected := by
        rw [reply, Outside.reply, hread]
        exact if_pos hne
      exact .inl ⟨by rw [bytes, hread]; exact hne, by rw [echo, answer, hreply]; rfl⟩
    · refine .inr ⟨chunk, by rw [bytes, hread], ?_⟩
      have hreply : q.reply = Servers.reply (some chunk) (q.outside.stack q.sockfd) := by
        rw [reply, Outside.reply, hread]
      cases hstring : cString ((buff chunk).1 ++ q.outside.stack q.sockfd) with
      | none =>
        have hover : q.outside.reply q.sockfd = .overrun := by
          rw [show q.outside.reply q.sockfd = q.reply from rfl, hreply]
          simp [Servers.reply, hne, hstring]
        exact absurd hhalts (by simp [Outside.halts, hover])
      | some data =>
        by_cases hs : data = stopCommand
        · refine absurd ?_ hstop
          rw [hreply]
          simp [Servers.reply, hne, hstring, hs]
        · have hecho : q.reply = .echo data := by
            rw [hreply]
            exact (reply_eq_echo_iff hne _ data).mpr ⟨hstring, hs⟩
          have hwrites : q.outside.writes q.sockfd = true := by
            rw [Outside.halts, show q.outside.reply q.sockfd = .echo data from hecho] at hhalts
            simpa using hhalts
          rw [echo, answer, hecho]
          simp only [hwrites, if_true, Option.getD_some]

/-- Without a NUL in it, what was read is written back, and perhaps more. -/
theorem Passed.begins_echo (h : q.Passed) (hnul : 0 ∉ q.bytes) : q.bytes <+: q.echo := by
  rcases h.cases with ⟨hbytes, _⟩ | ⟨chunk, hbytes, hstring⟩
  · rw [hbytes]
    exact List.nil_prefix
  · rw [hbytes] at hnul ⊢
    rw [buff, List.append_assoc] at hstring
    exact prefix_of_cString hnul hstring

/-- EXACT: what was read is what is written back. -/
theorem Passed.echo_eq_iff (h : q.Passed) :
    q.echo = q.bytes ↔ 0 ∉ q.bytes ∧
      (q.bytes.length = 1024 → (q.outside.stack q.sockfd).head? = some 0) := by
  rcases h.cases with ⟨hbytes, hecho⟩ | ⟨chunk, hbytes, hstring⟩
  · simp [hbytes, hecho]
  · rw [hbytes]
    have hiff : q.echo = chunk.1 ↔
        cString ((buff chunk).1 ++ q.outside.stack q.sockfd) = some chunk.1 := by
      rw [hstring, Option.some.injEq]
    rw [hiff, buff, List.append_assoc, cString_append_iff]
    refine and_congr_right fun _ => ?_
    rcases Nat.lt_or_eq_of_le chunk.2 with hlt | heq
    · obtain ⟨n, hn⟩ := Nat.exists_eq_add_of_lt hlt
      rw [show 1024 - chunk.1.length = n + 1 by omega, List.replicate_succ]
      simp [Nat.ne_of_lt hlt]
    · simp [heq]

end Request

/-! ### Inside a round -/

/-- What has been written on top of `before` are the answers to the requests handled so far, and if
    the main loop still goes on, they all passed. -/
structure Recorded (o : Outside) (before : List (ℤ × List UInt8)) (p : Process) : Prop where
  written : p.written = before ++ (p.handled.map (Request.mk o)).filterMap Request.addressed
  passed : p.Looping → ∀ fd ∈ p.handled, (Request.mk o fd).Passed

namespace Recorded
variable {o : Outside} {before : List (ℤ × List UInt8)} {p p' : Process} {fd : ℤ}

theorem none_yet (hhandled : p.handled = []) : Recorded o p.written p where
  written := by simp [hhandled]
  passed := by simp [hhandled]

/-- A step without a request. -/
theorem same (h : Recorded o before p) (hwritten : p'.written = p.written)
    (hhandled : p'.handled = p.handled) (hloop : p'.Looping → p.Looping) :
    Recorded o before p' where
  written := by rw [hwritten, hhandled, h.written]
  passed hl := by rw [hhandled]; exact h.passed (hloop hl)

/-- A request. -/
theorem request (h : Recorded o before p) (hhandled : p'.handled = p.handled ++ [fd])
    (hwritten : p'.written = p.written ++ (Request.mk o fd).addressed.toList)
    (hloop : p'.Looping → p.Looping ∧ (Request.mk o fd).Passed) : Recorded o before p' where
  written := by
    rw [hwritten, hhandled, h.written, List.map_append, List.filterMap_append, List.append_assoc]
    cases haddr : (Request.mk o fd).addressed <;> simp [haddr]
  passed hl := by
    rw [hhandled]
    intro fd' hfd'
    rcases List.mem_append.mp hfd' with hmem | hmem
    · exact h.passed (hloop hl).1 fd' hmem
    · rw [List.mem_singleton.mp hmem]
      exact (hloop hl).2

theorem respond (h : Recorded o before p) (fd : ℤ) :
    Recorded o before (({ p with handled := p.handled ++ [fd] } : Process).respond fd (o.writes fd)
      (o.reply fd)) := by
  refine @request _ _ _ _ fd h (Process.respond_handled ..) ?_ ?_
  · rw [Request.addressed, Request.answer, Request.reply]
    cases o.reply fd with
    | echo data => cases o.writes fd <;> simp [Process.respond, Process.exit]
    | _ => simp [Process.respond, Process.exit]
  · rw [Request.Passed, Request.reply, Outside.halts]
    cases o.reply fd with
    | echo data =>
      cases o.writes fd <;> simp [Process.respond, Process.exit, Process.Looping]
    | _ => simp [Process.respond, Process.exit, Process.Looping]

/-- The request of a client that has gone. -/
theorem disconnect (h : Recorded o before p) (hd : o.drops fd = true)
    (hhandled : p'.handled = p.handled ++ [fd]) (hwritten : p'.written = p.written)
    (hloop : p'.Looping → p.Looping) : Recorded o before p' := by
  obtain ⟨hpassed, hnone⟩ := Request.passed_of_drops (q := Request.mk o fd) hd
  refine h.request hhandled ?_ fun hl => ⟨hloop hl, hpassed⟩
  rw [hnone, hwritten, Option.toList_none, List.append_nil]

end Recorded

namespace SelectServer
variable {s : SelectServer} {r : SelectRound} {before : List (ℤ × List UInt8)}

theorem recorded_handleRequest {sockfd : ℤ} (h : Recorded r.toOutside before s.toProcess)
    (hmem : sockfd ∈ s.clients) :
    Recorded r.toOutside before (s.handleRequest r sockfd).toProcess := by
  cases hd : r.drops sockfd with
  | true =>
    rw [handleRequest_drops hd hmem, updateMaxfd_toProcess]
    exact h.disconnect hd rfl rfl id
  | false =>
    rw [handleRequest_stays hd]
    exact h.respond sockfd

theorem recorded_requests (h : Recorded r.toOutside before s.toProcess) (readset : Finset ℤ) :
    Recorded r.toOutside before (s.requests r readset).toProcess := by
  refine loop_inv (fun _ s => Recorded r.toOutside before s.toProcess) ?_ _ 0 s h
  intro i s hs hgo
  obtain ⟨_, hi⟩ := goesOn_iff.mp hgo
  rw [visit_eq (List.getElem?_eq_getElem hi)]
  split
  · exact recorded_handleRequest hs (List.getElem_mem hi)
  · exact hs

/-- STEP: a round writes the answers to the requests it handles. -/
theorem recorded_next (s : SelectServer) (r : SelectRound) (hloop : s.Looping) :
    Recorded r.toOutside s.written (s.next r).toProcess := by
  have h0 : Recorded r.toOutside s.written ({ s with handled := [] } : SelectServer).toProcess :=
    Recorded.none_yet (p := { s.toProcess with handled := [] }) rfl
  cases hr : r.readable with
  | none =>
    rw [SelectServer.next, if_pos hloop, SelectServer.round, hr]
    exact h0.same rfl rfl fun hl => absurd hl.2 (by simp)
  | some readable =>
    rw [next_eq hloop hr]
    split
    · refine recorded_requests ?_ _
      cases ha : r.accepted with
      | none =>
        rw [accept_refused ha]
        exact h0.same rfl rfl fun hl => absurd hl.2 (by simp)
      | some wanted =>
        rw [(accept_spec ha).1]
        exact h0.same rfl rfl id
    · exact recorded_requests h0 _

end SelectServer

namespace PollServer
variable {s : PollServer} {r : PollRound} {before : List (ℤ × List UInt8)}

theorem recorded_handleRequest {sockfd : ℤ} (h : Recorded r.toOutside before s.toProcess)
    (hmem : sockfd ∈ s.fds) : Recorded r.toOutside before (s.handleRequest r sockfd).toProcess := by
  cases hd : r.drops sockfd with
  | true =>
    rw [handleRequest_drops hd hmem]
    exact h.disconnect hd rfl rfl id
  | false =>
    rw [handleRequest_stays hd]
    exact h.respond sockfd

theorem recorded_requests (h : Recorded r.toOutside before s.toProcess) :
    Recorded r.toOutside before (s.requests r).toProcess := by
  refine loop_inv (fun _ s => Recorded r.toOutside before s.toProcess) ?_ _ 1 s h
  intro i s hs hgo
  obtain ⟨_, hi⟩ := goesOn_iff.mp hgo
  rw [visit_eq (List.getElem?_eq_getElem hi)]
  split
  · exact recorded_handleRequest hs (List.mem_map_of_mem (List.getElem_mem hi))
  · exact hs

theorem recorded_accept (h : Recorded r.toOutside before s.toProcess) :
    Recorded r.toOutside before (s.accept r).toProcess := by
  cases ha : r.accepted with
  | none =>
    rw [accept_refused ha]
    exact h.same rfl rfl fun hl => absurd hl.2 (by simp)
  | some wanted =>
    rw [accept_taken ha]
    exact h.same rfl rfl id

/-- STEP: a round writes the answers to the requests it handles. -/
theorem recorded_next (s : PollServer) (r : PollRound) (hloop : s.Looping) :
    Recorded r.toOutside s.written (s.next r).toProcess := by
  have h0 : Recorded r.toOutside s.written ({ s with handled := [] } : PollServer).toProcess :=
    Recorded.none_yet (p := { s.toProcess with handled := [] }) rfl
  rw [PollServer.next, if_pos hloop, PollServer.round]
  cases hr : r.revents with
  | none => exact h0.same rfl rfl fun hl => absurd hl.2 (by simp)
  | some revents =>
    simp only
    split
    · exact h0.same rfl rfl fun hl => absurd hl.2 (by simp)
    · split
      · split
        · exact recorded_accept (s := { s with handled := [], clients := report s.clients revents }) h0
        · exact recorded_requests (recorded_accept
            (s := { s with handled := [], clients := report s.clients revents }) h0)
      · exact recorded_requests
          (s := { s with handled := [], clients := report s.clients revents }) h0

end PollServer

/-! ### Whole runs -/

section
variable {σ ρ : Type*} (next : σ → ρ → σ) (process : σ → Process) (outside : ρ → Outside)

/-- The requests that a run handles from `s` on. -/
def requestsAlong : σ → List ρ → List Request
  | _, [] => []
  | s, r :: rs =>
    (if (process s).Looping then (process (next s r)).handled.map (Request.mk (outside r)) else []) ++
      requestsAlong (next s r) rs

variable {next process outside}

/-- Once the main loop has ended nothing happens any more. -/
theorem process_foldl_ended (hstay : ∀ s r, ¬ (process s).Looping → process (next s r) = process s)
    (rs : List ρ) {s : σ} (h : ¬ (process s).Looping) : process (rs.foldl next s) = process s :=
  foldl_inv (P := fun t => process t = process s)
    (fun t r ht => (hstay t r (ht ▸ h)).trans ht) rs s rfl

/-- RUN: what is written are the answers to the requests, in order; and as long as the main loop goes
    on, every request has passed. -/
theorem written_run (hstay : ∀ s r, ¬ (process s).Looping → process (next s r) = process s)
    (hstep : ∀ s r, (process s).Looping →
      Recorded (outside r) (process s).written (process (next s r))) (rs : List ρ) (s : σ) :
    (process (rs.foldl next s)).written = (process s).written ++
        (requestsAlong next process outside s rs).filterMap Request.addressed ∧
      ((process (rs.foldl next s)).Looping →
        ∀ q ∈ requestsAlong next process outside s rs, q.Passed) := by
  induction rs generalizing s with
  | nil => simp [requestsAlong]
  | cons r rs ih =>
    obtain ⟨hwritten, hpassed⟩ := ih (next s r)
    rw [List.foldl_cons, requestsAlong]
    by_cases hloop : (process s).Looping
    · have hround := hstep s r hloop
      rw [if_pos hloop]
      constructor
      · rw [hwritten, hround.written, List.filterMap_append, List.append_assoc]
      · intro hend q hq
        have hgoing : (process (next s r)).Looping := by
          by_contra hnot
          exact hnot (process_foldl_ended hstay rs hnot ▸ hend)
        rcases List.mem_append.mp hq with hmem | hmem
        · obtain ⟨fd, hfd, rfl⟩ := List.mem_map.mp hmem
          exact hround.passed hgoing fd hfd
        · exact hpassed hend q hmem
    · rw [if_neg hloop, List.nil_append, hwritten, hstay s r hloop]
      exact ⟨rfl, hpassed⟩

end

/-- The requests of one client. -/
def requestsOf (fd : ℤ) (qs : List Request) : List Request := qs.filter (·.sockfd = fd)

/-- All that is read from a descriptor. -/
def heardFrom (fd : ℤ) (qs : List Request) : List UInt8 :=
  ((requestsOf fd qs).map Request.bytes).flatten

/-- No NUL is read from the descriptor, and where a read fills `buff` a NUL stands behind it. -/
def Legible (fd : ℤ) (qs : List Request) : Prop :=
  0 ∉ heardFrom fd qs ∧ ∀ q ∈ qs, q.sockfd = fd → q.bytes.length = 1024 →
    (q.outside.stack fd).head? = some 0

/-- What the answers bring to one descriptor. -/
theorem answers_to (fd : ℤ) (qs : List Request) :
    (((qs.filterMap Request.addressed).filter (·.1 = fd)).map (·.2)).flatten =
      ((requestsOf fd qs).map Request.echo).flatten := by
  induction qs with
  | nil => rfl
  | cons q qs ih =>
    rw [requestsOf] at ih ⊢
    by_cases hfd : q.sockfd = fd
    · rw [List.filter_cons_of_pos (by simpa using hfd), List.map_cons, List.flatten_cons, ← ih]
      cases ha : q.answer with
      | none => simp [Request.addressed, Request.echo, ha]
      | some data => simp [Request.addressed, Request.echo, ha, hfd]
    · rw [List.filter_cons_of_neg (by simpa using hfd), ← ih]
      cases ha : q.answer with
      | none => simp [Request.addressed, ha]
      | some data => simp [Request.addressed, ha, hfd]

/-- Where every request has passed, the echoes are what was read just when it is legible. -/
theorem echo_eq_heard_iff {fd : ℤ} {qs : List Request} (h : ∀ q ∈ qs, q.Passed) :
    ((requestsOf fd qs).map Request.echo).flatten = heardFrom fd qs ↔ Legible fd qs := by
  have hpassed : ∀ q ∈ requestsOf fd qs, q.Passed := fun q hq => h q (List.mem_filter.mp hq).1
  have hbytes : ∀ hnul : 0 ∉ heardFrom fd qs, ∀ q ∈ requestsOf fd qs, 0 ∉ q.bytes :=
    fun hnul q hq hmem => hnul (List.mem_flatten.mpr ⟨q.bytes, List.mem_map_of_mem hq, hmem⟩)
  have hall : ∀ hnul : 0 ∉ heardFrom fd qs,
      (((requestsOf fd qs).map Request.echo).flatten = heardFrom fd qs ↔
        ∀ q ∈ requestsOf fd qs, q.bytes.length = 1024 →
          (q.outside.stack q.sockfd).head? = some 0) := by
    intro hnul
    rw [eq_comm, heardFrom, flatten_eq_iff_of_prefix fun q hq =>
      (hpassed q hq).begins_echo (hbytes hnul q hq)]
    refine forall₂_congr fun q hq => ?_
    rw [eq_comm, (hpassed q hq).echo_eq_iff, and_iff_right (hbytes hnul q hq)]
  have hmem : ∀ hnul : 0 ∉ heardFrom fd qs,
      (((requestsOf fd qs).map Request.echo).flatten = heardFrom fd qs ↔
        ∀ q ∈ qs, q.sockfd = fd → q.bytes.length = 1024 →
          (q.outside.stack fd).head? = some 0) := by
    intro hnul
    rw [hall hnul]
    constructor
    · intro hstack q hq hfd
      exact hfd ▸ hstack q (List.mem_filter.mpr ⟨hq, by simpa using hfd⟩)
    · intro hstack q hq
      obtain ⟨hq, hfd⟩ := List.mem_filter.mp hq
      have hfd : q.sockfd = fd := by simpa using hfd
      exact hfd.symm ▸ hstack q hq hfd
  constructor
  · intro heq
    have hnul : 0 ∉ heardFrom fd qs := by
      rw [← heq]
      intro hzero
      obtain ⟨data, hdata, hzero⟩ := List.mem_flatten.mp hzero
      obtain ⟨q, -, rfl⟩ := List.mem_map.mp hdata
      exact q.nul_not_mem_echo hzero
    exact ⟨hnul, (hmem hnul).mp heq⟩
  · rintro ⟨hnul, hstack⟩
    exact (hmem hnul).mpr hstack

namespace SelectServer

def requestsAlong : SelectServer → List SelectRound → List Request :=
  Servers.requestsAlong SelectServer.next SelectServer.toProcess SelectRound.toOutside

theorem next_ended (s : SelectServer) (r : SelectRound) (h : ¬ s.Looping) :
    (s.next r).toProcess = s.toProcess := by
  rw [SelectServer.next, if_neg h]

end SelectServer

namespace PollServer

def requestsAlong : PollServer → List PollRound → List Request :=
  Servers.requestsAlong PollServer.next PollServer.toProcess PollRound.toOutside

theorem next_ended (s : PollServer) (r : PollRound) (h : ¬ s.Looping) :
    (s.next r).toProcess = s.toProcess := by
  rw [PollServer.next, if_neg h]

end PollServer

/-- What a process has written answers these requests in order; and as long as its main loop goes on,
    a descriptor has been written just what was read from it when that is legible. -/
def Answers (p : Process) (qs : List Request) : Prop :=
  p.written = qs.filterMap Request.addressed ∧
    (p.Looping → ∀ fd, p.echoed fd = heardFrom fd qs ↔ Legible fd qs)

theorem answers_of_run {p : Process} {qs : List Request}
    (hwritten : p.written = [] ++ qs.filterMap Request.addressed)
    (hpassed : p.Looping → ∀ q ∈ qs, q.Passed) : Answers p qs := by
  rw [List.nil_append] at hwritten
  refine ⟨hwritten, fun hloop fd => ?_⟩
  rw [Process.echoed, hwritten, answers_to, echo_eq_heard_iff (hpassed hloop)]

/-- CORRECT: through every run of either server, what is written are the answers to the requests
    handled, in their order, each to the descriptor its request came from; and as long as the main loop
    goes on, what a descriptor has been written is what was read from it, whatever the other clients
    do, just when no NUL was read from it and no full `buff` runs on into the stack. -/
theorem echoes_heard_iff (inherited : List ℤ) (revents : UInt16) (rs : List SelectRound)
    (qs : List PollRound) :
    Answers (rs.foldl SelectServer.next (.start inherited)).toProcess
        ((SelectServer.start inherited).requestsAlong rs) ∧
      Answers (qs.foldl PollServer.next (.start inherited revents)).toProcess
        ((PollServer.start inherited revents).requestsAlong qs) := by
  obtain ⟨hs, hspassed⟩ := written_run SelectServer.next_ended SelectServer.recorded_next rs
    (.start inherited)
  obtain ⟨ht, htpassed⟩ := written_run PollServer.next_ended PollServer.recorded_next qs
    (.start inherited revents)
  exact ⟨answers_of_run hs hspassed, answers_of_run ht htpassed⟩

end UnixIpc.Servers
