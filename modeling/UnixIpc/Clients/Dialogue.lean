import UnixIpc.Clients.TcpClient
import UnixIpc.Servers.Segments

/-! The client and a multiplex server, with the connection between them: two streams of bytes that
    TCP cuts as it likes. Of the server this is what one connection sees of it, `Process.hear`; both
    servers are such a process as long as only this client is ready.

        client ──write──▶ │ … toServer … │ ──read k──▶ server
          ▲ buff                                         │ echo, or stop
          └──────read k── │ … toClient … │ ◀──write──────┘

    The client writes a line and then reads once, whatever that brings. So nothing is lost
    (`echo_stream`), but client and server stay in step only as long as nothing is under way at the
    prompt (`in_step_iff`). -/

namespace UnixIpc.Clients
open UnixIpc.Bytes UnixIpc.Servers UnixIpc.Run

/-- What a read of `buff` brings, of what is under way: at least one byte. -/
def firstBytes (more : ℕ) (pipe : List UInt8) : Chunk :=
  ⟨pipe.take (min (more + 1) 1024), (List.length_take_le _ _).trans (Nat.min_le_right _ _)⟩

/-- The end of the connection. -/
def noBytes : Chunk := ⟨[], nil_length_le⟩

/-- Both ends of the connection, with the chunks the server has read and the bytes under way. -/
structure Dialogue where
  session : Session
  server : Process
  heard : List Chunk
  toServer : List UInt8
  toClient : List UInt8

/-- Who moves: the client types a word and writes it, the server reads and answers, the client reads
    and prints, or its read fails because the server has gone. -/
inductive Event where
  | type (word stack : List UInt8) (accepted : Bool)
  | serve (more : ℕ)
  | fetch (more : ℕ) (stack : List UInt8)
  | reset

/-- The bytes written to a descriptor between two states. -/
def answered (fd : ℤ) (before after : Process) : List UInt8 :=
  (after.echoed fd).drop (before.echoed fd).length

namespace Dialogue

def start (p : Process) : Dialogue := ⟨.start, p, [], [], []⟩

/-- All that the client has written. -/
def sent (d : Dialogue) : List UInt8 := d.session.lines.flatten

/-- All that the client has read. -/
def received (d : Dialogue) : List UInt8 := d.session.fetched.flatten

/-- One move; a read blocks while nothing is under way and the other end is there. -/
def next (fd : ℤ) (d : Dialogue) : Event → Dialogue
  | .type word stack accepted =>
    let session := d.session.next (.type word stack accepted)
    { d with session := session
             toServer := d.toServer ++ (session.lines.drop d.session.lines.length).flatten }
  | .serve more =>
    if d.server.Looping ∧ d.toServer ≠ [] then
      let chunk := firstBytes more d.toServer
      let server := d.server.hear fd chunk
      { d with server := server
               heard := d.heard ++ [chunk]
               toServer := d.toServer.drop chunk.1.length
               toClient := d.toClient ++ answered fd d.server server }
    else d
  | .fetch more stack =>
    if d.toClient ≠ [] ∧ d.session.client.stage = .waiting then
      let chunk := firstBytes more d.toClient
      { d with session := d.session.next (.fetch (some chunk) stack)
               toClient := d.toClient.drop chunk.1.length }
    else if d.server.Looping then d
    else { d with session := d.session.next (.fetch (some noBytes) stack) }
  | .reset =>
    if d.server.Looping then d else { d with session := d.session.next (.fetch none []) }

end Dialogue

/-! ### What the moves do -/

theorem firstBytes_append (more : ℕ) (pipe : List UInt8) :
    (firstBytes more pipe).1 ++ pipe.drop (firstBytes more pipe).1.length = pipe := by
  rw [firstBytes]
  simp only [List.length_take]
  rcases Nat.le_total (min (more + 1) 1024) pipe.length with hle | hle
  · rw [Nat.min_eq_left hle, List.take_append_drop]
  · rw [Nat.min_eq_right hle, List.drop_length, List.append_nil, List.take_of_length_le hle]

theorem firstBytes_ne_nil {pipe : List UInt8} (h : pipe ≠ []) (more : ℕ) :
    (firstBytes more pipe).1 ≠ [] := by
  rw [firstBytes]
  simp [h]

/-- What the server has read and not answered: the command that stopped it. -/
def swallowed (p : Process) : List UInt8 := if p.isRunning then [] else stopCommand

/-- A read with room for a terminator is answered byte for byte, or swallowed. -/
theorem hear_plain {fd : ℤ} {p : Process} (h : p.Looping) {chunk : Chunk} (hne : chunk.1 ≠ [])
    (hlen : chunk.1.length < 1024) (hnul : 0 ∉ chunk.1) :
    (p.hear fd chunk).status = .running ∧
      answered fd p (p.hear fd chunk) ++ swallowed (p.hear fd chunk) = chunk.1 := by
  rw [Process.hear, if_pos h, reply_plain hne hlen hnul]
  by_cases hstop : chunk.1 = stopCommand
  · rw [if_pos hstop]
    refine ⟨h.2, ?_⟩
    rw [hstop, answered, swallowed]
    simp [Process.respond, Process.echoed]
  · rw [if_neg hstop]
    refine ⟨h.2, ?_⟩
    rw [answered, swallowed]
    simp [Process.respond, Process.echoed, h.1]

/-- A read that fills `buff` is scanned beyond it. -/
theorem hear_full {fd : ℤ} {p : Process} (h : p.Looping) {chunk : Chunk} (hne : chunk.1 ≠ [])
    (hlen : ¬ chunk.1.length < 1024) (hnul : 0 ∉ chunk.1) : (p.hear fd chunk).status ≠ .running := by
  have hscan : ¬ ScansInside chunk := fun hscan => (scansInside_iff.mp hscan).elim hlen hnul
  have hstring : cString ((buff chunk).1 ++ []) = none := by
    rw [List.append_nil]
    exact Option.not_isSome_iff_eq_none.mp hscan
  have hover : reply (some chunk) [] = .overrun := by
    simp only [reply, if_neg hne, hstring]
  rw [Process.hear, if_pos h, hover]
  simp [Process.respond]

namespace Dialogue
variable {fd : ℤ} {p : Process} {d : Dialogue}

/-- No read of the server has filled `buff`. -/
def Short (d : Dialogue) : Prop := ∀ c ∈ d.heard, c.1.length < 1024

/-- INVARIANT: what the client has written it has read again, or it is under way to it, was swallowed,
    or is under way to the server, in this order; and a client that waits has something to come. -/
structure Flows (fd : ℤ) (p : Process) (d : Dialogue) : Prop where
  server : d.server = d.heard.foldl (Process.hear fd) p
  chunk : ∀ c ∈ d.heard, c.1 ≠ []
  nul : 0 ∉ d.sent
  status : d.server.status = .running ↔ d.Short
  content : d.Short → d.received ++ d.toClient ++ swallowed d.server ++ d.toServer = d.sent
  waiting : d.Short → d.session.client.stage = .waiting → d.received.length < d.sent.length

theorem flows_start (h : p.Looping) : (start p).Flows fd p where
  server := rfl
  chunk := by simp [start]
  nul := by simp [start, sent, Session.start]
  status := iff_of_true h.2 (by simp [start, Short])
  content _ := by simp [start, sent, received, Session.start, swallowed, h.1]
  waiting _ hw := by simp [start, Session.start, TcpClient.start] at hw

theorem Flows.type (h : d.Flows fd p) (word stack : List UInt8) (accepted : Bool) :
    (d.next fd (.type word stack accepted)).Flows fd p := by
  rcases d.session.next_type word stack accepted with hsame | ⟨hfetched, htyping, hlines⟩
  · have hto : d.toServer ++ ((d.session.next (.type word stack accepted)).lines.drop
        d.session.lines.length).flatten = d.toServer := by
      rw [hsame, List.drop_length, List.flatten_nil, List.append_nil]
    rw [Dialogue.next]
    simp only [hto]
    rw [hsame]
    exact h
  have hreceived : (d.next fd (.type word stack accepted)).received = d.received :=
    congrArg List.flatten hfetched
  rcases hlines with ⟨hsame, hstage⟩ | ⟨-, line, hne, hnul, hline⟩
  · have hsent : (d.next fd (.type word stack accepted)).sent = d.sent :=
      congrArg List.flatten hsame
    have hto : (d.next fd (.type word stack accepted)).toServer = d.toServer := by
      simp only [Dialogue.next, hsame, List.drop_length, List.flatten_nil, List.append_nil]
    refine ⟨h.server, h.chunk, hsent ▸ h.nul, h.status, fun hshort => ?_,
      fun _ hw => absurd hw hstage⟩
    rw [hreceived, hsent, hto]
    exact h.content hshort
  · have hsent : (d.next fd (.type word stack accepted)).sent = d.sent ++ line := by
      change (d.session.next _).lines.flatten = d.session.lines.flatten ++ line
      rw [hline, List.flatten_append, List.flatten_singleton]
    have hto : (d.next fd (.type word stack accepted)).toServer = d.toServer ++ line := by
      simp only [Dialogue.next, hline, List.drop_left, List.flatten_singleton]
    refine ⟨h.server, h.chunk, ?_, h.status, fun hshort => ?_, fun hshort _ => ?_⟩
    · rw [hsent, List.mem_append, not_or]
      exact ⟨h.nul, hnul⟩
    · rw [hreceived, hsent, hto, ← h.content hshort]
      exact (List.append_assoc ..).symm
    · have hle := congrArg List.length (h.content hshort)
      have hpos := List.length_pos_of_ne_nil hne
      rw [hreceived, hsent, List.length_append, ← hle]
      simp only [List.length_append]
      omega

theorem Flows.serve (h : d.Flows fd p) (more : ℕ) : (d.next fd (.serve more)).Flows fd p := by
  rw [Dialogue.next]
  split
  case isFalse => exact h
  case isTrue hgo =>
    obtain ⟨hloop, hsome⟩ := hgo
    obtain ⟨chunk, hchunk⟩ : ∃ chunk, chunk = firstBytes more d.toServer := ⟨_, rfl⟩
    have hne : chunk.1 ≠ [] := hchunk ▸ firstBytes_ne_nil hsome more
    have hcut : chunk.1 ++ d.toServer.drop chunk.1.length = d.toServer :=
      hchunk ▸ firstBytes_append more d.toServer
    simp only [← hchunk]
    have hback : (∀ c ∈ d.heard ++ [chunk], c.1.length < 1024) →
        d.Short ∧ chunk.1.length < 1024 := fun hshort =>
      ⟨fun c hc => hshort c (List.mem_append_left _ hc),
        hshort chunk (List.mem_append_right _ (List.mem_singleton.mpr rfl))⟩
    have hnul : d.Short → 0 ∉ chunk.1 := by
      intro hshort hmem
      refine h.nul (h.content hshort ▸ List.mem_append_right _ ?_)
      exact hcut ▸ List.mem_append_left _ hmem
    refine ⟨?_, ?_, h.nul, ⟨fun hrun => ?_, fun hshort => ?_⟩, fun hshort => ?_,
      fun hshort => h.waiting (hback hshort).1⟩
    · rw [List.foldl_append, ← h.server]
      rfl
    · intro c hc
      rcases List.mem_append.mp hc with hmem | hmem
      · exact h.chunk c hmem
      · exact List.mem_singleton.mp hmem ▸ hne
    · have hshort : d.Short := h.status.mp hloop.2
      intro c hc
      rcases List.mem_append.mp hc with hmem | hmem
      · exact hshort c hmem
      · rw [List.mem_singleton.mp hmem]
        by_contra hlen
        exact hear_full hloop hne hlen (hnul hshort) hrun
    · obtain ⟨hshort, hlen⟩ := hback hshort
      exact (hear_plain hloop hne hlen (hnul hshort)).1
    · obtain ⟨hshort, hlen⟩ := hback hshort
      have hanswer : answered fd d.server (d.server.hear fd chunk) ++
          swallowed (d.server.hear fd chunk) = chunk.1 :=
        (hear_plain hloop hne hlen (hnul hshort)).2
      have hold : swallowed d.server = [] := by rw [swallowed, hloop.1]; rfl
      change d.received ++ (d.toClient ++ answered fd d.server (d.server.hear fd chunk)) ++
        swallowed (d.server.hear fd chunk) ++ d.toServer.drop chunk.1.length = d.sent
      calc d.received ++ (d.toClient ++ answered fd d.server (d.server.hear fd chunk)) ++
            swallowed (d.server.hear fd chunk) ++ d.toServer.drop chunk.1.length
          = d.received ++ d.toClient ++ (answered fd d.server (d.server.hear fd chunk) ++
              swallowed (d.server.hear fd chunk) ++ d.toServer.drop chunk.1.length) := by
            simp only [List.append_assoc]
        _ = d.received ++ d.toClient ++ swallowed d.server ++ d.toServer := by
            rw [hanswer, hcut, hold, List.append_nil]
        _ = d.sent := h.content hshort

/-- The client reads a chunk that was under way. -/
theorem Flows.take (h : d.Flows fd p) (hw : d.session.client.stage = .waiting) {chunk : Chunk}
    {rest stack : List UInt8} (hcut : chunk.1 ++ rest = d.toClient) :
    ({ d with session := d.session.next (.fetch (some chunk) stack)
              toClient := rest } : Dialogue).Flows fd p := by
  obtain ⟨hfetched, hlines, hstage⟩ := d.session.next_fetch chunk stack hw
  have hsent : (d.session.next (.fetch (some chunk) stack)).lines.flatten = d.sent :=
    congrArg List.flatten hlines
  refine ⟨h.server, h.chunk, ?_, h.status, fun hshort => ?_, fun _ hw' => absurd hw' hstage⟩
  · exact fun hmem => h.nul (hsent ▸ hmem)
  · change (d.session.next (.fetch (some chunk) stack)).fetched.flatten ++ rest ++
      swallowed d.server ++ d.toServer = (d.session.next (.fetch (some chunk) stack)).lines.flatten
    rw [hsent, ← h.content hshort, hfetched, List.flatten_append, List.flatten_singleton, ← hcut,
      received]
    simp only [List.append_assoc]

/-- Nothing happens to a client that does not wait. -/
theorem fetch_idle (s : Session) (chunk : Option Chunk) (stack : List UInt8)
    (h : s.client.stage ≠ .waiting) : s.next (.fetch chunk stack) = s := if_neg h

theorem Flows.fetch (h : d.Flows fd p) (more : ℕ) (stack : List UInt8) :
    (d.next fd (.fetch more stack)).Flows fd p := by
  rw [Dialogue.next]
  split
  case isTrue hgo => exact h.take hgo.2 (firstBytes_append more d.toClient)
  case isFalse hgo =>
    split
    · exact h
    · by_cases hw : d.session.client.stage = .waiting
      · have hempty : d.toClient = [] := by
          by_contra hne
          exact hgo ⟨hne, hw⟩
        have hcut : noBytes.1 ++ d.toClient = d.toClient := rfl
        exact h.take hw hcut
      · rw [fetch_idle _ _ _ hw]
        exact h

theorem Flows.reset (h : d.Flows fd p) : (d.next fd .reset).Flows fd p := by
  rw [Dialogue.next]
  split
  · exact h
  · rw [Session.next]
    split
    · refine ⟨h.server, h.chunk, h.nul, h.status, fun hshort => ?_, fun _ hw => ?_⟩
      · simpa [received, sent] using h.content hshort
      · simp [TcpClient.receive] at hw
    · exact h

theorem Flows.next (h : d.Flows fd p) (e : Event) : (d.next fd e).Flows fd p := by
  cases e with
  | type word stack accepted => exact h.type word stack accepted
  | serve more => exact h.serve more
  | fetch more stack => exact h.fetch more stack
  | reset => exact h.reset

/-- A client that waits for a running server has something to come. -/
theorem Flows.not_stuck (h : d.Flows fd p) (hw : d.session.client.stage = .waiting)
    (hloop : d.server.Looping) : d.toClient ≠ [] ∨ d.toServer ≠ [] := by
  have hshort : d.Short := h.status.mp hloop.2
  have hlen := congrArg List.length (h.content hshort)
  have hlt := h.waiting hshort hw
  have hswallowed : swallowed d.server = [] := by rw [swallowed, hloop.1]; rfl
  rw [hswallowed] at hlen
  simp only [List.length_append, List.length_nil] at hlen
  by_contra hnone
  rw [not_or, not_not, not_not] at hnone
  rw [hnone.1, hnone.2, List.length_nil] at hlen
  omega

theorem flows_run (h : p.Looping) (events : List Event) :
    (events.foldl (Dialogue.next fd) (start p)).Flows fd p :=
  foldl_inv (fun _ e hd => hd.next e) events (start p) (flows_start h)

/-- The select server of a run, in its rounds with this client alone. -/
theorem Flows.select (h : d.Flows fd p) (hrun : d.server.status = .running) {inherited : List ℤ}
    {rs : List SelectRound} {s : SelectServer} (hs : s = rs.foldl SelectServer.next (.start inherited))
    (hdef : s.defined = true) (hmem : fd ∈ s.clients) (hp : s.toProcess = p) (o : Outside) :
    ((d.heard.map (SelectServer.sends o fd)).foldl SelectServer.next s).toProcess = d.server := by
  have hgood : s.Good := hs ▸ SelectServer.good_of_defined rs (hs ▸ hdef)
  have hsize : ∀ c ∈ d.heard, c.1 ≠ [] ∧ c.1.length < 1024 := fun c hc =>
    ⟨h.chunk c hc, h.status.mp hrun c hc⟩
  rw [hgood.foldl_sends hmem hsize, hp, h.server]

/-- The poll server of a run, in its rounds with this client alone. -/
theorem Flows.poll (h : d.Flows fd p) (hrun : d.server.status = .running) {inherited : List ℤ}
    {revents : UInt16} {qs : List PollRound} {t : PollServer}
    (ht : t = qs.foldl PollServer.next (.start inherited revents)) {k : ℕ} (hk : 1 ≤ k)
    (hget : t.fds[k]? = some fd) (hp : t.toProcess = p) (o : Outside) :
    ((d.heard.map (PollServer.sends o k fd)).foldl PollServer.next t).toProcess = d.server := by
  have hkept : t.Kept := ht ▸
    foldl_inv (fun _ q h => h.next q) qs _ (PollServer.start_kept inherited revents)
  have hsize : ∀ c ∈ d.heard, c.1 ≠ [] ∧ c.1.length < 1024 := fun c hc =>
    ⟨h.chunk c hc, h.status.mp hrun c hc⟩
  rw [hkept.foldl_sends hk hget hsize, hp, h.server]

/-- CORRECT: in every interleaving of client and server, with whatever words and however TCP cuts the
    two streams, the server stays defined just when none of its reads fills `buff`; and then what the
    client has written is, in order, what it has read again, what is under way to it, the command
    that stopped the server, if any, and what is under way to the server. A client that waits for a
    running server has something to come; and the server is either multiplex server at whatever
    point of a run. -/
theorem echo_stream (fd : ℤ) (p : Process) (hloop : p.Looping) (events : List Event) :
    let d := events.foldl (Dialogue.next fd) (start p)
    (d.server.status = .running ↔ ∀ c ∈ d.heard, c.1.length < 1024) ∧
      (d.server.status = .running →
        d.received ++ d.toClient ++ swallowed d.server ++ d.toServer = d.sent ∧
        (d.session.client.stage = .waiting → d.server.Looping →
          d.toClient ≠ [] ∨ d.toServer ≠ []) ∧
        (∀ inherited (rs : List SelectRound) s,
          s = rs.foldl SelectServer.next (.start inherited) → s.defined = true → fd ∈ s.clients →
          s.toProcess = p → ∀ o,
            ((d.heard.map (SelectServer.sends o fd)).foldl SelectServer.next s).toProcess =
              d.server) ∧
        (∀ inherited revents (qs : List PollRound) t,
          t = qs.foldl PollServer.next (.start inherited revents) →
          ∀ k, 1 ≤ k → t.fds[k]? = some fd → t.toProcess = p → ∀ o,
            ((d.heard.map (PollServer.sends o k fd)).foldl PollServer.next t).toProcess =
              d.server)) := by
  intro d
  have h : d.Flows fd p := flows_run hloop events
  refine ⟨h.status, fun hrun => ⟨h.content (h.status.mp hrun), h.not_stuck, ?_, ?_⟩⟩
  · intro inherited rs s hs hdef hmem hp o
    exact h.select hrun hs hdef hmem hp o
  · intro inherited revents qs t ht k hk hget hp o
    exact h.poll hrun ht hk hget hp o

/-- "hi" goes to the server and comes back. -/
def oneExchange : List Event := [.type (ascii "hi") [] true, .serve 9, .fetch 9 []]

theorem echo_stream_oneExchange :
    let d := oneExchange.foldl (Dialogue.next 4) (start selectConnected.toProcess)
    d.received ++ d.toClient ++ swallowed d.server ++ d.toServer = d.sent ∧
      ((d.heard.map (SelectServer.sends .comeAndGo 4)).foldl SelectServer.next
        selectConnected).toProcess = d.server := by
  intro d
  obtain ⟨hcontent, -, hselect, -⟩ :=
    (echo_stream 4 selectConnected.toProcess (by decide) oneExchange).2 (by decide +kernel)
  exact ⟨hcontent, hselect [0, 1, 2] _ selectConnected rfl (by decide) (by decide) rfl .comeAndGo⟩

/-! ### In step -/

/-- Each read has brought the echo of the line before it, whole and alone. -/
def InStep (d : Dialogue) : Prop := d.session.fetched <+: d.session.lines

/-- Unless the client waits, nothing is under way. -/
def Quiet (d : Dialogue) : Prop :=
  d.session.client.stage ≠ .waiting → d.toClient = [] ∧ d.toServer = []

/-- As long as the server runs, every line but the one waited for has had its read. -/
def Even (d : Dialogue) : Prop :=
  d.server.Looping → d.session.lines.length =
    d.session.fetched.length + if d.session.client.stage = .waiting then 1 else 0

/-- A server that has ended stays so. -/
theorem looping_of_next {e : Event} (h : (d.next fd e).server.Looping) : d.server.Looping := by
  cases e with
  | type word stack accepted => exact h
  | serve more =>
    by_contra hnot
    rw [Dialogue.next, if_neg fun hgo => hnot hgo.1] at h
    exact hnot h
  | fetch more stack =>
    rw [Dialogue.next] at h
    split at h
    · exact h
    · split at h <;> exact h
  | reset =>
    rw [Dialogue.next] at h
    split at h <;> exact h

theorem looping_of_foldl (events : List Event) {d : Dialogue}
    (h : (events.foldl (Dialogue.next fd) d).server.Looping) : d.server.Looping := by
  induction events generalizing d with
  | nil => exact h
  | cons e events ih => exact looping_of_next (ih h)

/-- What one move does to the session while the server runs: nothing, or the client types at its
    prompt, or a read ends its wait. -/
theorem next_session {e : Event} (h : (d.next fd e).server.Looping) :
    (d.next fd e).session = d.session ∨
      (d.next fd e).session.fetched = d.session.fetched ∧ d.session.client.stage = .typing ∧
        ((d.next fd e).session.lines = d.session.lines ∧
            (d.next fd e).session.client.stage ≠ .waiting ∨
          (d.next fd e).session.client.stage = .waiting ∧
            ∃ line, (d.next fd e).session.lines = d.session.lines ++ [line]) ∨
      d.session.client.stage = .waiting ∧ (d.next fd e).session.client.stage ≠ .waiting ∧
        (d.next fd e).session.lines = d.session.lines ∧
        ∃ chunk, (d.next fd e).session.fetched = d.session.fetched ++ [chunk] := by
  have hloop := looping_of_next h
  cases e with
  | type word stack accepted =>
    rcases d.session.next_type word stack accepted with hsame | ⟨hfetched, htyping, hlines⟩
    · exact .inl hsame
    · refine .inr (.inl ⟨hfetched, htyping, hlines.imp_right ?_⟩)
      rintro ⟨hwaiting, line, -, -, hline⟩
      exact ⟨hwaiting, line, hline⟩
  | serve more =>
    rw [Dialogue.next]
    split <;> exact .inl rfl
  | fetch more stack =>
    rw [Dialogue.next]
    split
    case isTrue hgo =>
      obtain ⟨hfetched, hlines, hstage⟩ :=
        d.session.next_fetch (firstBytes more d.toClient) stack hgo.2
      exact .inr (.inr ⟨hgo.2, hstage, hlines, _, hfetched⟩)
    case isFalse => exact .inl rfl
  | reset =>
    rw [Dialogue.next, if_pos hloop]
    exact .inl rfl

theorem Even.next (h : d.Even) (e : Event) : (d.next fd e).Even := by
  intro hloop
  have heven := h (looping_of_next hloop)
  rcases next_session hloop with hsame | ⟨hfetched, htyping, hlines⟩ |
    ⟨hwaiting, hstage, hlines, chunk, hfetched⟩
  · rw [hsame]
    exact heven
  · rw [if_neg (by simp [htyping])] at heven
    rcases hlines with ⟨hlines, hstage⟩ | ⟨hstage, line, hlines⟩
    · rw [hfetched, hlines, if_neg hstage]
      exact heven
    · rw [hfetched, hlines, if_pos hstage, List.length_append, heven]
      rfl
  · rw [if_pos hwaiting] at heven
    rw [hlines, hfetched, if_neg hstage, List.length_append, heven]
    rfl

/-- Where the client does not wait, in step is even, byte for byte. -/
theorem InStep.quiet (h : d.InStep) (hflows : d.Flows fd p) (heven : d.Even)
    (hloop : d.server.Looping) : d.Quiet := by
  intro hstage
  have hlen := heven hloop
  rw [if_neg hstage, Nat.add_zero] at hlen
  have hsame : d.received = d.sent := congrArg List.flatten (h.eq_of_length hlen.symm)
  have hcontent := congrArg List.length (hflows.content (hflows.status.mp hloop.2))
  rw [hsame] at hcontent
  simp only [List.length_append] at hcontent
  exact ⟨List.eq_nil_of_length_eq_zero (by omega), List.eq_nil_of_length_eq_zero (by omega)⟩

/-- STEP: from a state in step, the next is in step just when it is quiet. -/
theorem InStep.next_iff {e : Event} (h : d.InStep) (heven : d.Even)
    (hflows : (d.next fd e).Flows fd p) (hloop : (d.next fd e).server.Looping) :
    (d.next fd e).Quiet ↔ (d.next fd e).InStep := by
  refine ⟨fun hquiet => ?_, fun hstep => hstep.quiet hflows (heven.next e) hloop⟩
  rcases next_session hloop with hsame | ⟨hfetched, -, hlines⟩ |
    ⟨hwaiting, hstage, hlines, chunk, hfetched⟩
  · rw [InStep, hsame]
    exact h
  · rw [InStep, hfetched]
    rcases hlines with ⟨hlines, -⟩ | ⟨-, line, hlines⟩
    · rw [hlines]
      exact h
    · rw [hlines]
      exact h.trans (List.prefix_append ..)
  · obtain ⟨rest, hrest⟩ := h
    have hone : rest.length = 1 := by
      have hlen := heven (looping_of_next hloop)
      rw [if_pos hwaiting, ← hrest, List.length_append] at hlen
      omega
    obtain ⟨line, rfl⟩ := List.length_eq_one_iff.mp hone
    obtain ⟨hclient, hserver⟩ := hquiet hstage
    have hcontent := hflows.content (hflows.status.mp hloop.2)
    have hswallowed : swallowed (d.next fd e).server = [] := by rw [swallowed, hloop.1]; rfl
    rw [hclient, hserver, hswallowed, received, sent, hfetched, hlines, ← hrest] at hcontent
    have hchunk : chunk = line := by simpa using hcontent
    rw [InStep, hfetched, hlines, ← hrest, hchunk]

/-- Lines and chunks are only added. -/
theorem grows (events : List Event) {d : Dialogue}
    (hloop : (events.foldl (Dialogue.next fd) d).server.Looping) :
    d.session.fetched <+: (events.foldl (Dialogue.next fd) d).session.fetched ∧
      d.session.lines <+: (events.foldl (Dialogue.next fd) d).session.lines := by
  induction events generalizing d with
  | nil => exact ⟨List.prefix_rfl, List.prefix_rfl⟩
  | cons e events ih =>
    have hnext : (d.next fd e).server.Looping := looping_of_foldl events hloop
    obtain ⟨hfetched, hlines⟩ := ih hloop
    rw [List.foldl_cons]
    rcases next_session hnext with hsame | ⟨hf, -, hl⟩ | ⟨-, -, hl, chunk, hf⟩
    · rw [hsame] at hfetched hlines
      exact ⟨hfetched, hlines⟩
    · rw [hf] at hfetched
      refine ⟨hfetched, List.IsPrefix.trans ?_ hlines⟩
      rcases hl with ⟨hl, -⟩ | ⟨-, line, hl⟩
      · rw [hl]
      · rw [hl]
        exact List.prefix_append ..
    · rw [hl] at hlines
      refine ⟨List.IsPrefix.trans ?_ hfetched, hlines⟩
      rw [hf]
      exact List.prefix_append ..

/-- In step at the end is in step before. -/
theorem InStep.of_foldl {events : List Event}
    (h : (events.foldl (Dialogue.next fd) d).InStep) (heven : d.Even)
    (hloop : (events.foldl (Dialogue.next fd) d).server.Looping) : d.InStep := by
  obtain ⟨hfetched, hlines⟩ := grows events hloop
  refine List.prefix_of_prefix_length_le (hfetched.trans h) hlines ?_
  rw [heven (looping_of_foldl events hloop)]
  exact Nat.le_add_right ..

/-- RUN: by induction on the moves, from a state in step. -/
theorem quiet_along_iff (events : List Event) {d : Dialogue} (hflows : d.Flows fd p)
    (heven : d.Even) (hstep : d.InStep)
    (hloop : (events.foldl (Dialogue.next fd) d).server.Looping) :
    Along (Dialogue.next fd) Quiet d events ↔ (events.foldl (Dialogue.next fd) d).InStep := by
  have hquiet : d.Quiet := hstep.quiet hflows heven (looping_of_foldl events hloop)
  induction events generalizing d with
  | nil => exact iff_of_true hquiet hstep
  | cons e events ih =>
    have hnext : (d.next fd e).server.Looping := looping_of_foldl events hloop
    have hiff := hstep.next_iff heven (hflows.next e) hnext
    rw [Along, and_iff_right hquiet]
    by_cases hgood : (d.next fd e).InStep
    · exact ih (hflows.next e) (heven.next e) hgood hloop (hiff.mpr hgood)
    · refine iff_of_false (fun halong => hgood (hiff.mp halong.head)) fun hend => hgood ?_
      exact InStep.of_foldl hend (heven.next e) hloop

/-- CORRECT: in every interleaving and however the streams are cut, as long as the server goes on, each
    read of the client has brought the echo of its own line, whole and alone, exactly when in no state
    of the run anything was under way while the client was not waiting. -/
theorem in_step_iff (fd : ℤ) (p : Process) (events : List Event)
    (hloop : (events.foldl (Dialogue.next fd) (start p)).server.Looping) :
    (events.foldl (Dialogue.next fd) (start p)).InStep ↔
      Along (Dialogue.next fd) Quiet (start p) events := by
  have hstart : p.Looping := looping_of_foldl events hloop
  have heven : (start p).Even := fun _ => rfl
  exact (quiet_along_iff events (flows_start hstart) heven List.prefix_rfl hloop).symm

theorem in_step_iff_oneExchange :
    (oneExchange.foldl (Dialogue.next 4) (start selectConnected.toProcess)).InStep ↔
      Along (Dialogue.next 4) Quiet (start selectConnected.toProcess) oneExchange :=
  in_step_iff 4 selectConnected.toProcess oneExchange (by decide +kernel)

/-- The line is cut on its way back: one byte is read, the rest is still under way at the prompt, and
    the line is printed all the same. -/
def cutExchange : List Event := [.type (ascii "hi") [] true, .serve 9, .fetch 0 []]

example : (cutExchange.foldl (Dialogue.next 4) (start selectConnected.toProcess)).toClient =
      ascii "i\r\n" ∧
    (cutExchange.foldl (Dialogue.next 4) (start selectConnected.toProcess)).session.client.printed =
      [ascii "hi\r\n"] := by
  decide +kernel

end Dialogue

end UnixIpc.Clients
