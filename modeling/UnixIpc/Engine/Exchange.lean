import UnixIpc.Engine.Delivery
import UnixIpc.Engine.Connections
import UnixIpc.Engine.Sender

/-! A `TcpReceiver` with its connections: whoever is at the other end of one writes into a stream of
    bytes, which TCP cuts as it likes, and goes at any time.

        peer ──write──▶ │ … toReceiver … │ ──read k──▶ entry of messages_
        peer ──write──▶ │ … toReceiver … │ ──read k──▶ entry of messages_
                                            in the order of poll

    Peers and receiver take turns in any order. No byte gets lost, doubled or into the wrong entry
    (`stream_kept`). But a `TcpSender` writes none, and so the entries are those of streams that have
    ended (`nothing_arrives`), of which one makes any number of them (`gone_fills`). -/

namespace UnixIpc.Engine
open UnixIpc.Descriptors UnixIpc.Links UnixIpc.Run

/-- The receiver at address 0, and its connections by descriptor. -/
structure Exchange (Capacity : ℕ) where
  receivers : Receivers Capacity
  links : ℤ → Option (Link UInt8)

/-- Whose turn it is: a peer writes or goes, or the receiver polls. -/
inductive ExchangeEvent (Capacity : ℕ) where
  | write (fd : ℤ) (bytes : List UInt8)
  | hangUp (fd : ℤ)
  | poll (p : ReceiverPoll Capacity)

/-- What a read has brought, under the descriptor. -/
def ReadCall.chunk {Capacity : ℕ} (c : ReadCall Capacity) : ℤ × List UInt8 := (c.socket.fd, c.bytes)

namespace Exchange
variable {Capacity : ℕ}

def start (tcpListener : TcpListener) : Exchange Capacity := ⟨.start tcpListener, fun _ => none⟩

/-- What a read of session `i` returns: it fails, or takes some of the bytes under way. -/
def incoming (x : Exchange Capacity) (a : Acceptor ℕ) (i : ℕ) (wanted : ReadBytes Capacity) :
    ReadBytes Capacity :=
  match a.link x.links i, wanted with
  | some l, some bytes => some ⟨l.chunk Capacity bytes.1.length, l.length_chunk_le _ _⟩
  | _, _ => none

/-- The poll as the kernel answers it. -/
def onLinks (x : Exchange Capacity) (a : Acceptor ℕ) (p : ReceiverPoll Capacity) :
    ReceiverPoll Capacity where
  revents := p.revents.map (a.onLinks x.links)
  accepted := freeAnswer x.receivers.world.openFds p.accepted
  read := fun i => x.incoming a i (p.read i)

def next (x : Exchange Capacity) : ExchangeEvent Capacity → Exchange Capacity
  | .write fd bytes => { x with links := modify x.links fd (·.write bytes) }
  | .hangUp fd => { x with links := modify x.links fd Link.hangUp }
  | .poll p =>
    match x.receivers.world.acceptors 0 with
    | none => x
    | some a =>
      let q := x.onLinks a p
      { receivers := x.receivers.next q
        links := turn x.links ((x.receivers.readsOf 0 q).map ReadCall.chunk)
          ((x.receivers.world.pass 0 (q.onAcceptor a)).admitted.map (·.fd)) }

end Exchange

/-! ### The reads of one turn -/

theorem called_sublist {H : Type} (live : ℕ → Bool) (accepted : ℤ)
    (ds : List (ℕ × TcpSession H)) : (called live accepted ds).Sublist ds := by
  induction ds with
  | nil => exact List.Sublist.refl _
  | cons d ds ih =>
    rw [called]
    split
    · exact ih.cons_cons d
    · exact (List.nil_sublist ds).cons_cons d

namespace Receivers
variable {Capacity : ℕ} {s : Receivers Capacity} {a : Acceptor ℕ} {p : ReceiverPoll Capacity}

/-- The sessions called in a turn are sessions of the acceptor, each once. -/
theorem calls_sublist (ha : s.world.acceptors 0 = some a) :
    ((s.calls 0 p).map Prod.snd).Sublist a.tcpSessions := by
  rw [calls, ha]
  cases p.revents with
  | none => exact List.nil_sublist _
  | some revents =>
    exact ((called_sublist _ _ _).map Prod.snd).trans (dueFrom_sublist _ (a.polled revents).tcpSessions 0)

/-- A session that is called has been reported. -/
theorem revents_of_calls (ha : s.world.acceptors 0 = some a) (hal : a.Aligned)
    {d : ℕ × TcpSession ℕ} (hd : d ∈ s.calls 0 p) :
    ∃ revents, p.revents = some revents ∧ revents d.1 = pollRdNorm := by
  cases hr : p.revents with
  | none =>
    rw [calls, ha, hr] at hd
    exact absurd hd List.not_mem_nil
  | some revents =>
    rw [calls, ha, hr] at hd
    have hdue := (called_sublist _ _ _).subset hd
    exact ⟨revents, rfl, ((mem_due_polled (p := ⟨0, revents, p.answers⟩) hal).mp hdue).2⟩

/-- A turn reads from clients, at most once from each. -/
theorem Unmoved.reads_of_turn (h : s.Unmoved) (ha : s.world.acceptors 0 = some a)
    (hal : a.Aligned) (hdistinct : a.sessionFds.Nodup) :
    ((s.readsOf 0 p).map (·.socket.fd)).Nodup ∧
      ∀ c ∈ s.readsOf 0 p, ∃ i session, 0 < i ∧ a.tcpSessions[i]? = some session ∧
        c = ⟨0, session.socket, p.read i⟩ ∧
        ∃ revents, p.revents = some revents ∧ revents i = pollRdNorm := by
  have hreads : s.readsOf 0 p = ((s.calls 0 p).filter (·.1 ≠ 0)).map fun d =>
      ⟨0, d.2.socket, p.read d.1⟩ := by
    rw [readsOf, ← List.filterMap_eq_map, List.filterMap_filter]
    refine List.filterMap_congr fun d hd => ?_
    rw [h.callback_eq hd]
    by_cases hzero : d.1 = 0 <;> simp [hzero]
  constructor
  · have hfds : ((s.readsOf 0 p).map (·.socket.fd)).Sublist a.sessionFds := by
      rw [hreads, List.map_map]
      have hsub := (List.filter_sublist (p := fun d => decide (d.1 ≠ 0)) (l := s.calls 0 p)).map
        fun d => d.2.socket.fd
      refine hsub.trans ?_
      have hall := (calls_sublist (p := p) ha).map (·.socket.fd)
      rw [List.map_map] at hall
      exact hall
    exact hfds.nodup hdistinct
  · intro c hc
    rw [hreads] at hc
    obtain ⟨d, hd, rfl⟩ := List.mem_map.mp hc
    obtain ⟨hd, hzero⟩ := List.mem_filter.mp hd
    exact ⟨d.1, d.2, Nat.pos_of_ne_zero (of_decide_eq_true hzero),
      (dispatched_eq ha hal).2.2 d hd, rfl, revents_of_calls ha hal hd⟩

/-- The reads, under their descriptors: none twice, and each got what the poll has for its session. -/
theorem Unmoved.chunks_of_turn (h : s.Unmoved) (ha : s.world.acceptors 0 = some a)
    (hal : a.Aligned) (hdistinct : a.sessionFds.Nodup) :
    (((s.readsOf 0 p).map ReadCall.chunk).map Prod.fst).Nodup ∧
      ∀ r ∈ (s.readsOf 0 p).map ReadCall.chunk, ∃ i session, 0 < i ∧
        a.tcpSessions[i]? = some session ∧ r = ReadCall.chunk ⟨0, session.socket, p.read i⟩ ∧
        ∃ revents, p.revents = some revents ∧ revents i = pollRdNorm := by
  obtain ⟨hnodup, hreads⟩ := h.reads_of_turn (p := p) ha hal hdistinct
  refine ⟨?_, ?_⟩
  · rw [List.map_map]
    exact hnodup
  · intro r hr
    obtain ⟨c, hc, rfl⟩ := List.mem_map.mp hr
    obtain ⟨i, session, hpos, hs, rfl, hready⟩ := hreads c hc
    exact ⟨i, session, hpos, hs, rfl, hready⟩

end Receivers

/-! ### Conservation -/

namespace Exchange
variable {Capacity : ℕ} {x : Exchange Capacity}

/-- INVARIANT: no byte is lost or doubled between the peers and the reads. -/
structure Kept (x : Exchange Capacity) : Prop where
  unmoved : x.receivers.Unmoved
  wired : ∃ a, x.receivers.world.acceptors 0 = some a ∧ Tidy 0 x.receivers.world.openFds a ∧
    Wired x.receivers.world.openFds a x.links
  conserved : Conserved x.links (x.receivers.reads.map ReadCall.chunk)

theorem start_kept (tcpListener : TcpListener) : (start tcpListener : Exchange Capacity).Kept where
  unmoved := Receivers.start_unmoved tcpListener
  wired := by
    refine ⟨_, rfl, ⟨⟨0, [], rfl, rfl, by simp⟩, tcpListener.listening, rfl, ?_, ?_⟩, ?_⟩
    · exact List.nodup_singleton _
    · intro fd hfd
      exact hfd
    · exact wired_none le_rfl
  conserved := conserved_none

/-- A peer's move changes one link, and keeps what it says. -/
theorem Kept.modify (h : x.Kept) (fd : ℤ) {f : Link UInt8 → Link UInt8}
    (hf : ∀ l front, front ++ l.toReceiver = l.sent → front ++ (f l).toReceiver = (f l).sent) :
    ({ x with links := Links.modify x.links fd f } : Exchange Capacity).Kept := by
  obtain ⟨a, ha, htidy, hwired⟩ := h.wired
  exact ⟨h.unmoved, ⟨a, ha, htidy, hwired.modify fd f⟩, h.conserved.modify fd hf⟩

/-- A poll, piece by piece: its reads, and the connections it takes in. -/
theorem Kept.poll_eq (h : x.Kept) (p : ReceiverPoll Capacity) :
    ∃ a, ∃ l : List (Admission ℕ),
      x.receivers.world.acceptors 0 = some a ∧ Tidy 0 x.receivers.world.openFds a ∧
      Wired x.receivers.world.openFds a x.links ∧
      x.next (.poll p) =
        { receivers := x.receivers.next (x.onLinks a p)
          links := turn x.links
            ((x.receivers.readsOf 0 (x.onLinks a p)).map ReadCall.chunk) (l.map (·.fd)) } ∧
      (∀ y ∈ l, y.fd ∉ x.receivers.world.openFds) ∧
      (x.receivers.next (x.onLinks a p)).world.openFds =
        l.map (·.fd) ++ x.receivers.world.openFds ∧
      ∃ b, (x.receivers.next (x.onLinks a p)).world.acceptors 0 = some b ∧
        Tidy 0 (x.receivers.next (x.onLinks a p)).world.openFds b ∧
        b.tcpSessions = a.tcpSessions ++ l.map fun y => ⟨⟨y.fd, .usual⟩, .client y.handler⟩ := by
  obtain ⟨a, ha, htidy, hwired⟩ := h.wired
  have hworld : (x.receivers.next (x.onLinks a p)).world =
      (x.receivers.world.pass 0 ((x.onLinks a p).onAcceptor a)).world := by
    rw [Receivers.next, (Receivers.pass_spec ha htidy.aligned).1]
  have hanswers : ∀ i, ((x.onLinks a p).onAcceptor a).answers i =
      ⟨(x.onLinks a p).accepted, some true, false⟩ := by
    intro i
    unfold ReceiverPoll.onAcceptor ReceiverPoll.answers
    cases (x.onLinks a p).revents <;> rfl
  obtain ⟨l, hadmitted, hnew, hfds, hb⟩ := htidy.taken ha (p := (x.onLinks a p).onAcceptor a)
    (fun i => by rw [hanswers]) (by rw [hanswers]; exact freeAnswer_fresh)
  refine ⟨a, l, ha, htidy, hwired, ?_, hnew, hworld ▸ hfds, hworld ▸ hb⟩
  simp only [next, ha, hadmitted]

/-- What is read in a turn is the beginning of what is under way, on connections that are readable. -/
theorem Kept.genuine (h : x.Kept) {a : Acceptor ℕ} (ha : x.receivers.world.acceptors 0 = some a)
    (htidy : Tidy 0 x.receivers.world.openFds a) (hwired : Wired x.receivers.world.openFds a x.links)
    (p : ReceiverPoll Capacity) :
    let more := (x.receivers.readsOf 0 (x.onLinks a p)).map ReadCall.chunk
    (more.map Prod.fst).Nodup ∧ Genuine x.links more ∧
      ∀ r ∈ more, ∀ l, x.links r.1 = some l → l.readable = true := by
  intro more
  obtain ⟨hnodup, hmore⟩ :=
    h.unmoved.chunks_of_turn (p := x.onLinks a p) ha htidy.aligned htidy.distinct
  refine ⟨hnodup, ?_, ?_⟩
  · intro r hr
    obtain ⟨i, session, hpos, hs, rfl, -⟩ := hmore r hr
    obtain ⟨l, hl⟩ := hwired.linked i session hpos hs
    have hlink : a.link x.links i = some l := by rw [Acceptor.link, hs]; exact hl
    refine ⟨l, hl, ?_⟩
    show ReadCall.bytes ⟨0, session.socket, x.incoming a i (p.read i)⟩ <+: l.toReceiver
    unfold incoming
    rw [hlink]
    cases p.read i with
    | none => exact List.nil_prefix
    | some bytes => exact l.chunk_prefix _ _
  · intro r hr l hl
    obtain ⟨i, session, -, hs, rfl, revents, hrevents, hready⟩ := hmore r hr
    obtain ⟨raw, _, rfl⟩ := Option.map_eq_some_iff.mp hrevents
    have hlink : a.link x.links i = some l := by rw [Acceptor.link, hs]; exact hl
    exact Acceptor.readable_of_onLinks hready hlink

theorem Kept.poll (h : x.Kept) (p : ReceiverPoll Capacity) : (x.next (.poll p)).Kept := by
  obtain ⟨a, l, ha, htidy, hwired, hnext, hnew, hfds, b, hb, hbtidy, hbsessions⟩ := h.poll_eq p
  obtain ⟨hnodup, hgenuine, -⟩ := h.genuine ha htidy hwired p
  obtain ⟨hunmoved, hreads⟩ := h.unmoved.next (x.onLinks a p)
  rw [hnext]
  refine ⟨hunmoved, ⟨b, hb, hbtidy, ?_⟩, ?_⟩
  · rw [hfds]
    exact hwired.turn _ hbsessions
  · rw [hreads, List.map_append]
    exact h.conserved.turn hgenuine hnodup (hwired.fresh hnew)

theorem Kept.next (h : x.Kept) (e : ExchangeEvent Capacity) : (x.next e).Kept := by
  cases e with
  | write fd bytes => exact h.modify fd fun _ _ => Link.write_content bytes
  | hangUp fd => exact h.modify fd fun _ _ hl => hl
  | poll p => exact h.poll p

theorem kept_run (tcpListener : TcpListener) (events : List (ExchangeEvent Capacity)) :
    (events.foldl Exchange.next (start tcpListener)).Kept :=
  foldl_inv (fun _ e h => h.next e) events _ (start_kept tcpListener)

end Exchange

/-- An entry is what its read has brought, and zeros. -/
theorem ReadCall.entry_data {Capacity : ℕ} (c : ReadCall Capacity) :
    c.entry.buffer.data = c.bytes ++ List.replicate (Capacity - c.bytes.length) 0 := by
  have hfresh : (StaticBuffer.fresh Capacity).data = List.replicate Capacity 0 := rfl
  unfold ReadCall.entry Message.read StaticBuffer.filled ReadCall.bytes
  cases c.result with
  | none => exact hfresh
  | some bytes =>
    dsimp only
    rw [hfresh, List.drop_replicate]

theorem ReadCall.bytes_length_le {Capacity : ℕ} (c : ReadCall Capacity) :
    c.bytes.length ≤ Capacity := by
  unfold ReadCall.bytes
  cases c.result with
  | none => exact Nat.zero_le _
  | some bytes => exact bytes.2

namespace Exchange
variable {Capacity : ℕ}

/-- The data of the messages from a descriptor. -/
def dataFrom (fd : ℤ) (messages : List (Message Capacity)) : List (List UInt8) :=
  (messages.filter (·.socket.fd = fd)).map (·.buffer.data)

/-- CORRECT: whoever writes what and when, each connection's messages hold chunks of its stream, all
    of it but what is still under way, in order and each with zeros behind it. -/
theorem stream_kept (tcpListener : TcpListener) (events : List (ExchangeEvent Capacity)) :
    let x := events.foldl next (start tcpListener)
    (∀ m ∈ x.receivers.messages 0, ∃ l, x.links m.socket.fd = some l) ∧
      ∀ fd l, x.links fd = some l → ∃ chunks : List (List UInt8),
        (∀ chunk ∈ chunks, chunk.length ≤ Capacity) ∧
        dataFrom fd (x.receivers.messages 0) =
          chunks.map (fun chunk => chunk ++ List.replicate (Capacity - chunk.length) 0) ∧
        chunks.flatten ++ l.toReceiver = l.sent := by
  intro x
  have h : x.Kept := kept_run tcpListener events
  have hmessages : x.receivers.messages 0 = x.receivers.reads.map ReadCall.entry :=
    h.unmoved.messages
  rw [hmessages]
  constructor
  · intro m hm
    obtain ⟨c, hc, rfl⟩ := List.mem_map.mp hm
    exact h.conserved.known _ (List.mem_map_of_mem hc)
  · intro fd l hl
    refine ⟨(x.receivers.reads.filter (·.socket.fd = fd)).map ReadCall.bytes, ?_, ?_, ?_⟩
    · intro chunk hchunk
      obtain ⟨c, _, rfl⟩ := List.mem_map.mp hchunk
      exact c.bytes_length_le
    · rw [dataFrom, List.filter_map, List.map_map, List.map_map]
      exact List.map_congr_left fun c _ => c.entry_data
    · rw [← h.conserved.content fd l hl, readFrom, List.filter_map, List.flatMap_map,
        List.flatMap_def]
      rfl

/-- One peer writes "hi" and is read from. -/
def hiToReceiver : List (ExchangeEvent 4) :=
  [.poll ⟨some fun i => if i = 0 then 64 else 0, 4, fun _ => none⟩, .write 4 [104, 105],
    .poll ⟨some fun i => if i = 1 then 64 else 0, 4, fun _ => some ⟨[0, 0, 0], by decide⟩⟩]

theorem stream_kept_hiToReceiver :
    let x := hiToReceiver.foldl next (start (listenerAt 3))
    x.links 4 = some ⟨[104, 105], [], true⟩ ∧ ∃ chunks : List (List UInt8),
      dataFrom 4 (x.receivers.messages 0) =
        chunks.map (fun chunk => chunk ++ List.replicate (4 - chunk.length) 0) ∧
      chunks.flatten ++ [] = [104, 105] := by
  intro x
  have hlink : x.links 4 = some ⟨[104, 105], [], true⟩ := by decide
  obtain ⟨chunks, -, hdata, hflatten⟩ :=
    (stream_kept (listenerAt 3) hiToReceiver).2 4 ⟨[104, 105], [], true⟩ hlink
  exact ⟨hlink, chunks, hdata, hflatten⟩

end Exchange

/-! ### Senders -/

/-- The same with `TcpSender`s: one sends a payload, out of a buffer of its own, or its process ends,
    or the receiver polls. -/
inductive SenderEvent (Capacity : ℕ) where
  | send (sender : TcpSender) (fd : ℤ) (payload : List UInt8)
  | leave (fd : ℤ)
  | poll (p : ReceiverPoll Capacity)

/-- What reaches the connection; an assertion that fails ends the process. -/
def SenderEvent.event {Capacity : ℕ} : SenderEvent Capacity → ExchangeEvent Capacity
  | .send sender fd payload =>
    match sender.sendOne 1024 payload with
    | .ok call => .write fd call.bytes
    | .error _ => .hangUp fd
  | .leave fd => .hangUp fd
  | .poll p => .poll p

namespace Exchange
variable {Capacity : ℕ} {x : Exchange Capacity}

/-- INVARIANT: nobody has written anything, and whoever has been read from was gone. -/
structure Silent (x : Exchange Capacity) : Prop where
  kept : x.Kept
  silent : Links.Silent x.links (x.receivers.reads.map ReadCall.chunk)

/-- A peer's move that sends nothing and opens nothing. -/
theorem Silent.modify (h : x.Silent) (fd : ℤ) {f : Link UInt8 → Link UInt8}
    (hf : ∀ l, (f l).sent = l.sent ∧ (f l).toReceiver = l.toReceiver ∧
      (l.isOpen = false → (f l).isOpen = false)) :
    ({ x with links := Links.modify x.links fd f } : Exchange Capacity).Silent where
  kept := h.kept.modify fd fun l front hl => by rw [(hf l).1, (hf l).2.1, hl]
  silent := h.silent.modify fd hf

/-- A poll that finds only streams that have ended. -/
theorem Silent.poll (h : x.Silent) (p : ReceiverPoll Capacity) : (x.next (.poll p)).Silent := by
  refine ⟨h.kept.poll p, ?_⟩
  obtain ⟨a, l, ha, htidy, hwired, hnext, hnew, -⟩ := h.kept.poll_eq p
  obtain ⟨hnodup, hgenuine, hready⟩ := h.kept.genuine ha htidy hwired p
  obtain ⟨-, hreads⟩ := h.kept.unmoved.next (x.onLinks a p)
  rw [hnext, hreads, List.map_append]
  exact h.silent.turn hgenuine hready hnodup (hwired.fresh hnew)

theorem Silent.next (h : x.Silent) (e : SenderEvent Capacity) : (x.next e.event).Silent := by
  have hleave (fd : ℤ) : (x.next (.hangUp fd)).Silent :=
    h.modify fd fun _ => ⟨rfl, rfl, fun _ => rfl⟩
  cases e with
  | send sender fd payload =>
    rw [SenderEvent.event]
    cases hcall : sender.sendOne 1024 payload with
    | error _ => exact hleave fd
    | ok call =>
      have hbytes : call.bytes = [] := by rw [TcpSender.bytes_of_sendOne hcall]
      dsimp only
      rw [hbytes]
      exact h.modify fd fun l => by rw [Link.write_nil]; exact ⟨rfl, rfl, id⟩
  | leave fd => exact hleave fd
  | poll p => exact h.poll p

/-- CORRECT: whatever is typed into the senders, and whoever moves when, each message is that of a
    connection whose sender has gone, with nothing but zeros in it. -/
theorem nothing_arrives (tcpListener : TcpListener) (events : List (SenderEvent Capacity)) :
    let x := (events.map SenderEvent.event).foldl next (start tcpListener)
    ∀ m ∈ x.receivers.messages 0,
      m.buffer.data = List.replicate Capacity 0 ∧ m.buffer.size = 0 ∧
      ∃ l, x.links m.socket.fd = some l ∧ l.sent = [] ∧ l.isOpen = false := by
  intro x m hm
  have hstart : (start tcpListener : Exchange Capacity).Silent := ⟨start_kept tcpListener, silent_none⟩
  have hrun : (events.foldl (fun x e => x.next e.event) (start tcpListener)).Silent :=
    foldl_inv (fun _ e hx => hx.next e) events _ hstart
  have h : x.Silent := by
    rw [← List.foldl_map] at hrun
    exact hrun
  rw [h.kept.unmoved.messages] at hm
  obtain ⟨c, hc, rfl⟩ := List.mem_map.mp hm
  have hchunk : c.chunk ∈ x.receivers.reads.map ReadCall.chunk := List.mem_map_of_mem hc
  obtain ⟨l, hl⟩ := h.silent.conserved.known _ hchunk
  have hempty : c.bytes = [] := h.silent.read_eq_nil hchunk
  refine ⟨?_, c.entry_size, l, hl, h.silent.unsent _ l hl, h.silent.gone _ hchunk l hl⟩
  rw [c.entry_data, hempty]
  rfl

/-- A sender is accepted, sends "hi" and leaves; the receiver polls. -/
def hiFromSender : List (SenderEvent 4) :=
  [.poll ⟨some fun i => if i = 0 then 64 else 0, 4, fun _ => none⟩,
    .send ⟨⟨3, .usual⟩⟩ 4 [104, 105], .leave 4,
    .poll ⟨some fun i => if i = 1 then 64 else 0, 4, fun _ => some ⟨[], by decide⟩⟩]

theorem nothing_arrives_hiFromSender :
    ∃ m ∈ ((hiFromSender.map SenderEvent.event).foldl next
        (start (listenerAt 3))).receivers.messages 0,
      m.socket.fd = 4 ∧ m.buffer.data = [0, 0, 0, 0] ∧ m.buffer.size = 0 := by
  have hone : 4 ∈ (((hiFromSender.map SenderEvent.event).foldl next
      (start (listenerAt 3))).receivers.messages 0).map (·.socket.fd) := by
    decide +kernel
  obtain ⟨m, hm, hfd⟩ := List.mem_map.mp hone
  obtain ⟨hdata, hsize, -⟩ := nothing_arrives (listenerAt 3) hiFromSender m hm
  exact ⟨m, hm, hfd, hdata, hsize⟩

/-! ### Streams that have ended -/

/-- Session `i` is the end of a connection that has been read to its end, with nobody there to write
    any more. -/
def Gone (x : Exchange Capacity) (i : ℕ) (socket : Socket) : Prop :=
  0 < i ∧ (∃ a session, x.receivers.world.acceptors 0 = some a ∧ a.tcpSessions[i]? = some session ∧
    session.socket = socket) ∧
  ∃ sent, x.links socket.fd = some ⟨sent, [], false⟩

/-- The poll that reports this session alone. -/
def reporting (i : ℕ) (accepted : ℤ) : ReceiverPoll Capacity where
  revents := some fun j => if j = i then pollRdNorm else 0
  accepted := accepted
  read := fun _ => some ⟨[], Nat.zero_le _⟩

/-- What the end of a stream appends. -/
def emptyMessage (Capacity : ℕ) (socket : Socket) : Message Capacity :=
  .read socket (some ⟨[], Nat.zero_le _⟩)

/-- A session that is due alone is called alone. -/
theorem calls_singleton {s : Receivers Capacity} {a : Acceptor ℕ}
    (ha : s.world.acceptors 0 = some a) (hal : a.Aligned) {q : ReceiverPoll Capacity}
    {revents : ℕ → UInt16} (hrevents : q.revents = some revents) {i : ℕ} {session : TcpSession ℕ}
    (hs : a.tcpSessions[i]? = some session) (hi : revents i = pollRdNorm)
    (hothers : ∀ j, j ≠ i → revents j ≠ pollRdNorm) : s.calls 0 q = [(i, session)] := by
  have hmem : ∀ d, d ∈ (a.polled revents).due ↔ d = (i, session) := by
    intro d
    rw [mem_due_polled (p := ⟨0, revents, q.answers⟩) hal]
    constructor
    · rintro ⟨hd, hready⟩
      have hindex : d.1 = i := by
        by_contra hne
        exact hothers d.1 hne hready
      rw [hindex, hs] at hd
      exact Prod.ext hindex (Option.some.inj hd).symm
    · rintro rfl
      exact ⟨hs, hi⟩
  have hnodup : (a.polled revents).due.Nodup := (nodup_dueFrom _ _ 0).of_map _
  have hdue : (a.polled revents).due = [(i, session)] := by
    cases hcases : (a.polled revents).due with
    | nil =>
      have hin := (hmem (i, session)).mpr rfl
      rw [hcases] at hin
      exact absurd hin List.not_mem_nil
    | cons d ds =>
      rw [hcases] at hmem hnodup
      obtain ⟨hnew, -⟩ := List.nodup_cons.mp hnodup
      have hd : d = (i, session) := (hmem d).mp (List.mem_cons_self ..)
      have hnone : ds = [] := by
        refine List.eq_nil_iff_forall_not_mem.mpr fun e he => hnew ?_
        rw [hd, ← (hmem e).mp (List.mem_cons_of_mem _ he)]
        exact he
      rw [hd, hnone]
  rw [Receivers.calls, ha, hrevents]
  dsimp only
  rw [hdue, called]
  split <;> rfl

/-- STEP: another poll, another message. -/
theorem Gone.next {i : ℕ} {socket : Socket} (h : x.Kept) (hgone : x.Gone i socket) (accepted : ℤ) :
    (x.next (.poll (reporting i accepted))).Gone i socket ∧
      (x.next (.poll (reporting i accepted))).receivers.messages 0 =
        x.receivers.messages 0 ++ [emptyMessage Capacity socket] := by
  obtain ⟨a, l, ha, htidy, hwired, hnext, hnew, hfds, b, hb, hbtidy, hbsessions⟩ :=
    h.poll_eq (reporting i accepted)
  obtain ⟨hpos, ⟨a', session, ha', hs, rfl⟩, sent, hlink⟩ := hgone
  obtain rfl := Option.some.inj (ha.symm.trans ha')
  obtain ⟨q, hq⟩ : ∃ q, q = x.onLinks a (reporting i accepted) := ⟨_, rfl⟩
  rw [← hq] at hnext hb
  have hown : a.link x.links i = some ⟨sent, [], false⟩ := by rw [Acceptor.link, hs]; exact hlink
  have hcalls : x.receivers.calls 0 q = [(i, session)] := by
    rw [hq]
    refine calls_singleton ha htidy.aligned rfl hs ?_ ?_
    · rw [Acceptor.onLinks, hown, if_pos rfl]
      exact if_pos rfl
    · intro j hne
      unfold Acceptor.onLinks
      dsimp only
      rw [if_neg hne]
      split <;> decide
  have hreads : x.receivers.readsOf 0 q = [⟨0, session.socket, some ⟨[], Nat.zero_le _⟩⟩] := by
    have hread : q.read i = some ⟨[], Nat.zero_le _⟩ := by
      rw [hq]
      show x.incoming a i (some ⟨[], Nat.zero_le _⟩) = _
      unfold incoming
      rw [hown]
      exact congrArg some (Subtype.ext (Link.chunk_of_nil rfl _ _))
    have hcallback := h.unmoved.callback_eq (p := q) (d := (i, session)) (by rw [hcalls]; simp)
    rw [if_neg hpos.ne', hread] at hcallback
    rw [Receivers.readsOf, hcalls, List.filterMap_cons_some hcallback, List.filterMap_nil]
  obtain ⟨hunmoved, hnewReads⟩ := h.unmoved.next q
  rw [hnext]
  refine ⟨⟨hpos, ⟨b, session, hb, ?_, rfl⟩, sent, ?_⟩, ?_⟩
  · rw [hbsessions, List.getElem?_append_left (List.getElem?_eq_some_iff.mp hs).1]
    exact hs
  · have hkept := turn_old ((x.receivers.readsOf 0 q).map ReadCall.chunk) (hwired.fresh hnew) hlink
    rw [Link.take, List.drop_nil] at hkept
    exact hkept
  · show (x.receivers.next q).messages 0 = _
    rw [hunmoved.messages, hnewReads, List.map_append, ← h.unmoved.messages, hreads]
    rfl

/-- CORRECT: one peer that has gone is enough for any number of messages: each poll that reports its
    connection appends another empty one. -/
theorem gone_fills (tcpListener : TcpListener) (events : List (ExchangeEvent Capacity)) {i : ℕ}
    {socket : Socket} (hgone : (events.foldl next (start tcpListener)).Gone i socket) (accepted : ℤ)
    (n : ℕ) :
    let x := events.foldl next (start tcpListener)
    ((List.replicate n (.poll (reporting i accepted))).foldl next x).receivers.messages 0 =
      x.receivers.messages 0 ++ List.replicate n (emptyMessage Capacity socket) := by
  intro x
  have hrun : ∀ n (y : Exchange Capacity), y.Kept → y.Gone i socket →
      ((List.replicate n (.poll (reporting i accepted))).foldl next y).receivers.messages 0 =
        y.receivers.messages 0 ++ List.replicate n (emptyMessage Capacity socket) := by
    intro n
    induction n with
    | zero => exact fun y _ _ => (List.append_nil _).symm
    | succ n ih =>
      intro y hkept hgone
      obtain ⟨hstill, hmessages⟩ := hgone.next hkept accepted
      rw [List.replicate_succ, List.foldl_cons, ih _ (hkept.next _) hstill, hmessages,
        List.append_assoc, List.replicate_succ]
      rfl
  exact hrun n x (kept_run tcpListener events) hgone

/-- A peer is accepted and leaves. -/
def comeAndGo : List (ExchangeEvent 4) :=
  [.poll ⟨some fun i => if i = 0 then 64 else 0, 4, fun _ => none⟩, .hangUp 4]

theorem gone_fills_comeAndGo :
    ((List.replicate 3 (.poll (reporting 1 (-1)))).foldl next
        (comeAndGo.foldl next (start (listenerAt 3)))).receivers.messages 0 =
      (comeAndGo.foldl next (start (listenerAt 3))).receivers.messages 0 ++
        List.replicate 3 (emptyMessage 4 ⟨4, .usual⟩) :=
  gone_fills (listenerAt 3) comeAndGo ⟨Nat.one_pos, ⟨_, _, rfl, rfl, rfl⟩, [], rfl⟩ (-1) 3

end Exchange
end UnixIpc.Engine
