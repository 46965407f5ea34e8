import UnixIpc.Engine.Receiver

/-! What a receiver that is never moved has in `messages_`, against what its reads returned.

        read returns     n ≥ 1 bytes      0 (end of file)      -1
        appended         data, size 0     no data, size 0      no data, size 0

    Each read appends an entry, whatever it returned, and each entry says that it is empty. -/

namespace UnixIpc.Engine
open UnixIpc.Descriptors UnixIpc.IndexLoop UnixIpc.Run

variable {Capacity : ℕ}

/-- The first `size()` bytes. -/
def Message.contents (m : Message Capacity) : List UInt8 := m.buffer.data.take m.buffer.size

namespace ReadCall

/-- The bytes a read returned, none at end of file or on a failure. -/
def bytes (c : ReadCall Capacity) : List UInt8 :=
  match c.result with
  | none => []
  | some bytes => bytes.1

/-- What a read that returned n ≥ 1 received. -/
def received (c : ReadCall Capacity) : Option (Socket × List UInt8) :=
  if c.bytes = [] then none else some (c.socket, c.bytes)

/-- `size()` of an entry is what the constructor set. -/
theorem entry_size (c : ReadCall Capacity) : c.entry.buffer.size = 0 := by
  unfold ReadCall.entry Message.read StaticBuffer.filled
  split <;> rfl

end ReadCall

/-- The messages are the reads that returned n ≥ 1 bytes, with those n bytes and `size()` n. -/
structure Delivers (messages : List (Message Capacity)) (reads : List (ReadCall Capacity)) : Prop where
  entries : messages.map (fun m => (m.socket, m.contents)) = reads.filterMap ReadCall.received
  sizes : messages.map (·.buffer.size) = (reads.filterMap ReadCall.received).map (·.2.length)

/-- Then each sender's entries are its stream as far as it was read. -/
theorem Delivers.stream {messages : List (Message Capacity)} {reads : List (ReadCall Capacity)}
    (h : Delivers messages reads) (sender : Socket) :
    (messages.filter (·.socket = sender)).flatMap Message.contents =
      (reads.filter (·.socket = sender)).flatMap ReadCall.bytes := by
  have hmessages : (messages.filter (·.socket = sender)).flatMap Message.contents =
      ((messages.map fun m => (m.socket, m.contents)).filter (·.1 = sender)).flatMap (·.2) := by
    rw [List.filter_map, List.flatMap_map]
    rfl
  rw [hmessages, h.entries]
  clear hmessages h
  induction reads with
  | nil => rfl
  | cons c reads ih =>
    by_cases hb : c.bytes = []
    · have hnone : c.received = none := if_pos hb
      rw [List.filterMap_cons_none hnone, ih]
      by_cases hs : c.socket = sender <;> simp [hs, hb]
    · have hsome : c.received = some (c.socket, c.bytes) := if_neg hb
      rw [List.filterMap_cons_some hsome]
      by_cases hs : c.socket = sender <;> simp [hs, ih]

/-- And a closed connection is not counted. -/
theorem Delivers.counted {messages : List (Message Capacity)} {reads : List (ReadCall Capacity)}
    (h : Delivers messages reads) : messages.length = reads.countP (·.bytes ≠ []) := by
  have hlen := congrArg List.length h.entries
  rw [List.length_map, List.length_filterMap_eq_countP] at hlen
  rw [hlen]
  refine List.countP_congr ?_
  intro c _
  by_cases hb : c.bytes = [] <;> simp [ReadCall.received, hb]

/-- Entries made by the callback are right only as long as there are none. -/
theorem delivers_entries_iff (reads : List (ReadCall Capacity)) :
    Delivers (reads.map ReadCall.entry) reads ↔ reads = [] := by
  constructor
  · rintro ⟨hentries, hsizes⟩
    cases hreceived : reads.filterMap ReadCall.received with
    | nil =>
      rw [hreceived, List.map_map] at hentries
      exact List.map_eq_nil_iff.mp hentries
    | cons r received =>
      have hmem : r ∈ reads.filterMap ReadCall.received := by
        rw [hreceived]
        exact List.mem_cons_self ..
      obtain ⟨c, _, hc⟩ := List.mem_filterMap.mp hmem
      have hzero : r.2.length ∈ reads.map fun c => c.entry.buffer.size := by
        rw [List.map_map] at hsizes
        rw [show (reads.map fun c => c.entry.buffer.size) = _ from hsizes]
        exact List.mem_map_of_mem hmem
      obtain ⟨c', _, hc'⟩ := List.mem_map.mp hzero
      rw [ReadCall.entry_size] at hc'
      unfold ReadCall.received at hc
      split at hc
      · exact absurd hc (by simp)
      · rename_i hne
        rw [Option.some.injEq] at hc
        rw [← hc] at hc'
        exact absurd (List.length_eq_zero_iff.mp hc'.symm) hne
  · rintro rfl
    exact ⟨rfl, rfl⟩

namespace Receivers

/-- A receiver at address 0, just constructed. -/
def start (tcpListener : TcpListener) : Receivers Capacity where
  world := { World.empty.put 0 (some (.construct 0 tcpListener 0)) with
             openFds := [tcpListener.socket.fd] }
  messages := Function.update (fun _ => []) 0 []
  reads := []

example (tcpListener : TcpListener) :
    (empty : Receivers Capacity).step (.construct 0 tcpListener) = some (start tcpListener) := rfl

/-- The next turn of `receive` on it, of this call or of the next one. -/
def next (s : Receivers Capacity) (p : ReceiverPoll Capacity) : Receivers Capacity := (s.pass 0 p).1

/-- No handler but the listener's is called in the turn. -/
def OnlyListener (s : Receivers Capacity) (p : ReceiverPoll Capacity) : Prop :=
  ∀ d ∈ s.calls 0 p, d.1 = 0

/-- INVARIANT: the receiver is where its callback thinks it is, and every read is an entry of its
    list. -/
structure Unmoved (s : Receivers Capacity) : Prop where
  sound : s.world.Sound
  uniform : s.world.All fun _ => Acceptor.Uniform
  home : ∃ a, s.world.acceptors 0 = some a ∧ a.clientRequestHandler = some 0
  messages : s.messages 0 = s.reads.map ReadCall.entry

theorem start_unmoved (tcpListener : TcpListener) :
    (start tcpListener : Receivers Capacity).Unmoved where
  sound := (World.empty_all _).put_some (Acceptor.construct_sound 0 tcpListener 0)
  uniform := by
    refine (World.empty_all _).put_some ?_
    intro session hmem target hc
    rw [Acceptor.construct, List.mem_singleton] at hmem
    rw [hmem] at hc
    exact absurd hc (by simp)
  home := ⟨_, rfl, rfl⟩
  messages := rfl

/-- A session that is called is the listener, or a client that reads for the receiver itself. -/
theorem Unmoved.callback_eq {s : Receivers Capacity} (h : s.Unmoved) {p : ReceiverPoll Capacity}
    {d : ℕ × TcpSession ℕ} (hd : d ∈ s.calls 0 p) :
    callback p d = if d.1 = 0 then none else some ⟨0, d.2.socket, p.read d.1⟩ := by
  obtain ⟨a, ha, hhome⟩ := h.home
  have hsound := h.sound 0 a ha
  have hs := (dispatched_eq ha hsound.aligned).2.2 d hd
  cases hsound with
  | moved _ _ hh => exact absurd (hhome.symm.trans hh) (by simp)
  | whole target rest heq _ _ hrest =>
    rw [heq] at hs
    rcases hi : d.1 with _ | i
    · rw [hi, List.getElem?_cons_zero, Option.some.injEq] at hs
      simp [callback, ← hs]
    · rw [hi, List.getElem?_cons_succ] at hs
      obtain ⟨t, ht⟩ := hrest d.2 (List.mem_of_getElem? hs)
      have hown := h.uniform 0 a ha d.2 (heq ▸ List.mem_cons_of_mem _ (List.mem_of_getElem? hs)) t ht
      simp [callback, ht, hown.trans hhome, hi]

theorem Unmoved.target {s : Receivers Capacity} (h : s.Unmoved) {p : ReceiverPoll Capacity}
    {c : ReadCall Capacity} (hc : c ∈ s.readsOf 0 p) : c.target = 0 := by
  obtain ⟨d, hd, hcall⟩ := List.mem_filterMap.mp hc
  rw [h.callback_eq hd, Option.ite_none_left_eq_some, Option.some.injEq] at hcall
  rw [← hcall.2]

theorem Unmoved.readsOf_eq_nil_iff {s : Receivers Capacity} (h : s.Unmoved)
    (p : ReceiverPoll Capacity) : s.readsOf 0 p = [] ↔ s.OnlyListener p := by
  rw [readsOf, List.filterMap_eq_nil_iff]
  refine forall₂_congr ?_
  intro d hd
  rw [h.callback_eq hd]
  simp

theorem Unmoved.next {s : Receivers Capacity} (h : s.Unmoved) (p : ReceiverPoll Capacity) :
    (s.next p).Unmoved ∧ (s.next p).reads = s.reads ++ s.readsOf 0 p := by
  obtain ⟨a, ha, hhome⟩ := h.home
  have hal := (h.sound 0 a ha).aligned
  have hspec := (pass_spec (p := p) ha hal).1
  have hnext : s.next p = ⟨(s.world.pass 0 (p.onAcceptor a)).world,
      appendAll s.messages (s.readsOf 0 p), s.reads ++ s.readsOf 0 p⟩ := hspec
  obtain ⟨f, hf, hkeep⟩ := World.pass_grows ha hal (p.onAcceptor a)
  rw [hnext]
  refine ⟨⟨h.sound.pass ha _, World.uniform_pass h.sound h.uniform ha _, ?_, ?_⟩, rfl⟩
  · refine ⟨f 0 a, by rw [hf, ha]; rfl, ?_⟩
    exact hkeep (·.clientRequestHandler = some 0) (fun _ _ hh => hh) (fun _ _ hh => hh) 0 a hhome
  · have hall : (s.readsOf 0 p).filter (·.target = 0) = s.readsOf 0 p :=
      List.filter_eq_self.mpr fun c hc => by simpa using h.target hc
    have happend := appendAll_apply s.messages (s.readsOf 0 p) 0
    rw [hall, h.messages, ← List.map_append] at happend
    exact happend

/-- CORRECT: along any run of a receiver that is not moved, its messages are what the reads received
    just as long as no client is read from. -/
theorem delivers_iff (tcpListener : TcpListener) (ps : List (ReceiverPoll Capacity)) :
    Along Receivers.next (fun s => Delivers (s.messages 0) s.reads) (start tcpListener) ps ↔
      Throughout Receivers.next OnlyListener (start tcpListener) ps := by
  refine along_iff_throughout (G := fun s => s.Unmoved ∧ s.reads = []) (A := fun _ => True)
    ?_ ?_ ?_ ps _ (fun _ _ => trivial) ⟨start_unmoved tcpListener, rfl⟩
  · rintro s ⟨h, hnil⟩
    rw [h.messages, hnil]
    exact ⟨rfl, rfl⟩
  · rintro s p ⟨h, hnil⟩ _ hquiet
    obtain ⟨hkept, hreads⟩ := h.next p
    refine ⟨hkept, ?_⟩
    rw [hreads, hnil, (h.readsOf_eq_nil_iff p).mpr hquiet, List.append_nil]
  · rintro s p ⟨h, hnil⟩ _ hread hdelivers
    obtain ⟨hkept, hreads⟩ := h.next p
    rw [hkept.messages, delivers_entries_iff, hreads, hnil, List.nil_append,
      h.readsOf_eq_nil_iff p] at hdelivers
    exact hread hdelivers

/-- The turns of one client: it connects, and then its reads return these. -/
def oneSender (results : List (ReadBytes 4)) : List (ReceiverPoll 4) :=
  ⟨some fun i => if i = 0 then 64 else 0, 4, fun _ => none⟩ ::
    results.map fun result => ⟨some fun i => if i = 1 then 64 else 0, 4, fun _ => result⟩

/-- Two bytes and the end of the stream make two messages, both of size 0. -/
theorem oneSender_miscounted :
    let s := (oneSender [some ⟨[104, 105], by decide⟩, some ⟨[], by decide⟩]).foldl Receivers.next
      (start (listenerAt 3))
    (s.messages 0).map (fun m => (m.socket.fd, m.buffer.size, m.buffer.data)) =
        [(4, 0, [104, 105, 0, 0]), (4, 0, [0, 0, 0, 0])] ∧
      ¬ Delivers (s.messages 0) s.reads ∧
      ¬ Along Receivers.next (fun s => Delivers (s.messages 0) s.reads) (start (listenerAt 3))
        (oneSender [some ⟨[104, 105], by decide⟩, some ⟨[], by decide⟩]) := by
  intro s
  have hnot : ¬ Delivers (s.messages 0) s.reads := fun h => absurd h.counted (by decide)
  exact ⟨by decide, hnot, fun h => hnot (h.last _ _)⟩

end Receivers
end UnixIpc.Engine
