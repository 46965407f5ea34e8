import UnixIpc.Servers.PollServer
import UnixIpc.Servers.SelectServer

/-! What a multiplex server makes of one read. `read` says how many bytes have come, and nobody looks
    at that number again: the command and the echo both go by the C string that `buff` holds.

        chunk        "hi"        "a\0b"          1024 bytes, no NUL
        buff         h i 0 …     a 0 b 0 …       x x x … x ┊ stack
        echo         "hi"        "a"             … and on behind buff

    `echoes_iff` says for which chunks the echo is the chunk. -/

namespace UnixIpc.Servers
open UnixIpc.Bytes

/-- The scans of `buff` as a C string find a terminator in it. -/
def ScansInside (chunk : Chunk) : Prop := (cString (buff chunk).1).isSome

instance (chunk : Chunk) : Decidable (ScansInside chunk) := inferInstanceAs (Decidable (_ = true))

theorem scansInside_iff {chunk : Chunk} :
    ScansInside chunk ↔ chunk.1.length < 1024 ∨ 0 ∈ chunk.1 := by
  have hmem : (0 : UInt8) ∈ (buff chunk).1 ↔ chunk.1.length < 1024 ∨ 0 ∈ chunk.1 := by
    rw [buff, List.mem_append, List.mem_replicate, or_comm]
    refine or_congr_left ?_
    simp [Nat.sub_ne_zero_iff_lt]
  rw [← hmem, ScansInside, cString]
  split
  · rename_i h0
    exact iff_of_true rfl h0
  · rename_i h0
    exact iff_of_false (by simp) h0

/-- A chunk without a NUL is the string in `buff`, if there is room for a terminator. -/
theorem cString_buff_iff {chunk : Chunk} (stack : List UInt8) (hscan : ScansInside chunk) :
    cString ((buff chunk).1 ++ stack) = some chunk.1 ↔ chunk.1.length < 1024 ∧ 0 ∉ chunk.1 := by
  rw [buff, List.append_assoc, cString_append_iff, and_comm]
  refine and_congr_left fun hnul => ?_
  have hlen : chunk.1.length < 1024 := (scansInside_iff.mp hscan).resolve_right hnul
  obtain ⟨n, hn⟩ := Nat.exists_eq_add_of_lt hlen
  refine iff_of_true ?_ hlen
  rw [show 1024 - chunk.1.length = n + 1 by omega, List.replicate_succ]
  rfl

/-- The reply to such a chunk. -/
theorem reply_plain {chunk : Chunk} (hne : chunk.1 ≠ []) (hlen : chunk.1.length < 1024)
    (hnul : 0 ∉ chunk.1) (stack : List UInt8) :
    reply (some chunk) stack = if chunk.1 = stopCommand then .stop else .echo chunk.1 := by
  have hscan : ScansInside chunk := scansInside_iff.mpr (Or.inl hlen)
  simp only [reply, if_neg hne, (cString_buff_iff stack hscan).mpr ⟨hlen, hnul⟩]

/-- The echo is the chunk only for the string in `buff`. -/
theorem reply_eq_echo_iff {chunk : Chunk} (hne : chunk.1 ≠ []) (stack data : List UInt8) :
    reply (some chunk) stack = .echo data ↔
      cString ((buff chunk).1 ++ stack) = some data ∧ data ≠ stopCommand := by
  simp only [reply, if_neg hne]
  cases cString ((buff chunk).1 ++ stack) with
  | none => simp
  | some string =>
    by_cases hs : string = stopCommand
    · simp only [hs, if_true, reduceCtorEq, Option.some.injEq, false_iff, not_and, not_not]
      exact fun h => h.symm
    · simp only [if_neg hs, Reply.echo.injEq, Option.some.injEq]
      exact ⟨fun h => ⟨h, h ▸ hs⟩, And.left⟩

/-- A client that stays gets the echo of its reply, or nothing. -/
theorem Process.respond_written_iff (p : Process) (sockfd : ℤ) (reply : Reply) (data : List UInt8) :
    (p.respond sockfd true reply).written = p.written ++ [(sockfd, data)] ↔ reply = .echo data := by
  have hnone : p.written ≠ p.written ++ [(sockfd, data)] := by simp
  cases reply with
  | echo data' => simp [respond]
  | _ => exact iff_of_false hnone (by simp)

/-- The scans of `buff` stay inside it, and what is written is the chunk. -/
def Echoes (before after : Process) (sockfd : ℤ) (chunk : Chunk) : Prop :=
  ScansInside chunk ∧ after.written = before.written ++ [(sockfd, chunk.1)]

theorem echoes_respond_iff {p : Process} {sockfd : ℤ} {chunk : Chunk} (hne : chunk.1 ≠ [])
    (hstop : chunk.1 ≠ stopCommand) (stack : List UInt8) :
    Echoes p (p.respond sockfd true (reply (some chunk) stack)) sockfd chunk ↔
      chunk.1.length < 1024 ∧ 0 ∉ chunk.1 := by
  rw [Echoes, Process.respond_written_iff, reply_eq_echo_iff hne]
  constructor
  · rintro ⟨hscan, ⟨hstring, _⟩⟩
    exact (cString_buff_iff stack hscan).mp hstring
  · intro hplain
    have hscan : ScansInside chunk := scansInside_iff.mpr (Or.inl hplain.1)
    exact ⟨hscan, (cString_buff_iff stack hscan).mpr hplain, hstop⟩

/-- A read with bytes in it is no disconnection. -/
theorem Outside.not_drops {o : Outside} {sockfd : ℤ} {chunk : Chunk}
    (hread : o.read sockfd = some chunk) (hne : chunk.1 ≠ []) : o.drops sockfd = false := by
  rw [drops, decide_eq_false_iff_not, Outside.reply, hread, Servers.reply]
  simp only [if_neg hne]
  split
  · simp
  · split <;> simp

/-- CORRECT: in every state, either server echoes a chunk that is not the stop command just as it
    came, and without looking behind `buff`, exactly when it holds no NUL and leaves room for
    one. -/
theorem echoes_iff (sockfd : ℤ) (chunk : Chunk) (hne : chunk.1 ≠ []) (hstop : chunk.1 ≠ stopCommand)
    (s : SelectServer) (r : SelectRound) (hr : r.read sockfd = some chunk)
    (hrw : r.writes sockfd = true) (t : PollServer) (q : PollRound)
    (hq : q.read sockfd = some chunk) (hqw : q.writes sockfd = true) :
    (Echoes s.toProcess (s.handleRequest r sockfd).toProcess sockfd chunk ↔
      chunk.1.length < 1024 ∧ 0 ∉ chunk.1) ∧
    (Echoes t.toProcess (t.handleRequest q sockfd).toProcess sockfd chunk ↔
      chunk.1.length < 1024 ∧ 0 ∉ chunk.1) := by
  constructor
  · rw [SelectServer.handleRequest_stays (Outside.not_drops hr hne), hrw, Outside.reply, hr]
    exact echoes_respond_iff (p := { s.toProcess with handled := s.handled ++ [sockfd] })
      hne hstop _
  · rw [PollServer.handleRequest_stays (Outside.not_drops hq hne), hqw, Outside.reply, hq]
    exact echoes_respond_iff (p := { t.toProcess with handled := t.handled ++ [sockfd] })
      hne hstop _

/-- Everybody sends the same bytes. -/
def Outside.say (chunk : Chunk) : Outside where
  accepted := none
  read _ := some chunk
  writes _ := true
  stack _ := []

/-- "hi" comes back. -/
theorem echoes_iff_hi :
    Echoes (SelectServer.start []).toProcess
        ((SelectServer.start []).handleRequest ⟨.say ⟨ascii "hi", by decide⟩, none, 0⟩ 4).toProcess 4
        ⟨ascii "hi", by decide⟩ ∧
      Echoes (PollServer.start [] 0).toProcess
        ((PollServer.start [] 0).handleRequest ⟨.say ⟨ascii "hi", by decide⟩, none, 0⟩ 4).toProcess 4
        ⟨ascii "hi", by decide⟩ := by
  have hiff := echoes_iff 4 ⟨ascii "hi", by decide⟩ (by decide) (by decide) (.start [])
    ⟨.say ⟨ascii "hi", by decide⟩, none, 0⟩ rfl rfl (.start [] 0)
    ⟨.say ⟨ascii "hi", by decide⟩, none, 0⟩ rfl rfl
  exact ⟨hiff.1.mpr (by decide), hiff.2.mpr (by decide)⟩

/-- Of "a\0b" either server writes back "a"; a NUL at the front leaves nothing to write. -/
theorem echo_cut :
    ((SelectServer.start []).handleRequest ⟨.say ⟨[97, 0, 98], by decide⟩, none, 0⟩ 4).written =
        [(4, [97])] ∧
      ¬ Echoes (SelectServer.start []).toProcess
        ((SelectServer.start []).handleRequest ⟨.say ⟨[97, 0, 98], by decide⟩, none, 0⟩ 4).toProcess
        4 ⟨[97, 0, 98], by decide⟩ ∧
      ((PollServer.start [] 0).handleRequest ⟨.say ⟨[0, 98], by decide⟩, none, 0⟩ 4).written =
        [(4, [])] ∧
      ¬ Echoes (PollServer.start [] 0).toProcess
        ((PollServer.start [] 0).handleRequest ⟨.say ⟨[0, 98], by decide⟩, none, 0⟩ 4).toProcess 4
        ⟨[0, 98], by decide⟩ := by
  have hselect : ((SelectServer.start []).handleRequest
      ⟨.say ⟨[97, 0, 98], by decide⟩, none, 0⟩ 4).written = [(4, [97])] := by decide
  have hpoll : ((PollServer.start [] 0).handleRequest
      ⟨.say ⟨[0, 98], by decide⟩, none, 0⟩ 4).written = [(4, [])] := by decide
  refine ⟨hselect, ?_, hpoll, ?_⟩
  · rintro ⟨_, hwritten⟩
    exact absurd (hselect.symm.trans hwritten) (by decide)
  · rintro ⟨_, hwritten⟩
    exact absurd (hpoll.symm.trans hwritten) (by decide)

end UnixIpc.Servers
