import UnixIpc.Lib.Run
import UnixIpc.Servers.Request

/-! The client for the TCP servers, from `connect` on: it sends what is typed, word by word, and prints
    what one read brings back.

        cin >> buff ──▶ w ⏎ ──"close\r\n"──▶ break
                         └──▶ write(strlen(buff) bytes) ──▶ read into buff ──▶ print, memset
                                  "stop\r\n": the last round

    Neither `>>` nor the two stores of the line end look at the size of `buff`, and the read goes on
    top of the line just sent: what is printed is the string that both leave in `buff`. -/

namespace UnixIpc.Clients
open UnixIpc.Bytes UnixIpc.Servers

/-- `'\r'`, `'\n'`. -/
def lineEnd : List UInt8 := ascii "\r\n"

/-- The command that ends the client alone. -/
def closeCommand : List UInt8 := ascii "close\r\n"

/-- Where the client is: at `std::cin`, in `read`, behind its loop, gone through `errorHandler` or
    by the SIGPIPE of its write, or behind an access out of bounds. -/
inductive Stage where
  | typing | waiting | left | exited | undefined
  deriving DecidableEq

/-- The locals of main, and what it has printed of its reads. -/
structure TcpClient where
  isRunning : Bool
  buff : Block 1024
  stage : Stage
  printed : List (List UInt8)
  deriving DecidableEq

/-- `std::cin >> buff` and the two stores behind it; `none` when one of them leaves `buff`. -/
def enter (buff : Block 1024) (word : List UInt8) : Option (Block 1024) :=
  (copyInto buff 0 (word ++ [0])).bind fun b =>
    (cString b.1).bind fun string => copyInto b string.length lineEnd

namespace TcpClient

def start : TcpClient where
  isRunning := true
  buff := zeros 1024
  stage := .typing
  printed := []

/-- From `std::cin >> buff` to the write, with the bytes written. `stack` is what stands behind
    `buff`, `accepted` whether write(2) takes the bytes. -/
def send (c : TcpClient) (word stack : List UInt8) (accepted : Bool) : TcpClient × List UInt8 :=
  match enter c.buff word with
  | none => ({ c with stage := .undefined }, [])
  | some buff =>
    match cString (buff.1 ++ stack) with
    | none => ({ c with stage := .undefined }, [])
    | some data =>
      if data = closeCommand then ({ c with stage := .left }, [])
      else if accepted then
        ({ c with isRunning := c.isRunning && data ≠ stopCommand, buff := buff, stage := .waiting },
          data)
      else ({ c with stage := .exited }, [])

/-- `buff` after a read of this chunk. -/
def overlay (buff : Block 1024) (chunk : Chunk) : Block 1024 :=
  ⟨chunk.1 ++ buff.1.drop chunk.1.length, by
    have hbuff := buff.2
    have hchunk := chunk.2
    rw [List.length_append, List.length_drop]
    omega⟩

/-- From the read (`none`: -1) to the end of the round. -/
def receive (c : TcpClient) (chunk : Option Chunk) (stack : List UInt8) : TcpClient :=
  match chunk with
  | none => { c with stage := .exited }
  | some chunk =>
    match cString ((overlay c.buff chunk).1 ++ stack) with
    | none => { c with stage := .undefined }
    | some text =>
      { c with
        buff := zeros 1024
        stage := if c.isRunning then .typing else .left
        printed := c.printed ++ [text] }

end TcpClient

/-! ### The line -/

/-- `buff` holds this line, and zeros behind it. -/
def Holds (buff : Block 1024) (line : List UInt8) : Prop :=
  buff.1 = line ++ List.replicate (1024 - line.length) 0

/-- A word that leaves room for line end and terminator. -/
def Fits (word : List UInt8) : Prop := 0 ∉ word ∧ word.length ≤ 1021

theorem lineEnd_length : lineEnd.length = 2 := by decide

theorem nul_not_mem_lineEnd : 0 ∉ lineEnd := by decide

theorem Fits.line_lt {word : List UInt8} (h : Fits word) : (word ++ lineEnd).length < 1024 := by
  have hlen := h.2
  rw [List.length_append, lineEnd_length]
  omega

theorem Fits.nul_not_mem {word : List UInt8} (h : Fits word) : 0 ∉ word ++ lineEnd := by
  rw [List.mem_append, not_or]
  exact ⟨h.1, nul_not_mem_lineEnd⟩

/-- A line in `buff` ends there. -/
theorem Holds.cString_eq {buff : Block 1024} {line : List UInt8} (h : Holds buff line)
    (hnul : 0 ∉ line) (hlen : line.length < 1024) (stack : List UInt8) :
    cString (buff.1 ++ stack) = some line := by
  rw [h, List.append_assoc, cString_append_iff]
  refine ⟨hnul, ?_⟩
  obtain ⟨n, hn⟩ := Nat.exists_eq_add_of_lt hlen
  rw [show 1024 - line.length = n + 1 by omega, List.replicate_succ]
  rfl

theorem copyInto_eq {n : ℕ} {dst : Block n} {off : ℕ} {src bytes : List UInt8}
    (hfit : off + src.length ≤ n)
    (hbytes : dst.1.take off ++ src ++ dst.1.drop (off + src.length) = bytes) :
    ∃ b, copyInto dst off src = some b ∧ b.1 = bytes := by
  obtain ⟨b, hb⟩ := copyInto_isSome dst off src hfit
  exact ⟨b, hb, (copyInto_val hb).2.trans hbytes⟩

/-- On an empty `buff`, a word that fits makes a line. -/
theorem enter_zeros {word : List UInt8} (h : Fits word) :
    ∃ b, enter (zeros 1024) word = some b ∧ Holds b (word ++ lineEnd) := by
  obtain ⟨hnul, hlen⟩ := h
  have hword : ∃ b, copyInto (zeros 1024) 0 (word ++ [0]) = some b ∧
      b.1 = word ++ List.replicate (1024 - word.length) 0 := by
    refine copyInto_eq (by rw [List.length_append, List.length_singleton]; omega) ?_
    rw [zeros, List.drop_replicate, List.take_zero, List.nil_append, List.append_assoc]
    congr 1
    rw [← List.replicate_one, List.replicate_append_replicate]
    congr 1
    simp only [List.length_append, List.length_replicate]
    omega
  obtain ⟨b, hb, hbval⟩ := hword
  have hstring : cString b.1 = some word := by
    have hholds : Holds b word := hbval
    rw [← hholds.cString_eq hnul (by omega) [], List.append_nil]
  have hline : ∃ b', copyInto b word.length lineEnd = some b' ∧
      b'.1 = word ++ lineEnd ++ List.replicate (1024 - (word ++ lineEnd).length) 0 := by
    refine copyInto_eq (by rw [lineEnd_length]; omega) ?_
    rw [hbval, List.take_left' rfl, List.drop_append, List.drop_eq_nil_of_le (by omega),
      List.nil_append, List.drop_replicate, lineEnd_length, List.length_append, lineEnd_length]
    congr 2
    omega
  obtain ⟨b', hb', hval⟩ := hline
  refine ⟨b', ?_, hval⟩
  rw [enter, hb, Option.bind_some, hstring, Option.bind_some, hb']

/-- Whatever is typed, the string in `buff` begins with a byte of it or with the line end. -/
theorem enter_ne_nil {buff b : Block 1024} {word stack data : List UInt8}
    (henter : enter buff word = some b) (hstring : cString (b.1 ++ stack) = some data) :
    data ≠ [] := by
  rw [enter, Option.bind_eq_some_iff] at henter
  obtain ⟨first, -, henter⟩ := henter
  rw [Option.bind_eq_some_iff] at henter
  obtain ⟨string, hfirst, hline⟩ := henter
  have hval := (copyInto_val hline).2
  have hprefix : string <+: first.1 := by
    rw [cString] at hfirst
    split at hfirst
    · exact Option.some.inj hfirst ▸ List.takeWhile_prefix _
    · exact absurd hfirst (by simp)
  rw [← List.prefix_iff_eq_take.mp hprefix] at hval
  rintro rfl
  have hhead := ((cString_append_iff [] (b.1 ++ stack)).mp hstring).2
  rw [hval] at hhead
  cases string with
  | nil => exact absurd hhead (by simp [lineEnd, ascii])
  | cons c string =>
    have hc : c = 0 := by simpa using hhead
    exact nul_not_mem_of_cString hfirst (hc ▸ List.mem_cons_self ..)

/-- What a read leaves of a line: the chunk, and the part of the line behind it. -/
def overwritten (chunk line : List UInt8) : List UInt8 := chunk ++ line.drop chunk.length

theorem overwritten_eq_iff {chunk line : List UInt8} : overwritten chunk line = line ↔ chunk <+: line := by
  constructor
  · intro heq
    exact ⟨line.drop chunk.length, heq⟩
  · rintro ⟨rest, rfl⟩
    rw [overwritten, List.drop_left]

theorem overlay_holds {buff : Block 1024} {line : List UInt8} {chunk : Chunk} (h : Holds buff line)
    (hlen : line.length < 1024) : Holds (TcpClient.overlay buff chunk) (overwritten chunk.1 line) := by
  have hchunk := chunk.2
  change chunk.1 ++ buff.1.drop chunk.1.length = _
  rw [h, overwritten, List.drop_append, List.drop_replicate, List.append_assoc]
  congr 3
  rw [List.length_append, List.length_drop]
  omega

/-! ### What the steps do -/

namespace TcpClient
variable {c : TcpClient} {word stack : List UInt8}

/-- Either nothing is written, and the loop is over, or the string in `buff` is. -/
theorem send_cases (c : TcpClient) (word stack : List UInt8) (accepted : Bool) :
    (∃ stage, stage ≠ .typing ∧ stage ≠ .waiting ∧
        c.send word stack accepted = ({ c with stage := stage }, [])) ∨
      ∃ buff data, enter c.buff word = some buff ∧ cString (buff.1 ++ stack) = some data ∧
        c.send word stack accepted =
          ({ c with isRunning := c.isRunning && data ≠ stopCommand, buff := buff
                    stage := .waiting }, data) := by
  cases henter : enter c.buff word with
  | none => exact .inl ⟨.undefined, by simp, by simp, by simp [send, henter]⟩
  | some buff =>
    cases hstring : cString (buff.1 ++ stack) with
    | none => exact .inl ⟨.undefined, by simp, by simp, by simp [send, henter, hstring]⟩
    | some data =>
      by_cases hclose : data = closeCommand
      · exact .inl ⟨.left, by simp, by simp, by simp [send, henter, hstring, hclose]⟩
      · cases accepted with
        | false => exact .inl ⟨.exited, by simp, by simp, by simp [send, henter, hstring, hclose]⟩
        | true => exact .inr ⟨buff, data, rfl, hstring, by simp [send, henter, hstring, hclose]⟩

/-- A word that fits is sent with its line end, whatever stands behind `buff`. -/
theorem send_fits (h : Fits word) (hzeros : c.buff = zeros 1024) (accepted : Bool)
    (stack : List UInt8) :
    ∃ buff, Holds buff (word ++ lineEnd) ∧ c.send word stack accepted =
      if word ++ lineEnd = closeCommand then ({ c with stage := .left }, [])
      else if accepted then
        ({ c with isRunning := c.isRunning && word ++ lineEnd ≠ stopCommand, buff := buff
                  stage := .waiting }, word ++ lineEnd)
      else ({ c with stage := .exited }, []) := by
  obtain ⟨buff, henter, hholds⟩ := enter_zeros h
  refine ⟨buff, hholds, ?_⟩
  rw [send, hzeros, henter]
  simp only [hholds.cString_eq h.nul_not_mem h.line_lt stack]

/-- A read of a chunk without NULs, short enough for a terminator, is printed over the line. -/
theorem receive_plain {line : List UInt8} {chunk : Chunk} (hholds : Holds c.buff line)
    (hline : 0 ∉ line) (hlen : line.length < 1024) (hchunk : 0 ∉ chunk.1)
    (hsize : chunk.1.length < 1024) :
    c.receive (some chunk) stack =
      { c with
        buff := zeros 1024
        stage := if c.isRunning then .typing else .left
        printed := c.printed ++ [overwritten chunk.1 line] } := by
  have hnul : 0 ∉ overwritten chunk.1 line := by
    rw [overwritten, List.mem_append, not_or]
    exact ⟨hchunk, fun hmem => hline (List.mem_of_mem_drop hmem)⟩
  have hshort : (overwritten chunk.1 line).length < 1024 := by
    rw [overwritten, List.length_append, List.length_drop]
    omega
  have hover : Holds (overlay c.buff chunk) (overwritten chunk.1 line) := overlay_holds hholds hlen
  have hstring := hover.cString_eq hnul hshort stack
  rw [receive]
  simp only [hstring]

end TcpClient

/-! ### A session, whoever the server is -/

/-- A call that main makes: `std::cin >> buff` up to the write, or the read and what is behind it. -/
inductive Call where
  | type (word stack : List UInt8) (accepted : Bool)
  | fetch (chunk : Option Chunk) (stack : List UInt8)

/-- The client, the lines it has written and the chunks it has read. -/
structure Session where
  client : TcpClient
  lines : List (List UInt8)
  fetched : List (List UInt8)

namespace Session

def start : Session := ⟨.start, [], []⟩

def next (s : Session) : Call → Session
  | .type word stack accepted =>
    if s.client.stage = .typing then
      let out := s.client.send word stack accepted
      { s with client := out.1
               lines := if out.1.stage = .waiting then s.lines ++ [out.2] else s.lines }
    else s
  | .fetch chunk stack =>
    if s.client.stage = .waiting then
      { s with client := s.client.receive chunk stack
               fetched := s.fetched ++ (chunk.map (·.1)).toList }
    else s

end Session

/-- A word that fits, or a read without NULs that leaves room for a terminator. -/
def Call.Plain : Call → Prop
  | .type word _ _ => Fits word
  | .fetch chunk _ => ∀ c, chunk = some c → 0 ∉ c.1 ∧ c.1.length < 1024

namespace TcpClient
variable {c : TcpClient} {word : List UInt8} {accepted : Bool}

/-- The client writes the typed word and its line end, whatever stands behind `buff`, and goes on to
    its read. -/
def SendsLine (c : TcpClient) (word : List UInt8) (accepted : Bool) : Prop :=
  ∀ stack, ∃ c' : TcpClient,
    c.send word stack accepted = (c', word ++ lineEnd) ∧ c'.stage = .waiting

theorem line_eq_closeCommand_iff (word : List UInt8) :
    word ++ lineEnd = closeCommand ↔ word = ascii "close" := by
  rw [show closeCommand = ascii "close" ++ lineEnd by decide]
  exact List.append_left_inj lineEnd

/-- A line that is sent stands in `buff` with its terminator. -/
theorem SendsLine.fits (h : c.SendsLine word accepted) : Fits word := by
  obtain ⟨c', hsend, hwaiting⟩ := h []
  rcases c.send_cases word [] accepted with
    ⟨stage, -, hstage, heq⟩ | ⟨buff, data, -, hstring, heq⟩
  · obtain ⟨rfl, -⟩ := Prod.mk.inj (heq.symm.trans hsend)
    exact absurd hwaiting hstage
  · obtain ⟨-, rfl⟩ := Prod.mk.inj (heq.symm.trans hsend)
    rw [List.append_nil] at hstring
    have hnul : 0 ∉ word ++ lineEnd := nul_not_mem_of_cString hstring
    have hlen : (word ++ lineEnd).length < 1024 := buff.2 ▸ length_lt_of_cString hstring
    rw [List.length_append, lineEnd_length] at hlen
    exact ⟨fun hmem => hnul (List.mem_append_left _ hmem), by omega⟩

theorem sendsLine_iff (hzeros : c.buff = zeros 1024) (word : List UInt8) (accepted : Bool) :
    c.SendsLine word accepted ↔ Fits word ∧ word ≠ ascii "close" ∧ accepted = true := by
  constructor
  · intro h
    obtain ⟨c', hsend, hwaiting⟩ := h []
    obtain ⟨buff, -, heq⟩ := send_fits h.fits hzeros accepted []
    rw [hsend] at heq
    split at heq
    · exact absurd (congrArg (·.1.stage) heq) (by simp [hwaiting])
    · rename_i hline
      split at heq
      · rename_i htaken
        exact ⟨h.fits, mt (line_eq_closeCommand_iff word).mpr hline, htaken⟩
      · exact absurd (congrArg (·.1.stage) heq) (by simp [hwaiting])
  · rintro ⟨hfits, hword, rfl⟩ stack
    obtain ⟨buff, -, heq⟩ := send_fits hfits hzeros true stack
    rw [if_neg (mt (line_eq_closeCommand_iff word).mp hword), if_pos rfl] at heq
    exact ⟨_, heq, rfl⟩

/-- `close` leaves the loop before the write. -/
theorem send_close (hzeros : c.buff = zeros 1024) (stack : List UInt8) :
    c.send (ascii "close") stack accepted = ({ c with stage := .left }, []) := by
  have hfits : Fits (ascii "close") := ⟨by decide, by decide⟩
  obtain ⟨buff, -, heq⟩ := send_fits hfits hzeros accepted stack
  rw [heq, if_pos ((line_eq_closeCommand_iff _).mpr rfl)]

/-- A failed write leaves the process. -/
theorem send_refused (hfits : Fits word) (hzeros : c.buff = zeros 1024) (stack : List UInt8)
    (hword : word ≠ ascii "close") :
    c.send word stack false = ({ c with stage := .exited }, []) := by
  obtain ⟨buff, -, heq⟩ := send_fits hfits hzeros false stack
  rw [heq, if_neg (mt (line_eq_closeCommand_iff word).mp hword), if_neg Bool.false_ne_true]

end TcpClient

namespace Session
variable {s : Session}

/-- What is typed at the prompt ends the session, or adds a line, which holds no NUL and is not
    empty. -/
theorem next_type (s : Session) (word stack : List UInt8) (accepted : Bool) :
    s.next (.type word stack accepted) = s ∨
      (s.next (.type word stack accepted)).fetched = s.fetched ∧ s.client.stage = .typing ∧
        ((s.next (.type word stack accepted)).lines = s.lines ∧
            (s.next (.type word stack accepted)).client.stage ≠ .waiting ∨
          (s.next (.type word stack accepted)).client.stage = .waiting ∧
            ∃ line, line ≠ [] ∧ 0 ∉ line ∧
              (s.next (.type word stack accepted)).lines = s.lines ++ [line]) := by
  rw [Session.next]
  split
  case isFalse => exact .inl rfl
  case isTrue htyping =>
    refine .inr ⟨rfl, htyping, ?_⟩
    rcases s.client.send_cases word stack accepted with
      ⟨stage, -, hwaiting, hsend⟩ | ⟨buff, data, henter, hstring, hsend⟩
    · simp only [hsend, hwaiting, if_false]
      exact .inl ⟨trivial, hwaiting⟩
    · simp only [hsend, if_true]
      exact .inr ⟨trivial, data, enter_ne_nil henter hstring, nul_not_mem_of_cString hstring, rfl⟩

/-- A read adds its chunk, and ends the wait. -/
theorem next_fetch (s : Session) (chunk : Chunk) (stack : List UInt8)
    (h : s.client.stage = .waiting) :
    (s.next (.fetch (some chunk) stack)).fetched = s.fetched ++ [chunk.1] ∧
      (s.next (.fetch (some chunk) stack)).lines = s.lines ∧
      (s.next (.fetch (some chunk) stack)).client.stage ≠ .waiting := by
  rw [Session.next, if_pos h]
  refine ⟨rfl, rfl, ?_⟩
  simp only [TcpClient.receive]
  split
  · simp
  · simp only
    split <;> simp

/-- At the prompt `buff` is empty. -/
def Cleared (s : Session) : Prop := s.client.stage = .typing → s.client.buff = zeros 1024

theorem Cleared.next (h : s.Cleared) (call : Call) : (s.next call).Cleared := by
  cases call with
  | type word stack accepted =>
    rw [Session.next]
    split
    · intro htyping
      rcases s.client.send_cases word stack accepted with
        ⟨stage, hstage, -, hsend⟩ | ⟨buff, data, -, -, hsend⟩
      · simp only [hsend] at htyping
        exact absurd htyping hstage
      · simp [hsend] at htyping
    · exact h
  | fetch chunk stack =>
    rw [Session.next]
    split
    · intro htyping
      cases chunk with
      | none => simp [TcpClient.receive] at htyping
      | some chunk =>
        simp only [TcpClient.receive] at htyping ⊢
        split at htyping
        · simp at htyping
        · rfl
    · exact h

/-- CORRECT: in every session, whatever has been typed and read before, the client at its prompt sends
    the next word with its line end exactly when the word holds no NUL and at most 1021 bytes, is not
    `close`, and write(2) takes the line. Of the words that fit, `close` makes it leave its loop and a
    failed write makes it exit, and nothing is sent. -/
theorem sends_line_iff (calls : List Call) (word : List UInt8) (accepted : Bool)
    (htyping : (calls.foldl next start).client.stage = .typing) :
    let c := (calls.foldl next start).client
    (c.SendsLine word accepted ↔
      (word.length ≤ 1021 ∧ 0 ∉ word) ∧ word ≠ ascii "close" ∧ accepted = true) ∧
    ∀ stack, c.send (ascii "close") stack accepted = ({ c with stage := .left }, []) ∧
      (word.length ≤ 1021 → 0 ∉ word → word ≠ ascii "close" →
        c.send word stack false = ({ c with stage := .exited }, [])) := by
  intro c
  have hcleared : (calls.foldl next start).Cleared :=
    Run.foldl_inv (fun _ call hs => hs.next call) calls start fun _ => rfl
  have hzeros : c.buff = zeros 1024 := hcleared htyping
  refine ⟨?_, ?_⟩
  · rw [TcpClient.sendsLine_iff hzeros, Fits, and_comm (a := 0 ∉ word)]
  · exact fun stack => ⟨TcpClient.send_close hzeros stack,
      fun hlen hnul => TcpClient.send_refused ⟨hnul, hlen⟩ hzeros stack⟩

/-- "hi" is sent, "close" and a refused "hi" are not. -/
theorem sends_line_iff_hi :
    start.client.SendsLine (ascii "hi") true ∧
      start.client.send (ascii "close") [] true = ({ start.client with stage := .left }, []) ∧
      start.client.send (ascii "hi") [] false = ({ start.client with stage := .exited }, []) := by
  obtain ⟨hsends, hrest⟩ := sends_line_iff [] (ascii "hi") true rfl
  obtain ⟨hclose, hrefused⟩ := hrest []
  exact ⟨hsends.mpr (by decide), hclose, hrefused (by decide) (by decide) (by decide)⟩

/-- INVARIANT of plain calls: what has been printed are the chunks over their lines; at the prompt
    they are even, in the read there is one line more, and `buff` holds it. -/
structure Paired (s : Session) : Prop where
  printed : s.client.printed = List.zipWith overwritten s.fetched s.lines
  defined : s.client.stage ≠ .undefined
  typing : s.client.stage = .typing →
    s.client.buff = zeros 1024 ∧ s.fetched.length = s.lines.length
  waiting : s.client.stage = .waiting → ∃ before line, s.lines = before ++ [line] ∧
    s.fetched.length = before.length ∧ Holds s.client.buff line ∧ 0 ∉ line ∧ line.length < 1024

theorem paired_start : start.Paired where
  printed := rfl
  defined := by simp [start, TcpClient.start]
  typing _ := ⟨rfl, rfl⟩
  waiting h := by simp [start, TcpClient.start] at h

/-- A line more makes no difference to the chunks before it. -/
theorem zipWith_behind {fetched lines : List (List UInt8)} (h : fetched.length ≤ lines.length)
    (later : List (List UInt8)) :
    List.zipWith overwritten fetched (lines ++ later) = List.zipWith overwritten fetched lines := by
  induction fetched generalizing lines with
  | nil => rfl
  | cons chunk fetched ih =>
    cases lines with
    | nil => exact absurd h (by simp)
    | cons line lines =>
      rw [List.cons_append, List.zipWith_cons_cons, List.zipWith_cons_cons,
        ih (Nat.le_of_succ_le_succ h)]

theorem Paired.type {word stack : List UInt8} (h : s.Paired) (hfits : Fits word) (accepted : Bool) :
    (s.next (.type word stack accepted)).Paired := by
  rw [Session.next]
  split
  case isFalse => exact h
  case isTrue htyping =>
    obtain ⟨hzeros, heven⟩ := h.typing htyping
    obtain ⟨buff, hholds, hsend⟩ : ∃ buff, Holds buff (word ++ lineEnd) ∧
        s.client.send word stack accepted = _ := TcpClient.send_fits hfits hzeros accepted stack
    simp only [hsend]
    split
    · exact ⟨h.printed, by simp, by simp, by simp⟩
    · split
      · refine ⟨?_, by simp, by simp, ?_⟩
        · simp only [if_true]
          rw [h.printed, zipWith_behind heven.le]
        · intro _
          exact ⟨s.lines, word ++ lineEnd, by simp, heven, hholds, hfits.nul_not_mem, hfits.line_lt⟩
      · exact ⟨h.printed, by simp, by simp, by simp⟩

theorem Paired.fetch {chunk : Option Chunk} {stack : List UInt8} (h : s.Paired)
    (hplain : (Call.fetch chunk stack).Plain) : (s.next (.fetch chunk stack)).Paired := by
  rw [Session.next]
  split
  case isFalse => exact h
  case isTrue hwaiting =>
    cases chunk with
    | none =>
      refine ⟨?_, by simp [TcpClient.receive], by simp [TcpClient.receive],
        by simp [TcpClient.receive]⟩
      simp [TcpClient.receive, h.printed]
    | some chunk =>
      obtain ⟨hchunk, hsize⟩ := hplain chunk rfl
      obtain ⟨before, line, hlines, heven, hholds, hline, hlen⟩ := h.waiting hwaiting
      rw [TcpClient.receive_plain hholds hline hlen hchunk hsize]
      have hprinted : s.client.printed ++ [overwritten chunk.1 line] =
          List.zipWith overwritten (s.fetched ++ [chunk.1]) s.lines := by
        rw [h.printed, hlines, List.zipWith_append heven, zipWith_behind heven.le]
        rfl
      have hnow : (s.fetched ++ [chunk.1]).length = s.lines.length := by
        rw [hlines, List.length_append, List.length_append, heven]
        rfl
      refine ⟨hprinted, ?_, fun _ => ⟨rfl, hnow⟩, ?_⟩
      · simp only
        split <;> simp
      · simp only
        split <;> simp

theorem Paired.next {call : Call} (h : s.Paired) (hplain : call.Plain) : (s.next call).Paired := by
  cases call with
  | type word stack accepted => exact h.type hplain accepted
  | fetch chunk stack => exact h.fetch hplain

/-- Chunks printed over their lines give the lines back just when each chunk begins its line. -/
theorem zipWith_overwritten_iff (fetched lines : List (List UInt8)) :
    List.zipWith overwritten fetched lines = lines.take fetched.length ↔
      ∀ p ∈ fetched.zip lines, p.1 <+: p.2 := by
  induction fetched generalizing lines with
  | nil => simp
  | cons chunk fetched ih =>
    cases lines with
    | nil => simp
    | cons line lines =>
      rw [List.zipWith_cons_cons, List.length_cons, List.take_succ_cons, List.cons.injEq, ih,
        overwritten_eq_iff, List.zip_cons_cons, List.forall_mem_cons]

/-- CORRECT: in every session of words that fit and reads without NULs that leave room for one, with
    whatever server, the client prints of each round the chunk with the rest of its own line behind it;
    so it prints its own lines exactly when each chunk is a beginning of its line, be it the whole echo,
    the first bytes of it, or nothing at all from a server that has gone. -/
theorem prints_lines_iff (calls : List Call) (hplain : ∀ call ∈ calls, call.Plain) :
    let s := calls.foldl next start
    s.client.stage ≠ .undefined ∧
      s.client.printed = List.zipWith overwritten s.fetched s.lines ∧
      (s.client.printed = s.lines.take s.fetched.length ↔
        ∀ p ∈ s.fetched.zip s.lines, p.1 <+: p.2) := by
  intro s
  have hpaired : s.Paired := (Run.along_of_step (fun _ _ hs hc => hs.next hc) calls start
    paired_start (Run.throughout_of_forall hplain start)).last
  refine ⟨hpaired.defined, hpaired.printed, ?_⟩
  rw [hpaired.printed, zipWith_overwritten_iff]

/-- "hi" is typed, and the server has gone. -/
def toNobody : List Call := [.type (ascii "hi") [] true, .fetch (some ⟨[], nil_length_le⟩) []]

theorem toNobody_plain : ∀ call ∈ toNobody, call.Plain := by
  intro call hcall
  rcases List.mem_pair.mp hcall with rfl | rfl
  · exact ⟨by decide, by decide⟩
  · rintro chunk hchunk
    obtain rfl := Option.some.inj hchunk
    exact ⟨by simp, by simp⟩

/-- It is printed all the same. -/
theorem prints_lines_iff_toNobody :
    (toNobody.foldl next start).client.printed = [ascii "hi\r\n"] := by
  have hlines := (prints_lines_iff toNobody toNobody_plain).2.1
  rw [hlines]
  decide

end Session

end UnixIpc.Clients
