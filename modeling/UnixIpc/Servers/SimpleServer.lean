import UnixIpc.Engine.IoOperations
import UnixIpc.Servers.Echo

/-! `handleConnect` of the simple TCP server, a loop of any length over one buffer:

        buff   0 0 0 0 …  ──read──▶  h i 0 0 …  ──write──▶  (1024 bytes)  ──clear──▶  0 0 0 0 …

    Clearing keeps the chunks apart (`foldl_received`): each write depends on its own chunk alone.
    But it is the whole buffer that is written, so zeros come after every chunk. -/

namespace UnixIpc.Servers.SimpleServer
open UnixIpc.Bytes UnixIpc.Engine

/-- Where `while (true)` stands; `killed` is in a write, by SIGPIPE. -/
inductive Loop where
  | looping | left | killed | undefined
  | threw (errorText : String)
  deriving DecidableEq

/-- `handleConnect` at a read: `isRunServer`, `buff`, and what each write has brought the client. -/
structure Connect where
  isRunServer : Bool
  loop : Loop
  buff : List UInt8
  written : List (List UInt8)
  deriving DecidableEq

/-- How the system answers in one round: the read, and the write if there is one. -/
structure Round where
  incoming : Incoming 1024
  taken : Written 1024

namespace Round

/-- What a write from `buff` brings to the client. -/
def sent (r : Round) (buff : List UInt8) : List UInt8 :=
  match r.taken with
  | .sigpipe | .returned none => []
  | .returned (some n) => buff.take n.1

/-- `buff` after a read into the cleared buffer. -/
def buff (r : Round) : List UInt8 := r.incoming.over (zeros 1024).1

/-- The string found there, over a stack with these bytes behind it. -/
def string (stack : List UInt8) (r : Round) : Option (List UInt8) := cString (r.buff ++ stack)

theorem length_buff (r : Round) : r.buff.length = 1024 := by
  unfold buff Incoming.over
  have hzeros := (zeros 1024).2
  cases hr : r.incoming with
  | none => exact hzeros
  | some bytes =>
    have hbytes := bytes.2.1
    rw [List.length_append, List.length_drop, hzeros]
    omega

end Round

namespace Connect

def start : Connect := ⟨true, .looping, (zeros 1024).1, []⟩

/-- One round of the loop, over a stack with these bytes behind `buff`. -/
def next (stack : List UInt8) (c : Connect) (r : Round) : Connect :=
  if c.loop = .looping then
    match IoOperation.readFrom c.buff r.incoming with
    | .error errorText => { c with loop := .threw errorText }
    | .ok (n, buff) =>
      if n = 0 then { c with buff := buff, loop := .left }
      else
        match cString (buff ++ stack) with
        | none => { c with buff := buff, loop := .undefined }
        | some data =>
          if data = stopCommand then { c with buff := buff, isRunServer := false, loop := .left }
          else
            match r.taken with
            | .sigpipe => { c with buff := buff, loop := .killed }
            | .returned taken =>
              match IoOperation.writeTo taken with
              | .error errorText => { c with buff := buff, loop := .threw errorText }
              | .ok _ =>
                { c with
                  buff := IoOperation.clearBuffer buff 1024
                  written := c.written ++ [r.sent buff] }
  else c

end Connect

def handleConnect (stack : List UInt8) (rounds : List Round) : Connect :=
  rounds.foldl (Connect.next stack) .start

/-- A chunk arrives, and the write takes all it is given. -/
def received (chunk : Chunk) : Round where
  incoming := some ⟨chunk.1, chunk.2, by have := chunk.2; omega⟩
  taken := .returned (some ⟨1024, by decide, by decide⟩)

/-- The end of file. -/
def ended : Round := received ⟨[], Nat.zero_le 1024⟩

/-- The string in `buff` after a read into the cleared buffer. -/
def string (chunk : Chunk) : List UInt8 := (buff chunk).1.takeWhile (· ≠ 0)

/-- The chunks before the first that stops the server. -/
def unstopped (chunks : List Chunk) : List Chunk := chunks.takeWhile (string · ≠ stopCommand)

namespace Connect

/-- The loop goes on, with its buffer cleared. -/
structure Ready (c : Connect) : Prop where
  looping : c.loop = .looping
  cleared : c.buff = (zeros 1024).1

theorem start_ready : start.Ready := ⟨rfl, rfl⟩

theorem foldl_next_left {c : Connect} (h : c.loop = .left) (stack : List UInt8)
    (rounds : List Round) : rounds.foldl (next stack) c = c := by
  have hstay : ∀ r, c.next stack r = c := fun _ => if_neg (by rw [h]; decide)
  exact List.foldl_fixed' hstay rounds

/-- A round from a cleared buffer. -/
theorem next_eq {c : Connect} (h : c.Ready) (r : Round) (stack : List UInt8) :
    c.next stack r =
      if r.incoming.transfer.ret.toUInt64 = 0 then { c with buff := r.buff, loop := .left }
      else
        match r.string stack with
        | none => { c with buff := r.buff, loop := .undefined }
        | some data =>
          if data = stopCommand then { c with buff := r.buff, isRunServer := false, loop := .left }
          else if r.taken = .sigpipe then { c with buff := r.buff, loop := .killed }
          else
            { c with
              buff := IoOperation.clearBuffer r.buff 1024
              written := c.written ++ [r.sent r.buff] } := by
  rw [next, if_pos h.looping, IoOperation.readFrom_eq, h.cleared]
  simp only [IoOperation.writeTo_eq]
  cases r.taken with
  | sigpipe => rfl
  | returned taken => rfl

theorem next_ended {c : Connect} (h : c.Ready) (stack : List UInt8) :
    c.next stack ended = { c with loop := .left } := by
  have hbuff : ended.buff = c.buff := h.cleared.symm
  rw [next_eq h, hbuff]
  rfl

/-- STEP: one chunk ends the loop, or is written out with the rest of `buff`. -/
theorem next_received {c : Connect} (h : c.Ready) {chunk : Chunk} (hne : chunk.1 ≠ [])
    (hlen : chunk.1.length < 1024) (stack : List UInt8) :
    c.next stack (received chunk) =
      if string chunk = stopCommand then
        { c with buff := (Servers.buff chunk).1, isRunServer := false, loop := .left }
      else { c with written := c.written ++ [(Servers.buff chunk).1] } := by
  have hbuff : (received chunk).buff = (Servers.buff chunk).1 :=
    congrArg (chunk.1 ++ ·) List.drop_replicate
  have hcount : (Incoming.transfer (received chunk).incoming).ret.toUInt64 ≠ 0 := by
    intro hzero
    have hn : (Transfer.ret (Incoming.transfer (received chunk).incoming)).toUInt64.toNat =
        chunk.1.length := Transfer.toUInt64_ret_some _
    exact hne (List.length_eq_zero_iff.mp (hn.symm.trans (congrArg UInt64.toNat hzero)))
  have hnul : 0 ∈ (Servers.buff chunk).1 := by
    by_contra hnot
    have hscan : ScansInside chunk := scansInside_iff.mpr (Or.inl hlen)
    rw [ScansInside, cString, if_neg hnot] at hscan
    cases hscan
  have hstring : (received chunk).string stack = some (string chunk) := by
    rw [Round.string, hbuff, cString_append_of_mem hnul, cString, if_pos hnul]
    rfl
  have hclear : IoOperation.clearBuffer (Servers.buff chunk).1 1024 = c.buff := by
    rw [IoOperation.clearBuffer, List.drop_eq_nil_of_le (Servers.buff chunk).2.le, List.append_nil,
      h.cleared]
    rfl
  have hsent : (received chunk).sent (Servers.buff chunk).1 = (Servers.buff chunk).1 :=
    List.take_of_length_le (Servers.buff chunk).2.le
  have htaken : (received chunk).taken ≠ .sigpipe := by simp [received]
  rw [next_eq h, hbuff]
  simp only [if_neg hcount, hstring, if_neg htaken, hclear, hsent]

/-- RUN: what has been written is the buffer of each chunk up to the first that stops the server. -/
theorem foldl_received {c : Connect} (h : c.Ready) {chunks : List Chunk}
    (hsize : ∀ chunk ∈ chunks, chunk.1 ≠ [] ∧ chunk.1.length < 1024) (stack : List UInt8) :
    ((chunks.map received ++ [ended]).foldl (next stack) c).written =
      c.written ++ (unstopped chunks).map fun chunk => (Servers.buff chunk).1 := by
  induction chunks generalizing c with
  | nil =>
    rw [List.map_nil, List.nil_append, List.foldl_cons, next_ended h]
    simp [unstopped]
  | cons chunk chunks ih =>
    obtain ⟨⟨hne, hlen⟩, hsize'⟩ := List.forall_mem_cons.mp hsize
    rw [List.map_cons, List.cons_append, List.foldl_cons, next_received h hne hlen]
    by_cases hstop : string chunk = stopCommand
    · rw [if_pos hstop, foldl_next_left rfl]
      simp [unstopped, hstop]
    · have hready : ({ c with written := c.written ++ [(Servers.buff chunk).1] } : Connect).Ready :=
        ⟨h.looping, h.cleared⟩
      rw [if_neg hstop, ih hready hsize']
      simp [unstopped, hstop]

end Connect

/-! ### What comes back -/

/-- How many bytes are not NUL. -/
def visible (bytes : List UInt8) : ℕ := bytes.countP (· ≠ 0)

theorem visible_append (front back : List UInt8) :
    visible (front ++ back) = visible front + visible back := List.countP_append

/-- The padding is invisible. -/
theorem visible_buff (chunk : Chunk) : visible (buff chunk).1 = visible chunk.1 := by
  rw [buff, visible_append]
  simp [visible, List.countP_replicate]

theorem visible_buffs (chunks : List Chunk) :
    visible (chunks.map fun chunk => (buff chunk).1).flatten =
      visible (chunks.map (·.1)).flatten := by
  induction chunks with
  | nil => rfl
  | cons chunk chunks ih =>
    rw [List.map_cons, List.map_cons, List.flatten_cons, List.flatten_cons, visible_append,
      visible_append, visible_buff, ih]

/-- A chunk that stops the server holds the command, if not at its end. -/
theorem visible_of_stop {chunk : Chunk} (h : string chunk = stopCommand) : 0 < visible chunk.1 := by
  have hsub : (string chunk).Sublist (buff chunk).1 := List.takeWhile_sublist _
  have hle : visible (string chunk) ≤ visible (buff chunk).1 := hsub.countP_le
  rw [h, visible_buff] at hle
  exact Nat.lt_of_lt_of_le (by decide) hle

/-- A chunk left unread is missed: there are visible bytes in the first one. -/
theorem unstopped_eq_of_visible {chunks : List Chunk}
    (h : visible ((unstopped chunks).map (·.1)).flatten = visible (chunks.map (·.1)).flatten) :
    unstopped chunks = chunks := by
  induction chunks with
  | nil => rfl
  | cons chunk chunks ih =>
    rw [List.map_cons, List.flatten_cons, visible_append] at h
    by_cases hstop : string chunk = stopCommand
    · have hseen := visible_of_stop hstop
      have hnone : unstopped (chunk :: chunks) = [] := by simp [unstopped, hstop]
      rw [hnone] at h
      simp only [List.map_nil, List.flatten_nil] at h
      have hzero : visible [] = 0 := rfl
      omega
    · have hcons : unstopped (chunk :: chunks) = chunk :: unstopped chunks := by
        simp [unstopped, hstop]
      rw [hcons, List.map_cons, List.flatten_cons, visible_append] at h
      rw [hcons, ih (Nat.add_left_cancel h)]

/-- Each write is longer than its chunk. -/
theorem length_buffs {chunks : List Chunk} (h : ∀ chunk ∈ chunks, chunk.1.length < 1024) :
    (chunks.map (·.1)).flatten.length + chunks.length ≤
      (chunks.map fun chunk => (buff chunk).1).flatten.length := by
  induction chunks with
  | nil => exact Nat.le_refl 0
  | cons chunk chunks ih =>
    obtain ⟨hlen, hrest⟩ := List.forall_mem_cons.mp h
    have hbuff := (buff chunk).2
    have hle := ih hrest
    simp only [List.map_cons, List.flatten_cons, List.length_append, List.length_cons]
    omega

/-- CORRECT: what comes back of a sequence of chunks is that sequence only if there is none. -/
theorem comes_back_iff (stack : List UInt8) (chunks : List Chunk)
    (h : ∀ chunk ∈ chunks, chunk.1 ≠ [] ∧ chunk.1.length < 1024 ∧ chunk.1 ≠ stopCommand) :
    (handleConnect stack (chunks.map received ++ [ended])).written.flatten =
        (chunks.map (·.1)).flatten ↔ chunks = [] := by
  have hwritten := Connect.foldl_received Connect.start_ready
    (fun chunk hchunk => ⟨(h chunk hchunk).1, (h chunk hchunk).2.1⟩) stack
  rw [handleConnect, hwritten]
  constructor
  · intro heq
    have hvisible := congrArg visible heq
    rw [Connect.start, List.nil_append, visible_buffs] at hvisible
    rw [Connect.start, List.nil_append, unstopped_eq_of_visible hvisible] at heq
    have hlonger := length_buffs fun chunk hchunk => (h chunk hchunk).2.1
    rw [heq] at hlonger
    exact List.length_eq_zero_iff.mp (by omega)
  · rintro rfl
    rfl

/-- "hi" -/
def hi : Chunk := ⟨ascii "hi", by decide⟩

theorem comes_back_iff_hi :
    (handleConnect [] ([hi].map received ++ [ended])).written.flatten = ([hi].map (·.1)).flatten ↔
      [hi] = [] :=
  comes_back_iff [] [hi] (by decide)

/-- "hi" comes back with 1022 zeros. -/
theorem hi_padded :
    (handleConnect [] ([hi].map received ++ [ended])).written =
        [ascii "hi" ++ List.replicate 1022 0] ∧
      (handleConnect [] ([hi].map received ++ [ended])).written.flatten ≠
        ([hi].map (·.1)).flatten := by
  have hwritten : (handleConnect [] ([hi].map received ++ [ended])).written =
      [hi].map fun chunk => (buff chunk).1 := by
    rw [handleConnect, Connect.foldl_received Connect.start_ready (by decide)]
    rfl
  have hlonger := length_buffs (show ∀ chunk ∈ [hi], chunk.1.length < 1024 by decide)
  rw [hwritten]
  refine ⟨rfl, fun heq => ?_⟩
  rw [heq, List.length_singleton] at hlonger
  omega

end UnixIpc.Servers.SimpleServer
