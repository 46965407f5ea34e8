import UnixIpc.Lib.Run
import UnixIpc.Servers.SimpleServer

/-! When the loop of the simple server's `handleConnect` ends. It leaves at a read of 0 bytes or at
    the stop command, and at nothing else: a failed read is 2^64-1 bytes by the time it is compared
    with 0, leaves `buff` as it was cleared, and the loop reads again, unless its write has no peer and
    SIGPIPE ends the process.

        read(2)      5        -1        -1        -1      …
        buff         "hello"  ""        ""        ""      …
        loop         on       on        on        on      …

    `accept` may have failed before; then every read does. -/

namespace UnixIpc.Servers.SimpleServer
open UnixIpc.Bytes UnixIpc.Engine

/-- How the system answers on this descriptor: for a negative one every call fails. -/
def answered (sockfd : ℤ) (r : Round) : Round := if sockfd < 0 then ⟨none, .returned none⟩ else r

/-- `handleConnect(sockfd)` before its read number `n`. -/
def handling (stack : List UInt8) (sockfd : ℤ) (rounds : ℕ → Round) (n : ℕ) : Connect :=
  Run.after (Connect.next stack) .start (fun k => answered sockfd (rounds k)) n

/-- The loop ends, by `break` or by an exception, after finitely many reads. -/
def Ends (stack : List UInt8) (sockfd : ℤ) (rounds : ℕ → Round) : Prop :=
  ∃ n, (handling stack sockfd rounds n).loop = .left ∨
    ∃ errorText, (handling stack sockfd rounds n).loop = .threw errorText

/-- From some point on there are only reads that return -1 or 0. -/
def Broken (rounds : ℕ → Round) : Prop :=
  ∃ n, ∀ k, n ≤ k → ∀ bytes, (rounds k).incoming = some bytes → bytes.1 = []

namespace Round

/-- The read returns 0, or brings the stop command. -/
def Exits (stack : List UInt8) (r : Round) : Prop :=
  r.incoming.transfer.ret.toUInt64 = 0 ∨ r.string stack = some stopCommand

/-- The round is not survived: the scan for the string finds no NUL, or the write has no peer. -/
def Fatal (stack : List UInt8) (r : Round) : Prop := r.string stack = none ∨ r.taken = .sigpipe

/-- A failed read brings nothing, and neither 0 nor the stop command. -/
theorem not_exits_failed (stack : List UInt8) (taken : Written 1024) :
    ¬ (⟨none, taken⟩ : Round).Exits stack := by
  have hret : (Transfer.ret (none : Transfer 1024)).toUInt64 ≠ 0 := by decide
  have hstring : (⟨none, taken⟩ : Round).string stack = some [] := rfl
  have hempty : ([] : List UInt8) ≠ stopCommand := by decide
  rintro (hzero | hstop)
  · exact hret hzero
  · exact hempty (Option.some.inj (hstring.symm.trans hstop))

end Round

namespace Connect

/-- The loop is over, one way or the other. -/
def Over (c : Connect) : Prop := c.loop = .left ∨ ∃ errorText, c.loop = .threw errorText

variable {c : Connect} {r : Round} {stack : List UInt8}

theorem next_exits (h : c.Ready) (hr : r.Exits stack) : (c.next stack r).Over := by
  left
  rw [next_eq h]
  split
  · rfl
  · rename_i hne
    rw [hr.resolve_left hne]
    simp

/-- The process ends in the loop. -/
def Lost (c : Connect) : Prop := c.loop = .undefined ∨ c.loop = .killed

theorem next_fatal (h : c.Ready) (hr : ¬ r.Exits stack) (hfatal : r.Fatal stack) :
    (c.next stack r).Lost := by
  rw [next_eq h, if_neg fun hzero => hr (.inl hzero)]
  cases hdata : r.string stack with
  | none => exact .inl rfl
  | some data =>
    have hstop : data ≠ stopCommand := fun heq => hr (.inr (heq ▸ hdata))
    have hpipe : r.taken = .sigpipe := hfatal.resolve_left (by simp [hdata])
    simp only [if_neg hstop, if_pos hpipe]
    exact .inr rfl

/-- A round that is survived, and whose read is neither 0 nor the stop command. -/
theorem next_alive (h : c.Ready) (hr : ¬ r.Exits stack) (hfatal : ¬ r.Fatal stack) :
    c.next stack r =
      { c with
        buff := IoOperation.clearBuffer r.buff 1024
        written := c.written ++ [r.sent r.buff] } := by
  obtain ⟨hnul, hpipe⟩ := not_or.mp hfatal
  obtain ⟨data, hdata⟩ := Option.ne_none_iff_exists'.mp hnul
  have hstop : data ≠ stopCommand := fun heq => hr (.inr (heq ▸ hdata))
  rw [next_eq h, if_neg fun hzero => hr (.inl hzero), hdata]
  simp only [if_neg hstop, if_neg hpipe]

/-- STEP: it keeps the loop going. -/
theorem next_goes (h : c.Ready) (hr : ¬ r.Exits stack) (hfatal : ¬ r.Fatal stack) :
    (c.next stack r).Ready := by
  rw [next_alive h hr hfatal]
  refine ⟨h.looping, ?_⟩
  rw [IoOperation.clearBuffer, List.drop_eq_nil_of_le r.length_buff.le, List.append_nil]
  rfl

end Connect

/-- The loop ends when a read exits, before any round is fatal. -/
theorem ends_iff_answered (stack : List UInt8) (sockfd : ℤ) (rounds : ℕ → Round) :
    Ends stack sockfd rounds ↔
      ∃ k, (answered sockfd (rounds k)).Exits stack ∧
        ∀ j < k, ¬ (answered sockfd (rounds j)).Fatal stack := by
  refine Run.exists_after_iff (G := Connect.Ready) (D := Connect.Over)
    (B := Connect.Lost) (X := Round.Exits stack) (U := Round.Fatal stack)
    ?_ ?_ ?_ ?_ ?_ ?_ Connect.start_ready _
  · intro c r h hr hover
    exact Connect.next_goes h hr hover
  · intro c r h hr
    exact Connect.next_exits h hr
  · intro c r h hr hfatal
    exact Connect.next_fatal h hr hfatal
  · intro c r hc
    have hnot : c.loop ≠ .looping := by
      rcases hc with hc | hc <;> rw [hc] <;> exact Loop.noConfusion
    rw [Connect.next, if_neg hnot]
    exact hc
  · rintro c h (hleft | ⟨errorText, hthrew⟩)
    · exact Loop.noConfusion (h.looping.symm.trans hleft)
    · exact Loop.noConfusion (h.looping.symm.trans hthrew)
  · rintro c (hc | hc) (hleft | ⟨errorText, hthrew⟩)
    · exact Loop.noConfusion (hc.symm.trans hleft)
    · exact Loop.noConfusion (hc.symm.trans hthrew)
    · exact Loop.noConfusion (hc.symm.trans hleft)
    · exact Loop.noConfusion (hc.symm.trans hthrew)

/-- EXACT: the loop ends just when the descriptor is one and some read returns 0 or brings the stop
    command, before any that the scan for a string overruns and any write that SIGPIPE ends. -/
theorem ends_iff (stack : List UInt8) (sockfd : ℤ) (rounds : ℕ → Round) :
    Ends stack sockfd rounds ↔
      0 ≤ sockfd ∧ ∃ k, (rounds k).Exits stack ∧ ∀ j < k, ¬ (rounds j).Fatal stack := by
  rw [ends_iff_answered]
  rcases lt_or_ge sockfd 0 with hneg | hpos
  · refine iff_of_false ?_ fun h => absurd h.1 (not_le.mpr hneg)
    rintro ⟨k, hexits, _⟩
    rw [answered, if_pos hneg] at hexits
    exact Round.not_exits_failed stack (.returned none) hexits
  · have hall : ∀ r, answered sockfd r = r := fun r => if_neg (not_lt.mpr hpos)
    simp only [hall, hpos, true_and]

/-- Every read fails, and every write. -/
def failing (_ : ℕ) : Round := ⟨none, .returned none⟩

/-- After an accept that failed the loop reads for ever. -/
theorem failing_never_ends : Broken failing ∧ ¬ Ends [] (-1) failing := by
  refine ⟨⟨0, fun k _ bytes hbytes => absurd hbytes.symm (Option.some_ne_none bytes)⟩, ?_⟩
  rw [ends_iff_answered]
  rintro ⟨k, hexits, _⟩
  exact Round.not_exits_failed [] (.returned none) hexits

end UnixIpc.Servers.SimpleServer
