import UnixIpc.Engine.Buffer
import UnixIpc.Lib.Replies

/-! The calls that the interface of `Buffer` offers, one after another on one buffer, beside an
    array that a write overlays and a clear wipes:

        clear   0 0 0 0    write "abc"   a b c 0    write "x"   x b c 0    read 2   out: x b …

    Behind a `StaticBuffer` of up to `INT_MAX` bytes is such an array (`refines`). -/

namespace UnixIpc.Engine
open UnixIpc.Bytes UnixIpc.Replies
variable {N : ℕ}

/-- An array of the caller's, and how many of its bytes a call is about: no more than it has, and no
    more than a buffer of `N` bytes has. -/
structure Span (N : ℕ) where
  bytes : List UInt8
  size : ℕ
  inside : size ≤ bytes.length
  fits : size ≤ N

/-- A call that touches the bytes. -/
inductive Access (N : ℕ) where
  | write (data : Span N)
  | read (data : Span N)
  | clear

/-- A call through the `Buffer` interface. -/
inductive Call (N : ℕ) where
  | access (a : Access N)
  | capacity
  | size

/-- What a call returns, with the caller's array after a read. -/
inductive Reply where
  | done
  | value (n : ℕ)
  | filled (n : ℕ) (data : List UInt8)
  deriving DecidableEq

namespace Buffer

def access (b : Buffer) : Access N → Except Fault (Buffer × Reply)
  | .write data => (b.write data.bytes data.size).map fun r => (r.1, .value r.2)
  | .read data => (b.read data.bytes data.size).map fun r => (b, .filled r.2 r.1)
  | .clear => b.clear.map fun cleared => (cleared, .done)

def call (b : Buffer) : Call N → Except Fault (Buffer × Reply)
  | .access a => b.access a
  | .capacity => .ok (b, .value b.capacity)
  | .size => .ok (b, .value b.size)

end Buffer

/-! ### The array -/

namespace Reference

theorem length_written (a : Block N) (data : Span N) :
    (data.bytes.take data.size ++ a.1.drop data.size).length = N := by
  have hinside := data.inside
  have hfits := data.fits
  have ha := a.2
  simp only [List.length_append, List.length_take, List.length_drop]
  omega

/-- The first bytes are replaced, the others stay. -/
def written (a : Block N) (data : Span N) : Block N :=
  ⟨data.bytes.take data.size ++ a.1.drop data.size, length_written a data⟩

/-- An access to an array of `N` bytes. -/
def access (a : Block N) : Access N → Block N × Reply
  | .write data => (written a data, .value data.size)
  | .read data => (a, .filled data.size (a.1.take data.size ++ data.bytes.drop data.size))
  | .clear => (zeros N, .done)

end Reference

/-! ### A `StaticBuffer` is that array -/

/-- The bytes behind `data()` are those of the array, and `capacity()` says how many. -/
structure Buffer.Represents (b : Buffer) (a : Block N) : Prop where
  capacity : b.capacity = N
  data : b.data = a.1

theorem StaticBuffer.fresh_represents (Capacity : ℕ) :
    (StaticBuffer.fresh Capacity).Represents (zeros Capacity) := ⟨rfl, rfl⟩

namespace Buffer
variable {b : Buffer} {a : Block N}

theorem Represents.length (h : b.Represents a) : b.data.length = N := by
  rw [h.data, a.2]

/-- STEP: no access fails, and each does to the array what it does to the buffer. -/
theorem access_of_represents (hint : N ≤ intMax) (h : b.Represents a) (x : Access N) :
    ∃ b', b.access x = .ok (b', (Reference.access a x).2) ∧
      b'.Represents (Reference.access a x).1 := by
  cases x with
  | write data =>
    have hfits : data.size ≤ b.data.length := h.length ▸ data.fits
    have hcopy := copy_eq data.inside hfits (data.fits.trans hint)
    refine ⟨{ b with data := data.bytes.take data.size ++ b.data.drop data.size }, ?_, ?_⟩
    · rw [access, write, if_pos (h.capacity ▸ data.fits), hcopy]
      rfl
    · exact ⟨h.capacity, by rw [h.data]; rfl⟩
  | read data =>
    have hfits : data.size ≤ b.data.length := h.length ▸ data.fits
    have hcopy := copy_eq hfits data.inside (data.fits.trans hint)
    refine ⟨b, ?_, h⟩
    rw [access, read, if_pos (h.capacity ▸ data.fits), hcopy, h.data]
    rfl
  | clear =>
    have hlen : b.capacity ≤ b.data.length := by rw [h.capacity, h.length]
    refine ⟨{ b with data := List.replicate b.capacity 0 ++ b.data.drop b.capacity }, ?_, ?_⟩
    · rw [access, clear, if_pos hlen]
      rfl
    · refine ⟨h.capacity, ?_⟩
      rw [h.capacity, List.drop_eq_nil_of_le h.length.le, List.append_nil]
      rfl

end Buffer

namespace StaticBuffer
variable {Capacity : ℕ}

/-- REFINES: any accesses to a `StaticBuffer` are accesses to an array that starts at zero. -/
theorem refines (hint : Capacity ≤ intMax) (accesses : List (Access Capacity)) :
    ∃ b : StaticBuffer Capacity,
      run Buffer.access (fresh Capacity).toBuffer accesses =
          ((runTotal Reference.access (zeros Capacity) accesses).1, .ok b.toBuffer) ∧
        b.data = (runTotal Reference.access (zeros Capacity) accesses).2.1 := by
  have hstep : ∀ (b : Buffer) (a : Block Capacity) x, b.Represents a →
      ∃ b', b.access x = .ok (b', (Reference.access a x).2) ∧
        b'.Represents (Reference.access a x).1 :=
    fun b a x h => Buffer.access_of_represents hint h x
  obtain ⟨b, hrun, hb⟩ := run_of_sim hstep accesses (fresh Capacity).toBuffer (zeros Capacity)
    (fresh_represents Capacity)
  exact ⟨⟨b, hb.length, hb.capacity⟩, hrun, hb.data⟩

/-- "abc" and then "x", and two bytes read back. -/
def overlay : List (Access 4) :=
  [.write ⟨ascii "abc", 3, by decide, by decide⟩, .write ⟨ascii "x", 1, by decide, by decide⟩,
    .read ⟨ascii "--", 2, by decide, by decide⟩]

theorem refines_overlay : ∃ b : StaticBuffer 4,
    run Buffer.access (fresh 4).toBuffer overlay =
        ((runTotal Reference.access (zeros 4) overlay).1, .ok b.toBuffer) ∧
      b.data = (runTotal Reference.access (zeros 4) overlay).2.1 :=
  refines (by decide) overlay

example : (run Buffer.access (fresh 4).toBuffer overlay).1 =
    [.value 3, .value 1, .filled 2 (ascii "xb")] := by decide

end StaticBuffer
end UnixIpc.Engine
