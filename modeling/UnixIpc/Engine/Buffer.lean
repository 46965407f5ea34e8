import UnixIpc.Lib.Bytes

/-! `io::Buffer` and `io::StaticBuffer`: bookkeeping (`size_`, `capacity_`, `isGood_`) over the bytes
    behind `data()`. `write` copies byte by byte with an `int` index and then returns; nothing in it
    calls `setSize`.

        write(d, n):   data()  d₀ … dₙ₋₁ │ old …        size()  as it was -/

namespace UnixIpc.Engine
open UnixIpc.Bytes

/-- What can go wrong inside a buffer: an assertion fails, or the copy leaves an array or overflows
    its index. -/
inductive Fault where
  | assertion | undefined
  deriving DecidableEq

/-- The largest `int`. -/
def intMax : ℕ := 2 ^ 31 - 1

/-- `Buffer`, with the bytes behind `data()`. -/
structure Buffer where
  size : ℕ
  capacity : ℕ
  isGood : Bool
  data : List UInt8
  deriving DecidableEq

namespace Buffer

/-- `dst[i] = src[i]; ++i`. -/
def copyByte (src dst : List UInt8) (i : ℕ) : Except Fault (List UInt8) :=
  match src[i]? with
  | none => .error .undefined
  | some byte => if i < dst.length ∧ i < intMax then .ok (dst.set i byte) else .error .undefined

/-- `Buffer::copy`, with the bytes of `dst` after it. -/
def copy (src dst : List UInt8) (size : ℕ) : Except Fault (List UInt8) :=
  (List.range size).foldlM (copyByte src) dst

/-- `Buffer::write`, with what it returns. -/
def write (b : Buffer) (data : List UInt8) (size : ℕ) : Except Fault (Buffer × ℕ) :=
  if size ≤ b.capacity then
    (copy data b.data size).map fun stored => ({ b with data := stored }, size)
  else .error .assertion

/-- `Buffer::read`, with the bytes of `data` after it and what it returns. -/
def read (b : Buffer) (data : List UInt8) (size : ℕ) : Except Fault (List UInt8 × ℕ) :=
  if size ≤ b.capacity then (copy b.data data size).map fun filled => (filled, size)
  else .error .assertion

/-- `Buffer::clear`: `memset` of `capacity()` bytes, which must be there. -/
def clear (b : Buffer) : Except Fault Buffer :=
  if b.capacity ≤ b.data.length then
    .ok { b with data := List.replicate b.capacity 0 ++ b.data.drop b.capacity }
  else .error .undefined

theorem copy_succ (src dst : List UInt8) (size : ℕ) :
    copy src dst (size + 1) = copy src dst size >>= fun stored => copyByte src stored size := by
  rw [copy, List.range_succ, List.foldlM_append]
  simp [copy]

/-- Inside both arrays the first bytes are replaced, and the others stay. -/
theorem copy_eq {src dst : List UInt8} {size : ℕ} (hsrc : size ≤ src.length)
    (hdst : size ≤ dst.length) (hint : size ≤ intMax) :
    copy src dst size = .ok (src.take size ++ dst.drop size) := by
  induction size with
  | zero => simp [copy, pure, Except.pure]
  | succ size ih =>
    have hget : src[size]? = some src[size] := List.getElem?_eq_getElem (by omega)
    have hlen : (src.take size ++ dst.drop size).length = dst.length := by
      simp only [List.length_append, List.length_take, List.length_drop]
      omega
    have htake : (src.take size).length = size := by
      rw [List.length_take]
      omega
    rw [copy_succ, ih (by omega) (by omega) (by omega)]
    simp only [bind, Except.bind, copyByte, hget, hlen]
    rw [if_pos ⟨by omega, by omega⟩, List.set_append_right _ _ (by omega), htake, Nat.sub_self,
      List.drop_eq_getElem_cons (by omega), List.set_cons_zero, List.take_succ_eq_append_getElem,
      List.append_assoc, List.singleton_append]

/-- A copy never changes the length of its target. -/
theorem length_of_copy {src dst stored : List UInt8} {size : ℕ}
    (h : copy src dst size = .ok stored) : stored.length = dst.length := by
  induction size generalizing stored with
  | zero =>
    simp only [copy, List.range_zero, List.foldlM_nil, pure, Except.pure, Except.ok.injEq] at h
    rw [h]
  | succ size ih =>
    rw [copy_succ] at h
    cases hc : copy src dst size with
    | error fault => rw [hc] at h; exact absurd h (by simp [bind, Except.bind])
    | ok front =>
      simp only [hc, bind, Except.bind, copyByte] at h
      split at h
      · exact absurd h (by simp)
      · split at h
        · simp only [Except.ok.injEq] at h
          rw [← h, List.length_set, ih hc]
        · exact absurd h (by simp)

/-- What a write leaves: the bookkeeping as it was. -/
theorem write_spec {b b' : Buffer} {data : List UInt8} {size n : ℕ}
    (h : b.write data size = .ok (b', n)) :
    b'.size = b.size ∧ b'.capacity = b.capacity ∧ b'.isGood = b.isGood ∧
      b'.data.length = b.data.length ∧ n = size := by
  unfold write at h
  split at h
  · cases hc : copy data b.data size with
    | error fault => rw [hc] at h; exact absurd h (by simp [Except.map])
    | ok stored =>
      simp only [hc, Except.map, Except.ok.injEq, Prod.mk.injEq] at h
      obtain ⟨rfl, rfl⟩ := h
      exact ⟨rfl, rfl, rfl, length_of_copy hc, rfl⟩
  · exact absurd h (by simp)

end Buffer

/-- `StaticBuffer<Capacity>`: an array of `Capacity` bytes, and a capacity that says so. -/
structure StaticBuffer (Capacity : ℕ) extends Buffer where
  length_data : data.length = Capacity
  capacity_eq : capacity = Capacity

namespace StaticBuffer
variable {Capacity : ℕ}

/-- `StaticBuffer<Capacity>()`. -/
def fresh (Capacity : ℕ) : StaticBuffer Capacity where
  size := 0
  capacity := Capacity
  isGood := true
  data := (zeros Capacity).1
  length_data := (zeros Capacity).2
  capacity_eq := rfl

/-- `write`, which a `StaticBuffer` inherits. -/
def write (b : StaticBuffer Capacity) (data : List UInt8) (size : ℕ) :
    Except Fault (StaticBuffer Capacity × ℕ) :=
  match h : b.toBuffer.write data size with
  | .error fault => .error fault
  | .ok (stored, n) =>
    .ok (⟨stored, (Buffer.write_spec h).2.2.2.1.trans b.length_data,
      (Buffer.write_spec h).2.1.trans b.capacity_eq⟩, n)

/-- A write that goes through leaves `size()` as it was. -/
theorem size_of_write {b b' : StaticBuffer Capacity} {data : List UInt8} {size n : ℕ}
    (h : b.write data size = .ok (b', n)) : b'.size = b.size := by
  unfold write at h
  split at h
  · exact absurd h (by simp)
  · rename_i stored m hw
    simp only [Except.ok.injEq, Prod.mk.injEq] at h
    obtain ⟨rfl, _⟩ := h
    exact (Buffer.write_spec hw).1

/-- A write within capacity and `int` goes through, and the bytes are there. -/
theorem write_ok (b : StaticBuffer Capacity) {data : List UInt8} {size : ℕ}
    (hdata : size ≤ data.length) (hsize : size ≤ Capacity) (hint : size ≤ intMax) :
    ∃ b', b.write data size = .ok (b', size) ∧
      b'.data = data.take size ++ b.data.drop size := by
  have hcopy := Buffer.copy_eq hdata (b.length_data.symm ▸ hsize) hint
  have hwrite : b.toBuffer.write data size =
      .ok ({ b.toBuffer with data := data.take size ++ b.data.drop size }, size) := by
    rw [Buffer.write, if_pos (b.capacity_eq.symm ▸ hsize), hcopy]
    rfl
  unfold write
  split
  · rename_i fault hw
    rw [hwrite] at hw
    exact absurd hw (by simp)
  · rename_i stored n hw
    rw [hwrite, Except.ok.injEq, Prod.mk.injEq] at hw
    obtain ⟨rfl, rfl⟩ := hw
    exact ⟨_, rfl, rfl⟩

end StaticBuffer
end UnixIpc.Engine
