import UnixIpc.Engine.BufferCalls

/-! `io::DynamicBuffer` beside `io::StaticBuffer`, through the interface they share. The constructor
    of the one calls `setCapacity`, that of the other does not:

        StaticBuffer<4>()   0 0 0 0   capacity() 4       DynamicBuffer(4)   0 0 0 0   capacity() 0

    and the assertions of `read` and `write` go by `capacity()`. -/

namespace UnixIpc.Engine
open UnixIpc.Bytes UnixIpc.Replies
variable {N : ℕ}

/-- `DynamicBuffer(size)`: the vector has its bytes, and `Buffer()` its `capacity_`. -/
def DynamicBuffer.fresh (size : ℕ) : Buffer where
  size := 0
  capacity := 0
  isGood := true
  data := List.replicate size 0

/-- The calls in which a capacity of 0 does not show. -/
def Call.Alike : Call N → Prop
  | .access (.write data) => data.size = 0
  | .access (.read data) => data.size = 0
  | .access .clear => True
  | .capacity => N = 0
  | .size => True

/-- A buffer of capacity `N`, and one that says it has none. -/
structure Buffer.Beside (N : ℕ) (b d : Buffer) : Prop where
  length : b.data.length = N
  capacity : b.capacity = N
  none : d.capacity = 0
  size : b.size = d.size

theorem fresh_beside (N : ℕ) :
    Buffer.Beside N (StaticBuffer.fresh N).toBuffer (DynamicBuffer.fresh N) where
  length := (StaticBuffer.fresh N).length_data
  capacity := rfl
  none := rfl
  size := rfl

namespace Buffer
variable {b d : Buffer}

/-- What is made of a result does not make it an assertion. -/
theorem map_ne_assertion {α β : Type*} {r : Except Fault α} (h : r ≠ .error .assertion)
    (f : α → β) : r.map f ≠ .error .assertion := by
  rcases r with fault | value
  · exact fun heq => h (congrArg _ (Except.error.inj heq))
  · rintro ⟨⟩

/-- Inside `copy` nothing is asserted. -/
theorem copy_ne_assertion (src dst : List UInt8) (size : ℕ) :
    copy src dst size ≠ .error .assertion := by
  induction size with
  | zero => rintro ⟨⟩
  | succ size ih =>
    rw [copy_succ]
    cases hfront : copy src dst size with
    | error fault =>
      rw [hfront] at ih
      exact ih
    | ok front =>
      simp only [bind, Except.bind, copyByte]
      split
      · simp
      · split <;> simp

/-- An empty read or write passes everywhere, and does nothing. -/
theorem access_of_empty (b : Buffer) {data : Span N} (hsize : data.size = 0) :
    b.access (.write data) = .ok (b, .value 0) ∧
      b.access (.read data) = .ok (b, .filled 0 data.bytes) := by
  have hcopy : ∀ src dst, copy src dst 0 = .ok dst := fun _ _ => rfl
  constructor
  · rw [access, write, hsize, if_pos (Nat.zero_le _), hcopy]
    rfl
  · rw [access, read, hsize, if_pos (Nat.zero_le _), hcopy]
    rfl

/-- With no capacity, only an empty read or write passes the assertion. -/
theorem access_of_no_capacity (h : d.capacity = 0) {data : Span N} (hsize : data.size ≠ 0) :
    d.access (.write data) = .error .assertion ∧ d.access (.read data) = .error .assertion := by
  have hnot : ¬ data.size ≤ d.capacity := by omega
  constructor
  · rw [access, write, if_neg hnot]
    rfl
  · rw [access, read, if_neg hnot]
    rfl

/-- With the whole capacity, every read and write passes it. -/
theorem access_ne_assertion (h : b.capacity = N) (data : Span N) :
    b.access (.write data) ≠ .error .assertion ∧ b.access (.read data) ≠ .error .assertion := by
  have hfits : data.size ≤ b.capacity := h ▸ data.fits
  constructor
  · rw [access, write, if_pos hfits]
    exact map_ne_assertion (map_ne_assertion (copy_ne_assertion _ _ _) _) _
  · rw [access, read, if_pos hfits]
    exact map_ne_assertion (map_ne_assertion (copy_ne_assertion _ _ _) _) _

/-- STEP: where the capacity does not show, both buffers reply the same. -/
theorem call_of_alike (h : Beside N b d) {c : Call N} (hc : c.Alike) :
    ∃ b' d' reply, b.call c = .ok (b', reply) ∧ d.call c = .ok (d', reply) ∧ Beside N b' d' := by
  match c, hc with
  | .access (.write data), hc =>
    exact ⟨b, d, .value 0, (access_of_empty b hc).1, (access_of_empty d hc).1, h⟩
  | .access (.read data), hc =>
    exact ⟨b, d, .filled 0 data.bytes, (access_of_empty b hc).2, (access_of_empty d hc).2, h⟩
  | .access .clear, _ =>
    have hb : b.capacity ≤ b.data.length := by rw [h.capacity, h.length]
    have hd : d.capacity ≤ d.data.length := h.none ▸ Nat.zero_le _
    refine ⟨{ b with data := List.replicate b.capacity 0 ++ b.data.drop b.capacity },
      { d with data := List.replicate d.capacity 0 ++ d.data.drop d.capacity }, .done, ?_, ?_, ?_⟩
    · rw [call, access, clear, if_pos hb]
      rfl
    · rw [call, access, clear, if_pos hd]
      rfl
    · refine ⟨?_, h.capacity, h.none, h.size⟩
      rw [List.length_append, List.length_replicate, List.length_drop, h.length, h.capacity]
      omega
  | .capacity, hc =>
    have hzero : N = 0 := hc
    exact ⟨b, d, .value 0, by rw [call, h.capacity, hzero], by rw [call, h.none], h⟩
  | .size, _ => exact ⟨b, d, .value b.size, rfl, by rw [call, h.size], h⟩

/-- STEP: where it shows, an assertion fails in one of them, or `capacity()` tells. -/
theorem call_of_not_alike (h : Beside N b d) {c : Call N} (hc : ¬ c.Alike) :
    (b.call c).map Prod.snd ≠ (d.call c).map Prod.snd := by
  match c, hc with
  | .access (.write data), hc =>
    rw [call, call, (access_of_no_capacity h.none hc).1]
    exact map_ne_assertion (access_ne_assertion h.capacity data).1 _
  | .access (.read data), hc =>
    rw [call, call, (access_of_no_capacity h.none hc).2]
    exact map_ne_assertion (access_ne_assertion h.capacity data).2 _
  | .access .clear, hc => exact absurd trivial hc
  | .capacity, hc =>
    intro heq
    have hN : b.capacity = d.capacity := Reply.value.inj (Except.ok.inj heq)
    rw [h.capacity, h.none] at hN
    exact hc hN
  | .size, hc => exact absurd trivial hc

end Buffer

/-- EXACT: the two are interchangeable for a caller that neither reads nor writes a byte nor, unless
    there is none, asks for the capacity. -/
theorem interchangeable_iff (N : ℕ) (calls : List (Call N)) :
    Same (run Buffer.call (StaticBuffer.fresh N).toBuffer calls)
        (run Buffer.call (DynamicBuffer.fresh N) calls) ↔ ∀ c ∈ calls, c.Alike := by
  refine same_iff (R := Buffer.Beside N) ?_ ?_ calls _ _ (fresh_beside N)
  · intro b d c h hc
    exact Buffer.call_of_alike h hc
  · intro b d c h hc
    exact Buffer.call_of_not_alike h hc

/-- One write of "hi" to buffers of two bytes. -/
def writesHi : List (Call 2) := [.access (.write ⟨ascii "hi", 2, by decide, by decide⟩)]

/-- `StaticBuffer<2>` takes it, and in `DynamicBuffer(2)` the assertion fails. -/
theorem writesHi_tells :
    run Buffer.call (StaticBuffer.fresh 2).toBuffer writesHi =
        ([.value 2], .ok ⟨0, 2, true, ascii "hi"⟩) ∧
      run Buffer.call (DynamicBuffer.fresh 2) writesHi = ([], .error .assertion) ∧
      ¬ Same (run Buffer.call (StaticBuffer.fresh 2).toBuffer writesHi)
        (run Buffer.call (DynamicBuffer.fresh 2) writesHi) :=
  ⟨rfl, rfl, fun h => List.cons_ne_nil _ _ h.1⟩

end UnixIpc.Engine
