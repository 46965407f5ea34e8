import UnixIpc.Fifo.SimplePair

/-! The name in `argv[2]` is as long as the file system lets it be, and neither client looks at its
    length before copying it into a `Buffer`:

        offset   0        12                                   1012   1023  1024
        echo     type|size|name ...................................(12 + 1012)│
        simple   name ..............................................│ NUL     │

    The echo client runs out of room after 1012 bytes. The simple one fills the buffer to the last
    byte, but the server then finds no terminator in it. -/

namespace UnixIpc.Fifo
open UnixIpc.Bytes

/-- What the clients and the simple server make of a name. -/
structure NameSafe (name : List UInt8) : Prop where
  serialized : ∀ clientFd, Client.serialize ⟨clientFd, .newConnection, name⟩ zeroBuffer ≠ none
  copied : copyInto zeroBuffer 0 name ≠ none
  recovered : ∃ buff, copyInto zeroBuffer 0 name = some buff ∧ cString buff.1 = some name

/-! ### Each program's limit -/

theorem serialized_iff (clientFd : ℤ) (name : List UInt8) :
    Client.serialize ⟨clientFd, .newConnection, name⟩ zeroBuffer ≠ none ↔ name.length ≤ 1012 := by
  constructor
  · intro h
    obtain ⟨b, hb⟩ := Option.ne_none_iff_exists'.mp h
    exact (Package.serialize_fields hb).1
  · intro h
    rw [Client.serialize_frame h]
    exact Option.some_ne_none _

theorem copied_iff (name : List UInt8) :
    copyInto zeroBuffer 0 name ≠ none ↔ name.length ≤ 1024 := by
  constructor
  · intro h
    obtain ⟨b, hb⟩ := Option.ne_none_iff_exists'.mp h
    have hfit := (copyInto_val hb).1
    omega
  · intro h
    obtain ⟨b, hb⟩ := copyInto_isSome zeroBuffer 0 name (by omega)
    rw [hb]
    exact Option.some_ne_none _

/-- Over the zeroed buffer the name is followed by zeros, up to the end. -/
theorem copyInto_zeroBuffer {name : List UInt8} {buff : Buffer}
    (h : copyInto zeroBuffer 0 name = some buff) :
    buff.1 = name ++ List.replicate (1024 - name.length) 0 := by
  obtain ⟨-, hb⟩ := copyInto_val h
  rw [hb, List.take_zero, List.nil_append, Nat.zero_add]
  exact congrArg _ List.drop_replicate

theorem recovered_iff {name : List UInt8} (hname : 0 ∉ name) :
    (∃ buff, copyInto zeroBuffer 0 name = some buff ∧ cString buff.1 = some name) ↔
      name.length ≤ 1023 := by
  have hroom : (List.replicate (1024 - name.length) (0 : UInt8)).head? = some 0 ↔
      name.length ≤ 1023 := by
    rw [List.head?_replicate]
    split
    · exact iff_of_false (by simp) (by omega)
    · exact iff_of_true rfl (by omega)
  constructor
  · rintro ⟨buff, hcopy, hstring⟩
    rw [copyInto_zeroBuffer hcopy, cString_append_iff] at hstring
    exact hroom.mp hstring.2
  · intro h
    obtain ⟨buff, hcopy⟩ := copyInto_isSome zeroBuffer 0 name (by omega)
    refine ⟨buff, hcopy, ?_⟩
    rw [copyInto_zeroBuffer hcopy, cString_append_iff]
    exact ⟨hname, hroom.mpr h⟩

/-! ### In the processes -/

/-- The echo client leaves its buffer exactly when the name does not fit behind the header. -/
theorem Client.connect_undefined_iff (c : Client) (serverReads : Bool) :
    (c.writeTo ⟨c.clientFd, .newConnection, c.name⟩ serverReads .connectStatus).1.pc = .undefined ↔
      1012 < c.name.length := by
  have hlimit := serialized_iff c.clientFd c.name
  rw [Client.writeTo]
  cases hs : Client.serialize ⟨c.clientFd, .newConnection, c.name⟩ zeroBuffer with
  | none =>
    rw [hs] at hlimit
    exact iff_of_true rfl (Nat.lt_of_not_le fun hle => hlimit.mpr hle rfl)
  | some buffer =>
    rw [hs] at hlimit
    refine iff_of_false ?_ (Nat.not_lt.mpr (hlimit.mp (Option.some_ne_none _)))
    cases serverReads <;> simp

namespace Simple.Pair

/-- The simple client leaves its buffer exactly when the name is longer than that. -/
theorem sendName_undefined_iff (p : Pair) :
    p.sendName.client.pc = .undefined ↔ 1024 < p.client.name.length := by
  have hlimit := copied_iff p.client.name
  rw [sendName]
  cases hcopy : copyInto zeroBuffer 0 p.client.name with
  | none =>
    rw [hcopy] at hlimit
    exact iff_of_true rfl (Nat.lt_of_not_le fun hle => hlimit.mpr hle rfl)
  | some buff =>
    rw [hcopy] at hlimit
    refine iff_of_false ?_ (Nat.not_lt.mpr (hlimit.mp (Option.some_ne_none _)))
    cases p.server.reads <;> simp

/-- The server that reads the frame of a safe name goes on to open exactly that name. -/
theorem serverStep_named {p : Pair} {name : List UInt8} (h : NameSafe name) {buff : Buffer}
    (hcopy : copyInto zeroBuffer 0 name = some buff) {queue : List Buffer}
    (hpc : p.server.pc = .read) (hqueue : p.publicQueue = buff :: queue) (behind : List UInt8)
    (ok : Bool) : (p.serverStep behind ok).server.pc = .openFile name := by
  obtain ⟨buff', hcopy', hstring⟩ := h.recovered
  obtain rfl : buff = buff' := Option.some.inj (hcopy.symm.trans hcopy')
  have hmem : 0 ∈ buff.1 := by
    by_contra hnot
    rw [cString, if_neg hnot] at hstring
    cases hstring
  have htext : text buff behind = name := by
    have hbehind := cString_append_of_mem hmem behind
    rw [hstring, cString, if_pos (List.mem_append_left _ hmem)] at hbehind
    exact Option.some.inj hbehind
  simp only [serverStep, hpc, hqueue, readFifo, readFrom_frame, htext]

end Simple.Pair

/-! ### Any name -/

/-- CORRECT: both clients stay in their buffers and the simple server gets the name back whole
    exactly for names of at most 1012 bytes. -/
theorem nameSafe_iff (name : List UInt8) (hname : 0 ∉ name) :
    NameSafe name ↔ name.length ≤ 1012 := by
  constructor
  · intro h
    exact (serialized_iff 0 name).mp (h.serialized 0)
  · intro h
    exact {
      serialized := fun clientFd => (serialized_iff clientFd name).mpr h
      copied := (copied_iff name).mpr (by omega)
      recovered := (recovered_iff hname).mpr (by omega) }

theorem nameSafe_iff_fifo : NameSafe (ascii "/tmp/client.fifo") ↔
    (ascii "/tmp/client.fifo").length ≤ 1012 :=
  nameSafe_iff _ (by decide)

/-- `./././ … ./p`: 1013 bytes that name the file p of the working directory. -/
def dotted : List UInt8 := (List.replicate 506 (ascii "./")).flatten ++ ascii "p"

theorem dotted_unsafe : 0 ∉ dotted ∧ dotted.length = 1013 ∧ ¬ NameSafe dotted := by
  have hname : 0 ∉ dotted := by
    intro h
    rcases List.mem_append.mp h with hdots | hp
    · obtain ⟨l, hl, h0⟩ := List.mem_flatten.mp hdots
      rw [List.eq_of_mem_replicate hl] at h0
      exact absurd h0 (by decide)
    · exact absurd hp (by decide)
  have hlen : dotted.length = 1013 := by
    rw [dotted, List.length_append, List.length_flatten, List.map_replicate, List.sum_replicate_nat]
    rfl
  refine ⟨hname, hlen, fun h => ?_⟩
  have hfit := (serialized_iff 0 dotted).mp (h.serialized 0)
  omega

end UnixIpc.Fifo
