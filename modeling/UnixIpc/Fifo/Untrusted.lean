import UnixIpc.Fifo.Package

/-! Decoding a frame that anyone may have written. The size field is 64 bits of the peer's choice:
    `new char[size]` takes or refuses it, the copy reads that many bytes from offset 12 on, and the
    string then reads on to the first NUL.

        size      new char[size]   memcpy          std::string(data)
        ──────    ──────────────   ─────────────   ──────────────────────────────
        too big   throws
        > 1012    a block          leaves frame
        ≤ 1012    a block          in the frame    in the block if a NUL was copied

    No row copies the announced bytes and stays inside: a NUL in the block is also where the string
    ends, short of `size`. -/

namespace UnixIpc.Fifo
open UnixIpc.Bytes

/-- How a decoder ends that may read the frame and its own block, and nothing else. -/
inductive Decoded (T : Type) where
  | rejected
  | outside
  | package (p : Package T)
  deriving DecidableEq

namespace Package
variable {S T : Type} [WireEnum S] [WireEnum T]

/-- The `size` that `deserialize` reads. -/
def dataSize (buffer : Buffer) : ℕ := ofLE (slice buffer.1 4 8)

/-- The `size` bytes that follow the header. -/
def payload (buffer : Buffer) : List UInt8 := slice buffer.1 12 (dataSize buffer)

/-- `deserialize` with no memory behind the frame or the block, and an allocator that refuses some
    sizes: there `new char[size]` throws. -/
def deserializeWithin (this : Package T) (allocates : ℕ → Bool) (buffer : Buffer) : Decoded T :=
  if allocates (dataSize buffer) then
    match this.deserialize ⟨[], []⟩ buffer with
    | none => .outside
    | some p => .package p
  else .rejected

/-- Nothing outside is read, and the data is what the header announces, or the frame is rejected. -/
def DecodesOrRejects (buffer : Buffer) : Decoded T → Prop
  | .rejected => True
  | .outside => False
  | .package p => p.data = payload buffer

/-! ### Inside the frame and the block -/

/-- The bytes copied lie in the frame, and one of them ends the string. -/
def Inside (buffer : Buffer) : Prop := dataSize buffer ≤ 1012 ∧ 0 ∈ payload buffer

instance (buffer : Buffer) : Decidable (Inside buffer) := inferInstanceAs (Decidable (_ ∧ _))

theorem deserialize_of_fits {buffer : Buffer} (hfit : dataSize buffer ≤ 1012) (this : Package T)
    (mem : Memory) : this.deserialize mem buffer =
      (cString (payload buffer ++ mem.heap)).map fun data =>
        { this with type := WireEnum.ofCode (UInt32.ofNat (ofLE (slice buffer.1 0 4))), data } := by
  have hcopy : copyOut (buffer.1.drop 12 ++ mem.stack) (dataSize buffer) = some (payload buffer) :=
    copyOut_of_slice (by have := buffer.2; omega)
  rw [dataSize] at hcopy
  simp only [deserialize, hcopy, Option.bind_eq_bind, Option.bind_some]
  cases cString (payload buffer ++ mem.heap) <;> rfl

theorem deserialize_alone_of_inside {buffer : Buffer} (h : Inside buffer) (this : Package T) :
    this.deserialize ⟨[], []⟩ buffer =
      some { this with
        type := WireEnum.ofCode (UInt32.ofNat (ofLE (slice buffer.1 0 4)))
        data := (payload buffer).takeWhile (· ≠ 0) } := by
  rw [deserialize_of_fits h.1, List.append_nil, cString, if_pos h.2, Option.map_some]

theorem deserialize_alone_of_not_inside {buffer : Buffer} (h : ¬ Inside buffer) (this : Package T) :
    this.deserialize ⟨[], []⟩ buffer = none := by
  by_cases hfit : dataSize buffer ≤ 1012
  · have hnul : 0 ∉ payload buffer := fun hmem => h ⟨hfit, hmem⟩
    rw [deserialize_of_fits hfit, List.append_nil, cString, if_neg hnul, Option.map_none]
  · have hcopy : copyOut (buffer.1.drop 12 ++ []) (dataSize buffer) = none := by
      refine if_neg ?_
      rw [List.append_nil, List.length_drop, buffer.2]
      omega
    rw [dataSize] at hcopy
    simp only [deserialize, hcopy, Option.bind_eq_bind, Option.bind_none]

/-- A package decoded inside is decoded the same whatever lies around. -/
theorem deserialize_of_within {this p : Package T} {allocates : ℕ → Bool} {buffer : Buffer}
    (h : this.deserializeWithin allocates buffer = .package p) (mem : Memory) :
    this.deserialize mem buffer = some p := by
  have hp : this.deserialize ⟨[], []⟩ buffer = some p := by
    rw [deserializeWithin] at h
    split at h
    · cases hd : this.deserialize ⟨[], []⟩ buffer with
      | none => simp [hd] at h
      | some q => simpa [hd] using h
    · cases h
  have hin : Inside buffer := by
    by_contra hnot
    rw [deserialize_alone_of_not_inside hnot] at hp
    cases hp
  rw [← hp, deserialize_of_fits hin.1, deserialize_of_fits hin.1, cString_append_of_mem hin.2,
    List.append_nil]

/-- A frame the project's own programs send, with NUL-free data, is never read inside the block. -/
theorem not_inside_of_serialize {p : Package S} {prior b : Buffer}
    (h : p.serialize prior = some b) (hdata : 0 ∉ p.data) : ¬ Inside b := by
  obtain ⟨hlen, -, hsize, hslice⟩ := serialize_fields h
  have hcount : dataSize b = p.data.length := by
    rw [dataSize, hsize, ofLE_toLE_of_lt (by omega)]
  rintro ⟨-, hnul⟩
  rw [payload, hcount, hslice] at hnul
  exact hdata hnul

/-! ### Any frame -/

theorem decodesOrRejects_iff (this : Package T) (allocates : ℕ → Bool) (buffer : Buffer) :
    DecodesOrRejects buffer (this.deserializeWithin allocates buffer) ↔
      allocates (dataSize buffer) = false := by
  rw [deserializeWithin]
  cases hsize : allocates (dataSize buffer) with
  | false => simp [DecodesOrRejects]
  | true =>
    rw [if_pos rfl]
    by_cases hin : Inside buffer
    · rw [deserialize_alone_of_inside hin]
      simpa [DecodesOrRejects] using takeWhile_ne_self hin.2
    · rw [deserialize_alone_of_not_inside hin]
      simp [DecodesOrRejects]

end Package

/-! ### The two programs' copies -/

def Server.deserializeWithin : Server.Package → (ℕ → Bool) → Buffer → Decoded Server.PackageType :=
  Fifo.Package.deserializeWithin
def Client.deserializeWithin : Client.Package → (ℕ → Bool) → Buffer → Decoded Client.PackageType :=
  Fifo.Package.deserializeWithin

/-- CORRECT: either program decodes a frame inside its bounds into the announced bytes, or rejects
    it, exactly when `new char[size]` throws for the frame's size field. -/
theorem decodes_iff_refused (allocates : ℕ → Bool) (buffer : Buffer) :
    (∀ this : Server.Package,
      Package.DecodesOrRejects buffer (Server.deserializeWithin this allocates buffer) ↔
        allocates (Package.dataSize buffer) = false) ∧
    (∀ this : Client.Package,
      Package.DecodesOrRejects buffer (Client.deserializeWithin this allocates buffer) ↔
        allocates (Package.dataSize buffer) = false) :=
  ⟨fun this => this.decodesOrRejects_iff allocates buffer,
    fun this => this.decodesOrRejects_iff allocates buffer⟩

/-- The frame of the client's own `"Hello world from client!"` takes the server's string past the
    24 bytes of its block, with an allocator that refuses only what no memory could hold. -/
theorem hello_read_outside :
    ¬ Package.DecodesOrRejects (Client.frame ⟨3, .message, hello⟩)
      (Server.deserializeWithin Server.package (fun size => decide (size < 2 ^ 63))
        (Client.frame ⟨3, .message, hello⟩)) := by
  have hframe : Client.serialize ⟨3, .message, hello⟩ zeroBuffer =
      some (Client.frame ⟨3, .message, hello⟩) := Client.serialize_frame (by decide)
  have hout := Package.not_inside_of_serialize hframe (by decide)
  have hsize : Package.dataSize (Client.frame ⟨3, .message, hello⟩) = 24 := by
    obtain ⟨-, -, hsize, -⟩ := Package.serialize_fields hframe
    rw [Package.dataSize, hsize]
    decide
  rw [Server.deserializeWithin, Package.deserializeWithin, hsize, if_pos (by decide),
    Package.deserialize_alone_of_not_inside hout]
  exact id

end UnixIpc.Fifo
