import UnixIpc.Lib.Bytes

/-! The message format of the echo FIFO pair: one `Package` per 1024-byte frame.

    Each program carries its own copy of `Package`, with the same two functions and a fourth
    enumerator spelled differently. The functions are written once here, over the enumeration, and
    each program's copy is an instance. A frame holds the type (4 bytes), the length of the data
    (8 bytes) and the data; the descriptor `fd_` is not among them.

        offset:  0      4          12
                 type   data.size  data ...                        1024

    `roundTrips_iff` is the exact law of the pair of functions: what is decoded equals what was
    encoded when the descriptors already agree, the data holds no NUL, and the heap byte behind the
    decoder's copy of the data happens to be one. -/

namespace UnixIpc.Fifo
open UnixIpc.Bytes

/-- `typedef std::array<char, 1024> Buffer`. -/
abbrev Buffer := Block 1024

/-- `Buffer buffer = {0}`, and what `ClearBuffer` leaves. -/
def zeroBuffer : Buffer := zeros 1024

/-- A C++ `enum class` over `int`: every bit pattern is a value. -/
class WireEnum (T : Type) where
  code : T → UInt32
  ofCode : UInt32 → T
  ofCode_code : ∀ t, ofCode (code t) = t
  code_ofCode : ∀ v, code (ofCode v) = v

/-- `Package::Type` of server.cpp, with the values that name no enumerator. -/
inductive Server.PackageType where
  | message | newConnection | connectionSuccess | conectionClose
  | unnamed (code : UInt32) (h : 3 < code)
  deriving DecidableEq

/-- `Package::Type` of client.cpp; only the spelling of the last enumerator differs. -/
inductive Client.PackageType where
  | message | newConnection | connectionSuccess | connectionClose
  | unnamed (code : UInt32) (h : 3 < code)
  deriving DecidableEq

theorem UInt32.lt_of_ne {v : UInt32} (h0 : v ≠ 0) (h1 : v ≠ 1) (h2 : v ≠ 2) (h3 : v ≠ 3) :
    3 < v := by
  simp only [ne_eq, ← UInt32.toNat_inj, UInt32.lt_iff_toNat_lt] at *
  simp only [UInt32.reduceToNat] at *
  omega

theorem UInt32.ne_of_lt_three {v : UInt32} (h : 3 < v) (k : UInt32) (hk : k ≤ 3) :
    v ≠ k := by
  rintro rfl; exact absurd (UInt32.lt_of_lt_of_le h hk) (UInt32.lt_irrefl _)

instance : WireEnum Server.PackageType where
  code
    | .message => 0
    | .newConnection => 1
    | .connectionSuccess => 2
    | .conectionClose => 3
    | .unnamed v _ => v
  ofCode v :=
    if h0 : v = 0 then .message else if h1 : v = 1 then .newConnection
    else if h2 : v = 2 then .connectionSuccess else if h3 : v = 3 then .conectionClose
    else .unnamed v (UInt32.lt_of_ne h0 h1 h2 h3)
  ofCode_code t := by
    cases t with
    | unnamed v h =>
      simp [UInt32.ne_of_lt_three h 0 (by decide), UInt32.ne_of_lt_three h 1 (by decide),
        UInt32.ne_of_lt_three h 2 (by decide), UInt32.ne_of_lt_three h 3 (by decide)]
    | _ => rfl
  code_ofCode v := by
    by_cases h0 : v = 0 <;> by_cases h1 : v = 1 <;> by_cases h2 : v = 2 <;> by_cases h3 : v = 3 <;>
      simp [h0, h1, h2, h3]

instance : WireEnum Client.PackageType where
  code
    | .message => 0
    | .newConnection => 1
    | .connectionSuccess => 2
    | .connectionClose => 3
    | .unnamed v _ => v
  ofCode v :=
    if h0 : v = 0 then .message else if h1 : v = 1 then .newConnection
    else if h2 : v = 2 then .connectionSuccess else if h3 : v = 3 then .connectionClose
    else .unnamed v (UInt32.lt_of_ne h0 h1 h2 h3)
  ofCode_code t := by
    cases t with
    | unnamed v h =>
      simp [UInt32.ne_of_lt_three h 0 (by decide), UInt32.ne_of_lt_three h 1 (by decide),
        UInt32.ne_of_lt_three h 2 (by decide), UInt32.ne_of_lt_three h 3 (by decide)]
    | _ => rfl
  code_ofCode v := by
    by_cases h0 : v = 0 <;> by_cases h1 : v = 1 <;> by_cases h2 : v = 2 <;> by_cases h3 : v = 3 <;>
      simp [h0, h1, h2, h3]

/-- Memory next to the decoder's own: the bytes behind the frame on the stack and the bytes behind
    the block it allocates. -/
structure Memory where
  stack : List UInt8
  heap : List UInt8

/-- `struct Package`. -/
structure Package (T : Type) where
  fd : ℤ
  type : T
  data : List UInt8
  deriving DecidableEq

namespace Package
variable {S R T : Type} [WireEnum S] [WireEnum R] [WireEnum T]

/-- `serialize`: three copies into the frame; `none` when the data runs past its end. -/
def serialize (p : Package T) (buffer : Buffer) : Option Buffer := do
  let buffer ← copyInto buffer 0 (toLE 4 (WireEnum.code p.type).toNat)
  let buffer ← copyInto buffer 4 (toLE 8 p.data.length)
  copyInto buffer 12 p.data

/-- `deserialize`: `fd_` keeps its value. The data is copied into a block of exactly `size` bytes
    and read back as a C string, so both copies may run on into `mem`; `none` when even that ends. -/
def deserialize (this : Package T) (mem : Memory) (buffer : Buffer) : Option (Package T) := do
  let type := WireEnum.ofCode (UInt32.ofNat (ofLE (slice buffer.1 0 4)))
  let size := ofLE (slice buffer.1 4 8)
  let data ← copyOut (buffer.1.drop 12 ++ mem.stack) size
  let data ← cString (data ++ mem.heap)
  pure { this with type := type, data := data }

/-- Two packages of the two programs that carry the same type, data and descriptor. -/
structure Same (p : Package S) (r : Package R) : Prop where
  type : WireEnum.code r.type = WireEnum.code p.type
  data : r.data = p.data
  fd : r.fd = p.fd

/-! ### The frame a package becomes -/

theorem serialize_isSome {p : Package T} (h : p.data.length ≤ 1012) (prior : Buffer) :
    ∃ b, p.serialize prior = some b := by
  obtain ⟨b1, h1⟩ := copyInto_isSome prior 0
    (toLE 4 (WireEnum.code p.type).toNat) (by simp)
  obtain ⟨b2, h2⟩ := copyInto_isSome b1 4 (toLE 8 p.data.length) (by simp)
  obtain ⟨b3, h3⟩ := copyInto_isSome b2 12 p.data (by omega)
  exact ⟨b3, by simp [serialize, h1, h2, h3]⟩

/-- What a serialized frame holds: the three fields, each at its offset. -/
theorem serialize_fields {p : Package T} {prior b : Buffer} (h : p.serialize prior = some b) :
    p.data.length ≤ 1012 ∧ slice b.1 0 4 = toLE 4 (WireEnum.code p.type).toNat ∧
      slice b.1 4 8 = toLE 8 p.data.length ∧ slice b.1 12 p.data.length = p.data := by
  simp only [serialize, Option.bind_eq_bind, Option.bind_eq_some_iff] at h
  obtain ⟨b1, h1, b2, h2, h3⟩ := h
  have hfit := (copyInto_val h3).1
  refine ⟨by omega, ?_, ?_, slice_copyInto h3⟩
  · rw [slice_copyInto_below h3 (by omega), slice_copyInto_below h2 (by omega)]
    simpa using slice_copyInto h1
  · rw [slice_copyInto_below h3 (by omega)]
    simpa using slice_copyInto h2

/-- Decoding an encoded frame: the type is the one encoded, the data is whatever string starts at
    the copied bytes, the descriptor is the decoder's own. -/
theorem deserialize_serialize {p : Package S} {prior b : Buffer} (h : p.serialize prior = some b)
    (q : Package R) (mem : Memory) :
    q.deserialize mem b = (cString (p.data ++ mem.heap)).map fun data =>
      { q with type := WireEnum.ofCode (WireEnum.code p.type), data := data } := by
  obtain ⟨hlen, htype, hsize, hdata⟩ := serialize_fields h
  have hcode : ofLE (slice b.1 0 4) = (WireEnum.code p.type).toNat := by
    rw [htype, ofLE_toLE_of_lt (by simpa using (WireEnum.code p.type).toNat_lt)]
  have hcount : ofLE (slice b.1 4 8) = p.data.length := by
    rw [hsize, ofLE_toLE_of_lt (by omega)]
  have hcopy : copyOut (b.1.drop 12 ++ mem.stack) p.data.length = some p.data := by
    rw [copyOut_of_slice (by have := b.2; omega), hdata]
  simp only [deserialize, hcode, hcount, hcopy, UInt32.ofNat_toNat, Option.bind_eq_bind,
    Option.bind_some]
  cases cString (p.data ++ mem.heap) <;> rfl

/-- The package encoded by one program comes back from the other's decoder unchanged. -/
def RoundTrips (p : Package S) (prior : Buffer) (q : Package R) (mem : Memory) : Prop :=
  ∃ b r, p.serialize prior = some b ∧ q.deserialize mem b = some r ∧ Same p r

/-- The exact law of the pair: the descriptors must agree beforehand, the data may hold no NUL, and
    the byte behind the decoder's block must be one. -/
theorem roundTrips_iff {p : Package S} (hlen : p.data.length ≤ 1012) (prior : Buffer)
    (q : Package R) (mem : Memory) :
    RoundTrips p prior q mem ↔ q.fd = p.fd ∧ 0 ∉ p.data ∧ mem.heap.head? = some 0 := by
  obtain ⟨b, hb⟩ := serialize_isSome hlen prior
  rw [← cString_append_iff]
  constructor
  · rintro ⟨b', r, hb', hr, hsame⟩
    rw [hb, Option.some.injEq] at hb'
    subst hb'
    rw [deserialize_serialize hb, Option.map_eq_some_iff] at hr
    obtain ⟨data, hdata, rfl⟩ := hr
    have hsd : data = p.data := hsame.data
    exact ⟨hsame.fd, by rw [hdata, hsd]⟩
  · rintro ⟨hfd, hdata⟩
    refine ⟨b, ⟨q.fd, WireEnum.ofCode (WireEnum.code p.type), p.data⟩, hb, ?_, ?_, rfl, hfd⟩
    · rw [deserialize_serialize hb, hdata]; rfl
    · rw [WireEnum.code_ofCode]

/-- A NUL-free package decodes to its type and data wherever a NUL follows the block. -/
theorem deserialize_of_clean {p : Package S} {prior b : Buffer} (h : p.serialize prior = some b)
    (q : Package R) {mem : Memory} (hdata : 0 ∉ p.data) (hmem : mem.heap.head? = some 0) :
    q.deserialize mem b =
      some { q with type := WireEnum.ofCode (WireEnum.code p.type), data := p.data } := by
  rw [deserialize_serialize h, (cString_append_iff _ _).mpr ⟨hdata, hmem⟩]
  rfl

end Package

/-! ### The two programs' copies -/

abbrev Server.Package := Fifo.Package Server.PackageType
abbrev Client.Package := Fifo.Package Client.PackageType

def Server.serialize : Server.Package → Buffer → Option Buffer := Fifo.Package.serialize
def Client.serialize : Client.Package → Buffer → Option Buffer := Fifo.Package.serialize

def Server.deserialize : Server.Package → Memory → Buffer → Option Server.Package :=
  Fifo.Package.deserialize
def Client.deserialize : Client.Package → Memory → Buffer → Option Client.Package :=
  Fifo.Package.deserialize

/-- The constructor's default arguments, as in `Package package;`. -/
def Server.package : Server.Package := ⟨0, .message, []⟩
def Client.package : Client.Package := ⟨0, .message, []⟩

/-- A client's frame, written over a cleared buffer. -/
def Client.frame (p : Client.Package) : Buffer := (Client.serialize p zeroBuffer).getD zeroBuffer

theorem Client.serialize_frame {p : Client.Package} (h : p.data.length ≤ 1012) :
    Client.serialize p zeroBuffer = some (Client.frame p) := by
  obtain ⟨b, hb⟩ := Package.serialize_isSome h zeroBuffer
  rw [Client.frame, show Client.serialize p zeroBuffer = some b from hb, Option.getD_some]

/-- CORRECT: across the two programs, in either direction, a package of at most 1012 data bytes
    comes back with its type, data and descriptor exactly when the receiving object already holds
    the descriptor, the data is NUL-free and a NUL follows the decoder's block in memory. -/
theorem codec_roundTrips_iff (prior : Buffer) (mem : Memory) :
    (∀ (p : Client.Package) (q : Server.Package), p.data.length ≤ 1012 →
      ((∃ b r, Client.serialize p prior = some b ∧ Server.deserialize q mem b = some r ∧
          Fifo.Package.Same p r) ↔
        q.fd = p.fd ∧ 0 ∉ p.data ∧ mem.heap.head? = some 0)) ∧
    (∀ (p : Server.Package) (q : Client.Package), p.data.length ≤ 1012 →
      ((∃ b r, Server.serialize p prior = some b ∧ Client.deserialize q mem b = some r ∧
          Fifo.Package.Same p r) ↔
        q.fd = p.fd ∧ 0 ∉ p.data ∧ mem.heap.head? = some 0)) :=
  ⟨fun _ q hlen => Package.roundTrips_iff hlen prior q mem,
    fun _ q hlen => Package.roundTrips_iff hlen prior q mem⟩

/-- `"Hello world from client!"`, the message of client main. -/
def hello : List UInt8 := ascii "Hello world from client!"

theorem codec_roundTrips_hello : ∃ b r,
    Client.serialize ⟨0, .message, hello⟩ zeroBuffer = some b ∧
      Server.deserialize Server.package ⟨[], [0]⟩ b = some r ∧
      Fifo.Package.Same (S := Client.PackageType) ⟨0, .message, hello⟩ r :=
  ((codec_roundTrips_iff zeroBuffer ⟨[], [0]⟩).1 ⟨0, .message, hello⟩ Server.package
    (by decide)).mpr ⟨rfl, by decide, rfl⟩

/-- The message package as client main builds it, with its own descriptor 3, does not come back
    even with a NUL behind the block: the server's copy says descriptor 0. -/
theorem codec_loses_descriptor : ¬ ∃ b r,
    Client.serialize ⟨3, .message, hello⟩ zeroBuffer = some b ∧
      Server.deserialize Server.package ⟨[], [0]⟩ b = some r ∧
      Fifo.Package.Same (S := Client.PackageType) ⟨3, .message, hello⟩ r := by
  intro h
  have hfd := ((Package.roundTrips_iff (by decide) zeroBuffer Server.package ⟨[], [0]⟩).mp h).1
  exact absurd hfd (by decide)

end UnixIpc.Fifo
