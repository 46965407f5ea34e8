import Mathlib.Data.List.Basic
import Mathlib.Data.List.TakeWhile
import Mathlib.Data.Nat.ModEq
import Mathlib.Tactic.Common
import Mathlib.Tactic.Ring

/-! Raw memory, as much of it as a message codec touches: fixed-size byte arrays, bounded copies
    into and out of them, little-endian integers, NUL-terminated strings, and bytes that come in
    pieces.

    A copy that would leave its array yields `none`. A string scan reads on through whatever bytes
    follow, so its result depends on memory the caller does not own; `cString_append_iff` says
    exactly when it still comes out right. -/

namespace UnixIpc.Bytes

/-- A byte array of `n` bytes. -/
abbrev Block (n : ℕ) := {bytes : List UInt8 // bytes.length = n}

/-- The zero-filled array. -/
def zeros (n : ℕ) : Block n := ⟨List.replicate n 0, by simp⟩

/-- `memcpy(dst + off, src, src.size())`; `none` when the range leaves `dst`. -/
def copyInto {n : ℕ} (dst : Block n) (off : ℕ) (src : List UInt8) : Option (Block n) :=
  if h : off + src.length ≤ n then
    some ⟨dst.1.take off ++ src ++ dst.1.drop (off + src.length), by
      have := dst.2; simp only [List.length_append, List.length_take, List.length_drop]; omega⟩
  else none

/-- The `len` bytes from offset `off` on. -/
def slice (bytes : List UInt8) (off len : ℕ) : List UInt8 := (bytes.drop off).take len

/-- `memcpy` of `len` bytes out of readable memory; `none` when the memory ends before. -/
def copyOut (bytes : List UInt8) (len : ℕ) : Option (List UInt8) :=
  if len ≤ bytes.length then some (bytes.take len) else none

/-- The string a `char *` denotes: the bytes up to the first NUL; `none` when no NUL follows. -/
def cString (bytes : List UInt8) : Option (List UInt8) :=
  if 0 ∈ bytes then some (bytes.takeWhile (· ≠ 0)) else none

/-- The `width` low bytes of `v`, least significant first. -/
def toLE (width v : ℕ) : List UInt8 :=
  (List.range width).map fun i => UInt8.ofNat (v / 256 ^ i)

/-- The number a little-endian byte string denotes. -/
def ofLE (bytes : List UInt8) : ℕ := bytes.foldr (fun b acc => b.toNat + 256 * acc) 0

/-- The bytes of a text literal. -/
def ascii (text : String) : List UInt8 := text.toList.map fun c => UInt8.ofNat c.toNat

/-! ### Copies -/

theorem copyInto_isSome {n : ℕ} (dst : Block n) (off : ℕ) (src : List UInt8)
    (h : off + src.length ≤ n) : ∃ b, copyInto dst off src = some b := by
  rw [copyInto, dif_pos h]; exact ⟨_, rfl⟩

theorem copyInto_val {n : ℕ} {dst b : Block n} {off : ℕ} {src : List UInt8}
    (h : copyInto dst off src = some b) :
    off + src.length ≤ n ∧ b.1 = dst.1.take off ++ src ++ dst.1.drop (off + src.length) := by
  unfold copyInto at h
  split at h
  · rename_i hle
    simp only [Option.some.injEq] at h
    subst h; exact ⟨hle, rfl⟩
  · exact absurd h (by simp)

/-- A copy over as many bytes puts the new ones in their place. -/
theorem copyInto_middle {n : ℕ} {dst : Block n} {pre mid post src : List UInt8}
    (hdst : dst.1 = pre ++ mid ++ post) (hlen : mid.length = src.length) :
    ∃ b, copyInto dst pre.length src = some b ∧ b.1 = pre ++ src ++ post := by
  have hn : (pre ++ mid ++ post).length = n := hdst ▸ dst.2
  rw [List.length_append, List.length_append] at hn
  obtain ⟨b, hb⟩ := copyInto_isSome dst pre.length src (by omega)
  refine ⟨b, hb, ?_⟩
  have hfront : (pre ++ mid).length = pre.length + src.length := by
    rw [List.length_append, hlen]
  rw [(copyInto_val hb).2, hdst, List.drop_left' hfront, List.append_assoc pre mid post,
    List.take_left' rfl]

/-- What was just copied is read back. -/
theorem slice_copyInto {n : ℕ} {dst b : Block n} {off : ℕ} {src : List UInt8}
    (h : copyInto dst off src = some b) : slice b.1 off src.length = src := by
  obtain ⟨hle, hb⟩ := copyInto_val h
  have hlen : (dst.1.take off).length = off := by
    have := dst.2; simp only [List.length_take]; omega
  rw [slice, hb, List.append_assoc, List.drop_append_of_le_length (by omega),
    List.drop_eq_nil_of_le (by omega), List.nil_append, List.take_left']
  rfl

/-- A copy leaves the bytes below it alone. -/
theorem slice_copyInto_below {n : ℕ} {dst b : Block n} {off : ℕ} {src : List UInt8}
    (h : copyInto dst off src = some b) {i len : ℕ} (hi : i + len ≤ off) :
    slice b.1 i len = slice dst.1 i len := by
  obtain ⟨hle, hb⟩ := copyInto_val h
  have hlen : (dst.1.take off).length = off := by
    have := dst.2; simp only [List.length_take]; omega
  have hpre : (b.1.take off) = dst.1.take off := by
    rw [hb, List.append_assoc, List.take_left' hlen]
  have hcut : ∀ l : List UInt8, slice l i len = slice (l.take off) i len := by
    intro l
    rw [slice, slice, List.drop_take, List.take_take, Nat.min_eq_left (by omega)]
  rw [hcut b.1, hcut dst.1, hpre]

/-- A copy leaves the bytes above it alone. -/
theorem slice_copyInto_above {n : ℕ} {dst b : Block n} {off : ℕ} {src : List UInt8}
    (h : copyInto dst off src = some b) {i len : ℕ} (hi : off + src.length ≤ i) :
    slice b.1 i len = slice dst.1 i len := by
  obtain ⟨hle, hb⟩ := copyInto_val h
  have hlen : (dst.1.take off ++ src).length = off + src.length := by
    have := dst.2; simp only [List.length_append, List.length_take]; omega
  have hdrop : b.1.drop i = dst.1.drop i := by
    rw [hb, List.drop_append, hlen, List.drop_eq_nil_of_le (by omega), List.nil_append,
      List.drop_drop]
    exact congrArg dst.1.drop (by omega)
  rw [slice, slice, hdrop]

theorem copyOut_of_slice {bytes rest : List UInt8} {off len : ℕ} (hlen : off + len ≤ bytes.length) :
    copyOut (bytes.drop off ++ rest) len = some (slice bytes off len) := by
  have hle : len ≤ (bytes.drop off).length := by simp only [List.length_drop]; omega
  rw [copyOut, if_pos (by simp only [List.length_append]; omega), List.take_append_of_le_length hle]
  rfl

/-! ### Strings -/

/-- A string scan over `data` and what follows it returns `data` exactly when `data` holds no NUL
    and the very next byte is one. -/
theorem cString_append_iff (data rest : List UInt8) :
    cString (data ++ rest) = some data ↔ 0 ∉ data ∧ rest.head? = some 0 := by
  induction data with
  | nil =>
    cases rest with
    | nil => simp [cString]
    | cons b rest =>
      by_cases hb : b = 0
      · subst hb; simp [cString]
      · simp [cString, hb]
  | cons a data ih =>
    by_cases ha : a = 0
    · subst ha; simp [cString]
    · have hstep : cString (a :: data ++ rest) = (cString (data ++ rest)).map (a :: ·) := by
        simp only [cString, List.cons_append, List.mem_cons, Ne.symm ha, false_or]
        split <;> simp [ha]
      rw [hstep, Option.map_eq_some_iff]
      simp only [List.cons.injEq, true_and, exists_eq_right, ih, List.mem_cons, Ne.symm ha,
        false_or]

/-- A string ends before the memory that holds its NUL does. -/
theorem takeWhile_ne_self {bytes : List UInt8} (h : 0 ∈ bytes) :
    bytes.takeWhile (· ≠ 0) ≠ bytes := by
  intro heq
  have hall := List.all_takeWhile (l := bytes) (p := (· ≠ 0))
  rw [heq] at hall
  exact absurd rfl (of_decide_eq_true (List.all_eq_true.mp hall 0 h))

/-- A scan that finds its NUL does not look any further. -/
theorem cString_append_of_mem {bytes : List UInt8} (h : 0 ∈ bytes) (rest : List UInt8) :
    cString (bytes ++ rest) = cString bytes := by
  rw [cString, cString, if_pos h, if_pos (List.mem_append_left _ h), List.takeWhile_append, if_neg]
  intro hlen
  exact takeWhile_ne_self h
    ((List.takeWhile_sublist (fun b : UInt8 => decide (b ≠ 0))).eq_of_length hlen)

theorem nul_not_mem_of_cString {bytes data : List UInt8} (h : cString bytes = some data) :
    0 ∉ data := by
  rw [cString] at h
  split at h
  · obtain rfl := Option.some.inj h
    intro hmem
    exact absurd (List.mem_takeWhile_imp hmem) (by simp)
  · exact absurd h (by simp)

/-- The NUL itself takes room. -/
theorem length_lt_of_cString {bytes data : List UInt8} (h : cString bytes = some data) :
    data.length < bytes.length := by
  rw [cString] at h
  split at h
  · rename_i hzero
    obtain rfl := Option.some.inj h
    have hsub : (bytes.takeWhile (· ≠ 0)).Sublist bytes := List.takeWhile_sublist _
    exact lt_of_le_of_ne hsub.length_le fun heq => takeWhile_ne_self hzero (hsub.eq_of_length heq)
  · exact absurd h (by simp)

/-- A scan takes along whatever holds no NUL. -/
theorem prefix_of_cString {data rest string : List UInt8} (hnul : 0 ∉ data)
    (h : cString (data ++ rest) = some string) : data <+: string := by
  rw [cString] at h
  split at h
  · obtain rfl := Option.some.inj h
    rw [List.takeWhile_append_of_pos]
    · exact List.prefix_append ..
    · intro b hb
      exact decide_eq_true fun hzero => hnul (hzero ▸ hb)
  · exact absurd h (by simp)

/-! ### Little-endian integers -/

@[simp] theorem length_toLE (width v : ℕ) : (toLE width v).length = width := by simp [toLE]

theorem toLE_succ (width v : ℕ) :
    toLE (width + 1) v = UInt8.ofNat v :: toLE width (v / 256) := by
  simp only [toLE, List.range_succ_eq_map, List.map_cons, List.map_map, pow_zero, Nat.div_one]
  congr 1
  refine List.map_congr_left ?_
  intro i _
  simp only [Function.comp_apply, Nat.succ_eq_add_one]
  rw [pow_succ', Nat.div_div_eq_div_mul]

/-- Writing a number and reading it back keeps its low `width` bytes. -/
theorem ofLE_toLE (width v : ℕ) : ofLE (toLE width v) = v % 256 ^ width := by
  induction width generalizing v with
  | zero => simp [toLE, ofLE, Nat.mod_one]
  | succ width ih =>
    have hcons : ofLE (toLE (width + 1) v) = v % 256 + 256 * ofLE (toLE width (v / 256)) := by
      rw [toLE_succ]; simp [ofLE]
    rw [hcons, ih, pow_succ', Nat.mod_mul]

theorem ofLE_toLE_of_lt {width v : ℕ} (h : v < 256 ^ width) : ofLE (toLE width v) = v := by
  rw [ofLE_toLE, Nat.mod_eq_of_lt h]

/-! ### Concatenations -/

theorem length_flatten_le_of_prefix {ι : Type*} {f g : ι → List UInt8} {is : List ι}
    (h : ∀ i ∈ is, f i <+: g i) : (is.map f).flatten.length ≤ (is.map g).flatten.length := by
  induction is with
  | nil => simp
  | cons i is ih =>
    obtain ⟨hi, his⟩ := List.forall_mem_cons.mp h
    simp only [List.map_cons, List.flatten_cons, List.length_append]
    exact Nat.add_le_add hi.length_le (ih his)

/-- Pieces that are prefixes of others add up to the same only if they are the same. -/
theorem flatten_eq_iff_of_prefix {ι : Type*} {f g : ι → List UInt8} {is : List ι}
    (h : ∀ i ∈ is, f i <+: g i) :
    (is.map f).flatten = (is.map g).flatten ↔ ∀ i ∈ is, f i = g i := by
  induction is with
  | nil => simp
  | cons i is ih =>
    obtain ⟨hi, his⟩ := List.forall_mem_cons.mp h
    have hrest := length_flatten_le_of_prefix his
    rw [List.map_cons, List.map_cons, List.flatten_cons, List.flatten_cons, List.forall_mem_cons,
      ← ih his]
    constructor
    · intro heq
      have hlen := congrArg List.length heq
      rw [List.length_append, List.length_append] at hlen
      have hle := hi.length_le
      exact List.append_inj heq (by omega)
    · rintro ⟨hhead, htail⟩
      rw [hhead, htail]

end UnixIpc.Bytes
