import UnixIpc.Lib.Bytes

/-! IPv4 addresses as text, both ways: `inetNtop` writes four octets in decimal with dots between
    them, `inetPton` reads such a text back and takes no other.

        7f 00 00 01  ──inetNtop──▶  "127.0.0.1"  ──inetPton──▶  7f 00 00 01

    So the text determines the address (`inetNtop_injective`). -/

namespace UnixIpc.DottedQuad
open UnixIpc.Bytes

/-- The four bytes of an address, in network order. -/
abbrev Octets := Block 4

/-- The ASCII code of a digit. -/
def digit (n : ℕ) : UInt8 := UInt8.ofNat (48 + n)

/-- An octet in decimal, without leading zeros. -/
def decimal (octet : UInt8) : List UInt8 :=
  let n := octet.toNat
  if n < 10 then [digit n]
  else if n < 100 then [digit (n / 10), digit (n % 10)]
  else [digit (n / 100), digit (n / 10 % 10), digit (n % 10)]

/-- '.' -/
def dot : UInt8 := 46

/-- The text of an address. -/
def inetNtop (octets : Octets) : List UInt8 := [dot].intercalate (octets.1.map decimal)

/-- The octet that a decimal denotes. -/
def readOctet (digits : List UInt8) : Option UInt8 :=
  let value := digits.foldl (fun n d => 10 * n + (d.toNat - 48)) 0
  if digits ≠ [] ∧ digits.all (fun d => decide (48 ≤ d ∧ d ≤ 57)) ∧
      (digits.head? = some 48 → digits.length = 1) ∧ value ≤ 255 then
    some (UInt8.ofNat value)
  else none

/-- The address that a text denotes. -/
def inetPton (text : List UInt8) : Option Octets :=
  match (text.splitOn dot).map readOctet with
  | [some a, some b, some c, some d] => some ⟨[a, b, c, d], rfl⟩
  | _ => none

/-! ### One octet -/

theorem toNat_digit {n : ℕ} (h : n < 10) : (digit n).toNat = 48 + n := by
  rw [digit, UInt8.toNat_ofNat']
  exact Nat.mod_eq_of_lt (by omega)

theorem digit_bounds {n : ℕ} (h : n < 10) : 48 ≤ digit n ∧ digit n ≤ 57 := by
  simp only [UInt8.le_iff_toNat_le, toNat_digit h, UInt8.reduceToNat]
  omega

theorem digit_eq_zero_iff {n : ℕ} (h : n < 10) : digit n = 48 ↔ n = 0 := by
  rw [← UInt8.toNat_inj, toNat_digit h]
  exact Nat.add_eq_left

/-- Every character of a decimal is a digit. -/
theorem forall_mem_decimal {P : UInt8 → Prop} (h : ∀ n < 10, P (digit n)) (octet : UInt8) :
    ∀ d ∈ decimal octet, P d := by
  have hn := octet.toNat_lt
  rw [decimal]
  split
  · simpa using h _ (by omega)
  · split
    · simpa using ⟨h _ (by omega), h _ (by omega)⟩
    · simpa using ⟨h _ (by omega), h _ (by omega), h _ (by omega)⟩

theorem readOctet_decimal (octet : UInt8) : readOctet (decimal octet) = some octet := by
  have hn := octet.toNat_lt
  have hdigits : (decimal octet).all (fun d => decide (48 ≤ d ∧ d ≤ 57)) = true :=
    List.all_eq_true.mpr
      (forall_mem_decimal (fun _ hdigit => decide_eq_true (digit_bounds hdigit)) octet)
  have hvalue : (decimal octet).foldl (fun n d => 10 * n + (d.toNat - 48)) 0 = octet.toNat := by
    rw [decimal]
    split
    · simp only [List.foldl_cons, List.foldl_nil]
      rw [toNat_digit (by omega)]
      omega
    · split
      · simp only [List.foldl_cons, List.foldl_nil]
        rw [toNat_digit (by omega), toNat_digit (by omega)]
        omega
      · simp only [List.foldl_cons, List.foldl_nil]
        rw [toNat_digit (by omega), toNat_digit (by omega), toNat_digit (by omega)]
        omega
  have hhead : (decimal octet).head? = some 48 → (decimal octet).length = 1 := by
    rw [decimal]
    split
    · exact fun _ => rfl
    · split
      · rw [List.head?_cons, Option.some.injEq, digit_eq_zero_iff (by omega)]
        omega
      · rw [List.head?_cons, Option.some.injEq, digit_eq_zero_iff (by omega)]
        omega
  have hne : decimal octet ≠ [] := by
    rw [decimal]
    split
    · simp
    · split <;> simp
  rw [readOctet, if_pos ⟨hne, hdigits, hhead, by omega⟩, hvalue, UInt8.ofNat_toNat]

theorem digit_of_mem_decimal (octet : UInt8) : ∀ d ∈ decimal octet, 48 ≤ d :=
  forall_mem_decimal (fun _ hn => (digit_bounds hn).1) octet

theorem length_decimal_le (octet : UInt8) : (decimal octet).length ≤ 3 := by
  rw [decimal]
  split
  · simp
  · split <;> simp

/-! ### Four octets -/

theorem Octets.exists_eq (octets : Octets) : ∃ a b c d, octets.1 = [a, b, c, d] := by
  obtain ⟨bytes, hlen⟩ := octets
  exact List.length_eq_four.mp hlen

/-- Reading what was written gives the address back. -/
theorem inetPton_inetNtop (octets : Octets) : inetPton (inetNtop octets) = some octets := by
  obtain ⟨a, b, c, d, hoctets⟩ := octets.exists_eq
  have hdots : ∀ part ∈ octets.1.map decimal, dot ∉ part := by
    intro part hpart hdot
    obtain ⟨octet, _, rfl⟩ := List.mem_map.mp hpart
    exact absurd (digit_of_mem_decimal octet dot hdot) (by decide)
  rw [inetPton, inetNtop, List.splitOn_intercalate dot hdots (by simp [hoctets]), List.map_map,
    hoctets]
  simp only [List.map_cons, List.map_nil, Function.comp_apply, readOctet_decimal]
  exact congrArg some (Subtype.ext hoctets.symm)

theorem inetNtop_injective {o o' : Octets} (h : inetNtop o = inetNtop o') : o = o' := by
  have hback := inetPton_inetNtop o
  rw [h, inetPton_inetNtop, Option.some.injEq] at hback
  exact hback.symm

/-- With its terminator it fits into `INET_ADDRSTRLEN` bytes. -/
theorem length_inetNtop_le (octets : Octets) : (inetNtop octets).length ≤ 15 := by
  obtain ⟨a, b, c, d, hoctets⟩ := octets.exists_eq
  have ha := length_decimal_le a
  have hb := length_decimal_le b
  have hc := length_decimal_le c
  have hd := length_decimal_le d
  rw [inetNtop, hoctets]
  simp only [List.map_cons, List.map_nil, List.intercalate_cons_cons, List.intercalate_singleton,
    List.length_append, List.length_cons, List.length_nil]
  omega

theorem nul_not_mem_inetNtop (octets : Octets) : 0 ∉ inetNtop octets := by
  obtain ⟨a, b, c, d, hoctets⟩ := octets.exists_eq
  have hnul : ∀ octet, 0 ∉ decimal octet := by
    intro octet h
    exact absurd (digit_of_mem_decimal octet 0 h) (by decide)
  rw [inetNtop, hoctets]
  simp [List.intercalate_cons_cons, hnul, dot]

end UnixIpc.DottedQuad
