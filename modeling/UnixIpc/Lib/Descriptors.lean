import Mathlib.Data.List.Perm.Subperm
import Mathlib.Data.List.Range
import Mathlib.Data.List.Nodup
import Mathlib.Data.Nat.Cast.Basic
import Mathlib.Data.Int.Order.Basic
import Mathlib.Algebra.Order.Ring.Int
import Mathlib.Tactic.Common

/-! Descriptor numbers as the kernel hands them out, and what poll(2) reports about them. A new
    descriptor is the lowest number that is not in use: the number is new, it is not negative, and
    every smaller one is taken. `report` is the one thing poll does to its entries. -/

namespace UnixIpc.Descriptors

/-- The search for a free number, over the first `used.length + 1` candidates. -/
def firstFree (used : List ℤ) : Option ℕ :=
  (List.range (used.length + 1)).find? fun n : ℕ => !used.contains (n : ℤ)

/-- The lowest non-negative number that is not in use. -/
def lowestFree (used : List ℤ) : ℤ := ((firstFree used).getD 0 : ℕ)

/-- The search succeeds: the candidates outnumber the numbers in use. -/
theorem exists_firstFree (used : List ℤ) : ∃ n, firstFree used = some n := by
  rw [← Option.isSome_iff_exists, firstFree, List.find?_isSome]
  by_contra hall
  have hsub : (List.range (used.length + 1)).map (fun n : ℕ => (n : ℤ)) ⊆ used := by
    intro fd hfd
    obtain ⟨n, hn, rfl⟩ := List.mem_map.mp hfd
    by_contra hmem
    exact hall ⟨n, hn, by simpa using hmem⟩
  have hnodup : ((List.range (used.length + 1)).map (fun n : ℕ => (n : ℤ))).Nodup :=
    List.Nodup.map (fun _ _ h => Int.ofNat.inj h) List.nodup_range
  have hle := (List.subperm_of_subset hnodup hsub).length_le
  simp only [List.length_map, List.length_range] at hle
  omega

theorem lowestFree_nonneg (used : List ℤ) : 0 ≤ lowestFree used := Int.natCast_nonneg _

theorem lowestFree_not_mem (used : List ℤ) : lowestFree used ∉ used := by
  obtain ⟨n, hn⟩ := exists_firstFree used
  rw [lowestFree, hn, Option.getD_some]
  simpa using List.find?_some hn

/-- Every smaller number is in use. -/
theorem mem_of_lt_lowestFree {used : List ℤ} {fd : ℤ} (h0 : 0 ≤ fd) (h : fd < lowestFree used) :
    fd ∈ used := by
  obtain ⟨n, hn⟩ := exists_firstFree used
  rw [lowestFree, hn, Option.getD_some] at h
  obtain ⟨k, rfl⟩ := Int.eq_ofNat_of_zero_le h0
  have hlt := (List.find?_range_eq_some.mp hn).2.2 k (by omega)
  simpa using hlt

/-- A descriptor that is not open: `wanted` where that is one, so every free number is the answer to
    some wish. -/
def freeFd (used : List ℤ) (wanted : ℤ) : ℤ :=
  if 0 ≤ wanted ∧ wanted ∉ used then wanted else lowestFree used

theorem freeFd_nonneg (used : List ℤ) (wanted : ℤ) : 0 ≤ freeFd used wanted := by
  unfold freeFd
  split
  · rename_i h; exact h.1
  · exact lowestFree_nonneg used

theorem freeFd_not_mem (used : List ℤ) (wanted : ℤ) : freeFd used wanted ∉ used := by
  unfold freeFd
  split
  · rename_i h; exact h.2
  · exact lowestFree_not_mem used

/-! ### poll(2) -/

/-- `POLLRDNORM`. -/
def pollRdNorm : UInt16 := 64

/-- The bit set contains `POLLRDNORM`, alone or with others. -/
def readable (revents : UInt16) : Prop := revents &&& pollRdNorm ≠ 0

instance (revents : UInt16) : Decidable (readable revents) := inferInstanceAs (Decidable (_ ≠ _))

theorem readable_pollRdNorm : readable pollRdNorm := by decide

theorem ne_zero_of_readable {revents : UInt16} (h : readable revents) : revents ≠ 0 := by
  rintro rfl
  exact absurd h (by decide)

/-- `struct pollfd`. -/
structure PollFd where
  fd : ℤ
  events : UInt16
  revents : UInt16
  deriving DecidableEq

/-- The entries with the revents that poll found, by index. -/
def report (entries : List PollFd) (revents : ℕ → UInt16) : List PollFd :=
  entries.mapIdx fun i entry => { entry with revents := revents i }

theorem report_getElem? (entries : List PollFd) (revents : ℕ → UInt16) (i : ℕ) :
    (report entries revents)[i]? =
      (entries[i]?).map fun entry => { entry with revents := revents i } := List.getElem?_mapIdx

theorem report_cons (entry : PollFd) (entries : List PollFd) (revents : ℕ → UInt16) :
    report (entry :: entries) revents =
      { entry with revents := revents 0 } :: report entries (fun i => revents (i + 1)) :=
  List.mapIdx_cons

theorem report_fd (entries : List PollFd) (revents : ℕ → UInt16) :
    (report entries revents).map (·.fd) = entries.map (·.fd) := by
  refine List.ext_getElem? ?_
  intro i
  rw [List.getElem?_map, List.getElem?_map, report_getElem?, Option.map_map]
  rfl

end UnixIpc.Descriptors
