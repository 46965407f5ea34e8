import Mathlib.Algebra.BigOperators.Group.List.Basic
import Mathlib.Data.Set.Card
import Mathlib.Data.Set.Finite.Lattice
import UnixIpc.Lib.Run

/-! Machines that pay for every change: each step leaves the state as it is or takes from a
    potential. Such a machine comes to rest whatever its inputs are (`Pays.rests`), and changes no
    more often than the potential it starts with allows (`Pays.encard_changes_le`). -/

namespace UnixIpc.Run
variable {σ ι : Type*}

/-- Where the invariant holds, a step keeps it, and is idle or takes from the potential. -/
structure Pays (step : σ → ι → σ) (P : σ → Prop) (potential : σ → ℕ) : Prop where
  keeps : ∀ s i, P s → P (step s i)
  pays : ∀ s i, P s → step s i = s ∨ potential (step s i) < potential s

/-- The moments of an endless run at which the state changes. -/
def changes (step : σ → ι → σ) (s : σ) (is : ℕ → ι) : Set ℕ :=
  {n | after step s is (n + 1) ≠ after step s is n}

namespace Pays
variable {step : σ → ι → σ} {P : σ → Prop} {potential : σ → ℕ} {s : σ}

theorem after_inv (h : Pays step P potential) (hs : P s) (is : ℕ → ι) (n : ℕ) :
    P (after step s is n) := by
  induction n with
  | zero => exact hs
  | succ n ih => exact h.keeps _ _ ih

theorem antitone (h : Pays step P potential) (hs : P s) (is : ℕ → ι) :
    Antitone fun n => potential (after step s is n) := by
  refine antitone_nat_of_succ_le ?_
  intro n
  rcases h.pays _ (is n) (h.after_inv hs is n) with hidle | hless
  · exact (congrArg potential hidle).le
  · exact hless.le

theorem lt_of_change (h : Pays step P potential) (hs : P s) {is : ℕ → ι} {n : ℕ}
    (hn : n ∈ changes step s is) :
    potential (after step s is (n + 1)) < potential (after step s is n) :=
  (h.pays _ (is n) (h.after_inv hs is n)).resolve_left hn

/-- No two changes leave the same potential. -/
theorem injOn_changes (h : Pays step P potential) (hs : P s) (is : ℕ → ι) :
    Set.InjOn (fun n => potential (after step s is (n + 1))) (changes step s is) := by
  have hlater : ∀ n m, m ∈ changes step s is → n < m →
      potential (after step s is (m + 1)) < potential (after step s is (n + 1)) :=
    fun n m hm hlt => (h.lt_of_change hs hm).trans_le (h.antitone hs is hlt)
  intro n hn m hm heq
  rcases Nat.lt_trichotomy n m with hlt | heq' | hlt
  · exact absurd heq (hlater n m hm hlt).ne'
  · exact heq'
  · exact absurd heq (hlater m n hn hlt).ne

/-- BOUND: a run changes no more often than its potential allows. -/
theorem encard_changes_le (h : Pays step P potential) (hs : P s) (is : ℕ → ι) :
    (changes step s is).encard ≤ potential s := by
  have hmaps : Set.MapsTo (fun n => potential (after step s is (n + 1))) (changes step s is)
      (Finset.range (potential s)) := by
    intro n hn
    have hle : potential (after step s is n) ≤ potential s := h.antitone hs is (Nat.zero_le n)
    exact Finset.mem_coe.mpr (Finset.mem_range.mpr ((h.lt_of_change hs hn).trans_le hle))
  calc (changes step s is).encard
      ≤ (Finset.range (potential s) : Set ℕ).encard :=
        Set.encard_le_encard_of_injOn hmaps (h.injOn_changes hs is)
    _ = potential s := by rw [Set.encard_coe_eq_coe_finsetCard, Finset.card_range]

/-- TERMINATION: every endless run comes to rest. -/
theorem rests (h : Pays step P potential) (hs : P s) (is : ℕ → ι) :
    ∃ n, ∀ m, n ≤ m → after step s is m = after step s is n := by
  have hfinite : (changes step s is).Finite :=
    Set.finite_of_encard_le_coe (h.encard_changes_le hs is)
  obtain ⟨n, hn⟩ := hfinite.bddAbove
  refine ⟨n + 1, ?_⟩
  intro m hle
  induction m, hle using Nat.le_induction with
  | base => rfl
  | succ m hle ih =>
    have hidle : m ∉ changes step s is := fun hm => absurd (hn hm) (Nat.not_le.mpr hle)
    exact (not_not.mp hidle).trans ih

/-- EXACT: a machine that pays, whose inputs of each kind come again and again. Steps that meet `C`
    keep it going (`G`), any other spoils it for good (`B`), and what goes on and is left as it is by
    an input of each kind has ended (`D`). It ends just when every step meets `C`. -/
theorem ends_well_iff {κ : Type*} {G B D : σ → Prop} {C : σ → ι → Prop} {A : ι → Prop}
    {K : κ → ι → Prop} (h : Pays step P potential)
    (hkeep : ∀ s i, G s → A i → C s i → G (step s i))
    (hbreak : ∀ s i, G s → A i → ¬ C s i → B (step s i)) (hstay : ∀ s i, B s → B (step s i))
    (hB : ∀ s, B s → ¬ D s) (hD : ∀ s i, D s → step s i = s)
    (hrest : ∀ s, P s → G s → (∀ k, ∃ i, A i ∧ K k i ∧ step s i = s) → D s) (hs : P s)
    (hG : G s) (is : ℕ → ι) (hA : ∀ n, A (is n)) (hfair : ∀ k n, ∃ m, n ≤ m ∧ K k (is m)) :
    (∃ n, D (after step s is n)) ↔ ∀ n, C (after step s is n) (is n) := by
  have hgoes : ∀ n, (∀ m < n, C (after step s is m) (is m)) → G (after step s is n) := by
    intro n hbefore
    induction n with
    | zero => exact hG
    | succ n ih =>
      exact hkeep _ _ (ih fun m hm => hbefore m (Nat.lt_succ_of_lt hm)) (hA n)
        (hbefore n (Nat.lt_succ_self n))
  constructor
  · rintro ⟨n, hn⟩
    by_contra hnot
    -- from the first step that does not meet `C` on
    obtain ⟨k, hk, hbefore⟩ : ∃ k, ¬ C (after step s is k) (is k) ∧
        ∀ m < k, C (after step s is m) (is m) := by
      classical
      obtain hex := not_forall.mp hnot
      exact ⟨Nat.find hex, Nat.find_spec hex, fun m hm => not_not.mp (Nat.find_min hex hm)⟩
    have hspoilt : ∀ m, k + 1 ≤ m → B (after step s is m) := by
      intro m hm
      induction m, hm using Nat.le_induction with
      | base => exact hbreak _ _ (hgoes k hbefore) (hA k) hk
      | succ m _ ih => exact hstay _ _ ih
    have hended : ∀ m, n ≤ m → D (after step s is m) := by
      intro m hm
      induction m, hm using Nat.le_induction with
      | base => exact hn
      | succ m _ ih =>
        rw [after, hD _ _ ih]
        exact ih
    exact hB _ (hspoilt (max n (k + 1)) (le_max_right ..)) (hended _ (le_max_left ..))
  · intro hall
    obtain ⟨n, hn⟩ := h.rests hs is
    refine ⟨n, hrest _ (h.after_inv hs is n) (hgoes n fun m _ => hall m) ?_⟩
    intro k
    obtain ⟨m, hm, hkind⟩ := hfair k n
    refine ⟨is m, hA m, hkind, ?_⟩
    calc step (after step s is n) (is m)
        = step (after step s is m) (is m) := by rw [hn m hm]
      _ = after step s is n := hn (m + 1) (Nat.le_succ_of_le hm)

end Pays

/-- One party's step: the others' potentials stay. -/
theorem sum_map_set {α : Type*} (potential : α → ℕ) {parties : List α} {i : ℕ} {a : α}
    (hi : parties[i]? = some a) (b : α) :
    ((parties.set i b).map potential).sum + potential a =
      (parties.map potential).sum + potential b := by
  obtain ⟨hlt, rfl⟩ := List.getElem?_eq_some_iff.mp hi
  have hsplit : (parties.map potential).sum = ((parties.take i).map potential).sum +
      (potential parties[i] + ((parties.drop (i + 1)).map potential).sum) := by
    conv_lhs => rw [← List.take_append_drop i parties, List.drop_eq_getElem_cons hlt]
    rw [List.map_append, List.sum_append, List.map_cons, List.sum_cons]
  rw [List.set_eq_take_append_cons_drop, if_pos hlt, List.map_append, List.sum_append,
    List.map_cons, List.sum_cons, hsplit]
  omega

end UnixIpc.Run
