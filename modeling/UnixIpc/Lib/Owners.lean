import Mathlib.Data.List.Nodup
import Mathlib.Logic.Equiv.Basic
import Mathlib.Tactic.Common

/-! Resources held by owners. Everything that is live is held, by one owner and once, and what is
    held is live:

        live  =  held 0  ⊎  held 1  ⊎  …

    Four operations keep that: an owner may `take` in a new resource, hand all it has to an owner
    that has nothing, or go and `drop` what it has, and what is live may be listed in another order.
    Once nobody holds anything, nothing is live. -/

namespace UnixIpc
variable {ι α : Type*}

/-- Each live resource has one owner, which holds it once. -/
structure Owners (held : ι → List α) (live : List α) : Prop where
  distinct : ∀ i, (held i).Nodup
  apart : ∀ i j, i ≠ j → ∀ a ∈ held i, a ∉ held j
  mem_live : ∀ a, a ∈ live ↔ ∃ i, a ∈ held i

namespace Owners
variable {held : ι → List α} {live : List α} {a : α} {i j : ι}

theorem empty : Owners (fun _ : ι => ([] : List α)) [] :=
  ⟨fun _ => List.nodup_nil, by simp, by simp⟩

/-- Nothing is live when nobody holds anything. -/
theorem eq_nil (h : Owners held live) (hnone : ∀ i, held i = []) : live = [] := by
  refine List.eq_nil_iff_forall_not_mem.mpr ?_
  intro a ha
  obtain ⟨i, hi⟩ := (h.mem_live a).mp ha
  rw [hnone i] at hi
  exact absurd hi List.not_mem_nil

/-- Owners under other names. -/
theorem reindex (h : Owners held live) (e : ι ≃ ι) : Owners (fun i => held (e i)) live where
  distinct i := h.distinct (e i)
  apart i j hij := h.apart (e i) (e j) (e.injective.ne hij)
  mem_live a := (h.mem_live a).trans e.surjective.exists

variable [DecidableEq ι]

/-- STEP: `i` takes in something new. -/
theorem take (h : Owners held live) (hnew : a ∉ live) (i : ι) :
    Owners (Function.update held i (held i ++ [a])) (a :: live) := by
  have hfree : ∀ k, a ∉ held k := fun k hk => hnew ((h.mem_live a).mpr ⟨k, hk⟩)
  have hmem : ∀ k b, b ∈ Function.update held i (held i ++ [a]) k ↔
      b ∈ held k ∨ (k = i ∧ b = a) := by
    intro k b
    rcases eq_or_ne k i with rfl | hk
    · simp
    · simp [hk]
  refine ⟨?_, ?_, ?_⟩
  · intro k
    rcases eq_or_ne k i with rfl | hk
    · rw [Function.update_self]
      refine List.nodup_append.mpr ⟨h.distinct k, List.nodup_singleton a, ?_⟩
      rintro b hb c hc rfl
      exact hfree k (List.mem_singleton.mp hc ▸ hb)
    · rw [Function.update_of_ne hk]
      exact h.distinct k
  · intro k l hkl b hb hb'
    rcases (hmem k b).mp hb with hold | ⟨rfl, rfl⟩ <;>
      rcases (hmem l b).mp hb' with hold' | ⟨rfl, hb''⟩
    · exact h.apart k l hkl b hold hold'
    · exact hfree k (hb'' ▸ hold)
    · exact hfree l hold'
    · exact hkl rfl
  · intro b
    simp only [List.mem_cons, hmem, h.mem_live b]
    constructor
    · rintro (rfl | ⟨k, hk⟩)
      · exact ⟨i, .inr ⟨rfl, rfl⟩⟩
      · exact ⟨k, .inl hk⟩
    · rintro ⟨k, hk | ⟨_, rfl⟩⟩
      · exact .inr ⟨k, hk⟩
      · exact .inl rfl

/-- STEP: `i` goes, and what it held with it. -/
theorem drop (h : Owners held live) {rest : List α} (hlive : (held i ++ rest).Perm live)
    (hrest : (held i ++ rest).Nodup) : Owners (Function.update held i []) rest := by
  have hmem : ∀ k b, b ∈ Function.update held i [] k ↔ b ∈ held k ∧ k ≠ i := by
    intro k b
    rcases eq_or_ne k i with rfl | hk
    · simp
    · simp [hk]
  have hsplit : ∀ b, b ∈ rest ↔ b ∈ live ∧ b ∉ held i := by
    intro b
    rw [← hlive.mem_iff, List.mem_append]
    have hdisjoint := (List.nodup_append.mp hrest).2.2
    constructor
    · intro hb
      exact ⟨.inr hb, fun hb' => hdisjoint b hb' b hb rfl⟩
    · rintro ⟨hb | hb, hnot⟩
      · exact absurd hb hnot
      · exact hb
  refine ⟨?_, ?_, ?_⟩
  · intro k
    rcases eq_or_ne k i with rfl | hk
    · rw [Function.update_self]
      exact List.nodup_nil
    · rw [Function.update_of_ne hk]
      exact h.distinct k
  · intro k l hkl b hb hb'
    exact h.apart k l hkl b ((hmem k b).mp hb).1 ((hmem l b).mp hb').1
  · intro b
    simp only [hmem, hsplit, h.mem_live b]
    constructor
    · rintro ⟨⟨k, hk⟩, hnot⟩
      exact ⟨k, hk, fun hki => hnot (hki ▸ hk)⟩
    · rintro ⟨k, hk, hki⟩
      exact ⟨⟨k, hk⟩, h.apart k i hki b hk⟩

/-- STEP: `j` hands all it has to `i`, which has nothing. -/
theorem move (h : Owners held live) (hi : held i = []) :
    Owners (Function.update (Function.update held j []) i (held j)) live := by
  -- as owners the two change places
  have hswap : Function.update (Function.update held j []) i (held j) =
      fun k => held (Equiv.swap i j k) := by
    funext k
    rcases eq_or_ne k i with rfl | hki
    · rw [Function.update_self, Equiv.swap_apply_left]
    rw [Function.update_of_ne hki]
    rcases eq_or_ne k j with rfl | hkj
    · rw [Function.update_self, Equiv.swap_apply_right, hi]
    · rw [Function.update_of_ne hkj, Equiv.swap_apply_of_ne_of_ne hki hkj]
  rw [hswap]
  exact h.reindex (Equiv.swap i j)

end Owners
end UnixIpc
