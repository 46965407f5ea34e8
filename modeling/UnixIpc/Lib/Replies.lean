import Mathlib.Tactic.Common

/-! State machines that reply to every input, or fail and stop:

        s₀ ──i₀/o₀──▶ s₁ ──i₁/o₁──▶ s₂ ──i₂──▶ fault

    Two machines are compared from states in a relation. One that follows a machine without faults
    never fails and replies the same (`run_of_sim`). Two that both may fail look the same from
    outside exactly while the inputs are admissible, if any other input tells them apart at once
    (`same_iff`). -/

namespace UnixIpc.Replies
variable {σ τ ι ο ε : Type*}

/-- The replies, and how the run ends: in a state, or by a fault. -/
def run (step : σ → ι → Except ε (σ × ο)) : σ → List ι → List ο × Except ε σ
  | s, [] => ([], .ok s)
  | s, i :: is =>
    match step s i with
    | .error fault => ([], .error fault)
    | .ok (s', o) => (o :: (run step s' is).1, (run step s' is).2)

/-- The replies and the last state of a machine without faults. -/
def runTotal (step : τ → ι → τ × ο) : τ → List ι → List ο × τ
  | t, [] => ([], t)
  | t, i :: is =>
    ((step t i).2 :: (runTotal step (step t i).1 is).1, (runTotal step (step t i).1 is).2)

/-- The same replies, and the same end as far as it shows: which fault, if any. -/
def Same (r : List ο × Except ε σ) (r' : List ο × Except ε τ) : Prop :=
  r.1 = r'.1 ∧ r.2.map (fun _ => ()) = r'.2.map fun _ => ()

section
variable {step : σ → ι → Except ε (σ × ο)} {s s' : σ} {i : ι} {o : ο} {fault : ε}

theorem run_cons_ok (h : step s i = .ok (s', o)) (is : List ι) :
    run step s (i :: is) = (o :: (run step s' is).1, (run step s' is).2) := by
  rw [run, h]

theorem run_cons_error (h : step s i = .error fault) (is : List ι) :
    run step s (i :: is) = ([], .error fault) := by
  rw [run, h]

end

/-- SIMULATION: a machine that follows one without faults never fails, and replies the same. -/
theorem run_of_sim {step : σ → ι → Except ε (σ × ο)} {step' : τ → ι → τ × ο} {R : σ → τ → Prop}
    (hstep : ∀ s t i, R s t → ∃ s', step s i = .ok (s', (step' t i).2) ∧ R s' (step' t i).1)
    (is : List ι) (s : σ) (t : τ) (h : R s t) :
    ∃ s', run step s is = ((runTotal step' t is).1, .ok s') ∧ R s' (runTotal step' t is).2 := by
  induction is generalizing s t with
  | nil => exact ⟨s, rfl, h⟩
  | cons i is ih =>
    obtain ⟨s1, hs1, hR1⟩ := hstep s t i h
    obtain ⟨s2, hs2, hR2⟩ := ih s1 (step' t i).1 hR1
    refine ⟨s2, ?_, hR2⟩
    rw [run_cons_ok hs1, hs2]
    rfl

/-- Machines whose first answers differ do not look the same. -/
theorem not_same_of_ne {step : σ → ι → Except ε (σ × ο)} {step' : τ → ι → Except ε (τ × ο)} {s : σ}
    {t : τ} {i : ι} (h : (step s i).map Prod.snd ≠ (step' t i).map Prod.snd) (is : List ι) :
    ¬ Same (run step s (i :: is)) (run step' t (i :: is)) := by
  rintro ⟨hreplies, hend⟩
  rcases hs : step s i with fault | ⟨s1, o⟩ <;> rcases ht : step' t i with fault' | ⟨t1, o'⟩
  · rw [run_cons_error hs, run_cons_error ht] at hend
    exact h (by rw [hs, ht]; exact congrArg _ (Except.error.inj hend))
  · rw [run_cons_error hs, run_cons_ok ht] at hreplies
    exact List.cons_ne_nil _ _ hreplies.symm
  · rw [run_cons_ok hs, run_cons_error ht] at hreplies
    exact List.cons_ne_nil _ _ hreplies
  · rw [run_cons_ok hs, run_cons_ok ht] at hreplies
    exact h (by rw [hs, ht]; exact congrArg _ (List.head_eq_of_cons_eq hreplies))

/-- EXACT: where admissible inputs get the same replies and any other input gets different answers,
    two machines look the same exactly when every input is admissible. -/
theorem same_iff {step : σ → ι → Except ε (σ × ο)} {step' : τ → ι → Except ε (τ × ο)}
    {R : σ → τ → Prop} {C : ι → Prop}
    (hkeep : ∀ s t i, R s t → C i →
      ∃ s' t' o, step s i = .ok (s', o) ∧ step' t i = .ok (t', o) ∧ R s' t')
    (hbreak : ∀ s t i, R s t → ¬ C i → (step s i).map Prod.snd ≠ (step' t i).map Prod.snd)
    (is : List ι) (s : σ) (t : τ) (h : R s t) :
    Same (run step s is) (run step' t is) ↔ ∀ i ∈ is, C i := by
  induction is generalizing s t with
  | nil => exact ⟨fun _ _ hi => absurd hi List.not_mem_nil, fun _ => ⟨rfl, rfl⟩⟩
  | cons i is ih =>
    rcases em (C i) with hC | hC
    · obtain ⟨s1, t1, o, hs1, ht1, hR1⟩ := hkeep s t i h hC
      have hrest : Same (run step s (i :: is)) (run step' t (i :: is)) ↔
          Same (run step s1 is) (run step' t1 is) := by
        rw [run_cons_ok hs1, run_cons_ok ht1]
        exact and_congr_left fun _ => List.cons_inj_right o
      rw [hrest, ih s1 t1 hR1, List.forall_mem_cons]
      exact (and_iff_right hC).symm
    · refine iff_of_false (not_same_of_ne (hbreak s t i h hC) is) fun hall => ?_
      exact hC (hall i (List.mem_cons_self ..))

end UnixIpc.Replies
