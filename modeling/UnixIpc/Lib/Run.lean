import Mathlib.Data.List.Basic
import Mathlib.Data.List.Induction
import Mathlib.Tactic.Common

/-! Runs of a state machine that takes one input at a time, total or partial. The rules that carry
    an argument about a whole run: an invariant that each admissible step keeps (`along_of_step`,
    `foldl_inv`, `foldlM_inv`), one that speaks of the inputs so far (`foldlM_history`), and a
    property that holds just as long as the steps are admissible (`along_iff_throughout`,
    `foldlM_cases`). Two machines side by side are one machine over pairs; one that follows another
    is its image (`foldl_image`). Of endless runs there are two: whether the machine is ever ended
    (`exists_after_iff`), and whether it comes back for ever (`recurs_iff`). -/

namespace UnixIpc.Run
variable {σ ι : Type*}

/-- `P` holds of every state on the run, the first and the last included. -/
def Along (step : σ → ι → σ) (P : σ → Prop) : σ → List ι → Prop
  | s, [] => P s
  | s, i :: is => P s ∧ Along step P (step s i) is

/-- Every step of the run, taken in its state, meets `C`. -/
def Throughout (step : σ → ι → σ) (C : σ → ι → Prop) : σ → List ι → Prop
  | _, [] => True
  | s, i :: is => C s i ∧ Throughout step C (step s i) is

/-- A condition on the inputs alone holds throughout when it holds of every input. -/
theorem throughout_of_forall {step : σ → ι → σ} {A : ι → Prop} {is : List ι}
    (h : ∀ i ∈ is, A i) (s : σ) : Throughout step (fun _ i => A i) s is := by
  induction is generalizing s with
  | nil => trivial
  | cons i is ih =>
    exact ⟨h i (List.mem_cons_self ..), ih (fun j hj => h j (List.mem_cons_of_mem _ hj)) (step s i)⟩

/-- Two conditions on steps that agree wherever an invariant holds agree along every run. -/
theorem throughout_congr {step : σ → ι → σ} {P : σ → Prop} {C D : σ → ι → Prop}
    (hstep : ∀ s i, P s → P (step s i)) (hiff : ∀ s i, P s → (C s i ↔ D s i)) (is : List ι) (s : σ)
    (hs : P s) : Throughout step C s is ↔ Throughout step D s is := by
  induction is generalizing s with
  | nil => exact Iff.rfl
  | cons i is ih => exact and_congr (hiff s i hs) (ih (step s i) (hstep s i hs))

/-- INVARIANT: what each admissible step keeps, an admissible run keeps throughout. -/
theorem along_of_step {step : σ → ι → σ} {P : σ → Prop} {C : σ → ι → Prop}
    (hstep : ∀ s i, P s → C s i → P (step s i)) (is : List ι) (s : σ) (hs : P s)
    (his : Throughout step C s is) : Along step P s is := by
  induction is generalizing s with
  | nil => exact hs
  | cons i is ih =>
    obtain ⟨hi, his⟩ := his
    exact ⟨hs, ih (step s i) (hstep s i hs hi) his⟩

theorem Along.head {step : σ → ι → σ} {P : σ → Prop} {is : List ι} {s : σ}
    (h : Along step P s is) : P s := by
  cases is with
  | nil => exact h
  | cons i is => exact h.1

/-- EXACT: when an admissible step keeps the invariant and any other step breaks `P` at once, `P`
    holds along a run exactly when the run is admissible throughout. `A` restricts the inputs. -/
theorem along_iff_throughout {step : σ → ι → σ} {P G : σ → Prop} {A : ι → Prop}
    {C : σ → ι → Prop} (hgood : ∀ s, G s → P s)
    (hkeep : ∀ s i, G s → A i → C s i → G (step s i))
    (hbreak : ∀ s i, G s → A i → ¬ C s i → ¬ P (step s i)) (is : List ι) (s : σ)
    (hA : ∀ i ∈ is, A i) (hs : G s) : Along step P s is ↔ Throughout step C s is := by
  induction is generalizing s with
  | nil => exact ⟨fun _ => trivial, fun _ => hgood s hs⟩
  | cons i is ih =>
    have hi : A i := hA i (List.mem_cons_self ..)
    have his : ∀ j ∈ is, A j := fun j hj => hA j (List.mem_cons_of_mem _ hj)
    constructor
    · rintro ⟨_, hrest⟩
      rcases em (C s i) with hC | hC
      · exact ⟨hC, (ih _ his (hkeep s i hs hi hC)).mp hrest⟩
      · exact absurd hrest.head (hbreak s i hs hi hC)
    · rintro ⟨hC, hrest⟩
      exact ⟨hgood s hs, (ih _ his (hkeep s i hs hi hC)).mpr hrest⟩

theorem Along.mono {step : σ → ι → σ} {P Q : σ → Prop} (h : ∀ s, P s → Q s) {is : List ι} {s : σ}
    (hP : Along step P s is) : Along step Q s is := by
  induction is generalizing s with
  | nil => exact h s hP
  | cons i is ih => exact ⟨h s hP.1, ih hP.2⟩

theorem Along.last {step : σ → ι → σ} {P : σ → Prop} (is : List ι) (s : σ)
    (h : Along step P s is) : P (is.foldl step s) := by
  induction is generalizing s with
  | nil => exact h
  | cons i is ih => exact ih (step s i) h.2

/-- An invariant that every step keeps holds at the end of every run. -/
theorem foldl_inv {step : σ → ι → σ} {P : σ → Prop} (hstep : ∀ s i, P s → P (step s i))
    (is : List ι) (s : σ) (hs : P s) : P (is.foldl step s) := by
  induction is generalizing s with
  | nil => exact hs
  | cons i is ih => exact ih (step s i) (hstep s i hs)

/-- SIMULATION: where each step does to the image of a state what a step of another machine does, so
    does a run. `A` restricts the inputs. -/
theorem foldl_image {τ κ : Type*} {step : σ → ι → σ} {step' : τ → κ → τ} {image : σ → τ}
    {lift : κ → ι} {P : σ → Prop} {A : κ → Prop}
    (hkeep : ∀ s k, P s → A k → P (step s (lift k)))
    (himage : ∀ s k, P s → A k → image (step s (lift k)) = step' (image s) k) (ks : List κ) (s : σ)
    (hA : ∀ k ∈ ks, A k) (hs : P s) :
    image ((ks.map lift).foldl step s) = ks.foldl step' (image s) := by
  induction ks generalizing s with
  | nil => rfl
  | cons k ks ih =>
    have hk : A k := hA k (List.mem_cons_self ..)
    rw [List.map_cons, List.foldl_cons, List.foldl_cons, ← himage s k hs hk]
    exact ih (step s (lift k)) (fun j hj => hA j (List.mem_cons_of_mem _ hj)) (hkeep s k hs hk)

/-- An invariant that every possible admissible step keeps holds wherever a partial machine gets. -/
theorem foldlM_inv {step : σ → ι → Option σ} {P : σ → Prop} {C : ι → Prop}
    (hstep : ∀ s i s', P s → C i → step s i = some s' → P s') (is : List ι) (s s' : σ) (hs : P s)
    (his : ∀ i ∈ is, C i) (hrun : is.foldlM step s = some s') : P s' := by
  induction is generalizing s with
  | nil =>
    rw [List.foldlM_nil, Option.pure_def, Option.some.injEq] at hrun
    exact hrun ▸ hs
  | cons i is ih =>
    rw [List.foldlM_cons, Option.bind_eq_bind, Option.bind_eq_some_iff] at hrun
    obtain ⟨s1, h1, hrest⟩ := hrun
    have hs1 : P s1 := hstep s i s1 hs (his i (List.mem_cons_self ..)) h1
    exact ih s1 hs1 (fun j hj => his j (List.mem_cons_of_mem _ hj)) hrest

/-- EXACT: where an admissible step keeps `G`, any other leads out of it to `B`, and nothing leads
    back, a partial machine ends in `G` or in `B` as all its inputs were admissible or not. -/
theorem foldlM_cases {step : σ → ι → Option σ} {G B : σ → Prop} {C : ι → Prop}
    (hkeep : ∀ s i s', G s → C i → step s i = some s' → G s')
    (hbreak : ∀ s i s', G s → ¬ C i → step s i = some s' → B s')
    (hstay : ∀ s i s', B s → step s i = some s' → B s') (is : List ι) (s s' : σ) (hs : G s)
    (hrun : is.foldlM step s = some s') :
    ((∀ i ∈ is, C i) ∧ G s') ∨ ((¬ ∀ i ∈ is, C i) ∧ B s') := by
  induction is generalizing s with
  | nil =>
    rw [List.foldlM_nil, Option.pure_def, Option.some.injEq] at hrun
    exact .inl ⟨fun i hi => absurd hi List.not_mem_nil, hrun ▸ hs⟩
  | cons i is ih =>
    rw [List.foldlM_cons, Option.bind_eq_bind, Option.bind_eq_some_iff] at hrun
    obtain ⟨s1, h1, hrest⟩ := hrun
    rw [List.forall_mem_cons]
    rcases em (C i) with hC | hC
    · rcases ih s1 (hkeep s i s1 hs hC h1) hrest with ⟨hall, hG⟩ | ⟨hnot, hB⟩
      · exact .inl ⟨⟨hC, hall⟩, hG⟩
      · exact .inr ⟨fun hall => hnot hall.2, hB⟩
    · refine .inr ⟨fun hall => hC hall.1, ?_⟩
      exact foldlM_inv (C := fun _ => True) (fun s i s' hB _ h => hstay s i s' hB h) is s1 s'
        (hbreak s i s1 hs hC h1) (fun _ _ => trivial) hrest

/-- HISTORY: the same for an invariant that speaks of the inputs so far. -/
theorem foldlM_history {step : σ → ι → Option σ} {P : List ι → σ → Prop} {s0 : σ} (h0 : P [] s0)
    (hstep : ∀ is s i s', P is s → step s i = some s' → P (is ++ [i]) s') (is : List ι) (s : σ)
    (hrun : is.foldlM step s0 = some s) : P is s := by
  induction is using List.reverseRecOn generalizing s with
  | nil =>
    rw [List.foldlM_nil, Option.pure_def, Option.some.injEq] at hrun
    exact hrun ▸ h0
  | append_singleton is i ih =>
    rw [List.foldlM_append, Option.bind_eq_bind, Option.bind_eq_some_iff] at hrun
    obtain ⟨s1, h1, hlast⟩ := hrun
    rw [List.foldlM_cons, Option.bind_eq_bind, Option.bind_eq_some_iff] at hlast
    obtain ⟨s2, h2, hend⟩ := hlast
    rw [List.foldlM_nil, Option.pure_def, Option.some.injEq] at hend
    exact hend ▸ hstep is s1 i s2 (ih s1 h1) h2

/-! ### Endless runs -/

/-- The state after `n` inputs. -/
def after (step : σ → ι → σ) (s : σ) (is : ℕ → ι) : ℕ → σ
  | 0 => s
  | n + 1 => step (after step s is n) (is n)

/-- EXACT: where a machine goes on (`G`) until an input ends it (`X`, then `D`) or gets it stuck
    (`U`, then `B`), it is ended at some time just when an input of the one kind comes, and none of
    the other before. -/
theorem exists_after_iff {step : σ → ι → σ} {G D B : σ → Prop} {X U : ι → Prop}
    (hgo : ∀ s i, G s → ¬ X i → ¬ U i → G (step s i)) (hend : ∀ s i, G s → X i → D (step s i))
    (hstuck : ∀ s i, G s → ¬ X i → U i → B (step s i)) (hstay : ∀ s i, B s → B (step s i))
    (hG : ∀ s, G s → ¬ D s) (hB : ∀ s, B s → ¬ D s) {s : σ} (hs : G s) (is : ℕ → ι) :
    (∃ n, D (after step s is n)) ↔ ∃ k, X (is k) ∧ ∀ j < k, ¬ U (is j) := by
  constructor
  · rintro ⟨n, hn⟩
    by_contra hnone
    have hinv : ∀ n, (G (after step s is n) ∧ ∀ j < n, ¬ U (is j)) ∨ B (after step s is n) := by
      intro n
      induction n with
      | zero => exact .inl ⟨hs, fun j hj => absurd hj (Nat.not_lt_zero j)⟩
      | succ n ih =>
        rcases ih with ⟨hgoing, hbefore⟩ | hB'
        · have hX : ¬ X (is n) := fun hX => hnone ⟨n, hX, hbefore⟩
          rcases em (U (is n)) with hU | hU
          · exact .inr (hstuck _ _ hgoing hX hU)
          · refine .inl ⟨hgo _ _ hgoing hX hU, fun j hj => ?_⟩
            rcases Nat.lt_succ_iff_lt_or_eq.mp hj with hlt | rfl
            · exact hbefore j hlt
            · exact hU
        · exact .inr (hstay _ _ hB')
    rcases hinv n with ⟨hgoing, _⟩ | hB'
    · exact hG _ hgoing hn
    · exact hB _ hB' hn
  · rintro ⟨k, hX, hbefore⟩
    have hinv : ∀ n ≤ k, G (after step s is n) ∨ ∃ m, D (after step s is m) := by
      intro n hn
      induction n with
      | zero => exact .inl hs
      | succ n ih =>
        rcases ih (Nat.le_of_succ_le hn) with hgoing | hdone
        · rcases em (X (is n)) with hX' | hX'
          · exact .inr ⟨n + 1, hend _ _ hgoing hX'⟩
          · exact .inl (hgo _ _ hgoing hX' (hbefore n hn))
        · exact .inr hdone
    rcases hinv k (Nat.le_refl k) with hgoing | hdone
    · exact ⟨k + 1, hend _ _ hgoing hX⟩
    · exact hdone

/-- The rest of the inputs goes on from where the first of them have led. -/
theorem after_add (step : σ → ι → σ) (s : σ) (is : ℕ → ι) (n k : ℕ) :
    after step (after step s is n) (fun j => is (n + j)) k = after step s is (n + k) := by
  induction k with
  | zero => rfl
  | succ k ih => rw [after, ih, ← Nat.add_assoc, after]

/-- LIVENESS: what holds at the start holds again and again if it never holds for the last time. -/
theorem recurs_iff {P : ℕ → Prop} (h0 : P 0) :
    (∀ n, ∃ m, n ≤ m ∧ P m) ↔ ∀ n, P n → ∃ m, n < m ∧ P m := by
  constructor
  · intro h n _
    obtain ⟨m, hle, hm⟩ := h (n + 1)
    exact ⟨m, hle, hm⟩
  · intro h n
    induction n with
    | zero => exact ⟨0, Nat.le_refl 0, h0⟩
    | succ n ih =>
      obtain ⟨m, hle, hm⟩ := ih
      rcases Nat.eq_or_lt_of_le hle with rfl | hlt
      · exact h n hm
      · exact ⟨m, hlt, hm⟩

end UnixIpc.Run
