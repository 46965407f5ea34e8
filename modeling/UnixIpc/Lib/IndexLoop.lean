import Mathlib.Data.List.Basic
import Mathlib.Data.List.Nodup
import Mathlib.Data.List.Perm.Subperm
import Mathlib.Tactic.Common

/-! The loop `for (i = 0; cond; ++i) body`, where the body may change whatever the condition reads,
    the length of the vector it walks included. The loop runs on fuel; `loop_ended` says how much is
    enough, `loop_inv` carries an invariant of index and state through it, `loop_related` a relation
    between two loops.

    A loop that erases the element it is at moves the next one under the index it has just passed.
    `walk` is the list of elements such a loop visits, `loop_walk` connects the two, and
    `count_walk_iff` says when nothing is missed:

        index      i   i+1          i   i+1
        items  … x   y   z   ──▶ … y   z        y is never looked at -/

namespace UnixIpc.IndexLoop
variable {σ : Type*} {cond : ℕ → σ → Bool} {body : ℕ → σ → σ}

/-- The loop from index `i` on: the index it stops at and the state there. -/
def loop (cond : ℕ → σ → Bool) (body : ℕ → σ → σ) : ℕ → ℕ → σ → ℕ × σ
  | 0, i, s => (i, s)
  | fuel + 1, i, s => if cond i s then loop cond body fuel (i + 1) (body i s) else (i, s)

theorem loop_done {i : ℕ} {s : σ} (h : cond i s = false) (fuel : ℕ) :
    loop cond body fuel i s = (i, s) := by
  cases fuel with
  | zero => rfl
  | succ fuel => rw [loop, h]; rfl

theorem loop_step {i : ℕ} {s : σ} (h : cond i s = true) (fuel : ℕ) :
    loop cond body (fuel + 1) i s = loop cond body fuel (i + 1) (body i s) := by
  rw [loop, h]; rfl

/-- INVARIANT: what each round keeps holds where the loop stops. -/
theorem loop_inv (Inv : ℕ → σ → Prop)
    (hstep : ∀ i s, Inv i s → cond i s = true → Inv (i + 1) (body i s)) (fuel i : ℕ) (s : σ)
    (hs : Inv i s) : Inv (loop cond body fuel i s).1 (loop cond body fuel i s).2 := by
  induction fuel generalizing i s with
  | zero => exact hs
  | succ fuel ih =>
    cases hc : cond i s with
    | false => rw [loop_done hc]; exact hs
    | true => rw [loop_step hc]; exact ih _ _ (hstep i s hs hc)

/-- TERMINATION: with fuel for a measure that every round lowers, the loop stops by itself. -/
theorem loop_ended {measure : ℕ → σ → ℕ}
    (hdec : ∀ i s, cond i s = true → measure (i + 1) (body i s) < measure i s) (fuel i : ℕ) (s : σ)
    (hle : measure i s ≤ fuel) :
    cond (loop cond body fuel i s).1 (loop cond body fuel i s).2 = false := by
  induction fuel generalizing i s with
  | zero =>
    cases hc : cond i s with
    | false => exact hc
    | true => have := hdec i s hc; omega
  | succ fuel ih =>
    cases hc : cond i s with
    | false => rw [loop_done hc]; exact hc
    | true =>
      have hlt := hdec i s hc
      rw [loop_step hc]
      exact ih _ _ (by omega)

/-- A loop that does nothing but at index `k`, which it comes to, is that one round. -/
theorem loop_once {k : ℕ} {s : σ} (hquiet : ∀ i, i ≠ k → ∀ t, t = s ∨ t = body k s → body i t = t)
    (fuel i : ℕ) (hfront : ∀ j, i ≤ j → j ≤ k → cond j s = true) (hle : i ≤ k)
    (hfuel : k < i + fuel) : (loop cond body fuel i s).2 = body k s := by
  induction fuel generalizing i with
  | zero => omega
  | succ fuel ih =>
    rw [loop_step (hfront i (Nat.le_refl i) hle)]
    rcases Nat.lt_or_eq_of_le hle with hlt | rfl
    · rw [hquiet i (Nat.ne_of_lt hlt) s (Or.inl rfl)]
      exact ih (i + 1) (fun j hj => hfront j (Nat.le_of_succ_le hj)) hlt (by omega)
    · refine (loop_inv (fun j t => i < j ∧ t = body i s) ?_ fuel (i + 1) (body i s)
        ⟨Nat.lt_succ_self i, rfl⟩).2
      rintro j t ⟨hj, rfl⟩ _
      exact ⟨Nat.lt_succ_of_lt hj, hquiet j (Nat.ne_of_gt hj) _ (Or.inr rfl)⟩

/-- SIMULATION: two loops in step, with whatever offset between their indices. -/
theorem loop_related {τ : Type*} {cond' : ℕ → τ → Bool} {body' : ℕ → τ → τ}
    (R : ℕ → ℕ → σ → τ → Prop) (hcond : ∀ i j s t, R i j s t → cond i s = cond' j t)
    (hbody : ∀ i j s t, R i j s t → cond i s = true → R (i + 1) (j + 1) (body i s) (body' j t))
    (fuel i j : ℕ) (s : σ) (t : τ) (h : R i j s t) :
    R (loop cond body fuel i s).1 (loop cond' body' fuel j t).1
      (loop cond body fuel i s).2 (loop cond' body' fuel j t).2 := by
  induction fuel generalizing i j s t with
  | zero => exact h
  | succ fuel ih =>
    have hc := hcond i j s t h
    cases hs : cond i s with
    | false => rw [loop_done hs, loop_done (hc ▸ hs)]; exact h
    | true =>
      rw [loop_step hs, loop_step (hc ▸ hs)]
      exact ih _ _ _ _ (hbody i j s t h hs)

/-! ### Erasing by key -/

section Erase
variable {α β : Type*} [DecidableEq β] {key : α → β}

theorem map_eraseP_key (xs : List α) (b : β) :
    (xs.eraseP (key · = b)).map key = (xs.map key).erase b := by
  rw [List.erase_eq_eraseP', List.eraseP_map]
  rfl

/-- Where `key` tells the elements apart, erasing by key is erasing by index. -/
theorem eraseP_key_eq_eraseIdx : ∀ {xs : List α} {i : ℕ} {x : α}, (xs.map key).Nodup →
    xs[i]? = some x → xs.eraseP (key · = key x) = xs.eraseIdx i
  | y :: ys, 0, x, _, h => by
    rw [List.getElem?_cons_zero, Option.some.injEq] at h
    rw [h, List.eraseP_cons_of_pos (by simp), List.eraseIdx_cons_zero]
  | y :: ys, i + 1, x, hnodup, h => by
    rw [List.map_cons, List.nodup_cons] at hnodup
    rw [List.getElem?_cons_succ] at h
    have hne : key y ≠ key x := fun heq =>
      hnodup.1 (heq ▸ List.mem_map_of_mem (List.mem_of_getElem? h))
    rw [List.eraseP_cons_of_neg (by simpa using hne), List.eraseIdx_cons_succ,
      eraseP_key_eq_eraseIdx hnodup.2 h]
end Erase

/-! ### Walking a list that shrinks under the index -/

section Walk
variable {α : Type*} (visit drop halt : α → Bool)

/-- The elements a walk visits, in order. A visited element may drop out of the list, or halt the
    walk; `skip` says that the next element has slid under an index already passed. -/
def walk : Bool → List α → List α
  | _, [] => []
  | true, _ :: xs => walk false xs
  | false, x :: xs =>
    if visit x then x :: (if halt x then [] else walk (drop x) xs) else walk false xs

/-- No element to visit stands right behind one that drops out, or anywhere behind one that
    halts. -/
def Clear : List α → Prop
  | [] => True
  | x :: xs =>
    (visit x = true → (drop x = true → ∀ y, xs.head? = some y → visit y = false) ∧
      (halt x = true → ∀ y ∈ xs, visit y = false)) ∧ Clear xs

variable {visit drop halt}

theorem walk_cons_of_not {x : α} (h : visit x = false) (xs : List α) :
    walk visit drop halt false (x :: xs) = walk visit drop halt false xs := by
  rw [walk, h]; rfl

theorem walk_cons_of_visit {x : α} (h : visit x = true) (xs : List α) :
    walk visit drop halt false (x :: xs) =
      x :: if halt x then [] else walk visit drop halt (drop x) xs := by
  rw [walk, h]; rfl

theorem walk_skip (xs : List α) :
    walk visit drop halt true xs = walk visit drop halt false xs.tail := by
  cases xs <;> rfl

theorem clear_of_idle {xs : List α} (h : ∀ x ∈ xs, visit x = false) :
    Clear visit drop halt xs := by
  induction xs with
  | nil => trivial
  | cons x xs ih =>
    refine ⟨?_, ih fun y hy => h y (List.mem_cons_of_mem _ hy)⟩
    intro hv
    exact absurd hv (by simp [h x (List.mem_cons_self ..)])

theorem walk_sublist_filter (skip : Bool) (xs : List α) :
    (walk visit drop halt skip xs).Sublist (xs.filter visit) := by
  induction xs generalizing skip with
  | nil => simp [walk]
  | cons x xs ih =>
    cases skip with
    | true => exact (ih false).trans (List.Sublist.filter visit (List.sublist_cons_self x xs))
    | false =>
      cases hv : visit x with
      | false =>
        rw [walk_cons_of_not hv, List.filter_cons_of_neg (by simp [hv])]
        exact ih false
      | true =>
        rw [walk_cons_of_visit hv, List.filter_cons_of_pos hv]
        split
        · exact List.Sublist.cons_cons x (List.nil_sublist _)
        · exact List.Sublist.cons_cons x (ih _)

/-- A walk that skips its first element misses nothing if that one is not to be visited. -/
theorem walk_skip_eq_filter_iff (xs : List α) :
    walk visit drop halt true xs = xs.filter visit ↔
      (∀ y, xs.head? = some y → visit y = false) ∧
        walk visit drop halt false xs = xs.filter visit := by
  cases xs with
  | nil => simp [walk]
  | cons y ys =>
    rw [walk_skip, List.tail_cons]
    simp only [List.head?_cons, Option.some.injEq, forall_eq']
    cases hy : visit y with
    | false => rw [walk_cons_of_not hy]; simp
    | true =>
      refine iff_of_false ?_ (by simp)
      intro heq
      have hle : (walk visit drop halt false ys).length ≤ (ys.filter visit).length :=
        (walk_sublist_filter false ys).length_le
      rw [heq, List.filter_cons_of_pos hy, List.length_cons] at hle
      omega

/-- Nothing is missed exactly when the list is clear. -/
theorem walk_eq_filter_iff (xs : List α) :
    walk visit drop halt false xs = xs.filter visit ↔ Clear visit drop halt xs := by
  induction xs with
  | nil => simp [walk, Clear]
  | cons x xs ih =>
    cases hv : visit x with
    | false =>
      rw [walk_cons_of_not hv, List.filter_cons_of_neg (by simp [hv]), ih]
      simp [Clear, hv]
    | true =>
      rw [walk_cons_of_visit hv, List.filter_cons_of_pos hv, List.cons.injEq]
      simp only [true_and, Clear, hv, forall_const]
      cases hh : halt x with
      | true =>
        have hnone : [] = xs.filter visit ↔ ∀ y ∈ xs, visit y = false := by
          rw [eq_comm, List.filter_eq_nil_iff]
          simp
        rw [if_pos rfl, hnone]
        constructor
        · intro hall
          exact ⟨⟨fun _ y hy => hall y (List.mem_of_mem_head? hy), fun _ => hall⟩,
            clear_of_idle hall⟩
        · rintro ⟨⟨_, hall⟩, _⟩
          exact hall rfl
      | false =>
        cases drop x with
        | false => simp [ih]
        | true =>
          rw [if_neg (by simp), walk_skip_eq_filter_iff, ih]
          simp

/-- Where `key` tells the elements apart, that is: each element to visit is visited once. -/
theorem count_walk_iff {β : Type*} [BEq β] [LawfulBEq β] (key : α → β) {xs : List α}
    (hnodup : (xs.map key).Nodup) :
    (∀ x ∈ xs, visit x = true → ((walk visit drop halt false xs).map key).count (key x) = 1) ↔
      Clear visit drop halt xs := by
  rw [← walk_eq_filter_iff]
  have hsub : (walk visit drop halt false xs).Sublist (xs.filter visit) :=
    walk_sublist_filter false xs
  have hfilter : ((xs.filter visit).map key).Nodup :=
    hnodup.sublist (List.Sublist.map key List.filter_sublist)
  constructor
  · intro hall
    refine hsub.eq_of_length_le ((hfilter.of_map key).subperm ?_).length_le
    intro x hx
    obtain ⟨hmem, hv⟩ := List.mem_filter.mp hx
    have hpos : 0 < ((walk visit drop halt false xs).map key).count (key x) := by
      rw [hall x hmem hv]; exact Nat.one_pos
    obtain ⟨y, hy, hkey⟩ := List.mem_map.mp (List.count_pos_iff.mp hpos)
    have hyx := List.inj_on_of_nodup_map hnodup (List.mem_filter.mp (hsub.subset hy)).1 hmem hkey
    exact hyx ▸ hy
  · intro heq x hmem hv
    rw [heq]
    exact List.count_eq_one_of_mem hfilter
      (List.mem_map_of_mem (List.mem_filter.mpr ⟨hmem, hv⟩))

/-- A last element changes nothing for the keys before it. -/
theorem count_walk_concat {β : Type*} [BEq β] [LawfulBEq β] {key : α → β} {b : β} {z : α}
    (hne : key z ≠ b) (skip : Bool) (xs : List α) :
    ((walk visit drop halt skip (xs ++ [z])).map key).count b =
      ((walk visit drop halt skip xs).map key).count b := by
  induction xs generalizing skip with
  | nil =>
    cases skip with
    | true => simp [walk]
    | false =>
      cases hv : visit z with
      | false => simp [walk, hv]
      | true => cases hh : halt z <;> simp [walk, hv, hh, hne]
  | cons y ys ih =>
    cases skip with
    | true => exact ih false
    | false =>
      rw [List.cons_append]
      cases hv : visit y with
      | false =>
        rw [walk_cons_of_not hv, walk_cons_of_not hv]
        exact ih false
      | true =>
        rw [walk_cons_of_visit hv, walk_cons_of_visit hv, List.map_cons, List.map_cons,
          List.count_cons, List.count_cons]
        cases halt y with
        | true => simp
        | false =>
          simp only [Bool.false_eq_true, if_false]
          rw [ih]

/-- The same with one more element behind, which is not asked about. -/
theorem count_walk_concat_iff {β : Type*} [BEq β] [LawfulBEq β] (key : α → β) {xs : List α}
    {z : α} (hnodup : ((xs ++ [z]).map key).Nodup) :
    (∀ x ∈ xs, visit x = true →
      ((walk visit drop halt false (xs ++ [z])).map key).count (key x) = 1) ↔
      Clear visit drop halt xs := by
  rw [List.map_append, List.map_singleton, List.nodup_append] at hnodup
  rw [← count_walk_iff key hnodup.1]
  refine forall₂_congr ?_
  intro x hx
  have hne : key z ≠ key x := fun heq =>
    hnodup.2.2 _ (List.mem_map_of_mem hx) _ (List.mem_singleton_self _) heq.symm
  rw [count_walk_concat hne]

/-- The walk gets past these elements and looks at the one behind them: nothing halts it, and the
    last one it visits does not drop out right in front. -/
def passes (visit drop halt : α → Bool) : Bool → List α → Bool
  | skip, [] => !skip
  | true, _ :: xs => passes visit drop halt false xs
  | false, x :: xs =>
    if visit x then !halt x && passes visit drop halt (drop x) xs
    else passes visit drop halt false xs

/-- A last element is visited when the walk gets to it. -/
theorem walk_concat (skip : Bool) (xs : List α) (z : α) :
    walk visit drop halt skip (xs ++ [z]) =
      walk visit drop halt skip xs ++
        if passes visit drop halt skip xs && visit z then [z] else [] := by
  induction xs generalizing skip with
  | nil =>
    cases skip with
    | true => rfl
    | false =>
      rw [List.nil_append]
      cases hv : visit z with
      | false => rw [walk_cons_of_not hv]; rfl
      | true => rw [walk_cons_of_visit hv]; cases halt z <;> rfl
  | cons x xs ih =>
    cases skip with
    | true => exact ih false
    | false =>
      rw [List.cons_append]
      cases hv : visit x with
      | false =>
        rw [walk_cons_of_not hv, walk_cons_of_not hv, ih, passes, hv]
        rfl
      | true =>
        rw [walk_cons_of_visit hv, walk_cons_of_visit hv, passes, hv]
        cases hh : halt x with
        | true => rfl
        | false => simp [ih]

/-- An element with nothing dropping out in front of it is visited exactly when it is to be visited
    and nothing in front halts the walk. -/
theorem mem_walk_iff {pre post : List α} {x : α} (hpre : x ∉ pre) (hpost : x ∉ post)
    (hdrop : ∀ y ∈ pre, visit y = true → drop y = false) :
    x ∈ walk visit drop halt false (pre ++ x :: post) ↔
      visit x = true ∧ ∀ y ∈ pre, visit y = true → halt y = false := by
  induction pre with
  | nil =>
    rw [List.nil_append]
    cases hv : visit x with
    | false =>
      rw [walk_cons_of_not hv]
      refine iff_of_false ?_ (by simp)
      intro hmem
      exact hpost (List.mem_filter.mp ((walk_sublist_filter false post).subset hmem)).1
    | true =>
      rw [walk_cons_of_visit hv]
      simp
  | cons y pre ih =>
    obtain ⟨hne, hpre⟩ := not_or.mp (List.mem_cons.not.mp hpre)
    have ih := ih hpre fun z hz => hdrop z (List.mem_cons_of_mem _ hz)
    rw [List.cons_append, List.forall_mem_cons]
    cases hv : visit y with
    | false =>
      rw [walk_cons_of_not hv, ih]
      simp
    | true =>
      rw [walk_cons_of_visit hv, List.mem_cons, hdrop y (List.mem_cons_self ..) hv]
      cases hh : halt y with
      | true => simp [hne]
      | false => simp [hne, ih]

/-- The same by key, where `key` tells the elements apart. -/
theorem key_mem_walk_iff (halt : α → Bool) {β : Type*} (key : α → β) {pre post : List α} {x : α}
    (hnodup : ((pre ++ x :: post).map key).Nodup)
    (hdrop : ∀ y ∈ pre, visit y = true → drop y = false) :
    key x ∈ (walk visit drop halt false (pre ++ x :: post)).map key ↔
      visit x = true ∧ ∀ y ∈ pre, visit y = true → halt y = false := by
  have hsplit := List.nodup_middle.mp (hnodup.of_map key)
  obtain ⟨hx, _⟩ := List.nodup_cons.mp hsplit
  rw [List.mem_append, not_or] at hx
  rw [← mem_walk_iff hx.1 hx.2 hdrop]
  constructor
  · intro hmem
    obtain ⟨y, hy, hkey⟩ := List.mem_map.mp hmem
    have hin : y ∈ pre ++ x :: post :=
      (List.mem_filter.mp ((walk_sublist_filter false _).subset hy)).1
    have hyx : y = x := List.inj_on_of_nodup_map hnodup hin (by simp) hkey
    exact hyx ▸ hy
  · exact fun hmem => List.mem_map_of_mem hmem

/-- Behind an erased index the next element has moved up. -/
theorem drop_eraseIdx {xs : List α} {i : ℕ} (hi : i < xs.length) :
    (xs.eraseIdx i).drop (i + 1) = xs.drop (i + 2) := by
  have htake : (xs.take i).length = i := by
    rw [List.length_take]
    omega
  rw [List.eraseIdx_eq_take_drop_succ, List.drop_append, htake, List.drop_eq_nil_of_le (by omega),
    List.nil_append, List.drop_drop]
  congr 1
  omega

/-- The loop that looks at `items s` by index logs exactly the elements of the walk. -/
theorem loop_walk {β : Type*} (items : σ → List α) (log : σ → List β) (key : α → β)
    (stopped : σ → Bool) (Ok : σ → Prop)
    (hcond : ∀ i s, cond i s = true ↔ stopped s = false ∧ i < (items s).length)
    (hpass : ∀ i s x, Ok s → stopped s = false → (items s)[i]? = some x → visit x = false →
      body i s = s)
    (hvisit : ∀ i s x, Ok s → stopped s = false → (items s)[i]? = some x → visit x = true →
      Ok (body i s) ∧ log (body i s) = log s ++ [key x] ∧ stopped (body i s) = halt x ∧
        (halt x = false → items (body i s) = if drop x then (items s).eraseIdx i else items s))
    (fuel i : ℕ) (s : σ) (hok : Ok s) (hs : stopped s = false)
    (hlen : (items s).length ≤ i + fuel) :
    log (loop cond body fuel i s).2 =
      log s ++ (walk visit drop halt false ((items s).drop i)).map key := by
  induction fuel generalizing i s with
  | zero =>
    rw [List.drop_eq_nil_of_le (by omega)]
    simp [loop, walk]
  | succ fuel ih =>
    cases hc : cond i s with
    | false =>
      have hover : ¬ (stopped s = false ∧ i < (items s).length) := by
        rw [← hcond, hc]
        simp
      rw [loop_done hc, List.drop_eq_nil_of_le (Nat.le_of_not_lt fun hi => hover ⟨hs, hi⟩)]
      simp [walk]
    | true =>
      obtain ⟨_, hi⟩ := (hcond i s).mp hc
      have hget : (items s)[i]? = some (items s)[i] := List.getElem?_eq_getElem hi
      rw [loop_step hc, List.drop_eq_getElem_cons hi]
      cases hv : visit (items s)[i] with
      | false =>
        rw [hpass i s _ hok hs hget hv, walk_cons_of_not hv]
        exact ih (i + 1) s hok hs (by omega)
      | true =>
        obtain ⟨hok', hlog, hstop, hitems⟩ := hvisit i s _ hok hs hget hv
        rw [walk_cons_of_visit hv]
        cases hh : halt (items s)[i] with
        | true =>
          have hover : cond (i + 1) (body i s) = false := by
            rw [← Bool.not_eq_true, hcond, hstop, hh]
            simp
          rw [loop_done hover, hlog]
          rfl
        | false =>
          have hitems := hitems hh
          cases hd : drop (items s)[i] with
          | false =>
            rw [hd, if_neg (by simp)] at hitems
            rw [ih (i + 1) _ hok' (hstop.trans hh) (by rw [hitems]; omega), hlog, hitems]
            simp
          | true =>
            rw [hd, if_pos rfl] at hitems
            have hlen' := List.length_eraseIdx_le (items s) i
            rw [ih (i + 1) _ hok' (hstop.trans hh) (by rw [hitems]; omega), hlog, hitems,
              drop_eraseIdx hi, if_neg (by simp), walk_skip, List.tail_drop]
            simp

end Walk

end UnixIpc.IndexLoop
