import Mathlib.Data.List.AList
import UnixIpc.Lib.Ledger
import UnixIpc.Lib.Run

/-! `util::ScopeGuard`: a value, and a deleter that every destructor applies to it. A move copies
    the value and leaves its source as armed as before:

        g(r)         g { r }
        h(move(g))   g { r }  h { r }         ~h, ~g    r is deleted twice
        k(t)         k { t }
        g = move(k)  g { t }  k { t }         ~g, ~k    t is deleted twice, what g held never

    Without moves every resource is deleted once, and any move between two guards spoils that for
    the rest of the run (`releasedOnce_iff`). -/

namespace UnixIpc.Engine
variable {ρ : Type*}

/-- What can be done with a guard; guards are told apart by their addresses. -/
inductive GuardCall (ρ : Type*) where
  | construct (self : ℕ) (value : ρ)
  | moveConstruct (self other : ℕ)
  | moveAssign (self other : ℕ)
  | destroy (self : ℕ)

/-- Nothing moves from one guard to another. -/
def GuardCall.InPlace : GuardCall ρ → Prop
  | .construct _ _ => True
  | .moveConstruct _ _ => False
  | .moveAssign self other => self = other
  | .destroy _ => True

/-- `value_` of every guard that is alive, what guards were constructed from, and what the deleter
    has been applied to. -/
structure ScopeGuards (ρ : Type*) where
  values : AList fun _ : ℕ => ρ
  made : List ρ
  deleted : List ρ

namespace ScopeGuards

def empty : ScopeGuards ρ := ⟨∅, [], []⟩

/-- `ScopeGuard(ValueType &&value)`. -/
def construct (self : ℕ) (value : ρ) (s : ScopeGuards ρ) : ScopeGuards ρ :=
  { s with values := s.values.insert self value, made := s.made ++ [value] }

/-- `value_(std::move(other.value_))`, and `value_ = std::move(other.value_)`. -/
def takeFrom (self other : ℕ) (s : ScopeGuards ρ) : Option (ScopeGuards ρ) :=
  (s.values.lookup other).map fun value => { s with values := s.values.insert self value }

/-- `~ScopeGuard()`: `deleter_(&value_)`. -/
def destroy (self : ℕ) (s : ScopeGuards ρ) : Option (ScopeGuards ρ) :=
  (s.values.lookup self).map fun value =>
    { s with values := s.values.erase self, deleted := s.deleted ++ [value] }

/-- `none` where C++ gives no meaning: a guard made in the place of another, or used while it is not
    alive. -/
def step (s : ScopeGuards ρ) : GuardCall ρ → Option (ScopeGuards ρ)
  | .construct self value => if self ∈ s.values then none else some (s.construct self value)
  | .moveConstruct self other => if self ∈ s.values then none else s.takeFrom self other
  | .moveAssign self other => if self ∈ s.values then s.takeFrom self other else none
  | .destroy self => s.destroy self

/-! ### What a call does to the values -/

/-- The values of the guards that are alive. -/
def held (values : AList fun _ : ℕ => ρ) : List ρ := values.entries.map Sigma.snd

theorem held_insert (values : AList fun _ : ℕ => ρ) (self : ℕ) (value : ρ) :
    held (values.insert self value) = value :: held (values.erase self) := by
  rw [held, AList.entries_insert]
  rfl

theorem held_insert_new {values : AList fun _ : ℕ => ρ} {self : ℕ} (h : self ∉ values) (value : ρ) :
    held (values.insert self value) = value :: held values := by
  rw [held, AList.entries_insert_of_notMem h]
  rfl

theorem held_erase {values : AList fun _ : ℕ => ρ} {self : ℕ} {value : ρ}
    (h : values.lookup self = some value) :
    (held values).Perm (value :: held (values.erase self)) := by
  have hmem : ⟨self, value⟩ ∈ values.entries := List.of_mem_dlookup h
  obtain ⟨value', front, back, _, hentries, herase⟩ :=
    List.exists_of_kerase (List.mem_keys_of_mem hmem)
  have hmem' : ⟨self, value'⟩ ∈ values.entries :=
    hentries ▸ List.mem_append_right front (List.mem_cons_self ..)
  obtain rfl : value = value' := values.nodupKeys.eq_of_mk_mem hmem hmem'
  have hheld : held values = front.map Sigma.snd ++ value :: back.map Sigma.snd := by
    rw [held, hentries, List.map_append, List.map_cons]
  have hrest : (values.erase self).entries = front ++ back := herase
  rw [hheld, held, hrest, List.map_append]
  exact List.perm_middle

theorem mem_held {values : AList fun _ : ℕ => ρ} {self : ℕ} {value : ρ}
    (h : values.lookup self = some value) : value ∈ held values :=
  (held_erase h).mem_iff.mpr (List.mem_cons_self ..)

/-- What a call that has a meaning does to what is made, deleted and held. -/
inductive Effect (s s' : ScopeGuards ρ) : GuardCall ρ → Prop where
  | construct (self : ℕ) (value : ρ) (made : s'.made = s.made ++ [value])
    (deleted : s'.deleted = s.deleted) (held : held s'.values = value :: held s.values) :
    Effect s s' (.construct self value)
  | moveConstruct (self other : ℕ) (value : ρ) (mem : value ∈ ScopeGuards.held s.values)
    (made : s'.made = s.made) (deleted : s'.deleted = s.deleted)
    (held : held s'.values = value :: held s.values) : Effect s s' (.moveConstruct self other)
  | moveAssign (self other : ℕ) (old value : ρ) (rest : List ρ)
    (before : (ScopeGuards.held s.values).Perm (old :: rest))
    (same : self = other → value = old) (mem : self ≠ other → value ∈ rest)
    (made : s'.made = s.made) (deleted : s'.deleted = s.deleted)
    (held : held s'.values = value :: rest) : Effect s s' (.moveAssign self other)
  | destroy (self : ℕ) (value : ρ) (before : (held s.values).Perm (value :: held s'.values))
    (made : s'.made = s.made) (deleted : s'.deleted = s.deleted ++ [value]) :
    Effect s s' (.destroy self)

theorem effect {s s' : ScopeGuards ρ} {c : GuardCall ρ} (h : s.step c = some s') :
    Effect s s' c := by
  cases c with
  | construct self value =>
    rw [step, Option.ite_none_left_eq_some, Option.some.injEq] at h
    obtain ⟨hnew, rfl⟩ := h
    exact .construct self value rfl rfl (held_insert_new hnew value)
  | moveConstruct self other =>
    rw [step, Option.ite_none_left_eq_some, takeFrom, Option.map_eq_some_iff] at h
    obtain ⟨hnew, value, hvalue, rfl⟩ := h
    exact .moveConstruct self other value (mem_held hvalue) rfl rfl (held_insert_new hnew value)
  | moveAssign self other =>
    rw [step, Option.ite_none_right_eq_some, takeFrom, Option.map_eq_some_iff] at h
    obtain ⟨hself, value, hvalue, rfl⟩ := h
    obtain ⟨old, hold⟩ := Option.isSome_iff_exists.mp (AList.lookup_isSome.mpr hself)
    refine .moveAssign self other old value (held (s.values.erase self)) (held_erase hold) ?_ ?_
      rfl rfl (held_insert s.values self value)
    · rintro rfl
      exact Option.some.inj (hvalue.symm.trans hold)
    · intro hne
      exact mem_held ((AList.lookup_erase_ne hne.symm).trans hvalue)
  | destroy self =>
    rw [step, destroy, Option.map_eq_some_iff] at h
    obtain ⟨value, hvalue, rfl⟩ := h
    exact .destroy self value (held_erase hvalue) rfl rfl

namespace Effect
variable {s s' : ScopeGuards ρ} {c : GuardCall ρ}

theorem nodup (he : Effect s s' c) (h : s'.made.Nodup) : s.made.Nodup := by
  cases he with
  | construct self value made _ _ => exact (List.nodup_append.mp (made ▸ h)).1
  | moveConstruct self other value _ made _ _ => exact made ▸ h
  | moveAssign self other old value rest _ _ _ made _ _ => exact made ▸ h
  | destroy self value _ made _ => exact made ▸ h

/-- STEP: without a move between two guards the account stays in balance. -/
theorem ledger (he : Effect s s' c) (hc : c.InPlace) (hdistinct : s'.made.Nodup)
    (h : Ledger s.made s.deleted (held s.values)) :
    Ledger s'.made s'.deleted (held s'.values) := by
  cases he with
  | construct self value made deleted held =>
    have hnew : value ∉ s.made := by
      rw [made, ← List.concat_eq_append, List.nodup_concat] at hdistinct
      exact hdistinct.1
    rw [made, deleted, held]
    exact h.opening fun hmem => hnew (h.balance.mem_iff.mpr (List.mem_append_left _ hmem))
  | moveConstruct => exact absurd hc id
  | moveAssign self other old value rest before same mem made deleted held =>
    rw [made, deleted, held, same hc]
    exact h.perm before
  | destroy self value before made deleted =>
    rw [made, deleted]
    exact Ledger.closing_append (h.perm before : Ledger _ _ ([value] ++ _))

/-- STEP: with one, it is out of balance for good. -/
theorem spoils (he : Effect s s' c) (hc : ¬ c.InPlace) (hdistinct : s'.made.Nodup)
    (h : Ledger s.made s.deleted (held s.values)) :
    Spoilt s'.made s'.deleted (held s'.values) := by
  cases he with
  | construct => exact absurd trivial hc
  | moveConstruct self other value mem made deleted held =>
    rw [made, deleted, held]
    exact h.twice
  | moveAssign self other old value rest before same mem made deleted held =>
    rw [made, deleted, held]
    exact h.overwritten (made ▸ hdistinct) before (mem hc)
  | destroy => exact absurd trivial hc

/-- STEP: and nothing puts it right. -/
theorem spoilt (he : Effect s s' c) (hdistinct : s'.made.Nodup)
    (h : Spoilt s.made s.deleted (held s.values)) :
    Spoilt s'.made s'.deleted (held s'.values) := by
  cases he with
  | construct self value made deleted held =>
    have hnew : value ∉ s.made := by
      rw [made, ← List.concat_eq_append, List.nodup_concat] at hdistinct
      exact hdistinct.1
    rw [made, deleted, held]
    exact h.opening hnew
  | moveConstruct self other value mem made deleted held =>
    rw [made, deleted, held]
    exact h.twice mem
  | moveAssign self other old value rest before same mem made deleted held =>
    have hmem : value ∈ ScopeGuards.held s.values := by
      rw [before.mem_iff]
      rcases eq_or_ne self other with heq | hne
      · exact same heq ▸ List.mem_cons_self ..
      · exact List.mem_cons_of_mem _ (mem hne)
    rw [made, deleted, held]
    exact h.overwriting before hmem
  | destroy self value before made deleted =>
    rw [made, deleted]
    exact h.closing before

end Effect

/-! ### Runs -/

/-- Everything that was deleted or is held was made. -/
def Covered (s : ScopeGuards ρ) : Prop := held s.values ⊆ s.made ∧ s.deleted ⊆ s.made

theorem Effect.covered {s s' : ScopeGuards ρ} {c : GuardCall ρ} (he : Effect s s' c)
    (h : s.Covered) : s'.Covered := by
  obtain ⟨hheld, hdeleted⟩ := h
  cases he with
  | construct self value made deleted held =>
    rw [Covered, made, deleted, held]
    refine ⟨List.cons_subset.mpr ⟨List.mem_append_right _ (List.mem_cons_self ..), ?_⟩, ?_⟩
    · exact fun _ hmem => List.mem_append_left _ (hheld hmem)
    · exact fun _ hmem => List.mem_append_left _ (hdeleted hmem)
  | moveConstruct self other value mem made deleted held =>
    rw [Covered, made, deleted, held]
    exact ⟨List.cons_subset.mpr ⟨hheld mem, hheld⟩, hdeleted⟩
  | moveAssign self other old value rest before same mem made deleted held =>
    have hall : old :: rest ⊆ s.made := fun _ hmem => hheld (before.mem_iff.mpr hmem)
    obtain ⟨hold, hrest⟩ := List.cons_subset.mp hall
    rw [Covered, made, deleted, held]
    refine ⟨List.cons_subset.mpr ⟨?_, hrest⟩, hdeleted⟩
    rcases eq_or_ne self other with heq | hne
    · exact same heq ▸ hold
    · exact hrest (mem hne)
  | destroy self value before made deleted =>
    have hall : value :: ScopeGuards.held s'.values ⊆ s.made :=
      fun _ hmem => hheld (before.mem_iff.mpr hmem)
    obtain ⟨hvalue, hrest⟩ := List.cons_subset.mp hall
    have hlast : [value] ⊆ s.made := List.cons_subset.mpr ⟨hvalue, List.nil_subset _⟩
    rw [Covered, made, deleted]
    exact ⟨hrest, List.append_subset.mpr ⟨hdeleted, hlast⟩⟩

theorem covered_of_run {calls : List (GuardCall ρ)} {s : ScopeGuards ρ}
    (hrun : calls.foldlM step empty = some s) : s.Covered := by
  refine Run.foldlM_inv (C := fun _ => True) ?_ calls empty s
    ⟨List.nil_subset _, List.nil_subset _⟩ (fun _ _ => trivial) hrun
  intro t c t' h _ hstep
  exact (effect hstep).covered h

/-- RUN: without a move between two guards the account is in balance, with one it never is again. -/
theorem ledger_or_spoilt {calls : List (GuardCall ρ)} {s : ScopeGuards ρ}
    (hrun : calls.foldlM step empty = some s) (hdistinct : s.made.Nodup) :
    (∀ c ∈ calls, c.InPlace) ∧ Ledger s.made s.deleted (held s.values) ∨
      (¬ ∀ c ∈ calls, c.InPlace) ∧ Spoilt s.made s.deleted (held s.values) := by
  have hcases : (∀ c ∈ calls, c.InPlace) ∧
        (s.made.Nodup → Ledger s.made s.deleted (held s.values)) ∨
      (¬ ∀ c ∈ calls, c.InPlace) ∧
        (s.made.Nodup → Spoilt s.made s.deleted (held s.values)) := by
    refine Run.foldlM_cases
      (G := fun t => t.made.Nodup → Ledger t.made t.deleted (held t.values))
      (B := fun t => t.made.Nodup → Spoilt t.made t.deleted (held t.values))
      ?_ ?_ ?_ calls empty s (fun _ => Ledger.nil) hrun
    · intro t c t' h hc hstep hd
      exact (effect hstep).ledger hc hd (h ((effect hstep).nodup hd))
    · intro t c t' h hc hstep hd
      exact (effect hstep).spoils hc hd (h ((effect hstep).nodup hd))
    · intro t c t' h hstep hd
      exact (effect hstep).spoilt hd (h ((effect hstep).nodup hd))
  rcases hcases with ⟨hall, h⟩ | ⟨hnot, h⟩
  · exact .inl ⟨hall, h hdistinct⟩
  · exact .inr ⟨hnot, h hdistinct⟩

/-- EXACT: once all guards are destroyed, each resource was deleted exactly once just when nothing
    ever moved from one guard to another. -/
theorem releasedOnce_iff [DecidableEq ρ] {calls : List (GuardCall ρ)} {s : ScopeGuards ρ}
    (hrun : calls.foldlM step empty = some s) (hdistinct : s.made.Nodup) (hend : s.values = ∅) :
    (∀ r ∈ s.made, s.deleted.count r = 1) ↔ ∀ c ∈ calls, c.InPlace := by
  have hheld : held s.values = [] := by rw [hend]; rfl
  have hrun' := ledger_or_spoilt hrun hdistinct
  rw [hheld] at hrun'
  rcases hrun' with ⟨hall, hledger⟩ | ⟨hnot, hspoilt⟩
  · refine iff_of_true (fun r hr => ?_) hall
    rw [hledger.settled.count_eq]
    exact List.count_eq_one_of_mem hdistinct hr
  · exact iff_of_false (hspoilt.not_settled (covered_of_run hrun).2) hnot

/-- Two guards, one of which is assigned to itself, destroyed in the order they were made. -/
def selfAssigned : List (GuardCall ℕ) :=
  [.construct 0 3, .construct 1 4, .moveAssign 1 1, .destroy 0, .destroy 1]

theorem releasedOnce_iff_selfAssigned : ∃ s, selfAssigned.foldlM step empty = some s ∧
    ((∀ r ∈ s.made, s.deleted.count r = 1) ↔ ∀ c ∈ selfAssigned, c.InPlace) :=
  ⟨⟨∅, [3, 4], [3, 4]⟩, rfl, releasedOnce_iff rfl (by decide) rfl⟩

/-- One descriptor in one guard, which is moved into another: it is closed twice. -/
theorem moved_twice : ∃ s : ScopeGuards ℕ,
    [.construct 0 3, .moveConstruct 1 0, .destroy 1, .destroy 0].foldlM step empty = some s ∧
      s.values = ∅ ∧ s.made = [3] ∧ s.deleted = [3, 3] ∧
      ¬ ∀ r ∈ s.made, s.deleted.count r = 1 :=
  ⟨⟨∅, [3], [3, 3]⟩, rfl, rfl, rfl, rfl, by decide⟩

end ScopeGuards
end UnixIpc.Engine
