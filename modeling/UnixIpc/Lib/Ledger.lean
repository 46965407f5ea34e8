import Mathlib.Data.List.Count
import Mathlib.Data.List.Perm.Basic
import Mathlib.Data.List.Nodup
import Mathlib.Tactic.Common

/-! An account of resources that are opened and closed, under names that may come back after a
    close. Every opening is live or has been closed once:

        opened  ~  live ++ closed        (as multisets, with no name live twice)

    An operation keeps the account by `opening` a name that is not live or `closing` one that is. An
    account without anything live says that every opening was closed exactly once.

    What is live may also be written down twice, or written over. Either spoils the account, and no
    later operation puts it right (`Spoilt`). -/

namespace UnixIpc
variable {α : Type*}

/-- The openings so far are the live names and the closings so far. -/
structure Ledger (opened closed live : List α) : Prop where
  balance : opened.Perm (live ++ closed)
  distinct : live.Nodup

namespace Ledger
variable {opened closed live : List α} {a : α}

theorem nil : Ledger ([] : List α) [] [] := ⟨List.Perm.refl _, List.nodup_nil⟩

theorem perm {live' : List α} (h : Ledger opened closed live) (hp : live.Perm live') :
    Ledger opened closed live' :=
  ⟨h.balance.trans (hp.append_right closed), hp.nodup_iff.mp h.distinct⟩

/-- STEP: a name that is not live is opened. -/
theorem opening (h : Ledger opened closed live) (hnew : a ∉ live) :
    Ledger (opened ++ [a]) closed (a :: live) where
  balance := calc
    (opened ++ [a]).Perm (a :: opened) := List.perm_append_singleton a opened
    List.Perm _ (a :: (live ++ closed)) := h.balance.cons a
  distinct := List.nodup_cons.mpr ⟨hnew, h.distinct⟩

/-- STEP: names at the front are closed, in order. -/
theorem closing_append {names rest : List α} (h : Ledger opened closed (names ++ rest)) :
    Ledger opened (closed ++ names) rest where
  balance := calc
    opened.Perm (names ++ rest ++ closed) := h.balance
    List.Perm _ (rest ++ (names ++ closed)) := by
      rw [← List.append_assoc]
      exact List.perm_append_comm.append_right closed
    List.Perm _ (rest ++ (closed ++ names)) := List.perm_append_comm.append_left rest
  distinct := (List.nodup_append.mp h.distinct).2.1

/-- STEP: a live name is closed. -/
theorem closing [DecidableEq α] (h : Ledger opened closed live) (ha : a ∈ live) :
    Ledger opened (closed ++ [a]) (live.erase a) :=
  have hfront : Ledger opened closed ([a] ++ live.erase a) := h.perm (List.perm_cons_erase ha)
  closing_append hfront

/-- How often a name was opened: as often as it was closed, and once more while it is live. -/
theorem count [DecidableEq α] (h : Ledger opened closed live) (a : α) :
    opened.count a = closed.count a + if a ∈ live then 1 else 0 := by
  rw [h.balance.count_eq, List.count_append, h.distinct.count]
  omega

/-- With nothing live, each opening was closed exactly once. -/
theorem settled (h : Ledger opened closed []) : closed.Perm opened := h.balance.symm

end Ledger

/-- Beyond repair: more is live or closed than was opened, or an opening is neither. -/
def Spoilt (opened closed live : List α) : Prop :=
  opened.length < live.length + closed.length ∨ ∃ a ∈ opened, a ∉ live ∧ a ∉ closed

namespace Ledger
variable {opened closed live rest : List α} {a b : α}

/-- A live name is written down once more. -/
theorem twice (h : Ledger opened closed live) : Spoilt opened closed (b :: live) := by
  have hlen := h.balance.length_eq
  rw [List.length_append] at hlen
  left
  rw [List.length_cons]
  omega

/-- A live name is written over by another. -/
theorem overwritten (h : Ledger opened closed live) (hopened : opened.Nodup)
    (hlive : live.Perm (a :: rest)) (hb : b ∈ rest) : Spoilt opened closed (b :: rest) := by
  have hnodup : ((a :: rest) ++ closed).Nodup := (h.perm hlive).balance.nodup_iff.mp hopened
  obtain ⟨hcons, _, hdisjoint⟩ := List.nodup_append.mp hnodup
  have ha : a ∉ rest := (List.nodup_cons.mp hcons).1
  refine .inr ⟨a, (h.perm hlive).balance.mem_iff.mpr (List.mem_cons_self ..), ?_, ?_⟩
  · rintro (_ | ⟨_, hrest⟩)
    · exact ha hb
    · exact ha hrest
  · intro hclosed
    exact hdisjoint a (List.mem_cons_self ..) a hclosed rfl

end Ledger

namespace Spoilt
variable {opened closed live rest : List α} {a b : α}

/-- STEP: opening a new name does not help. -/
theorem opening (h : Spoilt opened closed live) (hnew : a ∉ opened) :
    Spoilt (opened ++ [a]) closed (a :: live) := by
  rcases h with hlen | ⟨b, hb, hlive, hclosed⟩
  · left
    rw [List.length_append, List.length_singleton, List.length_cons]
    omega
  · refine .inr ⟨b, List.mem_append_left _ hb, ?_, hclosed⟩
    rintro (_ | ⟨_, hmem⟩)
    · exact hnew hb
    · exact hlive hmem

/-- STEP: nor does closing a live one. -/
theorem closing (h : Spoilt opened closed live) (hlive : live.Perm (a :: rest)) :
    Spoilt opened (closed ++ [a]) rest := by
  rcases h with hlen | ⟨b, hb, hnot, hclosed⟩
  · left
    rw [hlive.length_eq, List.length_cons] at hlen
    rw [List.length_append, List.length_singleton]
    omega
  · have hab : b ∉ a :: rest := fun hmem => hnot (hlive.mem_iff.mpr hmem)
    refine .inr ⟨b, hb, fun hmem => hab (List.mem_cons_of_mem _ hmem), ?_⟩
    rw [List.mem_append, List.mem_singleton]
    rintro (hmem | rfl)
    · exact hclosed hmem
    · exact hab (List.mem_cons_self ..)

/-- STEP: nor writing a live one down again. -/
theorem twice (h : Spoilt opened closed live) (hb : b ∈ live) :
    Spoilt opened closed (b :: live) := by
  rcases h with hlen | ⟨c, hc, hnot, hclosed⟩
  · left
    rw [List.length_cons]
    omega
  · refine .inr ⟨c, hc, ?_, hclosed⟩
    rintro (_ | ⟨_, hmem⟩)
    · exact hnot hb
    · exact hnot hmem

/-- STEP: nor writing one over another. -/
theorem overwriting (h : Spoilt opened closed live) (hlive : live.Perm (a :: rest))
    (hb : b ∈ live) : Spoilt opened closed (b :: rest) := by
  rcases h with hlen | ⟨c, hc, hnot, hclosed⟩
  · left
    rwa [hlive.length_eq] at hlen
  · refine .inr ⟨c, hc, ?_, hclosed⟩
    rintro (_ | ⟨_, hmem⟩)
    · exact hnot hb
    · exact hnot (hlive.mem_iff.mpr (List.mem_cons_of_mem _ hmem))

/-- In the end, some opening was not closed exactly once. -/
theorem not_settled [DecidableEq α] (h : Spoilt opened closed []) (hsub : closed ⊆ opened) :
    ¬ ∀ a ∈ opened, closed.count a = 1 := by
  intro hall
  rcases h with hlen | ⟨a, ha, _, hclosed⟩
  · have hnodup : closed.Nodup := List.nodup_iff_count_le_one.mpr fun a => by
      by_cases ha : a ∈ closed
      · exact Nat.le_of_eq (hall a (hsub ha))
      · rw [List.count_eq_zero_of_not_mem ha]
        exact Nat.zero_le 1
    have hle := (List.subperm_of_subset hnodup hsub).length_le
    rw [List.length_nil] at hlen
    omega
  · have hone := hall a ha
    rw [List.count_eq_zero_of_not_mem hclosed] at hone
    exact Nat.zero_ne_one hone

end Spoilt
end UnixIpc
