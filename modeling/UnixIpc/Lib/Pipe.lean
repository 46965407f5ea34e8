import Mathlib.Data.List.Basic
import Mathlib.Tactic.Common

/-! A pipe of bytes, or of anything: writers append to it, a blocking reader asks for a number of
    elements and gets what is there up to that number. Nothing in the pipe says where one write ends
    and the next begins.

        write r ──▶ │ rest of r₁ │ r₂ │ r₃ │ ──▶ read n

    If every write is a whole record of `n` elements and every read asks for `n`, each read takes off
    just the next record (`Holds.read_eq`). -/

namespace UnixIpc.Pipe
variable {α : Type*} {n : ℕ}

/-- What a read returns: nothing yet (`none`) while the pipe is empty and somebody can still write
    into it, no elements once nobody can. -/
def read (requested : ℕ) (writable : Bool) (pipe : List α) : Option (List α) :=
  if pipe = [] then if writable then none else some [] else some (pipe.take requested)

/-- What a read leaves. -/
def rest (requested : ℕ) (pipe : List α) : List α := pipe.drop requested

theorem read_nil (requested : ℕ) (writable : Bool) :
    read requested writable ([] : List α) = if writable then none else some [] := rfl

/-- The pipe holds these records of `n` elements, whole and in this order. -/
structure Holds (n : ℕ) (pipe : List α) (records : List (List α)) : Prop where
  size : ∀ r ∈ records, r.length = n
  content : pipe = records.flatten

theorem Holds.empty : Holds n ([] : List α) [] := ⟨by simp, rfl⟩

theorem Holds.write {pipe r : List α} {records : List (List α)} (h : Holds n pipe records)
    (hr : r.length = n) : Holds n (pipe ++ r) (records ++ [r]) where
  size := by
    intro r' hr'
    rcases List.mem_append.mp hr' with hold | hnew
    · exact h.size r' hold
    · exact List.mem_singleton.mp hnew ▸ hr
  content := by rw [h.content, List.flatten_append, List.flatten_singleton]

/-- A pipe without records is empty, whatever their size. -/
theorem Holds.eq_nil {pipe : List α} (h : Holds n pipe []) : pipe = [] := h.content

/-- A read of the records' size returns the next record. -/
theorem Holds.read_eq {pipe r : List α} {records : List (List α)} (h : Holds n pipe (r :: records))
    (hn : 0 < n) (writable : Bool) : read n writable pipe = some r := by
  have hr : r.length = n := h.size r (List.mem_cons_self ..)
  have hpipe : pipe = r ++ records.flatten := by rw [h.content, List.flatten_cons]
  have hne : pipe ≠ [] := by
    intro hnil
    rw [hnil] at hpipe
    have hlen := congrArg List.length hpipe
    rw [List.length_append, List.length_nil] at hlen
    omega
  rw [read, if_neg hne, hpipe, List.take_left' hr]

/-- And leaves the others. -/
theorem Holds.rest {pipe r : List α} {records : List (List α)} (h : Holds n pipe (r :: records)) :
    Holds n (Pipe.rest n pipe) records where
  size := fun r' hr' => h.size r' (List.mem_cons_of_mem _ hr')
  content := by
    rw [Pipe.rest, h.content, List.flatten_cons, List.drop_left' (h.size r (List.mem_cons_self ..))]

end UnixIpc.Pipe
