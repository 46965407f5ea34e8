import Mathlib.Data.List.Nodup
import Mathlib.Logic.Function.Basic
import Mathlib.Tactic.Common

/-! Streams that come in under keys. Somebody writes into one and goes at any time; a reader takes
    chunks off them, one stream at a time, and records what it has got:

        write k ──▶ │ … toReceiver … │ ──read──▶ (k, chunk)
        write k'──▶ │ … toReceiver … │ ──read──▶ (k', chunk)

    Chunks and what is under way make up each stream (`Conserved`). If nobody writes, what is read is
    the end of a stream (`Silent`). -/

namespace UnixIpc.Links
variable {K α : Type*}

/-- A stream from its reader's side: all that has been written into it, what of that is still under
    way, and whether the writer is there. -/
structure Link (α : Type*) where
  sent : List α
  toReceiver : List α
  isOpen : Bool
  deriving DecidableEq

namespace Link

def fresh : Link α := ⟨[], [], true⟩

/-- A writer that is gone writes nothing. -/
def write (l : Link α) (more : List α) : Link α :=
  if l.isOpen then { l with sent := l.sent ++ more, toReceiver := l.toReceiver ++ more } else l

def hangUp (l : Link α) : Link α := { l with isOpen := false }

/-- So much has been read. -/
def take (l : Link α) (n : ℕ) : Link α := { l with toReceiver := l.toReceiver.drop n }

/-- What a read of at most `n` gets: some of what is under way, at least one if there is any and there
    is room, and no more than it would have got as `wanted`. -/
def chunk (l : Link α) (n wanted : ℕ) : List α := l.toReceiver.take (min (wanted + 1) n)

/-- A read would not block. -/
def readable (l : Link α) : Bool := !l.toReceiver.isEmpty || !l.isOpen

theorem chunk_prefix (l : Link α) (n wanted : ℕ) : l.chunk n wanted <+: l.toReceiver :=
  List.take_prefix _ _

theorem length_chunk_le (l : Link α) (n wanted : ℕ) : (l.chunk n wanted).length ≤ n :=
  Nat.le_trans (List.length_take_le _ _) (Nat.min_le_right _ _)

theorem chunk_of_nil {l : Link α} (h : l.toReceiver = []) (n wanted : ℕ) : l.chunk n wanted = [] := by
  rw [chunk, h, List.take_nil]

theorem write_content {l : Link α} {front : List α} (more : List α)
    (h : front ++ l.toReceiver = l.sent) :
    front ++ (l.write more).toReceiver = (l.write more).sent := by
  unfold write
  split
  · dsimp only
    rw [← List.append_assoc, h]
  · exact h

theorem write_nil (l : Link α) : l.write [] = l := by
  unfold write
  split <;> simp

end Link

variable [DecidableEq K]

/-- Something happens to one stream. -/
def modify (links : K → Option (Link α)) (k : K) (f : Link α → Link α) : K → Option (Link α) :=
  Function.update links k ((links k).map f)

/-- All that was read under a key. -/
def readFrom (k : K) (reads : List (K × List α)) : List α :=
  (reads.filter (·.1 = k)).flatMap Prod.snd

/-- After a turn of the reader: what was read is gone, and there are new streams. -/
def turn (links : K → Option (Link α)) (reads : List (K × List α)) (opened : List K) :
    K → Option (Link α) := fun k =>
  if k ∈ opened then some .fresh else (links k).map (·.take (readFrom k reads).length)

section
variable {links : K → Option (Link α)} {reads more : List (K × List α)} {opened : List K} {k : K}
  {l : Link α}

/-! ### One step -/

theorem modify_cases {f : Link α → Link α} {other : K} (h : modify links k f other = some l) :
    ∃ old, links other = some old ∧ (l = old ∨ l = f old) := by
  unfold modify at h
  rcases eq_or_ne other k with rfl | hne
  · rw [Function.update_self, Option.map_eq_some_iff] at h
    obtain ⟨old, hold, rfl⟩ := h
    exact ⟨old, hold, .inr rfl⟩
  · rw [Function.update_of_ne hne] at h
    exact ⟨l, h, .inl rfl⟩

theorem exists_modify (k : K) (f : Link α → Link α) {other : K} (h : ∃ l, links other = some l) :
    ∃ l, modify links k f other = some l := by
  obtain ⟨l, hl⟩ := h
  unfold modify
  rcases eq_or_ne other k with rfl | hne
  · exact ⟨f l, by rw [Function.update_self, hl]; rfl⟩
  · exact ⟨l, (Function.update_of_ne hne _ _).trans hl⟩

/-- A stream after a turn is new, or an old one that has been read from. -/
theorem turn_cases (h : turn links more opened k = some l) :
    (k ∈ opened ∧ l = .fresh) ∨ ∃ old, links k = some old ∧ l = old.take (readFrom k more).length := by
  unfold turn at h
  split at h
  · rename_i hmem
    exact .inl ⟨hmem, (Option.some.inj h).symm⟩
  · obtain ⟨old, hold, rfl⟩ := Option.map_eq_some_iff.mp h
    exact .inr ⟨old, hold, rfl⟩

theorem exists_turn (more : List (K × List α)) (h : (∃ l, links k = some l) ∨ k ∈ opened) :
    ∃ l, turn links more opened k = some l := by
  unfold turn
  split
  · exact ⟨_, rfl⟩
  · rename_i hnot
    obtain ⟨l, hl⟩ := h.resolve_right hnot
    exact ⟨_, by rw [hl]; rfl⟩

theorem turn_old (more : List (K × List α)) (hopened : ∀ k ∈ opened, links k = none)
    (hl : links k = some l) :
    turn links more opened k = some (l.take (readFrom k more).length) := by
  have hnot : k ∉ opened := by
    intro hmem
    rw [hopened k hmem] at hl
    cases hl
  rw [turn, if_neg hnot, hl]
  rfl

/-! ### What was read -/

theorem readFrom_append (k : K) (reads more : List (K × List α)) :
    readFrom k (reads ++ more) = readFrom k reads ++ readFrom k more := by
  rw [readFrom, List.filter_append, List.flatMap_append]
  rfl

theorem readFrom_eq_nil (h : ∀ r ∈ reads, r.1 ≠ k) : readFrom k reads = [] := by
  have hnone : reads.filter (·.1 = k) = [] := by
    rw [List.filter_eq_nil_iff]
    exact fun r hr hk => h r hr (of_decide_eq_true hk)
  rw [readFrom, hnone, List.flatMap_nil]

/-- If no stream is read twice, what was read under a key is one chunk, or nothing. -/
theorem readFrom_of_nodup (hnodup : (reads.map Prod.fst).Nodup) :
    readFrom k reads = [] ∨ ∃ r ∈ reads, r.1 = k ∧ readFrom k reads = r.2 := by
  induction reads with
  | nil => exact .inl rfl
  | cons r reads ih =>
    obtain ⟨hnew, hrest⟩ := List.nodup_cons.mp hnodup
    rcases em (r.1 = k) with hk | hk
    · have hothers : readFrom k reads = [] := by
        refine readFrom_eq_nil fun e he heq => hnew ?_
        exact List.mem_map.mpr ⟨e, he, heq.trans hk.symm⟩
      refine .inr ⟨r, List.mem_cons_self .., hk, ?_⟩
      rw [readFrom, List.filter_cons_of_pos (by simpa using hk), List.flatMap_cons]
      exact (congrArg (r.2 ++ ·) hothers).trans (List.append_nil _)
    · have hskip : readFrom k (r :: reads) = readFrom k reads := by
        rw [readFrom, List.filter_cons_of_neg (by simpa using hk)]
        rfl
      rw [hskip]
      rcases ih hrest with hnil | ⟨e, he, heq, hchunk⟩
      · exact .inl hnil
      · exact .inr ⟨e, List.mem_cons_of_mem _ he, heq, hchunk⟩

/-- Each read was of a stream that is there, and got the beginning of what was under way. -/
def Genuine (links : K → Option (Link α)) (more : List (K × List α)) : Prop :=
  ∀ r ∈ more, ∃ l, links r.1 = some l ∧ r.2 <+: l.toReceiver

theorem Genuine.readFrom_prefix (h : Genuine links more) (hnodup : (more.map Prod.fst).Nodup)
    (hl : links k = some l) : readFrom k more <+: l.toReceiver := by
  have hone : readFrom k more = [] ∨ _ := readFrom_of_nodup hnodup
  rcases hone with hnil | ⟨r, hr, rfl, hchunk⟩
  · rw [hnil]
    exact List.nil_prefix
  · obtain ⟨l', hl', hfront⟩ := h r hr
    obtain rfl := Option.some.inj (hl.symm.trans hl')
    exact hchunk ▸ hfront

/-! ### Conservation -/

/-- INVARIANT: what has been written into a stream has been read from it, or is under way, in this
    order. -/
structure Conserved (links : K → Option (Link α)) (reads : List (K × List α)) : Prop where
  known : ∀ r ∈ reads, ∃ l, links r.1 = some l
  content : ∀ k l, links k = some l → readFrom k reads ++ l.toReceiver = l.sent

theorem conserved_none : Conserved (fun _ : K => (none : Option (Link α))) [] where
  known _ h := absurd h List.not_mem_nil
  content _ _ h := absurd h (Option.some_ne_none _).symm

theorem Conserved.modify (h : Conserved links reads) (k : K) {f : Link α → Link α}
    (hf : ∀ l front, front ++ l.toReceiver = l.sent → front ++ (f l).toReceiver = (f l).sent) :
    Conserved (Links.modify links k f) reads where
  known r hr := exists_modify k f (h.known r hr)
  content other l hl := by
    obtain ⟨old, hold, rfl | rfl⟩ := modify_cases hl
    · exact h.content other l hold
    · exact hf old _ (h.content other old hold)

/-- STEP: a turn in which no stream is read twice. -/
theorem Conserved.turn (h : Conserved links reads) (hmore : Genuine links more)
    (hnodup : (more.map Prod.fst).Nodup) (hopened : ∀ k ∈ opened, links k = none) :
    Conserved (Links.turn links more opened) (reads ++ more) where
  known r hr := by
    refine exists_turn more (.inl ?_)
    rcases List.mem_append.mp hr with hr | hr
    · exact h.known r hr
    · obtain ⟨l, hl, _⟩ := hmore r hr
      exact ⟨l, hl⟩
  content k l hl := by
    rcases turn_cases hl with ⟨hmem, rfl⟩ | ⟨old, hold, rfl⟩
    · -- a key that was never read from
      have hnever : ∀ r ∈ reads ++ more, r.1 ≠ k := by
        rintro r hr rfl
        have hthere : ∃ l, links r.1 = some l := by
          rcases List.mem_append.mp hr with hr | hr
          · exact h.known r hr
          · obtain ⟨l, hl, _⟩ := hmore r hr
            exact ⟨l, hl⟩
        obtain ⟨l, hl⟩ := hthere
        rw [hopened _ hmem] at hl
        cases hl
      rw [readFrom_eq_nil hnever]
      rfl
    · obtain ⟨rest, hrest⟩ := hmore.readFrom_prefix hnodup hold
      have hcontent := h.content k old hold
      rw [← hrest] at hcontent
      rw [readFrom_append, Link.take, ← hrest, List.drop_left, List.append_assoc]
      exact hcontent

/-! ### Silence -/

/-- INVARIANT: nobody has written anything, and whatever was read from had ended. -/
structure Silent (links : K → Option (Link α)) (reads : List (K × List α)) : Prop where
  conserved : Conserved links reads
  unsent : ∀ k l, links k = some l → l.sent = []
  gone : ∀ r ∈ reads, ∀ l, links r.1 = some l → l.isOpen = false

theorem silent_none : Silent (fun _ : K => (none : Option (Link α))) [] where
  conserved := conserved_none
  unsent _ _ h := absurd h (Option.some_ne_none _).symm
  gone _ h := absurd h List.not_mem_nil

/-- Nothing is under way. -/
theorem Silent.toReceiver_eq_nil (h : Silent links reads) (hl : links k = some l) :
    l.toReceiver = [] := by
  have hcontent := h.conserved.content k l hl
  rw [h.unsent k l hl] at hcontent
  exact (List.append_eq_nil_iff.mp hcontent).2

/-- And nothing has been read. -/
theorem Silent.read_eq_nil (h : Silent links reads) {r : K × List α} (hr : r ∈ reads) : r.2 = [] := by
  obtain ⟨l, hl⟩ := h.conserved.known r hr
  have hcontent := h.conserved.content _ l hl
  rw [h.unsent _ l hl] at hcontent
  have hfrom := (List.append_eq_nil_iff.mp hcontent).1
  rw [readFrom, List.flatMap_eq_nil_iff] at hfrom
  exact hfrom r (List.mem_filter.mpr ⟨hr, decide_eq_true rfl⟩)

/-- A step of a writer that writes nothing and does not come back. -/
theorem Silent.modify (h : Silent links reads) (k : K) {f : Link α → Link α}
    (hf : ∀ l, (f l).sent = l.sent ∧ (f l).toReceiver = l.toReceiver ∧
      (l.isOpen = false → (f l).isOpen = false)) : Silent (Links.modify links k f) reads where
  conserved := h.conserved.modify k fun l front hl => by rw [(hf l).1, (hf l).2.1, hl]
  unsent other l hl := by
    obtain ⟨old, hold, rfl | rfl⟩ := modify_cases hl
    · exact h.unsent other l hold
    · rw [(hf old).1, h.unsent other old hold]
  gone r hr l hl := by
    obtain ⟨old, hold, rfl | rfl⟩ := modify_cases hl
    · exact h.gone r hr l hold
    · exact (hf old).2.2 (h.gone r hr old hold)

/-- STEP: a turn in which only streams are read whose reads do not block. -/
theorem Silent.turn (h : Silent links reads) (hmore : Genuine links more)
    (hready : ∀ r ∈ more, ∀ l, links r.1 = some l → l.readable = true)
    (hnodup : (more.map Prod.fst).Nodup) (hopened : ∀ k ∈ opened, links k = none) :
    Silent (Links.turn links more opened) (reads ++ more) where
  conserved := h.conserved.turn hmore hnodup hopened
  unsent k l hl := by
    rcases turn_cases hl with ⟨_, rfl⟩ | ⟨old, hold, rfl⟩
    · rfl
    · exact h.unsent k old hold
  gone r hr l' hl' := by
    have hbefore : ∃ l, links r.1 = some l ∧ l.isOpen = false := by
      rcases List.mem_append.mp hr with hr | hr
      · obtain ⟨l, hl⟩ := h.conserved.known r hr
        exact ⟨l, hl, h.gone r hr l hl⟩
      · obtain ⟨l, hl, _⟩ := hmore r hr
        have hreadable := hready r hr l hl
        rw [Link.readable, h.toReceiver_eq_nil hl] at hreadable
        exact ⟨l, hl, by simpa using hreadable⟩
    obtain ⟨l, hl, hgone⟩ := hbefore
    rw [turn_old more hopened hl] at hl'
    obtain rfl := Option.some.inj hl'
    exact hgone

end
end UnixIpc.Links
