import UnixIpc.Engine.Dispatch

/-! A pass of `handleClientsSocket`, as the calls it makes. The loop looks at every entry by index
    and at sessions that are appended meanwhile, but what it does is plain: it calls the handlers of
    the sessions that poll reported as readable and nothing else (`due`), in order, until one throws
    or `readyCount` is used up.

        handleClientsSocket  =  due.foldl call

    The rest of the module is about that fold: which calls are made and what is left of
    `readyCount`. -/

namespace UnixIpc.Engine
open UnixIpc.Descriptors UnixIpc.IndexLoop

variable {H : Type}

/-- The sessions with `revents == POLLRDNORM`, from index `i` on. -/
def dueFrom : ℕ → List PollFd → List (TcpSession H) → List (ℕ × TcpSession H)
  | i, entry :: entries, session :: sessions =>
    if entry.revents = pollRdNorm then (i, session) :: dueFrom (i + 1) entries sessions
    else dueFrom (i + 1) entries sessions
  | _, _, _ => []

def Acceptor.due (a : Acceptor H) : List (ℕ × TcpSession H) :=
  dueFrom 0 a.clientPollFdSet a.tcpSessions

/-- The call of one session's handler, as `handleEvent` makes it. -/
def Pass.call (answers : ℕ → Answer) (p : Pass H) (d : ℕ × TcpSession H) : Pass H :=
  if p.outcome = .running ∧ 0 < p.readyCount then
    let called := p.world.invoke d.2 (answers d.1)
    { world := called.1
      readyCount := if called.2.2 = .running then p.readyCount - 1 else p.readyCount
      dispatched := p.dispatched ++ [(d.1, d.2.socket)]
      admitted := p.admitted ++ called.2.1
      outcome := called.2.2 }
  else p

/-- The world once the handlers of these sessions have been called, one after another. -/
def World.after (w : World H) (answers : ℕ → Answer) (ds : List (ℕ × TcpSession H)) : World H :=
  ds.foldl (fun w d => (w.invoke d.2 (answers d.1)).1) w

/-- The state in which a pass begins. -/
def World.begin (w : World H) (readyCount : ℤ) : Pass H := ⟨w, readyCount, [], [], .running⟩

/-! ### What is due -/

theorem dueFrom_nil (i : ℕ) (entries : List PollFd) :
    dueFrom i entries ([] : List (TcpSession H)) = [] := by
  cases entries <;> rfl

theorem dueFrom_cons (i : ℕ) (entry : PollFd) (entries : List PollFd) (session : TcpSession H)
    (sessions : List (TcpSession H)) :
    dueFrom i (entry :: entries) (session :: sessions) =
      if entry.revents = pollRdNorm then (i, session) :: dueFrom (i + 1) entries sessions
      else dueFrom (i + 1) entries sessions := rfl

theorem mem_dueFrom {entries : List PollFd} {sessions : List (TcpSession H)} {i : ℕ}
    {d : ℕ × TcpSession H} : d ∈ dueFrom i entries sessions ↔
      ∃ k, d.1 = i + k ∧ sessions[k]? = some d.2 ∧
        ∃ entry, entries[k]? = some entry ∧ entry.revents = pollRdNorm := by
  induction entries generalizing sessions i with
  | nil => simp [dueFrom]
  | cons entry entries ih =>
    cases sessions with
    | nil => simp [dueFrom]
    | cons session sessions =>
      have hrest : d ∈ dueFrom (i + 1) entries sessions ↔ ∃ k, d.1 = i + (k + 1) ∧
          (session :: sessions)[k + 1]? = some d.2 ∧
          ∃ e, (entry :: entries)[k + 1]? = some e ∧ e.revents = pollRdNorm := by
        rw [ih]
        refine exists_congr fun k => ?_
        rw [List.getElem?_cons_succ, List.getElem?_cons_succ, Nat.add_assoc, Nat.add_comm 1 k]
      have hsplit : (∃ k, d.1 = i + k ∧ (session :: sessions)[k]? = some d.2 ∧
          ∃ e, (entry :: entries)[k]? = some e ∧ e.revents = pollRdNorm) ↔
          (d = (i, session) ∧ entry.revents = pollRdNorm) ∨
            d ∈ dueFrom (i + 1) entries sessions := by
        rw [hrest]
        constructor
        · rintro ⟨_ | k, hi, hs, he⟩
          · simp only [List.getElem?_cons_zero, Option.some.injEq, exists_eq_left'] at hs he
            exact Or.inl ⟨Prod.ext hi hs.symm, he⟩
          · exact Or.inr ⟨k, hi, hs, he⟩
        · rintro (⟨rfl, he⟩ | ⟨k, hk⟩)
          · exact ⟨0, rfl, rfl, entry, rfl, he⟩
          · exact ⟨k + 1, hk⟩
      rw [hsplit, dueFrom_cons]
      split
      · rename_i he
        rw [List.mem_cons, and_iff_left he]
      · rename_i he
        simp [he]

/-- What is due comes in the order of the indices. -/
theorem pairwise_dueFrom (entries : List PollFd) (sessions : List (TcpSession H)) (i : ℕ) :
    (dueFrom i entries sessions).Pairwise (·.1 < ·.1) := by
  induction entries generalizing sessions i with
  | nil => simp [dueFrom]
  | cons entry entries ih =>
    cases sessions with
    | nil => simp [dueFrom]
    | cons session sessions =>
      rw [dueFrom_cons]
      split
      · refine List.pairwise_cons.mpr ⟨?_, ih sessions (i + 1)⟩
        intro d hd
        obtain ⟨k, hk, _⟩ := mem_dueFrom.mp hd
        omega
      · exact ih sessions (i + 1)

theorem nodup_dueFrom (entries : List PollFd) (sessions : List (TcpSession H)) (i : ℕ) :
    ((dueFrom i entries sessions).map Prod.fst).Nodup :=
  List.pairwise_map.mpr ((pairwise_dueFrom entries sessions i).imp fun hlt => hlt.ne)

/-- What is due in front of `d` is what has a smaller index. -/
theorem mem_front_iff {entries : List PollFd} {sessions : List (TcpSession H)} {i : ℕ}
    {pre post : List (ℕ × TcpSession H)} {d e : ℕ × TcpSession H}
    (hsplit : dueFrom i entries sessions = pre ++ d :: post) :
    e ∈ pre ↔ e ∈ dueFrom i entries sessions ∧ e.1 < d.1 := by
  have hpairwise := pairwise_dueFrom entries sessions i
  rw [hsplit] at hpairwise ⊢
  obtain ⟨_, hrest, hfront⟩ := List.pairwise_append.mp hpairwise
  constructor
  · intro he
    exact ⟨List.mem_append_left _ he, hfront e he d (List.mem_cons_self ..)⟩
  · rintro ⟨he, hlt⟩
    rcases List.mem_append.mp he with he | he
    · exact he
    rcases List.mem_cons.mp he with rfl | he
    · exact absurd hlt (lt_irrefl _)
    · exact absurd ((List.pairwise_cons.mp hrest).1 e he) (not_lt.mpr hlt.le)

/-- A condition on what is due and what is due in front of it. -/
theorem forall_front_iff {entries : List PollFd} {sessions : List (TcpSession H)} {i : ℕ}
    {Q R : ℕ × TcpSession H → Prop} :
    (∀ pre d post, dueFrom i entries sessions = pre ++ d :: post → (∀ e ∈ pre, Q e) → R d) ↔
      ∀ d ∈ dueFrom i entries sessions,
        (∀ e ∈ dueFrom i entries sessions, e.1 < d.1 → Q e) → R d := by
  constructor
  · intro h d hd hfront
    obtain ⟨pre, post, hsplit⟩ := List.append_of_mem hd
    refine h pre d post hsplit ?_
    intro e he
    obtain ⟨hmem, hlt⟩ := (mem_front_iff hsplit).mp he
    exact hfront e hmem hlt
  · intro h pre d post hsplit hfront
    refine h d (by simp [hsplit]) ?_
    intro e he hlt
    exact hfront e ((mem_front_iff hsplit).mpr ⟨he, hlt⟩)

theorem length_dueFrom {entries : List PollFd} {sessions : List (TcpSession H)}
    (hlen : entries.length = sessions.length) (i : ℕ) :
    (dueFrom i entries sessions).length = entries.countP (·.revents = pollRdNorm) := by
  induction entries generalizing sessions i with
  | nil => rfl
  | cons entry entries ih =>
    obtain ⟨session, sessions, rfl⟩ := List.exists_cons_of_length_eq_add_one hlen.symm
    have hrest : entries.length = sessions.length := Nat.succ.inj hlen
    rw [dueFrom_cons]
    split
    · rename_i he
      rw [List.length_cons, ih hrest, List.countP_cons_of_pos (by simpa using he)]
    · rename_i he
      rw [ih hrest, List.countP_cons_of_neg (by simpa using he)]

/-! ### The calls of a pass -/

theorem call_stopped {answers : ℕ → Answer} {p : Pass H}
    (h : ¬ (p.outcome = .running ∧ 0 < p.readyCount)) (ds : List (ℕ × TcpSession H)) :
    ds.foldl (Pass.call answers) p = p :=
  List.foldl_fixed' (fun _ => if_neg h) ds

/-- After a handler that comes back the loop goes on, with one less on the count. -/
theorem call_back {answers : ℕ → Answer} {p : Pass H} {d : ℕ × TcpSession H}
    (hopen : p.outcome = .running ∧ 0 < p.readyCount)
    (hback : (p.world.invoke d.2 (answers d.1)).2.2 = .running) :
    (Pass.call answers p d).outcome = .running ∧
      (Pass.call answers p d).readyCount = p.readyCount - 1 := by
  rw [Pass.call, if_pos hopen]
  exact ⟨hback, if_pos hback⟩

/-- After one that does not the pass is over. -/
theorem call_thrown {answers : ℕ → Answer} {p : Pass H} {d : ℕ × TcpSession H}
    (hopen : p.outcome = .running ∧ 0 < p.readyCount)
    (hout : (p.world.invoke d.2 (answers d.1)).2.2 ≠ .running) :
    ¬ ((Pass.call answers p d).outcome = .running ∧ 0 < (Pass.call answers p d).readyCount) := by
  rw [Pass.call, if_pos hopen]
  exact fun hgo => hout hgo.1

/-- A call leaves the acceptor as it was, with connections appended. -/
theorem exists_push_call (answers : ℕ → Answer) {p : Pass H} {id : ℕ} {a : Acceptor H}
    {l : List (Admission H)} (ha : p.world.acceptors id = some (l.foldl Acceptor.push a))
    (d : ℕ × TcpSession H) : ∃ l' : List (Admission H),
      (Pass.call answers p d).world.acceptors id = some (l'.foldl Acceptor.push a) := by
  unfold Pass.call
  split
  · rcases invoke_cases p.world d.2 (answers d.1) with ⟨hw, _⟩ | ⟨ref, h, _, _, _, _, hw, _⟩
    · exact ⟨l, by rw [hw, ha]⟩
    · by_cases href : ref = id
      · subst href
        refine ⟨l ++ [⟨ref, (answers d.1).accepted, h⟩], ?_⟩
        rw [hw, admitTo, Function.update_self, ha, List.foldl_append]
        rfl
      · refine ⟨l, ?_⟩
        rw [hw, admitTo, Function.update_of_ne (Ne.symm href), ha]
  · exact ⟨l, ha⟩

theorem size_foldl_push {p : Pass H} {id : ℕ} {a : Acceptor H} {l : List (Admission H)}
    (ha : p.world.acceptors id = some (l.foldl Acceptor.push a)) :
    p.size id = a.tcpSessions.length + l.length := by
  simp [Pass.size, ha, foldl_push]

/-- Where the loop stops there is nothing left to call. -/
theorem calls_over {id i : ℕ} {a : Acceptor H} {answers : ℕ → Answer} {p : Pass H}
    {l : List (Admission H)} (ha : p.world.acceptors id = some (l.foldl Acceptor.push a))
    (hover : p.goesOn id i = false) :
    (dueFrom i (a.clientPollFdSet.drop i) (a.tcpSessions.drop i)).foldl (Pass.call answers) p =
      p := by
  by_cases hopen : p.outcome = .running ∧ 0 < p.readyCount
  · have hi : p.size id ≤ i := by
      simp only [Pass.goesOn, hopen, decide_true, Bool.true_and, decide_eq_false_iff_not] at hover
      exact not_lt.mp hover
    rw [size_foldl_push ha] at hi
    have hnone : a.tcpSessions.drop i = [] := List.drop_eq_nil_of_le (by omega)
    rw [hnone, dueFrom_nil]
    rfl
  · exact call_stopped hopen _

/-- The loop from index `i` on. -/
theorem loop_calls {id : ℕ} {a : Acceptor H} (answers : ℕ → Answer)
    (hlen : a.clientPollFdSet.length = a.tcpSessions.length) (fuel i : ℕ) (p : Pass H)
    (l : List (Admission H)) (ha : p.world.acceptors id = some (l.foldl Acceptor.push a))
    (hfuel : remaining id i p ≤ fuel) :
    (loop (Pass.goesOn id) (Pass.handleEvent id answers) fuel i p).2 =
      (dueFrom i (a.clientPollFdSet.drop i) (a.tcpSessions.drop i)).foldl (Pass.call answers) p := by
  induction fuel generalizing i p l with
  | zero =>
    have hover : p.goesOn id i = false := by
      cases hgo : p.goesOn id i with
      | false => rfl
      | true => have := remaining_lt id i answers p hgo; omega
    rw [loop_done hover, calls_over ha hover]
  | succ fuel ih =>
    cases hgo : p.goesOn id i with
    | false => rw [loop_done hgo, calls_over ha hgo]
    | true =>
      have hlt := remaining_lt id i answers p hgo
      rw [loop_step hgo]
      simp only [Pass.goesOn, Bool.and_eq_true, decide_eq_true_eq] at hgo
      obtain ⟨hopen, hi⟩ := hgo
      have hpushed : i < (l.foldl Acceptor.push a).tcpSessions.length := by
        simpa [foldl_push, size_foldl_push ha] using hi
      obtain ⟨entry, session, he, hs, hold⟩ := getElem?_foldl_push hlen l hpushed
      have hevent : p.handleEvent id answers i = _ := handleEvent_eq ha he hs
      rcases lt_or_ge i a.tcpSessions.length with hold' | hnew
      · -- an entry that poll saw
        rw [foldl_push] at he hs
        rw [List.getElem?_append_left (by omega)] at he hs
        obtain ⟨hie, rfl⟩ := List.getElem?_eq_some_iff.mp he
        obtain ⟨his, rfl⟩ := List.getElem?_eq_some_iff.mp hs
        rw [List.drop_eq_getElem_cons hie, List.drop_eq_getElem_cons his, dueFrom_cons]
        split
        · rename_i hready
          have hcall : p.handleEvent id answers i =
              Pass.call answers p (i, a.tcpSessions[i]) := by
            rw [hevent, if_pos hready, Pass.call, if_pos hopen]
          obtain ⟨l', ha'⟩ := exists_push_call answers ha (i, a.tcpSessions[i])
          rw [List.foldl_cons, ← hcall]
          exact ih (i + 1) _ l' (hcall ▸ ha') (by omega)
        · rename_i hidle
          rw [if_neg hidle] at hevent
          rw [hevent] at hlt ⊢
          exact ih (i + 1) p l ha (by omega)
      · -- an entry appended in this pass
        have hzero : entry.revents = 0 := by
          rcases hold with ⟨_, hs'⟩ | hzero
          · exact absurd (List.getElem?_eq_some_iff.mp hs').1 (by omega)
          · exact hzero
        have hidle : entry.revents ≠ pollRdNorm := by rw [hzero]; decide
        rw [if_neg hidle] at hevent
        rw [hevent] at hlt ⊢
        have hnone : a.tcpSessions.drop i = [] := List.drop_eq_nil_of_le hnew
        have hnext : a.tcpSessions.drop (i + 1) = [] := List.drop_eq_nil_of_le (by omega)
        rw [ih (i + 1) p l ha (by omega), hnone, hnext, dueFrom_nil, dueFrom_nil]

/-- SIMULATION: a pass makes the calls that are due, and nothing else. -/
theorem handleClientsSocket_eq {w : World H} {id : ℕ} {a : Acceptor H}
    (ha : w.acceptors id = some a) (hlen : a.clientPollFdSet.length = a.tcpSessions.length)
    (readyCount : ℤ) (answers : ℕ → Answer) :
    w.handleClientsSocket id readyCount answers =
      a.due.foldl (Pass.call answers) (w.begin readyCount) := by
  have hbegin : (w.begin readyCount).world.acceptors id =
      some (([] : List (Admission H)).foldl Acceptor.push a) := ha
  have hloop := loop_calls answers hlen
    ((w.begin readyCount).size id + readyCount.toNat) 0 _ [] hbegin
    (by simp [remaining, World.begin])
  rw [List.drop_zero, List.drop_zero] at hloop
  exact hloop

/-- The calls that were made: those of a first part of the list. -/
theorem calls_dispatched (answers : ℕ → Answer) (ds : List (ℕ × TcpSession H)) (p : Pass H) :
    ∃ made, made <+: ds ∧ (ds.foldl (Pass.call answers) p).dispatched =
      p.dispatched ++ made.map fun d => (d.1, d.2.socket) := by
  induction ds generalizing p with
  | nil => exact ⟨[], List.prefix_rfl, by simp⟩
  | cons d ds ih =>
    by_cases hopen : p.outcome = .running ∧ 0 < p.readyCount
    · obtain ⟨made, hfront, hmade⟩ := ih (Pass.call answers p d)
      refine ⟨d :: made, (List.prefix_cons_inj d).mpr hfront, ?_⟩
      rw [List.foldl_cons, hmade, Pass.call, if_pos hopen, List.append_assoc]
      rfl
    · refine ⟨[], List.nil_prefix, ?_⟩
      rw [call_stopped hopen]
      simp

/-- With enough on the count, calls that end without an exception have all been made. -/
theorem calls_running {answers : ℕ → Answer} {ds : List (ℕ × TcpSession H)} {p : Pass H}
    (hcount : (ds.length : ℤ) ≤ p.readyCount)
    (hend : (ds.foldl (Pass.call answers) p).outcome = .running) :
    (ds.foldl (Pass.call answers) p).dispatched =
        p.dispatched ++ ds.map (fun d => (d.1, d.2.socket)) ∧
      (ds.foldl (Pass.call answers) p).readyCount = p.readyCount - ds.length := by
  induction ds generalizing p with
  | nil => simp
  | cons d ds ih =>
    have hrun : p.outcome = .running := by
      by_contra hne
      rw [call_stopped fun hopen => hne hopen.1] at hend
      exact hne hend
    rw [List.length_cons] at hcount ⊢
    push_cast at hcount ⊢
    rw [List.foldl_cons] at hend ⊢
    have hopen : p.outcome = .running ∧ 0 < p.readyCount := ⟨hrun, by omega⟩
    have hcalled : (p.world.invoke d.2 (answers d.1)).2.2 = .running := by
      by_contra hne
      rw [call_stopped (call_thrown hopen hne), Pass.call, if_pos hopen] at hend
      exact hne hend
    have hleft := (call_back hopen hcalled).2
    obtain ⟨hd, hc⟩ := ih (p := Pass.call answers p d) (by omega) hend
    refine ⟨?_, by omega⟩
    rw [hd, Pass.call, if_pos hopen, List.append_assoc]
    rfl

/-- With enough on the count, the calls end without an exception exactly when no handler throws in
    the world the handlers before it leave. -/
theorem calls_running_iff {answers : ℕ → Answer} {ds : List (ℕ × TcpSession H)} {p : Pass H}
    (hrun : p.outcome = .running) (hcount : (ds.length : ℤ) ≤ p.readyCount) :
    (ds.foldl (Pass.call answers) p).outcome = .running ↔
      ∀ pre d post, ds = pre ++ d :: post →
        ((p.world.after answers pre).invoke d.2 (answers d.1)).2.2 = .running := by
  induction ds generalizing p with
  | nil => simp [hrun]
  | cons d ds ih =>
    rw [List.length_cons] at hcount
    push_cast at hcount
    have hopen : p.outcome = .running ∧ 0 < p.readyCount := ⟨hrun, by omega⟩
    rw [List.foldl_cons]
    by_cases hcalled : (p.world.invoke d.2 (answers d.1)).2.2 = .running
    · have hgoes := call_back hopen hcalled
      have hworld : (Pass.call answers p d).world = (p.world.invoke d.2 (answers d.1)).1 := by
        rw [Pass.call, if_pos hopen]
      rw [ih hgoes.1 (by omega), hworld]
      constructor
      · rintro hrest (_ | ⟨e, pre⟩) d' post hsplit
        · obtain ⟨rfl, _⟩ := List.cons.inj hsplit
          exact hcalled
        · obtain ⟨rfl, hlater⟩ := List.cons.inj hsplit
          exact hrest pre d' post hlater
      · intro hall pre d' post hsplit
        exact hall (d :: pre) d' post (by rw [hsplit]; rfl)
    · rw [call_stopped (call_thrown hopen hcalled), Pass.call, if_pos hopen]
      refine iff_of_false hcalled ?_
      intro hall
      exact hcalled (hall [] d ds rfl)

/-- Nobody due is missed exactly when none but the last call throws. -/
theorem calls_complete (answers : ℕ → Answer) {ds : List (ℕ × TcpSession H)} {p : Pass H}
    (hrun : p.outcome = .running) (hfresh : p.dispatched = [])
    (hcount : (ds.length : ℤ) ≤ p.readyCount) (hnodup : (ds.map Prod.fst).Nodup) :
    (∀ d ∈ ds, ∃ e ∈ (ds.foldl (Pass.call answers) p).dispatched, e.1 = d.1) ↔
      (ds.dropLast.foldl (Pass.call answers) p).outcome = .running := by
  rcases List.eq_nil_or_concat ds with rfl | ⟨front, last, rfl⟩
  · simp [hrun]
  rw [List.concat_eq_append] at *
  rw [List.length_append, List.length_singleton] at hcount
  push_cast at hcount
  rw [List.dropLast_concat, List.foldl_append, List.foldl_cons, List.foldl_nil]
  constructor
  · intro hall
    by_contra hne
    obtain ⟨e, he, hlast⟩ := hall last (by simp)
    obtain ⟨made, hfront, hmade⟩ := calls_dispatched answers front p
    have hstopped : Pass.call answers (front.foldl (Pass.call answers) p) last =
        front.foldl (Pass.call answers) p := by
      rw [Pass.call, if_neg fun hopen => hne hopen.1]
    rw [hstopped, hmade, hfresh, List.nil_append] at he
    obtain ⟨d, hd, rfl⟩ := List.mem_map.mp he
    rw [List.map_append, List.nodup_append] at hnodup
    exact hnodup.2.2 d.1 (List.mem_map_of_mem (hfront.subset hd)) last.1 (by simp) hlast
  · intro hend
    obtain ⟨hd, hc⟩ := calls_running (by omega) hend
    have hopen : (front.foldl (Pass.call answers) p).outcome = .running ∧
        0 < (front.foldl (Pass.call answers) p).readyCount := ⟨hend, by omega⟩
    intro d hmem
    refine ⟨(d.1, d.2.socket), ?_, rfl⟩
    rw [Pass.call, if_pos hopen, hd]
    rcases List.mem_append.mp hmem with hmem | hmem
    · exact List.mem_append_left _ (List.mem_append_right _ (List.mem_map.mpr ⟨d, hmem, rfl⟩))
    · rw [List.mem_singleton.mp hmem]
      exact List.mem_append_right _ (List.mem_singleton_self _)

/-! ### A pass after poll -/

/-- What poll returns: the number of entries with something in `revents`. -/
def Acceptor.Reports (a : Acceptor H) (p : PollAnswer) : Prop :=
  p.result = (report a.clientPollFdSet p.revents).countP (·.revents ≠ 0)

instance (a : Acceptor H) (p : PollAnswer) : Decidable (a.Reports p) :=
  inferInstanceAs (Decidable (_ = _))

theorem mem_due_polled {a : Acceptor H} (hal : a.Aligned) {p : PollAnswer}
    {d : ℕ × TcpSession H} : d ∈ (a.polled p.revents).due ↔
      a.tcpSessions[d.1]? = some d.2 ∧ p.revents d.1 = pollRdNorm := by
  have hlen := hal.parallel.length
  rw [Acceptor.due, mem_dueFrom]
  simp only [Acceptor.polled, report_getElem?, Nat.zero_add]
  constructor
  · rintro ⟨k, rfl, hs, entry, he, hready⟩
    obtain ⟨e, _, rfl⟩ := Option.map_eq_some_iff.mp he
    exact ⟨hs, hready⟩
  · rintro ⟨hs, hready⟩
    have hk := (List.getElem?_eq_some_iff.mp hs).1
    refine ⟨d.1, rfl, hs, { a.clientPollFdSet[d.1] with revents := p.revents d.1 }, ?_, hready⟩
    rw [List.getElem?_eq_getElem (by omega)]
    rfl

/-- A pass once poll has returned a count. -/
theorem World.pass_eq {w : World H} {id : ℕ} {a : Acceptor H} {p : PollAnswer}
    (ha : w.acceptors id = some a) (hal : a.Aligned) (hresult : 0 ≤ p.result) :
    w.pass id p =
      (a.polled p.revents).due.foldl (Pass.call p.answers)
        ((w.poll id p.revents).begin p.result) := by
  have ha' : (w.poll id p.revents).acceptors id = some (a.polled p.revents) := by
    simp [World.poll_acceptors, ha]
  rw [World.pass, if_neg (not_lt.mpr hresult)]
  exact handleClientsSocket_eq ha' (hal.polled p.revents).parallel.length p.result p.answers

theorem length_due_polled {a : Acceptor H} (hal : a.Aligned) (p : PollAnswer) :
    (a.polled p.revents).due.length =
      (report a.clientPollFdSet p.revents).countP (·.revents = pollRdNorm) :=
  length_dueFrom (hal.polled p.revents).parallel.length 0

/-- What is due is part of what poll counted. -/
theorem length_due_le {a : Acceptor H} (hal : a.Aligned) {p : PollAnswer} (hp : a.Reports p) :
    ((a.polled p.revents).due.length : ℤ) ≤ p.result := by
  rw [length_due_polled hal p, hp, Int.ofNat_le]
  refine List.countP_mono_left ?_
  intro entry _ hready
  rw [decide_eq_true_eq] at hready
  simp [hready, pollRdNorm]

theorem Acceptor.Reports.nonneg {a : Acceptor H} {p : PollAnswer} (hp : a.Reports p) :
    0 ≤ p.result := hp ▸ Int.natCast_nonneg _

/-- Only what is due is dispatched. -/
theorem World.dispatched_due {w : World H} {id : ℕ} {a : Acceptor H} {p : PollAnswer}
    (ha : w.acceptors id = some a) (hal : a.Aligned) (hresult : 0 ≤ p.result) {e : ℕ × Socket}
    (he : e ∈ (w.pass id p).dispatched) : ∃ session, a.tcpSessions[e.1]? = some session ∧
      e.2 = session.socket ∧ p.revents e.1 = pollRdNorm := by
  obtain ⟨made, hfront, hmade⟩ := calls_dispatched p.answers (a.polled p.revents).due
    ((w.poll id p.revents).begin p.result)
  rw [World.pass_eq ha hal hresult, hmade] at he
  obtain ⟨d, hd, rfl⟩ := List.mem_map.mp he
  obtain ⟨hs, hready⟩ := (mem_due_polled hal).mp (hfront.subset hd)
  exact ⟨d.2, hs, rfl, hready⟩

end UnixIpc.Engine
