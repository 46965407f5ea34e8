import UnixIpc.Engine.Calls

/-! Move assignment of acceptors. It moves the members over and renews `listenerHandler_`, but not
    the copy of it inside session 0, and it drops the old sessions without closing them.

        a                           b                    a = std::move(b)
        session 0 ──▶ a's vectors   session 0 ──▶ b's    session 0 ──▶ b's vectors (now empty)

    `moveAssign_iff` says when the result is still what was meant: the handler that came over already
    referred to `a`, and `a` had nothing open to lose. -/

namespace UnixIpc.Engine
open UnixIpc.Descriptors UnixIpc.IndexLoop UnixIpc.Run

variable {H : Type}

/-- The descriptors an acceptor holds. -/
def Acceptor.held (a : Acceptor H) : List ℤ :=
  a.listenerSocket.fd :: a.tcpSessions.map (·.socket.fd)

/-- Every listener session appends to the acceptor at `id`. -/
def Acceptor.BoundTo (id : ℕ) (a : Acceptor H) : Prop :=
  ∀ session ∈ a.tcpSessions, session.socket.type = .listener →
    ∀ ref target, session.requestHandler = .listener ref target → ref = id

/-- The event neither moves nor destroys the object at `id`. -/
def Event.Spares (id : ℕ) : Event H → Prop
  | .construct .. | .pass .. => True
  | .moveConstruct _ other => other ≠ id
  | .moveAssign id' other => id' ≠ id ∧ other ≠ id
  | .destroy id' => id' ≠ id

/-- Every connection accepted through the object at `id`, in any pass as long as it is there, is
    appended to its own vectors and to no other acceptor's. -/
def World.AcceptsForItself (w : World H) (id : ℕ) : Prop :=
  ∀ (later : List (Event H)) (w' : World H), (∀ e ∈ later, e.Spares id) → w.run later = some w' →
    ∀ p : PollAnswer, (w'.pass id p).outcome ≠ .undefined ∧
      ∀ x ∈ (w'.pass id p).admitted, x.acceptor = id

/-! ### What any pass keeps -/

/-- A pass does nothing to an acceptor but write revents and append connections. -/
theorem World.pass_grows {w : World H} {id : ℕ} {a : Acceptor H} (ha : w.acceptors id = some a)
    (hal : a.Aligned) (p : PollAnswer) : ∃ f : ℕ → Acceptor H → Acceptor H,
      (∀ id', (w.pass id p).world.acceptors id' = (w.acceptors id').map (f id')) ∧
      ∀ Q : Acceptor H → Prop, (∀ a revents, Q a → Q (a.polled revents)) →
        (∀ a x, Q a → Q (a.push x)) → ∀ id' a, Q a → Q (f id' a) := by
  rw [World.pass]
  split
  · exact ⟨fun _ a => a, fun id' => by simp, fun _ _ _ _ _ h => h⟩
  have ha' : (w.poll id p.revents).acceptors id = some (a.polled p.revents) := by
    simp [World.poll_acceptors, ha]
  have hlen : (a.polled p.revents).clientPollFdSet.length = (a.polled p.revents).tcpSessions.length :=
    (hal.polled p.revents).parallel.length
  obtain ⟨i, hsweep⟩ := sweep_handleClientsSocket ha' hlen p.result p.answers
  generalize (w.poll id p.revents).handleClientsSocket id p.result p.answers = r at hsweep
  refine ⟨fun id' a => (r.admitted.filter (·.acceptor = id')).foldl Acceptor.push
    (if id' = id then a.polled p.revents else a), fun id' => ?_, fun Q hpoll hpush id' a hQ => ?_⟩
  · rw [hsweep.acceptors, foldl_admitTo, World.poll_acceptors]
    by_cases hid : id' = id
    · subst hid
      simp [Option.map_map, Function.comp_def]
    · simp [hid]
  · refine foldl_inv (fun a x h => hpush a x h) _ _ ?_
    split
    · exact hpoll a _ hQ
    · exact hQ

theorem World.All.pass {Q : Acceptor H → Prop} {w : World H} (h : w.All fun _ => Q) {id : ℕ}
    {a : Acceptor H} (ha : w.acceptors id = some a) (hal : a.Aligned)
    (hpoll : ∀ a revents, Q a → Q (a.polled revents)) (hpush : ∀ a x, Q a → Q (a.push x))
    (p : PollAnswer) : (w.pass id p).world.All fun _ => Q := by
  obtain ⟨f, hf, hkeep⟩ := World.pass_grows ha hal p
  intro id' b hb
  rw [hf, Option.map_eq_some_iff] at hb
  obtain ⟨b0, hb0, rfl⟩ := hb
  exact hkeep Q hpoll hpush id' b0 (h id' b0 hb0)

theorem Acceptor.Aligned.moveConstruct {id : ℕ} {o a : Acceptor H} (h : o.Aligned)
    (hm : Acceptor.moveConstruct id o = some a) : a.Aligned := by
  obtain ⟨session, rest, hs, rfl⟩ := moveConstruct_cases hm
  simpa [Acceptor.Aligned, Acceptor.taken, hs] using h

/-- The vectors stay in step through every event, move assignment included. -/
theorem World.aligned_step {w w' : World H} (h : w.All fun _ => Acceptor.Aligned) {e : Event H}
    (hstep : w.step e = some w') : w'.All fun _ => Acceptor.Aligned :=
  h.step (fun _ _ _ => rfl) (fun _ _ => rfl) (fun _ _ _ _ ho hm => ho.moveConstruct hm)
    (fun _ _ _ _ ho => ho)
    (fun id a p ha =>
      h.pass ha (h id a ha) (fun _ r hal => hal.polled r) (fun _ x hal => hal.push x) p)
    hstep

/-! ### A bound acceptor stays bound -/

theorem Acceptor.BoundTo.push {id : ℕ} {a : Acceptor H} (h : a.BoundTo id) (x : Admission H) :
    (a.push x).BoundTo id := by
  intro session hmem ht ref target hl
  rcases List.mem_append.mp hmem with hmem | hmem
  · exact h session hmem ht ref target hl
  · rw [List.mem_singleton.mp hmem] at hl
    exact absurd hl (by simp)

/-- An event that spares the object at `id` leaves it there and bound. -/
theorem World.bound_step {w w' : World H} {id : ℕ} {a : Acceptor H} {e : Event H}
    (hal : w.All fun _ => Acceptor.Aligned) (ha : w.acceptors id = some a) (hb : a.BoundTo id)
    (he : e.Spares id) (hstep : w.step e = some w') :
    ∃ a', w'.acceptors id = some a' ∧ a'.BoundTo id := by
  cases World.step_cases hstep with
  | @construct id' _ _ hfree =>
    have hne : id ≠ id' := by rintro rfl; simp [ha] at hfree
    exact ⟨a, by simpa [World.put, hne] using ha, hb⟩
  | @moveConstruct id' _ _ _ hfree =>
    have hne : id ≠ id' := by rintro rfl; simp [ha] at hfree
    exact ⟨a, by simpa [World.put, hne, Ne.symm he] using ha, hb⟩
  | moveAssign =>
    exact ⟨a, by simpa [World.put, Ne.symm he.1, Ne.symm he.2] using ha, hb⟩
  | destroy =>
    exact ⟨a, by simpa [World.put, Ne.symm he] using ha, hb⟩
  | @pass id' b p hb' =>
    obtain ⟨f, hf, hkeep⟩ := World.pass_grows hb' (hal id' b hb') p
    refine ⟨f id a, by rw [hf, ha]; rfl, ?_⟩
    exact hkeep (·.BoundTo id) (fun _ _ h => h) (fun _ x h => h.push x) id a hb

/-- A pass over a bound acceptor admits to it alone. -/
theorem World.bound_pass {w : World H} {id : ℕ} {a : Acceptor H} (ha : w.acceptors id = some a)
    (hal : a.Aligned) (hb : a.BoundTo id) (p : PollAnswer) :
    (w.pass id p).outcome ≠ .undefined ∧ ∀ x ∈ (w.pass id p).admitted, x.acceptor = id := by
  rw [World.pass]
  split
  · exact ⟨by simp, by simp⟩
  have ha' : (w.poll id p.revents).acceptors id = some (a.polled p.revents) := by
    simp [World.poll_acceptors, ha]
  obtain ⟨i, hsweep⟩ := sweep_handleClientsSocket ha' (hal.polled p.revents).parallel.length
    p.result p.answers
  refine ⟨?_, ?_⟩
  · intro hu
    obtain ⟨session, hmem, ref, target, hl, ht, hdead⟩ := hsweep.undefined hu
    obtain rfl := hb session hmem ht ref target hl
    rw [ha'] at hdead
    exact absurd hdead (by simp)
  · intro x hx
    obtain ⟨j, session, hj, hl, ht, _⟩ := hsweep.admitted x hx
    exact hb session (List.mem_of_getElem? hj) ht _ _ hl

/-- The vectors are in step everywhere, and the acceptor at `id` is there and bound. -/
def World.Bound (id : ℕ) (w : World H) : Prop :=
  (w.All fun _ => Acceptor.Aligned) ∧ ∃ a, w.acceptors id = some a ∧ a.BoundTo id

theorem World.Bound.step {id : ℕ} {w w' : World H} {e : Event H} (h : w.Bound id)
    (he : e.Spares id) (hstep : w.step e = some w') : w'.Bound id := by
  obtain ⟨hal, a, ha, hb⟩ := h
  exact ⟨World.aligned_step hal hstep, World.bound_step hal ha hb he hstep⟩

theorem World.Bound.acceptsForItself {id : ℕ} {w : World H} (h : w.Bound id) :
    w.AcceptsForItself id := by
  intro later w' hspare hrun p
  obtain ⟨hal, a, ha, hb⟩ : w'.Bound id :=
    foldlM_inv (fun _ _ _ hs he hstep => hs.step he hstep) later w w' h hspare hrun
  exact World.bound_pass ha (hal id a ha) hb p

/-! ### A handler bound elsewhere shows at the first connection -/

/-- A pass in which only entry `j` is ready calls that session's handler and ends. -/
theorem handleClientsSocket_only {w : World H} {id j : ℕ} {a : Acceptor H} {session : TcpSession H}
    (ha : w.acceptors id = some a) (hlen : a.clientPollFdSet.length = a.tcpSessions.length)
    (hready : ∀ (i : ℕ) (entry : PollFd), a.clientPollFdSet[i]? = some entry →
      (entry.revents = pollRdNorm ↔ i = j))
    (hs : a.tcpSessions[j]? = some session) (answers : ℕ → Answer) :
    (w.handleClientsSocket id 1 answers).admitted = (w.invoke session (answers j)).2.1 ∧
      (w.handleClientsSocket id 1 answers).outcome = (w.invoke session (answers j)).2.2 := by
  have hmem : ∀ d, d ∈ a.due ↔ d ∈ [(j, session)] := by
    intro d
    rw [Acceptor.due, mem_dueFrom, List.mem_singleton]
    constructor
    · rintro ⟨k, hk, hsession, entry, he, hrev⟩
      obtain rfl := (hready k entry he).mp hrev
      rw [Nat.zero_add] at hk
      exact Prod.ext hk (Option.some.inj (hsession.symm.trans hs))
    · rintro rfl
      have hj : j < a.clientPollFdSet.length := hlen ▸ (List.getElem?_eq_some_iff.mp hs).1
      have he : a.clientPollFdSet[j]? = some a.clientPollFdSet[j] := List.getElem?_eq_getElem hj
      exact ⟨j, (Nat.zero_add j).symm, hs, _, he, (hready j _ he).mpr rfl⟩
  have hdue : a.due = [(j, session)] := by
    have hnodup : a.due.Nodup := List.Nodup.of_map _ (nodup_dueFrom _ _ 0)
    exact List.perm_singleton.mp
      ((List.perm_ext_iff_of_nodup hnodup (List.nodup_singleton _)).mpr hmem)
  rw [handleClientsSocket_eq ha hlen, hdue, List.foldl_cons, List.foldl_nil, Pass.call]
  exact ⟨rfl, rfl⟩

/-- Only entry `j` is ready. -/
def onlyReady (j : ℕ) : PollAnswer where
  result := 1
  revents := fun i => if i = j then pollRdNorm else 0
  answers := fun _ => ⟨0, some true, false⟩

/-- When that is a listener session, its connection goes where the handler refers, or into a dead
    object. -/
theorem World.pass_onlyReady {w : World H} {id j : ℕ} {a : Acceptor H} {session : TcpSession H}
    {ref : ℕ} {target : Option H} (ha : w.acceptors id = some a) (hal : a.Aligned)
    (hs : a.tcpSessions[j]? = some session) (hl : session.requestHandler = .listener ref target)
    (ht : session.socket.type = .listener) :
    (w.pass id (onlyReady j)).outcome = .undefined ∨
      ⟨ref, 0, target⟩ ∈ (w.pass id (onlyReady j)).admitted := by
  have ha' : (w.poll id (onlyReady j).revents).acceptors id =
      some (a.polled (onlyReady j).revents) := by simp [World.poll_acceptors, ha]
  have hready : ∀ (i : ℕ) (entry : PollFd),
      (a.polled (onlyReady j).revents).clientPollFdSet[i]? = some entry →
      (entry.revents = pollRdNorm ↔ i = j) := by
    intro i entry he
    rw [Acceptor.polled, report_getElem?, Option.map_eq_some_iff] at he
    obtain ⟨e, _, rfl⟩ := he
    by_cases hij : i = j
    · simp [onlyReady, hij]
    · simp only [onlyReady, hij, if_false, iff_false]
      decide
  obtain ⟨hadm, hout⟩ := handleClientsSocket_only ha' (hal.polled _).parallel.length hready hs
    (onlyReady j).answers
  have hpass : w.pass id (onlyReady j) = (w.poll id (onlyReady j).revents).handleClientsSocket id 1
      (onlyReady j).answers := rfl
  have hanswer : (onlyReady j).answers j = ⟨0, some true, false⟩ := rfl
  rw [hpass, hadm, hout, hanswer]
  generalize w.poll id (onlyReady j).revents = w1
  cases hlive : w1.acceptors ref with
  | none =>
    refine Or.inl ?_
    simp [World.invoke, hl, Socket.accept, ht, hlive]
  | some b =>
    refine Or.inr ?_
    simp [World.invoke, hl, Socket.accept, ht, hlive]

theorem World.AcceptsForItself.bound {w : World H} {id : ℕ} {a : Acceptor H}
    (h : w.AcceptsForItself id) (ha : w.acceptors id = some a) (hal : a.Aligned) :
    a.BoundTo id := by
  intro session hmem ht ref target hl
  obtain ⟨j, hj⟩ := List.mem_iff_getElem?.mp hmem
  obtain ⟨hdefined, hown⟩ := h [] w (by simp) rfl (onlyReady j)
  rcases World.pass_onlyReady ha hal hj hl ht with hu | hadm
  · exact absurd hu hdefined
  · exact hown _ hadm

/-! ### The assignment -/

/-- `a = std::move(b)` leaves `a` as it should be: every later connection is its own, and what it
    held before is closed. -/
def World.TakesOver (w' : World H) (a : ℕ) (before : Acceptor H) : Prop :=
  w'.AcceptsForItself a ∧ ∀ fd ∈ before.held, fd ∉ w'.openFds

/-- CORRECT: in any reachable state, move assignment between two live acceptors does what it should
    exactly when every listener session that comes over already refers to the target and nothing the
    target holds is open. -/
theorem World.moveAssign_iff (es : List (Event H)) (w : World H)
    (hrun : World.empty.run es = some w) (a b : ℕ) (x y : Acceptor H) (hab : a ≠ b)
    (ha : w.acceptors a = some x) (hb : w.acceptors b = some y) :
    (∃ w', w.step (.moveAssign a b) = some w' ∧ w'.TakesOver a x) ↔
      y.BoundTo a ∧ ∀ fd ∈ x.held, fd ∉ w.openFds := by
  have hal : w.All fun _ => Acceptor.Aligned :=
    foldlM_inv (C := fun _ => True) (fun _ _ _ h _ hstep => World.aligned_step h hstep) es _ w
      (World.empty_all _) (fun _ _ => trivial) hrun
  obtain ⟨w', hstep⟩ : ∃ w', w.step (.moveAssign a b) = some w' := by
    simp [World.step, ha, hb, hab]
  have hw' : w' = (w.put b (some y.moved)).put a (some (.moveAssign a y)) := by
    simpa [World.step, ha, hb, hab] using hstep.symm
  have ha' : w'.acceptors a = some (.moveAssign a y) := by simp [hw', World.put]
  have hfds : w'.openFds = w.openFds := by rw [hw']; rfl
  have hal' := World.aligned_step hal hstep
  constructor
  · rintro ⟨w'', hstep'', haccepts, hclosed⟩
    obtain rfl : w'' = w' := by rw [hstep] at hstep''; exact (Option.some.inj hstep'').symm
    have hbound : (Acceptor.moveAssign a y).BoundTo a := haccepts.bound ha' (hal' a _ ha')
    exact ⟨hbound, fun fd hfd => hfds ▸ hclosed fd hfd⟩
  · rintro ⟨hbound, hclosed⟩
    refine ⟨w', hstep, World.Bound.acceptsForItself ⟨hal', _, ha', hbound⟩, ?_⟩
    intro fd hfd
    rw [hfds]
    exact hclosed fd hfd

/-- Two acceptors as their constructors make them. -/
def twoAcceptors : List (Event Unit) :=
  [.construct 0 (listenerAt 3) (), .construct 1 (listenerAt 4) ()]

theorem World.moveAssign_iff_two : ∃ w x y, World.empty.run twoAcceptors = some w ∧
    w.acceptors 0 = some x ∧ w.acceptors 1 = some y ∧
    ((∃ w', w.step (.moveAssign 0 1) = some w' ∧ w'.TakesOver 0 x) ↔
      y.BoundTo 0 ∧ ∀ fd ∈ x.held, fd ∉ w.openFds) :=
  ⟨_, _, _, rfl, rfl, rfl, World.moveAssign_iff twoAcceptors _ rfl 0 1 _ _ (by decide) rfl rfl⟩

/-- Assigned over, acceptor 0 polls a listener whose connections go to acceptor 1, and its own
    listener, descriptor 3, stays open. -/
theorem World.moveAssign_fails : ∃ (w w' : World Unit) (x : Acceptor Unit),
    World.empty.run twoAcceptors = some w ∧ w.acceptors 0 = some x ∧
    w.step (.moveAssign 0 1) = some w' ∧ ¬ w'.AcceptsForItself 0 ∧
    (∃ fd ∈ x.held, fd ∈ w'.openFds) ∧ ¬ w'.TakesOver 0 x := by
  refine ⟨_, _, _, rfl, rfl, rfl, ?_, ⟨3, by decide, by decide⟩, ?_⟩
  · intro h
    have hbound := h.bound rfl rfl
    exact absurd (hbound ⟨⟨4, .listener⟩, .listener 1 (some ())⟩ (List.mem_singleton_self _) rfl 1 _
      rfl) (by decide)
  · intro h
    exact h.2 3 (by decide) (by decide)

end UnixIpc.Engine
