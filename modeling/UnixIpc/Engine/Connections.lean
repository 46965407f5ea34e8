import UnixIpc.Engine.Finished
import UnixIpc.Lib.Links

/-! The sessions of an acceptor as the ends of connections. Session `i` reads what the peer at the
    other end has written; poll reports it only if there is something to read, or nobody to write it;
    and what accept(2) returns is a descriptor that was free.

        tcpSessions    listener │ fd₁ │ fd₂ │ …
        links                     ▲     ▲
                               peer₁  peer₂

    The acceptor closes nothing here, so a connection keeps its descriptor (`Wired`), and a pass calls
    each session at most once (`Tidy.dispatched`). -/

namespace UnixIpc.Engine
open UnixIpc.Descriptors UnixIpc.Links

variable {H : Type}

/-- The connection of session `i`; the listener has none. -/
def Acceptor.link (a : Acceptor H) (links : ℤ → Option (Link UInt8)) (i : ℕ) :
    Option (Link UInt8) :=
  (a.tcpSessions[i]?).bind fun session => links session.socket.fd

/-- The revents of sessions that can be read from. -/
def Acceptor.onLinks (a : Acceptor H) (links : ℤ → Option (Link UInt8)) (revents : ℕ → UInt16) :
    ℕ → UInt16 := fun i =>
  if (a.link links i).all Link.readable then revents i else 0

/-- The result of accept(2) as the kernel answers it. -/
def freeAnswer (openFds : List ℤ) (accepted : ℤ) : ℤ :=
  if accepted < 0 then accepted else freeFd openFds accepted

theorem freeAnswer_fresh {openFds : List ℤ} {accepted : ℤ} (h : 0 ≤ freeAnswer openFds accepted) :
    freeAnswer openFds accepted ∉ openFds := by
  unfold freeAnswer at h ⊢
  split at h
  · omega
  · rename_i hnonneg
    rw [if_neg hnonneg]
    exact freeFd_not_mem _ _

theorem Acceptor.readable_of_onLinks {a : Acceptor H} {links : ℤ → Option (Link UInt8)}
    {revents : ℕ → UInt16} {i : ℕ} (h : a.onLinks links revents i = pollRdNorm) {l : Link UInt8}
    (hl : a.link links i = some l) : l.readable = true := by
  unfold onLinks at h
  rw [hl, Option.all_some] at h
  split at h
  · assumption
  · exact absurd h (by decide)

/-! ### The sessions called in a pass -/

theorem dueFrom_sublist (entries : List PollFd) (sessions : List (TcpSession H)) (i : ℕ) :
    ((dueFrom i entries sessions).map Prod.snd).Sublist sessions := by
  induction entries generalizing sessions i with
  | nil => exact List.nil_sublist _
  | cons entry entries ih =>
    cases sessions with
    | nil => exact List.Sublist.refl _
    | cons session sessions =>
      rw [dueFrom_cons]
      split
      · rw [List.map_cons]
        exact (ih sessions (i + 1)).cons_cons session
      · exact (ih sessions (i + 1)).cons session

section Pass
variable {id : ℕ} {w : World H} {a : Acceptor H} {p : PollAnswer}

/-- They are sessions of the acceptor that were reported, each called once. -/
theorem Acceptor.Aligned.dispatched (hal : a.Aligned) (ha : w.acceptors id = some a) :
    ∃ made : List (ℕ × TcpSession H),
      (w.pass id p).dispatched = made.map (fun d => (d.1, d.2.socket)) ∧
      (made.map Prod.snd).Sublist a.tcpSessions ∧
      ∀ d ∈ made, a.tcpSessions[d.1]? = some d.2 ∧ p.revents d.1 = pollRdNorm := by
  rcases lt_or_ge p.result 0 with hfail | hresult
  · refine ⟨[], ?_, List.nil_sublist _, fun d hd => absurd hd List.not_mem_nil⟩
    rw [World.pass, if_pos hfail]
    rfl
  · obtain ⟨made, hfront, hmade⟩ := calls_dispatched p.answers (a.polled p.revents).due
      ((w.poll id p.revents).begin p.result)
    refine ⟨made, ?_, ?_, fun d hd => (mem_due_polled hal).mp (hfront.subset hd)⟩
    · rw [World.pass_eq ha hal hresult, hmade]
      rfl
    · exact (hfront.sublist.map Prod.snd).trans (dueFrom_sublist _ (a.polled p.revents).tcpSessions 0)

/-- A pass in which no client closes takes in at most one connection, on a descriptor that was
    free. -/
theorem Tidy.taken (h : Tidy id w.openFds a) (ha : w.acceptors id = some a)
    (hcloses : ∀ i, (p.answers i).closes = false)
    (hfree : 0 ≤ (p.answers 0).accepted → (p.answers 0).accepted ∉ w.openFds) :
    ∃ l : List (Admission H), (w.pass id p).admitted = l ∧ (∀ x ∈ l, x.fd ∉ w.openFds) ∧
      (w.pass id p).world.openFds = l.map (·.fd) ++ w.openFds ∧
      ∃ b, (w.pass id p).world.acceptors id = some b ∧ Tidy id (w.pass id p).world.openFds b ∧
        b.tcpSessions = a.tcpSessions ++ l.map fun x => ⟨⟨x.fd, .usual⟩, .client x.handler⟩ := by
  obtain ⟨l, polled, hl, hpolled, hpass, hadmitted⟩ :=
    h.sound.pass_spec ha (p := p) fun d _ _ _ => hcloses d.1
  obtain ⟨b, hb, hbtidy, hbhandler, hbsessions⟩ : ∃ b, polled.acceptors id = some b ∧
      Tidy id w.openFds b ∧ b.clientRequestHandler = a.clientRequestHandler ∧
      b.tcpSessions = a.tcpSessions := by
    rcases hpolled with rfl | rfl
    · exact ⟨a, ha, h, rfl, rfl⟩
    · exact ⟨a.polled p.revents, by simp [World.poll_acceptors, ha], h.polled _, rfl, rfl⟩
  refine ⟨l, hadmitted, ?_, ?_⟩
  · rcases hl with rfl | ⟨rfl, hnonneg, _⟩
    · exact fun x hx => absurd hx List.not_mem_nil
    · intro x hx
      rw [List.mem_singleton.mp hx]
      exact hfree hnonneg
  · rw [hpass]
    refine ⟨rfl, ?_⟩
    rcases hl with rfl | ⟨rfl, hnonneg, _⟩
    · exact ⟨b, hb, hbtidy, by rw [hbsessions, List.map_nil, List.append_nil]⟩
    · refine ⟨_, by simp [admitTo, hb], hbtidy.push (hfree hnonneg) hbhandler.symm, ?_⟩
      rw [Acceptor.push, hbsessions]
      rfl

end Pass

/-! ### Connections keep their descriptors -/

/-- INVARIANT: every session but the listener is the end of a connection, and connections have open
    descriptors. -/
structure Wired (openFds : List ℤ) (a : Acceptor H) (links : ℤ → Option (Link UInt8)) : Prop where
  linked : ∀ i session, 0 < i → a.tcpSessions[i]? = some session →
    ∃ l, links session.socket.fd = some l
  known : ∀ fd l, links fd = some l → fd ∈ openFds

section Wired
variable {openFds : List ℤ} {a b : Acceptor H} {links : ℤ → Option (Link UInt8)}

theorem wired_none (h : a.tcpSessions.length ≤ 1) : Wired openFds a fun _ => none where
  linked i session hpos hs := by
    have hlt := (List.getElem?_eq_some_iff.mp hs).1
    omega
  known _ _ hl := absurd hl (Option.some_ne_none _).symm

theorem Wired.modify (h : Wired openFds a links) (fd : ℤ) (f : Link UInt8 → Link UInt8) :
    Wired openFds a (Links.modify links fd f) where
  linked i session hpos hs := exists_modify fd f (h.linked i session hpos hs)
  known other l hl := by
    obtain ⟨old, hold, _⟩ := modify_cases hl
    exact h.known other old hold

/-- A descriptor that was free has no connection yet. -/
theorem Wired.fresh (h : Wired openFds a links) {l : List (Admission H)}
    (hnew : ∀ x ∈ l, x.fd ∉ openFds) : ∀ fd ∈ l.map (·.fd), links fd = none := by
  intro fd hfd
  obtain ⟨x, hx, rfl⟩ := List.mem_map.mp hfd
  by_contra hsome
  obtain ⟨old, hold⟩ := Option.ne_none_iff_exists'.mp hsome
  exact hnew x hx (h.known _ old hold)

/-- STEP: sessions are read from, and connections taken in. -/
theorem Wired.turn (h : Wired openFds a links) (reads : List (ℤ × List UInt8))
    {l : List (Admission H)}
    (hsessions : b.tcpSessions = a.tcpSessions ++ l.map fun x => ⟨⟨x.fd, .usual⟩, .client x.handler⟩) :
    Wired (l.map (·.fd) ++ openFds) b (Links.turn links reads (l.map (·.fd))) where
  linked i session hpos hs := by
    rw [hsessions] at hs
    refine exists_turn reads ?_
    rcases lt_or_ge i a.tcpSessions.length with hlt | hge
    · rw [List.getElem?_append_left hlt] at hs
      exact .inl (h.linked i session hpos hs)
    · rw [List.getElem?_append_right hge] at hs
      obtain ⟨x, hx, rfl⟩ := List.mem_map.mp (List.mem_of_getElem? hs)
      exact .inr (List.mem_map_of_mem hx)
  known fd link hlink := by
    rw [List.mem_append]
    rcases turn_cases hlink with ⟨hmem, _⟩ | ⟨old, hold, _⟩
    · exact .inl hmem
    · exact .inr (h.known fd old hold)

end Wired
end UnixIpc.Engine
