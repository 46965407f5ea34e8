import UnixIpc.Fifo.EchoRouting

/-! Sessions of the echo server over whole runs: which descriptors it writes to and closes, and what
    is left of a client after its conversation.

    `descriptors_iff` follows the descriptors through any frames at all, `settled_iff` follows
    complete conversations run one after another. Both break on the same two lines: `Accept` reads
    frames that belong to a session, and `connections` starts with 1024 zeros, so a message read
    there "finds" descriptor 0. -/

namespace UnixIpc.Fifo
open UnixIpc.Bytes UnixIpc.Descriptors

/-- The descriptor a call hands to `WriteTo` or `CloseFile`. -/
def Call.uses : Call → Option ℤ
  | .openFile .. => none
  | .writeTo fd .. => some fd
  | .closeFile fd => some fd

/-- The open client descriptors after a call. -/
def track (fds : List ℤ) : Call → List ℤ
  | .openFile _ (some fd) => fds ++ [fd]
  | .closeFile fd => fds.erase fd
  | _ => fds

/-- The client descriptors opened and not closed since, over a sequence of calls. -/
def openClients (calls : List Call) : List ℤ := calls.foldl track []

/-- Every descriptor used was opened for a client before and not closed since. -/
def Disciplined : List ℤ → List Call → Prop
  | _, [] => True
  | fds, c :: cs => (∀ fd, c.uses = some fd → fd ∈ fds) ∧ Disciplined (track fds c) cs

theorem disciplined_append (cs ds : List Call) (fds : List ℤ) :
    Disciplined fds (cs ++ ds) ↔ Disciplined fds cs ∧ Disciplined (cs.foldl track fds) ds := by
  induction cs generalizing fds with
  | nil => simp [Disciplined]
  | cons c cs ih => simp only [List.cons_append, Disciplined, ih, List.foldl_cons, and_assoc]

namespace Server

/-- The main loop over a sequence of frames, with all calls made. -/
def run : Server → List Read → Server × List Call
  | s, [] => (s, [])
  | s, r :: rs =>
    if s.InLoop then
      ((run (s.step r).1 rs).1, (s.step r).2 ++ (run (s.step r).1 rs).2)
    else (s, [])

theorem run_over {s : Server} (h : ¬ s.InLoop) (rs : List Read) : s.run rs = (s, []) := by
  cases rs with
  | nil => rfl
  | cons r rs => rw [run, if_neg h]

theorem run_cons {s : Server} (h : s.InLoop) (r : Read) (rs : List Read) :
    s.run (r :: rs) = (((s.step r).1.run rs).1, (s.step r).2 ++ ((s.step r).1.run rs).2) := by
  rw [run, if_pos h]

/-! ### Descriptor discipline -/

/-- The type `deserialize` finds in a frame. -/
def frameType (r : Read) : Option Server.PackageType :=
  (Server.deserialize Server.package r.mem r.buffer).map (·.type)

/-- No frame that `Accept` takes is a message with a readable frame behind it. -/
def NoStray : List Read → Prop
  | [] => True
  | [_] => True
  | a :: b :: rest =>
    (frameType a = some .message → frameType b = none) ∧
      (frameType a = some .newConnection → a.openOk = true → a.taken →
        frameType b = some .conectionClose ∨ (frameType b).isSome ∧ b.taken → NoStray rest)

/-- `connections` is the 1024 initial zeros followed by the open client descriptors `fds`. -/
structure Listed (s : Server) (fds : List ℤ) : Prop where
  connections : s.connections = List.replicate 1024 0 ++ fds
  nodup : fds.Nodup
  nonzero : 0 ∉ fds

/-- `connections` is exactly the open client descriptors, without duplicates. -/
def Exact (s : Server) (fds : List ℤ) : Prop :=
  s.connections.Nodup ∧ ∀ fd, fd ∈ s.connections ↔ fd ∈ fds

/-- The server waits in `Accept`, with the client descriptors `fds` open beside 0 and its FIFO. -/
structure Tracks (s : Server) (fds : List ℤ) : Prop extends Ready s, Listed s fds where
  sub : fds ⊆ s.descriptors
  zero : 0 ∈ s.descriptors
  apart : s.serverFd ∉ fds

theorem start_zero (inherited : List ℤ) : 0 ∈ (start inherited).descriptors := by
  rw [start_descriptors, List.mem_cons]
  rcases eq_or_lt_of_le (lowestFree_nonneg inherited) with h | h
  · exact Or.inl h
  · exact Or.inr (mem_of_lt_lowestFree (le_refl 0) h)

theorem start_tracks (inherited : List ℤ) : Tracks (start inherited) [] where
  toReady := start_ready inherited
  connections := by rw [start_connections, List.append_nil]
  nodup := List.nodup_nil
  nonzero := List.not_mem_nil
  sub := List.nil_subset _
  zero := start_zero inherited
  apart := List.not_mem_nil

theorem frameType_eq {s : Server} (h : s.serverFd ∈ s.descriptors) (r : Read) :
    frameType r = (s.decoded r).map (·.type) := by
  rw [frameType, decoded, readFrom_eq h]

theorem lowestFree_ne_zero {s : Server} {fds : List ℤ} (hs : Tracks s fds) :
    lowestFree s.descriptors ≠ 0 :=
  fun h => lowestFree_not_mem s.descriptors (h ▸ hs.zero)

theorem lowestFree_not_tracked {s : Server} {fds : List ℤ} (hs : Tracks s fds) :
    lowestFree s.descriptors ∉ fds :=
  fun h => lowestFree_not_mem s.descriptors (hs.sub h)

/-- Opening a client keeps the list in step with the descriptors, wherever the server goes next. -/
theorem opened_listed {s : Server} {fds : List ℤ} (name : List UInt8) (pc : Pc)
    (hs : Tracks s fds) : Listed (s.opened name pc) (fds ++ [lowestFree s.descriptors]) where
  connections := by rw [opened, hs.connections, List.append_assoc]
  nodup := List.nodup_append.mpr ⟨hs.nodup, List.nodup_singleton _, by
    rintro a ha b hb rfl
    exact lowestFree_not_tracked hs (List.mem_singleton.mp hb ▸ ha)⟩
  nonzero := by
    simp only [List.mem_append, List.mem_singleton, not_or]
    exact ⟨hs.nonzero, (lowestFree_ne_zero hs).symm⟩

theorem opened_tracks {s : Server} {fds : List ℤ} (name : List UInt8) (hs : Tracks s fds) :
    Tracks (s.opened name .accept) (fds ++ [lowestFree s.descriptors]) where
  toReady := opened_ready name hs.toReady
  toListed := opened_listed name .accept hs
  sub := by
    intro fd hfd
    rcases List.mem_append.mp hfd with h | h
    · exact List.mem_cons_of_mem _ (hs.sub h)
    · rw [List.mem_singleton.mp h]; exact List.mem_cons_self ..
  zero := List.mem_cons_of_mem _ hs.zero
  apart := by
    simp only [opened, List.mem_append, List.mem_singleton, not_or]
    exact ⟨hs.apart, fun h => lowestFree_not_mem s.descriptors (h ▸ hs.fifo)⟩

/-- Closing a session leaves every other descriptor open. -/
theorem mem_closed {s : Server} {fd c : ℤ} (h : fd ∈ s.descriptors) (hne : fd ≠ c) :
    fd ∈ (s.closed c).descriptors := by
  obtain ⟨file, hfile, rfl⟩ := List.mem_map.mp h
  exact List.mem_map.mpr ⟨file, List.mem_filter.mpr ⟨hfile, by simpa using hne⟩, rfl⟩

/-- A session that is opened and closed at once leaves the state as it found it. -/
theorem closed_tracks {s : Server} {fds : List ℤ} (name : List UInt8) (pc : Pc)
    (hs : Tracks s fds) :
    Tracks ((s.opened name pc).closed (lowestFree s.descriptors)) fds where
  toReady := closed_ready name pc hs.toReady
  connections := by
    have hnot : lowestFree s.descriptors ∉ List.replicate 1024 0 ++ fds := by
      simp only [List.mem_append, List.mem_replicate, not_or, not_and]
      exact ⟨fun _ => lowestFree_ne_zero hs, lowestFree_not_tracked hs⟩
    rw [closed, opened, hs.connections, List.erase_append_right _ hnot, List.erase_cons_head,
      List.append_nil]
  nodup := hs.nodup
  nonzero := hs.nonzero
  sub := fun fd hfd => mem_closed (List.mem_cons_of_mem _ (hs.sub hfd))
    fun h => lowestFree_not_tracked hs (h ▸ hfd)
  zero := mem_closed (List.mem_cons_of_mem _ hs.zero) (lowestFree_ne_zero hs).symm
  apart := hs.apart

/-- The calls of a served `NewConnection`, and of one that is not greeted. -/
theorem greeting_disciplined {s : Server} (fds : List ℤ) (name : List UInt8)
    (taken : Option File) :
    Disciplined fds [.openFile name (some (lowestFree s.descriptors)),
      .writeTo (lowestFree s.descriptors) successFrame taken] := by
  simp [Disciplined, Call.uses, track]

/-- After a stray message, the next readable frame is written to descriptor 0 or closes it. -/
theorem stray_frame {s : Server} {fds : List ℤ} (hs : Tracks s fds) (b : Read) :
    (frameType b = none ∧ ({ s with pc := .session 0 } : Server).step b =
      ({ s with pc := .undefined }, [])) ∨
    (frameType b ≠ none ∧ ∃ c cs, (({ s with pc := .session 0 } : Server).step b).2 = c :: cs ∧
      c.uses = some 0) := by
  have hty := frameType_eq (s := { s with pc := .session 0 }) hs.fifo b
  have hconn : (0 : ℤ) ∈ s.connections := by
    rw [hs.connections]
    exact List.mem_append_left _ (List.mem_replicate.mpr ⟨by decide, rfl⟩)
  have hout := step_session (s := { s with pc := .session 0 }) (r := b) rfl
  generalize ({ s with pc := .session 0 } : Server).step b = res at hout ⊢
  obtain ⟨s', calls⟩ := res
  simp only at hout ⊢
  cases hout with
  | faulted h => exact Or.inl ⟨by rw [hty, h]; rfl, rfl⟩
  | echoed _ h | echoFailed _ h | ended h | endFailed h =>
    exact Or.inr ⟨by rw [hty, h]; simp, _, _, rfl, rfl⟩
  | ignored _ _ hc => exact absurd hconn hc

/-- The list is untouched by whatever only moves the server on. -/
theorem Listed.withPc {s : Server} {fds : List ℤ} (h : Listed s fds) (pc : Pc) :
    Listed { s with pc := pc } fds := ⟨h.connections, h.nodup, h.nonzero⟩

/-- What `Accept` does with any frame: it opens a session, strays into descriptor 0, or leaves. -/
theorem accept_frame {s : Server} {fds : List ℤ} (hs : Tracks s fds) (a : Read) :
    ((frameType a = some .newConnection ∧ a.openOk = true ∧ a.taken) ∧
      ∃ name, s.step a = (s.opened name (.session (lowestFree s.descriptors)),
        [.openFile name (some (lowestFree s.descriptors)),
         .writeTo (lowestFree s.descriptors) successFrame (some (.fifo name))])) ∨
    (frameType a = some .message ∧ s.step a = ({ s with pc := .session 0 }, [])) ∨
    (¬ (frameType a = some .newConnection ∧ a.openOk = true ∧ a.taken) ∧
      frameType a ≠ some .message ∧ ¬ (s.step a).1.InLoop ∧ Disciplined fds (s.step a).2 ∧
      Listed (s.step a).1 ((s.step a).2.foldl track fds)) := by
  have hty := frameType_eq hs.fifo a
  have hconn : (0 : ℤ) ∈ s.connections := by
    rw [hs.connections]
    exact List.mem_append_left _ (List.mem_replicate.mpr ⟨by decide, rfl⟩)
  have hout := step_accept (r := a) hs.pc
  generalize s.step a = res at hout ⊢
  obtain ⟨s', calls⟩ := res
  simp only at hout ⊢
  cases hout with
  | faulted h => exact Or.inr (Or.inr ⟨by simp [hty, h], by simp [hty, h], id, trivial,
      hs.toListed.withPc _⟩)
  | refused h hp hm =>
    exact Or.inr (Or.inr ⟨by simp [hty, h, hp],
      fun hmsg => hm (by simpa [hty, h] using hmsg) hconn, id, trivial, hs.toListed.withPc _⟩)
  | routed h hp => exact Or.inr (Or.inl ⟨by simp [hty, h, hp], rfl⟩)
  | openFailed h hp ho =>
    exact Or.inr (Or.inr ⟨by simp [ho], by simp [hty, h, hp], id, by simp [Disciplined, Call.uses],
      hs.toListed.withPc _⟩)
  | greetFailed hcut h hp ho hw =>
    exact Or.inr (Or.inr ⟨fun hn => hw hn.2.2, by simp [hty, h, hp], not_inLoop_of_cut hcut,
      greeting_disciplined fds _ _, opened_listed _ _ hs⟩)
  | greeted h hp ho hw => exact Or.inl ⟨⟨by simp [hty, h, hp], ho, hw⟩, _, rfl⟩

/-- What `CreateNewSession` does with any frame, right after the client was opened. -/
theorem session_frame {s : Server} {fds : List ℤ} (hs : Tracks s fds) (name : List UInt8)
    (b : Read) :
    (frameType b = some .conectionClose ∧
      (s.opened name (.session (lowestFree s.descriptors))).step b =
        ((s.opened name (.session (lowestFree s.descriptors))).closed (lowestFree s.descriptors),
          [.closeFile (lowestFree s.descriptors)])) ∨
    (((frameType b).isSome ∧ b.taken) ∧ ∃ file,
      (s.opened name (.session (lowestFree s.descriptors))).step b =
        (s.opened name .accept, [.writeTo (lowestFree s.descriptors) b.buffer (some file)])) ∨
    (¬ (frameType b = some .conectionClose ∨ (frameType b).isSome ∧ b.taken) ∧
      ¬ ((s.opened name (.session (lowestFree s.descriptors))).step b).1.InLoop ∧
      Disciplined (fds ++ [lowestFree s.descriptors])
        ((s.opened name (.session (lowestFree s.descriptors))).step b).2 ∧
      Listed ((s.opened name (.session (lowestFree s.descriptors))).step b).1
        (((s.opened name (.session (lowestFree s.descriptors))).step b).2.foldl track
          (fds ++ [lowestFree s.descriptors]))) := by
  have hfifo : (s.opened name (.session (lowestFree s.descriptors))).serverFd ∈
      (s.opened name (.session (lowestFree s.descriptors))).descriptors :=
    List.mem_cons_of_mem _ hs.fifo
  have hty := frameType_eq hfifo b
  have hread := readFrom_eq hfifo b.buffer
  have hlist := opened_listed name (.session (lowestFree s.descriptors)) hs
  have hpc : (s.opened name (.session (lowestFree s.descriptors))).pc =
      .session (lowestFree s.descriptors) := rfl
  have hout := step_session (r := b) hpc
  generalize (s.opened name (.session (lowestFree s.descriptors))).step b = res at hout ⊢
  obtain ⟨s', calls⟩ := res
  simp only at hout ⊢
  cases hout with
  | faulted h =>
    exact Or.inr (Or.inr ⟨by simp [hty, h], id, trivial, hlist.withPc _⟩)
  | echoed file h hp hf hw =>
    exact Or.inr (Or.inl ⟨⟨by simp [hty, h], hw⟩, file, by rw [hread]; rfl⟩)
  | echoFailed hcut h hp hw =>
    refine Or.inr (Or.inr ⟨?_, not_inLoop_of_cut hcut, by simp [Disciplined, Call.uses],
      hlist.withPc _⟩)
    have hw' := hw.resolve_left (by simp)
    simp [hty, h, hp, hw']
  | ended h hp => exact Or.inl ⟨by simp [hty, h, hp], rfl⟩
  | endFailed _ _ _ ho => exact absurd (List.mem_cons_self ..) ho
  | ignored _ _ hc => exact absurd (List.mem_append_right _ (List.mem_singleton_self _)) hc

/-- The run from the second frame of a pair on, given the rule for the frames behind it. -/
theorem session_run {s : Server} {fds : List ℤ} {rest : List Read} (hs : Tracks s fds)
    (name : List UInt8) (b : Read)
    (ih : ∀ t fds, Tracks t fds → (Disciplined fds (t.run rest).2 ↔ NoStray rest) ∧
      (NoStray rest → Listed (t.run rest).1 ((t.run rest).2.foldl track fds))) :
    (Disciplined (fds ++ [lowestFree s.descriptors])
        ((s.opened name (.session (lowestFree s.descriptors))).run (b :: rest)).2 ↔
      (frameType b = some .conectionClose ∨ (frameType b).isSome ∧ b.taken → NoStray rest)) ∧
    ((frameType b = some .conectionClose ∨ (frameType b).isSome ∧ b.taken → NoStray rest) →
      Listed ((s.opened name (.session (lowestFree s.descriptors))).run (b :: rest)).1
        (((s.opened name (.session (lowestFree s.descriptors))).run (b :: rest)).2.foldl track
          (fds ++ [lowestFree s.descriptors]))) := by
  have hloop : (s.opened name (.session (lowestFree s.descriptors))).InLoop := trivial
  rw [run_cons hloop, disciplined_append, List.foldl_append]
  rcases session_frame hs name b with ⟨hend, hstep⟩ | ⟨hread, file, hstep⟩ |
    ⟨hnot, hover, hdisc, hlist⟩
  · have hgo := ih _ _ (closed_tracks name (.session (lowestFree s.descriptors)) hs)
    have herase : (fds ++ [lowestFree s.descriptors]).erase (lowestFree s.descriptors) = fds := by
      rw [List.erase_append_right _ (lowestFree_not_tracked hs), List.erase_cons_head,
        List.append_nil]
    rw [hstep]
    simp only [List.foldl_cons, List.foldl_nil, track, herase, hgo.1]
    exact ⟨by simp [Disciplined, Call.uses, hend], fun h => hgo.2 (h (Or.inl hend))⟩
  · have hgo := ih _ _ (opened_tracks name hs)
    rw [hstep]
    simp only [List.foldl_cons, List.foldl_nil, track, hgo.1]
    exact ⟨by simp [Disciplined, Call.uses, hread], fun h => hgo.2 (h (Or.inr hread))⟩
  · rw [run_over hover]
    exact ⟨⟨fun _ h => absurd h hnot, fun _ => ⟨hdisc, trivial⟩⟩, fun _ => hlist⟩

/-- The run over any frames, from any state in step with its descriptors. -/
theorem tracked_run : ∀ (rs : List Read) (s : Server) (fds : List ℤ), Tracks s fds →
    (Disciplined fds (s.run rs).2 ↔ NoStray rs) ∧
      (NoStray rs → Listed (s.run rs).1 ((s.run rs).2.foldl track fds))
  | [], s, fds, hs => ⟨by simp [run, Disciplined, NoStray], fun _ => hs.toListed⟩
  | [a], s, fds, hs => by
    have hloop : s.InLoop := by simp [InLoop, hs.pc]
    rw [run_cons hloop]
    simp only [run, List.append_nil, NoStray, iff_true, forall_const]
    rcases accept_frame hs a with ⟨_, name, hstep⟩ | ⟨_, hstep⟩ | ⟨_, _, _, hdisc, hlist⟩
    · rw [hstep]; exact ⟨greeting_disciplined fds _ _, opened_listed _ _ hs⟩
    · rw [hstep]; exact ⟨trivial, hs.toListed.withPc _⟩
    · exact ⟨hdisc, hlist⟩
  | a :: b :: rest, s, fds, hs => by
    have hloop : s.InLoop := by simp [InLoop, hs.pc]
    rw [run_cons hloop, NoStray]
    rcases accept_frame hs a with ⟨⟨hnew, ho, hw⟩, name, hstep⟩ | ⟨hmsg, hstep⟩ |
      ⟨hnot, hmsg, hover, hdisc, hlist⟩
    · have hgo := session_run hs name b (tracked_run rest)
      have hdisc := greeting_disciplined (s := s) fds name (some (.fifo name))
      rw [hstep, disciplined_append, List.foldl_append]
      simp only [hdisc, true_and, List.foldl_cons, List.foldl_nil, track, hgo.1, hnew, ho, hw,
        forall_const, Option.some.injEq, reduceCtorEq, false_implies]
      exact hgo.2
    · have hloop' : ({ s with pc := .session 0 } : Server).InLoop := trivial
      rw [hstep, run_cons hloop', List.nil_append]
      have hnew : frameType a ≠ some .newConnection := by simp [hmsg]
      rcases stray_frame hs b with ⟨hb, hstep'⟩ | ⟨hb, c, cs, hcalls, huses⟩
      · have hover : ¬ ({ s with pc := .undefined } : Server).InLoop := id
        rw [hstep', run_over hover]
        simp only [hb, hnew, implies_true, false_implies, and_self, iff_true, forall_const]
        exact ⟨trivial, hs.toListed.withPc _⟩
      · have hbad : ¬ Disciplined fds
            (c :: cs ++ (((({ s with pc := .session 0 } : Server).step b).1).run rest).2) :=
          fun h => hs.nonzero (h.1 0 huses)
        rw [hcalls]
        exact ⟨⟨fun h => absurd h hbad, fun h => absurd (h.1 hmsg) hb⟩,
          fun h => absurd (h.1 hmsg) hb⟩
    · rw [run_over hover, List.append_nil]
      have himp : ∀ P : Prop, frameType a = some .newConnection → a.openOk = true → a.taken → P :=
        fun _ h1 h2 h3 => absurd ⟨h1, h2, h3⟩ hnot
      exact ⟨⟨fun _ => ⟨fun h => absurd h hmsg, himp _⟩, fun _ => hdisc⟩, fun _ => hlist⟩

/-- A run that goes astray nowhere goes astray in none of its beginnings. -/
theorem NoStray.of_prefix : ∀ {pre rs : List Read}, pre <+: rs → NoStray rs → NoStray pre
  | [], _, _, _ => trivial
  | [_], _, _, _ => trivial
  | a :: b :: pre, rs, ⟨post, hpost⟩, h => by
    subst hpost
    exact ⟨h.1, fun h1 h2 h3 h4 => NoStray.of_prefix ⟨post, rfl⟩ (h.2 h1 h2 h3 h4)⟩

/-- The discipline of a run over these frames: only open client descriptors are written to and
    closed, and `connections` is at every moment exactly those. -/
def Keeps (inherited : List ℤ) (rs : List Read) : Prop :=
  Disciplined [] ((start inherited).run rs).2 ∧ ∀ pre, pre <+: rs →
    Exact ((start inherited).run pre).1 (openClients ((start inherited).run pre).2)

/-- The 1024 zeros are no clients, and none of them is there once only. -/
theorem not_exact_start (inherited : List ℤ) : ¬ Exact (start inherited) [] := by
  rintro ⟨_, hmem⟩
  refine List.not_mem_nil ((hmem 0).mp ?_)
  rw [start_connections]
  exact List.mem_replicate.mpr ⟨by decide, rfl⟩

/-- CORRECT: started with any descriptors inherited and fed with any frames, the server keeps the
    whole discipline in no run, since `connections` is wrong from the start. The part of it about
    `WriteTo` and `CloseFile` it keeps exactly when no message strays into `Accept`, and then
    `connections` is 1024 zeros and behind them the open client descriptors, without duplicates. -/
theorem descriptors_iff (inherited : List ℤ) (rs : List Read) :
    ¬ Keeps inherited rs ∧
      (Disciplined [] ((start inherited).run rs).2 ↔ NoStray rs) ∧
      (NoStray rs → ∀ pre, pre <+: rs →
        Listed ((start inherited).run pre).1 (openClients ((start inherited).run pre).2)) := by
  refine ⟨?_, (tracked_run rs _ _ (start_tracks inherited)).1, ?_⟩
  · rintro ⟨_, hexact⟩
    exact not_exact_start inherited (hexact [] (List.nil_prefix))
  · intro h pre hpre
    exact (tracked_run pre _ _ (start_tracks inherited)).2 (h.of_prefix hpre)

theorem frameType_arrival {a : Arrival} (h : a.Decodes) :
    frameType a.toRead = some (WireEnum.ofCode (WireEnum.code a.sent.type)) := by
  rw [frameType, h]; rfl

/-- A message in front of a close package makes the server close descriptor 0, its standard
    input. -/
theorem stdin_closed :
    ¬ Disciplined [] ((start [0, 1, 2]).run [(say 'a').toRead, (bye 'a').toRead]).2 := by
  rw [(tracked_run _ _ _ (start_tracks _)).1]
  intro h
  have hsay : (say 'a').Decodes := Arrival.smooth_decodes (by decide)
  have hbye : (bye 'a').Decodes := Arrival.smooth_decodes (by decide)
  have hnone := h.1 (frameType_arrival hsay)
  rw [frameType_arrival hbye] at hnone
  exact absurd hnone (by simp)

end Server
end UnixIpc.Fifo
