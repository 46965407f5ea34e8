import UnixIpc.Engine.Delivery

/-! Receivers that are moved. The callback captured the address of the object it was created in, and
    every copy of it (in the acceptor, in the listener's handler, in the sessions) moves along as it
    is:

        receiver at 0                 receiver at 1 (moved to)
        messages_ ◀── callback ────── sessions, acceptor
                                      messages_        (stays empty)

    So the moved receiver fills the list of an object that is a husk, or gone. `home` is the address
    a receiver was constructed at. -/

namespace UnixIpc.Engine
open UnixIpc.Descriptors UnixIpc.IndexLoop UnixIpc.Run

variable {Capacity : ℕ}

/-- Every event but move assignment keeps the handlers of an acceptor together. -/
theorem World.uniform_step {H : Type} {w w' : World H} {e : Event H} (h : w.Sound)
    (hu : w.All fun _ => Acceptor.Uniform) (he : ∀ id other, e ≠ .moveAssign id other)
    (hstep : w.step e = some w') : w'.All fun _ => Acceptor.Uniform := by
  refine hu.step ?_ ?_ ?_ (fun id other _ heq _ => absurd heq (he id other)) ?_ hstep
  · rintro id l target session hmem t hc
    rw [Acceptor.construct, List.mem_singleton] at hmem
    rw [hmem] at hc
    exact absurd hc (by simp)
  · rintro id a session hmem
    exact absurd hmem List.not_mem_nil
  · rintro id other o a ho hm session hmem t hc
    obtain ⟨first, rest, hs, rfl⟩ := moveConstruct_cases hm
    rcases List.mem_cons.mp hmem with rfl | hmem
    · exact absurd hc (by simp)
    · exact ho session (hs ▸ List.mem_cons_of_mem _ hmem) t hc
  · exact fun id a p ha => World.uniform_pass h hu ha p

namespace Receivers
variable {s : Receivers Capacity} {id : ℕ} {a : Acceptor ℕ} {p : ReceiverPoll Capacity}

/-- The reads of a turn go to the object's own list, to no other, and nothing is undefined. -/
def OwnReads (s : Receivers Capacity) (id : ℕ) (p : ReceiverPoll Capacity) : Prop :=
  (s.pass id p).2 ≠ .undefined ∧
    ∃ reads, (s.pass id p).1.reads = s.reads ++ reads ∧
      (s.pass id p).1.messages =
        Function.update s.messages id (s.messages id ++ reads.map ReadCall.entry)

/-- Each client that is called has a callback created in this very object, and a listener that is
    called refers to an object that is there. -/
def AtHome (s : Receivers Capacity) (id : ℕ) (p : ReceiverPoll Capacity) : Prop :=
  ∀ d ∈ s.calls id p, (∀ target, d.2.requestHandler = .client (some target) → target = id) ∧
    d.2.verdict s.world.live p.accepted ≠ .undefined

theorem mem_readsOf {c : ReadCall Capacity} : c ∈ s.readsOf id p ↔
    ∃ d ∈ s.calls id p, d.2.requestHandler = .client (some c.target) ∧
      c = ⟨c.target, d.2.socket, p.read d.1⟩ := by
  rw [readsOf, List.mem_filterMap]
  refine exists_congr fun d => and_congr_right fun _ => ?_
  unfold callback
  split
  · rename_i target hh
    rw [hh, Option.some.injEq, Handler.client.injEq, Option.some.injEq]
    constructor
    · rintro rfl
      exact ⟨rfl, rfl⟩
    · rintro ⟨rfl, hc⟩
      exact hc.symm
  · rename_i hnone
    refine iff_of_false (by simp) ?_
    rintro ⟨hh, _⟩
    exact hnone _ hh

theorem atHome_iff : s.AtHome id p ↔ (∀ c ∈ s.readsOf id p, c.target = id) ∧
    ∀ d ∈ s.calls id p, d.2.verdict s.world.live p.accepted ≠ .undefined := by
  constructor
  · intro h
    refine ⟨?_, fun d hd => (h d hd).2⟩
    intro c hc
    obtain ⟨d, hd, hh, _⟩ := mem_readsOf.mp hc
    exact (h d hd).1 c.target hh
  · rintro ⟨hreads, hdefined⟩ d hd
    refine ⟨?_, hdefined d hd⟩
    intro target hh
    exact hreads ⟨target, d.2.socket, p.read d.1⟩ (mem_readsOf.mpr ⟨d, hd, hh, rfl⟩)

/-- EXACT: whose reads go where, for one turn in any state. -/
theorem ownReads_iff (ha : s.world.acceptors id = some a) (hal : a.Aligned) :
    s.OwnReads id p ↔ s.AtHome id p := by
  obtain ⟨hturn, hundef⟩ := pass_spec (p := p) ha hal
  have hlive : s.world.live id = true := by rw [World.live, ha]; rfl
  rw [atHome_iff]
  constructor
  · rintro ⟨hdefined, reads, hreads, hmessages⟩
    rw [hturn] at hreads hmessages
    obtain rfl : s.readsOf id p = reads := List.append_cancel_left hreads
    refine ⟨?_, fun d hd hv => hdefined (hundef.mpr (Or.inl ⟨d, hd, hv⟩))⟩
    intro c hc
    by_contra hne
    -- the list of another object has grown
    have hother := congrFun hmessages c.target
    rw [Function.update_of_ne hne] at hother
    have happend := appendAll_apply s.messages (s.readsOf id p) c.target
    rw [show appendAll s.messages (s.readsOf id p) c.target = s.messages c.target from hother,
      List.self_eq_append_right, List.map_eq_nil_iff] at happend
    exact absurd (List.mem_filter.mpr ⟨hc, by simp⟩) (happend ▸ List.not_mem_nil)
  · rintro ⟨htargets, hdefined⟩
    refine ⟨?_, s.readsOf id p, by rw [hturn], ?_⟩
    · intro hu
      rcases hundef.mp hu with ⟨d, hd, hv⟩ | ⟨c, hc, hdead⟩
      · exact hdefined d hd hv
      · rw [htargets c hc, hlive] at hdead
        exact absurd hdead (by simp)
    · rw [hturn]
      funext target
      have happend := appendAll_apply s.messages (s.readsOf id p) target
      by_cases htarget : target = id
      · subst htarget
        have hall : (s.readsOf target p).filter (·.target = target) = s.readsOf target p :=
          List.filter_eq_self.mpr fun c hc => by simpa using htargets c hc
        rw [hall] at happend
        rw [Function.update_self]
        exact happend
      · have hnone : (s.readsOf id p).filter (·.target = target) = [] := by
          rw [List.filter_eq_nil_iff]
          intro c hc
          rw [htargets c hc]
          simpa using Ne.symm htarget
        rw [hnone, List.map_nil, List.append_nil] at happend
        rw [Function.update_of_ne htarget]
        exact happend

/-! ### Histories -/

/-- Where the receivers were constructed, after an event. -/
def homeStep (home : ℕ → Option ℕ) : ReceiverEvent Capacity → ℕ → Option ℕ
  | .construct id _ => Function.update home id (some id)
  | .moveConstruct id other | .moveAssign id other =>
    Function.update (Function.update home id (home other)) other none
  | .destroy id => Function.update home id none
  | .pass _ _ => home

/-- The address at which the receiver now at `id` was constructed; none for what a move left. -/
def home (es : List (ReceiverEvent Capacity)) : ℕ → Option ℕ := es.foldl homeStep fun _ => none

/-- The event of the acceptors behind an event of the receivers. -/
def worldEvent (s : Receivers Capacity) : ReceiverEvent Capacity → Event ℕ
  | .construct id tcpListener => .construct id tcpListener id
  | .moveConstruct id other => .moveConstruct id other
  | .moveAssign id other => .moveAssign id other
  | .destroy id => .destroy id
  | .pass id p =>
    .pass id (match s.world.acceptors id with
      | none => ⟨-1, fun _ => 0, p.answers⟩
      | some a => p.onAcceptor a)

/-- STEP: the acceptors of the receivers move as acceptors do. -/
theorem step_world {s s' : Receivers Capacity} {e : ReceiverEvent Capacity}
    (h : s.step e = some s') : s.world.step (s.worldEvent e) = some s'.world := by
  cases e with
  | pass id p =>
    simp only [step] at h
    split at h
    · exact absurd h (by simp)
    · rename_i hdefined
      rw [Option.some.injEq] at h
      subst h
      unfold pass at hdefined ⊢
      cases ha : s.world.acceptors id with
      | none => simp [ha] at hdefined
      | some a =>
        simp only [ha] at hdefined ⊢
        have hout : (s.world.pass id (p.onAcceptor a)).outcome ≠ .undefined := by
          intro hu
          rw [hu, ite_self] at hdefined
          exact hdefined rfl
        simp only [worldEvent, ha, World.step, if_neg hout]
  | _ =>
    simp only [step] at h
    obtain ⟨w, hw, rfl⟩ := Option.map_eq_some_iff.mp h
    exact hw

/-- A live acceptor's handler says where its receiver was constructed. -/
def Tells (home : ℕ → Option ℕ) (w : World ℕ) : Prop :=
  w.All fun id a => a.clientRequestHandler = home id

theorem Tells.put {home : ℕ → Option ℕ} {w : World ℕ} (h : Tells home w) {id : ℕ}
    {a : Option (Acceptor ℕ)} {origin : Option ℕ}
    (ha : ∀ a', a = some a' → a'.clientRequestHandler = origin) :
    Tells (Function.update home id origin) (w.put id a) := by
  intro id' b hb
  simp only [World.put] at hb
  by_cases hid : id' = id
  · subst hid
    rw [Function.update_self] at hb ⊢
    exact ha b hb
  · rw [Function.update_of_ne hid] at hb ⊢
    exact h id' b hb

/-- Both moves carry the handler over and leave none behind. -/
theorem Tells.move {home : ℕ → Option ℕ} {w : World ℕ} (h : Tells home w) {id other : ℕ}
    (hne : id ≠ other) {o b : Acceptor ℕ} (ho : w.acceptors other = some o)
    (hb : b.clientRequestHandler = o.clientRequestHandler) :
    Tells (Function.update (Function.update home id (home other)) other none)
      ((w.put other (some o.moved)).put id (some b)) := by
  have hmoved : Tells (Function.update home other none) (w.put other (some o.moved)) := by
    refine h.put ?_
    rintro a' ha'
    rw [← Option.some.inj ha']
    rfl
  rw [Function.update_comm hne]
  refine hmoved.put ?_
  rintro a' ha'
  rw [← Option.some.inj ha', hb]
  exact h other o ho

theorem Tells.step {home : ℕ → Option ℕ} {s s' : Receivers Capacity} (h : Tells home s.world)
    (hal : s.world.All fun _ => Acceptor.Aligned) {e : ReceiverEvent Capacity}
    (hstep : s.step e = some s') : Tells (homeStep home e) s'.world := by
  have hworld := World.step_cases (step_world hstep)
  generalize s'.world = w' at hworld
  cases e with
  | construct id l =>
    cases hworld with
    | construct =>
      refine Tells.put h ?_
      rintro a' ha'
      rw [← Option.some.inj ha']
      rfl
  | moveConstruct id other =>
    cases hworld with
    | @moveConstruct _ _ o b hfree ho hb =>
      have hne : id ≠ other := by
        rintro rfl
        rw [ho] at hfree
        exact absurd hfree (by simp)
      obtain ⟨_, _, _, rfl⟩ := moveConstruct_cases hb
      exact h.move hne ho rfl
  | moveAssign id other =>
    cases hworld with
    | moveAssign hne _ ho => exact h.move hne ho rfl
  | destroy id =>
    cases hworld with
    | destroy => exact Tells.put h fun a' ha' => absurd ha' (by simp)
  | pass id p =>
    cases hworld with
    | @pass _ a q ha =>
      obtain ⟨f, hf, hkeep⟩ := World.pass_grows ha (hal id a ha) _
      intro id' b hb
      rw [hf, Option.map_eq_some_iff] at hb
      obtain ⟨b0, hb0, rfl⟩ := hb
      exact hkeep (·.clientRequestHandler = home id') (fun _ _ hh => hh) (fun _ _ hh => hh) id' b0
        (h id' b0 hb0)

/-- RUN: the vectors stay in step, and every handler tells where its receiver comes from. -/
theorem tells_run (es : List (ReceiverEvent Capacity)) (s s' : Receivers Capacity)
    (home : ℕ → Option ℕ) (h : Tells home s.world) (hal : s.world.All fun _ => Acceptor.Aligned)
    (hrun : s.run es = some s') :
    Tells (es.foldl homeStep home) s'.world ∧ s'.world.All fun _ => Acceptor.Aligned := by
  induction es generalizing s home with
  | nil =>
    obtain rfl : s = s' := Option.some.inj hrun
    exact ⟨h, hal⟩
  | cons e es ih =>
    rw [run, List.foldlM_cons, Option.bind_eq_bind, Option.bind_eq_some_iff] at hrun
    obtain ⟨s1, h1, hrest⟩ := hrun
    exact ih s1 (homeStep home e) (h.step hal h1) (World.aligned_step hal (step_world h1)) hrest

/-- RUN: without move assignment the handlers of an acceptor stay together. -/
theorem together_run {es : List (ReceiverEvent Capacity)} {s : Receivers Capacity}
    (hes : ∀ e ∈ es, ∀ id other, e ≠ .moveAssign id other) (hrun : empty.run es = some s) :
    s.world.Sound ∧ s.world.All fun _ => Acceptor.Uniform := by
  refine foldlM_inv (P := fun s : Receivers Capacity =>
    s.world.Sound ∧ s.world.All fun _ => Acceptor.Uniform) ?_ es empty s
    ⟨World.empty_all _, World.empty_all _⟩ hes hrun
  rintro t e t' ⟨hsound, hu⟩ he hstep
  have hnot : ∀ id other, t.worldEvent e ≠ .moveAssign id other := by
    intro id other heq
    cases e with
    | moveAssign id' other' => exact he id' other' rfl
    | _ => exact absurd heq (by simp [worldEvent])
  have hworld := step_world hstep
  exact ⟨hsound.step hnot hworld, World.uniform_step hsound hu hnot hworld⟩

/-- In such a history a receiver reads for itself when it is where it was constructed, or does not
    read. -/
theorem atHome_iff_home {origin : Option ℕ} (hsound : s.world.Sound)
    (hu : s.world.All fun _ => Acceptor.Uniform) (ha : s.world.acceptors id = some a)
    (horigin : a.clientRequestHandler = origin) :
    s.AtHome id p ↔ origin = some id ∨ s.readsOf id p = [] := by
  have hal := (hsound id a ha).aligned
  have hcalls := (dispatched_eq (p := p) ha hal).2.2
  have hdefined : ∀ d ∈ s.calls id p, d.2.verdict s.world.live p.accepted ≠ .undefined :=
    fun d hd => verdict_ne_undefined hsound ha hd
  have htarget : ∀ c ∈ s.readsOf id p, origin = some c.target := by
    intro c hc
    obtain ⟨d, hd, hh, _⟩ := mem_readsOf.mp hc
    rw [← horigin]
    exact (hu id a ha d.2 (List.mem_of_getElem? (hcalls d hd)) _ hh).symm
  rw [atHome_iff, and_iff_left hdefined]
  constructor
  · intro hall
    cases hreads : s.readsOf id p with
    | nil => exact Or.inr rfl
    | cons c reads =>
      have hc : c ∈ s.readsOf id p := by rw [hreads]; exact List.mem_cons_self ..
      exact Or.inl ((htarget c hc).trans (congrArg some (hall c hc)))
  · rintro (hhome | hnil) c hc
    · exact Option.some.inj ((htarget c hc).symm.trans hhome)
    · rw [hnil] at hc
      exact absurd hc List.not_mem_nil

/-- CORRECT: after any history, a turn of `receive` puts its reads into the object's own list just
    when every callback it calls was created in that object. As long as no receiver was assigned
    over, that is: the object is where its receiver was constructed, or the turn reads nothing. -/
theorem ownReads_iff_home (es : List (ReceiverEvent Capacity)) (s : Receivers Capacity)
    (hrun : empty.run es = some s) (id : ℕ) (a : Acceptor ℕ) (ha : s.world.acceptors id = some a)
    (p : ReceiverPoll Capacity) :
    (s.OwnReads id p ↔ s.AtHome id p) ∧
      ((∀ e ∈ es, ∀ id other, e ≠ .moveAssign id other) →
        (s.OwnReads id p ↔ home es id = some id ∨ s.readsOf id p = [])) := by
  obtain ⟨htells, hal⟩ := tells_run es empty s (fun _ => none) (World.empty_all _)
    (World.empty_all _) hrun
  have hown := ownReads_iff (p := p) ha (hal id a ha)
  refine ⟨hown, ?_⟩
  intro hes
  obtain ⟨hsound, hu⟩ := together_run hes hrun
  rw [hown]
  exact atHome_iff_home hsound hu ha (htells id a ha)

/-- A client connects, and then sends two bytes. -/
def connects : ReceiverPoll 4 := ⟨some fun i => if i = 0 then 64 else 0, 4, fun _ => none⟩

def sends : ReceiverPoll 4 :=
  ⟨some fun i => if i = 1 then 64 else 0, 4, fun _ => some ⟨[104, 105], by decide⟩⟩

theorem ownReads_iff_home_unmoved : ∃ s : Receivers 4,
    empty.run [.construct 0 (listenerAt 3), .pass 0 connects] = some s ∧
    s.readsOf 0 sends ≠ [] ∧ (s.OwnReads 0 sends ↔ s.AtHome 0 sends) := by
  refine ⟨_, rfl, by decide, ?_⟩
  exact (ownReads_iff_home [.construct 0 (listenerAt 3), .pass 0 connects] _ rfl 0 _ rfl sends).1

/-- The receiver is moved from 0 to 1, and then a client sends: the message is in the list of the
    husk. Where the original is destroyed, as in `MakeChannel`, the callback has nothing to write
    to. -/
theorem moved_reads_elsewhere :
    (∃ s : Receivers 4, empty.run [.construct 0 (listenerAt 3), .moveConstruct 1 0,
        .pass 1 connects] = some s ∧
      ((s.pass 1 sends).1.messages 1).length = 0 ∧ ((s.pass 1 sends).1.messages 0).length = 1 ∧
      ¬ s.OwnReads 1 sends) ∧
    ∃ s : Receivers 4, empty.run [.construct 0 (listenerAt 3), .moveConstruct 1 0, .destroy 0,
        .pass 1 connects] = some s ∧
      (s.pass 1 sends).2 = .undefined ∧ ¬ s.OwnReads 1 sends := by
  constructor
  · refine ⟨_, rfl, by decide, by decide, ?_⟩
    rintro ⟨_, reads, _, hmessages⟩
    have hlen := congrArg List.length (congrFun hmessages 0)
    rw [Function.update_of_ne (by decide)] at hlen
    exact absurd hlen (by decide)
  · refine ⟨_, rfl, by decide, ?_⟩
    rintro ⟨hdefined, _⟩
    exact hdefined (by decide)

end Receivers
end UnixIpc.Engine
