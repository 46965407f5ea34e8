import Mathlib.Order.Bounds.Basic
import UnixIpc.Lib.Run
import UnixIpc.Servers.SelectServer

/-! The three records that the select server keeps of its clients. They agree as long as `FD_SET`
    stays inside the set and `updateMaxfd` finds a client in the list: it takes the maximum over
    `clients` alone, so the round in which the only client leaves reads behind the end of an empty
    vector. In a longer list somebody always stays, since the loop passes over the client behind
    the one that leaves.

        clients   [fd] ──read 0──▶ []        allset   {listenfd, fd} ──FD_CLR──▶ {listenfd}
        maxfd      fd  ──updateMaxfd──▶ *end()                                             -/

namespace UnixIpc.Servers
open UnixIpc.Descriptors UnixIpc.IndexLoop UnixIpc.Run

namespace SelectServer
variable {s : SelectServer} {r : SelectRound}

/-- The set is the listener and the clients, no client is listed twice, and `maxfd` is the largest
    descriptor in the set. -/
structure Booked (s : SelectServer) : Prop where
  allset : ∀ fd, fd ∈ s.allset ↔ fd = s.listenfd ∨ fd ∈ s.clients
  nodup : s.clients.Nodup
  largest : IsGreatest (s.allset : Set ℤ) s.maxfd

/-- Every step so far was defined, and the records agree where select is about to be called. -/
def Sound (s : SelectServer) : Prop := s.defined = true ∧ (s.Looping → s.Booked)

/-- A new client fits into the set; with no new client, the only one does not leave. -/
def Safe (s : SelectServer) (r : SelectRound) : Prop :=
  s.Looping → ∀ readable, r.readable = some readable →
    (s.listenfd ∈ s.readset readable → ∀ wanted, r.accepted = some wanted →
      freeFd s.openFds wanted < fdSetSize) ∧
    (s.listenfd ∉ s.readset readable → ∀ fd, s.clients = [fd] → fd ∈ s.readset readable →
      r.drops fd = false)

/-! ### What safe steps keep -/

theorem updateMaxfd_booked (hset : ∀ fd, fd ∈ s.allset ↔ fd = s.listenfd ∨ fd ∈ s.clients)
    (hnodup : s.clients.Nodup) (hlt : ∀ fd ∈ s.clients, s.listenfd < fd) (hne : s.clients ≠ [])
    (garbage : ℤ) :
    (s.updateMaxfd garbage).Booked ∧ (s.updateMaxfd garbage).defined = s.defined := by
  obtain ⟨fd, hfd⟩ := Option.isSome_iff_exists.mp (List.isSome_max?_iff.mpr hne)
  obtain ⟨hmem, hle⟩ := List.max?_eq_some_iff.mp hfd
  rw [updateMaxfd, hfd]
  refine ⟨⟨hset, hnodup, (hset fd).mpr (.inr hmem), ?_⟩, rfl⟩
  intro fd' hfd'
  rcases (hset fd').mp hfd' with rfl | hfd'
  · exact (hlt fd hmem).le
  · exact hle fd' hfd'

theorem Booked.handleRequest (h : s.Booked) (hkept : s.Kept) {sockfd : ℤ} (hmem : sockfd ∈ s.clients)
    (hstays : r.drops sockfd = true → s.clients ≠ [sockfd]) :
    (s.handleRequest r sockfd).Booked ∧ (s.handleRequest r sockfd).defined = s.defined := by
  cases hd : r.drops sockfd with
  | false =>
    rw [handleRequest_stays hd]
    exact ⟨⟨h.allset, h.nodup, h.largest⟩, rfl⟩
  | true =>
    have hlisten : s.listenfd ≠ sockfd := (hkept.client sockfd hmem).2.ne
    rw [handleRequest_drops hd hmem]
    refine updateMaxfd_booked ?_ (h.nodup.erase sockfd) ?_ ?_ _
    · intro fd
      rw [Finset.mem_erase, h.nodup.mem_erase_iff, h.allset]
      constructor
      · rintro ⟨hne, heq | hfd⟩
        · exact .inl heq
        · exact .inr ⟨hne, hfd⟩
      · rintro (heq | ⟨hne, hfd⟩)
        · exact ⟨heq ▸ hlisten, .inl heq⟩
        · exact ⟨hne, .inr hfd⟩
    · intro fd hfd
      exact (hkept.client fd (List.mem_of_mem_erase hfd)).2
    · intro hnil
      rcases List.erase_eq_nil_iff.mp hnil with hnil | hone
      · exact absurd hmem (by simp [hnil])
      · exact hstays hd hone

theorem Booked.accept (h : s.Booked) (hkept : s.Kept) {wanted : ℤ} (ha : r.accepted = some wanted)
    (hfits : freeFd s.openFds wanted < fdSetSize) :
    (s.accept r).Booked ∧ (s.accept r).defined = s.defined := by
  have hnew := Tracked.accept hkept wanted
  simp only [SelectServer.accept, ha, fdSet, if_pos hfits]
  refine updateMaxfd_booked ?_ hnew.nodup ?_ (by simp) _
  · intro fd
    simp only [Finset.mem_insert, h.allset, List.mem_append, List.mem_singleton]
    tauto
  · intro fd hfd
    exact (hnew.client fd hfd).2

/-- The loop over `clients`: an only client is met at the first index or not at all. -/
theorem Booked.requests (h : s.Booked) (hkept : s.Kept) {readset : Finset ℤ}
    (hsafe : ∀ fd, s.clients = [fd] → fd ∈ readset → r.drops fd = false) :
    (s.requests r readset).Booked ∧ (s.requests r readset).defined = s.defined := by
  refine (loop_inv (fun i (t : SelectServer) =>
      (t.Booked ∧ t.defined = s.defined) ∧ t.Kept ∧ (i = 0 → t = s))
    (fun i t ⟨⟨hb, hdef⟩, hk, hfirst⟩ hgo => ?_) s.clients.length 0 s
    ⟨⟨h, rfl⟩, hkept, fun _ => rfl⟩).1
  obtain ⟨hrun, hi⟩ := goesOn_iff.mp hgo
  have hget : t.clients[i]? = some t.clients[i] := List.getElem?_eq_getElem hi
  rw [visit_eq hget]
  split
  case isFalse => exact ⟨⟨hb, hdef⟩, hk, by simp⟩
  case isTrue hready =>
    have hmem : t.clients[i] ∈ t.clients := List.getElem_mem hi
    have hstays : r.drops t.clients[i] = true → t.clients ≠ [t.clients[i]] := by
      intro hd hone
      have hlen : t.clients.length = 1 := by rw [hone]; rfl
      obtain rfl : t = s := hfirst (by omega)
      have hsd := hsafe _ hone hready
      rw [hd] at hsd
      exact absurd hsd (by simp)
    obtain ⟨hb', hdef'⟩ := hb.handleRequest hk hmem hstays
    exact ⟨⟨hb', hdef'.trans hdef⟩, hk.handleRequest hmem (by simpa using hrun), by simp⟩

/-- All that is known of a state at the head of the main loop. -/
structure Good (s : SelectServer) : Prop where
  defined : s.defined = true
  booked : s.Booked
  kept : s.Kept

theorem start_defined {inherited : List ℤ} :
    (start inherited).defined = true ↔ lowestFree inherited < fdSetSize := by
  simp [start]

theorem start_good {inherited : List ℤ} (hfits : lowestFree inherited < fdSetSize) :
    (start inherited).Good where
  defined := start_defined.mpr hfits
  booked := ⟨by simp [start], List.nodup_nil, by simp [start]⟩
  kept := start_kept inherited

/-- As far as `maxfd` reaches, select looks at the whole set. -/
theorem Booked.mem_readset (h : s.Booked) {fd : ℤ} (hmem : fd ∈ s.allset) {readable : ℤ → Bool} :
    fd ∈ s.readset readable ↔ readable fd = true := by
  rw [readset, Finset.mem_filter]
  exact ⟨fun hfd => hfd.2.2, fun hfd => ⟨hmem, h.largest.2 hmem, hfd⟩⟩

/-- A new client is not ready in the round in which it is accepted. -/
theorem Good.new_not_ready (h : s.Good) (wanted : ℤ) (readable : ℤ → Bool) :
    freeFd s.openFds wanted ∉ s.readset readable := by
  intro hready
  rcases (h.booked.allset _).mp (Finset.mem_filter.mp hready).1 with heq | hmem
  · exact (Tracked.lt_freeFd h.kept wanted).ne' heq
  · exact freeFd_not_mem s.openFds wanted (h.kept.client _ hmem).1

/-- INVARIANT: a safe round leaves everything in order. -/
theorem Good.next (h : s.Good) (hsafe : s.Safe r) : (s.next r).Good := by
  have h0 : ({ s with handled := [] } : SelectServer).Booked :=
    ⟨h.booked.allset, h.booked.nodup, h.booked.largest⟩
  suffices hb : (s.next r).Booked ∧ (s.next r).defined = s.defined from
    ⟨hb.2.trans h.defined, hb.1, h.kept.next r⟩
  by_cases hloop : s.Looping
  · cases hr : r.readable with
    | none =>
      rw [SelectServer.next, if_pos hloop, SelectServer.round, hr]
      exact ⟨⟨h0.allset, h0.nodup, h0.largest⟩, rfl⟩
    | some readable =>
      obtain ⟨hfits, hstays⟩ := hsafe hloop readable hr
      have hkept : ({ s with handled := [] } : SelectServer).Kept := h.kept
      rw [next_eq hloop hr]
      split
      case isTrue hl =>
        cases ha : r.accepted with
        | none =>
          rw [accept_refused ha, requests_of_exited (by simp)]
          exact ⟨⟨h0.allset, h0.nodup, h0.largest⟩, rfl⟩
        | some wanted =>
          obtain ⟨hb, hdef⟩ := h0.accept hkept ha (hfits hl wanted ha)
          refine (hb.requests (hkept.accept r) ?_).imp_right (·.trans hdef)
          intro fd hone hready
          rw [(accept_spec ha).2.2] at hone
          have hfd := (List.append_inj' (hone.trans (List.nil_append [fd]).symm) rfl).2
          exact absurd (List.singleton_inj.mp hfd ▸ hready) (h.new_not_ready wanted readable)
      case isFalse hl => exact h0.requests hkept (hstays hl)
  · rw [SelectServer.next, if_neg hloop]
    exact ⟨h.booked, rfl⟩

/-! ### What an unsafe step breaks -/

theorem updateMaxfd_undefined (hundef : s.defined = false) (garbage : ℤ) :
    (s.updateMaxfd garbage).defined = false := by
  unfold updateMaxfd
  split
  · exact hundef
  · rfl

/-- A server that has left the defined behaviour stays outside. -/
theorem requests_undefined (hundef : s.defined = false) (readset : Finset ℤ) :
    (s.requests r readset).defined = false := by
  refine loop_inv (fun _ (t : SelectServer) => t.defined = false) (fun i t ht hgo => ?_)
    s.clients.length 0 s hundef
  obtain ⟨_, hi⟩ := goesOn_iff.mp hgo
  rw [visit_eq (List.getElem?_eq_getElem hi)]
  split
  · cases hd : r.drops t.clients[i] with
    | true =>
      rw [handleRequest_drops hd (List.getElem_mem hi)]
      exact updateMaxfd_undefined (by exact ht) _
    | false => rw [handleRequest_stays hd]; exact ht
  · exact ht

/-- The request of the only client, when it leaves, asks for the maximum of nothing. -/
theorem requests_last {readset : Finset ℤ} {fd : ℤ} (hrun : s.status = .running)
    (hone : s.clients = [fd]) (hready : fd ∈ readset) (hd : r.drops fd = true) :
    (s.requests r readset).defined = false := by
  have hgo : goesOn 0 s = true := goesOn_iff.mpr ⟨by simp [hrun], by simp [hone]⟩
  have hget : s.clients[0]? = some fd := by rw [hone]; rfl
  rw [requests, hone, List.length_singleton, loop_step hgo, visit_eq hget, if_pos hready,
    handleRequest_drops hd (by simp [hone]), updateMaxfd]
  simp [hone, loop]

theorem undefined_of_not_safe (hnot : ¬ s.Safe r) : (s.next r).defined = false := by
  simp only [Safe, not_forall, not_and_or, exists_prop] at hnot
  obtain ⟨hloop, readable, hr, ⟨hl, wanted, ha, hbig⟩ | ⟨hl, fd, hone, hready, hd⟩⟩ := hnot
  · rw [next_eq hloop hr, if_pos hl]
    refine requests_undefined ?_ _
    simp only [accept, ha, fdSet, if_neg hbig]
    exact updateMaxfd_undefined rfl _
  · rw [next_eq hloop hr, if_neg hl]
    exact requests_last hloop.2 hone hready (by simpa using hd)

/-! ### Runs -/

/-- CORRECT: the records agree whenever select is called, and every step is defined, exactly in the
    runs in which the listener fits into the set and every round is safe. -/
theorem sound_iff_safe (inherited : List ℤ) (rs : List SelectRound) :
    Along next Sound (start inherited) rs ↔
      lowestFree inherited < fdSetSize ∧ Throughout next Safe (start inherited) rs := by
  have hiff : (start inherited).Good → (Along next Sound (start inherited) rs ↔
      Throughout next Safe (start inherited) rs) := fun hgood =>
    along_iff_throughout (A := fun _ => True) (fun s h => ⟨h.defined, fun _ => h.booked⟩)
      (fun s r h _ hsafe => h.next hsafe)
      (fun s r _ _ hnot hsound => absurd hsound.1 (by simp [undefined_of_not_safe hnot]))
      rs (start inherited) (fun _ _ => trivial) hgood
  constructor
  · intro hsound
    have hfits := start_defined.mp hsound.head.1
    exact ⟨hfits, (hiff (start_good hfits)).mp hsound⟩
  · rintro ⟨hfits, hsafe⟩
    exact (hiff (start_good hfits)).mpr hsafe

/-- A client connects and closes its connection: there is no largest client any more. -/
theorem last_client_undefined :
    ¬ Along next Sound (start [0, 1, 2])
      [⟨.comeAndGo, some (· = 3), 0⟩, ⟨.comeAndGo, some (· = 4), 0⟩] := by
  intro hsound
  exact absurd hsound.last.1 (by decide)

end SelectServer
end UnixIpc.Servers
