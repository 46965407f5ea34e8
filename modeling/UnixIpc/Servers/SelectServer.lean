import Mathlib.Data.Finset.Erase
import Mathlib.Data.Finset.Filter
import Mathlib.Data.Finset.Insert
import UnixIpc.Lib.IndexLoop
import UnixIpc.Servers.Request

/-! The multiplex server over select(2). It keeps its clients three times: in `clients`, in the
    descriptor set `allset`, and in `maxfd`, which `updateMaxfd` takes from `clients` alone.

        select ──▶ accept? push_back, FD_SET, updateMaxfd ──▶ for i: FD_ISSET(clients[i]) ──▶ request
                                                                        │ 0: erase, FD_CLR, updateMaxfd
           ▲────────────────────────── while (isRunning) ───────────────┘ -/

namespace UnixIpc.Servers
open UnixIpc.Descriptors UnixIpc.IndexLoop

/-- `FD_SETSIZE`. -/
def fdSetSize : ℤ := 1024

/-- The globals of the server and its process. `defined` turns false for good at the first step that
    has no defined meaning: FD_SET beyond the set, or `*end()` in `updateMaxfd`. -/
structure SelectServer extends Process where
  listenfd : ℤ
  clients : List ℤ
  allset : Finset ℤ
  maxfd : ℤ
  defined : Bool

/-- One round: which descriptors are readable when select is called (`none`: it fails), and the int
    behind the last element of `clients`. -/
structure SelectRound extends Outside where
  readable : Option (ℤ → Bool)
  garbage : ℤ

namespace SelectServer

def start (inherited : List ℤ) : SelectServer where
  toProcess := .start inherited
  listenfd := lowestFree inherited
  clients := []
  allset := {lowestFree inherited}
  maxfd := lowestFree inherited
  defined := lowestFree inherited < fdSetSize

/-- `*std::max_element(clients.cbegin(), clients.cend())`. -/
def updateMaxfd (s : SelectServer) (garbage : ℤ) : SelectServer :=
  match s.clients.max? with
  | some fd => { s with maxfd := fd }
  | none => { s with maxfd := garbage, defined := false }

/-- `FD_SET(fd, &allset)`. -/
def fdSet (s : SelectServer) (fd : ℤ) : SelectServer :=
  if fd < fdSetSize then { s with allset := insert fd s.allset } else { s with defined := false }

def handleRequest (s : SelectServer) (r : SelectRound) (sockfd : ℤ) : SelectServer :=
  let s : SelectServer := { s with handled := s.handled ++ [sockfd] }
  match r.reply sockfd with
  | .disconnected =>
    if sockfd ∈ s.clients then
      updateMaxfd
        { s with
          clients := s.clients.erase sockfd
          toProcess := s.toProcess.close sockfd
          allset := s.allset.erase sockfd } r.garbage
    else { s with toProcess := s.toProcess.exit }
  | reply => { s with toProcess := s.toProcess.respond sockfd (r.writes sockfd) reply }

/-- What select leaves in `readset`: it looks at the descriptors up to `maxfd`. -/
def readset (s : SelectServer) (readable : ℤ → Bool) : Finset ℤ :=
  s.allset.filter fun fd => fd ≤ s.maxfd ∧ readable fd = true

/-- The accept branch of the main loop. -/
def accept (s : SelectServer) (r : SelectRound) : SelectServer :=
  match r.accepted with
  | none => { s with toProcess := s.toProcess.exit }
  | some wanted =>
    let connfd := freeFd s.openFds wanted
    let s : SelectServer :=
      { s with toProcess := s.toProcess.accept connfd, clients := s.clients ++ [connfd] }
    (s.fdSet connfd).updateMaxfd r.garbage

/-- The body of the loop over `clients`. -/
def visit (r : SelectRound) (readset : Finset ℤ) (i : ℕ) (s : SelectServer) : SelectServer :=
  match s.clients[i]? with
  | none => s
  | some connfd => if connfd ∈ readset then s.handleRequest r connfd else s

def goesOn (i : ℕ) (s : SelectServer) : Bool := s.status = .running && i < s.clients.length

/-- The loop over `clients`. -/
def requests (s : SelectServer) (r : SelectRound) (readset : Finset ℤ) : SelectServer :=
  (loop goesOn (visit r readset) s.clients.length 0 s).2

/-- The body of the main loop. -/
def round (s : SelectServer) (r : SelectRound) : SelectServer :=
  let s : SelectServer := { s with handled := [] }
  match r.readable with
  | none => { s with toProcess := s.toProcess.exit }
  | some readable =>
    let readset := s.readset readable
    if s.listenfd ∈ readset then (s.accept r).requests r readset else s.requests r readset

/-- `while (isRunning)`. -/
def next (s : SelectServer) (r : SelectRound) : SelectServer :=
  if s.Looping then s.round r else s

/-! ### What the steps do -/

section
variable (s : SelectServer) (garbage fd : ℤ)

@[simp] theorem updateMaxfd_toProcess : (s.updateMaxfd garbage).toProcess = s.toProcess := by
  unfold updateMaxfd; split <;> rfl

@[simp] theorem updateMaxfd_clients : (s.updateMaxfd garbage).clients = s.clients := by
  unfold updateMaxfd; split <;> rfl

@[simp] theorem updateMaxfd_listenfd : (s.updateMaxfd garbage).listenfd = s.listenfd := by
  unfold updateMaxfd; split <;> rfl

@[simp] theorem fdSet_toProcess : (s.fdSet fd).toProcess = s.toProcess := by
  unfold fdSet; split <;> rfl

@[simp] theorem fdSet_clients : (s.fdSet fd).clients = s.clients := by
  unfold fdSet; split <;> rfl

@[simp] theorem fdSet_listenfd : (s.fdSet fd).listenfd = s.listenfd := by
  unfold fdSet; split <;> rfl

end

/-- The request of a client that disconnects. -/
theorem handleRequest_drops {s : SelectServer} {r : SelectRound} {sockfd : ℤ}
    (hd : r.drops sockfd = true) (hmem : sockfd ∈ s.clients) :
    s.handleRequest r sockfd = updateMaxfd
      { s with
        clients := s.clients.erase sockfd
        toProcess := { s.toProcess with handled := s.handled ++ [sockfd] }.close sockfd
        allset := s.allset.erase sockfd } r.garbage := by
  simp only [Outside.drops, decide_eq_true_eq] at hd
  simp only [handleRequest, hd, if_pos hmem]

/-- The request of any other client. -/
theorem handleRequest_stays {s : SelectServer} {r : SelectRound} {sockfd : ℤ}
    (hd : r.drops sockfd = false) :
    s.handleRequest r sockfd =
      { s with toProcess := { s.toProcess with handled := s.handled ++ [sockfd] }.respond sockfd
                 (r.writes sockfd) (r.reply sockfd) } := by
  simp only [Outside.drops, decide_eq_false_iff_not] at hd
  rw [handleRequest]
  split
  · exact absurd ‹_› hd
  · rfl

/-- What every request does to the process and the list. -/
theorem handleRequest_spec {s : SelectServer} {r : SelectRound} {sockfd : ℤ}
    (hmem : sockfd ∈ s.clients) (hrun : s.status = .running) :
    (s.handleRequest r sockfd).handled = s.handled ++ [sockfd] ∧
      (s.handleRequest r sockfd).listenfd = s.listenfd ∧
      decide ((s.handleRequest r sockfd).status ≠ .running) = r.halts sockfd ∧
      (s.handleRequest r sockfd).clients =
        (if r.drops sockfd then s.clients.erase sockfd else s.clients) ∧
      (s.handleRequest r sockfd).openFds =
        (if r.drops sockfd then s.openFds.erase sockfd else s.openFds) := by
  cases hd : r.drops sockfd with
  | true =>
    rw [handleRequest_drops hd hmem, Outside.halts_of_drops hd]
    simp [hrun]
  | false =>
    rw [handleRequest_stays hd]
    refine ⟨by simp, rfl, Outside.respond_status hrun, rfl, by simp⟩

theorem handleRequest_subset {s : SelectServer} {r : SelectRound} {sockfd : ℤ}
    (hmem : sockfd ∈ s.clients) (hrun : s.status = .running) :
    (s.handleRequest r sockfd).clients ⊆ s.clients := by
  obtain ⟨_, _, _, hc, _⟩ := handleRequest_spec (r := r) hmem hrun
  rw [hc]
  split
  · exact List.erase_subset
  · exact List.Subset.refl _

theorem accept_refused {s : SelectServer} {r : SelectRound} (ha : r.accepted = none) :
    s.accept r = { s with toProcess := s.toProcess.exit } := by
  simp only [accept, ha]

/-- A new client goes to the end of the list. -/
theorem accept_spec {s : SelectServer} {r : SelectRound} {wanted : ℤ} (ha : r.accepted = some wanted) :
    (s.accept r).toProcess = s.toProcess.accept (freeFd s.openFds wanted) ∧
      (s.accept r).listenfd = s.listenfd ∧
      (s.accept r).clients = s.clients ++ [freeFd s.openFds wanted] := by
  simp only [accept, ha]
  refine ⟨by simp, by simp, by simp⟩

theorem goesOn_iff {i : ℕ} {s : SelectServer} :
    goesOn i s = true ↔ decide (s.status ≠ .running) = false ∧ i < s.clients.length := by
  simp [goesOn]

theorem visit_eq {r : SelectRound} {readset : Finset ℤ} {i : ℕ} {s : SelectServer} {connfd : ℤ}
    (h : s.clients[i]? = some connfd) :
    visit r readset i s = if connfd ∈ readset then s.handleRequest r connfd else s := by
  rw [visit, h]

/-- A round that finds the process gone handles nothing. -/
theorem requests_of_exited {s : SelectServer} {r : SelectRound} {readset : Finset ℤ}
    (hgone : s.status ≠ .running) : s.requests r readset = s := by
  rw [requests, loop_done]
  simp [goesOn, hgone]

/-- Nor does a round that finds no client ready. -/
theorem requests_of_idle {s : SelectServer} {r : SelectRound} {readset : Finset ℤ}
    (hidle : ∀ fd ∈ s.clients, fd ∉ readset) : s.requests r readset = s := by
  refine loop_inv (fun _ (t : SelectServer) => t = s) ?_ s.clients.length 0 s rfl
  intro i t ht hgo
  obtain ⟨_, hi⟩ := goesOn_iff.mp hgo
  subst ht
  rw [visit_eq (List.getElem?_eq_getElem hi), if_neg (hidle _ (List.getElem_mem hi))]

/-- What a round does once select has returned. -/
theorem next_eq {s : SelectServer} {r : SelectRound} {readable : ℤ → Bool} (hloop : s.Looping)
    (hr : r.readable = some readable) :
    s.next r = if s.listenfd ∈ s.readset readable
      then (({ s with handled := [] } : SelectServer).accept r).requests r (s.readset readable)
      else ({ s with handled := [] } : SelectServer).requests r (s.readset readable) := by
  rw [next, if_pos hloop, round, hr]
  rfl

/-- The clients are tracked among the descriptors of the process. -/
def Kept (s : SelectServer) : Prop := Tracked s.listenfd s.openFds s.clients

theorem start_kept (inherited : List ℤ) : (start inherited).Kept := tracked_start inherited

theorem Kept.handleRequest {s : SelectServer} (h : s.Kept) {r : SelectRound} {sockfd : ℤ}
    (hmem : sockfd ∈ s.clients) (hrun : s.status = .running) : (s.handleRequest r sockfd).Kept := by
  obtain ⟨_, hl, _, hc, ho⟩ := handleRequest_spec (r := r) hmem hrun
  rw [Kept, hl, hc, ho]
  cases r.drops sockfd with
  | true => exact Tracked.close h hmem
  | false => exact h

theorem Kept.accept {s : SelectServer} (h : s.Kept) (r : SelectRound) : (s.accept r).Kept := by
  cases ha : r.accepted with
  | none => rw [accept_refused ha]; exact h
  | some wanted =>
    obtain ⟨hp, hl, hc⟩ := accept_spec (s := s) ha
    rw [Kept, hp, hl, hc]
    exact Tracked.accept h wanted

theorem Kept.requests {s : SelectServer} (h : s.Kept) (r : SelectRound) (readset : Finset ℤ) :
    (s.requests r readset).Kept := by
  refine loop_inv (fun _ s => s.Kept) ?_ _ 0 s h
  intro i s hs hgo
  obtain ⟨hrun, hi⟩ := goesOn_iff.mp hgo
  have hget : s.clients[i]? = some s.clients[i] := List.getElem?_eq_getElem hi
  rw [visit_eq hget]
  split
  · exact hs.handleRequest (List.getElem_mem hi) (by simpa using hrun)
  · exact hs

theorem Kept.round {s : SelectServer} (h : s.Kept) (r : SelectRound) : (s.round r).Kept := by
  have h0 : ({ s with handled := [] } : SelectServer).Kept := h
  unfold SelectServer.round
  cases r.readable with
  | none => exact h0
  | some readable =>
    simp only
    split
    · exact (h0.accept r).requests r _
    · exact h0.requests r _

theorem Kept.next {s : SelectServer} (h : s.Kept) (r : SelectRound) : (s.next r).Kept := by
  unfold SelectServer.next
  split
  · exact h.round r
  · exact h

end SelectServer
end UnixIpc.Servers
