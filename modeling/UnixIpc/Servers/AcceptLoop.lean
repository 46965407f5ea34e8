import UnixIpc.Lib.Ledger
import UnixIpc.Servers.BrokenConnection

/-! main of the simple TCP server: accept, serve that one connection to its end, close it, and again.

        accept ──connfd──▶ handleConnect ──▶ close(connfd) ──▶ while (isRunServer) ──▶ close(listenfd)
                  └─ -1 ──▶ handleConnect, for ever

    Nobody looks at what `accept` returns. A connection is closed before the next one is accepted, so
    besides the listener at most one descriptor is open (`one_connection`); and the server comes back
    to `accept` again and again just when every `handleConnect` does what `Ends` says
    (`responsive_iff`). -/

namespace UnixIpc.Servers.SimpleServer
open UnixIpc.Descriptors UnixIpc.Engine UnixIpc.Run

/-- Where main stands: at `accept`, in the loop of `handleConnect`, or behind its own loop. A SIGPIPE
    or a scan that leaves memory ends it in `handleConnect`. -/
inductive Place where
  | accepting
  | serving (connfd : ℤ) (connect : Connect)
  | stopped
  | threw (errorText : String)
  | killed (connfd : ℤ)
  | undefined (connfd : ℤ)
  deriving DecidableEq

/-- The process, with a record of the descriptors it was given and of those it closed. -/
structure Main where
  listenfd : ℤ
  isRunServer : Bool
  place : Place
  openFds : List ℤ
  opened : List ℤ
  closed : List ℤ
  deriving DecidableEq

/-- How the system answers the next call: the descriptor `accept` would like to return (`none`: it
    fails), or a round of `handleConnect`. -/
structure Turn extends Round where
  accepted : Option ℤ

namespace Main

/-- main up to its loop. -/
def start (inherited : List ℤ) : Main where
  listenfd := lowestFree inherited
  isRunServer := true
  place := .accepting
  openFds := lowestFree inherited :: inherited
  opened := [lowestFree inherited]
  closed := []

/-- `native_socket::CloseSocket`. -/
def closeSocket (m : Main) (fd : ℤ) : Except String Main :=
  if fd ∈ m.openFds then
    .ok { m with openFds := m.openFds.erase fd, closed := m.closed ++ [fd] }
  else .error "error when try close active net_api"

/-- `handleConnect(connfd)`, up to its first read. -/
def serve (m : Main) (connfd : ℤ) : Main :=
  { m with place := .serving connfd { Connect.start with isRunServer := m.isRunServer } }

/-- `while (isRunServer)`, and what is behind it. -/
def again (m : Main) : Main :=
  if m.isRunServer then { m with place := .accepting }
  else
    match m.closeSocket m.listenfd with
    | .error errorText => { m with place := .threw errorText }
    | .ok m => { m with place := .stopped }

/-- `handleConnect` has returned. -/
def leave (m : Main) (connfd : ℤ) : Main :=
  match m.closeSocket connfd with
  | .error errorText => { m with place := .threw errorText }
  | .ok m => m.again

def next (stack : List UInt8) (m : Main) (t : Turn) : Main :=
  match m.place with
  | .accepting =>
    match t.accepted with
    | none => m.serve (-1)
    | some wanted =>
      let connfd := freeFd m.openFds wanted
      serve { m with openFds := connfd :: m.openFds, opened := m.opened ++ [connfd] } connfd
  | .serving connfd connect =>
    let connect := connect.next stack (answered connfd t.toRound)
    let m := { m with isRunServer := connect.isRunServer }
    match connect.loop with
    | .looping => { m with place := .serving connfd connect }
    | .left => m.leave connfd
    | .killed => { m with place := .killed connfd }
    | .undefined => { m with place := .undefined connfd }
    | .threw errorText => { m with place := .threw errorText }
  | _ => m

/-- The connection that is open, if `accept` gave one. -/
def connection (m : Main) : List ℤ :=
  match m.place with
  | .serving connfd _ | .killed connfd | .undefined connfd =>
    if connfd < 0 then [] else [connfd]
  | _ => []

/-- What main has open: the connection, and the listener until it stops. -/
def live (m : Main) : List ℤ :=
  m.connection ++ if m.place = .stopped then [] else [m.listenfd]

/-- Descriptor for descriptor: open is what was inherited and what is live, and each opening is live
    or was closed once. -/
structure Accounted (inherited : List ℤ) (m : Main) : Prop where
  openFds : m.openFds.Perm (m.live ++ inherited)
  ledger : Ledger m.opened m.closed m.live

/-- What else is known, place by place. -/
def InPlace (m : Main) : Prop :=
  match m.place with
  | .accepting => m.isRunServer = true
  | .serving _ connect => connect.Ready ∧ connect.isRunServer = true ∧ m.isRunServer = true
  | .stopped => m.isRunServer = false
  | .threw _ => False
  | .killed _ | .undefined _ => True

/-! ### One turn -/

variable {m : Main} {inherited : List ℤ} {stack : List UInt8}

theorem closeSocket_ok {fd : ℤ} (h : fd ∈ m.openFds) :
    m.closeSocket fd = .ok { m with openFds := m.openFds.erase fd, closed := m.closed ++ [fd] } :=
  if_pos h

theorem Accounted.mem {fd : ℤ} (h : m.Accounted inherited) (hfd : fd ∈ m.live) : fd ∈ m.openFds :=
  h.openFds.mem_iff.mpr (List.mem_append_left _ hfd)

theorem start_accounted (inherited : List ℤ) : (start inherited).Accounted inherited where
  openFds := List.Perm.refl _
  ledger := Ledger.nil.opening List.not_mem_nil

/-- STEP: main goes elsewhere with what it has. -/
theorem Accounted.stays {running : Bool} {place : Place} (h : m.Accounted inherited)
    (hconn : connection { m with isRunServer := running, place := place } = m.connection)
    (hstop : place = .stopped ↔ m.place = .stopped) :
    Accounted inherited { m with isRunServer := running, place := place } := by
  have hlive : live { m with isRunServer := running, place := place } = m.live := by
    rw [live, live, hconn]
    simp only [hstop]
  refine ⟨?_, ?_⟩
  · rw [hlive]; exact h.openFds
  · rw [hlive]; exact h.ledger

/-- STEP: an accepted connection is live besides the listener. -/
theorem Accounted.accept (h : m.Accounted inherited) (hplace : m.place = .accepting) (wanted : ℤ) :
    (serve { m with openFds := freeFd m.openFds wanted :: m.openFds,
                    opened := m.opened ++ [freeFd m.openFds wanted] }
      (freeFd m.openFds wanted)).Accounted inherited := by
  have hlive : m.live = [m.listenfd] := by simp [live, connection, hplace]
  have hnew : freeFd m.openFds wanted ∉ m.live :=
    fun hmem => freeFd_not_mem m.openFds wanted (h.mem hmem)
  have hnonneg : ¬ freeFd m.openFds wanted < 0 := not_lt.mpr (freeFd_nonneg m.openFds wanted)
  have hlive' : (serve { m with openFds := freeFd m.openFds wanted :: m.openFds,
                                opened := m.opened ++ [freeFd m.openFds wanted] }
      (freeFd m.openFds wanted)).live = freeFd m.openFds wanted :: m.live := by
    rw [hlive]
    simp [live, connection, serve, hnonneg]
  refine ⟨?_, ?_⟩
  · rw [hlive']; exact h.openFds.cons _
  · rw [hlive']; exact h.ledger.opening hnew

/-- STEP: the connection is closed, and the listener behind the last one. -/
theorem Accounted.leave {connfd : ℤ} {connect : Connect} (h : m.Accounted inherited)
    (hplace : m.place = .serving connfd connect) (hfd : 0 ≤ connfd) :
    (m.leave connfd).Accounted inherited ∧ (m.leave connfd).isRunServer = m.isRunServer ∧
      (m.leave connfd).place = if m.isRunServer then .accepting else .stopped := by
  have hlive : m.live = connfd :: [m.listenfd] := by
    simp [live, connection, hplace, not_lt.mpr hfd]
  have hopen : m.openFds.Perm (connfd :: m.listenfd :: inherited) := by
    have hperm := h.openFds
    rwa [hlive] at hperm
  have hledger : Ledger m.opened (m.closed ++ [connfd]) [m.listenfd] := by
    have hboth : Ledger m.opened m.closed m.live := h.ledger
    rw [hlive, ← List.singleton_append] at hboth
    exact hboth.closing_append
  have hrest : (m.openFds.erase connfd).Perm (m.listenfd :: inherited) := by
    have herase := hopen.erase connfd
    rwa [List.erase_cons_head] at herase
  rw [Main.leave, closeSocket_ok (hopen.mem_iff.mpr (List.mem_cons_self ..))]
  cases hrun : m.isRunServer with
  | true =>
    simp only [again, if_true]
    exact ⟨⟨hrest, hledger⟩, trivial, trivial⟩
  | false =>
    have hlisten : m.listenfd ∈ m.openFds.erase connfd :=
      hrest.mem_iff.mpr (List.mem_cons_self ..)
    have hlast := hrest.erase m.listenfd
    rw [List.erase_cons_head] at hlast
    have hrestledger : Ledger m.opened (m.closed ++ [connfd]) ([m.listenfd] ++ []) := hledger
    simp only [again, Bool.false_eq_true, if_false]
    rw [closeSocket_ok hlisten]
    exact ⟨⟨hlast, hrestledger.closing_append⟩, rfl, rfl⟩

/-! ### A round of `handleConnect` -/

/-- Every way a round of a looping `handleConnect` can end. -/
theorem connect_cases {c : Connect} (h : c.Ready) (r : Round) :
    (r.Exits stack ∧ (c.next stack r).loop = .left) ∨
      (¬ r.Exits stack ∧ r.Fatal stack ∧ (c.next stack r).Lost) ∨
      (¬ r.Exits stack ∧ ¬ r.Fatal stack ∧ (c.next stack r).Ready ∧
        (c.next stack r).isRunServer = c.isRunServer) := by
  by_cases hexits : r.Exits stack
  · refine .inl ⟨hexits, ?_⟩
    rw [Connect.next_eq h]
    split
    · rfl
    · rename_i hne
      rw [hexits.resolve_left hne]
      simp
  by_cases hfatal : r.Fatal stack
  · exact .inr (.inl ⟨hexits, hfatal, Connect.next_fatal h hexits hfatal⟩)
  · refine .inr (.inr ⟨hexits, hfatal, Connect.next_goes h hexits hfatal, ?_⟩)
    rw [Connect.next_alive h hexits hfatal]

/-- The process has ended in the loop of this connection. -/
def Lost (connfd : ℤ) (place : Place) : Prop := place = .undefined connfd ∨ place = .killed connfd

/-- And what main makes of it. -/
theorem next_serving {connfd : ℤ} {c : Connect} (hplace : m.place = .serving connfd c)
    (h : c.Ready) (t : Turn) :
    ((answered connfd t.toRound).Exits stack ∧ m.next stack t =
        leave { m with isRunServer := (c.next stack (answered connfd t.toRound)).isRunServer }
          connfd) ∨
      (¬ (answered connfd t.toRound).Exits stack ∧ (answered connfd t.toRound).Fatal stack ∧
        ∃ place, Lost connfd place ∧ m.next stack t =
          { m with isRunServer := (c.next stack (answered connfd t.toRound)).isRunServer
                   place := place }) ∨
      (¬ (answered connfd t.toRound).Exits stack ∧ ¬ (answered connfd t.toRound).Fatal stack ∧
        (c.next stack (answered connfd t.toRound)).Ready ∧
        (c.next stack (answered connfd t.toRound)).isRunServer = c.isRunServer ∧
        m.next stack t =
          { m with isRunServer := c.isRunServer
                   place := .serving connfd (c.next stack (answered connfd t.toRound)) }) := by
  rw [Main.next, hplace]
  rcases connect_cases h (answered connfd t.toRound) with
    ⟨hexits, hloop⟩ | ⟨hexits, hfatal, hloop | hloop⟩ | ⟨hexits, hfatal, hready, hrun⟩
  · refine .inl ⟨hexits, ?_⟩
    simp only [hloop]
  · refine .inr (.inl ⟨hexits, hfatal, _, .inl rfl, ?_⟩)
    simp only [hloop]
  · refine .inr (.inl ⟨hexits, hfatal, _, .inr rfl, ?_⟩)
    simp only [hloop]
  · refine .inr (.inr ⟨hexits, hfatal, hready, hrun, ?_⟩)
    simp only [hready.looping, hrun]

/-! ### Runs -/

/-- All that is known of main. -/
structure Good (inherited : List ℤ) (m : Main) : Prop where
  accounted : m.Accounted inherited
  inPlace : m.InPlace

theorem start_good (inherited : List ℤ) : (start inherited).Good inherited :=
  ⟨start_accounted inherited, rfl⟩

/-- An open descriptor is none of the failed ones. -/
theorem nonneg_of_exits {connfd : ℤ} {r : Round} (h : (answered connfd r).Exits stack) :
    0 ≤ connfd := by
  by_contra hneg
  rw [answered, if_pos (not_le.mp hneg)] at h
  exact Round.not_exits_failed stack (.returned none) h

/-- INVARIANT: every turn leaves everything in order. -/
theorem Good.next (h : m.Good inherited) (t : Turn) : (m.next stack t).Good inherited := by
  obtain ⟨hacc, hin⟩ := h
  cases hplace : m.place with
  | accepting =>
    have hrun : m.isRunServer = true := by rwa [InPlace, hplace] at hin
    have hready : ({ Connect.start with isRunServer := m.isRunServer } : Connect).Ready :=
      ⟨rfl, rfl⟩
    cases ha : t.accepted with
    | none =>
      simp only [Main.next, hplace, ha]
      exact ⟨hacc.stays (by simp [connection, hplace]) (by simp [hplace]), hready, hrun, hrun⟩
    | some wanted =>
      simp only [Main.next, hplace, ha]
      exact ⟨hacc.accept hplace wanted, hready, hrun, hrun⟩
  | serving connfd c =>
    obtain ⟨hready, hcrun, hrun⟩ : c.Ready ∧ c.isRunServer = true ∧ m.isRunServer = true := by
      rwa [InPlace, hplace] at hin
    rcases next_serving hplace hready t with
      ⟨hexits, heq⟩ | ⟨_, _, _, hlost, heq⟩ | ⟨_, _, hready', hrun', heq⟩
    · rw [heq]
      obtain ⟨hacc', hrun', hplace'⟩ := Accounted.leave
        (m := { m with isRunServer := (c.next stack (answered connfd t.toRound)).isRunServer })
        ⟨hacc.openFds, hacc.ledger⟩ hplace (nonneg_of_exits hexits)
      refine ⟨hacc', ?_⟩
      rw [InPlace, hplace', hrun']
      cases (c.next stack (answered connfd t.toRound)).isRunServer with
      | true => exact rfl
      | false => exact rfl
    · rw [heq]
      rcases hlost with rfl | rfl
      · exact ⟨hacc.stays (by simp [connection, hplace]) (by simp [hplace]), trivial⟩
      · exact ⟨hacc.stays (by simp [connection, hplace]) (by simp [hplace]), trivial⟩
    · rw [heq]
      exact ⟨hacc.stays (by simp [connection, hplace]) (by simp [hplace]), hready',
        hrun'.trans hcrun, hcrun⟩
  | stopped | threw | killed | undefined =>
    simp only [Main.next, hplace]
    exact ⟨hacc, hin⟩

/-- One connection at a time: the account, with what is live in each place, and no call of
    `CloseSocket` that throws. -/
structure Orderly (inherited : List ℤ) (m : Main) : Prop where
  openFds : m.openFds.Perm (m.live ++ inherited)
  ledger : Ledger m.opened m.closed m.live
  accepting : m.place = .accepting → m.live = [m.listenfd]
  serving : ∀ connfd connect, m.place = .serving connfd connect → 0 ≤ connfd →
    m.live = [connfd, m.listenfd]
  stopped : m.place = .stopped → m.isRunServer = false ∧ m.openFds.Perm inherited ∧
    m.closed.Perm m.opened
  quiet : ∀ errorText, m.place ≠ .threw errorText

theorem Good.in_order (h : m.Good inherited) : m.Orderly inherited where
  openFds := h.accounted.openFds
  ledger := h.accounted.ledger
  accepting hplace := by simp [live, connection, hplace]
  serving connfd connect hplace hfd := by simp [live, connection, hplace, not_lt.mpr hfd]
  stopped hplace := by
    obtain ⟨⟨hopen, hledger⟩, hin⟩ := h
    have hlive : m.live = [] := by simp [live, connection, hplace]
    rw [hlive] at hopen hledger
    rw [InPlace, hplace] at hin
    exact ⟨hin, hopen, hledger.settled⟩
  quiet errorText hplace := by
    have hin := h.inPlace
    rw [InPlace, hplace] at hin
    exact hin

/-- SAFETY: in every run of main, whatever the system answers, every accepted connection is closed
    before the next is accepted, and main stops with everything it opened closed exactly once. -/
theorem one_connection (inherited : List ℤ) (stack : List UInt8) (turns : List Turn) :
    (turns.foldl (next stack) (start inherited)).Orderly inherited :=
  (foldl_inv (fun _ t h => h.next t) turns (start inherited) (start_good inherited)).in_order

/-- A client comes and goes, and the next one says stop. -/
example : ((([some 0, none, some 7, none].zip
      [none, some ⟨[], by decide⟩, none, some ⟨stopCommand, by decide⟩]).map fun a =>
      (⟨⟨a.2, .returned none⟩, a.1⟩ : Turn)).foldl (next []) (start [0, 1, 2])).closed = [4, 7, 3] := by
  decide +kernel

/-! ### Endless runs -/

/-- main before turn number `n`. -/
def running (inherited : List ℤ) (stack : List UInt8) (turns : ℕ → Turn) (n : ℕ) : Main :=
  after (next stack) (start inherited) turns n

/-- main asks for the next connection, or is through. -/
def Idle (m : Main) : Prop := m.place = .accepting ∨ m.place = .stopped

theorem running_good (inherited : List ℤ) (stack : List UInt8) (turns : ℕ → Turn) (n : ℕ) :
    (running inherited stack turns n).Good inherited := by
  induction n with
  | zero => exact start_good inherited
  | succ n ih => exact ih.next (turns n)

/-- The loop of one connection. -/
structure Serving (inherited : List ℤ) (connfd : ℤ) (m : Main) : Prop where
  good : m.Good inherited
  serving : ∃ c, m.place = .serving connfd c

theorem Serving.ready {connfd : ℤ} (h : m.Serving inherited connfd) :
    ∃ c, m.place = .serving connfd c ∧ c.Ready := by
  obtain ⟨hgood, c, hplace⟩ := h
  have hin := hgood.inPlace
  rw [InPlace, hplace] at hin
  exact ⟨c, hplace, hin.1⟩

/-- A connection comes to its end when a read exits, before any round is fatal. -/
theorem Serving.idle_iff {connfd : ℤ} (h : m.Serving inherited connfd) (turns : ℕ → Turn) :
    (∃ k, (after (Main.next stack) m turns k).Idle) ↔
      ∃ k, (answered connfd (turns k).toRound).Exits stack ∧
        ∀ j < k, ¬ (answered connfd (turns j).toRound).Fatal stack := by
  refine exists_after_iff (G := Serving inherited connfd) (B := fun m => Lost connfd m.place)
    (X := fun t => (answered connfd t.toRound).Exits stack)
    (U := fun t => (answered connfd t.toRound).Fatal stack) ?_ ?_ ?_ ?_ ?_ ?_ h turns
  · intro m t h hexits hover
    obtain ⟨c, hplace, hready⟩ := h.ready
    rcases next_serving hplace hready t with ⟨hx, _⟩ | ⟨_, ho, _⟩ | ⟨_, _, _, _, heq⟩
    · exact absurd hx hexits
    · exact absurd ho hover
    · exact ⟨h.good.next t, _, by rw [heq]⟩
  · intro m t h hexits
    obtain ⟨c, hplace, hready⟩ := h.ready
    rcases next_serving hplace hready t with ⟨_, heq⟩ | ⟨hx, _⟩ | ⟨hx, _⟩
    · obtain ⟨_, _, hplace'⟩ := Accounted.leave
        (m := { m with isRunServer := (c.next stack (answered connfd t.toRound)).isRunServer })
        ⟨h.good.accounted.openFds, h.good.accounted.ledger⟩ hplace (nonneg_of_exits hexits)
      rw [heq, Idle, hplace']
      cases (c.next stack (answered connfd t.toRound)).isRunServer with
      | true => exact .inl rfl
      | false => exact .inr rfl
    · exact absurd hexits hx
    · exact absurd hexits hx
  · intro m t h hexits hover
    obtain ⟨c, hplace, hready⟩ := h.ready
    rcases next_serving hplace hready t with ⟨hx, _⟩ | ⟨_, _, _, hlost, heq⟩ | ⟨_, ho, _⟩
    · exact absurd hx hexits
    · rw [heq]
      exact hlost
    · exact absurd hover ho
  · intro m t hlost
    have hstays : m.next stack t = m := by
      rcases hlost with hplace | hplace <;> simp only [Main.next, hplace]
    rw [hstays]
    exact hlost
  · rintro m ⟨_, c, hplace⟩ (hidle | hidle)
    · rw [hplace] at hidle; cases hidle
    · rw [hplace] at hidle; cases hidle
  · rintro m (hplace | hplace) (hidle | hidle)
    · rw [hplace] at hidle; cases hidle
    · rw [hplace] at hidle; cases hidle
    · rw [hplace] at hidle; cases hidle
    · rw [hplace] at hidle; cases hidle

/-- The first turn of a connection. -/
theorem Good.serving (h : m.Good inherited) (hplace : m.place = .accepting) (t : Turn) :
    (m.next stack t).Serving inherited ((t.accepted.map (freeFd m.openFds)).getD (-1)) := by
  refine ⟨h.next t, ?_⟩
  cases ha : t.accepted with
  | none => simp [Main.next, hplace, ha, serve]
  | some wanted => simp [Main.next, hplace, ha, serve]

/-- A failed accept answers every call with a failure. -/
theorem exits_answered_iff (accepted : Option ℤ) (used : List ℤ) (rounds : ℕ → Round) :
    (∃ k, (answered ((accepted.map (freeFd used)).getD (-1)) (rounds k)).Exits stack ∧
        ∀ j < k, ¬ (answered ((accepted.map (freeFd used)).getD (-1)) (rounds j)).Fatal stack) ↔
      accepted ≠ none ∧ ∃ k, (rounds k).Exits stack ∧ ∀ j < k, ¬ (rounds j).Fatal stack := by
  cases accepted with
  | none =>
    refine iff_of_false ?_ fun h => h.1 rfl
    rintro ⟨k, hexits, _⟩
    exact Round.not_exits_failed stack (.returned none) hexits
  | some wanted =>
    have hall : ∀ r, answered (freeFd used wanted) r = r :=
      fun r => if_neg (not_lt.mpr (freeFd_nonneg used wanted))
    simp [hall]

/-- After turn `n` main is idle at some time just when the connection accepted in it ends. -/
theorem idle_later_iff (turns : ℕ → Turn) {n : ℕ}
    (hplace : (running inherited stack turns n).place = .accepting) :
    (∃ k, n < k ∧ (running inherited stack turns k).Idle) ↔
      (turns n).accepted ≠ none ∧ ∃ k, (turns (n + 1 + k)).Exits stack ∧
        ∀ j < k, ¬ (turns (n + 1 + j)).Fatal stack := by
  have hserving : ((running inherited stack turns n).next stack (turns n)).Serving inherited _ :=
    (running_good inherited stack turns n).serving hplace (turns n)
  rw [← exits_answered_iff _ (running inherited stack turns n).openFds
    fun k => (turns (n + 1 + k)).toRound]
  refine Iff.trans ?_ (hserving.idle_iff fun k => turns (n + 1 + k))
  have hafter : ∀ k, after (next stack) ((running inherited stack turns n).next stack (turns n))
      (fun j => turns (n + 1 + j)) k = running inherited stack turns (n + 1 + k) :=
    after_add (next stack) (start inherited) turns (n + 1)
  simp only [hafter]
  constructor
  · rintro ⟨m, hlt, hidle⟩
    obtain ⟨k, rfl⟩ := Nat.exists_eq_add_of_le (Nat.succ_le_of_lt hlt)
    exact ⟨k, hidle⟩
  · rintro ⟨k, hidle⟩
    exact ⟨n + 1 + k, by omega, hidle⟩

/-- LIVENESS: main comes back to `accept`, or has stopped, again and again just when no accept fails
    and in every connection some read returns 0 or brings the stop command, before any that the scan
    for a string overruns and any write that SIGPIPE ends. -/
theorem responsive_iff (inherited : List ℤ) (stack : List UInt8) (turns : ℕ → Turn) :
    (∀ n, ∃ k, n ≤ k ∧ (running inherited stack turns k).Idle) ↔
      ∀ n, (running inherited stack turns n).place = .accepting →
        (turns n).accepted ≠ none ∧ ∃ k, (turns (n + 1 + k)).Exits stack ∧
          ∀ j < k, ¬ (turns (n + 1 + j)).Fatal stack := by
  rw [recurs_iff (P := fun n => (running inherited stack turns n).Idle) (.inl rfl)]
  refine forall_congr' fun n => ?_
  constructor
  · intro hback hplace
    exact (idle_later_iff turns hplace).mp (hback (.inl hplace))
  · rintro hends (hplace | hplace)
    · exact (idle_later_iff turns hplace).mpr (hends hplace)
    · have hstays : running inherited stack turns (n + 1) = running inherited stack turns n := by
        have hstep : running inherited stack turns (n + 1) =
          (running inherited stack turns n).next stack (turns n) := rfl
        rw [hstep]
        simp only [Main.next, hplace]
      exact ⟨n + 1, Nat.lt_succ_self n, .inr (hstays ▸ hplace)⟩

end Main
end UnixIpc.Servers.SimpleServer
