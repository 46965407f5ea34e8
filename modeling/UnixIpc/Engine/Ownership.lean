import UnixIpc.Lib.Run
import UnixIpc.Engine.Acceptor

/-! Who holds a descriptor: `Socket` objects and the special members that copy, move and overwrite a
    bare `int`. Numbers come back after a close, so a descriptor is told by the order in which the
    kernel gave it out (its serial); an object holds the serial it got its number with.

        create, accept ──k──▶ object ──copy──▶ another holder of k
                                │  └──move──▶ the holder of k, the source holds nothing
                                ├── close: close(2) for k, and the object holds k as before
                                └── destroyed, or assigned over: one holder less

    `Owned` is what an owner would guarantee, `Safe` the operations that keep it. -/

namespace UnixIpc.Engine
open UnixIpc.Descriptors UnixIpc.Run

/-- A `Socket` object. Beside it: the serial of the descriptor it holds, if it holds one, and the
    serials of those it has held. -/
structure SocketObject where
  socket : Socket
  held : Option ℕ
  past : List ℕ

/-- The objects by address and the open descriptors, with the serials close(2) was called for. The
    next serial is `obtained`. -/
structure Sockets where
  objects : ℕ → Option SocketObject
  openFds : List ℤ
  obtained : ℕ
  closes : List ℕ

/-- An operation on objects at addresses. `wanted` is the descriptor socket(2) or accept(2) would
    like to return (`none`: it fails). -/
inductive SocketOp where
  | create (id : ℕ) (type : SocketType) (wanted : Option ℤ)
  | accept (id listener : ℕ) (wanted : Option ℤ)
  | copyConstruct (id other : ℕ)
  | moveConstruct (id other : ℕ)
  | copyAssign (id other : ℕ)
  | moveAssign (id other : ℕ)
  | close (id : ℕ)
  | destroy (id : ℕ)

/-- `other.socket_ = -1`. -/
def SocketObject.emptied (o : SocketObject) : SocketObject :=
  { o with socket := o.socket.moved, held := none }

/-- A new object with the same `socket_`. -/
def SocketObject.copied (o : SocketObject) : SocketObject := ⟨o.socket, o.held, o.held.toList⟩

/-- An object that takes over the `socket_` of another. -/
def SocketObject.assigned (t o : SocketObject) : SocketObject :=
  ⟨o.socket, o.held, t.past ++ o.held.toList⟩

namespace Sockets

def start (inherited : List ℤ) : Sockets := ⟨fun _ => none, inherited, 0, []⟩

def put (s : Sockets) (id : ℕ) (o : Option SocketObject) : Sockets :=
  { s with objects := Function.update s.objects id o }

/-- A new object for a new descriptor. -/
def obtain_ (s : Sockets) (id : ℕ) (type : SocketType) (wanted : ℤ) : Sockets :=
  let fd := freeFd s.openFds wanted
  { s.put id (some ⟨⟨fd, type⟩, some s.obtained, [s.obtained]⟩) with
    openFds := fd :: s.openFds
    obtained := s.obtained + 1 }

/-- One operation; nothing happens where the objects are not there, or the call throws before it has
    done anything. -/
def next (s : Sockets) : SocketOp → Sockets
  | .create id type wanted =>
    match s.objects id, wanted with
    | none, some fd => s.obtain_ id type fd
    | _, _ => s
  | .accept id listener wanted =>
    match s.objects id, s.objects listener, wanted with
    | none, some o, some fd =>
      if o.socket.type = .listener ∧ o.socket.fd ∈ s.openFds then s.obtain_ id .usual fd else s
    | _, _, _ => s
  | .copyConstruct id other =>
    match s.objects id, s.objects other with
    | none, some o => s.put id (some o.copied)
    | _, _ => s
  | .moveConstruct id other =>
    match s.objects id, s.objects other with
    | none, some o => (s.put id (some o.copied)).put other (some o.emptied)
    | _, _ => s
  | .copyAssign id other =>
    match s.objects id, s.objects other with
    | some t, some o => s.put id (some (t.assigned o))
    | _, _ => s
  | .moveAssign id other =>
    match s.objects id, s.objects other with
    | some t, some o =>
      -- on itself: the members first, then `other.socket_ = -1`
      (s.put id (some (t.assigned o))).put other
        (some (if id = other then (t.assigned o).emptied else o.emptied))
    | _, _ => s
  | .close id =>
    match s.objects id with
    | some o =>
      if 0 < o.socket.fd then
        { s with openFds := s.openFds.erase o.socket.fd, closes := s.closes ++ o.held.toList }
      else s
    | none => s
  | .destroy id => s.put id none

/-- The object at `id` holds the descriptor with serial `k`. -/
def Holds (s : Sockets) (id k : ℕ) : Prop := ∃ o, s.objects id = some o ∧ o.held = some k

/-- The object at `id` exists and has held it. -/
def HasHeld (s : Sockets) (id k : ℕ) : Prop := ∃ o, s.objects id = some o ∧ k ∈ o.past

/-- close(2) at most once for each descriptor, and none that is open is lost to the objects that have
    held it. -/
structure Owned (s : Sockets) : Prop where
  once : s.closes.Nodup
  held : ∀ k, k ∉ s.closes → (∃ id, s.HasHeld id k) → ∃ id, s.Holds id k

/-- Another object holds what the object at `id` holds, unless that has been closed. -/
def Covered (s : Sockets) (id : ℕ) : Prop :=
  ∀ k, s.Holds id k → k ∉ s.closes → ∃ other, other ≠ id ∧ s.Holds other k

/-- The operation closes only what has not been closed. It overwrites, or moves onto itself, only an
    object whose descriptor is closed or held elsewhere, and it destroys only such an object or the
    last one that ever held its descriptor. -/
def Safe (s : Sockets) : SocketOp → Prop
  | .close id => ∀ o, s.objects id = some o → 0 < o.socket.fd → ∀ k, o.held = some k → k ∉ s.closes
  | .copyAssign id other => id = other ∨ s.objects other = none ∨ s.Covered id
  | .moveAssign id other => s.objects other = none ∨ s.Covered id
  | .destroy id => ∀ k, s.Holds id k → k ∉ s.closes → (∃ other, other ≠ id ∧ s.HasHeld other k) →
      ∃ other, other ≠ id ∧ s.Holds other k
  | _ => True

/-- INVARIANT: the bookkeeping beside the objects. -/
structure Kept (s : Sockets) : Prop where
  past : ∀ id o, s.objects id = some o → ∀ k, o.held = some k → k ∈ o.past
  moved : ∀ id o, s.objects id = some o → o.held = none → o.socket.fd < 0
  old : ∀ id o, s.objects id = some o → ∀ k ∈ o.past, k < s.obtained
  closed : ∀ k ∈ s.closes, k < s.obtained

theorem start_kept (inherited : List ℤ) : (start inherited).Kept where
  past := by simp [start]
  moved := by simp [start]
  old := by simp [start]
  closed := by simp [start]

theorem start_owned (inherited : List ℤ) : (start inherited).Owned where
  once := List.nodup_nil
  held := by simp [start, HasHeld]

/-! ### One object changes -/

theorem put_self {s : Sockets} {id : ℕ} {o : Option SocketObject} :
    (s.put id o).objects id = o := Function.update_self ..

theorem put_of_ne {s : Sockets} {id other : ℕ} {o : Option SocketObject} (h : other ≠ id) :
    (s.put id o).objects other = s.objects other := Function.update_of_ne h ..

/-- What an object may become, for the bookkeeping. -/
structure Fits (obtained : ℕ) (o : SocketObject) : Prop where
  past : ∀ k, o.held = some k → k ∈ o.past
  moved : o.held = none → o.socket.fd < 0
  old : ∀ k ∈ o.past, k < obtained

theorem Kept.fits {s : Sockets} (h : s.Kept) {id : ℕ} {o : SocketObject}
    (ho : s.objects id = some o) : Fits s.obtained o :=
  ⟨h.past id o ho, h.moved id o ho, h.old id o ho⟩

theorem Kept.put {s : Sockets} (h : s.Kept) {id : ℕ} {o : Option SocketObject}
    (ho : ∀ o', o = some o' → Fits s.obtained o') : (s.put id o).Kept := by
  have hall : ∀ id' o', (s.put id o).objects id' = some o' → Fits s.obtained o' := by
    intro id' o' ho'
    by_cases hid : id' = id
    · rw [hid, put_self] at ho'
      exact ho o' ho'
    · rw [put_of_ne hid] at ho'
      exact h.fits ho'
  exact ⟨fun id' o' ho' => (hall id' o' ho').past, fun id' o' ho' => (hall id' o' ho').moved,
    fun id' o' ho' => (hall id' o' ho').old, h.closed⟩

theorem Fits.copied {n : ℕ} {o : SocketObject} (h : Fits n o) : Fits n o.copied where
  past _ hk := Option.mem_toList.mpr hk
  moved hnone := h.moved hnone
  old k hk := h.old k (h.past k (Option.mem_toList.mp hk))

theorem Fits.emptied {n : ℕ} {o : SocketObject} (h : Fits n o) : Fits n o.emptied where
  past _ hk := absurd hk (by simp [SocketObject.emptied])
  moved _ := by simp [SocketObject.emptied, Socket.moved]
  old := h.old

theorem Fits.assigned {n : ℕ} {t o : SocketObject} (ht : Fits n t) (h : Fits n o) :
    Fits n (t.assigned o) where
  past _ hk := List.mem_append_right _ (Option.mem_toList.mpr hk)
  moved hnone := h.moved hnone
  old k hk := by
    rcases List.mem_append.mp hk with hk | hk
    · exact ht.old k hk
    · exact h.old k (h.past k (Option.mem_toList.mp hk))

/-- Serials that are still to come may be as many as they like. -/
theorem Kept.raise {s : Sockets} (h : s.Kept) {n : ℕ} (hn : s.obtained ≤ n) (openFds : List ℤ) :
    Kept { s with openFds := openFds, obtained := n } :=
  ⟨h.past, h.moved, fun id o ho k hk => Nat.lt_of_lt_of_le (h.old id o ho k hk) hn,
    fun k hk => Nat.lt_of_lt_of_le (h.closed k hk) hn⟩

theorem Kept.obtain_ {s : Sockets} (h : s.Kept) (id : ℕ) (type : SocketType) (wanted : ℤ) :
    (s.obtain_ id type wanted).Kept := by
  have hraised := h.raise (Nat.le_succ s.obtained) (freeFd s.openFds wanted :: s.openFds)
  refine hraised.put ?_
  rintro o ⟨⟩
  refine ⟨?_, ?_, ?_⟩
  · rintro k ⟨⟩
    exact List.mem_singleton_self _
  · rintro ⟨⟩
  · intro k hk
    rw [List.mem_singleton.mp hk]
    exact Nat.lt_succ_self _

theorem Kept.close {s : Sockets} (h : s.Kept) {id : ℕ} {o : SocketObject}
    (ho : s.objects id = some o) (openFds : List ℤ) :
    Kept { s with openFds := openFds, closes := s.closes ++ o.held.toList } := by
  refine ⟨h.past, h.moved, h.old, ?_⟩
  intro k hk
  rcases List.mem_append.mp hk with hk | hk
  · exact h.closed k hk
  · exact h.old id o ho k (h.past id o ho k (Option.mem_toList.mp hk))

/-- STEP: every operation keeps the bookkeeping. -/
theorem Kept.next {s : Sockets} (h : s.Kept) (op : SocketOp) : (s.next op).Kept := by
  have hfits {id : ℕ} {o : SocketObject} : s.objects id = some o → Fits s.obtained o := h.fits
  rcases op with ⟨id, type, wanted⟩ | ⟨id, listener, wanted⟩ | ⟨id, other⟩ | ⟨id, other⟩ |
    ⟨id, other⟩ | ⟨id, other⟩ | id | id <;> simp only [Sockets.next]
  · split
    · exact h.obtain_ ..
    · exact h
  · split
    · split
      · exact h.obtain_ ..
      · exact h
    · exact h
  · split
    · rename_i o _ ho
      refine h.put ?_
      rintro _ ⟨⟩
      exact (hfits ho).copied
    · exact h
  · split
    · rename_i o _ ho
      refine Kept.put (h.put ?_) ?_
      · rintro _ ⟨⟩
        exact (hfits ho).copied
      · rintro _ ⟨⟩
        exact (hfits ho).emptied
    · exact h
  · split
    · rename_i t o ht ho
      refine h.put ?_
      rintro _ ⟨⟩
      exact (hfits ht).assigned (hfits ho)
    · exact h
  · split
    · rename_i t o ht ho
      have hassigned := (hfits ht).assigned (hfits ho)
      refine Kept.put (h.put ?_) ?_
      · rintro _ ⟨⟩
        exact hassigned
      · rintro _ ⟨⟩
        split
        · exact hassigned.emptied
        · exact (hfits ho).emptied
    · exact h
  · split
    · rename_i o ho
      split
      · exact h.close ho _
      · exact h
    · exact h
  · exact h.put (by rintro _ ⟨⟩)

/-! ### Holders -/

theorem holds_put {s : Sockets} {id x k : ℕ} {o : Option SocketObject} :
    (s.put id o).Holds x k ↔
      (x = id ∧ ∃ o', o = some o' ∧ o'.held = some k) ∨ (x ≠ id ∧ s.Holds x k) := by
  rcases eq_or_ne x id with rfl | hx
  · simp [Holds, put_self]
  · simp [Holds, put_of_ne hx, hx]

theorem hasHeld_put {s : Sockets} {id x k : ℕ} {o : Option SocketObject} :
    (s.put id o).HasHeld x k ↔
      (x = id ∧ ∃ o', o = some o' ∧ k ∈ o'.past) ∨ (x ≠ id ∧ s.HasHeld x k) := by
  rcases eq_or_ne x id with rfl | hx
  · simp [HasHeld, put_self]
  · simp [HasHeld, put_of_ne hx, hx]

theorem Kept.hasHeld {s : Sockets} (h : s.Kept) {id k : ℕ} (hk : s.Holds id k) :
    s.HasHeld id k := by
  obtain ⟨o, ho, hheld⟩ := hk
  exact ⟨o, ho, h.past id o ho k hheld⟩

/-- Descriptors stay owned when every holder that goes leaves another, and what an object newly has
    held is held. -/
theorem Owned.of_holders {s t : Sockets} (h : s.Owned) (hcloses : t.closes = s.closes)
    (hholds : ∀ k, k ∉ s.closes → (∃ x, t.HasHeld x k) → (∃ x, s.Holds x k) → ∃ x, t.Holds x k)
    (hhas : ∀ x k, t.HasHeld x k → (∃ y, s.HasHeld y k) ∨ t.Holds x k) : t.Owned where
  once := hcloses ▸ h.once
  held := by
    rintro k hk ⟨x, hx⟩
    rw [hcloses] at hk
    rcases hhas x k hx with hold | hnew
    · exact hholds k hk ⟨x, hx⟩ (h.held k hk hold)
    · exact ⟨x, hnew⟩

/-- STEP: a new descriptor is held by the object it was obtained for. -/
theorem Owned.obtain_ {s : Sockets} (h : s.Owned) {id : ℕ} (hid : s.objects id = none)
    (type : SocketType) (wanted : ℤ) : (s.obtain_ id type wanted).Owned := by
  refine h.of_holders rfl ?_ ?_
  · rintro k - - ⟨x, hx⟩
    have hne : x ≠ id := by
      rintro rfl
      obtain ⟨o, ho, _⟩ := hx
      exact absurd (hid.symm.trans ho) (by simp)
    exact ⟨x, holds_put.mpr (.inr ⟨hne, hx⟩)⟩
  · intro x k hk
    rcases hasHeld_put.mp hk with ⟨rfl, o, ⟨⟩, hpast⟩ | ⟨hne, hold⟩
    · refine .inr (holds_put.mpr (.inl ⟨rfl, _, rfl, ?_⟩))
      rw [List.mem_singleton.mp hpast]
    · exact .inl ⟨x, hold⟩

/-- STEP: an object is made, changed or overwritten. What it held it still holds, or another object
    does, and what it has newly held it holds. -/
theorem Owned.put {s : Sockets} (h : s.Owned) {id : ℕ} {o : SocketObject}
    (hheld : ∀ k, s.Holds id k → k ∉ s.closes →
      o.held = some k ∨ ∃ other, other ≠ id ∧ s.Holds other k)
    (hpast : ∀ k ∈ o.past, s.HasHeld id k ∨ o.held = some k) : (s.put id (some o)).Owned := by
  refine h.of_holders rfl ?_ ?_
  · rintro k hk - ⟨x, hx⟩
    rcases eq_or_ne x id with rfl | hne
    · rcases hheld k hx hk with hself | ⟨y, hy, hother⟩
      · exact ⟨x, holds_put.mpr (.inl ⟨rfl, o, rfl, hself⟩)⟩
      · exact ⟨y, holds_put.mpr (.inr ⟨hy, hother⟩)⟩
    · exact ⟨x, holds_put.mpr (.inr ⟨hne, hx⟩)⟩
  · intro x k hk
    rcases hasHeld_put.mp hk with ⟨rfl, _, ⟨⟩, hold⟩ | ⟨hne, hold⟩
    · rcases hpast k hold with hhas | hself
      · exact .inl ⟨x, hhas⟩
      · exact .inr (holds_put.mpr (.inl ⟨rfl, o, rfl, hself⟩))
    · exact .inl ⟨x, hold⟩

/-- STEP: after an operation only what other objects held is held, and what the object at `id` has
    held it has held. So the descriptor is lost unless it was covered. -/
theorem covered_of_owned {s t : Sockets} (hs : s.Kept) (ht : t.Owned)
    (hcloses : t.closes = s.closes) {id : ℕ} (hhas : ∀ k, s.HasHeld id k → t.HasHeld id k)
    (hholds : ∀ x k, t.Holds x k → ∃ y, y ≠ id ∧ s.Holds y k) : s.Covered id := by
  intro k hk hopen
  obtain ⟨x, hx⟩ := ht.held k (hcloses ▸ hopen) ⟨id, hhas k (hs.hasHeld hk)⟩
  exact hholds x k hx

/-! ### The operations, one by one -/

theorem Owned.copyConstruct {s : Sockets} (h : s.Owned) {id : ℕ} {o : SocketObject}
    (hid : s.objects id = none) : (s.put id (some o.copied)).Owned := by
  refine h.put ?_ fun _ hk => .inr (Option.mem_toList.mp hk)
  rintro k ⟨o', ho', _⟩
  exact absurd (hid.symm.trans ho') (by simp)

/-- An object that is covered, or whose descriptor the object at `id` has taken over, is emptied. -/
theorem Owned.emptied {s : Sockets} (h : s.Owned) {id : ℕ} {o : SocketObject}
    (hid : s.objects id = some o) (hcovered : s.Covered id) :
    (s.put id (some o.emptied)).Owned :=
  h.put (fun k hk hopen => .inr (hcovered k hk hopen)) fun _ hk => .inl ⟨o, hid, hk⟩

theorem Owned.assigned {s : Sockets} (h : s.Owned) {id : ℕ} {t o : SocketObject}
    (hid : s.objects id = some t) (hcovered : t.held = o.held ∨ s.Covered id) :
    (s.put id (some (t.assigned o))).Owned := by
  refine h.put ?_ ?_
  · intro k hk hopen
    rcases hcovered with hsame | hcovered
    · obtain ⟨t', ht', hheld⟩ := hk
      obtain rfl : t = t' := Option.some.inj (hid.symm.trans ht')
      exact .inl (hsame.symm.trans hheld)
    · exact .inr (hcovered k hk hopen)
  · intro k hk
    rcases List.mem_append.mp hk with hk | hk
    · exact .inl ⟨t, hid, hk⟩
    · exact .inr (Option.mem_toList.mp hk)

/-- What the object at `other` holds, the object at `id` holds now. -/
theorem covered_put {s : Sockets} {id other : ℕ} {o o' : SocketObject} (hne : id ≠ other)
    (ho : s.objects other = some o) (hheld : o'.held = o.held) :
    (s.put id (some o')).Covered other := by
  intro k hk _
  rcases holds_put.mp hk with ⟨rfl, _⟩ | ⟨_, o1, ho1, hk1⟩
  · exact absurd rfl hne
  · obtain rfl : o = o1 := Option.some.inj (ho.symm.trans ho1)
    exact ⟨id, hne, holds_put.mpr (.inl ⟨rfl, o', rfl, hheld.trans hk1⟩)⟩

theorem Owned.moveConstruct {s : Sockets} (h : s.Owned) {id other : ℕ} {o : SocketObject}
    (hid : s.objects id = none) (ho : s.objects other = some o) :
    ((s.put id (some o.copied)).put other (some o.emptied)).Owned := by
  have hne : id ≠ other := by
    rintro rfl
    exact absurd (hid.symm.trans ho) (by simp)
  exact (h.copyConstruct hid).emptied ((put_of_ne hne.symm).trans ho) (covered_put hne ho rfl)

/-- The object at `id` has held what it held before, once it is assigned to. -/
theorem hasHeld_assigned {s : Sockets} {id k : ℕ} {t o : SocketObject} (ht : s.objects id = some t)
    (hk : s.HasHeld id k) : (s.put id (some (t.assigned o))).HasHeld id k := by
  obtain ⟨t', ht', hpast⟩ := hk
  obtain rfl : t = t' := Option.some.inj (ht.symm.trans ht')
  exact ⟨t.assigned o, put_self, List.mem_append_left _ hpast⟩

/-- What is held after an assignment is held by other objects than the target. -/
theorem holds_assigned {s : Sockets} {id other x k : ℕ} {t o : SocketObject} (hne : id ≠ other)
    (ho : s.objects other = some o) (hx : (s.put id (some (t.assigned o))).Holds x k) :
    ∃ y, y ≠ id ∧ s.Holds y k := by
  rcases holds_put.mp hx with ⟨rfl, _, ⟨⟩, hheld⟩ | ⟨hxid, hheld⟩
  · exact ⟨other, hne.symm, o, ho, hheld⟩
  · exact ⟨x, hxid, hheld⟩

/-- EXACT: a copy assignment. -/
theorem copyAssign_iff {s : Sockets} (h : s.Owned) (hs : s.Kept) {id other : ℕ}
    {t o : SocketObject} (ht : s.objects id = some t) (ho : s.objects other = some o) :
    (s.put id (some (t.assigned o))).Owned ↔ id = other ∨ s.Covered id := by
  constructor
  · intro howned
    rcases eq_or_ne id other with rfl | hne
    · exact .inl rfl
    · exact .inr (covered_of_owned hs howned rfl (fun k => hasHeld_assigned ht)
        (fun x k => holds_assigned hne ho))
  · rintro (rfl | hcovered)
    · obtain rfl : t = o := Option.some.inj (ht.symm.trans ho)
      exact h.assigned ht (.inl rfl)
    · exact h.assigned ht (.inr hcovered)

/-- EXACT: a move assignment from another object. -/
theorem moveAssign_iff_of_ne {s : Sockets} (h : s.Owned) (hs : s.Kept) {id other : ℕ}
    {t o : SocketObject} (hne : id ≠ other) (ht : s.objects id = some t)
    (ho : s.objects other = some o) :
    ((s.put id (some (t.assigned o))).put other (some o.emptied)).Owned ↔ s.Covered id := by
  have hother : (s.put id (some (t.assigned o))).objects other = some o :=
    (put_of_ne hne.symm).trans ho
  constructor
  · intro howned
    refine covered_of_owned hs howned rfl ?_ ?_
    · intro k hk
      exact hasHeld_put.mpr (.inr ⟨hne, hasHeld_assigned ht hk⟩)
    · intro x k hx
      rcases holds_put.mp hx with ⟨rfl, _, ⟨⟩, hheld⟩ | ⟨_, hheld⟩
      · exact absurd hheld (by simp [SocketObject.emptied])
      · exact holds_assigned hne ho hheld
  · intro hcovered
    exact (h.assigned ht (.inr hcovered)).emptied hother (covered_put hne ho rfl)

/-- EXACT: a move assignment of an object to itself. -/
theorem moveAssign_iff_self {s : Sockets} (h : s.Owned) (hs : s.Kept) {id : ℕ} {o : SocketObject}
    (ho : s.objects id = some o) :
    ((s.put id (some (o.assigned o))).put id (some (o.assigned o).emptied)).Owned ↔
      s.Covered id := by
  constructor
  · intro howned
    refine covered_of_owned hs howned rfl ?_ ?_
    · rintro k ⟨o', ho', hpast⟩
      obtain rfl : o = o' := Option.some.inj (ho.symm.trans ho')
      exact ⟨_, put_self, List.mem_append_left _ hpast⟩
    · intro x k hx
      rcases holds_put.mp hx with ⟨rfl, _, ⟨⟩, hheld⟩ | ⟨hne, hheld⟩
      · exact absurd hheld (by simp [SocketObject.emptied])
      · rcases holds_put.mp hheld with ⟨rfl, _⟩ | ⟨_, hheld⟩
        · exact absurd rfl hne
        · exact ⟨x, hne, hheld⟩
  · intro hcovered
    refine (h.assigned ho (.inl rfl)).emptied put_self ?_
    intro k hk hopen
    have hself : s.Holds id k := by
      rcases holds_put.mp hk with ⟨_, _, ⟨⟩, hheld⟩ | ⟨hne, _⟩
      · exact ⟨o, ho, hheld⟩
      · exact absurd rfl hne
    obtain ⟨y, hy, hheld⟩ := hcovered k hself hopen
    exact ⟨y, hy, holds_put.mpr (.inr ⟨hy, hheld⟩)⟩

/-- EXACT: a destruction. -/
theorem destroy_iff {s : Sockets} (h : s.Owned) (id : ℕ) :
    (s.put id none).Owned ↔ s.Safe (.destroy id) := by
  have hholds {x k : ℕ} : (s.put id none).Holds x k ↔ x ≠ id ∧ s.Holds x k := by simp [holds_put]
  have hhas {x k : ℕ} : (s.put id none).HasHeld x k ↔ x ≠ id ∧ s.HasHeld x k := by
    simp [hasHeld_put]
  constructor
  · rintro howned k - hopen ⟨other, hother⟩
    obtain ⟨x, hx⟩ := howned.held k hopen ⟨other, hhas.mpr hother⟩
    exact ⟨x, hholds.mp hx⟩
  · intro hsafe
    refine ⟨h.once, ?_⟩
    rintro k hopen ⟨other, hother⟩
    obtain ⟨hne, hheld⟩ := hhas.mp hother
    obtain ⟨x, hx⟩ := h.held k hopen ⟨other, hheld⟩
    rcases eq_or_ne x id with rfl | hxid
    · obtain ⟨y, hy⟩ := hsafe k hx hopen ⟨other, hne, hheld⟩
      exact ⟨y, hholds.mpr hy⟩
    · exact ⟨x, hholds.mpr ⟨hxid, hx⟩⟩

/-- EXACT: a call of close(2). -/
theorem close_iff {s : Sockets} (h : s.Owned) (o : SocketObject) (openFds : List ℤ) :
    Owned { s with openFds := openFds, closes := s.closes ++ o.held.toList } ↔
      ∀ k, o.held = some k → k ∉ s.closes := by
  constructor
  · intro howned k hk hclosed
    have honce := howned.once
    simp only [hk, Option.toList_some] at honce
    exact (List.nodup_append.mp honce).2.2 k hclosed k (List.mem_singleton_self k) rfl
  · intro hnew
    refine ⟨?_, ?_⟩
    · refine List.nodup_append.mpr ⟨h.once, ?_, ?_⟩
      · rcases o.held with _ | k
        · exact List.nodup_nil
        · exact List.nodup_singleton k
      · rintro k hk k' hk' rfl
        exact hnew k (Option.mem_toList.mp hk') hk
    · intro k hk hhas
      exact h.held k (fun hclosed => hk (List.mem_append_left _ hclosed)) hhas

/-- STEP: the operations that keep descriptors owned are the safe ones. -/
theorem owned_next_iff {s : Sockets} (h : s.Owned) (hs : s.Kept) (op : SocketOp) :
    (s.next op).Owned ↔ s.Safe op := by
  have hfree {id : ℕ} (hid : s.objects id = none) : s.Covered id := by
    rintro k ⟨o, ho, _⟩
    exact absurd (hid.symm.trans ho) (by simp)
  rcases op with ⟨id, type, wanted⟩ | ⟨id, listener, wanted⟩ | ⟨id, other⟩ | ⟨id, other⟩ |
    ⟨id, other⟩ | ⟨id, other⟩ | id | id <;> simp only [Sockets.next, Safe]
  · refine iff_of_true ?_ trivial
    split
    · rename_i hid
      exact h.obtain_ hid ..
    · exact h
  · refine iff_of_true ?_ trivial
    split
    · rename_i hid _
      split
      · exact h.obtain_ hid ..
      · exact h
    · exact h
  · refine iff_of_true ?_ trivial
    split
    · rename_i hid _
      exact h.copyConstruct hid
    · exact h
  · refine iff_of_true ?_ trivial
    split
    · rename_i hid ho
      exact h.moveConstruct hid ho
    · exact h
  · rcases ht : s.objects id with _ | t
    · exact iff_of_true h (.inr (.inr (hfree ht)))
    rcases ho : s.objects other with _ | o
    · exact iff_of_true h (.inr (.inl rfl))
    · simpa using copyAssign_iff h hs ht ho
  · rcases ht : s.objects id with _ | t
    · exact iff_of_true h (.inr (hfree ht))
    rcases ho : s.objects other with _ | o
    · exact iff_of_true h (.inl rfl)
    rcases eq_or_ne id other with rfl | hne
    · obtain rfl : t = o := Option.some.inj (ht.symm.trans ho)
      simpa using moveAssign_iff_self h hs ht
    · simpa [hne] using moveAssign_iff_of_ne h hs hne ht ho
  · rcases ho : s.objects id with _ | o
    · exact iff_of_true h (by simp)
    dsimp only
    split
    · rename_i hfd
      rw [close_iff h o]
      simp [hfd]
    · rename_i hfd
      exact iff_of_true h (by simp [hfd])
  · exact destroy_iff h id

/-- EXACT: descriptors are owned along a run of operations exactly when every one of them is safe. -/
theorem owned_iff_safe (inherited : List ℤ) (ops : List SocketOp) :
    Along next Owned (start inherited) ops ↔ Throughout next Safe (start inherited) ops := by
  refine along_iff_throughout (A := fun _ => True) (G := fun s => s.Owned ∧ s.Kept)
    (fun _ hs => hs.1) ?_ ?_ ops (start inherited) (fun _ _ => trivial)
    ⟨start_owned inherited, start_kept inherited⟩
  · rintro s op ⟨howned, hkept⟩ - hsafe
    exact ⟨(owned_next_iff howned hkept op).mpr hsafe, hkept.next op⟩
  · rintro s op ⟨howned, hkept⟩ - hunsafe hnext
    exact hunsafe ((owned_next_iff howned hkept op).mp hnext)

/-- A socket that is closed twice: the second close(2) hits the connection that has been given the
    number since. And one that is moved onto itself: nobody holds its descriptor. -/
theorem twice_and_lost :
    let reused : List SocketOp := [.create 0 .usual (some 3), .close 0, .create 1 .usual (some 3)]
    let s := reused.foldl next (start [0, 1, 2])
    s.openFds = [3, 0, 1, 2] ∧ (s.next (.close 0)).openFds = [0, 1, 2] ∧
      (s.next (.close 0)).closes = [0, 0] ∧
      ¬ Along next Owned (start [0, 1, 2]) (reused ++ [.close 0]) ∧
      ¬ Along next Owned (start [0, 1, 2])
        [.create 0 .usual (some 3), .moveAssign 0 0] := by
  refine ⟨by decide, by decide, by decide, ?_, ?_⟩
  · intro h
    exact absurd h.last.once (by decide)
  · intro h
    obtain ⟨id, hid⟩ := h.last.held 0 (by decide) ⟨0, _, rfl, by decide⟩
    rcases holds_put.mp hid with ⟨rfl, _, ⟨⟩, hheld⟩ | ⟨hne, hheld⟩
    · exact absurd hheld (by decide)
    rcases holds_put.mp hheld with ⟨rfl, _⟩ | ⟨_, hheld⟩
    · exact hne rfl
    rcases holds_put.mp hheld with ⟨rfl, _⟩ | ⟨_, o, ho, _⟩
    · exact hne rfl
    · exact absurd ho (by simp [start])

end Sockets
end UnixIpc.Engine
