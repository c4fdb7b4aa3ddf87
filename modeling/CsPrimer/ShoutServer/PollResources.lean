import CsPrimer.ShoutServer.PollServer

/-!
What `poll` holds at any time. The open accepted descriptors are the
registered clients, each with its own user data and its own buffer, nothing
else is live, and what is still to be handled of a batch is live. No step
leads to `fault`.
-/

namespace CsPrimer.ShoutServer.Epoll

open Foundation

def bufferOf (userData : Heap UserData) (pud : Nat) : Option Nat :=
  (userData.cell pud).bind UserData.buffer

/-- The accepted descriptors that are open are the registered ones other than
the listening sockets. Registered descriptors own the live user data, and the
user data of clients own the live buffers. -/
structure Accounted (lsockfds : List Nat) (p : Process) : Prop where
  not_listening : ∀ fd ∈ lsockfds, p.fds.table fd = none
  registered : ∀ fd, fd ∉ lsockfds →
    ((p.fds.table fd).isSome ↔ (p.interest fd).isSome)
  user_data : p.userData.OwnedBy p.interest
  own_fd : ∀ fd pud data, p.interest fd = some pud →
    p.userData.cell pud = some data → data.fd = fd
  has_buffer : ∀ pud data, p.userData.cell pud = some data →
    (data.buffer.isSome ↔ data.fd ∉ lsockfds)
  buffers : p.buffers.OwnedBy (bufferOf p.userData)

variable {lsockfds : List Nat} {p p' : Process} {fd pud buf : Nat}
  {data : UserData}

/-- A closed accepted descriptor is registered for nothing. -/
theorem Accounted.not_registered (h : Accounted lsockfds p)
    (hclient : fd ∉ lsockfds) (hclosed : p.fds.table fd = none) :
    p.interest fd = none := by
  have hiff := h.registered fd hclient
  rw [hclosed] at hiff
  cases hfd : p.interest fd with
  | none => rfl
  | some pud =>
      rw [hfd] at hiff
      exact absurd (hiff.mpr rfl) (by simp)

theorem Accounted.interest_of_live (h : Accounted lsockfds p)
    (hlive : p.userData.cell pud = some data) :
    p.interest data.fd = some pud := by
  have hsome : (p.userData.cell pud).isSome :=
    Option.isSome_of_eq_some hlive
  obtain ⟨fd, hfd⟩ := h.user_data.owned hsome
  obtain rfl := h.own_fd fd pud data hfd hlive
  exact hfd

/-- The live user data of a client: its descriptor is open and its buffer is
live. -/
theorem Accounted.client (h : Accounted lsockfds p)
    (hlive : p.userData.cell pud = some data) (hclient : data.fd ∉ lsockfds) :
    (p.fds.table data.fd).isSome ∧
      ∃ buf, data.buffer = some buf ∧ (p.buffers.cell buf).isSome := by
  constructor
  · rw [h.registered data.fd hclient, h.interest_of_live hlive]
    rfl
  · have hsome := (h.has_buffer pud data hlive).mpr hclient
    obtain ⟨buf, hbuf⟩ := Option.isSome_iff_exists.mp hsome
    refine ⟨buf, hbuf, h.buffers.live (x := pud) ?_⟩
    rw [bufferOf, hlive]
    exact hbuf

theorem bufferOf_update {userData userData' : Heap UserData}
    {value : Option UserData}
    (hcell : userData'.cell = Function.update userData.cell pud value) :
    bufferOf userData' =
      Function.update (bufferOf userData) pud (value.bind UserData.buffer) := by
  funext pud'
  unfold bufferOf
  rw [hcell]
  rcases eq_or_ne pud' pud with rfl | hne
  · rw [Function.update_self, Function.update_self]
  · rw [Function.update_of_ne hne, Function.update_of_ne hne]

theorem bufferOf_next (userData : Heap UserData) :
    bufferOf userData userData.next = none := by
  rw [bufferOf, userData.unused _ le_rfl]
  rfl

/-- Whatever leaves the same things live and registered. -/
theorem Accounted.congr (h : Accounted lsockfds p)
    (htable : p'.fds.table = p.fds.table) (hinterest : p'.interest = p.interest)
    (huserData : p'.userData.cell = p.userData.cell)
    (hbuffers : p'.buffers.cell = p.buffers.cell) : Accounted lsockfds p' where
  not_listening := htable ▸ h.not_listening
  registered := by
    rw [htable, hinterest]
    exact h.registered
  user_data := by
    rw [hinterest]
    exact h.user_data.congr huserData
  own_fd := by
    rw [hinterest, huserData]
    exact h.own_fd
  has_buffer := huserData ▸ h.has_buffer
  buffers := by
    have hsame : bufferOf p'.userData = bufferOf p.userData := by
      funext pud
      rw [bufferOf, huserData, bufferOf]
    rw [hsame]
    exact h.buffers.congr hbuffers

/-- `cleanup` of a client whose things are live gives them back. -/
theorem cleanup_of_live (hlive : p.userData.cell pud = some ⟨fd, some buf⟩)
    (hopen : (p.fds.table fd).isSome) (hbuf : (p.buffers.cell buf).isSome) :
    ∃ p', cleanup p pud = some p' ∧
      p'.fds.table = Function.update p.fds.table fd none ∧
      p'.interest = Function.update p.interest fd none ∧
      p'.userData.cell = Function.update p.userData.cell pud none ∧
      p'.buffers.cell = Function.update p.buffers.cell buf none := by
  have hpud : (p.userData.cell pud).isSome :=
    Option.isSome_of_eq_some hlive
  obtain ⟨fds, hclose, htable⟩ := Descriptors.close_of_open hopen
  obtain ⟨buffers, hfreeBuffer, hbuffers⟩ := Heap.free_of_live hbuf
  obtain ⟨userData, hfreeUserData, huserData⟩ := Heap.free_of_live hpud
  refine ⟨⟨fds, Function.update p.interest fd none, userData, buffers⟩, ?_,
    htable, rfl, huserData, hbuffers⟩
  simp [cleanup, Process.close, hlive,
    hclose, hfreeBuffer, hfreeUserData]

/-- One client less. -/
theorem Accounted.cleanup (h : Accounted lsockfds p)
    (hlive : p.userData.cell pud = some ⟨fd, some buf⟩) :
    ∃ p', Epoll.cleanup p pud = some p' ∧ Accounted lsockfds p' ∧
      p'.userData.cell = Function.update p.userData.cell pud none := by
  have hclient : fd ∉ lsockfds := (h.has_buffer pud _ hlive).mp rfl
  have hinterest : p.interest fd = some pud := h.interest_of_live hlive
  obtain ⟨hopen, _, hbuf, hbuflive⟩ := h.client hlive hclient
  cases hbuf
  obtain ⟨p', hcleanup, htable', hinterest', huserData', hbuffers'⟩ :=
    cleanup_of_live hlive hopen hbuflive
  have howns : bufferOf p.userData pud = some buf := by
    rw [bufferOf, hlive]
    rfl
  refine ⟨p', hcleanup, ⟨?_, ?_, ?_, ?_, ?_, ?_⟩, huserData'⟩
  · intro fd' hlistening
    rw [htable', Function.update_of_ne]
    · exact h.not_listening fd' hlistening
    · rintro rfl
      exact hclient hlistening
  · intro fd' hclient'
    rw [htable', hinterest']
    rcases eq_or_ne fd' fd with rfl | hne
    · rw [Function.update_self, Function.update_self]
    · rw [Function.update_of_ne hne, Function.update_of_ne hne]
      exact h.registered fd' hclient'
  · rw [hinterest']
    exact h.user_data.free hinterest huserData'
  · intro fd' pud' data hfd' hdata
    rw [hinterest'] at hfd'
    rw [huserData'] at hdata
    rcases eq_or_ne fd' fd with rfl | hfd
    · rw [Function.update_self] at hfd'
      cases hfd'
    · rw [Function.update_of_ne hfd] at hfd'
      rcases eq_or_ne pud' pud with rfl | hpud
      · rw [Function.update_self] at hdata
        cases hdata
      · rw [Function.update_of_ne hpud] at hdata
        exact h.own_fd fd' pud' data hfd' hdata
  · intro pud' data hdata
    rw [huserData'] at hdata
    rcases eq_or_ne pud' pud with rfl | hpud
    · rw [Function.update_self] at hdata
      cases hdata
    · rw [Function.update_of_ne hpud] at hdata
      exact h.has_buffer pud' data hdata
  · rw [bufferOf_update huserData']
    exact h.buffers.free howns hbuffers'

/-- New user data for a descriptor that is not registered. -/
theorem Accounted.alloc_user_data (h : Accounted lsockfds p)
    (hfree : p.interest fd = none) {buffer : Option Nat}
    (hbuffer : buffer.isSome ↔ fd ∉ lsockfds)
    (hinterest : p'.interest =
      Function.update p.interest fd (some p.userData.next))
    (huserData : p'.userData = p.userData.alloc ⟨fd, buffer⟩) :
    p'.userData.OwnedBy p'.interest ∧
      (∀ fd' pud' data, p'.interest fd' = some pud' →
        p'.userData.cell pud' = some data → data.fd = fd') ∧
      (∀ pud' data, p'.userData.cell pud' = some data →
        (data.buffer.isSome ↔ data.fd ∉ lsockfds)) ∧
      bufferOf p'.userData =
        Function.update (bufferOf p.userData) p.userData.next buffer := by
  have hcell : p'.userData.cell = Function.update p.userData.cell
      p.userData.next (some ⟨fd, buffer⟩) := by
    rw [huserData]
    rfl
  refine ⟨?_, ?_, ?_, bufferOf_update hcell⟩
  · rw [hinterest, huserData]
    exact h.user_data.alloc hfree
  · intro fd' pud' data hfd' hdata
    rw [hinterest] at hfd'
    rw [hcell] at hdata
    rcases eq_or_ne fd' fd with rfl | hfd
    · rw [Function.update_self] at hfd'
      cases hfd'
      rw [Function.update_self] at hdata
      cases hdata
      rfl
    · rw [Function.update_of_ne hfd] at hfd'
      rw [Function.update_of_ne] at hdata
      · exact h.own_fd fd' pud' data hfd' hdata
      · exact Nat.ne_of_lt (Heap.lt_next (h.user_data.live hfd'))
  · intro pud' data hdata
    rw [hcell] at hdata
    rcases eq_or_ne pud' p.userData.next with rfl | hpud
    · rw [Function.update_self] at hdata
      cases hdata
      exact hbuffer
    · rw [Function.update_of_ne hpud] at hdata
      exact h.has_buffer pud' data hdata

/-- A listening socket gets its user data, without a buffer. -/
theorem Accounted.listen (h : Accounted lsockfds p) (hlistening : fd ∈ lsockfds)
    (hfree : p.interest fd = none) (hfds : p'.fds = p.fds)
    (hinterest : p'.interest =
      Function.update p.interest fd (some p.userData.next))
    (huserData : p'.userData = p.userData.alloc ⟨fd, none⟩)
    (hbuffers : p'.buffers = p.buffers) : Accounted lsockfds p' := by
  have hnone : (none : Option Nat).isSome ↔ fd ∉ lsockfds :=
    iff_of_false (by simp) (fun hnot => hnot hlistening)
  obtain ⟨huser, hown, hhas, howner⟩ :=
    h.alloc_user_data hfree hnone hinterest huserData
  refine ⟨?_, ?_, huser, hown, hhas, ?_⟩
  · rw [hfds]
    exact h.not_listening
  · intro fd' hclient
    rw [hfds, hinterest, Function.update_of_ne]
    · exact h.registered fd' hclient
    · rintro rfl
      exact hclient hlistening
  · rw [howner, hbuffers, Function.update_eq_self_iff.mpr]
    · exact h.buffers
    · exact (bufferOf_next p.userData).symm

/-- One client more. -/
theorem Accounted.register (h : Accounted lsockfds p) (hclient : fd ∉ lsockfds)
    (hclosed : p.fds.table fd = none) {file : Nat} {c : Connection PollPoint}
    (htable : p'.fds.table = Function.update p.fds.table fd (some file))
    (hinterest : p'.interest =
      Function.update p.interest fd (some p.userData.next))
    (huserData : p'.userData =
      p.userData.alloc ⟨fd, some p.buffers.next⟩)
    (hbuffers : p'.buffers = p.buffers.alloc c) : Accounted lsockfds p' := by
  have hfree := h.not_registered hclient hclosed
  have hsome : (some p.buffers.next).isSome ↔ fd ∉ lsockfds :=
    iff_of_true rfl hclient
  obtain ⟨huser, hown, hhas, howner⟩ :=
    h.alloc_user_data hfree hsome hinterest huserData
  refine ⟨?_, ?_, huser, hown, hhas, ?_⟩
  · intro fd' hlistening
    rw [htable, Function.update_of_ne]
    · exact h.not_listening fd' hlistening
    · rintro rfl
      exact hclient hlistening
  · intro fd' hclient'
    rw [htable, hinterest]
    rcases eq_or_ne fd' fd with rfl | hne
    · rw [Function.update_self, Function.update_self]
      exact iff_of_true rfl rfl
    · rw [Function.update_of_ne hne, Function.update_of_ne hne]
      exact h.registered fd' hclient'
  · rw [howner, hbuffers]
    exact h.buffers.alloc (bufferOf_next p.userData)

/-- `ep_add` registers the descriptor with new user data, or leaves everything
as it was. -/
theorem epAdd_cases (p : Process) (fd : Nat) (buffer : Option Nat)
    (calls : EpAddCalls) :
    ∃ code p', epAdd p fd buffer calls = some (code, p') ∧
      p'.fds = p.fds ∧ p'.buffers = p.buffers ∧
      ((code < 0 ∧ p'.interest = p.interest ∧
          p'.userData.cell = p.userData.cell) ∨
        (code = 0 ∧ p.interest fd = none ∧
          p'.interest = Function.update p.interest fd (some p.userData.next) ∧
          p'.userData = p.userData.alloc ⟨fd, buffer⟩)) := by
  unfold epAdd
  split
  · exact ⟨-1, p, rfl, rfl, rfl, .inl ⟨by decide, rfl, rfl⟩⟩
  · have hnew : ((p.userData.alloc ⟨fd, buffer⟩).cell
        p.userData.next).isSome := by
      rw [Heap.alloc_cell_self]
      rfl
    obtain ⟨userData, hfree, hcell⟩ := Heap.free_of_live hnew
    dsimp only
    split
    · refine ⟨-3, { p with userData := userData }, ?_, rfl, rfl,
        .inl ⟨by decide, rfl, ?_⟩⟩
      · simp [hfree]
      · rw [hcell]
        exact Heap.alloc_released ..
    · rename_i hadded
      have hunregistered : p.interest fd = none :=
        Option.not_isSome_iff_eq_none.mp (fun h => hadded (.inr h))
      exact ⟨0, _, rfl, rfl, rfl, .inr ⟨rfl, hunregistered, rfl, rfl⟩⟩

/-- After an `accept` the descriptor is registered with new user data and a
new buffer, or everything is as it was before. -/
theorem accepted_cases (hopen : (p.fds.table fd).isSome)
    (hfree : p.interest fd = none) (calls : AcceptCalls) :
    ∃ again p', accepted p fd calls = some (again, p') ∧
      ((p'.fds.table = Function.update p.fds.table fd none ∧
          p'.interest = p.interest ∧ p'.userData.cell = p.userData.cell ∧
          p'.buffers.cell = p.buffers.cell) ∨
        (p'.fds = p.fds ∧
          p'.interest = Function.update p.interest fd (some p.userData.next) ∧
          p'.userData = p.userData.alloc ⟨fd, some p.buffers.next⟩ ∧
          p'.buffers = p.buffers.alloc (Connection.accepted .wait))) := by
  obtain ⟨fds, hclose, htable⟩ := Descriptors.close_of_open hopen
  have hsame : Function.update p.interest fd none = p.interest :=
    Function.update_eq_self_iff.mpr hfree.symm
  unfold accepted
  split
  · refine ⟨false, { p with fds := fds }, ?_, .inl ⟨htable, rfl, rfl, rfl⟩⟩
    simp [Process.close, hclose, hsame]
  · split
    · refine ⟨false, { p with fds := fds }, ?_, .inl ⟨htable, rfl, rfl, rfl⟩⟩
      simp [Process.close, hclose, hsame]
    · obtain ⟨code, p', hepAdd, hfds, hbuffers, hcases⟩ := epAdd_cases
        { p with buffers := p.buffers.alloc (Connection.accepted .wait) } fd
        (some p.buffers.next) calls.epAdd
      rcases hcases with ⟨hcode, hinterest, huserData⟩ |
        ⟨rfl, _, hinterest, huserData⟩
      · have hnew : (p'.buffers.cell p.buffers.next).isSome := by
          rw [hbuffers, Heap.alloc_cell_self]
          rfl
        obtain ⟨buffers, hfreeBuffer, hcell⟩ := Heap.free_of_live hnew
        refine ⟨false, { p' with
          fds := fds
          interest := Function.update p'.interest fd none
          buffers := buffers }, ?_, .inl ⟨htable, ?_, huserData, ?_⟩⟩
        · simp [hepAdd, hcode, hfreeBuffer, Process.close,
            hfds, hclose]
        · rw [hinterest]
          exact hsame
        · rw [hcell, hbuffers]
          exact Heap.alloc_released ..
      · refine ⟨true, p', ?_, .inr ⟨hfds, hinterest, huserData, hbuffers⟩⟩
        simp [hepAdd]

/-- The user data that `poll` still uses before the next `epoll_wait`. -/
def Control.pending : Control → List Nat
  | .batch evs => evs.map Prod.snd
  | .accept pud evs | .client _ pud _ evs => pud :: evs.map Prod.snd
  | _ => []

structure Safe (lsockfds : List Nat) (s : Server) : Prop where
  no_fault : s.control ≠ .fault
  setup : ∀ fds, s.control = .setup fds → fds ⊆ lsockfds
  accounted : (∀ code, s.control ≠ .returned code) →
    Accounted lsockfds s.process
  pending_nodup : s.control.pending.Nodup
  pending_live : ∀ pud ∈ s.control.pending,
    (s.process.userData.cell pud).isSome
  client : ∀ ev pud buf evs, s.control = .client ev pud buf evs →
    ∃ fd, s.process.userData.cell pud = some ⟨fd, some buf⟩

variable {s next : Server} {ev : BitVec 32} {evs : List (BitVec 32 × Nat)}
  {control : Control}

/-- Where nothing of a batch is left. -/
theorem Accounted.safe_idle (h : Accounted lsockfds p)
    (hpending : control.pending = []) (hfault : control ≠ .fault)
    (hsetup : ∀ fds, control = .setup fds → fds ⊆ lsockfds) :
    Safe lsockfds ⟨control, p⟩ where
  no_fault := hfault
  setup := hsetup
  accounted := fun _ => h
  pending_nodup := by
    rw [hpending]
    exact List.nodup_nil
  pending_live := by
    rw [hpending]
    intro pud hpud
    cases hpud
  client := by
    intro ev pud buf evs hcontrol
    cases hcontrol
    cases hpending

theorem Accounted.safe_batch (h : Accounted lsockfds p)
    (hnodup : (evs.map Prod.snd).Nodup)
    (hlive : ∀ pud ∈ evs.map Prod.snd, (p.userData.cell pud).isSome) :
    Safe lsockfds ⟨.batch evs, p⟩ :=
  ⟨by simp, by simp, fun _ => h, hnodup, hlive, by simp⟩

/-- Giving one user data back leaves the others of the batch live. -/
theorem live_of_update {userData userData' : Heap UserData} {puds : List Nat}
    (hnodup : (pud :: puds).Nodup)
    (hlive : ∀ other ∈ pud :: puds, (userData.cell other).isSome)
    (hcell : userData'.cell = Function.update userData.cell pud none) :
    ∀ other ∈ puds, (userData'.cell other).isSome := by
  intro other hother
  rw [hcell, Function.update_of_ne]
  · exact hlive other (List.mem_cons_of_mem _ hother)
  · rintro rfl
    exact (List.nodup_cons.mp hnodup).1 hother

/-- The handler of a client leads to no fault, wherever it has come to. -/
theorem Accounted.settle (h : Accounted lsockfds p)
    (hpud : p.userData.cell pud = some ⟨fd, some buf⟩)
    (hnodup : (pud :: evs.map Prod.snd).Nodup)
    (hlive : ∀ other ∈ pud :: evs.map Prod.snd,
      (p.userData.cell other).isSome)
    (ev : BitVec 32) (c : Connection PollPoint) :
    ∃ next, Epoll.settle p ev pud buf evs c = some next ∧
      Safe lsockfds next := by
  obtain ⟨_, _, hbuf, hbuflive⟩ :=
    h.client hpud ((h.has_buffer pud _ hpud).mp rfl)
  cases hbuf
  obtain ⟨buffers, hstore, hcell⟩ := Heap.store_of_live (a := c) hbuflive
  have hstored : Accounted lsockfds { p with buffers := buffers } :=
    { h with buffers := h.buffers.store hcell hbuflive }
  have hrest := (List.nodup_cons.mp hnodup).2
  unfold Epoll.settle
  rw [hstore]
  cases hpoint : c.point with
  | wait =>
      refine ⟨⟨.batch evs, { p with buffers := buffers }⟩, by simp, ?_⟩
      exact hstored.safe_batch hrest
        (fun other hother => hlive other (List.mem_cons_of_mem _ hother))
  | cleaned =>
      obtain ⟨p', hcleanup, haccounted, huserData⟩ := hstored.cleanup hpud
      refine ⟨⟨if unknown ev then .closeEpoll else .batch evs, p'⟩,
        by simp [hcleanup], ?_⟩
      split
      · exact haccounted.safe_idle rfl (by simp) (by simp)
      · exact haccounted.safe_batch hrest
          (live_of_update hnodup hlive huserData)
  | writeSend _ | recv | readSend =>
      refine ⟨⟨.client ev pud buf evs, { p with buffers := buffers }⟩,
        by simp, ?_⟩
      refine ⟨by simp, by simp, fun _ => hstored, hnodup, hlive, ?_⟩
      intro ev' pud' buf' evs' hcontrol
      cases hcontrol
      exact ⟨fd, hpud⟩

/-- An entry of the batch leads to no fault. -/
theorem Accounted.dispatch (h : Accounted lsockfds p)
    (hnodup : (pud :: evs.map Prod.snd).Nodup)
    (hlive : ∀ other ∈ pud :: evs.map Prod.snd,
      (p.userData.cell other).isSome)
    (ev : BitVec 32) :
    ∃ next, Epoll.dispatch lsockfds p ev pud evs = some next ∧
      Safe lsockfds next := by
  obtain ⟨⟨fd, buffer⟩, hpud⟩ :=
    Option.isSome_iff_exists.mp (hlive pud (List.mem_cons_self ..))
  unfold Epoll.dispatch
  rw [hpud]
  rcases em (fd ∈ lsockfds) with hlistening | hclient
  · refine ⟨⟨.accept pud evs, p⟩, by simp [hlistening], ?_⟩
    exact ⟨by simp, by simp, fun _ => h, hnodup, hlive, by simp⟩
  · obtain ⟨_, buf, hbuf, hbuflive⟩ := h.client hpud hclient
    obtain rfl : buffer = some buf := hbuf
    obtain ⟨c, hc⟩ := Option.isSome_iff_exists.mp hbuflive
    obtain ⟨next, hsettle, hsafe⟩ :=
      h.settle hpud hnodup hlive ev (pollDispatch c ev)
    exact ⟨next, by simp [hclient, hc, hsettle], hsafe⟩

theorem harvest_cons {interest : Nat → Option Nat}
    {reports : List (BitVec 32 × Nat)}
    (h : harvest interest ((ev, fd) :: reports) = some evs) :
    ∃ pud rest, interest fd = some pud ∧ harvest interest reports = some rest ∧
      evs = (ev, pud) :: rest := by
  simp only [harvest, Option.bind_eq_bind, Option.bind_eq_some_iff] at h
  obtain ⟨pud, hpud, rest, hrest, hevs⟩ := h
  exact ⟨pud, rest, hpud, hrest, (Option.some.inj hevs).symm⟩

/-- The entries of a batch are user data of the reported descriptors. -/
theorem harvest_registered {interest : Nat → Option Nat}
    {reports : List (BitVec 32 × Nat)}
    (h : harvest interest reports = some evs) :
    ∀ pud ∈ evs.map Prod.snd,
      ∃ fd ∈ reports.map Prod.snd, interest fd = some pud := by
  induction reports generalizing evs with
  | nil =>
      cases h
      intro pud hpud
      cases hpud
  | cons report reports ih =>
      obtain ⟨pud, rest, hpud, hrest, rfl⟩ := harvest_cons h
      intro other hother
      rcases List.mem_cons.mp hother with rfl | hother
      · exact ⟨report.2, List.mem_cons_self .., hpud⟩
      · obtain ⟨fd, hfd, hinterest⟩ := ih hrest other hother
        exact ⟨fd, List.mem_cons_of_mem _ hfd, hinterest⟩

/-- Distinct descriptors have distinct user data. -/
theorem Accounted.harvest_nodup (h : Accounted lsockfds p)
    {reports : List (BitVec 32 × Nat)} (hnodup : (reports.map Prod.snd).Nodup)
    (hharvest : harvest p.interest reports = some evs) :
    (evs.map Prod.snd).Nodup := by
  induction reports generalizing evs with
  | nil =>
      cases hharvest
      exact List.nodup_nil
  | cons report reports ih =>
      obtain ⟨pud, rest, hpud, hrest, rfl⟩ := harvest_cons hharvest
      obtain ⟨hnew, hnodup'⟩ := List.nodup_cons.mp hnodup
      refine List.nodup_cons.mpr ⟨?_, ih hnodup' hrest⟩
      intro hmem
      obtain ⟨fd, hfd, hinterest⟩ := harvest_registered hrest pud hmem
      rw [h.user_data.unique hinterest hpud] at hfd
      exact hnew hfd

theorem Accounted.safe_setupFrom (h : Accounted lsockfds p) {fds : List Nat}
    (hfds : fds ⊆ lsockfds) : Safe lsockfds ⟨setupFrom fds, p⟩ := by
  cases fds with
  | nil => exact h.safe_idle rfl (by simp [setupFrom]) (by simp [setupFrom])
  | cons fd fds =>
      apply h.safe_idle rfl (by simp [setupFrom])
      intro fds' hcontrol
      cases hcontrol
      exact hfds

/-- A listening socket is registered, or `poll` returns. -/
theorem Accounted.epAdd (h : Accounted lsockfds p) (calls : EpAddCalls)
    {rest : List Nat} (hfds : fd :: rest ⊆ lsockfds) :
    ∃ code p', Epoll.epAdd p fd none calls = some (code, p') ∧
      Safe lsockfds ⟨if code < 0 then .returned 5 else setupFrom rest, p'⟩ := by
  obtain ⟨hlistening, hrest⟩ := List.cons_subset.mp hfds
  obtain ⟨code, p', hepAdd, hfds', hbuffers, hcases⟩ :=
    epAdd_cases p fd none calls
  refine ⟨code, p', hepAdd, ?_⟩
  have haccounted : Accounted lsockfds p' := by
    rcases hcases with ⟨_, hinterest, huserData⟩ |
      ⟨_, hfree, hinterest, huserData⟩
    · exact h.congr (by rw [hfds']) hinterest huserData (by rw [hbuffers])
    · exact h.listen hlistening hfree hfds' hinterest huserData hbuffers
  split
  · exact haccounted.safe_idle rfl (by simp) (by simp)
  · exact haccounted.safe_setupFrom hrest

/-- A pass of the accept loop leads to no fault, and the rest of the batch
stays live. -/
theorem Accounted.accepted (h : Accounted lsockfds p) (hclient : fd ∉ lsockfds)
    {fds : Descriptors} (hopen : p.fds.open fd = some fds)
    (calls : AcceptCalls) (hnodup : (pud :: evs.map Prod.snd).Nodup)
    (hlive : ∀ other ∈ pud :: evs.map Prod.snd,
      (p.userData.cell other).isSome) :
    ∃ again p', Epoll.accepted { p with fds := fds } fd calls =
        some (again, p') ∧
      Safe lsockfds ⟨if again then .accept pud evs else .batch evs, p'⟩ := by
  obtain ⟨hclosed, htable⟩ := Descriptors.open_cases hopen
  have hisopen : (fds.table fd).isSome := by
    rw [htable, Function.update_self]
    rfl
  obtain ⟨again, p', haccepted, hcases⟩ := accepted_cases
    (p := { p with fds := fds }) hisopen (h.not_registered hclient hclosed) calls
  refine ⟨again, p', haccepted, ?_⟩
  have hkept : Accounted lsockfds p' ∧
      ∀ other ∈ pud :: evs.map Prod.snd,
        (p'.userData.cell other).isSome := by
    rcases hcases with ⟨htable', hinterest, huserData, hbuffers⟩ |
      ⟨hfds, hinterest, huserData, hbuffers⟩
    · refine ⟨h.congr ?_ hinterest huserData hbuffers, ?_⟩
      · rw [htable', htable, Function.update_idem,
          Function.update_eq_self_iff.mpr hclosed.symm]
      · intro other hother
        rw [huserData]
        exact hlive other hother
    · refine ⟨h.register hclient hclosed (by rw [hfds]; exact htable) hinterest
        huserData hbuffers, ?_⟩
      intro other hother
      rw [huserData, Heap.alloc_cell_of_live (hlive other hother)]
      exact hlive other hother
  split
  · exact ⟨by simp, by simp, fun _ => hkept.1, hnodup, hkept.2, by simp⟩
  · exact hkept.1.safe_batch (List.nodup_cons.mp hnodup).2
      (fun other hother => hkept.2 other (List.mem_cons_of_mem _ hother))

/-- All that a call for a client uses is live. -/
theorem Accounted.handled (h : Accounted lsockfds p)
    (hpud : p.userData.cell pud = some ⟨fd, some buf⟩) :
    ∃ c, Epoll.handled p pud buf = some c := by
  obtain ⟨hopen, _, hbuf, hbuflive⟩ :=
    h.client hpud ((h.has_buffer pud _ hpud).mp rfl)
  cases hbuf
  obtain ⟨file, hfile⟩ := Option.isSome_iff_exists.mp hopen
  obtain ⟨c, hc⟩ := Option.isSome_iff_exists.mp hbuflive
  exact ⟨c, by simp [Epoll.handled, hpud, hfile, hc]⟩

/-- Every step keeps `Safe`. -/
theorem Safe.step {event : Event} (h : Safe lsockfds s)
    (hnext : Epoll.step lsockfds s event = some next) : Safe lsockfds next := by
  obtain ⟨control, p⟩ := s
  have hlive := h.pending_live
  have hnodup := h.pending_nodup
  unfold Epoll.step at hnext
  split at hnext
  · rename_i fd rest calls hcontrol
    obtain rfl : control = .setup (fd :: rest) := hcontrol
    obtain ⟨code, p', hepAdd, hsafe⟩ :=
      (h.accounted (by simp)).epAdd calls (h.setup _ rfl)
    simp only [hepAdd, Server.orFault, Option.bind_eq_bind, Option.bind_some,
      Option.getD_some, Option.some.injEq] at hnext
    exact hnext ▸ hsafe
  · rename_i reports hcontrol
    obtain rfl : control = .wait := hcontrol
    have haccounted := h.accounted (by simp)
    split at hnext
    · rename_i hreports
      simp only [Option.bind_eq_bind, Option.bind_eq_some_iff] at hnext
      obtain ⟨evs, hharvest, hevs⟩ := hnext
      cases hevs
      refine haccounted.safe_batch
        (haccounted.harvest_nodup hreports.2 hharvest) ?_
      intro pud hpud
      obtain ⟨fd, _, hinterest⟩ := harvest_registered hharvest pud hpud
      exact haccounted.user_data.live hinterest
    · cases hnext
  · rename_i hcontrol
    obtain rfl : control = .wait := hcontrol
    cases hnext
    exact (h.accounted (by simp)).safe_idle rfl (by simp) (by simp)
  · rename_i hcontrol
    obtain rfl : control = .batch [] := hcontrol
    cases hnext
    exact (h.accounted (by simp)).safe_idle rfl (by simp) (by simp)
  · rename_i ev pud evs hcontrol
    obtain rfl : control = .batch ((ev, pud) :: evs) := hcontrol
    obtain ⟨next', hdispatch, hsafe⟩ :=
      (h.accounted (by simp)).dispatch hnodup hlive ev
    simp only [hdispatch, Server.orFault, Option.getD_some,
      Option.some.injEq] at hnext
    exact hnext ▸ hsafe
  · rename_i pud evs fd calls hcontrol
    obtain rfl : control = .accept pud evs := hcontrol
    split at hnext
    · cases hnext
    · rename_i hclient
      simp only [Option.bind_eq_bind, Option.bind_eq_some_iff] at hnext
      obtain ⟨fds, hopen, hnext⟩ := hnext
      obtain ⟨data, hdata⟩ : ∃ data, p.userData.cell pud = some data :=
        Option.isSome_iff_exists.mp (hlive pud (List.mem_cons_self ..))
      obtain ⟨again, p', haccepted, hsafe⟩ := (h.accounted (by simp)).accepted
        hclient hopen calls hnodup hlive
      simp only [hdata, haccepted, Server.orFault, Option.bind_some,
        Option.getD_some, Option.some.injEq] at hnext
      exact hnext ▸ hsafe
  · rename_i pud evs hcontrol
    obtain rfl : control = .accept pud evs := hcontrol
    obtain ⟨data, hdata⟩ : ∃ data, p.userData.cell pud = some data :=
      Option.isSome_iff_exists.mp (hlive pud (List.mem_cons_self ..))
    simp only [hdata, Server.orFault, Option.bind_eq_bind, Option.bind_some,
      Option.getD_some, Option.some.injEq] at hnext
    rw [← hnext]
    exact (h.accounted (by simp)).safe_batch (List.nodup_cons.mp hnodup).2
      (fun other hother => hlive other (List.mem_cons_of_mem _ hother))
  · rename_i ev pud buf evs event hcontrol
    obtain rfl : control = .client ev pud buf evs := hcontrol
    obtain ⟨fd, hpud⟩ := h.client ev pud buf evs rfl
    have haccounted := h.accounted (by simp)
    obtain ⟨c, hc⟩ := haccounted.handled hpud
    simp only [hc, Option.bind_eq_bind, Option.bind_eq_some_iff] at hnext
    obtain ⟨c', _, hnext⟩ := hnext
    obtain ⟨next', hsettle, hsafe⟩ :=
      haccounted.settle hpud hnodup hlive ev c'
    simp only [hsettle, Server.orFault, Option.getD_some,
      Option.some.injEq] at hnext
    exact hnext ▸ hsafe
  · cases hnext
    refine ⟨by simp, by simp, ?_, List.nodup_nil, ?_, by simp⟩
    · intro hnot
      exact absurd rfl (hnot 0)
    · intro pud hpud
      cases hpud
  · cases hnext

/-- The accounts of `poll`: before it returns, what is open, registered and
allocated belongs together; what is left of the batch is live and registered
under its own descriptor; and all that was opened or allocated is live or has
been given back once. -/
structure ResourceSafe (lsockfds : List Nat) (s : Server) : Prop where
  no_fault : s.control ≠ .fault
  accounted : (∀ code, s.control ≠ .returned code) →
    Accounted lsockfds s.process
  pending_nodup : s.control.pending.Nodup
  pending_live : ∀ pud ∈ s.control.pending, ∃ data,
    s.process.userData.cell pud = some data ∧
      s.process.interest data.fd = some pud
  closed_once : ∀ file < s.process.fds.files.next,
    ((∃ fd, s.process.fds.table fd = some file) ∧
      s.process.fds.files.released.count file = 0) ∨
    ((∀ fd, s.process.fds.table fd ≠ some file) ∧
      s.process.fds.files.released.count file = 1)
  user_data_released_once : ∀ pud < s.process.userData.next,
    s.process.userData.released.count pud =
      if (s.process.userData.cell pud).isSome then 0 else 1
  buffer_released_once : ∀ buf < s.process.buffers.next,
    s.process.buffers.released.count buf =
      if (s.process.buffers.cell buf).isSome then 0 else 1

theorem Safe.resourceSafe (h : Safe lsockfds s) : ResourceSafe lsockfds s where
  no_fault := h.no_fault
  accounted := h.accounted
  pending_nodup := h.pending_nodup
  pending_live := by
    intro pud hpud
    obtain ⟨data, hdata⟩ := Option.isSome_iff_exists.mp (h.pending_live pud hpud)
    have haccounted : Accounted lsockfds s.process := by
      apply h.accounted
      intro code hcontrol
      rw [hcontrol] at hpud
      cases hpud
    exact ⟨data, hdata, haccounted.interest_of_live hdata⟩
  closed_once := fun _ => Descriptors.closed_once
  user_data_released_once := fun _ => Heap.released_once
  buffer_released_once := fun _ => Heap.released_once

theorem start_safe (lsockfds : List Nat) : Safe lsockfds (start lsockfds) := by
  have haccounted : Accounted lsockfds (start lsockfds).process :=
    ⟨fun _ _ => rfl, fun _ _ => Iff.rfl, Heap.ownedBy_empty,
      (fun _ _ _ hnone => by cases hnone), (fun _ _ hnone => by cases hnone),
      Heap.ownedBy_empty⟩
  exact haccounted.safe_setupFrom (List.Subset.refl lsockfds)

/-- In every run of `poll`, with any masks and any failures. -/
theorem poll_resources (lsockfds : List Nat) (s : Server)
    (hs : Reaches (step lsockfds) (start lsockfds) s) :
    ResourceSafe lsockfds s :=
  (hs.invariant (fun _ _ _ h hnext => h.step hnext)
    (start_safe lsockfds)).resourceSafe

/-- Descriptor 5 is closed and given out again within a batch, in which 6 is
still to be handled. -/
def recycleRun : List Event :=
  [.epAdd ⟨true, true⟩, .epollWait [(EPOLLIN, 3)], .next,
    .accept 5 ⟨true, true, true, true⟩, .accept 6 ⟨true, true, true, true⟩,
    .accept 7 ⟨true, true, true, false⟩, .next,
    .epollWait [(EPOLLRDHUP, 5), (EPOLLIN, 3), (EPOLLIN, 6)], .next, .next,
    .accept 5 ⟨true, true, true, true⟩, .acceptFails, .next]

theorem recycle_run_enabled :
    (runEvents (step [3]) (start [3]) recycleRun).isSome := by
  decide

theorem recycle_run_resources :
    ResourceSafe [3] ((runEvents (step [3]) (start [3]) recycleRun).get
      recycle_run_enabled) :=
  poll_resources [3] _ ⟨recycleRun, (Option.some_get recycle_run_enabled).symm⟩

end CsPrimer.ShoutServer.Epoll
