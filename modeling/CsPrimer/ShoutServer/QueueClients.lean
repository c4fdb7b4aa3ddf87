import CsPrimer.ShoutServer.QueueFilters

/-!
The clients of `queue`. A registered client is open, has its own buffer, and
its filters are those of its control point; all clients but the one that is
being handled wait for their events. The functions of the loop change one
client at a time, and the accept loop leaves a descriptor open without
registering it exactly if its `calloc` fails.
-/

namespace CsPrimer.ShoutServer.Kqueue

open Foundation

def owner (knotes : Nat → Int → Option Knote) (fd : Nat) : Option Nat :=
  (knotes fd EVFILT_READ).bind Knote.udata

structure Sound (lsockfds : List Nat) (p : Process) (current : Option Nat) :
    Prop where
  not_listening : ∀ fd ∈ lsockfds, p.fds.table fd = none
  listener : ∀ fd ∈ lsockfds, ∀ filter note, p.knotes fd filter = some note →
    filter = EVFILT_READ ∧ note.udata = none
  client : ∀ fd, fd ∉ lsockfds → p.knotes fd = (fun _ => none) ∨
    ((p.fds.table fd).isSome ∧ ∃ buf c, p.buffers.cell buf = some c ∧
      Filtered (p.knotes fd) buf c ∧ (current ≠ some fd → c.point = .wait))
  owned : p.buffers.OwnedBy (owner p.knotes)

/-- An accepted descriptor that is open but not registered. -/
def Leaked (lsockfds : List Nat) (p : Process) (fd : Nat) : Prop :=
  fd ∉ lsockfds ∧ (p.fds.table fd).isSome ∧ p.knotes fd EVFILT_READ = none

variable {lsockfds : List Nat} {p p' : Process} {fd buf : Nat}
  {current current' : Option Nat} {notes : Int → Option Knote}
  {c : Connection QueuePoint}

theorem owner_of_filtered {knotes : Nat → Int → Option Knote}
    (h : Filtered (knotes fd) buf c) : owner knotes fd = some buf := by
  rw [owner, h.read]
  rfl

theorem owner_update (knotes : Nat → Int → Option Knote) (fd : Nat)
    (notes : Int → Option Knote) :
    owner (Function.update knotes fd notes) =
      Function.update (owner knotes) fd
        ((notes EVFILT_READ).bind Knote.udata) := by
  funext fd'
  unfold owner
  rcases eq_or_ne fd' fd with rfl | hne
  · rw [Function.update_self, Function.update_self]
  · rw [Function.update_of_ne hne, Function.update_of_ne hne]

/-- The client that a registered buffer belongs to. -/
theorem Sound.of_owner (h : Sound lsockfds p current) (hclient : fd ∉ lsockfds)
    (howner : owner p.knotes fd = some buf) :
    (p.fds.table fd).isSome ∧ ∃ c, p.buffers.cell buf = some c ∧
      Filtered (p.knotes fd) buf c ∧ (current ≠ some fd → c.point = .wait) := by
  rcases h.client fd hclient with hnone | ⟨hopen, buf', c, hcell, hfiltered, hwait⟩
  · rw [owner, hnone] at howner
    cases howner
  · rw [owner_of_filtered hfiltered] at howner
    cases howner
    exact ⟨hopen, c, hcell, hfiltered, hwait⟩

/-- A step that is about one client. -/
theorem Sound.change (h : Sound lsockfds p current) (hclient : fd ∉ lsockfds)
    (htable : ∀ other, other ≠ fd →
      p'.fds.table other = p.fds.table other)
    (hknotes : ∀ other, other ≠ fd → p'.knotes other = p.knotes other)
    (hcell : ∀ other buf', other ≠ fd → owner p.knotes other = some buf' →
      p'.buffers.cell buf' = p.buffers.cell buf')
    (hcurrent : ∀ other, current = some other → other = fd)
    (hat : p'.knotes fd = (fun _ => none) ∨
      ((p'.fds.table fd).isSome ∧ ∃ buf c, p'.buffers.cell buf = some c ∧
        Filtered (p'.knotes fd) buf c ∧
        (current' ≠ some fd → c.point = .wait)))
    (howned : p'.buffers.OwnedBy (owner p'.knotes)) :
    Sound lsockfds p' current' where
  not_listening := by
    intro other hlistening
    have hne : other ≠ fd := fun heq => hclient (heq ▸ hlistening)
    rw [htable other hne]
    exact h.not_listening other hlistening
  listener := by
    intro other hlistening filter note hnote
    have hne : other ≠ fd := fun heq => hclient (heq ▸ hlistening)
    rw [hknotes other hne] at hnote
    exact h.listener other hlistening filter note hnote
  client := by
    intro other hother
    rcases eq_or_ne other fd with rfl | hne
    · exact hat
    · rw [hknotes other hne, htable other hne]
      rcases h.client other hother with hnone | ⟨hopen, buf', c', hc', hf', hwait⟩
      · exact .inl hnone
      · refine .inr ⟨hopen, buf', c', ?_, hf', fun _ => hwait ?_⟩
        · rw [hcell other buf' hne (owner_of_filtered hf')]
          exact hc'
        · exact fun heq => hne (hcurrent other heq)
  owned := howned

/-- The handler of a client goes on. -/
theorem Sound.replace (h : Sound lsockfds p current) (hclient : fd ∉ lsockfds)
    (howner : owner p.knotes fd = some buf) (hfds : p'.fds = p.fds)
    (hknotes : p'.knotes = Function.update p.knotes fd notes)
    (hcell : p'.buffers.cell = Function.update p.buffers.cell buf (some c))
    (hfiltered : Filtered notes buf c)
    (hcurrent : ∀ other, current = some other → other = fd)
    (hcurrent' : current' ≠ some fd → c.point = .wait) :
    Sound lsockfds p' current' := by
  obtain ⟨hopen, c', hc', _⟩ := h.of_owner hclient howner
  apply h.change hclient
  · intro other _
    rw [hfds]
  · intro other hne
    rw [hknotes, Function.update_of_ne hne]
  · intro other buf' hne hother
    rw [hcell, Function.update_of_ne]
    rintro rfl
    exact hne (h.owned.unique hother howner)
  · exact hcurrent
  · refine .inr ⟨by rw [hfds]; exact hopen, buf, c, ?_, ?_, hcurrent'⟩
    · rw [hcell, Function.update_self]
    · rw [hknotes, Function.update_self]
      exact hfiltered
  · rw [hknotes, owner_update, hfiltered.read, Function.update_eq_self_iff.mpr]
    · exact h.owned.store hcell (Option.isSome_of_eq_some hc')
    · exact howner.symm

/-- One client less. -/
theorem Sound.drop (h : Sound lsockfds p current) (hclient : fd ∉ lsockfds)
    (howner : owner p.knotes fd = some buf)
    (htable : p'.fds.table = Function.update p.fds.table fd none)
    (hknotes : p'.knotes = Function.update p.knotes fd fun _ => none)
    (hcell : p'.buffers.cell = Function.update p.buffers.cell buf none)
    (hcurrent : ∀ other, current = some other → other = fd) :
    Sound lsockfds p' none := by
  apply h.change hclient
  · intro other hne
    rw [htable, Function.update_of_ne hne]
  · intro other hne
    rw [hknotes, Function.update_of_ne hne]
  · intro other buf' hne hother
    rw [hcell, Function.update_of_ne]
    rintro rfl
    exact hne (h.owned.unique hother howner)
  · exact hcurrent
  · rw [hknotes, Function.update_self]
    exact .inl rfl
  · rw [hknotes, owner_update]
    exact h.owned.free howner hcell

/-- One client more. -/
theorem Sound.register (h : Sound lsockfds p none) (hclient : fd ∉ lsockfds)
    (hfree : p.knotes fd = fun _ => none) {file : Nat}
    (htable : p'.fds.table = Function.update p.fds.table fd (some file))
    (hknotes : p'.knotes = Function.update p.knotes fd notes)
    (hbuffers : p'.buffers = p.buffers.alloc c)
    (hfiltered : Filtered notes p.buffers.next c) (hwait : c.point = .wait) :
    Sound lsockfds p' none := by
  apply h.change hclient
  · intro other hne
    rw [htable, Function.update_of_ne hne]
  · intro other hne
    rw [hknotes, Function.update_of_ne hne]
  · intro other buf' _ hother
    rw [hbuffers, Heap.alloc_cell_of_live (h.owned.live hother)]
  · intro other hcurrent
    cases hcurrent
  · rw [htable, hknotes, hbuffers, Function.update_self, Function.update_self]
    exact .inr ⟨rfl, _, c, Heap.alloc_cell_self, hfiltered, fun _ => hwait⟩
  · rw [hknotes, owner_update, hfiltered.read, hbuffers]
    apply h.owned.alloc
    rw [owner, hfree]
    rfl

/-- An accepted descriptor is left open. -/
theorem Sound.leave (h : Sound lsockfds p none) (hclient : fd ∉ lsockfds)
    (hfree : p.knotes fd = fun _ => none) {file : Nat}
    (htable : p'.fds.table = Function.update p.fds.table fd (some file))
    (hknotes : p'.knotes = p.knotes) (hbuffers : p'.buffers = p.buffers) :
    Sound lsockfds p' none := by
  apply h.change hclient
  · intro other hne
    rw [htable, Function.update_of_ne hne]
  · intro other _
    rw [hknotes]
  · intro other buf' _ _
    rw [hbuffers]
  · intro other hcurrent
    cases hcurrent
  · rw [hknotes]
    exact .inl hfree
  · rw [hknotes, hbuffers]
    exact h.owned

/-- Whatever leaves the same things open, registered and live. -/
theorem Sound.congr (h : Sound lsockfds p current)
    (htable : p'.fds.table = p.fds.table) (hknotes : p'.knotes = p.knotes)
    (hcell : p'.buffers.cell = p.buffers.cell) : Sound lsockfds p' current where
  not_listening := htable ▸ h.not_listening
  listener := hknotes ▸ h.listener
  client := by
    rw [htable, hknotes, hcell]
    exact h.client
  owned := by
    rw [hknotes]
    exact h.owned.congr hcell

/-- What happens to one descriptor that is neither before nor after a leak
leaks nothing. -/
theorem leaked_iff_of_not (hclient : ¬ Leaked lsockfds p fd)
    (hclient' : ¬ Leaked lsockfds p' fd)
    (htable : ∀ other, other ≠ fd → p'.fds.table other = p.fds.table other)
    (hknotes : ∀ other, other ≠ fd → p'.knotes other = p.knotes other)
    (other : Nat) : Leaked lsockfds p' other ↔ Leaked lsockfds p other := by
  rcases eq_or_ne other fd with rfl | hne
  · exact iff_of_false hclient' hclient
  · rw [Leaked, Leaked, htable other hne, hknotes other hne]

theorem not_leaked_of_owner (howner : owner p.knotes fd = some buf) :
    ¬ Leaked lsockfds p fd := by
  intro hleaked
  rw [owner, hleaked.2.2] at howner
  cases howner

theorem not_leaked_of_closed (hclosed : p.fds.table fd = none) :
    ¬ Leaked lsockfds p fd := by
  intro hleaked
  have hopen := hleaked.2.1
  rw [hclosed] at hopen
  cases hopen

/-- A change is about the filters of its descriptor. -/
theorem kqChange_eq (p : Process) (fd : Nat) (filter : Int)
    (flags : BitVec 16) (udata : Option Nat) (failed : Bool) :
    ∃ code notes, kqChange p fd filter flags udata failed =
      (code, { p with knotes := Function.update p.knotes fd notes }) := by
  unfold kqChange
  split
  · exact ⟨-1, p.knotes fd, by rw [Function.update_eq_self]⟩
  · split
    · exact ⟨-1, p.knotes fd, by rw [Function.update_eq_self]⟩
    · exact ⟨0, _, rfl⟩

/-- `cleanup` of a client whose things are live gives them back. -/
theorem cleanup_of_live (hopen : (p.fds.table fd).isSome)
    (hbuf : (p.buffers.cell buf).isSome) :
    ∃ p', cleanup p fd (some buf) = some p' ∧
      p'.fds.table = Function.update p.fds.table fd none ∧
      p'.knotes = (Function.update p.knotes fd fun _ => none) ∧
      p'.buffers.cell = Function.update p.buffers.cell buf none := by
  obtain ⟨fds, hclose, htable⟩ := Descriptors.close_of_open hopen
  obtain ⟨buffers, hfree, hcell⟩ := Heap.free_of_live hbuf
  obtain ⟨_, notes, hread⟩ :=
    kqChange_eq p fd EVFILT_READ EV_DELETE none false
  obtain ⟨_, notes', hwrite⟩ := kqChange_eq
    { p with knotes := Function.update p.knotes fd notes } fd EVFILT_WRITE
    EV_DELETE none false
  refine ⟨⟨fds, Function.update p.knotes fd fun _ => none, buffers⟩, ?_, htable,
    rfl, hcell⟩
  simp [cleanup, hread, hwrite, Process.close, hclose, hfree]

/-- The handler of a client has come to its next call, to its end, or to a
cleanup. -/
theorem Sound.settle (h : Sound lsockfds p current) (hclient : fd ∉ lsockfds)
    (howner : owner p.knotes fd = some buf)
    (hcurrent : ∀ other, current = some other → other = fd)
    (hfiltered : c.point ≠ .cleaned → Filtered notes buf c)
    (evs : List KEvent) (cleaned : Control) :
    ∃ next, Kqueue.settle
        { p with knotes := Function.update p.knotes fd notes } fd buf evs
        cleaned c = some next ∧
      (∀ other, other ≠ fd →
        next.process.knotes other = p.knotes other) ∧
      (∀ other, Leaked lsockfds next.process other ↔
        Leaked lsockfds p other) ∧
      ((c.point = .cleaned ∧ next.control = cleaned ∧
          Sound lsockfds next.process none) ∨
        (next.control = .batch evs ∧ Sound lsockfds next.process none) ∨
        (next.control = .client fd buf evs ∧
          Sound lsockfds next.process (some fd) ∧
          owner next.process.knotes fd = some buf)) := by
  obtain ⟨hopen, c', hc', _⟩ := h.of_owner hclient howner
  have hlive : (p.buffers.cell buf).isSome :=
    Option.isSome_of_eq_some hc'
  obtain ⟨buffers, hstore, hcell⟩ := Heap.store_of_live (a := c) hlive
  let p₁ : Process := ⟨p.fds, Function.update p.knotes fd notes, buffers⟩
  have helsewhere : ∀ other, other ≠ fd → p₁.knotes other = p.knotes other :=
    fun other hne => Function.update_of_ne hne ..
  have hleaked (hfd : Filtered notes buf c) (other : Nat) :
      Leaked lsockfds p₁ other ↔ Leaked lsockfds p other := by
    have howner' : owner p₁.knotes fd = some buf := by
      rw [owner_update, Function.update_self, hfd.read]
      rfl
    exact leaked_iff_of_not (not_leaked_of_owner howner)
      (not_leaked_of_owner howner') (fun _ _ => rfl) helsewhere other
  unfold Kqueue.settle
  dsimp only
  rw [hstore]
  cases hpoint : c.point with
  | cleaned =>
      have hlive₁ : (p₁.buffers.cell buf).isSome := by
        rw [hcell, Function.update_self]
        rfl
      obtain ⟨p', hcleanup, htable, hknotes, hcell'⟩ :=
        cleanup_of_live (p := p₁) hopen hlive₁
      rw [Function.update_idem] at hknotes
      rw [hcell, Function.update_idem] at hcell'
      have helsewhere' : ∀ other, other ≠ fd →
          p'.knotes other = p.knotes other := by
        intro other hne
        rw [hknotes, Function.update_of_ne hne]
      have hclosed : p'.fds.table fd = none := by
        rw [htable, Function.update_self]
      refine ⟨⟨cleaned, p'⟩, ?_, helsewhere', ?_, .inl ⟨rfl, rfl, ?_⟩⟩
      · have hcleanup' : Kqueue.cleanup p₁ fd (some buf) = some p' := hcleanup
        simp only [p₁] at hcleanup'
        simp [hcleanup']
      · refine leaked_iff_of_not (not_leaked_of_owner howner)
          (not_leaked_of_closed hclosed) ?_ helsewhere'
        intro other hne
        rw [htable, Function.update_of_ne hne]
      · exact h.drop hclient howner htable hknotes hcell' hcurrent
  | wait =>
      have hfd := hfiltered (by simp [hpoint])
      refine ⟨⟨.batch evs, p₁⟩, by simp [p₁], helsewhere, hleaked hfd,
        .inr (.inl ⟨rfl, ?_⟩)⟩
      exact h.replace hclient howner rfl rfl hcell hfd hcurrent
        (fun _ => hpoint)
  | _ =>
      have hfd := hfiltered (by simp [hpoint])
      refine ⟨⟨.client fd buf evs, p₁⟩, by simp [p₁], helsewhere, hleaked hfd,
        .inr (.inr ⟨rfl, ?_, ?_⟩)⟩
      · exact h.replace hclient howner rfl rfl hcell hfd hcurrent
          (fun hne => absurd rfl hne)
      · rw [owner_update, Function.update_self, hfd.read]
        rfl

/-- The descriptor that the accept loop leaves open: its `calloc` fails. -/
def callocFailsFor : Event → Option Nat
  | .accept fd calls =>
      if calls.setNonblocking ∧ calls.calloc = false then some fd else none
  | _ => none

/-- After an `accept` everything is as before, or the descriptor is left open,
or it is registered with a new buffer. -/
theorem accepted_cases (hopen : (p.fds.table fd).isSome)
    (hfree : p.knotes fd = fun _ => none) (calls : AcceptCalls) :
    ∃ again p', accepted p fd calls = some (again, p') ∧
      ((p'.fds.table = Function.update p.fds.table fd none ∧
          p'.knotes = p.knotes ∧ p'.buffers.cell = p.buffers.cell ∧
          callocFailsFor (.accept fd calls) = none) ∨
        (p' = p ∧ callocFailsFor (.accept fd calls) = some fd) ∨
        (p'.fds = p.fds ∧
          p'.knotes = Function.update p.knotes fd (Function.update
            (fun _ => none) EVFILT_READ (some ⟨true, some p.buffers.next⟩)) ∧
          p'.buffers = p.buffers.alloc (Connection.accepted .wait) ∧
          callocFailsFor (.accept fd calls) = none)) := by
  obtain ⟨fds, hclose, htable⟩ := Descriptors.close_of_open hopen
  have hsame : (Function.update p.knotes fd fun _ => none) = p.knotes :=
    Function.update_eq_self_iff.mpr hfree.symm
  unfold accepted
  split
  · rename_i hblocking
    refine ⟨false, { p with fds := fds }, ?_,
      .inl ⟨htable, rfl, rfl, by simp [callocFailsFor, hblocking]⟩⟩
    simp [Process.close, hclose, hsame]
  · rename_i hnonblocking
    split
    · rename_i hfails
      refine ⟨false, p, rfl, .inr (.inl ⟨rfl, ?_⟩)⟩
      simpa [callocFailsFor, hfails] using hnonblocking
    · rename_i hcalloc
      have hnone : callocFailsFor (.accept fd calls) = none := by
        simp [callocFailsFor, hcalloc]
      cases hadded : calls.kqChange with
      | false =>
          have hnew : ((p.buffers.alloc (Connection.accepted .wait)).cell
              p.buffers.next).isSome := by
            rw [Heap.alloc_cell_self]
            rfl
          obtain ⟨buffers, hfreeBuffer, hcell⟩ := Heap.free_of_live hnew
          rw [Heap.alloc_released] at hcell
          refine ⟨false, ⟨fds, p.knotes, buffers⟩, ?_,
            .inl ⟨htable, rfl, hcell, hnone⟩⟩
          simp [kqChange, Process.close, hclose, hsame,
            hfreeBuffer]
      | true =>
          have hchange : changeKnote (EV_ADD ||| EV_ENABLE)
              (some p.buffers.next) none =
              some (some ⟨true, some p.buffers.next⟩) := rfl
          let notes := Function.update (fun _ => none) EVFILT_READ
            (some (Knote.mk true (some p.buffers.next)))
          refine ⟨true, ⟨p.fds, Function.update p.knotes fd notes,
            p.buffers.alloc (Connection.accepted .wait)⟩, ?_,
            .inr (.inr ⟨rfl, rfl, rfl, hnone⟩)⟩
          simp [kqChange, hfree, hchange, Process.setKnote, notes]

/-- A call of a client's handler keeps its filters, unless it leads to a
cleanup. -/
theorem callFor_filtered (h : Filtered (p.knotes fd) buf c)
    {event : QueueEvent} {next : Process × Connection QueuePoint}
    (hnext : callFor p fd buf c event = some next) :
    ∃ notes, next.1 = { p with knotes := Function.update p.knotes fd notes } ∧
      (next.2.point ≠ .cleaned → Filtered notes buf next.2) := by
  cases event with
  | kqChange failed =>
      simp only [callFor, Option.bind_eq_bind, Option.bind_eq_some_iff] at hnext
      obtain ⟨⟨filter, flags, udata⟩, hat, c', hc', hnext⟩ := hnext
      cases hnext
      cases failed with
      | true =>
          refine ⟨p.knotes fd, by simp [kqChange, Function.update_eq_self], ?_⟩
          intro hopen
          exact absurd (queue_change_failed hc') hopen
      | false =>
          obtain ⟨note, next, hnote, hqueue, hfiltered⟩ := h.change hat
          simp only [kqChange, Bool.false_eq_true, if_false, hnote] at hc' ⊢
          obtain rfl : next = c' := Option.some.inj (hqueue.symm.trans hc')
          exact ⟨_, rfl, fun _ => hfiltered⟩
  | wait filter fflags => cases hnext
  | doSend results | recv result =>
      simp only [callFor, Option.bind_eq_bind, Option.bind_eq_some_iff] at hnext
      obtain ⟨c', hc', hnext⟩ := hnext
      cases hnext
      refine ⟨p.knotes fd, by rw [Function.update_eq_self], ?_⟩
      exact h.call (by simp) (by simp) hc'

/-- A registered filter of a client is one of its two, with its buffer. -/
theorem Sound.reported (h : Sound lsockfds p current)
    (hcurrent : current ≠ some fd) (hclient : fd ∉ lsockfds) {filter : Int}
    {note : Knote} (hnote : p.knotes fd filter = some note) :
    (p.fds.table fd).isSome ∧ ∃ buf c, p.buffers.cell buf = some c ∧
      Filtered (p.knotes fd) buf c ∧ c.point = .wait ∧ note.udata = some buf := by
  rcases h.client fd hclient with hnone | ⟨hopen, buf, c, hcell, hfiltered, hwait⟩
  · rw [hnone] at hnote
    cases hnote
  · refine ⟨hopen, buf, c, hcell, hfiltered, hwait hcurrent, ?_⟩
    rcases hfiltered.only filter (Option.isSome_of_eq_some hnote) with rfl | rfl
    · rw [hfiltered.read] at hnote
      cases hnote
      rfl
    · rcases hfiltered.write with hwrite | ⟨hwrite, _⟩
      · rw [hwrite] at hnote
        cases hnote
        rfl
      · rw [hwrite] at hnote
        cases hnote

/-- At `kevent` no descriptor has two enabled filters. -/
theorem Sound.filter_unique (h : Sound lsockfds p none) {filter filter' : Int}
    {udata udata' : Option Nat}
    (hnote : p.knotes fd filter = some ⟨true, udata⟩)
    (hnote' : p.knotes fd filter' = some ⟨true, udata'⟩) : filter = filter' := by
  rcases em (fd ∈ lsockfds) with hlistening | hclient
  · rw [(h.listener fd hlistening filter _ hnote).1,
      (h.listener fd hlistening filter' _ hnote').1]
  · obtain ⟨_, buf, c, _, hfiltered, hwait, _⟩ :=
      h.reported (by simp) hclient hnote
    have hplain : plain 0 = true := rfl
    obtain ⟨_, hbranch, _⟩ := hfiltered.dispatch hwait hnote hplain
    obtain ⟨_, hbranch', _⟩ := hfiltered.dispatch hwait hnote' hplain
    rcases hbranch with ⟨rfl, hsize, _⟩ | ⟨rfl, hsize, _⟩ <;>
      rcases hbranch' with ⟨rfl, hsize', _⟩ | ⟨rfl, hsize', _⟩
    · rfl
    · exact absurd hsize' hsize.ne'
    · exact absurd hsize hsize'.ne'
    · rfl

/-- A closed accepted descriptor is registered for nothing. -/
theorem Sound.not_registered (h : Sound lsockfds p current)
    (hclient : fd ∉ lsockfds) (hclosed : p.fds.table fd = none) :
    p.knotes fd = fun _ => none := by
  rcases h.client fd hclient with hnone | ⟨hopen, _⟩
  · exact hnone
  · rw [hclosed] at hopen
    cases hopen

/-- The read filter of a listening socket, without a buffer. -/
theorem Sound.update_listener (h : Sound lsockfds p none)
    (hlistening : fd ∈ lsockfds)
    (hnotes : ∀ filter note, notes filter = some note →
      filter = EVFILT_READ ∧ note.udata = none) :
    Sound lsockfds { p with knotes := Function.update p.knotes fd notes }
      none where
  not_listening := h.not_listening
  listener := by
    intro other hother filter note hnote
    dsimp only at hnote
    rcases eq_or_ne other fd with rfl | hne
    · rw [Function.update_self] at hnote
      exact hnotes filter note hnote
    · rw [Function.update_of_ne hne] at hnote
      exact h.listener other hother filter note hnote
  client := by
    intro other hother
    have hne : other ≠ fd := fun heq => hother (heq ▸ hlistening)
    dsimp only
    rw [Function.update_of_ne hne]
    exact h.client other hother
  owned := by
    have hbuffer : (notes EVFILT_READ).bind Knote.udata =
        owner p.knotes fd := by
      unfold owner
      cases hnote : notes EVFILT_READ with
      | none =>
          cases hnote' : p.knotes fd EVFILT_READ with
          | none => rfl
          | some note' =>
              exact (h.listener fd hlistening _ note' hnote').2.symm
      | some note =>
          cases hnote' : p.knotes fd EVFILT_READ with
          | none => exact (hnotes _ note hnote).2
          | some note' =>
              exact (hnotes _ note hnote).2.trans
                (h.listener fd hlistening _ note' hnote').2.symm
    dsimp only
    rw [owner_update, hbuffer, Function.update_eq_self]
    exact h.owned

/-- The change that registers a listening socket. -/
theorem Sound.kqChange_listener (h : Sound lsockfds p none)
    (hlistening : fd ∈ lsockfds) (failed : Bool) :
    ∃ code notes,
      kqChange p fd EVFILT_READ (EV_ADD ||| EV_ENABLE) none failed =
        (code, { p with knotes := Function.update p.knotes fd notes }) ∧
      ∀ filter note, notes filter = some note →
        filter = EVFILT_READ ∧ note.udata = none := by
  have hbefore := h.listener fd hlistening
  cases failed with
  | true =>
      refine ⟨-1, p.knotes fd, ?_, hbefore⟩
      simp [kqChange, Function.update_eq_self]
  | false =>
      have hchange : changeKnote (EV_ADD ||| EV_ENABLE) none
          (p.knotes fd EVFILT_READ) = some (some ⟨true, none⟩) := by
        cases hnote : p.knotes fd EVFILT_READ with
        | none => rfl
        | some note => simp [changeKnote, EV_ADD, EV_ENABLE, EV_DELETE,
            EV_DISABLE, EV_KEEPUDATA]
      refine ⟨0, Function.update (p.knotes fd) EVFILT_READ
        (some ⟨true, none⟩), ?_, ?_⟩
      · simp [kqChange, hchange, Process.setKnote]
      · intro filter note hnote
        rcases eq_or_ne filter EVFILT_READ with rfl | hne
        · rw [Function.update_self] at hnote
          cases hnote
          exact ⟨rfl, rfl⟩
        · rw [Function.update_of_ne hne] at hnote
          exact hbefore filter note hnote

end CsPrimer.ShoutServer.Kqueue
