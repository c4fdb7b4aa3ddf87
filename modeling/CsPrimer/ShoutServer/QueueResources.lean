import CsPrimer.ShoutServer.QueueClients

/-!
Whole runs of `queue`. Every event of a batch meets the client it was reported
for, in a state that its branch expects; and what is open, registered and
allocated belongs together, but for the descriptors that a failed `calloc` has
left open.
-/

namespace CsPrimer.ShoutServer.Kqueue

open Foundation

variable {lsockfds : List Nat} {p p' : Process} {fd buf : Nat}
  {current : Option Nat} {notes : Int → Option Knote}
  {c : Connection QueuePoint}

/-- The events that are still to be handled: enabled filters of distinct
descriptors. -/
structure Pending (lsockfds : List Nat) (p : Process) (evs : List KEvent) :
    Prop where
  nodup : (evs.map KEvent.ident).Nodup
  enabled : ∀ ev ∈ evs, p.knotes ev.ident ev.filter = some ⟨true, ev.udata⟩
  plain : ∀ ev ∈ evs, ev.ident ∈ lsockfds → plain ev.fflags = true

theorem pending_nil : Pending lsockfds p [] where
  nodup := List.nodup_nil
  enabled := by
    intro ev hev
    cases hev
  plain := by
    intro ev hev
    cases hev

/-- The first event is about a descriptor of its own. -/
theorem Pending.cons {ev : KEvent} {evs : List KEvent}
    (h : Pending lsockfds p (ev :: evs)) :
    Pending lsockfds p evs ∧ ∀ other ∈ evs, other.ident ≠ ev.ident := by
  obtain ⟨hnew, hnodup⟩ := List.nodup_cons.mp h.nodup
  refine ⟨⟨hnodup, ?_, ?_⟩, ?_⟩
  · exact fun other hother => h.enabled other (List.mem_cons_of_mem _ hother)
  · exact fun other hother => h.plain other (List.mem_cons_of_mem _ hother)
  · intro other hother heq
    exact hnew (heq ▸ List.mem_map_of_mem hother)

/-- What happens to other descriptors does not matter. -/
theorem Pending.elsewhere {evs : List KEvent} (h : Pending lsockfds p evs)
    (hother : ∀ ev ∈ evs, ev.ident ≠ fd)
    (hknotes : ∀ other, other ≠ fd → p'.knotes other = p.knotes other) :
    Pending lsockfds p' evs where
  nodup := h.nodup
  enabled := by
    intro ev hev
    rw [hknotes ev.ident (hother ev hev)]
    exact h.enabled ev hev
  plain := h.plain

theorem harvest_cons {report : Report} {reports : List Report}
    {evs : List KEvent}
    (h : harvest lsockfds p (report :: reports) = some evs) :
    ∃ ev rest, harvest lsockfds p reports = some rest ∧ evs = ev :: rest ∧
      ev.ident = report.ident ∧ ev.filter = report.filter ∧
      p.knotes ev.ident ev.filter = some ⟨true, ev.udata⟩ ∧
      (ev.ident ∈ lsockfds → plain ev.fflags = true) := by
  simp only [harvest, harvestOne, Option.bind_eq_bind,
    Option.bind_eq_some_iff] at h
  obtain ⟨ev, ⟨⟨enabled, udata⟩, hnote, hev⟩, rest, hrest, hevs⟩ := h
  split at hev
  · rename_i hreported
    cases hev
    obtain rfl : enabled = true := hreported.1
    exact ⟨_, rest, hrest, (Option.some.inj hevs).symm, rfl, rfl, hnote,
      hreported.2⟩
  · cases hev

theorem harvest_reported {reports : List Report} {evs : List KEvent}
    (h : harvest lsockfds p reports = some evs) :
    ∀ ev ∈ evs,
      ((ev.ident, ev.filter) ∈
        reports.map fun report => (report.ident, report.filter)) ∧
      p.knotes ev.ident ev.filter = some ⟨true, ev.udata⟩ ∧
      (ev.ident ∈ lsockfds → plain ev.fflags = true) := by
  induction reports generalizing evs with
  | nil =>
      cases h
      intro ev hev
      cases hev
  | cons report reports ih =>
      obtain ⟨ev, rest, hrest, rfl, hident, hfilter, hnote, hplain⟩ :=
        harvest_cons h
      intro other hother
      rw [List.map_cons]
      rcases List.mem_cons.mp hother with rfl | hother
      · rw [← hident, ← hfilter]
        exact ⟨List.mem_cons_self .., hnote, hplain⟩
      · obtain ⟨hmem, hother⟩ := ih hrest other hother
        exact ⟨List.mem_cons_of_mem _ hmem, hother⟩

/-- What `kevent` returns. -/
theorem Sound.harvest (h : Sound lsockfds p none) {reports : List Report}
    (hnodup : (reports.map fun report =>
      (report.ident, report.filter)).Nodup)
    {evs : List KEvent}
    (hharvest : Kqueue.harvest lsockfds p reports = some evs) :
    Pending lsockfds p evs := by
  have hreported := harvest_reported hharvest
  refine ⟨?_, fun ev hev => (hreported ev hev).2.1,
    fun ev hev => (hreported ev hev).2.2⟩
  induction reports generalizing evs with
  | nil =>
      cases hharvest
      exact List.nodup_nil
  | cons report reports ih =>
      obtain ⟨ev, rest, hrest, rfl, hident, hfilter, hnote, _⟩ :=
        harvest_cons hharvest
      obtain ⟨hnew, hnodup'⟩ := List.nodup_cons.mp hnodup
      refine List.nodup_cons.mpr
        ⟨?_, ih hnodup' hrest (harvest_reported hrest)⟩
      intro hmem
      obtain ⟨other, hother, hsame⟩ := List.mem_map.mp hmem
      obtain ⟨hmem', hnote', _⟩ := harvest_reported hrest other hother
      rw [hsame] at hnote' hmem'
      rw [h.filter_unique hnote' hnote, hident, hfilter] at hmem'
      exact hnew hmem'

/-- The client whose handler is at a call. -/
def Control.handling : Control → Option Nat
  | .client fd _ _ => some fd
  | _ => none

def Control.pending : Control → List KEvent
  | .batch evs | .accept _ evs | .client _ _ evs => evs
  | _ => []

structure Safe (lsockfds : List Nat) (s : Server) : Prop where
  no_fault : s.control ≠ .fault
  never_stopped : s.control ≠ .closeQueue
  setup : ∀ fds, s.control = .setup fds → fds ⊆ lsockfds
  sound : Sound lsockfds s.process s.control.handling
  pending : Pending lsockfds s.process s.control.pending
  client : ∀ fd buf evs, s.control = .client fd buf evs →
    fd ∉ lsockfds ∧ owner s.process.knotes fd = some buf ∧
      ∀ ev ∈ evs, ev.ident ≠ fd

variable {s next : Server} {evs : List KEvent}

theorem Sound.safe_batch (h : Sound lsockfds p none)
    (hpending : Pending lsockfds p evs) : Safe lsockfds ⟨.batch evs, p⟩ :=
  ⟨by simp, by simp, by simp, h, hpending, by simp⟩

/-- Where the handler of a client has come to. -/
theorem Sound.settle_safe (h : Sound lsockfds p current)
    (hclient : fd ∉ lsockfds) (howner : owner p.knotes fd = some buf)
    (hcurrent : ∀ other, current = some other → other = fd)
    (hfiltered : c.point ≠ .cleaned → Filtered notes buf c)
    (hpending : Pending lsockfds p evs) (hother : ∀ ev ∈ evs, ev.ident ≠ fd)
    (cleaned : Control)
    (hcleaned : c.point = .cleaned → cleaned = .batch evs) :
    ∃ next, Kqueue.settle
        { p with knotes := Function.update p.knotes fd notes } fd buf evs
        cleaned c = some next ∧ Safe lsockfds next ∧
      ∀ other, Leaked lsockfds next.process other ↔
        Leaked lsockfds p other := by
  obtain ⟨⟨control, p'⟩, hsettle, hknotes, hleaked, hcases⟩ :=
    h.settle hclient howner hcurrent hfiltered evs cleaned
  refine ⟨⟨control, p'⟩, hsettle, ?_, hleaked⟩
  have hpending' : Pending lsockfds p' evs := hpending.elsewhere hother hknotes
  rcases hcases with ⟨hpoint, hcontrol, hsound⟩ | ⟨hcontrol, hsound⟩ |
    ⟨hcontrol, hsound, howner'⟩
  · obtain rfl : control = .batch evs := hcontrol.trans (hcleaned hpoint)
    exact hsound.safe_batch hpending'
  · obtain rfl : control = .batch evs := hcontrol
    exact hsound.safe_batch hpending'
  · obtain rfl : control = .client fd buf evs := hcontrol
    refine ⟨by simp, by simp, by simp, hsound, hpending', ?_⟩
    intro fd' buf' evs' heq
    cases heq
    exact ⟨hclient, howner', hother⟩

/-- An event of the batch meets the client it was reported for. -/
theorem Sound.dispatch (h : Sound lsockfds p none) {ev : KEvent}
    (hpending : Pending lsockfds p (ev :: evs)) :
    ∃ next, Kqueue.dispatch lsockfds p ev evs = some next ∧
      Safe lsockfds next ∧
      ∀ other, Leaked lsockfds next.process other ↔
        Leaked lsockfds p other := by
  obtain ⟨hrest, hother⟩ := hpending.cons
  have hnote := hpending.enabled ev (List.mem_cons_self ..)
  have hlisten := hpending.plain ev (List.mem_cons_self ..)
  unfold Kqueue.dispatch
  rcases em (ev.ident ∈ lsockfds) with hlistening | hclient
  · refine ⟨⟨.accept ev.ident evs, p⟩, ?_, ?_, fun _ => Iff.rfl⟩
    · simp [hlisten hlistening, hlistening]
    · exact ⟨by simp, by simp, by simp, h, hrest, by simp⟩
  · obtain ⟨hopen, buf, c, hcell, hfiltered, hwait, hudata⟩ :=
      h.reported (by simp) hclient hnote
    have hevent : ev.udata = some buf := hudata
    have howner := owner_of_filtered hfiltered
    cases hplain : plain ev.fflags with
    | false =>
        have hlive : (p.buffers.cell buf).isSome :=
          Option.isSome_of_eq_some hcell
        obtain ⟨p', hcleanup, htable, hknotes, hcell'⟩ :=
          cleanup_of_live hopen hlive
        refine ⟨⟨.batch evs, p'⟩, ?_, ?_, ?_⟩
        · simp [hevent, hcleanup]
        · have hsound := h.drop hclient howner htable hknotes hcell' (by simp)
          refine hsound.safe_batch (hrest.elsewhere hother ?_)
          intro other hne
          rw [hknotes, Function.update_of_ne hne]
        · refine leaked_iff_of_not (not_leaked_of_owner howner)
            (not_leaked_of_closed (by rw [htable, Function.update_self])) ?_ ?_
          · intro other hne
            rw [htable, Function.update_of_ne hne]
          · intro other hne
            rw [hknotes, Function.update_of_ne hne]
    | true =>
        obtain ⟨_, hbranch, hfiltered'⟩ :=
          hfiltered.dispatch hwait hnote hplain
        have hpoint : (queueDispatch c ev.filter ev.fflags).point ≠
            .cleaned := by
          rcases hbranch with ⟨_, _, hgoto⟩ | ⟨_, _, hgoto⟩ <;>
            rw [hgoto] <;> simp [Connection.goto]
        obtain ⟨next, hsettle, hsafe⟩ := h.settle_safe hclient howner (by simp)
          (fun _ => hfiltered') hrest hother .closeQueue
          (fun hclean => absurd hclean hpoint)
        refine ⟨next, ?_, hsafe⟩
        rw [Function.update_eq_self] at hsettle
        simp [hclient, hevent, hcell, hsettle]

/-- A pass of the accept loop leaks the descriptor exactly if its `calloc`
fails. -/
theorem Sound.accepted (h : Sound lsockfds p none) (hclient : fd ∉ lsockfds)
    {fds : Descriptors} (hopen : p.fds.open fd = some fds)
    (calls : AcceptCalls) (hpending : Pending lsockfds p evs) (listener : Nat) :
    ∃ again p', Kqueue.accepted { p with fds := fds } fd calls =
        some (again, p') ∧
      Safe lsockfds ⟨if again then .accept listener evs else .batch evs, p'⟩ ∧
      ∀ other, Leaked lsockfds p' other ↔
        Leaked lsockfds p other ∨
          callocFailsFor (.accept fd calls) = some other := by
  obtain ⟨hclosed, htable⟩ := Descriptors.open_cases hopen
  have hfree := h.not_registered hclient hclosed
  have hisopen : (fds.table fd).isSome := by
    rw [htable, Function.update_self]
    rfl
  have hother : ∀ ev ∈ evs, ev.ident ≠ fd := by
    rintro ev hev rfl
    have hnote := hpending.enabled ev hev
    rw [hfree] at hnote
    cases hnote
  have hnotleaked : ¬ Leaked lsockfds p fd := not_leaked_of_closed hclosed
  have htableother : ∀ other, other ≠ fd →
      fds.table other = p.fds.table other := by
    intro other hne
    rw [htable, Function.update_of_ne hne]
  obtain ⟨again, p', haccepted, hcases⟩ :=
    accepted_cases (p := { p with fds := fds }) hisopen hfree calls
  have hkept : Sound lsockfds p' none ∧
      (∀ other, other ≠ fd → p'.knotes other = p.knotes other) ∧
      ∀ other, Leaked lsockfds p' other ↔ Leaked lsockfds p other ∨
        callocFailsFor (.accept fd calls) = some other := by
    rcases hcases with ⟨htable', hknotes, hcell, hcalloc⟩ | ⟨rfl, hcalloc⟩ |
      ⟨hfds, hknotes, hbuffers, hcalloc⟩
    · have hsame : p'.fds.table = p.fds.table := by
        rw [htable', htable, Function.update_idem,
          Function.update_eq_self_iff.mpr hclosed.symm]
      refine ⟨h.congr hsame hknotes hcell, fun _ _ => by rw [hknotes], ?_⟩
      intro other
      simp [Leaked, hsame, hknotes, hcalloc]
    · refine ⟨h.leave hclient hfree htable rfl rfl, fun _ _ => rfl, ?_⟩
      intro other
      rw [hcalloc]
      rcases eq_or_ne other fd with rfl | hne
      · refine iff_of_true ⟨hclient, hisopen, ?_⟩ (.inr rfl)
        rw [hfree]
      · simp [Leaked, htableother other hne, hne.symm]
    · have hfiltered := filtered_accepted p.buffers.next
      have helsewhere : ∀ other, other ≠ fd →
          p'.knotes other = p.knotes other := by
        intro other hne
        rw [hknotes, Function.update_of_ne hne]
      have howner : owner p'.knotes fd = some p.buffers.next := by
        rw [hknotes, owner_update, Function.update_self]
        rfl
      have htable' : p'.fds.table =
          Function.update p.fds.table fd (some p.fds.files.next) := by
        rw [hfds]
        exact htable
      refine ⟨h.register hclient hfree htable' hknotes hbuffers hfiltered rfl,
        helsewhere, ?_⟩
      intro other
      rw [leaked_iff_of_not hnotleaked (not_leaked_of_owner howner)
        (hfds ▸ htableother) helsewhere other, hcalloc]
      simp
  obtain ⟨hsound, helsewhere, hleaked⟩ := hkept
  refine ⟨again, p', haccepted, ?_, hleaked⟩
  have hpending' := hpending.elsewhere hother helsewhere
  split
  · exact ⟨by simp, by simp, by simp, hsound, hpending', by simp⟩
  · exact hsound.safe_batch hpending'

theorem Sound.safe_setupFrom (h : Sound lsockfds p none) {fds : List Nat}
    (hfds : fds ⊆ lsockfds) : Safe lsockfds ⟨setupFrom fds, p⟩ := by
  cases fds with
  | nil =>
      exact ⟨by simp [setupFrom], by simp [setupFrom], by simp [setupFrom], h,
        pending_nil, by simp [setupFrom]⟩
  | cons fd fds =>
      refine ⟨by simp [setupFrom], by simp [setupFrom], ?_, h, pending_nil,
        by simp [setupFrom]⟩
      intro fds' hcontrol
      cases hcontrol
      exact hfds

/-- A listening socket is registered, or `queue` returns. -/
theorem Sound.listen (h : Sound lsockfds p none) {rest : List Nat}
    (hfds : fd :: rest ⊆ lsockfds) (failed : Bool) :
    ∃ code p', kqChange p fd EVFILT_READ (EV_ADD ||| EV_ENABLE) none failed =
        (code, p') ∧
      Safe lsockfds ⟨if code < 0 then .returned 5 else setupFrom rest, p'⟩ ∧
      ∀ other, Leaked lsockfds p' other ↔ Leaked lsockfds p other := by
  obtain ⟨hlistening, hrest⟩ := List.cons_subset.mp hfds
  obtain ⟨code, notes, hchange, hnotes⟩ :=
    h.kqChange_listener hlistening failed
  have hsound := h.update_listener hlistening hnotes
  refine ⟨code, _, hchange, ?_, ?_⟩
  · split
    · exact ⟨by simp, by simp, by simp, hsound, pending_nil, by simp⟩
    · exact hsound.safe_setupFrom hrest
  · have hnot (p : Process) : ¬ Leaked lsockfds p fd :=
      fun hleaked => hleaked.1 hlistening
    exact leaked_iff_of_not (hnot p) (hnot _) (fun _ _ => rfl)
      (fun other hne => Function.update_of_ne hne ..)

/-- A step keeps `Safe`, and leaks a descriptor exactly if it is the accept
whose `calloc` fails. -/
theorem Safe.step {event : Event} (h : Safe lsockfds s)
    (hnext : Kqueue.step lsockfds s event = some next) :
    Safe lsockfds next ∧
      ∀ fd, Leaked lsockfds next.process fd ↔
        Leaked lsockfds s.process fd ∨ callocFailsFor event = some fd := by
  obtain ⟨control, p⟩ := s
  have hsound := h.sound
  have hpending := h.pending
  unfold Kqueue.step at hnext
  split at hnext
  · rename_i fd rest failed hcontrol
    obtain rfl : control = .setup (fd :: rest) := hcontrol
    obtain ⟨code, p', hchange, hsafe, hleaked⟩ :=
      hsound.listen (h.setup _ rfl) failed
    simp only [hchange] at hnext
    cases hnext
    exact ⟨hsafe, fun fd => by simp [hleaked, callocFailsFor]⟩
  · rename_i reports hcontrol
    obtain rfl : control = .wait := hcontrol
    split at hnext
    · rename_i hreports
      simp only [Option.bind_eq_bind, Option.bind_eq_some_iff] at hnext
      obtain ⟨evs, hharvest, hevs⟩ := hnext
      cases hevs
      refine ⟨?_, fun fd => by simp [callocFailsFor]⟩
      exact hsound.safe_batch (hsound.harvest hreports.2 hharvest)
    · cases hnext
  · rename_i hcontrol
    obtain rfl : control = .wait := hcontrol
    cases hnext
    refine ⟨⟨by simp, by simp, by simp, hsound, pending_nil, by simp⟩, ?_⟩
    exact fun fd => by simp [callocFailsFor]
  · rename_i hcontrol
    obtain rfl : control = .batch [] := hcontrol
    cases hnext
    refine ⟨⟨by simp, by simp, by simp, hsound, pending_nil, by simp⟩, ?_⟩
    exact fun fd => by simp [callocFailsFor]
  · rename_i ev evs hcontrol
    obtain rfl : control = .batch (ev :: evs) := hcontrol
    obtain ⟨next', hdispatch, hsafe, hleaked⟩ := hsound.dispatch hpending
    simp only [hdispatch, Server.orFault, Option.getD_some,
      Option.some.injEq] at hnext
    subst hnext
    exact ⟨hsafe, fun fd => by simp [hleaked, callocFailsFor]⟩
  · rename_i listener evs fd calls hcontrol
    obtain rfl : control = .accept listener evs := hcontrol
    split at hnext
    · cases hnext
    · rename_i hclient
      simp only [Option.bind_eq_bind, Option.bind_eq_some_iff] at hnext
      obtain ⟨fds, hopen, hnext⟩ := hnext
      obtain ⟨again, p', haccepted, hsafe, hleaked⟩ :=
        hsound.accepted hclient hopen calls hpending listener
      simp only [haccepted, Server.orFault, Option.bind_some,
        Option.getD_some, Option.some.injEq] at hnext
      subst hnext
      exact ⟨hsafe, hleaked⟩
  · rename_i listener evs hcontrol
    obtain rfl : control = .accept listener evs := hcontrol
    cases hnext
    exact ⟨hsound.safe_batch hpending, fun fd => by simp [callocFailsFor]⟩
  · rename_i fd buf evs event hcontrol
    obtain rfl : control = .client fd buf evs := hcontrol
    have hsound : Sound lsockfds p (some fd) := h.sound
    have hpending : Pending lsockfds p evs := h.pending
    obtain ⟨hclient, howner, hother⟩ : fd ∉ lsockfds ∧
        owner p.knotes fd = some buf ∧ ∀ ev ∈ evs, ev.ident ≠ fd :=
      h.client fd buf evs rfl
    obtain ⟨hopen, c, hcell, hfiltered, _⟩ := hsound.of_owner hclient howner
    obtain ⟨file, hfile⟩ := Option.isSome_iff_exists.mp hopen
    have hhandled : handled p fd buf = some c := by
      simp [handled, hfile, hcell]
    simp only [hhandled, Option.bind_eq_bind, Option.bind_eq_some_iff] at hnext
    obtain ⟨⟨p', c'⟩, hcall, hnext⟩ := hnext
    obtain ⟨notes, hp', hfiltered'⟩ := callFor_filtered hfiltered hcall
    obtain rfl : p' = { p with knotes := Function.update p.knotes fd notes } :=
      hp'
    obtain ⟨next', hsettle, hsafe, hleaked⟩ := hsound.settle_safe hclient
      howner (fun other heq => (Option.some.inj heq).symm) hfiltered' hpending
      hother (.batch evs) (fun _ => rfl)
    simp only [hsettle, Server.orFault, Option.getD_some,
      Option.some.injEq] at hnext
    subst hnext
    exact ⟨hsafe, fun fd => by simp [hleaked, callocFailsFor]⟩
  · rename_i hcontrol
    exact absurd hcontrol h.never_stopped
  · cases hnext

theorem start_safe (lsockfds : List Nat) : Safe lsockfds (start lsockfds) := by
  have hsound : Sound lsockfds (start lsockfds).process none :=
    ⟨fun _ _ => rfl, (fun _ _ _ _ hnone => by cases hnone), fun _ _ => .inl rfl,
      Heap.ownedBy_empty⟩
  exact hsound.safe_setupFrom (List.Subset.refl lsockfds)

def enabled (p : Process) (fd : Nat) (filter : Int) : Bool :=
  (p.knotes fd filter).any Knote.enabled

/-- At `kevent`, of the two filters of a registered client the one that fits
its pending bytes is enabled. An event of a client goes to one of the two
branches that handle it, and belongs to a connection that is still there. -/
structure FiltersSafe (lsockfds : List Nat) (s : Server) : Prop where
  at_kevent : s.control = .wait → ∀ fd, fd ∉ lsockfds →
    ∀ filter, (s.process.knotes fd filter).isSome →
      (filter = EVFILT_READ ∨ filter = EVFILT_WRITE) ∧
      ∃ buf c, owner s.process.knotes fd = some buf ∧
        s.process.buffers.cell buf = some c ∧
        (enabled s.process fd EVFILT_READ = true ↔ c.buffer.size = 0) ∧
        (enabled s.process fd EVFILT_WRITE = true ↔ 0 < c.buffer.size)
  handled : ∀ ev evs, s.control = .batch (ev :: evs) → ev.ident ∉ lsockfds →
    plain ev.fflags = true →
      ∃ buf c, ev.udata = some buf ∧ s.process.buffers.cell buf = some c ∧
        ((ev.filter = EVFILT_WRITE ∧ 0 < c.buffer.size ∧
            queueDispatch c ev.filter ev.fflags = c.goto .writeSend) ∨
          (ev.filter = EVFILT_READ ∧ c.buffer.size = 0 ∧
            queueDispatch c ev.filter ev.fflags = c.goto .recv))
  never_stopped : s.control ≠ .closeQueue
  pending_nodup : (s.control.pending.map KEvent.ident).Nodup
  not_cleaned : ∀ ev ∈ s.control.pending,
    s.process.knotes ev.ident ev.filter = some ⟨true, ev.udata⟩ ∧
      (ev.ident ∉ lsockfds → (s.process.fds.table ev.ident).isSome ∧
        ∃ buf c, ev.udata = some buf ∧ s.process.buffers.cell buf = some c ∧
          c.point = .wait)

/-- The filters at `kevent`. -/
theorem Filtered.enabled_iff (h : Filtered (p.knotes fd) buf c)
    (hwait : c.point = .wait) :
    (enabled p fd EVFILT_READ = true ↔ c.buffer.size = 0) ∧
      (enabled p fd EVFILT_WRITE = true ↔ 0 < c.buffer.size) := by
  have hread : readEnabled c = decide (c.buffer.size = 0) := by
    simp only [readEnabled, hwait]
  have hwrite : writeEnabled c = decide (0 < c.buffer.size) := by
    simp only [writeEnabled, hwait]
  constructor
  · simp [enabled, h.read, hread]
  · rcases h.write with hsome | ⟨hnone, hoff⟩
    · simp [enabled, hsome, hwrite]
    · rw [hwrite] at hoff
      simp [enabled, hnone, of_decide_eq_false hoff]

/-- The rest of the batch is not about the client being handled. -/
theorem Safe.handling_ne (h : Safe lsockfds s) {ev : KEvent}
    (hev : ev ∈ s.control.pending) : s.control.handling ≠ some ev.ident := by
  cases hcontrol : s.control with
  | client fd buf evs =>
      rw [hcontrol] at hev
      have hother := (h.client fd buf evs hcontrol).2.2 ev hev
      exact fun heq => hother (Option.some.inj heq).symm
  | _ => simp [Control.handling]

theorem Safe.filtersSafe (h : Safe lsockfds s) : FiltersSafe lsockfds s where
  at_kevent := by
    intro hcontrol fd hclient filter hsome
    obtain ⟨note, hnote⟩ := Option.isSome_iff_exists.mp hsome
    obtain ⟨_, buf, c, hcell, hfiltered, hwait, _⟩ :=
      h.sound.reported (by simp [hcontrol, Control.handling]) hclient hnote
    exact ⟨hfiltered.only filter hsome, buf, c, owner_of_filtered hfiltered,
      hcell, hfiltered.enabled_iff hwait⟩
  handled := by
    intro ev evs hcontrol hclient hplain
    have hev : ev ∈ s.control.pending := by
      rw [hcontrol]
      exact List.mem_cons_self ..
    have hnote := h.pending.enabled ev hev
    obtain ⟨_, buf, c, hcell, hfiltered, hwait, hudata⟩ :=
      h.sound.reported (h.handling_ne hev) hclient hnote
    obtain ⟨_, hbranch, _⟩ := hfiltered.dispatch hwait hnote hplain
    exact ⟨buf, c, hudata, hcell, hbranch⟩
  never_stopped := h.never_stopped
  pending_nodup := h.pending.nodup
  not_cleaned := by
    intro ev hev
    have hnote := h.pending.enabled ev hev
    refine ⟨hnote, fun hclient => ?_⟩
    obtain ⟨hopen, buf, c, hcell, _, hwait, hudata⟩ :=
      h.sound.reported (h.handling_ne hev) hclient hnote
    exact ⟨hopen, buf, c, hudata, hcell, hwait⟩

/-- In every run of `queue`, whatever `fflags` the events of clients have. -/
theorem queue_filters_safe (lsockfds : List Nat) (s : Server)
    (hs : Reaches (step lsockfds) (start lsockfds) s) :
    FiltersSafe lsockfds s := by
  have hsafe : Safe lsockfds s :=
    hs.invariant (fun _ _ _ h hnext => (h.step hnext).1) (start_safe lsockfds)
  exact hsafe.filtersSafe

/-- A short send moves a client from its read to its write filter. -/
def shortSendRun : List Event :=
  [.kqChange false, .kevent [⟨3, EVFILT_READ, 0⟩], .next,
    .accept 5 ⟨true, true, true⟩, .accept 6 ⟨true, true, true⟩, .acceptFails,
    .next, .kevent [⟨5, EVFILT_READ, 0⟩, ⟨6, EVFILT_READ, 0⟩], .next,
    .client (.recv (.bytes [1, 2, 3])),
    .client (.doSend [⟨2, false⟩, ⟨-1, true⟩]), .client (.kqChange false),
    .client (.kqChange false)]

theorem short_send_run_enabled :
    (runEvents (step [3]) (start [3]) shortSendRun).isSome := by
  decide

theorem short_send_run_filters_safe :
    FiltersSafe [3] ((runEvents (step [3]) (start [3]) shortSendRun).get
      short_send_run_enabled) :=
  queue_filters_safe [3] _
    ⟨shortSendRun, (Option.some_get short_send_run_enabled).symm⟩

/-- What is open, registered and allocated belongs together, and all that was
opened or allocated is live or has been given back once. -/
structure ResourceSafe (lsockfds : List Nat) (s : Server) : Prop where
  no_fault : s.control ≠ .fault
  registered : ∀ fd, fd ∉ lsockfds →
    ((s.process.fds.table fd).isSome ↔
      ∃ filter, (s.process.knotes fd filter).isSome)
  has_buffer : ∀ fd, fd ∉ lsockfds →
    (∃ filter, (s.process.knotes fd filter).isSome) →
      (owner s.process.knotes fd).isSome
  buffers : s.process.buffers.OwnedBy (owner s.process.knotes)
  closed_once : ∀ file < s.process.fds.files.next,
    ((∃ fd, s.process.fds.table fd = some file) ∧
      s.process.fds.files.released.count file = 0) ∨
    ((∀ fd, s.process.fds.table fd ≠ some file) ∧
      s.process.fds.files.released.count file = 1)
  buffer_released_once : ∀ buf < s.process.buffers.next,
    s.process.buffers.released.count buf =
      if (s.process.buffers.cell buf).isSome then 0 else 1

/-- Nothing but a leaked descriptor spoils the accounts. -/
theorem Safe.resourceSafe_iff (h : Safe lsockfds s) :
    ResourceSafe lsockfds s ↔ ¬ ∃ fd, Leaked lsockfds s.process fd := by
  constructor
  · rintro hsafe ⟨fd, hclient, hopen, hnone⟩
    have hbuffer := hsafe.has_buffer fd hclient
      ((hsafe.registered fd hclient).mp hopen)
    rw [owner, hnone] at hbuffer
    cases hbuffer
  · intro hnot
    have hregistered (fd : Nat) (hclient : fd ∉ lsockfds) :
        s.process.knotes fd = (fun _ => none) ∨
          ((s.process.fds.table fd).isSome ∧
            (owner s.process.knotes fd).isSome) := by
      rcases h.sound.client fd hclient with hnone | ⟨hopen, _, _, _, hf, _⟩
      · exact .inl hnone
      · exact .inr ⟨hopen, Option.isSome_of_eq_some (owner_of_filtered hf)⟩
    refine ⟨h.no_fault, ?_, ?_, h.sound.owned,
      fun _ => Descriptors.closed_once, fun _ => Heap.released_once⟩
    · intro fd hclient
      rcases hregistered fd hclient with hnone | ⟨hopen, howner⟩
      · refine iff_of_false ?_ (by simp [hnone])
        intro hopen
        exact hnot ⟨fd, hclient, hopen, by rw [hnone]⟩
      · refine iff_of_true hopen ⟨EVFILT_READ, ?_⟩
        exact Option.isSome_of_isSome_bind howner
    · rintro fd hclient ⟨filter, hsome⟩
      rcases hregistered fd hclient with hnone | ⟨_, howner⟩
      · rw [hnone] at hsome
        cases hsome
      · exact howner

/-- In every run: the accounts are in order if and only if no `calloc` of the
accept loop has failed. -/
theorem queue_resources_iff (lsockfds : List Nat) (events : List Event)
    (s : Server)
    (hrun : runEvents (step lsockfds) (start lsockfds) events = some s) :
    ResourceSafe lsockfds s ↔
      EachStep (step lsockfds) (fun _ event => callocFailsFor event = none)
        (start lsockfds) events := by
  have hsafe : Safe lsockfds s :=
    Reaches.invariant (fun _ _ _ h hnext => (h.step hnext).1)
      (start_safe lsockfds) ⟨events, hrun⟩
  have hstart : ¬ ∃ fd, Leaked lsockfds (start lsockfds).process fd := by
    rintro ⟨fd, _, hopen, _⟩
    cases hopen
  have hstep : ∀ s event next, Safe lsockfds s →
      step lsockfds s event = some next → Safe lsockfds next ∧
        ((∃ fd, Leaked lsockfds next.process fd) ↔
          (∃ fd, Leaked lsockfds s.process fd) ∨
            ¬ callocFailsFor event = none) := by
    intro s event next h hnext
    obtain ⟨hsafe, hleaked⟩ := h.step hnext
    refine ⟨hsafe, ?_⟩
    simp only [hleaked, exists_or, ← Option.isSome_iff_exists,
      Option.isSome_iff_ne_none, ne_eq]
  have hdefect := defect_iff_not_eachStep hstep (start_safe lsockfds) hrun
  rw [hsafe.resourceSafe_iff, hdefect]
  simp [hstart]

theorem short_send_run_resources_iff :
    ResourceSafe [3] ((runEvents (step [3]) (start [3]) shortSendRun).get
        short_send_run_enabled) ↔
      EachStep (step [3]) (fun _ event => callocFailsFor event = none)
        (start [3]) shortSendRun :=
  queue_resources_iff [3] shortSendRun _
    (Option.some_get short_send_run_enabled).symm

/-- The `calloc` for descriptor 5 fails. -/
def failedCallocRun : List Event :=
  [.kqChange false, .kevent [⟨3, EVFILT_READ, 0⟩], .next,
    .accept 5 ⟨true, false, true⟩]

theorem failed_calloc_run_enabled :
    (runEvents (step [3]) (start [3]) failedCallocRun).isSome := by
  decide

theorem failed_calloc_leaks :
    ¬ ResourceSafe [3] ((runEvents (step [3]) (start [3]) failedCallocRun).get
      failed_calloc_run_enabled) := by
  intro hsafe
  have hregistered := (hsafe.registered 5 (by decide)).mp (by decide)
  exact absurd (hsafe.has_buffer 5 (by decide) hregistered) (by decide)

end CsPrimer.ShoutServer.Kqueue
