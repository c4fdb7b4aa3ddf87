import CsPrimer.Foundation.CircularLog
import CsPrimer.Foundation.Traces

/-!
Objects whose operations take effect at once. A sequential object says what an
operation does, or that it has to wait; the atomic object lets any number of
threads call its operations, and each operation takes effect at one moment
between its call and its return. A thread may crash, before or after that
moment. An implementation that shows only calls, returns and crashes that the
atomic object can show is linearizable.
-/

namespace CsPrimer.Foundation

inductive Phase (Op Result : Type*) where
  | idle
  | called (op : Op)
  | done (result : Result)
  | crashed

/-- What is seen of an object from outside. -/
inductive Interaction (Thread Op Result : Type*) where
  | call (thread : Thread) (op : Op)
  | ret (thread : Thread) (result : Result)
  | crash (thread : Thread)
  deriving DecidableEq, Repr

structure Atomic (Thread Object Op Result : Type*) where
  object : Object
  phase : Thread → Phase Op Result

inductive AtomicEvent (Thread Op : Type*) where
  | call (thread : Thread) (op : Op)
  | act (thread : Thread)
  | ret (thread : Thread)
  | crash (thread : Thread)

variable {Thread Object Op Result Point : Type*}

namespace Atomic

def start (object : Object) : Atomic Thread Object Op Result := ⟨object, fun _ => .idle⟩

/-- The object, with the phases of threads at control points. -/
def ofPoints (phaseOf : Point → Phase Op Result) (pc : Thread → Point) (object : Object) :
    Atomic Thread Object Op Result :=
  ⟨object, fun thread => phaseOf (pc thread)⟩

def shows (state : Atomic Thread Object Op Result) :
    AtomicEvent Thread Op → Option (Interaction Thread Op Result)
  | .call thread op => some (.call thread op)
  | .act _ => none
  | .ret thread =>
      match state.phase thread with
      | .done result => some (.ret thread result)
      | _ => none
  | .crash thread => some (.crash thread)

variable [DecidableEq Thread] {apply : Object → Op → Option (Object × Result)}

def goto (state : Atomic Thread Object Op Result) (thread : Thread)
    (phase : Phase Op Result) (object : Object) : Atomic Thread Object Op Result :=
  ⟨object, Function.update state.phase thread phase⟩

/-- The steps of the atomic object; `act` is the moment of the effect. -/
def step (apply : Object → Op → Option (Object × Result))
    (state : Atomic Thread Object Op Result) :
    AtomicEvent Thread Op → Option (Atomic Thread Object Op Result)
  | .call thread op =>
      match state.phase thread with
      | .idle => some (state.goto thread (.called op) state.object)
      | _ => none
  | .act thread =>
      match state.phase thread with
      | .called op =>
          match apply state.object op with
          | some (object, result) => some (state.goto thread (.done result) object)
          | none => none
      | _ => none
  | .ret thread =>
      match state.phase thread with
      | .done _ => some (state.goto thread .idle state.object)
      | _ => none
  | .crash thread =>
      match state.phase thread with
      | .crashed => none
      | _ => some (state.goto thread .crashed state.object)

variable {phaseOf : Point → Phase Op Result} {pc : Thread → Point} {object object' : Object}
  {thread : Thread} {old point : Point} {op : Op} {result : Result}

theorem ofPoints_update (object : Object) :
    ofPoints phaseOf (Function.update pc thread point) object' =
      (ofPoints phaseOf pc object).goto thread (phaseOf point) object' := by
  simp only [ofPoints, goto, Atomic.mk.injEq, true_and]
  funext other
  rcases eq_or_ne other thread with rfl | hne
  · rw [Function.update_self, Function.update_self]
  · rw [Function.update_of_ne hne, Function.update_of_ne hne]

/-- A move within a phase is none of the atomic object. -/
theorem follows_inside (hpc : pc thread = old) (hphase : phaseOf point = phaseOf old) :
    Follows (step apply) shows
      (· = ofPoints phaseOf (Function.update pc thread point) object) none
      (ofPoints phaseOf pc object) := by
  apply Follows.none
  simp only [ofPoints, Atomic.mk.injEq, true_and]
  funext other
  rcases eq_or_ne other thread with rfl | hne
  · rw [Function.update_self, hphase, hpc]
  · rw [Function.update_of_ne hne]

theorem follows_call (hpc : pc thread = old) (hold : phaseOf old = .idle)
    (hphase : phaseOf point = .called op) :
    Follows (step apply) shows
      (· = ofPoints phaseOf (Function.update pc thread point) object)
      (some (.call thread op)) (ofPoints phaseOf pc object) := by
  have hidle : (ofPoints phaseOf pc object).phase thread = .idle := by
    rw [← hold, ← hpc]
    rfl
  refine .single (.call thread op) ?_ rfl rfl
  rw [ofPoints_update object, hphase]
  simp only [step, hidle]
  rfl

theorem follows_act (hpc : pc thread = old) (hold : phaseOf old = .called op)
    (hphase : phaseOf point = .done result)
    (happly : apply object op = some (object', result)) :
    Follows (step apply) shows
      (· = ofPoints phaseOf (Function.update pc thread point) object') none
      (ofPoints phaseOf pc object) := by
  have hcalled : (ofPoints phaseOf pc object).phase thread = .called op := by
    rw [← hold, ← hpc]
    rfl
  have hobject : (ofPoints phaseOf pc object).object = object := rfl
  refine .single (.act thread) ?_ rfl rfl
  rw [ofPoints_update object, hphase]
  simp only [step, hcalled, hobject, happly]

theorem follows_ret (hpc : pc thread = old) (hold : phaseOf old = .done result)
    (hphase : phaseOf point = .idle) :
    Follows (step apply) shows
      (· = ofPoints phaseOf (Function.update pc thread point) object)
      (some (.ret thread result)) (ofPoints phaseOf pc object) := by
  have hdone : (ofPoints phaseOf pc object).phase thread = .done result := by
    rw [← hold, ← hpc]
    rfl
  refine .single (.ret thread) ?_ ?_ rfl
  · rw [ofPoints_update object, hphase]
    simp only [step, hdone]
    rfl
  · simp only [shows, hdone]

theorem follows_crash (hpc : pc thread = old) (hold : phaseOf old ≠ .crashed)
    (hphase : phaseOf point = .crashed) :
    Follows (step apply) shows
      (· = ofPoints phaseOf (Function.update pc thread point) object)
      (some (.crash thread)) (ofPoints phaseOf pc object) := by
  have halive : (ofPoints phaseOf pc object).phase thread ≠ .crashed := by
    change phaseOf (pc thread) ≠ .crashed
    rw [hpc]
    exact hold
  refine .single (.crash thread) ?_ rfl rfl
  rw [ofPoints_update object, hphase]
  simp only [step]
  rfl

end Atomic

inductive QueueOp (V : Type*) where
  | put (value : V)
  | take
  deriving DecidableEq, Repr

/-- A put waits while the queue is full, a take while it is empty. -/
def boundedFifo {V : Type*} (cap : Nat) :
    List V → QueueOp V → Option (List V × Option V)
  | values, .put value =>
      if values.length < cap then some (values ++ [value], none) else none
  | [], .take => none
  | value :: values, .take => some (values, some value)

section Queued

variable {V : Type*} {cap : Nat} {slots : Nat → V} {history : History V}

/-- The values put and not yet taken, in order. -/
def History.queued (history : History V) : List V :=
  history.puts.drop history.takes.length

theorem Consistent.put_queued (h : Consistent cap slots history)
    (hroom : history.puts.length < history.takes.length + cap) (slot : Nat) (value : V) :
    boundedFifo cap history.queued (.put value) =
      some ((history.put slot value).queued, none) := by
  have hqueued : (history.put slot value).queued = history.queued ++ [value] :=
    List.drop_append_of_le_length h.taken_le
  have hlength : history.queued.length < cap := by
    rw [History.queued, List.length_drop]
    have htaken := h.taken_le
    omega
  rw [hqueued, boundedFifo, if_pos hlength]

theorem Consistent.take_queued (h : Consistent cap slots history)
    (hpending : history.takes.length < history.puts.length) {slot : Nat} {value : V}
    (hvalue : slots (history.takes.length % cap) = value) :
    boundedFifo cap history.queued .take =
      some ((history.take slot value).queued, some value) := by
  have hfirst : history.queued = value :: (history.take slot value).queued := by
    rw [← hvalue, h.next_value hpending, History.queued, List.drop_eq_getElem_cons hpending]
    simp [History.queued, History.take]
  rw [hfirst, boundedFifo]

end Queued

end CsPrimer.Foundation
