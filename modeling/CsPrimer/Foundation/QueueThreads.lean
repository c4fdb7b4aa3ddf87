import CsPrimer.Foundation.AtomicObject
import CsPrimer.Foundation.EventRun
import CsPrimer.Foundation.Tokens

/-!
The threads of a bounded blocking queue. Every implementation has control points
of its own; the stage of a point says which of the two kinds of tokens and which
of the two mutexes a thread has there, and whether its operation has taken
effect.
-/

namespace CsPrimer.Foundation

/-- An operation waits for its token, enters and leaves the section of its
mutex, and posts a token of the other kind. It takes effect inside. -/
inductive Stage (V : Type*) where
  | idle
  | waiting (op : QueueOp V)
  | entering (op : QueueOp V)
  | inside (op : QueueOp V)
  | leaving (result : Option V)
  | posting (result : Option V)
  | dead

namespace Stage

variable {V : Type*}

def phase : Stage V → Phase (QueueOp V) (Option V)
  | .idle => .idle
  | .waiting op | .entering op | .inside op => .called op
  | .leaving result | .posting result => .done result
  | .dead => .crashed

/-- A put has a space until it takes effect, a take from there on. -/
def spaceHeld : Stage V → Nat
  | .entering (.put _) | .inside (.put _) | .leaving (some _) | .posting (some _) => 1
  | _ => 0

/-- A take has an element until it takes effect, a put from there on. -/
def elementHeld : Stage V → Nat
  | .entering .take | .inside .take | .leaving none | .posting none => 1
  | _ => 0

def inTail : Stage V → Bool
  | .inside (.put _) | .leaving none => true
  | _ => false

def inHead : Stage V → Bool
  | .inside .take | .leaving (some _) => true
  | _ => false

def holdsToken : Stage V → Bool
  | .idle | .waiting _ | .dead => false
  | _ => true

end Stage

class QueuePoint (Point : Type*) (V : outParam (Type*)) where
  stage : Point → Stage V

section Points

variable {Point V : Type*} [QueuePoint Point V]

def spaceHeld (point : Point) : Nat := (QueuePoint.stage point).spaceHeld

def elementHeld (point : Point) : Nat := (QueuePoint.stage point).elementHeld

def inTail (point : Point) : Bool := (QueuePoint.stage point).inTail

def inHead (point : Point) : Bool := (QueuePoint.stage point).inHead

/-- The thread is past the wait of its call and not yet past its post. -/
def holdsToken (point : Point) : Bool := (QueuePoint.stage point).holdsToken

def phase (point : Point) : Phase (QueueOp V) (Option V) := (QueuePoint.stage point).phase

end Points

structure QueueSystem (Queue Thread Point V : Type*) where
  queue : Queue
  pc : Thread → Point
  history : History V

namespace QueueSystem

variable {Queue Thread Point V : Type*}

def goto [DecidableEq Thread] (s : QueueSystem Queue Thread Point V) (thread : Thread)
    (point : Point) (queue : Queue) (history : History V) :
    QueueSystem Queue Thread Point V :=
  ⟨queue, Function.update s.pc thread point, history⟩

/-- The bounded queue that a state stands for. -/
def atomic [QueuePoint Point V] (s : QueueSystem Queue Thread Point V) :
    Atomic Thread (List V) (QueueOp V) (Option V) :=
  .ofPoints phase s.pc s.history.queued

abbrev Implements [DecidableEq Thread] [QueuePoint Point V] (cap : Nat)
    (s next : QueueSystem Queue Thread Point V)
    (shown : Option (Interaction Thread (QueueOp V) (Option V))) : Prop :=
  Follows (Atomic.step (boundedFifo cap)) Atomic.shows (· = next.atomic) shown s.atomic

section Runs

variable [DecidableEq Thread] {Event : Type*}
  {step : QueueSystem Queue Thread Point V → Event → Option (QueueSystem Queue Thread Point V)}
  {s : QueueSystem Queue Thread Point V} {thread : Thread} {old : Point} {queue : Queue}
  {history : History V}

omit [DecidableEq Thread] in
/-- A state is reached in which a thread is at `point`, with this queue. -/
def ReachesAt
    (step : QueueSystem Queue Thread Point V → Event → Option (QueueSystem Queue Thread Point V))
    (s : QueueSystem Queue Thread Point V) (thread : Thread) (point : Point) (queue : Queue)
    (history : History V) : Prop :=
  ∃ next, Reaches step s next ∧ next.pc thread = point ∧ next.queue = queue ∧
    next.history = history

/-- The thread goes on by one step. -/
theorem ReachesAt.next (h : ReachesAt step s thread old queue history) (event : Event)
    (point : Point) (queue' : Queue) (history' : History V)
    (hnext : ∀ t : QueueSystem Queue Thread Point V, t.pc thread = old → t.queue = queue →
      t.history = history → step t event = some (t.goto thread point queue' history')) :
    ReachesAt step s thread point queue' history' := by
  obtain ⟨t, ht, hpc, hqueue, hhistory⟩ := h
  exact ⟨_, ht.trans (.single (hnext t hpc hqueue hhistory)), Function.update_self .., rfl, rfl⟩

end Runs

end QueueSystem

end CsPrimer.Foundation
