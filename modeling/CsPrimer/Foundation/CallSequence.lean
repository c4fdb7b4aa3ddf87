import Mathlib.Tactic

/-!
Components that answer a sequence of calls. A call is answered in the state
the previous one left and may fault; after a fault nothing more is answered.
The run lemmas below lift what one call preserves to every finite sequence of
calls, and a step-by-step match with an abstract component to equal answers.
-/

namespace CsPrimer.Foundation

variable {State Abstract Call Answer Fault : Type*}

@[simp] theorem ok_bind {ε α β : Type} (a : α) (f : α → Except ε β) :
    (Except.ok a >>= f) = f a := rfl

@[simp] theorem error_bind {ε α β : Type} (e : ε) (f : α → Except ε β) :
    (Except.error e >>= f) = .error e := rfl

@[simp] theorem pure_eq_ok {ε α : Type} (a : α) : (pure a : Except ε α) = .ok a := rfl

/-- The answers to a finite sequence of calls, and the state it ends in. -/
def serve (answer : State → Call → Except Fault (State × Answer)) :
    State → List Call → Except Fault (State × List Answer)
  | state, [] => .ok (state, [])
  | state, call :: calls =>
      match answer state call with
      | .error fault => .error fault
      | .ok (next, out) =>
          match serve answer next calls with
          | .error fault => .error fault
          | .ok (final, outs) => .ok (final, out :: outs)

/-- A state left by some finite sequence of calls, all of them answered. -/
def Served (answer : State → Call → Except Fault (State × Answer))
    (start state : State) : Prop :=
  ∃ calls outs, serve answer start calls = .ok (state, outs)

/-- Every call of the sequence is made in a state where `allowed` holds. -/
def Along (allowed : State → Call → Prop)
    (answer : State → Call → Except Fault (State × Answer)) :
    State → List Call → Prop
  | _, [] => True
  | state, call :: calls =>
      allowed state call ∧
        ∀ next out, answer state call = .ok (next, out) →
          Along allowed answer next calls

instance decidableAlong {allowed : State → Call → Prop}
    {answer : State → Call → Except Fault (State × Answer)}
    [∀ state call, Decidable (allowed state call)] :
    ∀ state calls, Decidable (Along allowed answer state calls)
  | _, [] => isTrue trivial
  | state, call :: calls =>
      match h : answer state call with
      | .error _ => decidable_of_iff (allowed state call)
          ⟨fun ha => ⟨ha, by simp [h]⟩, fun ha => ha.1⟩
      | .ok (next, out) =>
          have : Decidable (Along allowed answer next calls) :=
            decidableAlong next calls
          decidable_of_iff
            (allowed state call ∧ Along allowed answer next calls)
            ⟨fun ha => ⟨ha.1, by simpa [h] using ha.2⟩,
              fun ha => ⟨ha.1, ha.2 next out h⟩⟩

theorem serve_cons {answer : State → Call → Except Fault (State × Answer)}
    {state final : State} {call : Call} {calls : List Call}
    {outs : List Answer}
    (h : serve answer state (call :: calls) = .ok (final, outs)) :
    ∃ next out rest, answer state call = .ok (next, out) ∧
      serve answer next calls = .ok (final, rest) ∧ outs = out :: rest := by
  simp only [serve] at h
  split at h
  · cases h
  · rename_i next out hcall
    split at h
    · cases h
    · rename_i last rest hserve
      cases h
      exact ⟨next, out, rest, hcall, hserve, rfl⟩

/-- What every allowed call preserves, every run of allowed calls preserves. -/
theorem serve_invariant
    {answer : State → Call → Except Fault (State × Answer)}
    (allowed : State → Call → Prop) {invariant : State → Prop}
    (hstep : ∀ state call next out, invariant state → allowed state call →
      answer state call = .ok (next, out) → invariant next)
    {start final : State} {calls : List Call} {outs : List Answer}
    (hstart : invariant start) (hallowed : Along allowed answer start calls)
    (hserve : serve answer start calls = .ok (final, outs)) :
    invariant final := by
  induction calls generalizing start outs with
  | nil =>
      simp only [serve, Except.ok.injEq, Prod.mk.injEq] at hserve
      exact hserve.1 ▸ hstart
  | cons call calls ih =>
      obtain ⟨next, out, rest, hcall, hrest, -⟩ := serve_cons hserve
      exact ih (hstep start call next out hstart hallowed.1 hcall)
        (hallowed.2 next out hcall) hrest

/-- The unconditional case of `serve_invariant`, for states that are reached. -/
theorem Served.invariant
    {answer : State → Call → Except Fault (State × Answer)}
    {invariant : State → Prop}
    (hstep : ∀ state call next out, invariant state →
      answer state call = .ok (next, out) → invariant next)
    {start state : State} (hstart : invariant start)
    (hserved : Served answer start state) : invariant state := by
  obtain ⟨calls, outs, hserve⟩ := hserved
  refine serve_invariant (fun _ _ => True)
    (fun s c n o hs _ h => hstep s c n o hs h) hstart ?_ hserve
  clear hserve
  induction calls generalizing start with
  | nil => trivial
  | cons call calls ih =>
      exact ⟨trivial, fun next out hcall => ih (hstep _ _ _ _ hstart hcall)⟩

/-- A component that answers every allowed call in a state with the invariant
answers every run of allowed calls. -/
theorem serve_returns
    {answer : State → Call → Except Fault (State × Answer)}
    (allowed : State → Call → Prop) {invariant : State → Prop}
    (hstep : ∀ state call, invariant state → allowed state call →
      ∃ next out, answer state call = .ok (next, out) ∧ invariant next)
    {start : State} {calls : List Call} (hstart : invariant start)
    (hallowed : Along allowed answer start calls) :
    ∃ final outs, serve answer start calls = .ok (final, outs) := by
  induction calls generalizing start with
  | nil => exact ⟨start, [], rfl⟩
  | cons call calls ih =>
      obtain ⟨next, out, hcall, hnext⟩ := hstep start call hstart hallowed.1
      obtain ⟨final, outs, hserve⟩ := ih hnext (hallowed.2 next out hcall)
      exact ⟨final, out :: outs, by simp only [serve, hcall, hserve]⟩

/-- The answers a total abstract component gives to the same calls. -/
def specify (spec : Abstract → Call → Abstract × Answer) :
    Abstract → List Call → Abstract × List Answer
  | abstract, [] => (abstract, [])
  | abstract, call :: calls =>
      let (next, out) := spec abstract call
      let (final, outs) := specify spec next calls
      (final, out :: outs)

/-- A component whose allowed calls answer as an abstract one does, and keep
the two related, answers every run of allowed calls as the abstract one. -/
theorem serve_refines
    {answer : State → Call → Except Fault (State × Answer)}
    {spec : Abstract → Call → Abstract × Answer}
    {allowed : State → Call → Prop} {related : State → Abstract → Prop}
    (hstep : ∀ state abstract call next out, related state abstract →
      allowed state call → answer state call = .ok (next, out) →
      out = (spec abstract call).2 ∧ related next (spec abstract call).1)
    {start final : State} {abstract : Abstract} {calls : List Call}
    {outs : List Answer} (hstart : related start abstract)
    (hallowed : Along allowed answer start calls)
    (hserve : serve answer start calls = .ok (final, outs)) :
    outs = (specify spec abstract calls).2 ∧
      related final (specify spec abstract calls).1 := by
  induction calls generalizing start abstract outs with
  | nil =>
      simp only [serve, Except.ok.injEq, Prod.mk.injEq] at hserve
      obtain ⟨rfl, rfl⟩ := hserve
      exact ⟨rfl, hstart⟩
  | cons call calls ih =>
      obtain ⟨next, out, rest, hcall, hrest, rfl⟩ := serve_cons hserve
      obtain ⟨hout, hnext⟩ := hstep _ _ _ _ _ hstart hallowed.1 hcall
      obtain ⟨houts, hfinal⟩ := ih hnext (hallowed.2 next out hcall) hrest
      exact ⟨by simp [specify, ← hout, ← houts], hfinal⟩

/-- The costs of the calls that are answered, added up. -/
def serveTotal (answer : State → Call → Except Fault (State × Answer))
    (cost : State → Call → Nat) : State → List Call → Nat
  | _, [] => 0
  | state, call :: calls =>
      match answer state call with
      | .error _ => 0
      | .ok (next, _) => cost state call + serveTotal answer cost next calls

/-- The method of potentials. Where no call costs more than its charge and
what it takes off the potential, no run costs more than its charges and the
potential at the start. -/
theorem serveTotal_le_charges
    {answer : State → Call → Except Fault (State × Answer)} {cost : State → Call → Nat}
    (charge : Call → Nat) (potential : State → Nat) {allowed : State → Call → Prop}
    {invariant : State → Prop}
    (hstep : ∀ state call next out, invariant state → allowed state call →
      answer state call = .ok (next, out) →
      invariant next ∧ cost state call + potential next ≤ potential state + charge call)
    {start : State} {calls : List Call} (hstart : invariant start)
    (hallowed : Along allowed answer start calls) :
    serveTotal answer cost start calls ≤ potential start + (calls.map charge).sum := by
  induction calls generalizing start with
  | nil => exact Nat.zero_le _
  | cons call calls ih =>
      rw [serveTotal, List.map_cons, List.sum_cons]
      split
      · exact Nat.zero_le _
      · rename_i next out hcall
        obtain ⟨hnext, hcost⟩ := hstep start call next out hstart hallowed.1 hcall
        have hrest := ih hnext (hallowed.2 next out hcall)
        omega

/-- Two outcomes agree: the same answer with related states, or a fault under
its other name. -/
def Agrees {State' Fault' : Type*} (name : Fault → Fault') (related : State → State' → Prop) :
    Except Fault (State × Answer) → Except Fault' (State' × Answer) → Prop
  | .error fault, outcome => outcome = .error (name fault)
  | .ok (next, out), outcome => ∃ next', outcome = .ok (next', out) ∧ related next next'

/-- A component whose calls agree with those of another one, as long as the
states are related, does so for every sequence of calls. -/
theorem serve_agrees {State' Fault' : Type*}
    {answer : State → Call → Except Fault (State × Answer)}
    {answer' : State' → Call → Except Fault' (State' × Answer)} {name : Fault → Fault'}
    {related : State → State' → Prop}
    (hstep : ∀ state state' call, related state state' →
      Agrees name related (answer state call) (answer' state' call))
    {start : State} {start' : State'} (hstart : related start start') (calls : List Call) :
    Agrees name (fun state state' => related state state') (serve answer start calls)
      (serve answer' start' calls) := by
  induction calls generalizing start start' with
  | nil => exact ⟨start', rfl, hstart⟩
  | cons call calls ih =>
      have hcall := hstep start start' call hstart
      simp only [serve]
      cases hanswer : answer start call with
      | error fault =>
          rw [hanswer] at hcall
          simp only [show answer' start' call = _ from hcall]
          rfl
      | ok answered =>
          obtain ⟨next, out⟩ := answered
          rw [hanswer] at hcall
          obtain ⟨next', hanswer', hnext⟩ := hcall
          have hrest := ih hnext
          simp only [hanswer']
          cases hserve : serve answer next calls with
          | error fault =>
              rw [hserve] at hrest
              simp only [show serve answer' next' calls = _ from hrest]
              rfl
          | ok served =>
              obtain ⟨final, outs⟩ := served
              rw [hserve] at hrest
              obtain ⟨final', hserve', hfinal⟩ := hrest
              simp only [hserve']
              exact ⟨final', rfl, hfinal⟩

end CsPrimer.Foundation
