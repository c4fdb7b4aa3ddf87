import Mathlib

/-!
Threads that fork and join over a shared memory, with one read or write at a
time. Where the threads of every fork keep to disjoint parts of the memory,
all interleavings end, after the same number of steps and in the memory of the
sequential execution.
-/

namespace CsPrimer.Foundation

/-- A thread: reads, writes, and forks of a child that is joined before
`next`. -/
inductive Prog (Addr Val : Type) where
  | done
  | read (addr : Addr) (next : Val → Prog Addr Val)
  | write (addr : Addr) (value : Val) (next : Prog Addr Val)
  | fork (child parent next : Prog Addr Val)

namespace Prog

variable {Addr Val : Type}

def andThen : Prog Addr Val → Prog Addr Val → Prog Addr Val
  | .done, second => second
  | .read addr next, second => .read addr (fun value => (next value).andThen second)
  | .write addr value next, second => .write addr value (next.andThen second)
  | .fork child parent next, second => .fork child parent (next.andThen second)

variable [DecidableEq Addr]

/-- Sequential execution: the child of a fork runs first. -/
def eval : Prog Addr Val → (Addr → Val) → Addr → Val
  | .done, mem => mem
  | .read addr next, mem => (next (mem addr)).eval mem
  | .write addr value next, mem => next.eval (Function.update mem addr value)
  | .fork child parent next, mem => next.eval (parent.eval (child.eval mem))

def cost : Prog Addr Val → (Addr → Val) → Nat
  | .done, _ => 0
  | .read addr next, mem => (next (mem addr)).cost mem + 1
  | .write addr value next, mem =>
      next.cost (Function.update mem addr value) + 1
  | .fork child parent next, mem =>
      child.cost mem + parent.cost mem +
        next.cost (parent.eval (child.eval mem)) + 1

inductive Step : Prog Addr Val → (Addr → Val) → Prog Addr Val →
    (Addr → Val) → Prop where
  | read {addr : Addr} {next : Val → Prog Addr Val} {mem : Addr → Val} :
      Step (.read addr next) mem (next (mem addr)) mem
  | write {addr : Addr} {value : Val} {next : Prog Addr Val}
      {mem : Addr → Val} :
      Step (.write addr value next) mem next (Function.update mem addr value)
  | child {child child' parent next : Prog Addr Val} {mem mem' : Addr → Val}
      (step : Step child mem child' mem') :
      Step (.fork child parent next) mem (.fork child' parent next) mem'
  | parent {child parent parent' next : Prog Addr Val} {mem mem' : Addr → Val}
      (step : Step parent mem parent' mem') :
      Step (.fork child parent next) mem (.fork child parent' next) mem'
  | join {next : Prog Addr Val} {mem : Addr → Val} :
      Step (.fork .done .done next) mem next mem

inductive Run : Nat → Prog Addr Val → (Addr → Val) → Prog Addr Val →
    (Addr → Val) → Prop where
  | refl {p : Prog Addr Val} {mem : Addr → Val} : Run 0 p mem p mem
  | step {count : Nat} {p q r : Prog Addr Val} {mem mem' mem'' : Addr → Val}
      (step : Step p mem q mem') (rest : Run count q mem' r mem'') :
      Run (count + 1) p mem r mem''

/-- All accesses are in `area`, and the threads of a fork have disjoint areas
of their own. -/
def Within : Set Addr → Prog Addr Val → Prop
  | _, .done => True
  | area, .read addr next => addr ∈ area ∧ ∀ value, Within area (next value)
  | area, .write addr _ next => addr ∈ area ∧ Within area next
  | area, .fork child parent next =>
      (∃ childArea parentArea, Disjoint childArea parentArea ∧
        childArea ⊆ area ∧ parentArea ⊆ area ∧
        Within childArea child ∧ Within parentArea parent) ∧
      Within area next

/-- Every run from here is bounded, and one that cannot go on has finished
with memory `final`. -/
structure Terminates (p : Prog Addr Val) (mem final : Addr → Val) : Prop where
  bounded : ∃ bound, ∀ count q mem', Run count p mem q mem' → count ≤ bound
  finished : ∀ count q mem', Run count p mem q mem' →
    (∀ r mem'', ¬ Step q mem' r mem'') → q = .done ∧ mem' = final

theorem eval_andThen (p q : Prog Addr Val) (mem : Addr → Val) :
    (p.andThen q).eval mem = q.eval (p.eval mem) := by
  induction p generalizing mem with
  | done => rfl
  | read addr next ih => exact ih (mem addr) mem
  | write addr value next ih => exact ih (Function.update mem addr value)
  | fork child parent next _ _ ih => exact ih (parent.eval (child.eval mem))

omit [DecidableEq Addr] in
theorem Within.mono {small large : Set Addr} {p : Prog Addr Val}
    (h : Within small p) (hsub : small ⊆ large) : Within large p := by
  induction p with
  | done => exact h
  | read addr next ih => exact ⟨hsub h.1, fun value => ih value (h.2 value)⟩
  | write addr value next ih => exact ⟨hsub h.1, ih h.2⟩
  | fork child parent next _ _ ih =>
      obtain ⟨⟨childArea, parentArea, hdisjoint, hchild, hparent, hareas⟩, hnext⟩ := h
      exact ⟨⟨childArea, parentArea, hdisjoint, hchild.trans hsub,
        hparent.trans hsub, hareas⟩, ih hnext⟩

omit [DecidableEq Addr] in
theorem Within.andThen {area : Set Addr} {p q : Prog Addr Val}
    (hp : Within area p) (hq : Within area q) : Within area (p.andThen q) := by
  induction p with
  | done => exact hq
  | read addr next ih => exact ⟨hp.1, fun value => ih value (hp.2 value)⟩
  | write addr value next ih => exact ⟨hp.1, ih hp.2⟩
  | fork child parent next _ _ ih => exact ⟨hp.1, ih hp.2⟩

/-- Nothing outside the area changes. -/
theorem Within.eval_outside {area : Set Addr} {p : Prog Addr Val}
    (h : Within area p) {addr : Addr} (haddr : addr ∉ area)
    (mem : Addr → Val) : p.eval mem addr = mem addr := by
  induction p generalizing area mem with
  | done => rfl
  | read _ next ih => exact ih _ (h.2 _) haddr mem
  | write target value next ih =>
      have hne : addr ≠ target := fun heq => haddr (heq ▸ h.1)
      simp only [eval]
      rw [ih h.2 haddr, Function.update_of_ne hne]
  | fork child parent next ihchild ihparent ih =>
      obtain ⟨⟨childArea, parentArea, _, hchild, hparent, hwithin, hwithin'⟩,
        hnext⟩ := h
      simp only [eval]
      rw [ih hnext haddr, ihparent hwithin' (fun hin => haddr (hparent hin)),
        ihchild hwithin (fun hin => haddr (hchild hin))]

/-- What happens in the area depends on the area only. -/
theorem Within.eval_congr {area : Set Addr} {p : Prog Addr Val}
    (h : Within area p) {mem mem' : Addr → Val}
    (hmem : Set.EqOn mem mem' area) :
    Set.EqOn (p.eval mem) (p.eval mem') area := by
  induction p generalizing area mem mem' with
  | done => exact hmem
  | read addr next ih =>
      simp only [eval]
      rw [← hmem h.1]
      exact ih _ (h.2 _) hmem
  | write target value next ih =>
      apply ih h.2
      intro addr haddr
      rcases eq_or_ne addr target with rfl | hne
      · rw [Function.update_self, Function.update_self]
      · rw [Function.update_of_ne hne, Function.update_of_ne hne]
        exact hmem haddr
  | fork child parent next ihchild ihparent ih =>
      obtain ⟨⟨childArea, parentArea, _, hchild, hparent, hwithin, hwithin'⟩,
        hnext⟩ := h
      exact ih hnext
        (ihparent (hwithin'.mono hparent) (ihchild (hwithin.mono hchild) hmem))

theorem Within.cost_congr {area : Set Addr} {p : Prog Addr Val}
    (h : Within area p) {mem mem' : Addr → Val}
    (hmem : Set.EqOn mem mem' area) : p.cost mem = p.cost mem' := by
  induction p generalizing mem mem' with
  | done => rfl
  | read addr next ih =>
      simp only [cost]
      rw [← hmem h.1, ih _ (h.2 _) hmem]
  | write target value next ih =>
      simp only [cost]
      rw [ih h.2]
      intro addr haddr
      rcases eq_or_ne addr target with rfl | hne
      · rw [Function.update_self, Function.update_self]
      · rw [Function.update_of_ne hne, Function.update_of_ne hne]
        exact hmem haddr
  | fork child parent next ihchild ihparent ih =>
      obtain ⟨⟨childArea, parentArea, _, hchild, hparent, hwithin, hwithin'⟩,
        hnext⟩ := h
      have hwhole := hwithin.mono hchild
      have hwhole' := hwithin'.mono hparent
      simp only [cost]
      rw [ihchild hwhole hmem, ihparent hwhole' hmem,
        ih hnext (hwhole'.eval_congr (hwhole.eval_congr hmem))]

/-- Threads with disjoint areas commute. -/
theorem Within.eval_comm {area area' : Set Addr} {p q : Prog Addr Val}
    (hp : Within area p) (hq : Within area' q) (hdisjoint : Disjoint area area')
    (mem : Addr → Val) : q.eval (p.eval mem) = p.eval (q.eval mem) := by
  have hleft : Set.EqOn (q.eval mem) mem area := fun addr haddr =>
    hq.eval_outside (hdisjoint.notMem_of_mem_left haddr) mem
  have hright : Set.EqOn (p.eval mem) mem area' := fun addr haddr =>
    hp.eval_outside (hdisjoint.notMem_of_mem_right haddr) mem
  funext addr
  by_cases haddr' : addr ∈ area'
  · have haddr := hdisjoint.notMem_of_mem_right haddr'
    rw [hq.eval_congr hright haddr', hp.eval_outside haddr]
  · rw [hq.eval_outside haddr']
    by_cases haddr : addr ∈ area
    · exact (hp.eval_congr hleft haddr).symm
    · rw [hp.eval_outside haddr, hp.eval_outside haddr,
        hq.eval_outside haddr']

/-- A step changes the area only. -/
theorem Step.outside {area : Set Addr} {p q : Prog Addr Val}
    {mem mem' : Addr → Val} (hstep : Step p mem q mem') (h : Within area p)
    {addr : Addr} (haddr : addr ∉ area) : mem' addr = mem addr := by
  induction hstep generalizing area with
  | read => rfl
  | @write target value next mem =>
      have hne : addr ≠ target := fun heq => haddr (heq ▸ h.1)
      exact Function.update_of_ne hne _ _
  | child _ ih =>
      obtain ⟨⟨childArea, parentArea, _, hchild, _, hwithin, _⟩, _⟩ := h
      exact ih hwithin (fun hin => haddr (hchild hin))
  | parent _ ih =>
      obtain ⟨⟨childArea, parentArea, _, _, hparent, _, hwithin⟩, _⟩ := h
      exact ih hwithin (fun hin => haddr (hparent hin))
  | join => rfl

/-- A step leaves the sequential result as it is and costs one. -/
theorem Step.keeps {area : Set Addr} {p q : Prog Addr Val}
    {mem mem' : Addr → Val} (hstep : Step p mem q mem') (h : Within area p) :
    Within area q ∧ q.eval mem' = p.eval mem ∧
      q.cost mem' + 1 = p.cost mem := by
  induction hstep generalizing area with
  | read => exact ⟨h.2 _, rfl, rfl⟩
  | write => exact ⟨h.2, rfl, rfl⟩
  | join =>
      refine ⟨h.2, rfl, ?_⟩
      simp [cost, eval]
  | @child child child' parent next mem mem' hstep ih =>
      obtain ⟨⟨childArea, parentArea, hdisjoint, hchild, hparent, hwithin,
        hwithin'⟩, hnext⟩ := h
      obtain ⟨hkept, heval, hcost⟩ := ih hwithin
      have hsame : Set.EqOn mem' mem parentArea := fun addr haddr =>
        hstep.outside hwithin (hdisjoint.notMem_of_mem_right haddr)
      refine ⟨⟨⟨childArea, parentArea, hdisjoint, hchild, hparent, hkept,
        hwithin'⟩, hnext⟩, ?_, ?_⟩
      · simp only [eval]
        rw [heval]
      · simp only [cost]
        rw [heval, hwithin'.cost_congr hsame]
        omega
  | @parent child parent parent' next mem mem' hstep ih =>
      obtain ⟨⟨childArea, parentArea, hdisjoint, hchild, hparent, hwithin,
        hwithin'⟩, hnext⟩ := h
      obtain ⟨hkept, heval, hcost⟩ := ih hwithin'
      have hsame : Set.EqOn mem' mem childArea := fun addr haddr =>
        hstep.outside hwithin' (hdisjoint.notMem_of_mem_left haddr)
      refine ⟨⟨⟨childArea, parentArea, hdisjoint, hchild, hparent, hwithin,
        hkept⟩, hnext⟩, ?_, ?_⟩
      · simp only [eval]
        rw [hwithin.eval_comm hkept hdisjoint, heval,
          ← hwithin.eval_comm hwithin' hdisjoint]
      · simp only [cost]
        rw [hwithin.eval_comm hkept hdisjoint, heval,
          ← hwithin.eval_comm hwithin' hdisjoint, hwithin.cost_congr hsame]
        omega

/-- A thread that is not done can go on. -/
theorem exists_step {p : Prog Addr Val} (hp : p ≠ .done) (mem : Addr → Val) :
    ∃ q mem', Step p mem q mem' := by
  induction p with
  | done => exact absurd rfl hp
  | read addr next => exact ⟨_, _, .read⟩
  | write addr value next => exact ⟨_, _, .write⟩
  | fork child parent next ihchild ihparent =>
      rcases eq_or_ne child .done with hchild | hchild
      · rcases eq_or_ne parent .done with hparent | hparent
        · subst hchild hparent
          exact ⟨_, _, .join⟩
        · obtain ⟨q, mem', hstep⟩ := ihparent hparent
          exact ⟨_, _, .parent hstep⟩
      · obtain ⟨q, mem', hstep⟩ := ihchild hchild
        exact ⟨_, _, .child hstep⟩

/-- `Step.keeps` over a run. -/
theorem Run.keeps {area : Set Addr} {count : Nat} {p q : Prog Addr Val}
    {mem mem' : Addr → Val} (hrun : Run count p mem q mem')
    (h : Within area p) :
    q.eval mem' = p.eval mem ∧ q.cost mem' + count = p.cost mem := by
  induction hrun with
  | refl => exact ⟨rfl, rfl⟩
  | step hstep _ ih =>
      obtain ⟨hkept, heval, hcost⟩ := hstep.keeps h
      obtain ⟨heval', hcost'⟩ := ih hkept
      exact ⟨heval'.trans heval, by omega⟩

/-- All interleavings end as the sequential execution does. -/
theorem Within.terminates {area : Set Addr} {p : Prog Addr Val}
    (h : Within area p) (mem : Addr → Val) :
    Terminates p mem (p.eval mem) where
  bounded := by
    refine ⟨p.cost mem, ?_⟩
    intro count q mem' hrun
    have := (hrun.keeps h).2
    omega
  finished := by
    intro count q mem' hrun hstuck
    have hdone : q = .done := by
      by_contra hq
      obtain ⟨r, mem'', hstep⟩ := exists_step hq mem'
      exact hstuck r mem'' hstep
    refine ⟨hdone, ?_⟩
    rw [← (hrun.keeps h).1, hdone]
    rfl

end Prog

end CsPrimer.Foundation
