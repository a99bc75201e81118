import Ucb.Lib.Refinement

/-!
Contract: components whose operations ask their environment for resources.

Owns:
- a component: its step, its environments and what its states hold;
- operations that a refusal does not show in, and operations that survive one with what
  the state held;
- that a sequence withstands its refusals exactly when each operation meets the condition
  under which it alone does.

Operations that no refusal shows in are only asked to leave a state that holds something.
-/

namespace Ucb.Lib

universe u v w x y

/-- A component. Every operation meets an environment of its own. -/
structure Component (Env : Type u) (State : Type v) (Op : Type w) (Result : Type x)
    (Content : Type y) where
  step : Env → State → Op → Option (State × Result)
  /-- The environment when it refuses nothing. -/
  granting : Env → Env
  holds : State → Content → Prop

namespace Component

variable {Env : Type u} {State : Type v} {Op : Type w} {Result : Type x} {Content : Type y}
  (component : Component Env State Op Result Content)

/-- Perform an operation in the environment it meets. -/
def run (state : State) (call : Env × Op) : Option (State × Result) :=
  component.step call.1 state call.2

/-- The state holds something. -/
def Sound (state : State) : Prop :=
  ∃ content, component.holds state content

/-- The operation does what it does when nothing is refused. -/
def Unhindered (state : State) (call : Env × Op) : Prop :=
  component.run state call = component.run state (component.granting call.1, call.2)

/-- The operation returns, and the state holds what it held before. -/
def Survives (state : State) (call : Env × Op) : Prop :=
  ∃ after, component.run state call = some after ∧
    ∀ content, component.holds state content → component.holds after.1 content

/-- A refusal that shows leaves what the state held, and every state holds something. -/
def Withstands (state : State) (call : Env × Op) : Prop :=
  (¬ component.Unhindered state call → component.Survives state call) ∧
    ∀ after, component.run state call = some after → component.Sound after.1

/-- Proper operations withstand refusals exactly where a condition is met. -/
def SparedBy (proper spares : State → Env × Op → Prop) : Prop :=
  ∀ state call, component.Sound state → proper state call →
    (component.Withstands state call ↔ spares state call)

/-- Sequences of proper operations from a state on withstand all their refusals exactly when
each operation meets a condition. -/
def SparedFrom (proper spares : State → Env × Op → Prop) (first : State) : Prop :=
  ∀ calls, Throughout component.run proper first calls →
    (Throughout component.run component.Withstands first calls ↔
      Throughout component.run spares first calls)

variable {component} {proper spares : State → Env × Op → Prop} {state : State} {call : Env × Op}

theorem withstands_of_survives {after : State × Result}
    (ran : component.run state call = some after) (sound : component.Sound state)
    (kept : ∀ content, component.holds state content → component.holds after.1 content) :
    component.Withstands state call := by
  refine ⟨fun _ => ⟨after, ran, kept⟩, fun after' ran' => ?_⟩
  obtain rfl := Option.some.inj (ran.symm.trans ran')
  obtain ⟨content, holds⟩ := sound
  exact ⟨content, kept content holds⟩

theorem withstands_of_unhindered (unhindered : component.Unhindered state call)
    (sound : ∀ after, component.run state call = some after → component.Sound after.1) :
    component.Withstands state call :=
  ⟨fun hindered => absurd unhindered hindered, sound⟩

/-- An operation that leaves a state without content does not withstand. -/
theorem not_withstands {after : State × Result} (ran : component.run state call = some after)
    (unsound : ¬ component.Sound after.1) : ¬ component.Withstands state call :=
  fun withstands => unsound (withstands.2 after ran)

/-- What is so for each operation is so for sequences from a state that holds something. -/
theorem SparedBy.sparedFrom (spared : component.SparedBy proper spares) {first : State}
    (sound : component.Sound first) : component.SparedFrom proper spares first := by
  intro calls
  induction calls generalizing first with
  | nil => exact fun _ => Iff.rfl
  | cons call rest inductionHypothesis =>
      intro allProper
      rw [Throughout, Throughout, ← spared first call sound allProper.1]
      apply and_congr_right
      intro withstands
      apply forall_congr'
      intro after
      apply imp_congr_right
      intro ran
      exact inductionHypothesis (withstands.2 after ran) (allProper.2 after ran)

end Component

end Ucb.Lib
