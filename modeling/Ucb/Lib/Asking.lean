/-!
Contract: programs that ask a server and go on with what it answers.

Owns:
- the programs;
- `Keeps`: under terms that say what must be held to ask, and what an answer makes of
  what is held, a program never asks for what it may not, and ends as described;
- the rules for it.

Nothing is said about the server itself, which may answer what it likes within the
terms.
-/

namespace Ucb.Lib

/-- A program that asks, and goes on with each answer. -/
inductive Asking (Ask : Type) (Answer : Ask → Type) (α : Type) where
  | ret (value : α)
  | ask (question : Ask) (next : Answer question → Asking Ask Answer α)

/-- The terms between a program and the server. -/
structure Terms (Held Ask : Type) (Answer : Ask → Type) where
  /-- What must be held to ask. -/
  needs : Held → Ask → Prop
  /-- What an answer may make of what is held. -/
  gives : Held → (question : Ask) → Answer question → Held → Prop

variable {Ask Held : Type} {Answer : Ask → Type} {α β : Type}

namespace Asking

protected def bind (first : Asking Ask Answer α) (next : α → Asking Ask Answer β) :
    Asking Ask Answer β :=
  match first with
  | ret value => next value
  | ask question rest => ask question fun answer => (rest answer).bind next

instance : Monad (Asking Ask Answer) where
  pure := ret
  bind := Asking.bind

def request (question : Ask) : Asking Ask Answer (Answer question) :=
  ask question ret

/-- A program keeps to its terms whatever is answered, and ends as described. -/
def Keeps (terms : Terms Held Ask Answer) :
    Asking Ask Answer α → Held → (α → Held → Prop) → Prop
  | ret value, held, post => post value held
  | ask question next, held, post =>
      terms.needs held question ∧ ∀ answer after, terms.gives held question answer after →
        (next answer).Keeps terms after post

end Asking

variable {terms : Terms Held Ask Answer} {held : Held} {post : β → Held → Prop}

theorem keeps_pure {value : β} (holds : post value held) :
    (pure value : Asking Ask Answer β).Keeps terms held post :=
  holds

theorem keeps_request {question : Ask} {next : Answer question → Asking Ask Answer β}
    (needs : terms.needs held question)
    (behind : ∀ answer after, terms.gives held question answer after →
      (next answer).Keeps terms after post) :
    (Asking.request question >>= next).Keeps terms held post :=
  ⟨needs, behind⟩

theorem Asking.Keeps.mono {program : Asking Ask Answer β} {post' : β → Held → Prop}
    (keeps : program.Keeps terms held post)
    (more : ∀ value after, post value after → post' value after) :
    program.Keeps terms held post' := by
  induction program generalizing held with
  | ret value => exact more value held keeps
  | ask question next inductionHypothesis =>
      refine ⟨keeps.1, fun answer after gives => ?_⟩
      exact inductionHypothesis answer (keeps.2 answer after gives)

theorem keeps_bind {first : Asking Ask Answer α} {next : α → Asking Ask Answer β}
    (keeps : first.Keeps terms held fun value after => (next value).Keeps terms after post) :
    (first >>= next).Keeps terms held post := by
  induction first generalizing held with
  | ret value => exact keeps
  | ask question rest inductionHypothesis =>
      refine ⟨keeps.1, fun answer after gives => ?_⟩
      exact inductionHypothesis answer (keeps.2 answer after gives)

/-- What a first program leaves, the rest goes on with. -/
theorem Asking.Keeps.andThen {first : Asking Ask Answer α} {next : α → Asking Ask Answer β}
    {middle : α → Held → Prop} (keeps : first.Keeps terms held middle)
    (behind : ∀ value after, middle value after → (next value).Keeps terms after post) :
    (first >>= next).Keeps terms held post :=
  keeps_bind (keeps.mono behind)

end Ucb.Lib
