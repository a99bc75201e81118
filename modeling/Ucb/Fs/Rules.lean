import Ucb.Fs.Names

/-!
Contract: rules for what a program ensures.

Owns:
- `Ensured`, with what holds after a success and after a failure;
- one rule for each way of putting programs together, and one for a call;
- that every program has a run.
-/

namespace Ucb.Fs

open Ucb.Lib Ucb.Path

theorem FsProg.bind_pure_id {α : Type} (prog : FsProg α) : id <$> prog = prog := by
  induction prog with
  | ret value => rfl
  | exhausted => rfl
  | call op next inductionHypothesis =>
      exact congrArg (FsProg.call op) (funext inductionHypothesis)

theorem FsProg.bind_bind {α β γ : Type} (prog : FsProg α) (first : α → FsProg β)
    (second : β → FsProg γ) : prog >>= first >>= second = prog >>= fun value =>
      first value >>= second := by
  induction prog with
  | ret value => rfl
  | exhausted => rfl
  | call op next inductionHypothesis =>
      exact congrArg (FsProg.call op) (funext inductionHypothesis)

instance : LawfulMonad FsProg :=
  LawfulMonad.mk' FsProg FsProg.bind_pure_id (fun _ _ => rfl) FsProg.bind_bind

/-- What holds after a success, or after a failure. -/
def Ends {α : Type} (ok : α → System → Prop) (failed : UcbError → System → Prop) :
    Except UcbError α → System → Prop
  | .ok value, system => ok value system
  | .error error, system => failed error system

/-- Whatever the calls answer: every disk on the way keeps an invariant, and the function succeeds
with the one or fails with the other. -/
def Ensured (host : Host) (inv : Disk → Prop) {α : Type} (run : FsM α) (system : System)
    (ok : α → System → Prop) (failed : UcbError → System → Prop) : Prop :=
  run.run.Ensures host inv system (Ends ok failed)

section Rules

variable {host : Host} {inv : Disk → Prop} {α β : Type} {system : System}

theorem FsProg.Ensures.mono {inv' : Disk → Prop} {prog : FsProg α}
    {post post' : α → System → Prop} (ensures : prog.Ensures host inv system post)
    (invMore : ∀ disk, inv disk → inv' disk)
    (more : ∀ value after, post value after → post' value after) :
    prog.Ensures host inv' system post' := by
  induction prog generalizing system with
  | ret value => exact more value system ensures
  | exhausted => exact ensures
  | call op next inductionHypothesis =>
      refine ⟨ensures.1, fun answer after answers => ?_⟩
      obtain ⟨here, behind⟩ := ensures.2 answer after answers
      exact ⟨invMore _ here, inductionHypothesis answer behind⟩

theorem FsProg.Ensures.bind {first : FsProg α} {next : α → FsProg β}
    {post : β → System → Prop}
    (ensures : first.Ensures host inv system fun value after =>
      (next value).Ensures host inv after post) :
    (first >>= next).Ensures host inv system post := by
  induction first generalizing system with
  | ret value => exact ensures
  | exhausted => exact ensures
  | call op rest inductionHypothesis =>
      refine ⟨ensures.1, fun answer after answers => ?_⟩
      obtain ⟨here, behind⟩ := ensures.2 answer after answers
      exact ⟨here, inductionHypothesis answer behind⟩

variable {ok : α → System → Prop} {failed : UcbError → System → Prop}

theorem Ensured.mono {run : FsM α} {ok' : α → System → Prop} {failed' : UcbError → System → Prop}
    (ensured : Ensured host inv run system ok failed)
    (okMore : ∀ value after, ok value after → ok' value after)
    (failedMore : ∀ error after, failed error after → failed' error after) :
    Ensured host inv run system ok' failed' := by
  refine FsProg.Ensures.mono ensured (fun _ here => here) fun result after ends => ?_
  cases result with
  | ok value => exact okMore value after ends
  | error error => exact failedMore error after ends

theorem Ensured.runs {run : FsM α} {last : System} {visited : List System}
    {result : Option (Except UcbError α)} (ensured : Ensured host inv run system ok failed)
    (runs : run.run.Runs host system visited result last) :
    (∀ passed ∈ visited, inv passed.disk) ∧
      ((∃ value, result = some (.ok value) ∧ ok value last) ∨
        (∃ error, result = some (.error error) ∧ failed error last) ∨
        (result = none ∧ host.reliable = false)) := by
  obtain ⟨between, ⟨value, rfl, ends⟩ | exhausted⟩ := FsProg.Ensures.runs ensured runs
  · cases value with
    | ok value => exact ⟨between, .inl ⟨value, rfl, ends⟩⟩
    | error error => exact ⟨between, .inr (.inl ⟨error, rfl, ends⟩)⟩
  · exact ⟨between, .inr (.inr exhausted)⟩

theorem ensured_pure {value : α} (holds : ok value system) :
    Ensured host inv (pure value) system ok failed :=
  holds

theorem ensured_throw {error : UcbError} (holds : failed error system) :
    Ensured host inv (throw error) system ok failed :=
  holds

theorem ensured_exhausted (unreliable : host.reliable = false) :
    Ensured host inv (.mk .exhausted : FsM α) system ok failed :=
  unreliable

theorem ensured_bind {first : FsM β} {next : β → FsM α}
    (ensured : Ensured host inv first system
      (fun value after => Ensured host inv (next value) after ok failed) failed) :
    Ensured host inv (first >>= next) system ok failed := by
  refine FsProg.Ensures.bind (FsProg.Ensures.mono ensured (fun _ here => here) ?_)
  intro result after ends
  cases result with
  | ok value => exact ends
  | error error => exact ends

/-- The caller goes on after a failure. -/
theorem ensured_outcome {run : FsM α} {ok' : Except UcbError α → System → Prop}
    {failed' : UcbError → System → Prop}
    (ensured : Ensured host inv run system (fun value => ok' (.ok value))
      fun error => ok' (.error error)) :
    Ensured host inv (outcome run) system ok' failed' := by
  refine FsProg.Ensures.bind (FsProg.Ensures.mono ensured (fun _ here => here) ?_)
  intro result after ends
  cases result with
  | ok value => exact ends
  | error error => exact ends

theorem ensured_lift {result : Except UcbError α} (ends : Ends ok failed result system) :
    Ensured host inv (liftExcept result) system ok failed := by
  cases result with
  | ok value => exact ends
  | error error => exact ends

theorem ensured_platform {op : FsCall} {answers : op.Answer = Except UcbError α}
    {does : α → System → Prop}
    (replies : ∀ answer after, host.Answers system op answer after →
      host.Replies system op does (answers ▸ answer) after)
    (here : inv system.disk) (done : ∀ value after, does value after →
      inv after.disk ∧ ok value after)
    (refused : ∀ error, host.Truthful system.disk op error →
      (host.reliable = true → ∀ value after, ¬ does value after) → failed error system)
    (returns : system.Aborts op → host.reliable = false := by exact False.elim) :
    Ensured host inv (platform op answers) system ok failed := by
  refine ⟨returns, fun answer after answered => ?_⟩
  have reply := replies answer after answered
  show inv after.disk ∧ Ends ok failed (answers ▸ answer) after
  cases result : (answers ▸ answer : Except UcbError α) with
  | ok value =>
      rw [result] at reply
      exact done value after reply
  | error error =>
      rw [result] at reply
      obtain ⟨rfl, truthful, unable⟩ := reply
      exact ⟨here, refused error truthful unable⟩

theorem ensured_perform {op : FsCall} {answers : op.Answer = α}
    (done : ∀ answer after, host.Answers system op answer after →
      inv after.disk ∧ ok (answers ▸ answer) after)
    (returns : system.Aborts op → host.reliable = false := by exact False.elim) :
    Ensured host inv (perform op answers) system ok failed :=
  ⟨returns, done⟩

end Rules

/-! ## Every program runs -/

section Progress

variable {host : Host} {system : System}

theorem refusalCode_ne_device (refusal : Refusal) : refusalCode refusal ≠ errsysExdev := by
  cases refusal <;> decide

theorem exists_truthful (host : Host) (disk : Disk) (op : FsCall) :
    ∃ error, host.Truthful disk op error := by
  cases why : host.refusal disk op with
  | none =>
      refine ⟨⟨.internal, ""⟩, ?_⟩
      constructor
      case missing =>
        intro absent
        cases absent
      case device =>
        intro src dst overwrite isRename absent
        cases absent
      case told =>
        intro reliable refusal absent
        rw [why] at absent
        cases absent
  | some refusal =>
      refine ⟨⟨refusalCode refusal, ""⟩, ?_⟩
      constructor
      case missing =>
        intro missing
        rw [why, (refusalCode_missing_iff refusal).mp missing]
      case device =>
        intro src dst overwrite isRename device
        exact absurd device (refusalCode_ne_device refusal)
      case told =>
        intro reliable refusal' same
        rw [why] at same
        rw [Option.some.inj same]

/-- A call that can do what is described does so, and another one fails. -/
theorem exists_reply {α : Type} (op : FsCall) (does : α → System → Prop) :
    ∃ answer after, host.Replies system op does answer after := by
  by_cases able : ∃ value after, does value after
  · obtain ⟨value, after, done⟩ := able
    exact ⟨.ok value, after, done⟩
  · obtain ⟨error, truthful⟩ := exists_truthful host system.disk op
    exact ⟨.error error, system, rfl, truthful, fun _ value after done => able ⟨value, after, done⟩⟩

theorem exists_answer {op : FsCall} (returns : ¬ system.Aborts op) :
    ∃ answer after, host.Answers system op answer after := by
  cases op with
  | dirNext dir =>
      obtain ⟨answer, after, replies⟩ : ∃ answer after, host.Replies system (.dirNext dir) _ answer
          after := exists_reply _ _
      exact ⟨answer, after, replies, .inr returns⟩
  | dirFree dir => exact ⟨(), system, rfl⟩
  | fileFree file => exact ⟨(), system, rfl⟩
  | tempSuffix => exact ⟨tempSuffix 0 0, system, rfl, 0, 0, rfl⟩
  | fileWriteFull file bytes => exact ⟨.ok (), _, 0, rfl⟩
  | fileOpen path mode =>
      cases mode with
      | read => exact exists_reply _ _
      | createExclusive => exact exists_reply _ _
      | createTruncate => exact exists_reply _ _
  | _ => exact exists_reply _ _

theorem FsProg.exists_run {α : Type} (host : Host) (prog : FsProg α) (system : System) :
    ∃ visited result last, prog.Runs host system visited result last := by
  induction prog generalizing system with
  | ret value => exact ⟨[], _, _, .ret value system⟩
  | exhausted => exact ⟨[], _, _, .exhausted system⟩
  | call op next inductionHypothesis =>
      by_cases aborts : system.Aborts op
      · exact ⟨[], none, _, .aborted aborts⟩
      · obtain ⟨answer, after, answers⟩ : ∃ answer after, host.Answers system op answer after :=
          exists_answer aborts
        obtain ⟨visited, result, last, rest⟩ := inductionHypothesis answer after
        exact ⟨_, result, last, .call answers rest⟩

end Progress

end Ucb.Fs
