import Mathlib.Logic.Relation
import Mathlib.Data.Option.Basic

/-!
Contract: runs of a system whose steps are labelled with actions.

Owns:
- the steps and runs of a partial step function, restricted to actions that
  meet a condition in the state they are taken in;
- the invariant rule and replaying a list of actions;
- that a property holds at every point of a replay exactly when each action meets
  the condition under which its step keeps it.

A system under a condition has fewer runs; without one the condition is
`Always`.
-/

namespace Ucb.Lib

universe u v

variable {State : Type u} {Action : Type v}

/-- The condition every action meets. -/
def Always : State → Action → Prop := fun _ _ => True

/-- One step of the system with an action that meets the condition. -/
def Next (step : State → Action → Option State) (meets : State → Action → Prop)
    (before after : State) : Prop :=
  ∃ action, meets before action ∧ step before action = some after

/-- A run of any number of steps. -/
def Reaches (step : State → Action → Option State) (meets : State → Action → Prop) :
    State → State → Prop :=
  Relation.ReflTransGen (Next step meets)

variable {step : State → Action → Option State} {meets : State → Action → Prop}

theorem Reaches.refl (state : State) : Reaches step meets state state :=
  Relation.ReflTransGen.refl

theorem Reaches.next {first before after : State} {action : Action}
    (run : Reaches step meets first before) (allowed : meets before action)
    (stepped : step before action = some after) : Reaches step meets first after :=
  Relation.ReflTransGen.tail run ⟨action, allowed, stepped⟩

theorem Reaches.trans {first middle last : State} (run : Reaches step meets first middle)
    (later : Reaches step meets middle last) : Reaches step meets first last :=
  Relation.ReflTransGen.trans run later

/-- What holds at the start and is kept by every step holds at the end. -/
theorem Reaches.invariant {Holds : State → Prop} {first last : State}
    (run : Reaches step meets first last) (initially : Holds first)
    (kept : ∀ before action after, Holds before → meets before action →
      step before action = some after → Holds after) : Holds last := by
  induction run with
  | refl => exact initially
  | tail _ taken inductionHypothesis =>
      obtain ⟨action, allowed, stepped⟩ := taken
      exact kept _ action _ inductionHypothesis allowed stepped

/-- Where every state that is not done has a step that uses up work, some run
leads to one that is done. -/
theorem exists_run_to {Holds Done : State → Prop} {work : State → Nat}
    (progress : ∀ state, Holds state → ¬ Done state → ∃ action after, meets state action ∧
      step state action = some after ∧ Holds after ∧ work after < work state) :
    ∀ first, Holds first → ∃ last, Reaches step meets first last ∧ Done last := by
  have bounded : ∀ bound first, work first < bound → Holds first →
      ∃ last, Reaches step meets first last ∧ Done last := by
    intro bound
    induction bound with
    | zero => intro first below; omega
    | succ bound inductionHypothesis =>
        intro first below holds
        by_cases done : Done first
        · exact ⟨first, .refl first, done⟩
        · obtain ⟨action, after, allowed, stepped, kept, less⟩ := progress first holds done
          obtain ⟨last, run, atEnd⟩ := inductionHypothesis after (by omega) kept
          exact ⟨last, ((Reaches.refl first).next allowed stepped).trans run, atEnd⟩
  exact fun first => bounded (work first + 1) first (Nat.lt_succ_self _)

/-- A weaker condition has more runs. -/
theorem Reaches.weaken {other : State → Action → Prop} {first last : State}
    (run : Reaches step meets first last)
    (weaker : ∀ state action, meets state action → other state action) :
    Reaches step other first last := by
  induction run with
  | refl => exact .refl _
  | tail _ taken inductionHypothesis =>
      obtain ⟨action, allowed, stepped⟩ := taken
      exact inductionHypothesis.next (weaker _ _ allowed) stepped

/-- Take the actions of a list one after the other. -/
def replay (step : State → Action → Option State) : State → List Action → Option State
  | state, [] => some state
  | state, action :: rest => (step state action).bind fun after => replay step after rest

/-- Every action of a list meets the condition where it is taken. -/
def MeetsAll (step : State → Action → Option State) (meets : State → Action → Prop) :
    State → List Action → Prop
  | _, [] => True
  | state, action :: rest =>
      meets state action ∧ ∀ after ∈ step state action, MeetsAll step meets after rest

instance [∀ state action, Decidable (meets state action)] (state : State) (actions : List Action) :
    Decidable (MeetsAll step meets state actions) := by
  induction actions generalizing state with
  | nil => exact .isTrue trivial
  | cons action rest inductionHypothesis =>
      unfold MeetsAll
      infer_instance

theorem meetsAll_always (actions : List Action) :
    ∀ state : State, MeetsAll step Always state actions := by
  induction actions with
  | nil => intro state; trivial
  | cons action rest inductionHypothesis =>
      intro state
      exact ⟨trivial, fun after _ => inductionHypothesis after⟩

/-- Actions that can be replayed make a run. -/
theorem Reaches.of_replay {actions : List Action} :
    ∀ {first last : State}, replay step first actions = some last →
      MeetsAll step meets first actions → Reaches step meets first last := by
  induction actions with
  | nil =>
      intro first last replayed _
      obtain rfl := Option.some.inj replayed
      exact .refl first
  | cons action rest inductionHypothesis =>
      intro first last replayed meet
      obtain ⟨after, stepped, later⟩ := Option.bind_eq_some_iff.mp replayed
      exact (Reaches.refl first |>.next meet.1 stepped).trans
        (inductionHypothesis later (meet.2 after stepped))

/-- Where every step from a good state leads to a good state exactly when its action meets the
condition, the states of a replay are all good exactly when all its actions meet it. -/
theorem good_throughout_iff {assumed : State → Action → Prop} (invariant good : State → Prop)
    (exact : ∀ before action after, invariant before → good before → assumed before action →
      step before action = some after → invariant after ∧ (good after ↔ meets before action))
    {actions : List Action} : ∀ {first last : State}, invariant first → good first →
      replay step first actions = some last → MeetsAll step assumed first actions →
        ((∀ front rest, actions = front ++ rest →
            ∀ state ∈ replay step first front, good state) ↔
          MeetsAll step meets first actions) := by
  induction actions with
  | nil =>
      intro first last _ holds _ _
      refine iff_of_true ?_ trivial
      intro front rest split state replayed
      obtain ⟨rfl, -⟩ := List.append_eq_nil_iff.mp split.symm
      obtain rfl := Option.some.inj replayed
      exact holds
  | cons action rest inductionHypothesis =>
      intro first last kept holds replayed allowed
      obtain ⟨after, stepped, later⟩ := Option.bind_eq_some_iff.mp replayed
      obtain ⟨keptAfter, here⟩ := exact first action after kept holds allowed.1 stepped
      have behind : ∀ front, replay step first (action :: front) = replay step after front := by
        intro front
        rw [replay, stepped, Option.bind_some]
      constructor
      · intro always
        have goodAfter : good after := always [action] rest rfl after (behind [])
        refine ⟨here.mp goodAfter, fun state same => ?_⟩
        obtain rfl := Option.some.inj (stepped.symm.trans same)
        apply (inductionHypothesis keptAfter goodAfter later (allowed.2 _ stepped)).mp
        intro front others split state replayed
        apply always (action :: front) others (by rw [split, List.cons_append]) state
        rw [behind]
        exact replayed
      · rintro ⟨met, others⟩ front rest' split state replayed
        have goodAfter : good after := here.mpr met
        cases front with
        | nil =>
            obtain rfl := Option.some.inj replayed
            exact holds
        | cons action' front =>
            obtain ⟨rfl, tail⟩ := List.cons.inj split
            rw [behind] at replayed
            exact (inductionHypothesis keptAfter goodAfter later (allowed.2 _ stepped)).mpr
              (others _ stepped) front rest' tail state replayed

end Ucb.Lib
