import Mathlib.Data.Option.Basic

/-!
Contract: sequences of operations of a program against their specification.

Owns:
- performing a sequence of operations and collecting the results;
- what it means that a sequence has the specified results and leads through
  related states all the way;
- that this is so exactly when each operation meets the condition under which it
  alone is right;
- conditions on every operation of a sequence, and what they keep at every point.

An operation without a specified effect is outside its contract, so nothing is
said about sequences that go on behind one.
-/

namespace Ucb.Lib

universe u v w x

variable {Concrete : Type u} {Abstract : Type v} {Op : Type w} {Result : Type x}

/-- Perform operations one after the other. -/
def performAll {State : Type u} (step : State → Op → Option (State × Result)) :
    State → List Op → Option (State × List Result)
  | state, [] => some (state, [])
  | state, op :: rest =>
      match step state op with
      | none => none
      | some (after, result) =>
          (performAll step after rest).map fun last => (last.1, result :: last.2)

/-- Each operation meets a condition in the state it is performed in. -/
def Throughout {State : Type u} (step : State → Op → Option (State × Result))
    (meets : State → Op → Prop) : State → List Op → Prop
  | _, [] => True
  | state, op :: rest =>
      meets state op ∧ ∀ after ∈ step state op, Throughout step meets after.1 rest

variable (concrete : Concrete → Op → Option (Concrete × Result))
  (abstract : Abstract → Op → Option (Abstract × Result)) (related : Concrete → Abstract → Prop)

/-- The operation has the specified result and leads to a related state. -/
def Performs (before : Concrete) (op : Op) (after : Abstract × Result) : Prop :=
  ∃ state, concrete before op = some (state, after.2) ∧ related state after.1

/-- At every point of a sequence of operations the results so far are the specified
ones and the states are related. -/
def RefinesOn (first : Concrete) (specified : Abstract) (ops : List Op) : Prop :=
  ∀ front rest, ops = front ++ rest → ∀ after ∈ performAll abstract specified front,
    ∃ state, performAll concrete first front = some (state, after.2) ∧ related state after.1

variable {concrete abstract related} {meets : Concrete → Op → Prop}

theorem performAll_cons {State : Type u} {step : State → Op → Option (State × Result)}
    {state after : State} {op : Op} {result : Result}
    (stepped : step state op = some (after, result)) (rest : List Op) :
    performAll step state (op :: rest) =
      (performAll step after rest).map fun last => (last.1, result :: last.2) := by
  rw [performAll, stepped]

/-- Going on behind the first operations. -/
theorem performAll_append {State : Type u} {step : State → Op → Option (State × Result)}
    {state between : State} {front : List Op} {results : List Result}
    (performed : performAll step state front = some (between, results)) (rest : List Op) :
    performAll step state (front ++ rest) =
      (performAll step between rest).map fun last => (last.1, results ++ last.2) := by
  induction front generalizing state results with
  | nil =>
      obtain ⟨rfl, rfl⟩ := Prod.mk.inj (Option.some.inj performed)
      simp
  | cons op front inductionHypothesis =>
      cases stepped : step state op with
      | none => simp [performAll, stepped] at performed
      | some after =>
          rw [performAll_cons stepped] at performed
          obtain ⟨last, inner, same⟩ := Option.map_eq_some_iff.mp performed
          obtain ⟨rfl, rfl⟩ := Prod.mk.inj same
          rw [List.cons_append, performAll_cons stepped, inductionHypothesis inner, Option.map_map]
          rfl

/-- Operations that always have an effect can all be performed. -/
theorem performAll_isSome {State : Type u} {step : State → Op → Option (State × Result)}
    (total : ∀ state op, (step state op).isSome) (ops : List Op) :
    ∀ state, (performAll step state ops).isSome := by
  induction ops with
  | nil => exact fun _ => rfl
  | cons op rest inductionHypothesis =>
      intro state
      obtain ⟨after, stepped⟩ := Option.isSome_iff_exists.mp (total state op)
      rw [performAll_cons stepped, Option.isSome_map]
      exact inductionHypothesis after.1

theorem throughout_cons {State : Type u} {step : State → Op → Option (State × Result)}
    {meets : State → Op → Prop} {state after : State} {op : Op} {result : Result}
    (stepped : step state op = some (after, result)) (rest : List Op) :
    Throughout step meets state (op :: rest) ↔
      meets state op ∧ Throughout step meets after rest := by
  rw [Throughout, stepped]
  simp

/-- Conditions that agree wherever an invariant holds agree throughout a sequence, when
each operation that meets them keeps the invariant. -/
theorem throughout_iff {State : Type u} {step : State → Op → Option (State × Result)}
    {right meets : State → Op → Prop} (invariant : State → Prop)
    (agree : ∀ state op, invariant state → (right state op ↔ meets state op))
    (keeps : ∀ state op after, invariant state → right state op → step state op = some after →
      invariant after.1) {ops : List Op} : ∀ {state : State}, invariant state →
      (Throughout step right state ops ↔ Throughout step meets state ops) := by
  induction ops with
  | nil => exact fun _ => Iff.rfl
  | cons op rest inductionHypothesis =>
      intro state holds
      rw [Throughout, Throughout, ← agree state op holds]
      apply and_congr_right
      intro here
      constructor
      · intro all after stepped
        exact (inductionHypothesis (keeps state op after holds here stepped)).mp (all after stepped)
      · intro all after stepped
        exact (inductionHypothesis (keeps state op after holds here stepped)).mpr
          (all after stepped)

theorem RefinesOn.nil {first : Concrete} {specified : Abstract} (start : related first specified) :
    RefinesOn concrete abstract related first specified [] := by
  intro front rest split after performed
  obtain ⟨rfl, -⟩ := List.append_eq_nil_iff.mp split.symm
  obtain rfl := Option.some.inj performed
  exact ⟨first, rfl, start⟩

/-- A sequence refines its specification when its first operation does and the
others do from there. -/
theorem refinesOn_cons {first state : Concrete} {specified next : Abstract} {op : Op}
    {result : Result} {rest : List Op} (start : related first specified)
    (effect : abstract specified op = some (next, result))
    (stepped : concrete first op = some (state, result)) :
    RefinesOn concrete abstract related first specified (op :: rest) ↔
      RefinesOn concrete abstract related state next rest := by
  constructor
  · intro refines front later split after performed
    have whole : (after.1, result :: after.2) ∈ performAll abstract specified (op :: front) := by
      rw [performAll_cons effect, Option.mem_def.mp performed]
      rfl
    obtain ⟨last, ran, holds⟩ := refines (op :: front) later (by rw [split, List.cons_append])
      _ whole
    rw [performAll_cons stepped] at ran
    obtain ⟨⟨last', results⟩, ran', same⟩ := Option.map_eq_some_iff.mp ran
    obtain ⟨rfl, tail⟩ := Prod.mk.inj same
    have tail : results = after.2 := (List.cons.inj tail).2
    exact ⟨last', by rw [ran', tail], holds⟩
  · intro refines front later split after performed
    cases front with
    | nil =>
        obtain rfl := Option.some.inj performed
        exact ⟨first, rfl, start⟩
    | cons op' front =>
        obtain ⟨rfl, behind⟩ := List.cons.inj split
        rw [performAll_cons effect] at performed
        obtain ⟨last, inner, rfl⟩ := Option.map_eq_some_iff.mp performed
        obtain ⟨final, ran, holds⟩ := refines front later behind last inner
        exact ⟨final, by rw [performAll_cons stepped, ran]; rfl, holds⟩

/-- Where each operation of a sequence alone is right exactly when it meets the condition, the
sequence is right at every point exactly when all of its operations meet it. -/
theorem refinesOn_iff_of_mem {ops : List Op}
    (exact : ∀ op ∈ ops, ∀ before specified after, related before specified →
      abstract specified op = some after →
        (Performs concrete related before op after ↔ meets before op)) :
    ∀ {first : Concrete} {specified : Abstract}, related first specified →
      (performAll abstract specified ops).isSome →
        (RefinesOn concrete abstract related first specified ops ↔
          Throughout concrete meets first ops) := by
  induction ops with
  | nil =>
      intro first specified start _
      exact iff_of_true (.nil start) trivial
  | cons op rest inductionHypothesis =>
      intro first specified start defined
      cases effect : abstract specified op with
      | none => simp [performAll, effect] at defined
      | some after =>
          have step := exact op List.mem_cons_self first specified after start effect
          have others : ∀ other ∈ rest, ∀ before specified after, related before specified →
              abstract specified other = some after →
                (Performs concrete related before other after ↔ meets before other) :=
            fun other member => exact other (List.mem_cons_of_mem op member)
          rw [performAll_cons effect, Option.isSome_map] at defined
          by_cases right : Performs concrete related first op after
          · obtain ⟨state, stepped, holds⟩ := right
            rw [refinesOn_cons start effect stepped, throughout_cons stepped,
              inductionHypothesis others holds defined,
              and_iff_right (step.mp ⟨state, stepped, holds⟩)]
          · constructor
            · intro refines
              have one : performAll abstract specified [op] = some (after.1, [after.2]) := by
                rw [performAll_cons effect]
                rfl
              obtain ⟨state, ran, holds⟩ := refines [op] rest rfl _ one
              simp only [performAll] at ran
              split at ran
              next => cases ran
              next state' result stepped =>
                obtain ⟨rfl, same⟩ := Prod.mk.inj (Option.some.inj ran)
                exact absurd ⟨state', by rw [stepped, (List.cons.inj same).1], holds⟩ right
            · intro all
              exact absurd (step.mpr all.1) right

/-- This holds of all sequences where each operation alone is right exactly when it meets the
condition. -/
theorem refinesOn_iff
    (exact : ∀ before specified op after, related before specified →
      abstract specified op = some after →
        (Performs concrete related before op after ↔ meets before op))
    {ops : List Op} {first : Concrete} {specified : Abstract} (start : related first specified)
    (defined : (performAll abstract specified ops).isSome) :
    RefinesOn concrete abstract related first specified ops ↔
      Throughout concrete meets first ops :=
  refinesOn_iff_of_mem
    (fun op _ before specified after => exact before specified op after) start defined

/-! ## Properties kept by a condition -/

/-- Where each step keeps an invariant, and keeps a property exactly when it meets a condition,
the property holds at every point of a sequence exactly when all operations meet the
condition. -/
theorem holds_throughout_iff {State : Type u} {step : State → Op → Option (State × Result)}
    {meets : State → Op → Prop} (invariant good : State → Prop)
    (total : ∀ state op, invariant state →
      ∃ after, step state op = some after ∧ invariant after.1 ∧
        (good state → (good after.1 ↔ meets state op))) {ops : List Op} :
    ∀ {first : State}, invariant first → good first →
      ((∀ front rest, ops = front ++ rest →
          ∀ after ∈ performAll step first front, good after.1) ↔
        Throughout step meets first ops) := by
  induction ops with
  | nil =>
      intro first _ holds
      refine iff_of_true ?_ trivial
      intro front rest split after performed
      obtain ⟨rfl, -⟩ := List.append_eq_nil_iff.mp split.symm
      obtain rfl := Option.some.inj performed
      exact holds
  | cons op rest inductionHypothesis =>
      intro first kept holds
      obtain ⟨⟨next, result⟩, stepped, keptNext, exact⟩ := total first op kept
      rw [throughout_cons stepped, ← exact holds]
      constructor
      · intro always
        have goodNext : good next := by
          apply always [op] rest rfl (next, [result])
          rw [performAll_cons stepped]
          rfl
        refine ⟨goodNext, (inductionHypothesis keptNext goodNext).mp ?_⟩
        intro front later split after performed
        apply always (op :: front) later (by rw [split, List.cons_append])
          (after.1, result :: after.2)
        rw [performAll_cons stepped, Option.mem_def.mp performed]
        rfl
      · rintro ⟨goodNext, meets⟩ front later split after performed
        cases front with
        | nil =>
            obtain rfl := Option.some.inj performed
            exact holds
        | cons op' front =>
            obtain ⟨rfl, behind⟩ := List.cons.inj split
            rw [performAll_cons stepped] at performed
            obtain ⟨last, inner, rfl⟩ := Option.map_eq_some_iff.mp performed
            exact (inductionHypothesis keptNext goodNext).mpr meets front later behind last inner

end Ucb.Lib
