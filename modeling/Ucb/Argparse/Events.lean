import Ucb.Argparse.Argparse

/-!
Contract: what a command line says, apart from what is done about it.

Owns:
- the events of a list of tokens: options with their values, positional
  arguments and errors of the scanner;
- parsing as carrying the events out until one of them ends it;
- where a front of the tokens can be read on its own.

Which events there are depends on the declared options only. A token taken for a
value is no event of its own.
-/

namespace Ucb.Argparse

/-! ## Events -/

/-- Something a command line says. -/
inductive Event where
  | apply (o : UcbArgOptImpl) (index : Nat) (value : Option (List UInt8))
  | positional (arg : List UInt8)
  | fail (err : ArgError)
deriving DecidableEq, Repr

/-- The event of a token with `--` and a name, and whether it takes the token behind it. -/
def longEvent (p : UcbArgParser) (body : List UInt8) (next : Option (List UInt8)) : Event × Bool :=
  let name := body.takeWhile (· ≠ equalsSign)
  let eq := (body.dropWhile (· ≠ equalsSign)).tail?
  match findLong p name with
  | none => (.fail (.unrecognized name), false)
  | some (o, index) =>
      if optTakesValue o then
        match eq with
        | some value => (.apply o index (some value), false)
        | none =>
            match next with
            | some value => (.apply o index (some value), true)
            | none => (.fail (.requiresArgument o.canon), false)
      else if eq.isSome then (.fail (.takesNoArgument o.canon), false)
      else (.apply o index none, false)

/-- The events of a token of short options, and whether it takes the token behind it. -/
def shortEvents (p : UcbArgParser) (next : Option (List UInt8)) : List UInt8 → List Event × Bool
  | [] => ([], false)
  | c :: more =>
      match findShort p c with
      | none => ([.fail (.invalidOption c)], false)
      | some (o, index) =>
          if optTakesValue o then
            if more ≠ [] then ([.apply o index (some more)], false)
            else
              match next with
              | some value => ([.apply o index (some value)], true)
              | none => ([.fail (.requiresArgument o.canon)], false)
          else
            let later := shortEvents p next more
            (.apply o index none :: later.1, later.2)

def tokenEvents (p : UcbArgParser) (noMore : Bool) (arg : List UInt8)
    (next : Option (List UInt8)) : List Event × Bool :=
  match tokenKind noMore arg with
  | .endOfOptions => ([], false)
  | .long =>
      let event := longEvent p (arg.drop 2) next
      ([event.1], event.2)
  | .short => shortEvents p next (arg.drop 1)
  | .positional => ([.positional arg], false)

def endsOptions (noMore : Bool) (arg : List UInt8) : Bool :=
  noMore || tokenKind noMore arg == .endOfOptions

def events (p : UcbArgParser) : (skip noMore : Bool) → List (List UInt8) → List Event
  | _, _, [] => []
  | true, noMore, _ :: rest => events p false noMore rest
  | false, noMore, arg :: rest =>
      let here := tokenEvents p noMore arg rest.head?
      here.1 ++ events p here.2 (endsOptions noMore arg) rest

/-! ## Carrying events out -/

def andThen (first : Exec (UcbArgStatus × ParseState))
    (next : ParseState → Exec (UcbArgStatus × ParseState)) : Exec (UcbArgStatus × ParseState) := do
  let (status, st) ← first
  if status = .ok then next st else pure (status, st)

def runEvent (libc : Libc) (p : UcbArgParser) (st : ParseState) :
    Event → Exec (UcbArgStatus × ParseState)
  | .apply o index value => applyOption libc p o index value st
  | .positional arg => do
      let st ← pushPositional arg st
      pure (.ok, st)
  | .fail err => pure (.error (some err), st)

/-- Carry events out until one ends parsing. -/
def runEvents (libc : Libc) (p : UcbArgParser) : List Event → ParseState →
    Exec (UcbArgStatus × ParseState)
  | [], st => pure (.ok, st)
  | event :: rest, st => andThen (runEvent libc p st event) (runEvents libc p rest)

theorem andThen_assoc (first : Exec (UcbArgStatus × ParseState))
    (next later : ParseState → Exec (UcbArgStatus × ParseState)) :
    andThen (andThen first next) later = andThen first fun st => andThen (next st) later := by
  cases first with
  | ok result =>
      obtain ⟨status, st⟩ := result
      by_cases ok : status = .ok
      · subst ok
        rfl
      · simp [andThen, ok]
  | abort code => rfl
  | undefined => rfl

theorem andThen_pure (first : Exec (UcbArgStatus × ParseState)) :
    andThen first (fun st => pure (.ok, st)) = first := by
  cases first with
  | ok result =>
      obtain ⟨status, st⟩ := result
      by_cases ok : status = .ok
      · subst ok
        rfl
      · simp [andThen, ok]
  | abort code => rfl
  | undefined => rfl

section Run

variable (libc : Libc) (p : UcbArgParser)

theorem runEvents_append (front back : List Event) :
    ∀ st, runEvents libc p (front ++ back) st =
      andThen (runEvents libc p front st) (runEvents libc p back) := by
  induction front with
  | nil => exact fun st => rfl
  | cons event rest inductionHypothesis =>
      intro st
      rw [List.cons_append, runEvents, runEvents, andThen_assoc]
      congr 1
      funext st
      exact inductionHypothesis st

theorem runEvents_single (event : Event) (st : ParseState) :
    runEvents libc p [event] st = runEvent libc p st event :=
  andThen_pure _

/-- The tail of a token's branch in the loop, which goes on with the flag of the result. -/
def continueWith (result : Exec (UcbArgStatus × ParseState × Bool))
    (next : Bool → ParseState → Exec (UcbArgStatus × ParseState)) :
    Exec (UcbArgStatus × ParseState) := do
  let (status, st, skip) ← result
  if status = .ok then next skip st else pure (status, st)

/-- Applying an option and then telling whether a token was taken. -/
theorem continueWith_apply (first : Exec (UcbArgStatus × ParseState)) (skip : Bool)
    (next : Bool → ParseState → Exec (UcbArgStatus × ParseState)) :
    continueWith (do
      let (status, st) ← first
      pure (status, st, skip)) next = andThen first (next skip) := by
  cases first with
  | ok result => rfl
  | abort code => rfl
  | undefined => rfl

theorem parseLong_eq (body : List UInt8) (following : Option (List UInt8)) (st : ParseState)
    (next : Bool → ParseState → Exec (UcbArgStatus × ParseState)) :
    continueWith (parseLong libc p body following st) next =
      andThen (runEvent libc p st (longEvent p body following).1)
        (next (longEvent p body following).2) := by
  simp only [parseLong, longEvent]
  cases findLong p (body.takeWhile (· ≠ equalsSign)) with
  | none => rfl
  | some entry =>
      obtain ⟨o, index⟩ := entry
      by_cases takes : optTakesValue o
      · simp only [takes, if_true]
        cases (body.dropWhile (· ≠ equalsSign)).tail? with
        | some value => exact continueWith_apply _ _ _
        | none =>
            cases following with
            | some value => exact continueWith_apply _ _ _
            | none => rfl
      · simp only [takes, Bool.false_eq_true, if_false]
        cases (body.dropWhile (· ≠ equalsSign)).tail? with
        | some value => rfl
        | none => exact continueWith_apply _ _ _

theorem parseShort_eq (following : Option (List UInt8)) (body : List UInt8)
    (next : Bool → ParseState → Exec (UcbArgStatus × ParseState)) :
    ∀ st, continueWith (parseShort libc p following body st) next =
      andThen (runEvents libc p (shortEvents p following body).1 st)
        (next (shortEvents p following body).2) := by
  induction body with
  | nil => exact fun st => rfl
  | cons c more inductionHypothesis =>
      intro st
      simp only [parseShort, shortEvents]
      cases findShort p c with
      | none => rfl
      | some entry =>
          obtain ⟨o, index⟩ := entry
          by_cases takes : optTakesValue o
          · simp only [takes, if_true]
            by_cases attached : more = []
            · simp only [attached, ne_eq, not_true_eq_false, if_false]
              cases following with
              | some value =>
                  dsimp only
                  rw [runEvents_single]
                  exact continueWith_apply _ _ _
              | none => rfl
            · simp only [attached, ne_eq, not_false_eq_true, if_true]
              rw [runEvents_single]
              exact continueWith_apply _ _ _
          · simp only [takes, Bool.false_eq_true, if_false]
            rw [runEvents, andThen_assoc, runEvent]
            cases applyOption libc p o index none st with
            | ok result =>
                obtain ⟨status, st'⟩ := result
                by_cases ok : status = .ok
                · subst ok
                  exact inductionHypothesis st'
                · simp [continueWith, andThen, ok]
            | abort code => rfl
            | undefined => rfl

theorem parseLoop_eq (tokens : List (List UInt8)) :
    ∀ skip noMore st, parseLoop libc p skip noMore st tokens =
      runEvents libc p (events p skip noMore tokens) st := by
  induction tokens with
  | nil =>
      intro skip noMore st
      cases skip with
      | false => rfl
      | true => rfl
  | cons arg rest inductionHypothesis =>
      intro skip noMore st
      cases skip with
      | true => exact inductionHypothesis false noMore st
      | false =>
          have goOn (skip : Bool) : (fun st => parseLoop libc p skip noMore st rest) =
              runEvents libc p (events p skip noMore rest) :=
            funext fun st => inductionHypothesis skip noMore st
          rw [events, runEvents_append, parseLoop, tokenEvents]
          cases kind : tokenKind noMore arg with
          | endOfOptions =>
              have ends : endsOptions noMore arg = true := by simp [endsOptions, kind]
              rw [ends]
              exact inductionHypothesis false true st
          | long =>
              have ends : endsOptions noMore arg = noMore := by simp [endsOptions, kind]
              dsimp only
              rw [ends, runEvents_single]
              have branch := parseLong_eq libc p (arg.drop 2) rest.head? st
                fun skip st => parseLoop libc p skip noMore st rest
              exact branch.trans (by rw [goOn])
          | short =>
              have ends : endsOptions noMore arg = noMore := by simp [endsOptions, kind]
              dsimp only
              rw [ends]
              have branch := parseShort_eq libc p rest.head? (arg.drop 1)
                (fun skip st => parseLoop libc p skip noMore st rest) st
              exact branch.trans (by rw [goOn])
          | positional =>
              have ends : endsOptions noMore arg = noMore := by simp [endsOptions, kind]
              dsimp only
              rw [ends, runEvents_single, runEvent]
              cases pushPositional arg st with
              | ok st' => exact inductionHypothesis false noMore st'
              | abort code => rfl
              | undefined => rfl

end Run

/-! ## Fronts of the tokens -/

/-- A token takes the one behind it for a value. -/
def wantsNext (p : UcbArgParser) (noMore : Bool) (arg : List UInt8) : Bool :=
  (tokenEvents p noMore arg (some [])).2

/-- How the scanner stands behind a front of the tokens: whether the next token is taken for a
value, and whether options are looked for no more. -/
def scanEnd (p : UcbArgParser) : (skip noMore : Bool) → List (List UInt8) → Bool × Bool
  | skip, noMore, [] => (skip, noMore)
  | true, noMore, _ :: rest => scanEnd p false noMore rest
  | false, noMore, arg :: rest =>
      scanEnd p (wantsNext p noMore arg) (endsOptions noMore arg) rest

theorem longEvent_next (p : UcbArgParser) (body : List UInt8) :
    (∀ value, (longEvent p body (some value)).2 = (longEvent p body (some [])).2) ∧
    ((longEvent p body (some [])).2 = false →
      ∀ next, longEvent p body next = longEvent p body (some [])) := by
  simp only [longEvent]
  cases findLong p (body.takeWhile (· ≠ equalsSign)) with
  | none => exact ⟨fun _ => rfl, fun _ _ => rfl⟩
  | some entry =>
      obtain ⟨o, index⟩ := entry
      by_cases takes : optTakesValue o
      · simp only [takes, if_true]
        cases (body.dropWhile (· ≠ equalsSign)).tail? with
        | some value => exact ⟨fun _ => rfl, fun _ _ => rfl⟩
        | none => exact ⟨fun _ => rfl, fun wants => by cases wants⟩
      · simp [takes]

theorem shortEvents_next (p : UcbArgParser) (body : List UInt8) :
    (∀ value, (shortEvents p (some value) body).2 = (shortEvents p (some []) body).2) ∧
    ((shortEvents p (some []) body).2 = false →
      ∀ next, shortEvents p next body = shortEvents p (some []) body) := by
  induction body with
  | nil => exact ⟨fun _ => rfl, fun _ _ => rfl⟩
  | cons c more inductionHypothesis =>
      obtain ⟨same, free⟩ := inductionHypothesis
      simp only [shortEvents]
      cases findShort p c with
      | none => exact ⟨fun _ => rfl, fun _ _ => rfl⟩
      | some entry =>
          obtain ⟨o, index⟩ := entry
          by_cases takes : optTakesValue o
          · simp only [takes, if_true]
            by_cases attached : more = []
            · simp only [attached, ne_eq, not_true_eq_false, if_false]
              exact ⟨fun _ => trivial, fun wants => by cases wants⟩
            · simp [attached]
          · simp only [takes, Bool.false_eq_true, if_false]
            exact ⟨same, fun wants next => by rw [free wants next]⟩

/-- Whether a token takes the next one does not depend on what that is, and a token that does
not has the same events before any other. -/
theorem tokenEvents_next (p : UcbArgParser) (noMore : Bool) (arg : List UInt8) :
    (∀ value, (tokenEvents p noMore arg (some value)).2 = wantsNext p noMore arg) ∧
    (wantsNext p noMore arg = false →
      ∀ next, tokenEvents p noMore arg next = tokenEvents p noMore arg (some [])) := by
  unfold wantsNext tokenEvents
  cases tokenKind noMore arg with
  | endOfOptions => exact ⟨fun _ => rfl, fun _ _ => rfl⟩
  | positional => exact ⟨fun _ => rfl, fun _ _ => rfl⟩
  | short => exact shortEvents_next p (arg.drop 1)
  | long =>
      obtain ⟨same, free⟩ := longEvent_next p (arg.drop 2)
      exact ⟨same, fun wants next => by rw [free wants next]⟩

/-- A front that ends between two options is read on its own. -/
theorem events_append (p : UcbArgParser) (front rest : List (List UInt8)) :
    ∀ skip noMore after, scanEnd p skip noMore front = (false, after) →
      events p skip noMore (front ++ rest) =
        events p skip noMore front ++ events p false after rest := by
  induction front with
  | nil =>
      intro skip noMore after ends
      obtain ⟨rfl, rfl⟩ := Prod.mk.inj ends
      rfl
  | cons arg front inductionHypothesis =>
      intro skip noMore after ends
      cases skip with
      | true => exact inductionHypothesis false noMore after ends
      | false =>
          rw [scanEnd] at ends
          obtain ⟨same, free⟩ := tokenEvents_next p noMore arg
          have here : tokenEvents p noMore arg (front ++ rest).head? =
              tokenEvents p noMore arg front.head? := by
            cases front with
            | nil =>
                have stops : wantsNext p noMore arg = false := (Prod.mk.inj ends).1
                exact (free stops _).trans (free stops none).symm
            | cons next front => rfl
          have wants : (tokenEvents p noMore arg front.head?).2 = wantsNext p noMore arg ∨
              front = [] := by
            cases front with
            | nil => exact .inr rfl
            | cons next front => exact .inl (same next)
          rw [List.cons_append, events, events, here, List.append_assoc]
          congr 1
          rcases wants with wants | rfl
          · rw [wants]
            exact inductionHypothesis _ _ after ends
          · obtain ⟨stops, ends⟩ := Prod.mk.inj ends
            rw [List.head?_nil, free stops, ← wantsNext, stops, ends]
            rfl

end Ucb.Argparse
