import Mathlib.Data.List.TakeWhile
import Ucb.Argparse.Declared

/-!
Contract: the ways to spell an option on the command line.

Owns:
- the names that the scanner can tell from something else;
- that all spellings of an option with them are the same to parsing;
- flags in one token and in tokens of their own.

A short name that is a digit or `.` looks like a negative number, `-` ends the
options, and a long name ends at its first `=`. Options with such names can be
declared.
-/

namespace Ucb.Argparse

/-! ## Names and spellings -/

/-- A short name that makes a token of options behind a `-`. -/
def ShortFits (c : UInt8) : Prop :=
  c ≠ 0 ∧ c ≠ dash ∧ isDigit c = false ∧ c ≠ 0x2E

instance (c : UInt8) : Decidable (ShortFits c) := by
  unfold ShortFits
  infer_instance

/-- A long name that can be read up to a `=` or the end of a token. -/
def LongFits (name : List UInt8) : Prop :=
  name ≠ [] ∧ equalsSign ∉ name

/-- The tokens that give an option its value, or that give a flag. -/
inductive Spells (o : UcbArgOptImpl) : Option (List UInt8) → List (List UInt8) → Prop
  | longEquals (takes : optTakesValue o = true) (fits : LongFits o.longName)
      (value : List UInt8) :
      Spells o (some value) [dash :: dash :: (o.longName ++ equalsSign :: value)]
  | longNext (takes : optTakesValue o = true) (fits : LongFits o.longName) (value : List UInt8) :
      Spells o (some value) [dash :: dash :: o.longName, value]
  | shortNext (takes : optTakesValue o = true) (fits : ShortFits o.shortName)
      (value : List UInt8) : Spells o (some value) [[dash, o.shortName], value]
  | shortAttached (takes : optTakesValue o = true) (fits : ShortFits o.shortName)
      {value : List UInt8} (nonempty : value ≠ []) :
      Spells o (some value) [dash :: o.shortName :: value]
  | longFlag (flag : optTakesValue o = false) (fits : LongFits o.longName) :
      Spells o none [dash :: dash :: o.longName]
  | shortFlag (flag : optTakesValue o = false) (fits : ShortFits o.shortName) :
      Spells o none [[dash, o.shortName]]

/-! ## Tokens -/

theorem tokenKind_long {body : List UInt8} (nonempty : body ≠ []) :
    tokenKind false (dash :: dash :: body) = .long := by
  cases body with
  | nil => exact absurd rfl nonempty
  | cons c rest => simp [tokenKind]

theorem tokenKind_short {c : UInt8} (fits : ShortFits c) (more : List UInt8) :
    tokenKind false (dash :: c :: more) = .short := by
  obtain ⟨-, notDash, notDigit, notPoint⟩ := fits
  simp [tokenKind, isNegativeNumber, notDash, notDigit, notPoint]

theorem endsOptions_of_kind {arg : List UInt8} {kind : TokenKind}
    (same : tokenKind false arg = kind) (other : kind ≠ .endOfOptions) :
    endsOptions false arg = false := by
  simp [endsOptions, same, other]

theorem name_no_equals {name : List UInt8} (fits : LongFits name) :
    ∀ c ∈ name, decide (c ≠ equalsSign) = true := by
  intro c member
  have other : c ≠ equalsSign := fun same => fits.2 (same ▸ member)
  exact decide_eq_true other

section Events

variable {p : UcbArgParser} (declared : Declared p) {i : Nat} {o : UcbArgOptImpl}
  (present : p.opts[i]? = some o)
include declared present

theorem longEvent_equals (takes : optTakesValue o = true) (fits : LongFits o.longName)
    (value : List UInt8) (next : Option (List UInt8)) :
    longEvent p (o.longName ++ equalsSign :: value) next = (.apply o i (some value), false) := by
  have other := name_no_equals fits
  have name : (o.longName ++ equalsSign :: value).takeWhile (· ≠ equalsSign) = o.longName := by
    rw [List.takeWhile_append_of_pos other]
    simp
  have behind : (o.longName ++ equalsSign :: value).dropWhile (· ≠ equalsSign) =
      equalsSign :: value := by
    rw [List.dropWhile_append_of_pos other]
    simp
  simp only [longEvent, name, behind, declared.findLong present fits.1, takes, List.tail?_cons,
    if_true]

theorem longEvent_name (fits : LongFits o.longName) (next : Option (List UInt8)) :
    longEvent p o.longName next =
      if optTakesValue o then
        match next with
        | some value => (.apply o i (some value), true)
        | none => (.fail (.requiresArgument o.canon), false)
      else (.apply o i none, false) := by
  have other := name_no_equals fits
  have name : o.longName.takeWhile (· ≠ equalsSign) = o.longName :=
    List.takeWhile_eq_self_iff.mpr other
  have behind : o.longName.dropWhile (· ≠ equalsSign) = [] :=
    List.dropWhile_eq_nil_iff.mpr other
  cases next <;>
    simp only [longEvent, name, behind, declared.findLong present fits.1, List.tail?_nil,
      Option.isSome_none, Bool.false_eq_true, if_false]

theorem events_spelled {value : Option (List UInt8)} {tokens : List (List UInt8)}
    (spells : Spells o value tokens) (rest : List (List UInt8)) :
    events p false false (tokens ++ rest) = .apply o i value :: events p false false rest := by
  cases spells with
  | longEquals takes fits value =>
      have kind := tokenKind_long (show o.longName ++ equalsSign :: value ≠ [] by simp)
      rw [List.singleton_append, events, tokenEvents, kind,
        endsOptions_of_kind kind TokenKind.noConfusion]
      simp [longEvent_equals declared present takes fits]
  | longNext takes fits value =>
      have kind := tokenKind_long fits.1
      rw [List.cons_append, events, tokenEvents, kind,
        endsOptions_of_kind kind TokenKind.noConfusion]
      simp [longEvent_name declared present fits, takes, events]
  | shortNext takes fits value =>
      have kind := tokenKind_short fits []
      rw [List.cons_append, events, tokenEvents, kind,
        endsOptions_of_kind kind TokenKind.noConfusion]
      simp [shortEvents, declared.findShort present fits.1, takes, events]
  | shortAttached takes fits nonempty =>
      have kind := tokenKind_short fits ‹List UInt8›
      rw [List.singleton_append, events, tokenEvents, kind,
        endsOptions_of_kind kind TokenKind.noConfusion]
      simp [shortEvents, declared.findShort present fits.1, takes, nonempty]
  | longFlag flag fits =>
      have kind := tokenKind_long fits.1
      rw [List.singleton_append, events, tokenEvents, kind,
        endsOptions_of_kind kind TokenKind.noConfusion]
      simp [longEvent_name declared present fits, flag]
  | shortFlag flag fits =>
      have kind := tokenKind_short fits []
      rw [List.singleton_append, events, tokenEvents, kind,
        endsOptions_of_kind kind TokenKind.noConfusion]
      simp [shortEvents, declared.findShort present fits.1, flag]

/-- A flag in front of other short options is an event of its own. -/
theorem events_flag (flag : optTakesValue o = false) (fits : ShortFits o.shortName)
    {body : List UInt8} (nonempty : body ≠ []) (begins : ∀ c ∈ body.head?, ShortFits c)
    (rest : List (List UInt8)) :
    events p false false ((dash :: o.shortName :: body) :: rest) =
      .apply o i none :: events p false false ((dash :: body) :: rest) := by
  obtain ⟨c, more, rfl⟩ := List.exists_cons_of_ne_nil nonempty
  have kind := tokenKind_short fits (c :: more)
  have kind' := tokenKind_short (begins c rfl) more
  rw [events, events, tokenEvents, tokenEvents, kind, kind',
    endsOptions_of_kind kind TokenKind.noConfusion, endsOptions_of_kind kind' TokenKind.noConfusion]
  simp [shortEvents, declared.findShort present fits.1, flag]

end Events

/-! ## Parsing spellings -/

/-- A front after which the scanner looks for the next option: its last option has its value,
and no `--` has ended the options. -/
def AtOption (p : UcbArgParser) (front : List (List UInt8)) : Prop :=
  scanEnd p false false front = (false, false)

instance (p : UcbArgParser) (front : List (List UInt8)) : Decidable (AtOption p front) := by
  unfold AtOption
  infer_instance

theorem parse_congr (libc : Libc) {p : UcbArgParser} {front : List (List UInt8)}
    (atOption : AtOption p front) {tokens tokens' : List (List UInt8)}
    (same : events p false false tokens = events p false false tokens') (program : List UInt8)
    (st : ParseState) :
    ucbArgParserParse libc p (program :: (front ++ tokens)) st =
      ucbArgParserParse libc p (program :: (front ++ tokens')) st := by
  have loop (st : ParseState) : parseLoop libc p false false st (front ++ tokens) =
      parseLoop libc p false false st (front ++ tokens') := by
    rw [parseLoop_eq, parseLoop_eq, events_append p front tokens _ _ _ atOption,
      events_append p front tokens' _ _ _ atOption, same]
  simp only [ucbArgParserParse, List.drop_succ_cons, List.drop_zero, loop]

/-- A flag that can stand in a token with others, at its place in the table. -/
def IsFlag (p : UcbArgParser) (o : UcbArgOptImpl) : Prop :=
  o ∈ p.opts ∧ optTakesValue o = false ∧ ShortFits o.shortName

/-- Flags in one token, with other options behind them, are the flags in tokens of their own. -/
theorem events_bundle {p : UcbArgParser} (declared : Declared p) {flags : List UcbArgOptImpl}
    (isFlag : ∀ o ∈ flags, IsFlag p o) {body : List UInt8} (nonempty : body ≠ [])
    (begins : ∀ c ∈ body.head?, ShortFits c) (rest : List (List UInt8)) :
    events p false false ((dash :: (flags.map UcbArgOptImpl.shortName ++ body)) :: rest) =
      events p false false
        (flags.map (fun o => [dash, o.shortName]) ++ (dash :: body) :: rest) := by
  induction flags with
  | nil => rfl
  | cons o flags inductionHypothesis =>
      obtain ⟨member, flag, fits⟩ := isFlag o List.mem_cons_self
      obtain ⟨i, present⟩ := List.mem_iff_getElem?.mp member
      have later := inductionHypothesis fun other found =>
        isFlag other (List.mem_cons_of_mem _ found)
      have single := events_spelled declared present (.shortFlag flag fits)
        (flags.map (fun o => [dash, o.shortName]) ++ (dash :: body) :: rest)
      rw [List.map_cons, List.map_cons, List.cons_append, List.cons_append,
        events_flag declared present flag fits (by simp [nonempty]) _ rest, later]
      · exact single.symm
      · cases flags with
        | nil => exact begins
        | cons next flags =>
            intro c found
            obtain rfl := Option.some.inj found
            exact (isFlag next (List.mem_cons_of_mem _ List.mem_cons_self)).2.2

/-- The spellings of an option with names that the scanner can tell are interchangeable, flags
can be put in one token with what is behind them, and each spelling selects the option. -/
theorem spellings_equivalent (libc : Libc) {p : UcbArgParser} (built : Built p)
    {front : List (List UInt8)} (atOption : AtOption p front) (program : List UInt8)
    (rest : List (List UInt8)) (st : ParseState) :
    (∀ (i : Nat) (o : UcbArgOptImpl), p.opts[i]? = some o → ∀ value tokens tokens',
      Spells o value tokens →
      Spells o value tokens' →
        ucbArgParserParse libc p (program :: (front ++ (tokens ++ rest))) st =
          ucbArgParserParse libc p (program :: (front ++ (tokens' ++ rest))) st) ∧
    (∀ flags : List UcbArgOptImpl, (∀ o ∈ flags, IsFlag p o) → ∀ body : List UInt8, body ≠ [] →
      (∀ c ∈ body.head?, ShortFits c) →
      ucbArgParserParse libc p (program :: (front ++
          (dash :: (flags.map UcbArgOptImpl.shortName ++ body)) :: rest)) st =
        ucbArgParserParse libc p (program :: (front ++
          (flags.map (fun o => [dash, o.shortName]) ++ (dash :: body) :: rest))) st) ∧
    (∀ (i : Nat) (o : UcbArgOptImpl), p.opts[i]? = some o → ∀ value tokens,
      Spells o value tokens →
      parseLoop libc p false false st (front ++ (tokens ++ rest)) =
        andThen (parseLoop libc p false false st front) fun st =>
          andThen (applyOption libc p o i value st) fun st =>
            parseLoop libc p false false st rest) := by
  have declared := built.declared
  refine ⟨?_, ?_, ?_⟩
  · intro i o present value tokens tokens' spells spells'
    apply parse_congr libc atOption
    rw [events_spelled declared present spells, events_spelled declared present spells']
  · intro flags isFlag body nonempty begins
    exact parse_congr libc atOption (events_bundle declared isFlag nonempty begins rest) program st
  · intro i o present value tokens spells
    simp only [parseLoop_eq]
    rw [events_append p front _ _ _ _ atOption, runEvents_append,
      events_spelled declared present spells]
    rfl

def flagOpt (short : UInt8) (long : List UInt8) : UcbArgOpt :=
  ⟨some [0x66], short, some long, .none, .storeTrue, some 0, none, none, none, none, 0, false⟩

/-- A descriptor of a string option with a short and a long name. -/
def strOpt (short : UInt8) (long : List UInt8) : UcbArgOpt :=
  ⟨some [0x73], short, some long, .str, .store, some 1, none, none, none, none, 0, false⟩

def boolAndStr : ParseState :=
  ⟨fun ptr => if ptr = 0 then some (.bool false) else if ptr = 1 then some (.str []) else none,
    fun _ => false, some []⟩

/-- The C library where nothing is a floating-point number. -/
def noFloats : Libc :=
  ⟨fun _ => ⟨0, 0, false⟩, fun _ => ⟨0, 0, false⟩⟩

/-- A flag and a string option whose names can be told. -/
def flagAndStr : List UcbArgOpt :=
  [flagOpt 0x66 [0x66, 0x67], strOpt 0x73 [0x73, 0x74]]

/-- What parsing gives: the status, both destinations and the positional arguments. -/
def parsed (opts : List UcbArgOpt) (argv : List (List UInt8)) :
    Exec (UcbArgStatus × Option DestCell × Option DestCell × Option (List (List UInt8))) := do
  let p ← ucbArgParserAddOptions (ucbArgParserNew []) opts
  let (status, st) ← ucbArgParserParse noFloats p argv boolAndStr
  pure (status, st.memory 0, st.memory 1, st.positionals)

def flagAndStrParser : UcbArgParser :=
  match ucbArgParserAddOptions (ucbArgParserNew []) flagAndStr with
  | .ok p => p
  | _ => ucbArgParserNew []

/-- `-sx` and `--st=x` parse the same. -/
theorem spellings_equivalent_flagAndStr :
    ∃ o, flagAndStrParser.opts[1]? = some o ∧
      ucbArgParserParse noFloats flagAndStrParser ([0x70] :: ([] ++ ([[dash, 0x73, 0x78]] ++ [])))
          boolAndStr =
        ucbArgParserParse noFloats flagAndStrParser
          ([0x70] :: ([] ++ ([[dash, dash, 0x73, 0x74, equalsSign, 0x78]] ++ []))) boolAndStr := by
  have built : Built flagAndStrParser := ⟨[], flagAndStr, rfl⟩
  have atOption : AtOption flagAndStrParser [] := rfl
  refine ⟨_, rfl, ?_⟩
  apply (spellings_equivalent noFloats built atOption [0x70] [] boolAndStr).1 1 _ rfl (some [0x78])
  · exact .shortAttached rfl (by decide) (by decide)
  · have fits : LongFits [0x73, 0x74] := ⟨by decide, by decide⟩
    exact .longEquals rfl fits [0x78]

/-- Names that `ucb_arg_parser_add` accepts and the scanner does not tell: a digit, a point and a
dash as short name, a long name with an equals sign. Where the option before waits for its value,
one token and two tokens differ as well. -/
theorem spellings_differ :
    parsed [flagOpt 0x35 [0x66]] [[0x70], [dash, 0x35]] ≠
        parsed [flagOpt 0x35 [0x66]] [[0x70], [dash, dash, 0x66]] ∧
      parsed [flagOpt 0x2E [0x66]] [[0x70], [dash, 0x2E]] ≠
        parsed [flagOpt 0x2E [0x66]] [[0x70], [dash, dash, 0x66]] ∧
      parsed [flagOpt dash [0x66]] [[0x70], [dash, dash]] ≠
        parsed [flagOpt dash [0x66]] [[0x70], [dash, dash, 0x66]] ∧
      parsed [flagOpt 0x66 [0x61, equalsSign, 0x62]]
          [[0x70], [dash, dash, 0x61, equalsSign, 0x62]] ≠
        parsed [flagOpt 0x66 [0x61, equalsSign, 0x62]] [[0x70], [dash, 0x66]] ∧
      parsed flagAndStr [[0x70], [dash, 0x73], [dash, dash, 0x73, 0x74, equalsSign, 0x78]] ≠
        parsed flagAndStr [[0x70], [dash, 0x73], [dash, dash, 0x73, 0x74], [0x78]] := by
  refine ⟨fun same => ?_, fun same => ?_, fun same => ?_, fun same => ?_, fun same => ?_⟩
  all_goals cases same

end Ucb.Argparse
