import Ucb.Argparse.Destinations
import Ucb.Argparse.Spellings

/-!
Contract: a parse depends on the parser and the command line only.

Owns:
- the verdict of a whole parse and what a successful one leaves;
- memories with a destination for every option;
- that a parse is right for every memory exactly when no counter has to go beyond
  `INT_MAX`.
-/

namespace Ucb.Argparse

/-! ## Required options -/

theorem requiredLoop_congr {seen seen' : Nat → Bool} {entries : List (UcbArgOptImpl × Nat)}
    (same : ∀ e ∈ entries, seen e.2 = seen' e.2) :
    requiredLoop seen entries = requiredLoop seen' entries := by
  induction entries with
  | nil => rfl
  | cons entry rest inductionHypothesis =>
      obtain ⟨o, index⟩ := entry
      have later := inductionHypothesis fun e member => same e (List.mem_cons_of_mem _ member)
      simp only [requiredLoop, same _ List.mem_cons_self, later]

theorem requiredLoop_ok {seen : Nat → Bool} {entries : List (UcbArgOptImpl × Nat)}
    (passed : requiredLoop seen entries = .ok) :
    ∀ e ∈ entries, e.1.required = true → seen e.2 = true := by
  induction entries with
  | nil => exact fun e member => by cases member
  | cons entry rest inductionHypothesis =>
      obtain ⟨o, index⟩ := entry
      rw [requiredLoop] at passed
      split at passed
      · cases passed
      next present =>
        intro e member required
        rcases List.mem_cons.mp member with rfl | later
        · by_contra unseen
          exact present ⟨required, unseen⟩
        · exact inductionHypothesis passed e later required

/-! ## Whole parses -/

def commandEvents (p : UcbArgParser) (argv : List (List UInt8)) : List Event :=
  events p false false (argv.drop 1)

/-- The status of a parse, from the parser and the command line. -/
def parseVerdict (libc : Libc) (p : UcbArgParser) (argv : List (List UInt8)) (keep : Bool) :
    Exec UcbArgStatus := do
  let status ← defaultVerdicts libc p.opts
  if status = .ok then do
    let status ← verdicts libc p keep (commandEvents p argv)
    if status = .ok then
      pure (requiredLoop (fun i => !(occurrences i (commandEvents p argv)).isEmpty) p.opts.zipIdx)
    else pure status
  else pure status

/-- No counter with a valid default occurs so often before parsing ends that it would have to go
beyond `INT_MAX`. -/
def NoOverflow (libc : Libc) (p : UcbArgParser) (argv : List (List UInt8)) (keep : Bool) : Prop :=
  defaultVerdicts libc p.opts = .ok .ok →
    Counts libc p (performed libc p keep (commandEvents p argv))

/-- What a successful parse leaves: every destination has the content that the occurrences of
its option give, the positional arguments are behind the given ones, and every required option
occurred. -/
structure Parsed (libc : Libc) (p : UcbArgParser) (argv : List (List UInt8))
    (given : Option (List (List UInt8))) (st : ParseState) : Prop where
  dest : ∀ (i : Nat) (o : UcbArgOptImpl), p.opts[i]? = some o → (destType o).isSome →
    (o.dest.bind st.memory).isSome ∧
      o.dest.bind st.memory = expectedCell libc o (occurrences i (commandEvents p argv))
  positionals : st.positionals = given.map (· ++ positionalArgs (commandEvents p argv))
  required : ∀ (i : Nat) (o : UcbArgOptImpl), p.opts[i]? = some o → o.required = true →
    occurrences i (commandEvents p argv) ≠ []

/-- A parse that is right: from every memory it is defined, its status is the same, and it leaves
what it should where it succeeds. Behind the first `--` that is not a value all tokens are
positional. -/
structure ParsesRight (libc : Libc) (p : UcbArgParser) (argv : List (List UInt8))
    (given : Option (List (List UInt8))) : Prop where
  defined : ∀ memory seen, Typed p memory →
    ucbArgParserParse libc p argv ⟨memory, seen, given⟩ ≠ .undefined
  status : ∀ memory seen memory' seen', Typed p memory → Typed p memory' →
    statusOf (ucbArgParserParse libc p argv ⟨memory, seen, given⟩) =
      statusOf (ucbArgParserParse libc p argv ⟨memory', seen', given⟩)
  parsed : ∀ memory seen st, Typed p memory →
    ucbArgParserParse libc p argv ⟨memory, seen, given⟩ = .ok (.ok, st) →
    Parsed libc p argv given st
  endOfOptions : ∀ front rest, argv.drop 1 = front ++ [dash, dash] :: rest →
    scanEnd p false false front = (false, false) →
    commandEvents p argv = events p false false front ++ rest.map .positional

/-- Behind the end of the options all tokens are positional. -/
theorem events_noMore (p : UcbArgParser) (tokens : List (List UInt8)) :
    events p false true tokens = tokens.map .positional := by
  induction tokens with
  | nil => rfl
  | cons arg rest inductionHypothesis =>
      have kind : tokenKind true arg = .positional := by simp [tokenKind]
      have ends : endsOptions true arg = true := rfl
      rw [events, tokenEvents, kind, ends, List.map_cons, ← inductionHypothesis]
      rfl

theorem events_endOfOptions (p : UcbArgParser) {front : List (List UInt8)}
    (atOption : scanEnd p false false front = (false, false)) (rest : List (List UInt8)) :
    events p false false (front ++ [dash, dash] :: rest) =
      events p false false front ++ rest.map .positional := by
  rw [events_append p front _ _ _ _ atOption, ← events_noMore p rest]
  rfl

section Parse

variable {libc : Libc} {p : UcbArgParser} (fits : ∀ o ∈ p.opts, Fits o) (distinct : Distinct p)
  {argv : List (List UInt8)} {given : Option (List (List UInt8))}

include fits distinct

/-- While no counter overflows, a parse has the verdict of the command line and leaves what it
should. -/
theorem parse_right (noOverflow : NoOverflow libc p argv given.isSome) {memory : DestMemory}
    (typed : Typed p memory) (seen : Nat → Bool) :
    statusOf (ucbArgParserParse libc p argv ⟨memory, seen, given⟩) =
      parseVerdict libc p argv given.isSome ∧
    ucbArgParserParse libc p argv ⟨memory, seen, given⟩ ≠ .undefined ∧
    ∀ st, ucbArgParserParse libc p argv ⟨memory, seen, given⟩ = .ok (.ok, st) →
      Parsed libc p argv given st := by
  let st : ParseState := ⟨memory, seen, given⟩
  have typed : Typed p st.memory := typed
  obtain ⟨status, defined, initialized⟩ := initLoop_after libc fits distinct typed
  rw [ucbArgParserParse, parseVerdict, ← status]
  cases init : initLoop libc p.opts.zipIdx ⟨memory, seen, given⟩ with
  | undefined => exact absurd init defined
  | abort code => exact ⟨rfl, fun same => (by cases same), fun st same => (by cases same)⟩
  | ok result =>
      obtain ⟨outcome, st⟩ := result
      by_cases ok : outcome = .ok
      · subst ok
        have counts := noOverflow (by rw [← status, init]; rfl)
        obtain ⟨verdict, defined, after⟩ := runEvents_right distinct (commandEvents p argv) [] st
          (initialized st init) (events_wellFormed p _ _ _) counts
        simp only [Exec.ok_bind, statusOf_ok, if_true, parseLoop_eq]
        rw [← verdict]
        unfold commandEvents at after defined ⊢
        cases ran : runEvents libc p (events p false false (argv.drop 1)) st with
        | undefined => exact absurd ran defined
        | abort code => exact ⟨rfl, fun same => (by cases same), fun st same => (by cases same)⟩
        | ok result =>
            obtain ⟨outcome, last⟩ := result
            by_cases ok : outcome = .ok
            · subst ok
              obtain ⟨holds, positionals⟩ := after last ran
              have required : requiredLoop last.seen p.opts.zipIdx = requiredLoop
                  (fun i => !(occurrences i (events p false false (argv.drop 1))).isEmpty)
                  p.opts.zipIdx := by
                apply requiredLoop_congr
                intro e member
                exact (holds e.2 e.1 (List.mem_zipIdx_iff_getElem?.mp member)).seen
              simp only [Exec.ok_bind, statusOf_ok, if_true, Exec.pure_eq_ok, required]
              refine ⟨trivial, fun same => (by cases same), ?_⟩
              intro st' same
              obtain ⟨passed, rfl⟩ := Prod.mk.inj (Exec.ok.inj same)
              constructor
              · intro i o present needs
                obtain ⟨type, needs⟩ := Option.isSome_iff_exists.mp needs
                obtain ⟨cell, there, -, expected⟩ := (holds i o present).dest type needs
                exact ⟨by rw [there]; rfl, there.trans expected.symm⟩
              · exact positionals
              · intro i o present required never
                have occurs := requiredLoop_ok passed (o, i)
                  (List.mem_zipIdx_iff_getElem?.mpr present) required
                unfold commandEvents at never
                dsimp only at occurs
                rw [never] at occurs
                cases occurs
            · simp only [Exec.ok_bind, statusOf_ok, if_neg ok, Exec.pure_eq_ok]
              refine ⟨trivial, fun same => (by cases same), ?_⟩
              intro st' same
              exact absurd (Prod.mk.inj (Exec.ok.inj same)).1 ok
      · simp only [Exec.ok_bind, statusOf_ok, if_neg ok, Exec.pure_eq_ok]
        refine ⟨trivial, fun same => (by cases same), ?_⟩
        intro st' same
        exact absurd (Prod.mk.inj (Exec.ok.inj same)).1 ok

end Parse

/-! ## Memories -/

def cellOf : UcbArgType → DestCell
  | .bool => .bool false
  | .str => .str []
  | .int => .int 0
  | .uint => .uint 0
  | .long => .long 0
  | .ulong => .ulong 0
  | .llong => .llong 0
  | .ullong => .ullong 0
  | .size => .size 0
  | .float => .float 0
  | .double => .double 0
  | .none => .strVector []

@[simp] theorem cellOf_type (type : UcbArgType) : (cellOf type).type = type := by
  cases type <;> rfl

def freshMemory (p : UcbArgParser) : DestMemory := fun ptr =>
  (p.opts.find? fun o => decide (o.dest = some ptr) && (destType o).isSome).bind fun o =>
    (destType o).map cellOf

/-- Options that need a destination have one. -/
theorem Fits.dest {o : UcbArgOptImpl} (fits : Fits o) (needs : (destType o).isSome) :
    o.dest.isSome := by
  unfold Fits at fits
  unfold destType at needs
  cases action : o.action with
  | store =>
      rw [action] at fits
      exact fits.2
  | storeTrue | storeFalse | count | append =>
      rw [action] at fits
      exact fits
  | help | version =>
      rw [action] at needs
      cases needs

theorem freshMemory_typed {p : UcbArgParser} (fits : ∀ o ∈ p.opts, Fits o)
    (distinct : Distinct p) : Typed p (freshMemory p) := by
  intro o member type needs
  have needsSome : (destType o).isSome := by simp [needs]
  obtain ⟨ptr, dest⟩ := Option.isSome_iff_exists.mp ((fits o member).dest needsSome)
  have found : (p.opts.find? fun o =>
      decide (o.dest = some ptr) && (destType o).isSome).isSome :=
    List.find?_isSome.mpr ⟨o, member, by simp [dest, needsSome]⟩
  obtain ⟨other, first⟩ := Option.isSome_iff_exists.mp found
  obtain ⟨i, here⟩ := List.mem_iff_getElem?.mp member
  obtain ⟨j, there⟩ := List.mem_iff_getElem?.mp (List.mem_of_find?_eq_some first)
  have test := List.find?_some first
  simp only [Bool.and_eq_true, decide_eq_true_eq] at test
  obtain rfl := distinct i j o other here there needsSome test.2 (test.1.trans dest.symm)
  obtain rfl := Option.some.inj (here.symm.trans there)
  refine ⟨ptr, dest, ?_⟩
  rw [freshMemory, first, Option.bind_some, needs]
  simp

/-! ## When a parse is right -/

/-- A valid default is within the bounds of a counter. -/
theorem counts_nil (libc : Libc) (p : UcbArgParser) : Counts libc p [] := by
  intro i o start present action isStart
  have default : defaultCell libc o = countDefault o := by simp [defaultCell, action]
  rw [startCell, default, countDefault] at isStart
  have bounded : start ≤ intMax := by
    cases text : o.default with
    | none =>
        rw [text] at isStart
        obtain rfl := DestCell.int.inj (Option.some.inj isStart)
        decide
    | some text' =>
        rw [text] at isStart
        dsimp only at isStart
        split at isStart
        · cases isStart
        next x number =>
          obtain rfl := DestCell.int.inj (Option.some.inj isStart)
          have inside := (Option.filter_eq_some_iff.mp number).2
          simp only [not_or, not_lt, Bool.decide_and, Bool.and_eq_true, decide_eq_true_eq] at inside
          exact inside.2
  simpa [occurrences] using bounded

theorem parse_undefined {libc : Libc} {p : UcbArgParser} (fits : ∀ o ∈ p.opts, Fits o)
    (distinct : Distinct p) {argv : List (List UInt8)} {given : Option (List (List UInt8))}
    (overflow : ¬ NoOverflow libc p argv given.isSome) {memory : DestMemory}
    (typed : Typed p memory) (seen : Nat → Bool) :
    ucbArgParserParse libc p argv ⟨memory, seen, given⟩ = .undefined := by
  let st : ParseState := ⟨memory, seen, given⟩
  have typed : Typed p st.memory := typed
  obtain ⟨defaultsOk, beyond⟩ := Classical.not_imp.mp overflow
  obtain ⟨status, -, initialized⟩ := initLoop_after libc fits distinct typed
  rw [defaultsOk] at status
  obtain ⟨⟨outcome, after⟩, init, rfl⟩ := Exec.map_eq_ok status
  have counts : Counts libc p [] := counts_nil libc p
  have ran := runEvents_undefined distinct (commandEvents p argv) [] after (initialized after init)
    (events_wellFormed p _ _ _) counts beyond
  have init : initLoop libc p.opts.zipIdx ⟨memory, seen, given⟩ = .ok (.ok, after) := init
  rw [ucbArgParserParse, init]
  simp only [Exec.ok_bind, if_true, parseLoop_eq]
  rw [← commandEvents, ran]
  rfl

/-- A parse is right for every memory exactly when no counter has to go beyond its bound. -/
theorem parsesRight_iff (libc : Libc) {p : UcbArgParser} (built : Built p) (distinct : Distinct p)
    (argv : List (List UInt8)) (given : Option (List (List UInt8))) :
    ParsesRight libc p argv given ↔ NoOverflow libc p argv given.isSome := by
  have fits := built.declared.fits
  constructor
  · intro right
    by_contra overflow
    exact right.defined (freshMemory p) (fun _ => false) (freshMemory_typed fits distinct)
      (parse_undefined fits distinct overflow (freshMemory_typed fits distinct) _)
  · intro noOverflow
    constructor
    · intro memory seen typed
      exact (parse_right fits distinct noOverflow typed seen).2.1
    · intro memory seen memory' seen' typed typed'
      rw [(parse_right fits distinct noOverflow typed seen).1,
        (parse_right fits distinct noOverflow typed' seen').1]
    · intro memory seen st typed
      exact (parse_right fits distinct noOverflow typed seen).2.2 st
    · intro front rest split atOption
      rw [commandEvents, split]
      exact events_endOfOptions p atOption rest

def countOpt (default : List UInt8) : UcbArgOpt :=
  ⟨some [0x76], 0x76, none, .none, .count, some 0, some default, none, none, none, 0, false⟩

def countParser (default : List UInt8) : UcbArgParser :=
  match ucbArgParserAddOptions (ucbArgParserNew []) [countOpt default] with
  | .ok p => p
  | _ => ucbArgParserNew []

theorem countParser_distinct {default : List UInt8} {o : UcbArgOptImpl}
    (single : (countParser default).opts = [o]) : Distinct (countParser default) := by
  intro i j first second here there
  rw [single] at here there
  have inside : i < 1 := (List.getElem?_eq_some_iff.mp here).1
  have inside' : j < 1 := (List.getElem?_eq_some_iff.mp there).1
  omega

/-- A counter that starts two below its bound. -/
theorem parsesRight_iff_countParser :
    ParsesRight noFloats (countParser (ascii "2147483645")) [[0x70], [dash, 0x76, 0x76]] none ↔
      NoOverflow noFloats (countParser (ascii "2147483645")) [[0x70], [dash, 0x76, 0x76]]
        false := by
  have built : Built (countParser (ascii "2147483645")) :=
    ⟨[], [countOpt (ascii "2147483645")], rfl⟩
  exact parsesRight_iff noFloats built (countParser_distinct rfl) _ none

/-- A counter at its bound cannot occur: the parse is undefined. -/
theorem count_overflows :
    Built (countParser (ascii "2147483647")) ∧ Distinct (countParser (ascii "2147483647")) ∧
      ¬ ParsesRight noFloats (countParser (ascii "2147483647")) [[0x70], [dash, 0x76]] none := by
  refine ⟨⟨[], [countOpt (ascii "2147483647")], rfl⟩, countParser_distinct rfl, ?_⟩
  intro right
  have typed : Typed (countParser (ascii "2147483647")) fun _ => some (.int 0) := by
    intro o member type needs
    obtain rfl := List.mem_singleton.mp member
    obtain rfl := Option.some.inj needs
    exact ⟨0, rfl, rfl⟩
  exact right.defined _ (fun _ => false) typed rfl

end Ucb.Argparse
