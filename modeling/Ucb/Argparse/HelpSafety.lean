import Ucb.Argparse.Declared
import Ucb.Argparse.Interpolation
import Ucb.Argparse.Wrapping

/-!
Contract: which parsers have help, usage and version texts.

Owns:
- `EmitsIf`, that a function appends some text exactly under a condition, and aborts
  otherwise;
- that the strings of accepted options are texts;
- exactly which parsers render all three texts.
-/

namespace Ucb.Argparse

open Ucb.Str

/-- Some text is appended exactly under the condition. -/
def EmitsIf (append : List UInt8 → Exec (List UInt8)) (condition : Prop) : Prop :=
  ∃ text, Emits append text ∧ (text.isSome ↔ condition)

section Appending

variable {append next : List UInt8 → Exec (List UInt8)} {condition other : Prop}
  {text : Option (List UInt8)}

theorem Emits.emitsIf (emits : Emits append text) : EmitsIf append text.isSome :=
  ⟨text, emits, Iff.rfl⟩

theorem Emits.always {more : List UInt8} (emits : Emits append (some more)) :
    EmitsIf append True :=
  ⟨some more, emits, by simp⟩

theorem EmitsIf.congr (emits : EmitsIf append condition) (same : ∀ out, next out = append out) :
    EmitsIf next condition := by
  obtain ⟨text, emits, isSome⟩ := emits
  exact ⟨text, emits.congr same, isSome⟩

theorem EmitsIf.iff (emits : EmitsIf append condition) (same : condition ↔ other) :
    EmitsIf append other := by
  obtain ⟨text, emits, isSome⟩ := emits
  exact ⟨text, emits, isSome.trans same⟩

theorem EmitsIf.bind (before : EmitsIf append condition) (behind : EmitsIf next other) :
    EmitsIf (fun out => append out >>= next) (condition ∧ other) := by
  obtain ⟨first, emitsFirst, firstSome⟩ := before
  obtain ⟨second, emitsSecond, secondSome⟩ := behind
  exact ⟨_, emitsFirst.bind emitsSecond, by simp [firstSome, secondSome]⟩

/-- A function behind one that never aborts. -/
theorem Emits.followed {more : List UInt8} (before : Emits append (some more))
    (behind : EmitsIf next condition) : EmitsIf (fun out => append out >>= next) condition :=
  (before.always.bind behind).iff (by simp)

/-- A function in front of one that never aborts. -/
theorem EmitsIf.andThen {more : List UInt8} (before : EmitsIf append condition)
    (behind : Emits next (some more)) : EmitsIf (fun out => append out >>= next) condition :=
  (before.bind behind.always).iff (by simp)

theorem emitsIf_ite {branch : Prop} [Decidable branch] (holds : branch → EmitsIf append condition)
    (fails : ¬branch → EmitsIf next condition) :
    EmitsIf (fun out => if branch then append out else next out) condition := by
  by_cases decided : branch
  · simpa only [if_pos decided] using holds decided
  · simpa only [if_neg decided] using fails decided

/-- A text that is made first, and appended in some way. -/
theorem emitsIf_made {made : Exec (List UInt8)} {add : List UInt8 → List UInt8 → Exec (List UInt8)}
    (made_eq : made = text.elim (.abort .invalidArg) .ok) (isText : ∀ t ∈ text, IsText t)
    (adds : ∀ t, IsText t → EmitsIf (add · t) True) :
    EmitsIf (fun out => made >>= fun t => add out t) text.isSome := by
  cases text with
  | none =>
      refine ⟨none, ⟨fun out => ?_, fun more absent => by cases absent⟩, Iff.rfl⟩
      rw [made_eq]
      rfl
  | some t =>
      obtain ⟨added, emits, isSome⟩ := adds t (isText t rfl)
      refine ⟨added, emits.congr fun out => ?_, by simpa using isSome⟩
      rw [made_eq]
      rfl

/-- What a function appends to nothing. -/
theorem EmitsIf.outcome (emits : EmitsIf append condition) :
    (condition → ∃ text, append [] = .ok text ∧ IsText text) ∧
      (¬condition → append [] = .abort .invalidArg) := by
  obtain ⟨text, emits, isSome⟩ := emits
  have result := emits.appends []
  cases text with
  | none =>
      refine ⟨fun holds => ?_, fun _ => result⟩
      cases isSome.mpr holds
  | some more => exact ⟨fun _ => ⟨more, result, emits.isText more rfl⟩, fun fails =>
      absurd (isSome.mp rfl) fails⟩

end Appending

/-! ## Wrapping -/

section Wrap

/-- What is put in front of a word is text. -/
theorem appendGap_emits (indent width col wlen : Nat) :
    ∃ text col', IsText text ∧
      ∀ out, appendGap out indent width col wlen = .ok (out ++ text, col') := by
  unfold appendGap
  by_cases inside : col > indent
  · simp only [if_pos inside]
    by_cases full : addSize (addSize col 1) wlen > width
    · have emitted := (appendC_emits (isText_ascii "\n" (by decide))).bind
        (appendIndent_emits indent)
      refine ⟨_, indent, emitted.isText _ rfl, fun out => ?_⟩
      have appended := emitted.appends out
      simp only [if_pos full, ← bind_assoc] at appended ⊢
      rw [appended]
      rfl
    · have emitted := appendC_emits (isText_ascii " " (by decide))
      refine ⟨ascii " ", addSize col 1, emitted.isText _ rfl, fun out => ?_⟩
      simp only [if_neg full, emitted.appends out]
      rfl
  · refine ⟨[], col, isText_nil, fun out => ?_⟩
    simp [if_neg inside, Exec.pure_eq_ok]

/-- Wrapping a text never aborts, even where columns do not fit. -/
theorem wrapLoop_emits (indent width : Nat) {text : List UInt8} (isText : IsText text) (col : Nat) :
    ∃ more, Emits (wrapLoop indent width · col text) (some more) := by
  induction sized : text.length using Nat.strong_induction_on generalizing col text with
  | _ size inductionHypothesis =>
      subst sized
      have lineFeed := appendC_emits (isText_ascii "\n" (by decide))
      cases text with
      | nil => exact ⟨_, lineFeed.congr fun out => by rw [wrapLoop.eq_def]⟩
      | cons c tail =>
          by_cases isNewline : c = newline
          · subst isNewline
            obtain ⟨more, emits⟩ := inductionHypothesis tail.length (Nat.lt_succ_self _)
              (isText_behind [newline] isText (by decide)) indent rfl
            have emitted := lineFeed.bind ((appendIndent_emits indent).bind emits)
            exact ⟨_, emitted.congr fun out => by rw [wrapLoop.eq_def]; rfl⟩
          · obtain ⟨gap, passed⟩ := passed_behindWord (c :: tail)
            obtain ⟨front, col', frontText, gap_eq⟩ :=
              appendGap_emits indent width col (wordLength (c :: tail))
            obtain ⟨more, emits⟩ := inductionHypothesis _
              (Nat.lt_succ_of_le (length_behindWord tail isNewline)) (passed.isText isText).2
              (addSize col' (wordLength (c :: tail))) rfl
            have emitted := (appendWord_emits passed isText).bind emits
            refine ⟨front ++ (wordOf (c :: tail) ++ more), ?_, ?_⟩
            · intro out
              have appended := emitted.appends (out ++ front)
              rw [wrapLoop_word indent width col out isNewline, gap_eq, Exec.ok_bind, appended]
              simp
            · intro whole same
              obtain rfl := Option.some.inj same
              exact frontText.append (emitted.isText _ rfl)

theorem appendWrapped_emits {text : List UInt8} (isText : IsText text) (indent width : Nat) :
    EmitsIf (appendWrapped · text indent width) True := by
  obtain ⟨more, emits⟩ := wrapLoop_emits indent width isText indent
  exact emits.always

end Wrap

/-! ## Accepted options -/

/-- What `ucb_arg_parser_add` has copied of an option. -/
structure Accepted (o : UcbArgOptImpl) : Prop where
  texts : OptTexts o
  short : o.shortName.toNat < 0x80

section Accepting

theorem isText_of_copied {cstr text : List UInt8} (copied : ucbStrNewC cstr = .ok text) :
    IsText text := by
  obtain rfl := ucbStrNewC_eq copied
  obtain ⟨_, verified, -⟩ := Exec.bind_eq_ok.mp copied
  by_cases empty : text = []
  · rw [empty]
    exact isText_nil
  · have checked := (text_of_verify verified (by simp [empty])).2
    rwa [List.take_left] at checked

theorem isText_of_copyText {source : Option (List UInt8)} {text : List UInt8}
    (copied : copyText source = .ok text) : IsText text := by
  cases source with
  | none =>
      obtain rfl := Exec.ok.inj copied
      exact isText_nil
  | some cstr => exact isText_of_copied copied

theorem isText_of_copyDefault {source text : Option (List UInt8)}
    (copied : copyDefault source = .ok text) : ∀ value ∈ text, IsText value := by
  intro value given
  cases source with
  | none =>
      obtain rfl := Exec.ok.inj copied
      cases given
  | some cstr =>
      cases made : ucbStrNewC cstr with
      | ok copy =>
          simp only [copyDefault, made] at copied
          obtain rfl := Exec.ok.inj copied
          obtain rfl := Option.some.inj given
          exact isText_of_copied made
      | abort code => simp [copyDefault, made] at copied; cases copied
      | undefined => simp [copyDefault, made] at copied; cases copied

theorem isText_of_copyChoices {source choices : List (List UInt8)}
    (copied : copyChoices source = .ok choices) : ∀ choice ∈ choices, IsText choice := by
  induction source generalizing choices with
  | nil =>
      obtain rfl := Exec.ok.inj copied
      simp
  | cons first source inductionHypothesis =>
      obtain ⟨choice, made, copied⟩ := Exec.bind_eq_ok.mp copied
      obtain ⟨rest, later, copied⟩ := Exec.bind_eq_ok.mp copied
      obtain rfl := Exec.ok.inj copied
      exact List.forall_mem_cons.mpr ⟨isText_of_copied made, inductionHypothesis later⟩

theorem short_of_canonName {shortName : UInt8} {longName : Option (List UInt8)}
    {canon : List UInt8} (made : canonName shortName longName = .ok canon) :
    shortName.toNat < 0x80 := by
  obtain ⟨short, made, -⟩ := Exec.bind_eq_ok.mp made
  unfold canonShort at made
  split at made
  next named =>
    obtain ⟨copy, copied, -⟩ := Exec.bind_eq_ok.mp made
    have isText := isText_of_copied copied
    obtain rfl := ucbStrNewC_eq copied
    by_contra other
    obtain ⟨_, verified, -⟩ := Exec.bind_eq_ok.mp copied
    obtain ⟨_, rejected⟩ := validate_one shortName
    rw [if_neg other] at rejected
    have accepted := (Unicode.validate_ok_iff [shortName]).mpr isText.valid
    cases rejected.symm.trans accepted
  next unnamed =>
    rw [not_not.mp unnamed]
    decide

/-- The strings of an option that was added are texts. -/
theorem accepted_of_add {p after : UcbArgParser} {opt : UcbArgOpt}
    (added : ucbArgParserAdd p opt = .ok after) :
    ∃ o, after = { p with opts := p.opts ++ [o] } ∧ Accepted o := by
  obtain ⟨_, -, added⟩ := Exec.bind_eq_ok.mp added
  obtain ⟨_, -, added⟩ := Exec.bind_eq_ok.mp added
  obtain ⟨_, -, added⟩ := Exec.bind_eq_ok.mp added
  obtain ⟨_, -, added⟩ := Exec.bind_eq_ok.mp added
  obtain ⟨_, -, added⟩ := Exec.bind_eq_ok.mp added
  obtain ⟨_, -, added⟩ := Exec.bind_eq_ok.mp added
  obtain ⟨_, -, added⟩ := Exec.bind_eq_ok.mp added
  obtain ⟨name, nameCopied, added⟩ := Exec.bind_eq_ok.mp added
  obtain ⟨long, longCopied, added⟩ := Exec.bind_eq_ok.mp added
  obtain ⟨default, defaultCopied, added⟩ := Exec.bind_eq_ok.mp added
  obtain ⟨metavar, metavarCopied, added⟩ := Exec.bind_eq_ok.mp added
  obtain ⟨help, helpCopied, added⟩ := Exec.bind_eq_ok.mp added
  obtain ⟨canon, canonMade, added⟩ := Exec.bind_eq_ok.mp added
  obtain ⟨choices, choicesCopied, added⟩ := Exec.bind_eq_ok.mp added
  refine ⟨_, (Exec.ok.inj added).symm, ⟨isText_of_copyText nameCopied,
    isText_of_copyText longCopied, isText_of_copyDefault defaultCopied,
    isText_of_copyText metavarCopied, isText_of_copyText helpCopied, ?_⟩,
    short_of_canonName canonMade⟩
  unfold takeChoices at choicesCopied
  split at choicesCopied
  next => exact isText_of_copyChoices choicesCopied
  next => cases choicesCopied

theorem accepted_of_addOptions {p after : UcbArgParser} (opts : List UcbArgOpt)
    (before : ∀ o ∈ p.opts, Accepted o)
    (added : ucbArgParserAddOptions p opts = .ok after) : ∀ o ∈ after.opts, Accepted o := by
  induction opts generalizing p with
  | nil =>
      obtain rfl := Exec.ok.inj added
      exact before
  | cons opt opts inductionHypothesis =>
      obtain ⟨next, first, later⟩ := Exec.bind_eq_ok.mp added
      obtain ⟨o, rfl, accepted⟩ := accepted_of_add first
      refine inductionHypothesis ?_ later
      intro other member
      obtain earlier | isLast := List.mem_append.mp member
      · exact before other earlier
      · rw [List.mem_singleton.mp isLast]
        exact accepted

theorem accepted_of_built {p : UcbArgParser} (built : Built p) : ∀ o ∈ p.opts, Accepted o := by
  obtain ⟨version, opts, added⟩ := built
  exact accepted_of_addOptions opts (by simp [ucbArgParserNew]) added

end Accepting

/-! ## Entries -/

/-- The metavar of an option can be appended: it was given, or the name is ASCII. -/
def MetavarWhole (o : UcbArgOptImpl) : Prop :=
  o.metavar ≠ [] ∨ isAscii o.name = true

/-- The help text of an option has a `%(metavar)s`. -/
def NamesMetavar (o : UcbArgOptImpl) : Prop :=
  .field (ascii "metavar") ∈ directives o.help

/-- The option can be shown: its metavar can be appended, or is nowhere in its entry. -/
def Renderable (o : UcbArgOptImpl) : Prop :=
  MetavarWhole o ∨ (optTakesValue o = false ∧ ¬NamesMetavar o)

/-- The strings of a parser besides its options are texts. -/
structure HelpTexts (p : UcbArgHelp) : Prop where
  version : IsText p.version
  progBase : IsText p.progBase
  usage : IsText p.usage
  description : IsText p.description

section Entries

variable {p : UcbArgHelp} {o : UcbArgOptImpl}

theorem metavarText_whole : (metavarText o).isSome ↔ MetavarWhole o := by
  rw [metavarText_isSome_iff, MetavarWhole]
  by_cases given : o.metavar = []
  · simp [given]
  · simp [given]

theorem appendMetavar_emitsIf (accepted : Accepted o) :
    EmitsIf (appendMetavar · o) (MetavarWhole o) :=
  (appendMetavar_emits accepted.texts).emitsIf.iff metavarText_whole

theorem appendShort_emitsIf (accepted : Accepted o) (named : o.shortName ≠ 0) :
    EmitsIf (appendShort · o.shortName) True :=
  (appendShort_emits named).emitsIf.iff
    ((shortText_isSome_iff o.shortName).trans (iff_true_intro accepted.short))

/-- The metavar of an option that takes a value, and nothing otherwise. -/
theorem value_emitsIf (accepted : Accepted o) {sign : List UInt8} (signText : IsText sign) :
    EmitsIf (fun out => if optTakesValue o then
        appendC out sign >>= fun out => appendMetavar out o
      else pure out) (optTakesValue o = true → MetavarWhole o) := by
  by_cases takes : optTakesValue o = true
  · have emits := (appendC_emits signText).followed (appendMetavar_emitsIf accepted)
    refine (emits.congr fun out => ?_).iff (by simp [takes])
    rw [if_pos takes]
  · have emits := emits_nothing.always
    refine (emits.congr fun out => ?_).iff (by simp [takes])
    rw [if_neg takes]

theorem appendLong_emitsIf (accepted : Accepted o) :
    EmitsIf (appendLong · o) (optTakesValue o = true → MetavarWhole o) := by
  have name : ∀ text ∈ [ascii "--", o.longName], IsText text := by
    simp only [List.mem_cons, List.not_mem_nil, or_false, forall_eq_or_imp, forall_eq]
    exact ⟨isText_ascii "--" (by decide), accepted.texts.longName⟩
  have rest := (appendEach_emits name).followed
    (value_emitsIf accepted (isText_ascii "=" (by decide)))
  by_cases named : o.shortName ≠ 0
  · refine ((appendC_emits (isText_ascii ", " (by decide))).followed rest).congr fun out => ?_
    rw [appendLong, if_pos named]
  · refine rest.congr fun out => ?_
    rw [appendLong, if_neg named]
    rfl

/-- The left column is there unless the metavar is wanted in it and cannot be appended. -/
theorem formatLeft_emitsIf (accepted : Accepted o) :
    EmitsIf (formatLeft · o) (optTakesValue o = true → MetavarWhole o) := by
  have first : EmitsIf (fun out => if o.shortName ≠ 0 then appendShort out o.shortName
      else appendC out (ascii "    ")) True :=
    emitsIf_ite (appendShort_emitsIf accepted)
      fun _ => (appendC_emits (isText_ascii "    " (by decide))).always
  have second : EmitsIf (fun out => if o.longName ≠ [] then appendLong out o
      else if optTakesValue o then
        appendC out (ascii " ") >>= fun out => appendMetavar out o
      else pure out) (optTakesValue o = true → MetavarWhole o) :=
    emitsIf_ite (fun _ => appendLong_emitsIf accepted)
      fun _ => value_emitsIf accepted (isText_ascii " " (by decide))
  refine ((first.bind second).iff (by simp)).congr fun out => ?_
  rw [formatLeft]
  split
  next => rfl
  next => rfl

theorem help_cuts_iff (accepted : Accepted o) :
    (∀ part ∈ directives o.help, ¬part.CutsValue (some o)) ↔ (NamesMetavar o → MetavarWhole o) := by
  constructor
  · intro whole names
    by_contra cut
    rw [MetavarWhole, not_or, not_not, Bool.not_eq_true] at cut
    exact whole _ names ⟨o, rfl, Or.inl ⟨rfl, cut.1, cut.2⟩⟩
  · rintro whole part member ⟨opt, same, cuts⟩
    obtain rfl := Option.some.inj same
    obtain ⟨rfl, noMetavar, notAscii⟩ | ⟨-, notShort⟩ := cuts
    · obtain given | plain := whole member
      · exact given noMetavar
      · rw [plain] at notAscii
        cases notAscii
    · exact notShort accepted.short

def defaultNote (o : UcbArgOptImpl) : List UInt8 :=
  if showsDefault o then ascii " (default: " ++ (defaultText o ++ ascii ")") else []

theorem defaultNote_emits (texts : OptTexts o) :
    Emits (fun help => if showsDefault o then
        appendC help (ascii " (default: ") >>= fun help =>
          appendDefault help o >>= fun help => appendC help (ascii ")")
      else pure help) (some (defaultNote o)) := by
  have shown := (appendC_emits (isText_ascii " (default: " (by decide))).bind
    ((appendDefault_emits texts).bind (appendC_emits (isText_ascii ")" (by decide))))
  by_cases shows : showsDefault o = true
  · rw [defaultNote, if_pos shows]
    refine shown.congr fun out => ?_
    rw [if_pos shows]
  · rw [defaultNote, if_neg shows]
    refine emits_nothing.congr fun out => ?_
    rw [if_neg shows]

/-- The help text is there unless it names a metavar that cannot be appended. -/
theorem entryHelp_emitsIf (accepted : Accepted o) (progText : IsText p.progBase)
    {add : List UInt8 → List UInt8 → Exec (List UInt8)}
    (adds : ∀ t, IsText t → EmitsIf (add · t) True) :
    EmitsIf (fun out => entryHelp p o >>= fun help => add out help)
      (NamesMetavar o → MetavarWhole o) := by
  have optTexts : ∀ opt ∈ some o, OptTexts opt := fun opt same =>
    Option.some.inj same ▸ accepted.texts
  have emitted := (interpLoop_emits progText optTexts accepted.texts.help).bind
    (defaultNote_emits accepted.texts)
  have made : entryHelp p o = (glue (interpreted p (some o) o.help)
      (some (defaultNote o))).elim (.abort .invalidArg) .ok :=
    emitted.appends []
  refine (emitsIf_made made emitted.isText adds).iff ?_
  rw [glue_isSome, Option.isSome_some, Bool.and_true, interpreted_isSome_iff,
    help_cuts_iff accepted]

theorem appendEntry_emitsIf (accepted : Accepted o) (progText : IsText p.progBase) (col : Nat)
    {left : List UInt8} (leftText : IsText left) :
    EmitsIf (appendEntry · p col o left) (NamesMetavar o → MetavarWhole o) := by
  refine entryHelp_emitsIf accepted progText fun help helpText => ?_
  have wrapped := appendWrapped_emits helpText col p.width.toNat
  by_cases wide : addSize left.length 2 > col
  · refine ((appendC_emits leftText).followed ((appendC_emits (isText_ascii "\n"
      (by decide))).followed ((appendIndent_emits col).followed wrapped))).congr fun out => ?_
    simp only [if_pos wide]
  · refine ((appendC_emits leftText).followed ((appendIndent_emits (col - left.length)).followed
      wrapped)).congr fun out => ?_
    simp only [if_neg wide]

end Entries

/-! ## The three texts -/

section Texts

variable {p : UcbArgHelp} {opts : List UcbArgOptImpl}

/-- The left columns are there unless one of them is not. -/
theorem formatLefts_outcome (accepted : ∀ o ∈ opts, Accepted o) :
    ((∀ o ∈ opts, optTakesValue o = true → MetavarWhole o) →
        ∃ lefts, formatLefts opts = .ok lefts ∧ lefts.length = opts.length ∧
          ∀ left ∈ lefts, IsText left) ∧
      (¬(∀ o ∈ opts, optTakesValue o = true → MetavarWhole o) →
        formatLefts opts = .abort .invalidArg) := by
  induction opts with
  | nil => exact ⟨fun _ => ⟨[], rfl, rfl, by simp⟩, fun cut => absurd (by simp) cut⟩
  | cons o opts inductionHypothesis =>
      obtain ⟨first, later⟩ := List.forall_mem_cons.mp accepted
      obtain ⟨made, aborts⟩ := (formatLeft_emitsIf first).outcome
      obtain ⟨laterMade, laterAborts⟩ := inductionHypothesis later
      constructor
      · intro whole
        obtain ⟨firstWhole, laterWhole⟩ := List.forall_mem_cons.mp whole
        obtain ⟨left, left_eq, leftText⟩ := made firstWhole
        obtain ⟨lefts, lefts_eq, length_eq, leftsText⟩ := laterMade laterWhole
        refine ⟨left :: lefts, ?_, by simp [length_eq],
          List.forall_mem_cons.mpr ⟨leftText, leftsText⟩⟩
        rw [formatLefts, left_eq, Exec.ok_bind, lefts_eq]
        rfl
      · intro cut
        rw [List.forall_mem_cons] at cut
        by_cases firstWhole : optTakesValue o = true → MetavarWhole o
        · obtain ⟨left, left_eq, -⟩ := made firstWhole
          rw [formatLefts, left_eq, Exec.ok_bind,
            laterAborts fun laterWhole => cut ⟨firstWhole, laterWhole⟩]
          rfl
        · rw [formatLefts, aborts firstWhole]
          rfl

theorem appendEntries_emitsIf (progText : IsText p.progBase) (col : Nat)
    {lefts : List (List UInt8)} (accepted : ∀ o ∈ opts, Accepted o)
    (sameLength : lefts.length = opts.length) (leftsText : ∀ left ∈ lefts, IsText left) :
    EmitsIf (appendEntries · p col (opts.zip lefts))
      (∀ o ∈ opts, NamesMetavar o → MetavarWhole o) := by
  induction opts generalizing lefts with
  | nil => exact emits_nothing.always.iff (by simp)
  | cons o opts inductionHypothesis =>
      obtain ⟨left, lefts, rfl⟩ := List.exists_cons_of_length_eq_add_one sameLength
      obtain ⟨first, later⟩ := List.forall_mem_cons.mp accepted
      obtain ⟨leftText, laterText⟩ := List.forall_mem_cons.mp leftsText
      have entry := appendEntry_emitsIf first progText col leftText
      have rest := inductionHypothesis later (Nat.succ.inj sameLength) laterText
      have parts : (∀ other ∈ o :: opts, NamesMetavar other → MetavarWhole other) ↔
          (NamesMetavar o → MetavarWhole o) ∧
            ∀ other ∈ opts, NamesMetavar other → MetavarWhole other := List.forall_mem_cons
      exact (entry.bind rest).iff parts.symm

/-- A text without an option never aborts. -/
theorem interpText_emitsIf (progText : IsText p.progBase) {src : List UInt8} (isText : IsText src)
    {add : List UInt8 → List UInt8 → Exec (List UInt8)}
    (adds : ∀ t, IsText t → EmitsIf (add · t) True) :
    EmitsIf (fun out => interpText p none src >>= fun t => add out t) True := by
  have optTexts : ∀ opt ∈ (none : Option UcbArgOptImpl), OptTexts opt := fun opt absent => by
    cases absent
  have emitted := interpLoop_emits progText optTexts isText
  refine (emitsIf_made (interpText_eq progText optTexts isText) emitted.isText adds).iff ?_
  rw [interpreted_isSome_iff]
  refine iff_true_intro fun part member cuts => ?_
  obtain ⟨opt, absent, -⟩ := cuts
  cases absent

theorem appendUsageLine_emitsIf (texts : HelpTexts p) : EmitsIf (appendUsageLine · p) True := by
  have lineFeed := appendC_emits (isText_ascii "\n" (by decide))
  have front := appendC_emits (isText_ascii "Usage: " (by decide))
  by_cases given : p.usage ≠ []
  · have usage := interpText_emitsIf texts.progBase texts.usage
      fun t isText => (appendC_emits isText).always
    refine (front.followed (usage.andThen lineFeed)).congr fun out => ?_
    simp only [appendUsageLine, if_pos given, bind_assoc]
  · have areTexts : ∀ text ∈ [p.progBase, ascii " [options]"], IsText text := by
      simp only [List.mem_cons, List.not_mem_nil, or_false, forall_eq_or_imp, forall_eq]
      exact ⟨texts.progBase, isText_ascii _ (by decide)⟩
    refine (front.followed ((appendEach_emits areTexts).followed lineFeed.always)).congr
      fun out => ?_
    simp only [appendUsageLine, if_neg given]

theorem appendDescription_emitsIf (texts : HelpTexts p) :
    EmitsIf (appendDescription · p) True := by
  have lineFeed := appendC_emits (isText_ascii "\n" (by decide))
  exact emitsIf_ite (fun _ => interpText_emitsIf texts.progBase texts.description fun t isText =>
    (appendWrapped_emits isText 0 p.width.toNat).andThen lineFeed) fun _ => emits_nothing.always

theorem helpFront_emitsIf (texts : HelpTexts p) :
    EmitsIf (fun out => appendUsageLine out p >>= fun out =>
      appendC out (ascii "\n") >>= fun out =>
        appendDescription out p >>= fun out => appendC out (ascii "Options:\n")) True := by
  have lineFeed := appendC_emits (isText_ascii "\n" (by decide))
  have options := appendC_emits (isText_ascii "Options:\n" (by decide))
  have whole := (appendUsageLine_emitsIf texts).bind
    (lineFeed.followed ((appendDescription_emitsIf texts).andThen options))
  exact whole.iff (by simp)

theorem renderable_iff {o : UcbArgOptImpl} :
    Renderable o ↔
      (optTakesValue o = true → MetavarWhole o) ∧ (NamesMetavar o → MetavarWhole o) := by
  rw [Renderable, ← Bool.not_eq_true]
  by_cases whole : MetavarWhole o
  · simp [whole]
  · simp [whole]

/-- The help text is there unless a metavar that is shown cannot be appended. -/
theorem buildHelp_returns_iff (texts : HelpTexts p) (accepted : ∀ o ∈ p.opts, Accepted o) :
    (∃ text, buildHelp p = .ok text ∧ IsText text) ↔ ∀ o ∈ p.opts, Renderable o := by
  obtain ⟨front, front_eq, frontText⟩ := (helpFront_emitsIf texts).outcome.1 trivial
  have build_eq : buildHelp p = if p.opts = [] then pure front
      else formatLefts p.opts >>= fun lefts =>
        appendEntries front p (descCol p.width.toNat lefts) (p.opts.zip lefts) := by
    simp only [← bind_assoc] at front_eq
    simp only [buildHelp, ← bind_assoc]
    rw [front_eq]
    rfl
  by_cases empty : p.opts = []
  · rw [build_eq, if_pos empty, empty]
    exact iff_of_true ⟨front, rfl, frontText⟩ (by simp)
  · rw [build_eq, if_neg empty]
    obtain ⟨made, aborts⟩ := formatLefts_outcome accepted
    simp only [renderable_iff, forall₂_and]
    by_cases leftsWhole : ∀ o ∈ p.opts, optTakesValue o = true → MetavarWhole o
    · obtain ⟨lefts, lefts_eq, sameLength, leftsText⟩ := made leftsWhole
      obtain ⟨text, emits, isSome⟩ := appendEntries_emitsIf texts.progBase
        (descCol p.width.toNat lefts) accepted sameLength leftsText
      rw [lefts_eq, Exec.ok_bind, emits.appends front, and_iff_right leftsWhole, ← isSome]
      cases text with
      | none => simp
      | some more => simpa using frontText.append (emits.isText more rfl)
    · rw [aborts leftsWhole]
      exact iff_of_false (by simp) fun whole => leftsWhole whole.1

theorem versionStr_returns (texts : HelpTexts p) :
    ∃ text, ucbArgParserVersionStr p = .ok text ∧ IsText text := by
  have lineFeed := appendC_emits (isText_ascii "\n" (by decide))
  have areTexts : ∀ text ∈ [p.progBase, ascii " version"], IsText text := by
    simp only [List.mem_cons, List.not_mem_nil, or_false, forall_eq_or_imp, forall_eq]
    exact ⟨texts.progBase, isText_ascii _ (by decide)⟩
  have front := appendEach_emits areTexts
  by_cases given : p.version ≠ []
  · have version := interpText_emitsIf texts.progBase texts.version
      fun t isText => (appendC_emits isText).always
    have whole := front.followed ((appendC_emits (isText_ascii " " (by decide))).followed
      (version.andThen lineFeed))
    obtain ⟨text, made, isText⟩ := whole.outcome.1 trivial
    refine ⟨text, ?_, isText⟩
    rw [← made]
    simp only [ucbArgParserVersionStr, if_pos given, bind_assoc]
  · obtain ⟨text, made, isText⟩ := (front.followed lineFeed.always).outcome.1 trivial
    refine ⟨text, ?_, isText⟩
    rw [← made]
    simp only [ucbArgParserVersionStr, if_neg given]
    rfl

/-- The help, usage and version texts of a parser. -/
structure RendersAll (p : UcbArgHelp) : Prop where
  help : ∃ text, buildHelp p = .ok text ∧ IsText text
  usage : ∃ text, ucbArgParserUsageStr p = .ok text ∧ IsText text
  version : ∃ text, ucbArgParserVersionStr p = .ok text ∧ IsText text

/-- A parser whose options were accepted renders its texts exactly if no option shows a
metavar made from a name that is not ASCII. -/
theorem rendersAll_iff (built : Built p.toUcbArgParser) (texts : HelpTexts p) :
    RendersAll p ↔ ∀ o ∈ p.opts, Renderable o := by
  rw [← buildHelp_returns_iff texts (accepted_of_built built)]
  exact ⟨RendersAll.help, fun help =>
    ⟨help, (appendUsageLine_emitsIf texts).outcome.1 trivial, versionStr_returns texts⟩⟩

end Texts

def accentedDescriptor : UcbArgOpt where
  name := some [0xC3, 0xA9]
  shortName := 0x65
  longName := none
  type := .str
  action := .store
  dest := some 0
  default := none
  metavar := none
  help := some (ascii "%(metavar)s")
  choices := none
  numChoices := 0
  required := false

theorem built_accentedParser : Built accentedParser.toUcbArgParser :=
  ⟨[], [accentedDescriptor], rfl⟩

theorem helpTexts_accentedParser : HelpTexts accentedParser :=
  ⟨isText_nil, isText_ascii "tool" (by decide), isText_nil, isText_nil⟩

theorem rendersAll_iff_accented :
    RendersAll accentedParser ↔ ∀ o ∈ accentedParser.opts, Renderable o :=
  rendersAll_iff built_accentedParser helpTexts_accentedParser

/-- The parser is accepted, and its help text aborts. -/
theorem accented_help_aborts :
    Built accentedParser.toUcbArgParser ∧ HelpTexts accentedParser ∧
      ¬RendersAll accentedParser := by
  refine ⟨built_accentedParser, helpTexts_accentedParser, fun renders => ?_⟩
  have renderable := (buildHelp_returns_iff helpTexts_accentedParser
    (accepted_of_built built_accentedParser)).mp renders.help accentedOpt List.mem_cons_self
  obtain (given | plain) | ⟨noValue, -⟩ := renderable
  · exact given rfl
  · revert plain
    decide
  · revert noValue
    decide

end Ucb.Argparse
