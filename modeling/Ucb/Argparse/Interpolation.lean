import Ucb.Argparse.Emits

/-!
Contract: the interpolation of help texts.

Owns:
- the directives of a text, and the text each stands for;
- that `interp_text` gives these texts, or aborts where one cannot be appended;
- escapes, unknown fields and malformed ones, and exactly which texts come out.

A metavar made from the name is appended byte by byte, so a name that is not ASCII
aborts.
-/

namespace Ucb.Argparse

open Ucb.Str

/-- A part of a text: a byte for itself, or a directive. -/
inductive Directive where
  | literal (c : UInt8)
  | prog
  | default
  | field (name : List UInt8)
deriving DecidableEq

/-- The parts of a text. A doubled percent sign stands for one, and one that starts no
directive for itself. -/
def directives (text : List UInt8) : List Directive :=
  match text with
  | [] => []
  | c :: tail =>
      if c ≠ percent then .literal c :: directives tail
      else if tail.head? = some percent then .literal percent :: directives tail.tail
      else if (ascii "prog").isPrefixOf tail then .prog :: directives (tail.drop 4)
      else if (ascii "default").isPrefixOf tail then .default :: directives (tail.drop 7)
      else
        match fieldLength tail with
        | some len => .field (tail.tail.take len) :: directives (tail.drop (len + 3))
        | none => .literal percent :: directives tail
termination_by text.length
decreasing_by
  all_goals simp only [List.length_tail, List.length_drop, List.length_cons]; omega

/-- What `append_field` appends. -/
def fieldText (p : UcbArgHelp) (o : Option UcbArgOptImpl) (field : List UInt8) :
    Option (List UInt8) :=
  if field = ascii "prog" then some p.progBase
  else o.elim (some (unknownText field)) fun o => optFieldText o field

def Directive.text (p : UcbArgHelp) (o : Option UcbArgOptImpl) :
    Directive → Option (List UInt8)
  | .literal c => some [c]
  | .prog => some p.progBase
  | .default => some (o.elim (ascii "%default") defaultText)
  | .field name => fieldText p o name

def interpreted (p : UcbArgHelp) (o : Option UcbArgOptImpl) (text : List UInt8) :
    Option (List UInt8) :=
  (directives text).foldr (fun part rest => glue (part.text p o) rest) (some [])

section Scan

variable {p : UcbArgHelp} {o : Option UcbArgOptImpl} {c : UInt8} {text tail : List UInt8}

@[simp] theorem interpreted_nil : interpreted p o [] = some [] := by
  rw [interpreted, directives.eq_def]
  rfl

theorem interpreted_literal (plain : c ≠ percent) (tail : List UInt8) :
    interpreted p o (c :: tail) = glue (some [c]) (interpreted p o tail) := by
  rw [interpreted, directives.eq_def]
  simp only [if_pos plain]
  rfl

theorem interpreted_escape (tail : List UInt8) :
    interpreted p o (percent :: percent :: tail) =
      glue (some [percent]) (interpreted p o tail) := by
  rw [interpreted, directives.eq_def]
  rfl

/-- Bytes that start no directive stand for themselves. -/
theorem interpreted_append {front : List UInt8} (plain : percent ∉ front) (text : List UInt8) :
    interpreted p o (front ++ text) = glue (some front) (interpreted p o text) := by
  induction front with
  | nil => exact glue_nil.symm
  | cons c front inductionHypothesis =>
      obtain ⟨first, later⟩ := not_or.mp (List.mem_cons.not.mp plain)
      rw [List.cons_append, interpreted_literal (Ne.symm first), inductionHypothesis later,
        ← glue_cons]

/-- Up to its first percent sign, a text stands for itself. -/
theorem interpreted_run (text : List UInt8) :
    interpreted p o text = glue (some (text.takeWhile (· ≠ percent)))
      (interpreted p o (text.dropWhile (· ≠ percent))) := by
  have plain : percent ∉ text.takeWhile (· ≠ percent) := by
    intro member
    have others := List.all_eq_true.mp (List.all_takeWhile (p := (· ≠ percent)) (l := text))
    simpa using others percent member
  rw [← interpreted_append plain, List.takeWhile_append_dropWhile]

theorem interpreted_directive (single : tail.head? ≠ some percent) :
    interpreted p o (percent :: tail) =
      if (ascii "prog").isPrefixOf tail then
        glue (some p.progBase) (interpreted p o (tail.drop 4))
      else if (ascii "default").isPrefixOf tail then
        glue (some (o.elim (ascii "%default") defaultText)) (interpreted p o (tail.drop 7))
      else (fieldLength tail).elim (glue (some [percent]) (interpreted p o tail)) fun len =>
        glue (fieldText p o (tail.tail.take len)) (interpreted p o (tail.drop (len + 3))) := by
  conv_lhs => rw [interpreted, directives.eq_def]
  simp only [ne_eq, not_true_eq_false, ↓reduceIte, single]
  split
  next => rfl
  next =>
    split
    next => rfl
    next => cases fieldLength tail <;> rfl

/-- A field is what stands in front of the first closing parenthesis, if `s` is next. -/
theorem fieldLength_eq_some {len : Nat} :
    fieldLength text = some len ↔ ∃ field behind, closeParen ∉ field ∧ field.length = len ∧
      text = openParen :: (field ++ (ascii ")s" ++ behind)) := by
  constructor
  · intro found
    unfold fieldLength at found
    split at found
    next isOpen =>
      obtain ⟨inside, rfl⟩ : ∃ inside, text = openParen :: inside := by
        cases text with
        | nil => cases isOpen
        | cons c inside => exact ⟨inside, by rw [Option.some.inj isOpen]⟩
      have found : (if (inside.drop (inside.takeWhile (· ≠ closeParen)).length).take 2 =
            ascii ")s"
          then some (inside.takeWhile (· ≠ closeParen)).length else none) = some len := found
      by_cases isClosed : (inside.drop (inside.takeWhile (· ≠ closeParen)).length).take 2 =
          ascii ")s"
      · rw [if_pos isClosed] at found
        refine ⟨inside.takeWhile (· ≠ closeParen),
          (inside.drop (inside.takeWhile (· ≠ closeParen)).length).drop 2, ?_,
          Option.some.inj found, ?_⟩
        · intro member
          have others := List.all_eq_true.mp
            (List.all_takeWhile (p := (· ≠ closeParen)) (l := inside))
          simpa using others closeParen member
        · rw [← isClosed, List.take_append_drop, drop_length_takeWhile,
            List.takeWhile_append_dropWhile]
      · rw [if_neg isClosed] at found
        cases found
    next => cases found
  · rintro ⟨field, behind, notClosed, rfl, rfl⟩
    have scanned : (field ++ (ascii ")s" ++ behind)).takeWhile (· ≠ closeParen) = field := by
      rw [List.takeWhile_append_of_pos]
      · have stops : (ascii ")s" ++ behind).takeWhile (· ≠ closeParen) = [] := rfl
        rw [stops, List.append_nil]
      · intro c member
        have other : c ≠ closeParen := by
          rintro rfl
          exact notClosed member
        simpa using other
    simp only [fieldLength, List.head?_cons, ↓reduceIte, List.tail_cons, scanned, List.drop_left]
    rfl

theorem interpreted_field {field : List UInt8} (notClosed : closeParen ∉ field)
    (behind : List UInt8) :
    interpreted p o (unknownText field ++ behind) =
      glue (fieldText p o field) (interpreted p o behind) := by
  have here : unknownText field ++ behind =
      percent :: openParen :: (field ++ (ascii ")s" ++ behind)) := by
    simp [unknownText, List.append_assoc]
    rfl
  have single : (openParen :: (field ++ (ascii ")s" ++ behind))).head? ≠ some percent := by
    simp [openParen, percent]
  have notProg : (ascii "prog").isPrefixOf (openParen :: (field ++ (ascii ")s" ++ behind))) =
      false := rfl
  have notDefault : (ascii "default").isPrefixOf
      (openParen :: (field ++ (ascii ")s" ++ behind))) = false := rfl
  have found : fieldLength (openParen :: (field ++ (ascii ")s" ++ behind))) =
      some field.length :=
    fieldLength_eq_some.mpr ⟨field, behind, notClosed, rfl, rfl⟩
  have fieldBehind : (openParen :: (field ++ (ascii ")s" ++ behind))).drop (field.length + 3) =
      behind := by
    rw [List.drop_succ_cons, List.drop_length_add_append]
    rfl
  rw [here, interpreted_directive single, notProg, notDefault, found]
  simp only [Bool.false_eq_true, ↓reduceIte, Option.elim_some, List.tail_cons, List.take_left,
    fieldBehind]

end Scan

section Loop

variable {p : UcbArgHelp} {o : Option UcbArgOptImpl}

theorem appendShortField_emits {opt : UcbArgOptImpl} :
    Emits (fun out => if opt.shortName ≠ 0 then appendShort out opt.shortName else pure out)
      (shortText opt.shortName) := by
  by_cases named : opt.shortName ≠ 0
  · simpa only [if_pos named] using appendShort_emits named
  · rw [shortText, if_pos (not_not.mp named)]
    simpa only [if_neg named] using emits_nothing

theorem appendLongField_emits {opt : UcbArgOptImpl} (texts : OptTexts opt) :
    Emits (fun out => if opt.longName ≠ [] then appendEach out [ascii "--", opt.longName]
        else pure out)
      (some (if opt.longName ≠ [] then ascii "--" ++ opt.longName else [])) := by
  have areTexts : ∀ text ∈ [ascii "--", opt.longName], IsText text := by
    simp only [List.mem_cons, List.not_mem_nil, or_false, forall_eq_or_imp, forall_eq]
    exact ⟨isText_ascii "--" (by decide), texts.longName⟩
  have emitted := appendEach_emits areTexts
  by_cases named : opt.longName ≠ []
  · simpa only [if_pos named, List.flatten_cons, List.flatten_nil, List.append_nil] using emitted
  · simpa only [if_neg named] using emits_nothing

theorem appendOptField_emits {opt : UcbArgOptImpl} (texts : OptTexts opt) {field : List UInt8}
    (isText : IsText field) (rest : List UInt8) :
    Emits (appendOptField · opt (field ++ rest) field.length) (optFieldText opt field) := by
  simp only [appendOptField, optFieldText, List.take_left]
  refine emits_ite (fun _ => appendC_emits texts.name) fun _ => ?_
  refine emits_ite (fun _ => appendC_emits (isText_typeName opt.type)) fun _ => ?_
  refine emits_ite (fun _ => appendMetavar_emits texts) fun _ => ?_
  refine emits_ite (fun _ => appendChoices_emits texts) fun _ => ?_
  refine emits_ite (fun _ => appendDefault_emits texts) fun _ => ?_
  refine emits_ite (fun _ => appendC_emits (isText_actionName opt.action)) fun _ => ?_
  refine emits_ite (fun _ => appendShortField_emits) fun _ => ?_
  exact emits_ite (fun _ => appendLongField_emits texts) fun _ => appendUnknown_emits isText

theorem appendField_emits (progText : IsText p.progBase) (optTexts : ∀ opt ∈ o, OptTexts opt)
    {field : List UInt8} (isText : IsText field) (rest : List UInt8) :
    Emits (appendField · p o (field ++ rest) field.length) (fieldText p o field) := by
  simp only [appendField, fieldText, List.take_left]
  refine emits_ite (fun _ => appendC_emits progText) fun _ => ?_
  cases o with
  | none => exact appendUnknown_emits isText
  | some opt => exact appendOptField_emits (optTexts opt rfl) isText rest

/-- The run in front of the first percent sign. -/
theorem interpLoop_literal {c : UInt8} {tail : List UInt8} (isText : IsText (c :: tail))
    (plain : c ≠ percent)
    (behind : ∀ {rest : List UInt8}, IsText rest → rest.length ≤ tail.length →
      Emits (interpLoop p o · rest) (interpreted p o rest)) :
    Emits (interpLoop p o · (c :: tail)) (interpreted p o (c :: tail)) := by
  have step (out : List UInt8) : interpLoop p o out (c :: tail) =
      appendCstr out (c :: tail ++ [0]) ((c :: tail).takeWhile (· ≠ percent)).length >>=
        fun out => interpLoop p o out (tail.dropWhile (· ≠ percent)) := by
    rw [interpLoop.eq_def]
    simp only [if_pos plain]
  have rest_eq : (c :: tail).dropWhile (· ≠ percent) = tail.dropWhile (· ≠ percent) := by
    simp [plain]
  have split : (c :: tail).takeWhile (· ≠ percent) ++ tail.dropWhile (· ≠ percent) = c :: tail := by
    rw [← rest_eq, List.takeWhile_append_dropWhile]
  have nonempty : (c :: tail).takeWhile (· ≠ percent) ≠ [] := by simp [plain]
  obtain ⟨runText, restText⟩ : IsText ((c :: tail).takeWhile (· ≠ percent)) ∧
      IsText (tail.dropWhile (· ≠ percent)) := by
    have whole := isText
    rw [← split] at whole
    cases rest : tail.dropWhile (· ≠ percent) with
    | nil =>
        rw [rest, List.append_nil] at whole
        exact ⟨whole, isText_nil⟩
    | cons first later =>
        have isPercent : first = percent := by
          have stopped := List.head?_dropWhile_not (· ≠ percent) tail
          rw [rest] at stopped
          simpa using stopped
        subst isPercent
        rw [rest] at whole
        obtain ⟨front, back⟩ := whole.parts (by decide)
        exact ⟨front, (isText_one (by decide) (by decide)).append back⟩
  have shorter := (List.dropWhile_sublist (· ≠ percent) (l := tail)).length_le
  have emitted := (appendFront_emits runText nonempty
    (tail.dropWhile (· ≠ percent) ++ [0])).bind (behind restText shorter)
  rw [← List.append_assoc, split] at emitted
  rw [interpreted_run, rest_eq]
  exact emitted.congr step

/-- A percent sign, with the directive it starts. -/
theorem interpLoop_percent (progText : IsText p.progBase) (optTexts : ∀ opt ∈ o, OptTexts opt)
    {tail : List UInt8} (isText : IsText (percent :: tail))
    (behind : ∀ {rest : List UInt8}, IsText rest → rest.length ≤ tail.length →
      Emits (interpLoop p o · rest) (interpreted p o rest)) :
    Emits (interpLoop p o · (percent :: tail)) (interpreted p o (percent :: tail)) := by
  have tailText : IsText tail := isText_behind [percent] isText (by decide)
  by_cases escaped : tail.head? = some percent
  · obtain ⟨rest, rfl⟩ : ∃ rest, tail = percent :: rest := List.head?_eq_some_iff.mp escaped
    have restText : IsText rest := isText_behind [percent] tailText (by decide)
    have emitted := (appendC_emits (isText_ascii "%" (by decide))).bind
      (behind restText (Nat.le_succ _))
    rw [interpreted_escape]
    refine emitted.congr fun out => ?_
    simp only [interpLoop.eq_def p o out (percent :: percent :: rest)]
    rfl
  · rw [interpreted_directive escaped]
    by_cases isProg : (ascii "prog").isPrefixOf tail = true
    · rw [if_pos isProg]
      obtain ⟨rest, rfl⟩ := List.isPrefixOf_iff_prefix.mp isProg
      have restText : IsText rest := isText_behind (ascii "prog") tailText (by decide)
      have emitted := (appendC_emits progText).bind (behind restText (by simp))
      refine emitted.congr fun out => ?_
      simp only [interpLoop.eq_def p o out (percent :: _), ne_eq, not_true_eq_false, ↓reduceIte,
        escaped, isProg]
      rfl
    · rw [if_neg isProg]
      by_cases isDefault : (ascii "default").isPrefixOf tail = true
      · rw [if_pos isDefault]
        obtain ⟨rest, rfl⟩ := List.isPrefixOf_iff_prefix.mp isDefault
        have restText : IsText rest := isText_behind (ascii "default") tailText (by decide)
        cases o with
        | none =>
            have emitted := (appendC_emits (isText_ascii "%default" (by decide))).bind
              (behind restText (by simp))
            refine emitted.congr fun out => ?_
            simp only [interpLoop.eq_def p none out (percent :: _), ne_eq, not_true_eq_false,
              ↓reduceIte, escaped, isProg, isDefault]
            rfl
        | some opt =>
            have emitted := (appendDefault_emits (optTexts opt rfl)).bind
              (behind restText (by simp))
            refine emitted.congr fun out => ?_
            simp only [interpLoop.eq_def p (some opt) out (percent :: _), ne_eq,
              not_true_eq_false, ↓reduceIte, escaped, isProg, isDefault]
            rfl
      · rw [if_neg isDefault]
        cases found : fieldLength tail with
        | none =>
            have emitted := (appendC_emits (isText_ascii "%" (by decide))).bind
              (behind tailText (Nat.le_refl _))
            refine emitted.congr fun out => ?_
            simp only [interpLoop.eq_def p o out (percent :: _), ne_eq, not_true_eq_false,
              ↓reduceIte, escaped, isProg, isDefault, found, Bool.false_eq_true]
        | some len =>
            obtain ⟨field, rest, notClosed, rfl, rfl⟩ := fieldLength_eq_some.mp found
            have inside : IsText (field ++ closeParen :: (0x73 :: rest)) :=
              isText_behind [openParen] tailText (by decide)
            obtain ⟨fieldIsText, closed⟩ := inside.parts (by decide)
            have restText : IsText rest := isText_behind [0x73] closed (by decide)
            have emitted := (appendField_emits progText optTexts fieldIsText
              (ascii ")s" ++ rest ++ [0])).bind (behind restText (by simp; omega))
            have dropped : (openParen :: (field ++ (ascii ")s" ++ rest))).drop (field.length + 3) =
                rest := by
              rw [List.drop_succ_cons, List.drop_length_add_append]
              rfl
            have fieldTake : (field ++ (ascii ")s" ++ rest)).take field.length = field :=
              List.take_left
            simp only [Option.elim_some, List.tail_cons, fieldTake, dropped]
            refine emitted.congr fun out => ?_
            simp only [interpLoop.eq_def p o out (percent :: _), ne_eq, not_true_eq_false,
              ↓reduceIte, escaped, isProg, isDefault, found, dropped, List.tail_cons,
              Bool.false_eq_true]
            rw [List.append_assoc]

/-- The loop of `interp_text` appends what the text stands for. -/
theorem interpLoop_emits (progText : IsText p.progBase) (optTexts : ∀ opt ∈ o, OptTexts opt)
    {rest : List UInt8} (isText : IsText rest) :
    Emits (interpLoop p o · rest) (interpreted p o rest) := by
  induction sized : rest.length using Nat.strong_induction_on generalizing rest with
  | _ size inductionHypothesis =>
      subst sized
      cases rest with
      | nil =>
          rw [interpreted_nil]
          exact emits_nothing.congr fun out => by simp only [interpLoop.eq_def]
      | cons c tail =>
          have behind {rest : List UInt8} (later : IsText rest)
              (shorter : rest.length ≤ tail.length) :
              Emits (interpLoop p o · rest) (interpreted p o rest) :=
            inductionHypothesis _ (Nat.lt_succ_of_le shorter) later rfl
          by_cases plain : c ≠ percent
          · exact interpLoop_literal isText plain behind
          · obtain rfl := not_not.mp plain
            exact interpLoop_percent progText optTexts isText behind

/-- `interp_text`: what the text stands for, or an abort. -/
theorem interpText_eq (progText : IsText p.progBase) (optTexts : ∀ opt ∈ o, OptTexts opt)
    {src : List UInt8} (isText : IsText src) :
    interpText p o src = (interpreted p o src).elim (.abort .invalidArg) .ok := by
  exact (interpLoop_emits progText optTexts isText).appends []

end Loop

/-! ## Values that cannot be appended -/

/-- The part stands for a name or a short name that is appended byte by byte and is not
ASCII. -/
def Directive.CutsValue (o : Option UcbArgOptImpl) (part : Directive) : Prop :=
  ∃ opt ∈ o, (part = .field (ascii "metavar") ∧ opt.metavar = [] ∧ isAscii opt.name = false) ∨
    (part = .field (ascii "short") ∧ ¬opt.shortName.toNat < 0x80)

section Cuts

variable {p : UcbArgHelp} {o : Option UcbArgOptImpl}

theorem metavarText_isSome_iff (opt : UcbArgOptImpl) :
    (metavarText opt).isSome ↔ ¬(opt.metavar = [] ∧ isAscii opt.name = false) := by
  unfold metavarText
  by_cases given : opt.metavar = []
  · by_cases plain : isAscii opt.name = true
    · simp [given, plain]
    · simp [given, plain]
  · simp [given]

theorem shortText_isSome_iff (shortName : UInt8) :
    (shortText shortName).isSome ↔ shortName.toNat < 0x80 := by
  unfold shortText
  by_cases none : shortName = 0
  · simp [none]
  · by_cases small : shortName.toNat < 0x80
    · simp [none, small]
    · simp [none, small]

theorem optFieldText_isSome {opt : UcbArgOptImpl} {name : List UInt8}
    (notMetavar : name ≠ ascii "metavar") (notShort : name ≠ ascii "short") :
    (optFieldText opt name).isSome := by
  simp only [optFieldText, if_neg notMetavar, if_neg notShort]
  repeat' split
  all_goals rfl

theorem Directive.text_isSome_iff (part : Directive) :
    (part.text p o).isSome ↔ ¬part.CutsValue o := by
  cases part with
  | literal c => simp [Directive.text, Directive.CutsValue]
  | prog => simp [Directive.text, Directive.CutsValue]
  | default => simp [Directive.text, Directive.CutsValue]
  | field name =>
      have notProg : ascii "metavar" ≠ ascii "prog" ∧ ascii "short" ≠ ascii "prog" := by decide
      have differ : ascii "short" ≠ ascii "metavar" := by decide
      cases o with
      | none =>
          simp only [Directive.text, fieldText, Directive.CutsValue]
          split <;> simp
      | some opt =>
          simp only [Directive.text, fieldText, Directive.CutsValue, Option.elim_some]
          by_cases isMetavar : name = ascii "metavar"
          · subst isMetavar
            have value : optFieldText opt (ascii "metavar") = metavarText opt := rfl
            simp [if_neg notProg.1, value, metavarText_isSome_iff, Ne.symm differ]
          · by_cases isShort : name = ascii "short"
            · subst isShort
              have value : optFieldText opt (ascii "short") = shortText opt.shortName := rfl
              simp [if_neg notProg.2, value, shortText_isSome_iff, differ]
            · by_cases isProg : name = ascii "prog"
              · subst isProg
                simp [isMetavar, isShort]
              · simp [if_neg isProg, isMetavar, isShort, optFieldText_isSome isMetavar isShort]

/-- A text stands for something exactly if each of its parts does. -/
theorem interpreted_isSome_iff (src : List UInt8) :
    (interpreted p o src).isSome ↔ ∀ part ∈ directives src, ¬part.CutsValue o := by
  rw [interpreted]
  induction directives src with
  | nil => simp
  | cons part parts inductionHypothesis =>
      simp [inductionHypothesis, Directive.text_isSome_iff]

end Cuts

/-! ## Escapes and unknown fields -/

def doublePercent (text : List UInt8) : List UInt8 :=
  text.flatMap fun c => if c = percent then [percent, percent] else [c]

def documentedFields : List (List UInt8) :=
  [ascii "prog", ascii "name", ascii "type", ascii "metavar", ascii "choices", ascii "default",
    ascii "action", ascii "short", ascii "long"]

/-- What stands behind `%(`, when there is no closing parenthesis or no `s` behind the
first one. -/
def Unfinished (text : List UInt8) : Prop :=
  closeParen ∉ text ∨ ∃ field behind, closeParen ∉ field ∧
    text = field ++ closeParen :: behind ∧ behind.head? ≠ some 0x73

section Escapes

variable {p : UcbArgHelp} {o : Option UcbArgOptImpl}

theorem interpreted_doublePercent (src : List UInt8) :
    interpreted p o (doublePercent src) = some src := by
  induction src with
  | nil => exact interpreted_nil
  | cons c src inductionHypothesis =>
      rw [doublePercent, List.flatMap_cons, ← doublePercent]
      by_cases isPercent : c = percent
      · rw [if_pos isPercent, List.cons_append, List.cons_append, List.nil_append,
          interpreted_escape, inductionHypothesis, isPercent]
        rfl
      · rw [if_neg isPercent, List.singleton_append, interpreted_literal isPercent,
          inductionHypothesis]
        rfl

theorem isText_doublePercent {src : List UInt8} (isText : IsText src) :
    IsText (doublePercent src) := by
  induction sized : src.length using Nat.strong_induction_on generalizing src with
  | _ size inductionHypothesis =>
      subst sized
      have plain {run : List UInt8} (without : percent ∉ run) : doublePercent run = run := by
        unfold doublePercent
        have each : ∀ c ∈ run, (if c = percent then [percent, percent] else [c]) = [c] := by
          intro c member
          refine if_neg ?_
          rintro rfl
          exact without member
        rw [List.flatMap_congr each, List.flatMap_singleton']
      by_cases inside : percent ∈ src
      · obtain ⟨front, back, rfl, without⟩ := List.eq_append_cons_of_mem inside
        obtain ⟨frontText, backText⟩ := isText.parts (by decide)
        have later := inductionHypothesis back.length (by simp; omega) backText rfl
        have split : doublePercent (front ++ percent :: back) =
            front ++ ([percent, percent] ++ doublePercent back) := by
          conv_rhs => rw [← plain without]
          simp [doublePercent]
        rw [split]
        have signs : IsText [percent, percent] := isText_of_ascii (by simp [percent])
        exact frontText.append (signs.append later)
      · rw [plain inside]
        exact isText

theorem fieldText_unknown {field : List UInt8} (unknown : field ∉ documentedFields) :
    fieldText p o field = some (unknownText field) := by
  simp only [documentedFields, List.mem_cons, List.not_mem_nil, or_false, not_or] at unknown
  obtain ⟨notProg, notName, notType, notMetavar, notChoices, notDefault, notAction, notShort,
    notLong⟩ := unknown
  rw [fieldText, if_neg notProg]
  cases o with
  | none => rfl
  | some opt =>
      simp only [Option.elim_some, optFieldText, notName, notType, notMetavar, notChoices,
        notDefault, notAction, notShort, notLong, ↓reduceIte]

theorem fieldLength_unfinished {text : List UInt8} (unfinished : Unfinished text) :
    fieldLength (openParen :: text) = none := by
  by_contra found
  obtain ⟨len, found⟩ := Option.ne_none_iff_exists'.mp found
  obtain ⟨field, behind, notClosed, -, same⟩ := fieldLength_eq_some.mp found
  have text_eq : text = field ++ closeParen :: (0x73 :: behind) := (List.cons.inj same).2
  obtain without | ⟨other, rest, otherNotClosed, other_eq, notNext⟩ := unfinished
  · exact without (by simp [text_eq])
  · -- both are cut at the first closing parenthesis
    have scanned {run : List UInt8} (notClosed : closeParen ∉ run) (rest : List UInt8) :
        (run ++ closeParen :: rest).dropWhile (· ≠ closeParen) = closeParen :: rest := by
      rw [List.dropWhile_append_of_pos]
      · simp
      · intro c member
        have other : c ≠ closeParen := by
          rintro rfl
          exact notClosed member
        simpa using other
    have here := scanned otherNotClosed rest
    rw [← other_eq, text_eq, scanned notClosed] at here
    exact notNext (by rw [← (List.cons.inj here).2]; rfl)

theorem interpreted_unfinished {text : List UInt8} (unfinished : Unfinished text) :
    interpreted p o (ascii "%(" ++ text) = glue (some (ascii "%(")) (interpreted p o text) := by
  have single : (openParen :: text).head? ≠ some percent := by simp [openParen, percent]
  have here := interpreted_directive (p := p) (o := o) single
  rw [fieldLength_unfinished unfinished] at here
  have paren : interpreted p o (openParen :: text) =
      glue (some [openParen]) (interpreted p o text) :=
    interpreted_literal (by decide) text
  rw [paren] at here
  exact here.trans (glue_cons percent).symm

end Escapes

/-! ## Interpolation of a text -/

/-- What interpolating a text does: it gives a text, it undoes the doubling of percent
signs, and in front of the text it keeps what is no directive. -/
structure Interpolates (p : UcbArgHelp) (o : Option UcbArgOptImpl) (src : List UInt8) : Prop where
  returns : ∃ text, interpText p o src = .ok text ∧ IsText text
  doubled : interpText p o (doublePercent src) = .ok src
  literal : ∀ front, IsText front → percent ∉ front →
    interpText p o (front ++ src) = (front ++ ·) <$> interpText p o src
  unknown : ∀ field, IsText field → closeParen ∉ field → field ∉ documentedFields →
    interpText p o (ascii "%(" ++ field ++ ascii ")s" ++ src) =
      (ascii "%(" ++ field ++ ascii ")s" ++ ·) <$> interpText p o src
  unfinished : Unfinished src →
    interpText p o (ascii "%(" ++ src) = (ascii "%(" ++ ·) <$> interpText p o src

section Whole

variable {p : UcbArgHelp} {o : Option UcbArgOptImpl} {src : List UInt8}

/-- What stands for itself in front of a text stays in front of the interpolated text. -/
theorem interpText_front (progText : IsText p.progBase) (optTexts : ∀ opt ∈ o, OptTexts opt)
    (isText : IsText src) {front : List UInt8} (frontText : IsText front)
    (kept : interpreted p o (front ++ src) = glue (some front) (interpreted p o src)) :
    interpText p o (front ++ src) = (front ++ ·) <$> interpText p o src := by
  rw [interpText_eq progText optTexts (frontText.append isText), kept,
    interpText_eq progText optTexts isText]
  cases interpreted p o src <;> rfl

/-- The interpolation of a text does all this exactly if no directive of the text stands
for a value that is appended in pieces. -/
theorem interpolates_iff (progText : IsText p.progBase) (optTexts : ∀ opt ∈ o, OptTexts opt)
    (isText : IsText src) :
    Interpolates p o src ↔ ∀ part ∈ directives src, ¬part.CutsValue o := by
  rw [← interpreted_isSome_iff (p := p), Option.isSome_iff_exists]
  have outcome := interpText_eq progText optTexts isText
  constructor
  · rintro ⟨⟨text, returned, -⟩, -, -, -, -⟩
    rw [outcome] at returned
    cases stands : interpreted p o src with
    | none => simp [stands] at returned
    | some text => exact ⟨text, rfl⟩
  · rintro ⟨text, stands⟩
    have front (literal : String)
        (plain : (ascii literal).all (fun c => c ≠ 0 && c.toNat < 0x80) = true) :=
      isText_ascii literal plain
    exact {
      returns := by
        have textIsText := (interpLoop_emits progText optTexts isText).isText text stands
        rw [stands] at outcome
        exact ⟨text, outcome, textIsText⟩
      doubled := by
        rw [interpText_eq progText optTexts (isText_doublePercent isText),
          interpreted_doublePercent]
        rfl
      literal := fun front frontText without => interpText_front progText optTexts isText
        frontText (interpreted_append without src)
      unknown := fun field fieldIsText notClosed unknown => by
        have whole : IsText (unknownText field) :=
          ((front "%(" (by decide)).append fieldIsText).append (front ")s" (by decide))
        have kept := interpreted_field (p := p) (o := o) notClosed src
        rw [fieldText_unknown unknown] at kept
        exact interpText_front progText optTexts isText whole kept
      unfinished := fun unfinished => interpText_front progText optTexts isText
        (front "%(" (by decide)) (interpreted_unfinished unfinished) }

end Whole

/-- An option with the name `é` that takes a value and has no metavar. -/
def accentedOpt : UcbArgOptImpl :=
  ⟨[0xC3, 0xA9], 0x65, [], ascii "-e", .str, .store, some 0, none, [], ascii "%(metavar)s", [],
    false⟩

def accentedParser : UcbArgHelp where
  version := []
  opts := [accentedOpt]
  progBase := ascii "tool"
  usage := []
  description := []
  width := 80

theorem optTexts_accentedOpt : OptTexts accentedOpt where
  name := ⟨(Unicode.validate_ok_iff _).mp rfl, by decide⟩
  longName := isText_nil
  default text absent := by cases absent
  metavar := isText_nil
  help := isText_ascii "%(metavar)s" (by decide)
  choices choice absent := by cases absent

theorem interpolates_iff_accented :
    Interpolates accentedParser (some accentedOpt) (ascii "%(metavar)s") ↔
      ∀ part ∈ directives (ascii "%(metavar)s"), ¬part.CutsValue (some accentedOpt) :=
  interpolates_iff (isText_ascii "tool" (by decide))
    (fun _ same => Option.some.inj same ▸ optTexts_accentedOpt)
    (isText_ascii "%(metavar)s" (by decide))

/-- The first byte of the name is no text. -/
theorem accented_metavar_aborts :
    interpText accentedParser (some accentedOpt) (ascii "%(metavar)s") = .abort .invalidArg := by
  have outcome := interpText_eq (p := accentedParser) (isText_ascii "tool" (by decide))
    (fun _ same => Option.some.inj same ▸ optTexts_accentedOpt)
    (isText_ascii "%(metavar)s" (by decide))
  have stands : interpreted accentedParser (some accentedOpt) (ascii "%(metavar)s") = none := by
    have notClosed : closeParen ∉ ascii "metavar" := by decide
    have field := interpreted_field (p := accentedParser) (o := some accentedOpt) notClosed []
    rw [List.append_nil] at field
    exact field
  rw [stands] at outcome
  exact outcome

theorem accented_not_interpolated :
    ¬Interpolates accentedParser (some accentedOpt) (ascii "%(metavar)s") := by
  rintro ⟨⟨text, returned, -⟩, -, -, -, -⟩
  cases accented_metavar_aborts.symm.trans returned

end Ucb.Argparse
