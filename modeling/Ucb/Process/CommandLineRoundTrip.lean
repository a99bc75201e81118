import Ucb.Process.CommandLineReading
import Mathlib.Algebra.Group.Nat.Even

/-!
Contract: the command line of `process_win32.c` as a round trip.

Owns:
- how far the program name goes in a command line;
- exactly when building a command line succeeds and the MSVCRT reads the arguments
  in it, and the program name if that has no quotes.

In the program name the MSVCRT takes every backslash as a character. There the
backslashes that the code doubles stay two, and a quote behind one still parts
quoted text from other text.
-/

namespace Ucb.Process

open Ucb.Str Ucb.Unicode Ucb.Lib.Msvcrt

variable {program text front back : List UInt8} {args : List (List UInt8)} {inQuotes : Bool}
  {backslashes : Nat}

/-! ## Quotes in escaped text -/

theorem shelter_backslashes (inQuotes : Bool) (text : List UInt8) (n : Nat) :
    sheltered inQuotes (List.replicate n backslash ++ text) = sheltered inQuotes text ∧
      quotedAfter inQuotes (List.replicate n backslash ++ text) = quotedAfter inQuotes text := by
  induction n with
  | zero => exact ⟨rfl, rfl⟩
  | succ n inductionHypothesis =>
      have different : backslash ≠ quote := by decide
      simp [List.replicate_succ, sheltered, quotedAfter_cons, different, not_blank_backslash,
        inductionHypothesis]

theorem shelter_replicate (n : Nat) : sheltered inQuotes (List.replicate n backslash) = true ∧
    quotedAfter inQuotes (List.replicate n backslash) = inQuotes := by
  have parts := shelter_backslashes inQuotes [] n
  rwa [List.append_nil] at parts

theorem shelter_escaped :
    sheltered inQuotes (escaped backslashes text).1 = sheltered inQuotes text ∧
      quotedAfter inQuotes (escaped backslashes text).1 = quotedAfter inQuotes text := by
  induction text generalizing inQuotes backslashes with
  | nil => exact ⟨rfl, rfl⟩
  | cons p text inductionHypothesis =>
      have different : backslash ≠ quote := by decide
      simp only [escaped]
      split
      next same =>
        simp [same, sheltered, quotedAfter_cons, different, not_blank_backslash,
          inductionHypothesis]
      next =>
        split
        next same =>
          simp [shelter_backslashes, same, sheltered, quotedAfter_cons, inductionHypothesis]
        next other =>
          simp [shelter_backslashes, sheltered, quotedAfter_cons, other, inductionHypothesis]

theorem shelter_flushed : sheltered inQuotes (flushed text) = sheltered inQuotes text ∧
    quotedAfter inQuotes (flushed text) = quotedAfter inQuotes text := by
  simp [flushed, sheltered_append, quotedAfter_append, shelter_escaped, shelter_replicate]

theorem shelter_closedText : sheltered inQuotes (closedText text) = sheltered inQuotes text ∧
    quotedAfter inQuotes (closedText text) = !quotedAfter inQuotes text := by
  have last (q : Bool) : sheltered q [quote] = true ∧ quotedAfter q [quote] = !q := by
    cases q <;> exact ⟨rfl, rfl⟩
  simp [closedText_eq, sheltered_append, quotedAfter_append, shelter_escaped, shelter_replicate,
    last]

theorem sheltered_iff : sheltered inQuotes text = true ↔
    ∀ front c back, text = front ++ c :: back → isBlank c = true →
      quotedAfter inQuotes front = true := by
  constructor
  · rintro inside front c back rfl blank
    rw [sheltered_append, Bool.and_eq_true] at inside
    have here := inside.2
    simp only [sheltered, ne_quote_of_blank blank, ↓reduceIte, blank, Bool.not_true,
      Bool.false_or, Bool.and_eq_true] at here
    exact here.1
  · intro all
    by_contra broken
    obtain ⟨front, c, back, split, blank, outside, -⟩ :=
      exists_outside (Bool.eq_false_iff.mpr broken)
    rw [all front c back split blank] at outside
    cases outside

theorem quotedAfter_true_iff : quotedAfter true text = true ↔ Even (text.count quote) := by
  rw [quotedAfter_eq, Nat.even_iff]
  rcases Nat.mod_two_eq_zero_or_one (text.count quote) with even | odd
  · simp [even]
  · simp [odd]

theorem quotedAfter_noQuote (noQuote : quote ∉ text) : quotedAfter inQuotes text = inQuotes := by
  rw [quotedAfter_eq, List.count_eq_zero_of_not_mem noQuote]
  cases inQuotes <;> rfl

theorem sheltered_unbroken (unbroken : text.any isBlank = false) :
    sheltered inQuotes text = true := by
  refine sheltered_iff.mpr ?_
  rintro front c back rfl blank
  simp [blank] at unbroken

/-! ## The program name -/

/-- Between two arguments the program name ends. -/
theorem programName_furtherText : programName false (furtherText args) = ([], lineText args) := by
  cases args with
  | nil => rfl
  | cons arg args => rfl

/-- A blank outside quotes ends the program name within an argument. -/
theorem programName_broken (broken : sheltered inQuotes text = false) :
    ∃ front c back, text = front ++ c :: back ∧ isBlank c = true ∧
      ∀ rest, (programName inQuotes (closedText text ++ rest)).2 = closedText back ++ rest := by
  obtain ⟨front, c, back, rfl, blank, outside, inside⟩ := exists_outside broken
  refine ⟨front, c, back, rfl, blank, fun rest => ?_⟩
  rw [closedText_blank blank, List.append_assoc, List.cons_append]
  exact programName_outside (shelter_flushed.1.trans inside) blank
    (shelter_flushed.2.trans outside)

theorem programName_closedText (inside : sheltered inQuotes text = true) :
    programName inQuotes (closedText text ++ back) =
      ((closedText text).filter (· ≠ quote) ++ (programName (!quotedAfter inQuotes text) back).1,
        (programName (!quotedAfter inQuotes text) back).2) := by
  rw [programName_sheltered (shelter_closedText.1.trans inside), shelter_closedText.2]

/-- A program name that goes on into the arguments leaves others. -/
theorem programName_into_args : ∀ {inQuotes : Bool} (inFront : List (List UInt8)),
    (inQuotes = true ∨ inFront ≠ []) → inFront ++ args ≠ [] →
      msvcrtArgs (programName inQuotes (furtherText args)).2 ≠ inFront ++ args := by
  induction args with
  | nil =>
      intro inQuotes inFront _ nonempty read
      exact nonempty read.symm
  | cons arg args inductionHypothesis =>
      intro inQuotes inFront into nonempty read
      cases inQuotes with
      | false =>
          have inFrontNonempty := into.resolve_left Bool.false_ne_true
          rw [programName_furtherText, msvcrtArgs_lineText] at read
          have lengths := congrArg List.length read
          rw [List.length_append] at lengths
          exact inFrontNonempty (List.eq_nil_of_length_eq_zero (by omega))
      | true =>
          have more : inFront ++ [arg] ≠ [] := by simp
          have moved : inFront ++ arg :: args = inFront ++ [arg] ++ args := by simp
          have spaced : (programName true (furtherText (arg :: args))).2 =
              (programName true (argText arg ++ furtherText args)).2 := rfl
          rw [spaced, moved] at read
          cases quoted : processWin32ArgNeedsQuotes arg with
          | false =>
              obtain ⟨-, unbroken, noQuote⟩ := needsQuotes_iff.mp quoted
              rw [argText_plain quoted, programName_sheltered (sheltered_unbroken unbroken),
                quotedAfter_noQuote noQuote] at read
              exact inductionHypothesis _ (.inl rfl) (by simp) read
          | true =>
              have opened : programName true (argText arg ++ furtherText args) =
                  programName false (closedText arg ++ furtherText args) := by
                rw [argText_quoted quoted]
                rfl
              rw [opened] at read
              cases inside : sheltered false arg with
              | true =>
                  rw [programName_closedText inside] at read
                  exact inductionHypothesis _ (.inr more) (by simp) read
              | false =>
                  obtain ⟨front, c, back, rfl, blank, ended⟩ := programName_broken inside
                  rw [ended] at read
                  refine args_closedText_ne _ _ (List.suffix_refl _) (fun last isLast => ?_) read
                  rw [List.getLast?_concat] at isLast
                  obtain rfl := Option.some.inj isLast
                  simp [blank]

/-! ## The round trip -/

/-- Building the command line gives one in which the MSVCRT reads the arguments, and the
program name if it has no quotes. -/
def Restored (allocator : Allocator) (program : List UInt8) (args : List (List UInt8)) : Prop :=
  ∃ line, processWin32BuildCommandLine allocator (program :: args) = .ok (some line) ∧
    (msvcrtCommandLine line).2 = args ∧
    (quote ∉ program → (msvcrtCommandLine line).1 = program)

/-- A program name in which no blank is behind an odd number of quotes, and no argument
behind all of them if these are odd. Without quotes it ends with no backslash, unless it
is not quoted either. -/
def ProgramRestored (program : List UInt8) (args : List (List UInt8)) : Prop :=
  if quote ∈ program then
    (∀ front c back, program = front ++ c :: back → isBlank c = true →
      Even (front.count quote)) ∧
    (Even (program.count quote) ∨ args = [])
  else processWin32ArgNeedsQuotes program = true → program.getLast? ≠ some backslash

theorem escaped_getLast? (backslashes : Nat) :
    (escaped backslashes text).1.getLast? ≠ some backslash := by
  induction text generalizing backslashes with
  | nil => simp [escaped]
  | cons p text inductionHypothesis =>
      have ends (c : UInt8) (other : c ≠ backslash) (n : Nat) :
          (List.replicate n backslash ++ c :: (escaped 0 text).1).getLast? ≠ some backslash := by
        rw [List.getLast?_append_of_ne_nil _ (List.cons_ne_nil c _), List.getLast?_cons]
        cases last : (escaped 0 text).1.getLast? with
        | none => simpa using other
        | some before => simpa [last] using inductionHypothesis 0
      simp only [escaped]
      split
      next => exact inductionHypothesis (backslashes + 1)
      next other =>
        split
        next => exact ends quote (by decide) _
        next => exact ends p other _

theorem escaped_left_iff (noQuote : quote ∉ text) :
    (escaped 0 text).2 = 0 ↔ text.getLast? ≠ some backslash := by
  have whole := escaped_plain noQuote
  rw [← congrArg List.getLast? whole, flushed]
  cases (escaped 0 text).2 with
  | zero => simpa using escaped_getLast? 0
  | succ n => simp [List.getLast?_append, List.getLast?_replicate]

/-- With quotes around it, a program name without quotes is read with its last
backslashes doubled. -/
theorem closedText_filter (noQuote : quote ∉ text) :
    (closedText text).filter (· ≠ quote) = text ++ List.replicate (escaped 0 text).2 backslash := by
  have noQuotes : ∀ c ∈ (escaped 0 text).1, c ≠ quote :=
    (forall_escaped (by decide)).mpr fun c member same => noQuote (same ▸ member)
  have different : backslash ≠ quote := by decide
  have kept : (escaped 0 text).1.filter (· ≠ quote) = (escaped 0 text).1 :=
    List.filter_eq_self.mpr fun c member => decide_eq_true (noQuotes c member)
  have doubled : text ++ List.replicate (escaped 0 text).2 backslash =
      (escaped 0 text).1 ++ List.replicate ((escaped 0 text).2 * 2) backslash := by
    rw [Nat.mul_two, List.replicate_add, ← List.append_assoc]
    exact congrArg (· ++ _) (escaped_plain noQuote).symm
  rw [closedText_eq, List.filter_append, kept, doubled]
  simp [different]

/-- What a program name and arguments in a row are read as. -/
theorem line_noQuote (noQuote : quote ∉ program) :
    msvcrtCommandLine (lineText (program :: args)) =
      (program ++ (if processWin32ArgNeedsQuotes program then
        List.replicate (escaped 0 program).2 backslash else []), args) := by
  cases quoted : processWin32ArgNeedsQuotes program with
  | false =>
      obtain ⟨-, unbroken, -⟩ := needsQuotes_iff.mp quoted
      have same : program.filter (· ≠ quote) = program :=
        List.filter_eq_self.mpr fun c member => decide_eq_true (ne_of_mem_of_not_mem member noQuote)
      rw [msvcrtCommandLine, lineText, argText_plain quoted,
        programName_sheltered (sheltered_unbroken unbroken), quotedAfter_noQuote noQuote,
        programName_furtherText, same]
      simp [msvcrtArgs_lineText]
  | true =>
      have inside : sheltered true program = true :=
        sheltered_iff.mpr fun front c back split _ => quotedAfter_noQuote fun member =>
          noQuote (split ▸ List.mem_append_left _ member)
      have opened : programName false (lineText (program :: args)) =
          programName true (closedText program ++ furtherText args) := by
        rw [lineText, argText_quoted quoted]
        rfl
      rw [msvcrtCommandLine, opened, programName_closedText inside, quotedAfter_noQuote noQuote,
        Bool.not_true, programName_furtherText, closedText_filter noQuote]
      simp [msvcrtArgs_lineText]

theorem line_quote_iff (hasQuote : quote ∈ program) :
    (msvcrtCommandLine (lineText (program :: args))).2 = args ↔
      sheltered true program = true ∧ (quotedAfter true program = true ∨ args = []) := by
  have quoted : processWin32ArgNeedsQuotes program = true := by
    by_contra plain
    exact (needsQuotes_iff.mp (Bool.eq_false_iff.mpr plain)).2.2 hasQuote
  have opened : (msvcrtCommandLine (lineText (program :: args))).2 =
      msvcrtArgs (programName true (closedText program ++ furtherText args)).2 := by
    rw [lineText, argText_quoted quoted]
    rfl
  rw [opened]
  cases inside : sheltered true program with
  | false =>
      obtain ⟨front, c, back, rfl, blank, ended⟩ := programName_broken inside
      rw [ended]
      refine iff_of_false ?_ (by simp)
      exact args_closedText_ne [] back (List.suffix_refl args) fun last isLast => by cases isLast
  | true =>
      rw [programName_closedText inside]
      cases odd : quotedAfter true program with
      | true =>
          refine iff_of_true ?_ ⟨rfl, .inl rfl⟩
          rw [Bool.not_true, programName_furtherText]
          exact msvcrtArgs_lineText
      | false =>
          by_cases none : args = []
          · subst none
            exact iff_of_true rfl ⟨rfl, .inr rfl⟩
          · refine iff_of_false ?_ fun both => both.2.elim Bool.false_ne_true none
            exact programName_into_args [] (.inl rfl) none

/-- A line is read back exactly if its program name is one that can be. -/
theorem line_restored_iff : ((msvcrtCommandLine (lineText (program :: args))).2 = args ∧
    (quote ∉ program → (msvcrtCommandLine (lineText (program :: args))).1 = program)) ↔
      ProgramRestored program args := by
  by_cases hasQuote : quote ∈ program
  · rw [ProgramRestored, if_pos hasQuote, line_quote_iff hasQuote, sheltered_iff]
    simp only [quotedAfter_true_iff, hasQuote, not_true_eq_false, false_implies, and_true]
  · rw [ProgramRestored, if_neg hasQuote, line_noQuote hasQuote]
    simp only [hasQuote, not_false_eq_true, true_implies, true_and]
    cases processWin32ArgNeedsQuotes program with
    | false => simp
    | true =>
        simp only [↓reduceIte, true_implies, ← escaped_left_iff hasQuote]
        simp

/-- A command line restores its arguments exactly when these are ASCII and the program
name can be read back. -/
theorem commandLine_restored_iff {allocator : Allocator} (generous : allocator.Generous)
    {program : List UInt8} {args : List (List UInt8)}
    (noNul : ∀ arg ∈ program :: args, 0 ∉ arg) :
    Restored allocator program args ↔
      (∀ arg ∈ program :: args, ∀ c ∈ arg, c.toNat < 0x80) ∧ ProgramRestored program args := by
  have ascii_iff : (program :: args).all (·.all (·.toNat < 0x80)) = true ↔
      ∀ arg ∈ program :: args, ∀ c ∈ arg, c.toNat < 0x80 := by
    simp only [List.all_eq_true, decide_eq_true_eq]
  rw [Restored, buildCommandLine_outcome generous noNul, ← line_restored_iff, ← ascii_iff]
  split
  next ascii =>
    constructor
    · rintro ⟨line, made, restored⟩
      obtain rfl := Option.some.inj (Exec.ok.inj made)
      exact ⟨ascii, restored⟩
    · rintro ⟨-, restored⟩
      exact ⟨_, rfl, restored⟩
  next other =>
    refine iff_of_false ?_ fun both => other both.1
    rintro ⟨line, made, -⟩
    cases made

/-- A program `a` with an argument that has a space and a backslash in front of a quote. -/
theorem commandLine_restored_iff_quoted :
    Restored ⟨fun _ _ => true, fun _ => 0⟩ [0x61] [[0x62, 0x20, 0x5C, 0x22]] :=
  (commandLine_restored_iff (fun _ _ => rfl) (by decide)).mpr
    ⟨by simp, fun quoted => absurd quoted (by decide)⟩

/-- An argument `é` is valid, and the command line for it is never built. -/
theorem commandLine_of_accented :
    IsText [0xC3, 0xA9] ∧ ¬ Restored ⟨fun _ _ => true, fun _ => 0⟩ [0x61] [[0xC3, 0xA9]] := by
  refine ⟨⟨(validate_ok_iff _).mp rfl, by decide⟩, ?_⟩
  rintro ⟨line, made, -⟩
  rw [buildCommandLine_outcome (fun _ _ => rfl) (by decide), if_neg (by decide)] at made
  cases made

end Ucb.Process
