import Ucb.Process.CommandLine

/-!
Contract: what the MSVCRT reads in a command line of `process_win32.c`.

Owns:
- that the text of every argument is read back, and of arguments in a row;
- what is read from the middle of an argument on, and that these are never the
  arguments of the line;
- exactly when the arguments and the program name are read back.
-/

namespace Ucb.Process

open Ucb.Lib.Msvcrt

variable {arg text front back : List UInt8} {args read : List (List UInt8)} {made : Arg}
  {backslashes : Nat} {c : UInt8}

/-! ## Escaped characters -/

theorem escaped_append : escaped backslashes (front ++ back) =
    ((escaped backslashes front).1 ++ (escaped (escaped backslashes front).2 back).1,
      (escaped (escaped backslashes front).2 back).2) := by
  induction front generalizing backslashes with
  | nil => rfl
  | cons p front inductionHypothesis =>
      simp only [List.cons_append, escaped]
      split
      · exact inductionHypothesis
      · split <;> simp [inductionHypothesis]

def flushed (text : List UInt8) : List UInt8 :=
  (escaped 0 text).1 ++ List.replicate (escaped 0 text).2 backslash

theorem closedText_eq : closedText text = (escaped 0 text).1 ++
    (List.replicate ((escaped 0 text).2 * 2) backslash ++ [quote]) :=
  List.append_assoc ..

theorem closedText_blank (blank : isBlank c = true) :
    closedText (front ++ c :: back) = flushed front ++ c :: closedText back := by
  simp [closedText, escaped_append, escaped, flushed, ne_quote_of_blank blank,
    ne_backslash_of_blank blank]

theorem feed_backslashes (n : Nat) :
    (List.replicate n backslash).foldl Arg.feed made =
      ⟨if n = 0 then made.mode else made.mode.settled, made.slashes + n, made.text⟩ := by
  induction n generalizing made with
  | zero => rfl
  | succ n inductionHypothesis =>
      have settled : made.mode.settled.settled = made.mode.settled := by cases made.mode <;> rfl
      rw [List.replicate_succ, List.foldl_cons, inductionHypothesis]
      simp [Arg.feed, settled, Nat.add_assoc, Nat.add_comm 1 n]

/-- Escaped text is read as the text, and leaves the mode as it is but for `closing`. -/
theorem feed_escaped (backslashes : Nat) (mode : ArgMode) (before text : List UInt8) :
    ∃ mode' after, (escaped backslashes text).1.foldl Arg.feed ⟨mode, 0, before⟩ =
      ⟨mode', 0, after⟩ ∧
      (mode' = mode ∨ mode' = mode.settled) ∧
      after ++ List.replicate (escaped backslashes text).2 backslash =
        before ++ List.replicate backslashes backslash ++ text := by
  induction text generalizing mode before backslashes with
  | nil => exact ⟨mode, before, rfl, .inl rfl, by simp [escaped]⟩
  | cons p text inductionHypothesis =>
      have settled : mode.settled.settled = mode.settled := by cases mode <;> rfl
      simp only [escaped]
      split
      next same =>
        obtain ⟨mode', after, fed, kept, content⟩ := inductionHypothesis
          (backslashes + 1) mode before
        exact ⟨mode', after, fed, kept, by simp [content, List.replicate_succ', same]⟩
      next =>
        split
        next same =>
          subst same
          obtain ⟨mode', after, fed, kept, content⟩ := inductionHypothesis 0 mode.settled
            (before ++ List.replicate backslashes backslash ++ [quote])
          refine ⟨mode', after, ?_, ?_, by simp [content]⟩
          · rw [List.foldl_append, feed_backslashes, List.foldl_cons,
              Arg.feed_quote_odd backslashes (by simp [Nat.mul_comm])]
            simpa using fed
          · rw [settled, or_self] at kept
            exact .inr kept
        next other notQuote =>
          obtain ⟨mode', after, fed, kept, content⟩ := inductionHypothesis 0 mode.settled
            (before ++ List.replicate backslashes backslash ++ [p])
          refine ⟨mode', after, ?_, ?_, by simp [content]⟩
          · rw [List.foldl_append, feed_backslashes, List.foldl_cons]
            have plain :
                (if backslashes = 0 then mode else mode.settled).settled = mode.settled := by
              split
              · rfl
              · exact settled
            simpa [Arg.feed, other, notQuote, plain] using fed
          · rw [settled, or_self] at kept
            exact .inr kept

/-- The rest of a quoted argument ends a quoted string, or begins one where the reader is
in none. -/
theorem feed_closed (mode : ArgMode) (before text : List UInt8) :
    (mode = .quoted ∧ (closedText text).foldl Arg.feed ⟨mode, 0, before⟩ =
        ⟨.closing, 0, before ++ text⟩) ∨
      (mode ≠ .quoted ∧ ∃ after, (closedText text).foldl Arg.feed ⟨mode, 0, before⟩ =
          ⟨.quoted, 0, after⟩ ∧
        (after = before ++ text ∨ after = before ++ text ++ [quote])) := by
  obtain ⟨mode', after, fed, kept, content⟩ := feed_escaped 0 mode before text
  rw [List.replicate_zero, List.append_nil] at content
  generalize reached : (if (escaped 0 text).2 * 2 = 0 then mode' else mode'.settled) = last
  have whole : (closedText text).foldl Arg.feed ⟨mode, 0, before⟩ =
      Arg.feed ⟨last, (escaped 0 text).2 * 2, after⟩ quote := by
    rw [closedText, List.foldl_append, List.foldl_append, fed, feed_backslashes, ← reached]
    simp
  rw [whole, Arg.feed_quote_even (escaped 0 text).2 (Nat.mul_comm ..), content]
  by_cases inQuotes : mode = .quoted
  · subst inQuotes
    obtain rfl : mode' = .quoted := by rcases kept with rfl | rfl <;> rfl
    obtain rfl : last = .quoted := by
      rw [← reached]
      split <;> rfl
    exact .inl ⟨rfl, rfl⟩
  · refine .inr ⟨inQuotes, ?_⟩
    have outside : mode' ≠ .quoted := by
      rcases kept with rfl | rfl
      · exact inQuotes
      · cases mode with
        | quoted => exact absurd rfl inQuotes
        | plain | closing => exact fun same => by cases same
    have lastOutside : last ≠ .quoted := by
      rw [← reached]
      split
      · exact outside
      · cases mode' with
        | quoted => exact absurd rfl outside
        | plain | closing => exact fun same => by cases same
    cases last with
    | quoted => exact absurd rfl lastOutside
    | plain => exact ⟨_, rfl, .inl rfl⟩
    | closing => exact ⟨_, rfl, .inr rfl⟩

theorem reader_escaped {before : List UInt8} :
    ArgReader.feed ⟨read, some ⟨.quoted, 0, before⟩⟩ (escaped backslashes text).1 =
      ⟨read, some ((escaped backslashes text).1.foldl Arg.feed ⟨.quoted, 0, before⟩)⟩ := by
  have unbroken : ∀ n, (List.replicate n backslash).any isBlank = false := fun n => by
    simp [not_blank_backslash]
  induction text generalizing before backslashes with
  | nil => rfl
  | cons p text inductionHypothesis =>
      simp only [escaped]
      split
      · exact inductionHypothesis
      · split
        next same =>
          rw [ArgReader.feed_append, ArgReader.feed_current (unbroken _), ArgReader.feed_cons,
            ArgReader.step_quoted (by rw [feed_backslashes]; split <;> rfl), List.foldl_append,
            List.foldl_cons, feed_backslashes,
            Arg.feed_quote_odd backslashes (by simp [Nat.mul_comm])]
          simpa [ArgMode.settled] using inductionHypothesis
        next other notQuote =>
          rw [ArgReader.feed_append, ArgReader.feed_current (unbroken _), ArgReader.feed_cons,
            ArgReader.step_quoted (by rw [feed_backslashes]; split <;> rfl), List.foldl_append,
            List.foldl_cons, feed_backslashes]
          simpa [ArgMode.settled, Arg.feed, other, notQuote] using inductionHypothesis

/-! ## Arguments that are read back -/

theorem reader_closed {before : List UInt8} :
    ArgReader.feed ⟨read, some ⟨.quoted, 0, before⟩⟩ (closedText text) =
      ⟨read, some ⟨.closing, 0, before ++ text⟩⟩ := by
  have fed := (feed_closed .quoted before text).resolve_right fun absurd => absurd.1 rfl
  have unbroken : (List.replicate ((escaped 0 text).2 * 2) backslash ++ [quote]).any isBlank =
      false := by
    simp [not_blank_backslash, not_blank_quote]
  rw [← fed.2, closedText_eq, ArgReader.feed_append, reader_escaped,
    ArgReader.feed_current unbroken, ← List.foldl_append]

theorem escaped_plain (noQuote : quote ∉ text) : flushed text = text := by
  have general : ∀ backslashes, (escaped backslashes text).1 ++
      List.replicate (escaped backslashes text).2 backslash =
        List.replicate backslashes backslash ++ text := by
    induction text with
    | nil => simp [escaped]
    | cons p text inductionHypothesis =>
        obtain ⟨notQuote, later⟩ := not_or.mp (List.mem_cons.not.mp noQuote)
        intro backslashes
        simp only [escaped]
        split
        next same => simp [inductionHypothesis later, List.replicate_succ', same]
        next =>
          rw [if_neg (Ne.symm notQuote)]
          simp [inductionHypothesis later]
  exact general 0

theorem needsQuotes_iff : processWin32ArgNeedsQuotes arg = false ↔
    arg ≠ [] ∧ arg.any isBlank = false ∧ quote ∉ arg := by
  have parts : (∀ p ∈ arg, ¬ (p = 0x20 ∨ p = 0x09 ∨ p = quote)) ↔
      (∀ p ∈ arg, isBlank p = false) ∧ quote ∉ arg := by
    constructor
    · intro all
      refine ⟨fun p member => ?_, fun member => all quote member (.inr (.inr rfl))⟩
      have other := all p member
      simp only [not_or] at other
      simp [isBlank, other]
    · rintro ⟨blanks, quotes⟩ p member (rfl | rfl | rfl)
      · cases blanks _ member
      · cases blanks _ member
      · exact quotes member
  simpa [processWin32ArgNeedsQuotes, or_assoc] using fun _ : arg ≠ [] => parts

theorem argText_quoted (quoted : processWin32ArgNeedsQuotes arg = true) :
    argText arg = quote :: closedText arg :=
  if_pos quoted

theorem argText_plain (plain : processWin32ArgNeedsQuotes arg = false) : argText arg = arg := by
  obtain ⟨-, -, noQuote⟩ := needsQuotes_iff.mp plain
  rw [argText, plain]
  exact escaped_plain noQuote

theorem feed_plain (made : Arg) (noQuote : quote ∉ text) :
    (text.foldl Arg.feed made).finish = made.finish ++ text ∧
      (text.foldl Arg.feed made).mode = if text = [] then made.mode else made.mode.settled := by
  induction text generalizing made with
  | nil => exact ⟨(List.append_nil _).symm, rfl⟩
  | cons c text inductionHypothesis =>
      obtain ⟨notQuote, later⟩ := not_or.mp (List.mem_cons.not.mp noQuote)
      have settled : made.mode.settled.settled = made.mode.settled := by cases made.mode <;> rfl
      obtain ⟨content, mode⟩ := inductionHypothesis (made.feed c) later
      rw [Arg.feed_finish (Ne.symm notQuote)] at content
      rw [Arg.feed_mode (Ne.symm notQuote), settled, ite_self] at mode
      exact ⟨by rw [List.foldl_cons, content, List.append_assoc]; rfl, mode⟩

/-- Between two arguments, the text of one is read as the argument. -/
theorem reader_argText (read : List (List UInt8)) (arg : List UInt8) :
    ∃ made, ArgReader.feed ⟨read, none⟩ (argText arg) = ⟨read, some made⟩ ∧
    made.mode ≠ .quoted ∧ made.finish = arg := by
  cases quoted : processWin32ArgNeedsQuotes arg with
  | true =>
      have opened : ArgReader.step ⟨read, none⟩ quote = ⟨read, some ⟨.quoted, 0, []⟩⟩ := rfl
      refine ⟨⟨.closing, 0, [] ++ arg⟩, ?_, by simp, by simp [Arg.finish]⟩
      rw [argText_quoted quoted, ArgReader.feed_cons, opened, reader_closed]
  | false =>
      obtain ⟨nonempty, unbroken, noQuote⟩ := needsQuotes_iff.mp quoted
      obtain ⟨content, mode⟩ := feed_plain .start noQuote
      refine ⟨_, ?_, ?_, content⟩
      · rw [argText_plain quoted, ArgReader.feed_start unbroken nonempty]
      · rw [mode, if_neg nonempty]
        simp [Arg.start, ArgMode.settled]

/-- Arguments in a row are read back. -/
theorem args_furtherText (read : List (List UInt8)) (outside : made.mode ≠ .quoted) :
    (ArgReader.feed ⟨read, some made⟩ (furtherText args)).args = read ++ made.finish :: args := by
  induction args generalizing read made with
  | nil => rfl
  | cons arg args inductionHypothesis =>
      have ended : ArgReader.step ⟨read, some made⟩ 0x20 = ⟨read ++ [made.finish], none⟩ :=
        ArgReader.step_blank rfl outside
      obtain ⟨next, fed, nextOutside, content⟩ := reader_argText (read ++ [made.finish]) arg
      have rest := inductionHypothesis (read ++ [made.finish]) nextOutside
      rw [furtherText, List.flatMap_cons, List.cons_append, ArgReader.feed_cons, ended,
        ArgReader.feed_append, fed]
      rw [content, List.append_assoc] at rest
      exact rest

theorem msvcrtArgs_lineText : msvcrtArgs (lineText args) = args := by
  cases args with
  | nil => rfl
  | cons arg args =>
      obtain ⟨made, fed, outside, content⟩ := reader_argText [] arg
      rw [msvcrtArgs, lineText, ArgReader.feed_append, fed, args_furtherText [] outside, content]
      rfl

/-! ## Reading from the middle of an argument -/

section Middle

variable {mode : ArgMode} {before : List UInt8}

theorem escaped_unbroken (unbroken : text.any isBlank = false) :
    (escaped 0 text).1.any isBlank = false := by
  rw [List.any_eq_false] at unbroken ⊢
  exact (forall_escaped (by decide)).mpr unbroken

theorem flushed_unbroken (unbroken : text.any isBlank = false) :
    (flushed text).any isBlank = false := by
  simp [flushed, escaped_unbroken unbroken, not_blank_backslash]

theorem closedText_unbroken (unbroken : text.any isBlank = false) :
    (closedText text).any isBlank = false := by
  simp [closedText_eq, escaped_unbroken unbroken, not_blank_backslash, not_blank_quote]

theorem flushed_ne_nil (nonempty : text ≠ []) : flushed text ≠ [] := by
  intro empty
  obtain ⟨noText, noSlashes⟩ := List.append_eq_nil_iff.mp empty
  obtain ⟨_, after, fed, -, content⟩ := feed_escaped 0 .plain [] text
  rw [noText] at fed
  obtain rfl : [] = after := congrArg Arg.text fed
  rw [noSlashes] at content
  exact nonempty content.symm

theorem first_blank (broken : text.any isBlank = true) :
    ∃ front c back, text = front ++ c :: back ∧ isBlank c = true ∧ front.any isBlank = false := by
  induction text with
  | nil => cases broken
  | cons c text inductionHypothesis =>
      cases blank : isBlank c with
      | true => exact ⟨[], c, text, rfl, blank, rfl⟩
      | false =>
          have later : text.any isBlank = true := by simpa [blank] using broken
          obtain ⟨front, other, back, rfl, isBlank, unbroken⟩ := inductionHypothesis later
          exact ⟨c :: front, other, back, rfl, isBlank, by simp [blank, unbroken]⟩

/-- Outside a quoted string, the rest of an argument without blanks ends in one. -/
theorem reader_closed_outside (read : List (List UInt8)) (mode : ArgMode) (before : List UInt8)
    (outside : mode ≠ .quoted) (unbroken : text.any isBlank = false) :
    ∃ after, ArgReader.feed ⟨read, some ⟨mode, 0, before⟩⟩ (closedText text) =
        ⟨read, some ⟨.quoted, 0, after⟩⟩ ∧ after.any isBlank = before.any isBlank := by
  obtain ⟨-, after, fed, content⟩ :=
    (feed_closed mode before text).resolve_left fun absurd => outside absurd.1
  refine ⟨after, ?_, ?_⟩
  · rw [ArgReader.feed_current (closedText_unbroken unbroken), fed]
  · rcases content with rfl | rfl
    · simp [unbroken]
    · simp [unbroken, not_blank_quote]

/-- There, the first blank ends an argument. -/
theorem reader_flushed_outside (read : List (List UInt8)) (mode : ArgMode) (before : List UInt8)
    (outside : mode ≠ .quoted) (unbroken : text.any isBlank = false) (blank : isBlank c = true) :
    ∃ word, ∀ rest,
      ArgReader.feed ⟨read, some ⟨mode, 0, before⟩⟩ (flushed text ++ c :: rest) =
        ArgReader.feed ⟨read ++ [word], none⟩ rest := by
  obtain ⟨mode', after, fed, kept, -⟩ := feed_escaped 0 mode before text
  have outside' : ((flushed text).foldl Arg.feed ⟨mode, 0, before⟩).mode ≠ .quoted := by
    rw [flushed, List.foldl_append, fed, feed_backslashes]
    have settled : mode.settled ≠ .quoted := by
      cases mode with
      | quoted => exact absurd rfl outside
      | plain | closing => exact nofun
    have again : mode.settled.settled = mode.settled := by cases mode <;> rfl
    rcases kept with rfl | rfl
    · dsimp only
      split
      · exact outside
      · exact settled
    · dsimp only
      rw [again, ite_self]
      exact settled
  refine ⟨((flushed text).foldl Arg.feed ⟨mode, 0, before⟩).finish, fun rest => ?_⟩
  rw [ArgReader.feed_append, ArgReader.feed_current (flushed_unbroken unbroken),
    ArgReader.feed_cons, ArgReader.step_blank blank outside']

/-- The rest of an argument, read by itself, is words, the last of them in quotes. -/
theorem reader_closed_alone (read : List (List UInt8)) (text : List UInt8) : ∃ words last,
    ArgReader.feed ⟨read, none⟩ (closedText text) = ⟨read ++ words, some ⟨.quoted, 0, last⟩⟩ ∧
      last.any isBlank = false := by
  induction length : text.length using Nat.strong_induction_on generalizing text read with
  | _ n inductionHypothesis =>
      subst length
      cases broken : text.any isBlank with
      | false =>
          have nonempty : closedText text ≠ [] := by simp [closedText_eq]
          obtain ⟨after, fed, content⟩ := reader_closed_outside read .plain [] nofun broken
          refine ⟨[], after, ?_, content⟩
          rw [List.append_nil, ← fed, ArgReader.feed_start (closedText_unbroken broken) nonempty,
            ArgReader.feed_current (closedText_unbroken broken)]
          rfl
      | true =>
          obtain ⟨front, c, back, rfl, blank, unbroken⟩ := first_blank broken
          rw [closedText_blank blank]
          have shorter : back.length < (front ++ c :: back).length := by
            simp only [List.length_append, List.length_cons]
            omega
          cases front with
          | nil =>
              have skipped : ArgReader.step ⟨read, none⟩ c = ⟨read, none⟩ := by
                simp [ArgReader.step, blank]
              change ∃ words last,
                ArgReader.feed (ArgReader.step ⟨read, none⟩ c) (closedText back) =
                ⟨read ++ words, some ⟨.quoted, 0, last⟩⟩ ∧ last.any isBlank = false
              rw [skipped]
              exact inductionHypothesis _ shorter read back rfl
          | cons first front =>
              have nonempty : flushed (first :: front) ≠ [] :=
                flushed_ne_nil (List.cons_ne_nil first front)
              obtain ⟨word, ended⟩ := reader_flushed_outside read .plain [] nofun unbroken
                blank
              obtain ⟨words, last, fed, content⟩ := inductionHypothesis _ shorter
                (read ++ [word]) back rfl
              refine ⟨word :: words, last, ?_, content⟩
              have same : ArgReader.feed ⟨read, none⟩ (flushed (first :: front) ++
                  c :: closedText back) = ArgReader.feed ⟨read, some ⟨.plain, 0, []⟩⟩
                    (flushed (first :: front) ++ c :: closedText back) := by
                rw [ArgReader.feed_append, ArgReader.feed_append,
                  ArgReader.feed_start (flushed_unbroken unbroken) nonempty,
                  ArgReader.feed_current (flushed_unbroken unbroken)]
                rfl
              rw [same, ended, fed, List.append_assoc]
              rfl

theorem feed_space (inQuotes : made.mode = .quoted) :
    made.feed 0x20 = ⟨.quoted, 0, made.finish ++ [0x20]⟩ := by
  obtain ⟨mode, slashes, content⟩ := made
  obtain rfl : mode = .quoted := inQuotes
  rfl

/-- A word in quotes goes on over an argument without blanks. -/
theorem reader_unbroken_arg (read : List (List UInt8)) (inQuotes : made.mode = .quoted)
    (unbroken : arg.any isBlank = false) :
    ∃ next, ArgReader.feed ⟨read, some made⟩ (0x20 :: argText arg) = ⟨read, some next⟩ ∧
      next.mode = .quoted ∧ next.finish.any isBlank = true := by
  rw [ArgReader.feed_cons, ArgReader.step_quoted inQuotes, feed_space inQuotes]
  have spaced : (made.finish ++ [0x20]).any isBlank = true := by
    rw [List.any_append]
    exact Bool.or_true _
  cases quoted : processWin32ArgNeedsQuotes arg with
  | true =>
      have opened : ArgReader.step ⟨read, some ⟨.quoted, 0, made.finish ++ [0x20]⟩⟩ quote =
          ⟨read, some ⟨.closing, 0, made.finish ++ [0x20]⟩⟩ := by
        rw [ArgReader.step_quoted rfl, Arg.feed_quote_even 0 rfl]
        simp
      obtain ⟨after, fed, content⟩ := reader_closed_outside read .closing
        (made.finish ++ [0x20]) nofun unbroken
      refine ⟨⟨.quoted, 0, after⟩, ?_, rfl, ?_⟩
      · rw [argText_quoted quoted, ArgReader.feed_cons, opened, fed]
      · simpa [Arg.finish, content] using spaced
  | false =>
      obtain ⟨-, -, noQuote⟩ := needsQuotes_iff.mp quoted
      obtain ⟨content, mode⟩ := feed_plain ⟨.quoted, 0, made.finish ++ [0x20]⟩ noQuote
      refine ⟨arg.foldl Arg.feed ⟨.quoted, 0, made.finish ++ [0x20]⟩, ?_, ?_, ?_⟩
      · rw [argText_plain quoted, ArgReader.feed_current unbroken]
      · rw [mode]
        split <;> rfl
      · rw [content, List.any_append]
        have kept : Arg.finish ⟨.quoted, 0, made.finish ++ [0x20]⟩ = made.finish ++ [0x20] := by
          simp [Arg.finish]
        rw [kept, spaced]
        rfl

theorem reader_unbroken_args (read : List (List UInt8)) (inQuotes : made.mode = .quoted)
    (unbroken : ∀ arg ∈ args, arg.any isBlank = false) :
    ∃ next, ArgReader.feed ⟨read, some made⟩ (furtherText args) = ⟨read, some next⟩ ∧
      next.mode = .quoted ∧
      next.finish.any isBlank = (made.finish.any isBlank || !args.isEmpty) := by
  induction args generalizing made with
  | nil => exact ⟨made, rfl, inQuotes, (Bool.or_false _).symm⟩
  | cons arg args inductionHypothesis =>
      obtain ⟨here, later⟩ := List.forall_mem_cons.mp unbroken
      obtain ⟨next, fed, stillQuoted, broken⟩ := reader_unbroken_arg read inQuotes here
      obtain ⟨last, rest, lastQuoted, content⟩ := inductionHypothesis stillQuoted later
      refine ⟨last, ?_, lastQuoted, ?_⟩
      · rw [furtherText, List.flatMap_cons, ArgReader.feed_append, fed]
        exact rest
      · rw [content, broken]
        simp

/-- It ends at the first blank of an argument that has one. -/
theorem reader_broken_arg (read : List (List UInt8)) (back : List UInt8)
    (inQuotes : made.mode = .quoted) (unbroken : front.any isBlank = false)
    (blank : isBlank c = true) : ∃ word, ∀ rest,
      ArgReader.feed ⟨read, some made⟩ (0x20 :: argText (front ++ c :: back) ++ rest) =
        ArgReader.feed ⟨read ++ [word], none⟩ (closedText back ++ rest) := by
  have quoted : processWin32ArgNeedsQuotes (front ++ c :: back) = true := by
    by_contra plain
    obtain ⟨-, none, -⟩ := needsQuotes_iff.mp (Bool.eq_false_iff.mpr plain)
    simp [blank] at none
  have opened : ArgReader.step ⟨read, some ⟨.quoted, 0, made.finish ++ [0x20]⟩⟩ quote =
      ⟨read, some ⟨.closing, 0, made.finish ++ [0x20]⟩⟩ := by
    rw [ArgReader.step_quoted rfl, Arg.feed_quote_even 0 rfl]
    simp
  obtain ⟨word, ended⟩ := reader_flushed_outside read .closing (made.finish ++ [0x20]) nofun
    unbroken blank
  refine ⟨word, fun rest => ?_⟩
  rw [argText_quoted quoted, closedText_blank blank, List.cons_append, List.cons_append,
    ArgReader.feed_cons, ArgReader.step_quoted inQuotes, feed_space inQuotes, ArgReader.feed_cons,
    opened, List.append_assoc, List.cons_append, ended]

/-- The end of an argument with the arguments behind it is never read as arguments that
end with these, nor as ones that these end with, if what is in front of them there
ends with a blank. -/
theorem args_closedText_ne {behind : List (List UInt8)} : ∀ (inFront : List (List UInt8))
    (text : List UInt8) {expected : List (List UInt8)}, expected <:+ inFront ++ behind →
      (∀ last ∈ inFront.getLast?, last.any isBlank = true) →
      msvcrtArgs (closedText text ++ furtherText behind) ≠ expected := by
  induction length : behind.length using Nat.strong_induction_on generalizing behind with
  | _ n inductionHypothesis =>
      subst length
      intro inFront text expected isSuffix broken read_eq
      obtain ⟨words, last, fed, lastUnbroken⟩ := reader_closed_alone [] text
      rw [List.nil_append] at fed
      rw [msvcrtArgs, ArgReader.feed_append, fed] at read_eq
      cases found : behind.find? (·.any isBlank) with
      | none =>
          -- The last word goes on to the end.
          have unbroken : ∀ arg ∈ behind, arg.any isBlank = false := fun arg member =>
            Bool.eq_false_iff.mpr (List.find?_eq_none.mp found arg member)
          have lastQuoted : (Arg.mk .quoted 0 last).mode = .quoted := rfl
          obtain ⟨next, rest, -, content⟩ := reader_unbroken_args words lastQuoted unbroken
          have kept : Arg.finish ⟨.quoted, 0, last⟩ = last := List.append_nil _
          rw [kept, lastUnbroken, Bool.false_or] at content
          have ends : (inFront ++ behind).getLast? = some next.finish := by
            obtain ⟨earlier, whole⟩ := isSuffix
            rw [← whole, ← read_eq, rest]
            simp [ArgReader.args]
          cases behind with
          | nil =>
              rw [List.append_nil] at ends
              rw [broken next.finish ends] at content
              cases content
          | cons arg behind =>
              have among : next.finish ∈ arg :: behind := by
                rw [List.getLast?_append_of_ne_nil _ (List.cons_ne_nil arg behind)] at ends
                exact List.mem_of_getLast? ends
              rw [unbroken _ among] at content
              cases content
      | some arg =>
          obtain ⟨argBroken, unbrokenArgs, others, rfl, earlier⟩ :=
            List.find?_eq_some_iff_append.mp found
          obtain ⟨front, c, back, rfl, blank, unbroken⟩ := first_blank argBroken
          have lastQuoted : (Arg.mk .quoted 0 last).mode = .quoted := rfl
          have noBlanks : ∀ arg ∈ unbrokenArgs, arg.any isBlank = false := fun arg member => by
            simpa using earlier arg member
          obtain ⟨next, rest, inQuotes, -⟩ := reader_unbroken_args words lastQuoted noBlanks
          obtain ⟨word, ended⟩ := reader_broken_arg words back inQuotes unbroken blank
          have parts : furtherText (unbrokenArgs ++ (front ++ c :: back) :: others) =
              furtherText unbrokenArgs ++
                (0x20 :: argText (front ++ c :: back) ++ furtherText others) := by
            simp [furtherText]
          rw [parts, ArgReader.feed_append, rest, ended, ArgReader.args_feed] at read_eq
          have fewer : others.length < (unbrokenArgs ++ (front ++ c :: back) :: others).length := by
            simp only [List.length_append, List.length_cons]
            omega
          refine inductionHypothesis _ fewer rfl
            (inFront ++ unbrokenArgs ++ [front ++ c :: back]) back ?_ ?_ rfl
          · have inside : msvcrtArgs (closedText back ++ furtherText others) <:+ expected :=
              read_eq ▸ List.suffix_append ..
            simpa using inside.trans isSuffix
          · intro last isLast
            rw [List.getLast?_concat] at isLast
            obtain rfl := Option.some.inj isLast
            exact argBroken

end Middle

end Ucb.Process
