import Mathlib.Data.List.Basic

/-!
Contract: the documented rules by which the MSVCRT reads a command line.

Owns:
- `programName`, the first argument, in which a quote only turns blanks into
  characters and back;
- `msvcrtArgs`, the other arguments, read one character at a time;
- what one character does to an argument, and reading in parts;
- how far the program name goes.

A backslash is a character, but before a quote: then two of them are one, and one
that is left over makes the quote a character. In a quoted string so do two quotes.
-/

namespace Ucb.Lib.Msvcrt

def quote : UInt8 := 0x22

def backslash : UInt8 := 0x5C

/-- A space or a tab. -/
def isBlank (c : UInt8) : Bool :=
  c = 0x20 || c = 0x09

inductive ArgMode where
  | plain
  | quoted
  /-- Behind a quote that ends a quoted string unless another one follows. -/
  | closing
deriving DecidableEq, Repr

/-- An argument while it is read: the backslashes read last are not in `text` yet. -/
structure Arg where
  mode : ArgMode
  slashes : Nat
  text : List UInt8
deriving DecidableEq, Repr

/-- The mode behind a character that is no quote. -/
def ArgMode.settled : ArgMode → ArgMode
  | quoted => quoted
  | plain | closing => plain

def Arg.start : Arg :=
  ⟨.plain, 0, []⟩

def Arg.feed (arg : Arg) (c : UInt8) : Arg :=
  if c = backslash then { arg with mode := arg.mode.settled, slashes := arg.slashes + 1 }
  else if c = quote then
    let text := arg.text ++ List.replicate (arg.slashes / 2) backslash
    if arg.slashes % 2 = 1 then ⟨arg.mode, 0, text ++ [quote]⟩
    else
      match arg.mode with
      | .plain => ⟨.quoted, 0, text⟩
      | .quoted => ⟨.closing, 0, text⟩
      | .closing => ⟨.quoted, 0, text ++ [quote]⟩
  else ⟨arg.mode.settled, 0, arg.text ++ List.replicate arg.slashes backslash ++ [c]⟩

/-- The argument when nothing more of it follows. -/
def Arg.finish (arg : Arg) : List UInt8 :=
  arg.text ++ List.replicate arg.slashes backslash

/-- The arguments read so far, and the one that is read. -/
structure ArgReader where
  read : List (List UInt8)
  current : Option Arg
deriving DecidableEq, Repr

/-- Blanks end an argument where it is not quoted, and are skipped between two. -/
def ArgReader.step (reader : ArgReader) (c : UInt8) : ArgReader :=
  match reader.current with
  | none => if isBlank c then reader else { reader with current := some (Arg.start.feed c) }
  | some arg =>
      if isBlank c ∧ arg.mode ≠ .quoted then ⟨reader.read ++ [arg.finish], none⟩
      else { reader with current := some (arg.feed c) }

def ArgReader.feed (reader : ArgReader) (text : List UInt8) : ArgReader :=
  text.foldl ArgReader.step reader

/-- The arguments when nothing more follows. -/
def ArgReader.args (reader : ArgReader) : List (List UInt8) :=
  reader.read ++ reader.current.toList.map Arg.finish

/-- The arguments of a text behind the program name. -/
def msvcrtArgs (text : List UInt8) : List (List UInt8) :=
  (ArgReader.feed ⟨[], none⟩ text).args

def programName : Bool → List UInt8 → List UInt8 × List UInt8
  | _, [] => ([], [])
  | inQuotes, c :: rest =>
      if c = quote then programName (!inQuotes) rest
      else if isBlank c ∧ inQuotes = false then ([], rest)
      else
        let (name, behind) := programName inQuotes rest
        (c :: name, behind)

/-- The program name and the arguments of a command line. -/
def msvcrtCommandLine (line : List UInt8) : List UInt8 × List (List UInt8) :=
  let (name, behind) := programName false line
  (name, msvcrtArgs behind)

/-! ## One character -/

variable {arg : Arg} {c : UInt8} {text front back : List UInt8} {read : List (List UInt8)}
  {reader : ArgReader}

theorem not_blank_quote : isBlank quote = false := rfl

theorem not_blank_backslash : isBlank backslash = false := rfl

theorem ne_quote_of_blank (blank : isBlank c = true) : c ≠ quote := by
  rintro rfl
  cases blank

theorem ne_backslash_of_blank (blank : isBlank c = true) : c ≠ backslash := by
  rintro rfl
  cases blank

/-- A character that is no quote is added. -/
theorem Arg.feed_finish (notQuote : c ≠ quote) :
    (arg.feed c).finish = arg.finish ++ [c] := by
  unfold Arg.feed
  by_cases slash : c = backslash
  · subst slash
    simp [Arg.finish, List.replicate_succ']
  · simp [slash, notQuote, Arg.finish]

theorem Arg.feed_mode (notQuote : c ≠ quote) : (arg.feed c).mode = arg.mode.settled := by
  unfold Arg.feed
  by_cases slash : c = backslash
  · simp [slash]
  · simp [slash, notQuote]

/-- A quote behind an even number of backslashes. -/
theorem Arg.feed_quote_even (half : Nat) (even : arg.slashes = 2 * half) :
    arg.feed quote = match arg.mode with
      | .plain => ⟨.quoted, 0, arg.text ++ List.replicate half backslash⟩
      | .quoted => ⟨.closing, 0, arg.text ++ List.replicate half backslash⟩
      | .closing => ⟨.quoted, 0, arg.text ++ List.replicate half backslash ++ [quote]⟩ := by
  have different : quote ≠ backslash := by decide
  have whole : arg.slashes / 2 = half := by omega
  have none_left : ¬ arg.slashes % 2 = 1 := by omega
  simp only [Arg.feed, different, ↓reduceIte, whole, none_left]

/-- A quote behind an odd number of backslashes is a character. -/
theorem Arg.feed_quote_odd (half : Nat) (odd : arg.slashes = 2 * half + 1) :
    arg.feed quote = ⟨arg.mode, 0, arg.text ++ List.replicate half backslash ++ [quote]⟩ := by
  have different : quote ≠ backslash := by decide
  have whole : arg.slashes / 2 = half := by omega
  have one_left : arg.slashes % 2 = 1 := by omega
  simp only [Arg.feed, different, ↓reduceIte, whole, one_left]

/-! ## Reading in parts -/

theorem ArgReader.feed_append :
    reader.feed (front ++ back) = (reader.feed front).feed back :=
  List.foldl_append

theorem ArgReader.feed_cons : reader.feed (c :: text) = (reader.step c).feed text := rfl

/-- What has been read does not matter for what follows. -/
theorem ArgReader.step_read (earlier : List (List UInt8)) :
    ArgReader.step ⟨earlier ++ reader.read, reader.current⟩ c =
      ⟨earlier ++ (reader.step c).read, (reader.step c).current⟩ := by
  obtain ⟨read, current⟩ := reader
  unfold ArgReader.step
  cases current with
  | none => by_cases blank : isBlank c <;> simp [blank]
  | some arg => by_cases ends : isBlank c = true ∧ arg.mode ≠ .quoted <;> simp [ends]

theorem ArgReader.feed_read (reader : ArgReader) (text : List UInt8) (earlier : List (List UInt8)) :
    ArgReader.feed ⟨earlier ++ reader.read, reader.current⟩ text =
      ⟨earlier ++ (reader.feed text).read, (reader.feed text).current⟩ := by
  induction text generalizing reader with
  | nil => rfl
  | cons c text inductionHypothesis =>
      rw [ArgReader.feed_cons, ArgReader.step_read, inductionHypothesis, ArgReader.feed_cons]

/-- The arguments behind a place between two. -/
theorem ArgReader.args_feed (earlier : List (List UInt8)) :
    (ArgReader.feed ⟨earlier, none⟩ text).args = earlier ++ msvcrtArgs text := by
  have same := ArgReader.feed_read ⟨[], none⟩ text earlier
  rw [List.append_nil] at same
  rw [same, msvcrtArgs, ArgReader.args, ArgReader.args, List.append_assoc]

/-- Text without blanks stays in the argument. -/
theorem ArgReader.feed_current (unbroken : text.any isBlank = false) :
    ArgReader.feed ⟨read, some arg⟩ text = ⟨read, some (text.foldl Arg.feed arg)⟩ := by
  induction text generalizing arg with
  | nil => rfl
  | cons c text inductionHypothesis =>
      simp only [List.any_cons, Bool.or_eq_false_iff] at unbroken
      have stays : ArgReader.step ⟨read, some arg⟩ c = ⟨read, some (arg.feed c)⟩ := by
        simp [ArgReader.step, unbroken.1]
      rw [ArgReader.feed_cons, stays, inductionHypothesis unbroken.2, List.foldl_cons]

/-- Such text begins an argument. -/
theorem ArgReader.feed_start (unbroken : text.any isBlank = false) (nonempty : text ≠ []) :
    ArgReader.feed ⟨read, none⟩ text = ⟨read, some (text.foldl Arg.feed .start)⟩ := by
  rw [← ArgReader.feed_current unbroken]
  cases text with
  | nil => exact absurd rfl nonempty
  | cons c text =>
      simp only [List.any_cons, Bool.or_eq_false_iff] at unbroken
      simp [ArgReader.feed_cons, ArgReader.step, unbroken.1]

/-- In a quoted string a character that is no quote stays in it. -/
theorem ArgReader.step_quoted (inQuotes : arg.mode = .quoted) :
    ArgReader.step ⟨read, some arg⟩ c = ⟨read, some (arg.feed c)⟩ := by
  simp [ArgReader.step, inQuotes]

/-- A blank ends an argument that is not in a quoted string. -/
theorem ArgReader.step_blank (blank : isBlank c = true) (outside : arg.mode ≠ .quoted) :
    ArgReader.step ⟨read, some arg⟩ c = ⟨read ++ [arg.finish], none⟩ := by
  simp [ArgReader.step, blank, outside]

/-! ## The program name -/

/-- Whether the text ends in quotes. -/
def quotedAfter (inQuotes : Bool) (text : List UInt8) : Bool :=
  text.foldl (fun inQuotes c => if c = quote then !inQuotes else inQuotes) inQuotes

/-- All blanks of the text are in quotes. -/
def sheltered : Bool → List UInt8 → Bool
  | _, [] => true
  | inQuotes, c :: rest =>
      if c = quote then sheltered (!inQuotes) rest
      else (!isBlank c || inQuotes) && sheltered inQuotes rest

variable {inQuotes : Bool}

theorem quotedAfter_cons : quotedAfter inQuotes (c :: text) =
    quotedAfter (if c = quote then !inQuotes else inQuotes) text := rfl

theorem quotedAfter_append :
    quotedAfter inQuotes (front ++ back) = quotedAfter (quotedAfter inQuotes front) back :=
  List.foldl_append

/-- Every quote counts. -/
theorem quotedAfter_eq :
    quotedAfter inQuotes text = (inQuotes ^^ decide (text.count quote % 2 = 1)) := by
  induction text generalizing inQuotes with
  | nil => cases inQuotes <;> rfl
  | cons c text inductionHypothesis =>
      rw [quotedAfter_cons, inductionHypothesis]
      by_cases same : c = quote
      · subst same
        rw [if_pos rfl, List.count_cons_self]
        rcases Nat.mod_two_eq_zero_or_one (text.count quote) with even | odd
        · have next : (text.count quote + 1) % 2 = 1 := by omega
          cases inQuotes <;> simp [even, next]
        · have next : (text.count quote + 1) % 2 = 0 := by omega
          cases inQuotes <;> simp [odd, next]
      · rw [if_neg same, List.count_cons_of_ne same]

theorem sheltered_append : sheltered inQuotes (front ++ back) =
    (sheltered inQuotes front && sheltered (quotedAfter inQuotes front) back) := by
  induction front generalizing inQuotes with
  | nil => rfl
  | cons c front inductionHypothesis =>
      by_cases same : c = quote
      · simp [sheltered, quotedAfter_cons, same, inductionHypothesis]
      · simp [sheltered, quotedAfter_cons, same, inductionHypothesis, Bool.and_assoc]

/-- The program name goes on behind a text all of whose blanks are in quotes. -/
theorem programName_sheltered (inside : sheltered inQuotes front = true) :
    programName inQuotes (front ++ back) =
      (front.filter (· ≠ quote) ++ (programName (quotedAfter inQuotes front) back).1,
        (programName (quotedAfter inQuotes front) back).2) := by
  induction front generalizing inQuotes with
  | nil => rfl
  | cons c front inductionHypothesis =>
      by_cases same : c = quote
      · have rest : sheltered (!inQuotes) front = true := by simpa [sheltered, same] using inside
        simp [programName, quotedAfter_cons, same, inductionHypothesis rest]
      · have both : (isBlank c = false ∨ inQuotes = true) ∧ sheltered inQuotes front = true := by
          simpa [sheltered, same] using inside
        have goesOn : ¬ (isBlank c = true ∧ inQuotes = false) := by
          rintro ⟨blank, outside⟩
          simp [blank, outside] at both
        simp only [List.cons_append, programName, same, ↓reduceIte, goesOn,
          inductionHypothesis both.2, quotedAfter_cons]
        simp [same]

/-- The first blank that is not in quotes. -/
theorem exists_outside (broken : sheltered inQuotes text = false) :
    ∃ front c back, text = front ++ c :: back ∧ isBlank c = true ∧
      quotedAfter inQuotes front = false ∧ sheltered inQuotes front = true := by
  induction text generalizing inQuotes with
  | nil => cases broken
  | cons c text inductionHypothesis =>
      by_cases same : c = quote
      · have rest : sheltered (!inQuotes) text = false := by simpa [sheltered, same] using broken
        obtain ⟨front, blank, back, rfl, isBlank, outside, inside⟩ := inductionHypothesis rest
        exact ⟨c :: front, blank, back, rfl, isBlank,
          by simpa [quotedAfter_cons, same] using outside,
          by simpa [sheltered, same] using inside⟩
      · by_cases ends : isBlank c = true ∧ inQuotes = false
        · exact ⟨[], c, text, rfl, ends.1, ends.2, rfl⟩
        · have here : (!isBlank c || inQuotes) = true := by
            cases blank : isBlank c <;> cases inQuotes <;> simp_all
          have rest : sheltered inQuotes text = false := by
            simpa [sheltered, same, here] using broken
          obtain ⟨front, blank, back, rfl, isBlank, outside, inside⟩ := inductionHypothesis rest
          exact ⟨c :: front, blank, back, rfl, isBlank,
            by simpa [quotedAfter_cons, same] using outside,
            by simpa [sheltered, same, here] using inside⟩

/-- It ends the program name. -/
theorem programName_outside (inside : sheltered inQuotes front = true) (blank : isBlank c = true)
    (outside : quotedAfter inQuotes front = false) :
    (programName inQuotes (front ++ c :: back)).2 = back := by
  rw [programName_sheltered inside, outside]
  simp [programName, ne_quote_of_blank blank, blank]

end Ucb.Lib.Msvcrt
