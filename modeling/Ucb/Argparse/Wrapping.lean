import Ucb.Argparse.Emits
import Ucb.Lib.Words

/-!
Contract: wrapped texts.

Owns:
- what the rows of a wrapped text are to be, for each line of the text;
- that `append_wrapped` makes such rows.

Columns are `size_t`, so the length of a text with its indentation is to fit one.
-/

namespace Ucb.Argparse

open Ucb.Lib Ucb.Str

def words (text : List UInt8) : List (List UInt8) :=
  wordsBy (fun c => c = space ∨ c = newline) text

def lines (text : List UInt8) : List (List UInt8) :=
  text.splitOn newline

def indentation (indent : Nat) : List UInt8 :=
  List.replicate indent space

/-- A row from column 0: indented, and no wider than the width unless it has no two
words. -/
structure FitRow (indent width : Nat) (row : List UInt8) : Prop where
  indented : indentation indent <+: row
  oneLine : newline ∉ row
  fits : row.length ≤ width ∨ (words row).length ≤ 1

/-- The rows that a line is wrapped into: they have its words, and none could have taken
the first word of the next. -/
structure WrappedLine (indent width : Nat) (rows : List (List UInt8)) (line : List UInt8) :
    Prop where
  nonempty : rows ≠ []
  sameWords : rows.flatMap words = words line
  filled : Filled words width rows
  fit : ∀ row ∈ rows, FitRow indent width row

/-- A text from column 0 that is another one wrapped: its rows are those of the lines of
the other, in order, and each ends with a line feed. -/
def Wrapped (indent width : Nat) (text placed : List UInt8) : Prop :=
  ∃ groups : List (List (List UInt8)),
    List.Forall₂ (WrappedLine indent width) groups (lines text) ∧
      placed = groups.flatten.flatMap (· ++ [newline])

section Parts

variable {c : UInt8} {text tail word gap behind : List UInt8}

/-- What a step of the loop passes: a word, and the spaces behind it. -/
structure Passed (text word gap behind : List UInt8) : Prop where
  whole : text = word ++ (gap ++ behind)
  plain : ∀ c ∈ word, c ≠ space ∧ c ≠ newline
  spaces : ∀ c ∈ gap, c = space
  passedSpaces : behind.head? ≠ some space
  stopped : gap ≠ [] ∨ behind = [] ∨ behind.head? = some newline

/-- The word at the start of a text, which may be empty. -/
def wordOf (text : List UInt8) : List UInt8 :=
  text.takeWhile fun c => c ≠ space ∧ c ≠ newline

theorem passed_behindWord (text : List UInt8) :
    ∃ gap, Passed text (wordOf text) gap (behindWord text) := by
  have rest_eq : text.drop (wordLength text) =
      text.dropWhile fun c => c ≠ space ∧ c ≠ newline :=
    drop_length_takeWhile _ text
  refine ⟨(text.drop (wordLength text)).takeWhile (· = space), ?_, ?_, ?_, ?_, ?_⟩
  · rw [behindWord, List.takeWhile_append_dropWhile, rest_eq, wordOf,
      List.takeWhile_append_dropWhile]
  · intro c member
    have all := List.all_eq_true.mp List.all_takeWhile c member
    simpa using all
  · intro c member
    have all := List.all_eq_true.mp List.all_takeWhile c member
    simpa using all
  · intro isSpace
    have stopped := List.head?_dropWhile_not (· = space) (text.drop (wordLength text))
    rw [← behindWord, isSpace] at stopped
    simp at stopped
  · rw [behindWord, rest_eq]
    have stopped := List.head?_dropWhile_not (fun c => decide (c ≠ space ∧ c ≠ newline)) text
    cases rest : text.dropWhile fun c => c ≠ space ∧ c ≠ newline with
    | nil => exact Or.inr (Or.inl rfl)
    | cons c later =>
        rw [rest] at stopped
        by_cases isSpace : c = space
        · exact Or.inl (by simp [isSpace])
        · have isNewline : c = newline := by simpa [isSpace] using stopped
          subst isNewline
          exact Or.inr (Or.inr (by simp [newline, space]))

theorem lines_append {front back line : List UInt8} {later : List (List UInt8)}
    (oneLine : newline ∉ front) (backLines : lines back = line :: later) :
    lines (front ++ back) = (front ++ line) :: later := by
  induction front with
  | nil => exact backLines
  | cons c front inductionHypothesis =>
      obtain ⟨first, others⟩ := not_or.mp (List.mem_cons.not.mp oneLine)
      have other : (c == newline) = false := beq_eq_false_iff_ne.mpr (Ne.symm first)
      rw [List.cons_append, lines, List.splitOn_cons_eq_if_modifyHead, other,
        if_neg Bool.false_ne_true, ← lines, inductionHypothesis others]
      rfl

theorem lines_newline (text : List UInt8) : lines (newline :: text) = [] :: lines text := by
  rw [lines, List.splitOn_cons_eq_if_modifyHead, beq_self_eq_true, if_pos rfl]
  rfl

theorem lines_nil : lines [] = [[]] := rfl

theorem words_nil : words [] = [] := wordsBy_nil

theorem words_spaces {gap : List UInt8} (spaces : ∀ c ∈ gap, c = space) (back : List UInt8) :
    words (gap ++ back) = words back :=
  wordsBy_seps (fun c member => by simp [spaces c member]) back

theorem words_indentation (indent : Nat) (text : List UInt8) :
    words (indentation indent ++ text) = words text :=
  words_spaces (fun _ member => List.eq_of_mem_replicate member) text

theorem words_blank (indent : Nat) : words (indentation indent) = [] := by
  have blank := words_indentation indent []
  rwa [List.append_nil, words_nil] at blank

theorem words_space (front back : List UInt8) :
    words (front ++ space :: back) = words front ++ words back :=
  wordsBy_append_sep (by simp) front back

theorem words_word {word : List UInt8} (plain : ∀ c ∈ word, c ≠ space ∧ c ≠ newline)
    (nonempty : word ≠ []) : words word = [word] :=
  wordsBy_run (fun c member => by simp [plain c member]) nonempty

theorem length_words_word_le {word : List UInt8} (plain : ∀ c ∈ word, c ≠ space ∧ c ≠ newline) :
    (words word).length ≤ 1 := by
  by_cases empty : word = []
  · simp [empty, words_nil]
  · simp [words_word plain empty]

theorem oneLine_word {word : List UInt8} (plain : ∀ c ∈ word, c ≠ space ∧ c ≠ newline) :
    newline ∉ word :=
  fun member => (plain newline member).2 rfl

theorem oneLine_spaces {gap : List UInt8} (spaces : ∀ c ∈ gap, c = space) : newline ∉ gap :=
  fun member => absurd (spaces newline member) (by decide)

/-- A word and the spaces behind it belong to one line, of which they are the first word. -/
theorem Passed.line (passed : Passed text word gap behind) {line : List UInt8}
    {later : List (List UInt8)} (behindLines : lines behind = line :: later) :
    ∃ whole, lines text = whole :: later ∧ words whole = words word ++ words line := by
  refine ⟨word ++ (gap ++ line), ?_, ?_⟩
  · rw [passed.whole]
    exact lines_append (oneLine_word passed.plain)
      (lines_append (oneLine_spaces passed.spaces) behindLines)
  · refine wordsBy_append_seps (fun c member => by simp [passed.spaces c member]) ?_
    refine passed.stopped.imp_right fun stopped => ?_
    obtain rfl | isNewline := stopped
    · exact (List.cons.inj (behindLines.symm.trans lines_nil)).1
    · obtain ⟨rest, rfl⟩ := List.head?_eq_some_iff.mp isNewline
      exact (List.cons.inj (behindLines.symm.trans (lines_newline rest))).1

theorem Passed.isText (passed : Passed text word gap behind) (isText : IsText text) :
    IsText word ∧ IsText behind := by
  rw [passed.whole] at isText
  cases gap with
  | nil =>
      obtain rfl | isNewline := passed.stopped.resolve_left fun other => other rfl
      · rw [List.append_nil, List.append_nil] at isText
        exact ⟨isText, isText_nil⟩
      · obtain ⟨rest, rfl⟩ := List.head?_eq_some_iff.mp isNewline
        obtain ⟨front, back⟩ := isText.parts (by decide)
        exact ⟨front, (isText_one (by decide) (by decide)).append back⟩
  | cons c gap =>
      obtain rfl := passed.spaces c List.mem_cons_self
      obtain ⟨front, back⟩ := isText.parts (by decide)
      refine ⟨front, isText_behind gap back (List.all_eq_true.mpr fun other member => ?_)⟩
      rw [passed.spaces other (List.mem_cons_of_mem _ member)]
      rfl

end Parts

/-! ## Rows -/

/-- What is appended behind the row under construction, for the rest of a text: the row
grows into the first row of its line, and the other lines follow. -/
structure Continues (indent width : Nat) (row text more first : List UInt8)
    (rest : List (List UInt8)) (groups : List (List (List UInt8))) (line : List UInt8)
    (later : List (List UInt8)) : Prop where
  lines : lines text = line :: later
  grows : words row <+: words first
  sameWords : (first :: rest).flatMap words = words row ++ words line
  filled : Filled words width (first :: rest)
  fit : ∀ row ∈ first :: rest, FitRow indent width row
  wrapped : List.Forall₂ (WrappedLine indent width) groups later
  appended : row ++ more = ((first :: rest) :: groups).flatten.flatMap (· ++ [newline])

def Continued (indent width : Nat) (row text more : List UInt8) : Prop :=
  ∃ first rest groups line later,
    Continues indent width row text more first rest groups line later

section Rows

variable {indent width : Nat} {row text tail word gap behind more first line : List UInt8}
  {rest later : List (List UInt8)} {groups : List (List (List UInt8))}

theorem Continues.wrappedLine
    (continues : Continues indent width (indentation indent) text more first rest groups line
      later) : WrappedLine indent width (first :: rest) line where
  nonempty := List.cons_ne_nil _ _
  sameWords := by
    rw [continues.sameWords, words_blank, List.nil_append]
  filled := continues.filled
  fit := continues.fit

theorem continued_end (fitRow : FitRow indent width row) :
    Continued indent width row [] [newline] :=
  ⟨row, [], [], [], [], {
    lines := lines_nil
    grows := List.prefix_refl _
    sameWords := by simp [words_nil]
    filled := filled_singleton words width row
    fit := by simpa using fitRow
    wrapped := .nil
    appended := by simp }⟩

theorem continued_newline (fitRow : FitRow indent width row)
    (next : Continued indent width (indentation indent) tail more) :
    Continued indent width row (newline :: tail)
      (newline :: (indentation indent ++ more)) := by
  obtain ⟨first, rest, groups, line, later, continues⟩ := next
  exact ⟨row, [], (first :: rest) :: groups, [], line :: later, {
    lines := by rw [lines_newline, continues.lines]
    grows := List.prefix_refl _
    sameWords := by simp [words_nil]
    filled := filled_singleton words width row
    fit := by simpa using fitRow
    wrapped := .cons continues.wrappedLine continues.wrapped
    appended := by rw [continues.appended]; simp }⟩

/-- The row goes on with a word, behind a space or as the first word. -/
theorem continued_word {added : List UInt8} (passed : Passed text word gap behind)
    (taken : words (row ++ added) = words row ++ words word)
    (next : Continued indent width (row ++ added) behind more) :
    Continued indent width row text (added ++ more) := by
  obtain ⟨first, rest, groups, line, later, continues⟩ := next
  obtain ⟨whole, lines_eq, words_eq⟩ := passed.line continues.lines
  have grows := continues.grows
  rw [taken] at grows
  exact ⟨first, rest, groups, whole, later, {
    lines := lines_eq
    grows := (List.prefix_append _ _).trans grows
    sameWords := by rw [continues.sameWords, taken, words_eq, List.append_assoc]
    filled := continues.filled
    fit := continues.fit
    wrapped := continues.wrapped
    appended := by rw [← List.append_assoc, continues.appended] }⟩

/-- The row is too full for the word, which starts the next row. -/
theorem continued_wrap (fitRow : FitRow indent width row) (passed : Passed text word gap behind)
    (nonempty : word ≠ []) (full : width < row.length + 1 + word.length)
    (next : Continued indent width (indentation indent ++ word) behind more) :
    Continued indent width row text
      (newline :: (indentation indent ++ (word ++ more))) := by
  obtain ⟨first, rest, groups, line, later, continues⟩ := next
  obtain ⟨whole, lines_eq, words_eq⟩ := passed.line continues.lines
  have wordAlone : words (indentation indent ++ word) = [word] := by
    rw [words_indentation, words_word passed.plain nonempty]
  have head : (words first).head? = some word := by
    obtain ⟨others, same⟩ := continues.grows
    rw [← same, wordAlone]
    rfl
  exact ⟨row, first :: rest, groups, whole, later, {
    lines := lines_eq
    grows := List.prefix_refl _
    sameWords := by
      rw [List.flatMap_cons, continues.sameWords, wordAlone, words_eq,
        words_word passed.plain nonempty]
    filled := continues.filled.cons head full
    fit := List.forall_mem_cons.mpr ⟨fitRow, continues.fit⟩
    wrapped := continues.wrapped
    appended := by
      have appended := continues.appended
      rw [List.append_assoc] at appended
      rw [appended]
      simp }⟩

end Rows

/-! ## The loop -/

/-- The row and the column in front of the rest of a text. The row is empty or ends with
a word, and the columns to come fit a `size_t`. -/
structure Cursor (indent width : Nat) (row : List UInt8) (col : Nat) (text : List UInt8) :
    Prop where
  fitRow : FitRow indent width row
  column : col = row.length
  place : row = indentation indent ∨ (indent < col ∧ text.head? ≠ some space)
  room : col + text.length < 2 ^ 64
  spaceRoom : row = indentation indent ∨ text = [] ∨ text.head? = some newline ∨
    col + text.length + 1 < 2 ^ 64

section Loop

variable {indent width col : Nat} {row text word gap behind tail : List UInt8}

theorem addSize_eq {x y : Nat} (small : x + y < 2 ^ 64) : addSize x y = x + y :=
  Nat.mod_eq_of_lt small

theorem fitRow_indentation (indent width : Nat) : FitRow indent width (indentation indent) where
  indented := List.prefix_refl _
  oneLine := oneLine_spaces fun _ member => List.eq_of_mem_replicate member
  fits := by simp [words_blank]

theorem cursor_start (width : Nat) (room : indent + text.length < 2 ^ 64) :
    Cursor indent width (indentation indent) indent text where
  fitRow := fitRow_indentation indent width
  column := by simp [indentation]
  place := Or.inl rfl
  room := room
  spaceRoom := Or.inl rfl

theorem Cursor.first (passed : Passed text word gap behind)
    (room : indent + text.length < 2 ^ 64) :
    Cursor indent width (indentation indent ++ word) (indent + word.length) behind := by
  have lengths := congrArg List.length passed.whole
  simp only [List.length_append] at lengths
  refine ⟨⟨List.prefix_append _ _, ?_, Or.inr ?_⟩, by simp [indentation], ?_, by omega, ?_⟩
  · exact List.not_mem_append (fitRow_indentation indent width).oneLine
      (oneLine_word passed.plain)
  · rw [words_indentation]
    exact length_words_word_le passed.plain
  · cases word with
    | nil => exact Or.inl (List.append_nil _)
    | cons c word =>
        exact Or.inr ⟨by simp, passed.passedSpaces⟩
  · refine Or.inr ?_
    obtain skipped | atEnd | isNewline := passed.stopped
    · have := List.length_pos_of_ne_nil skipped
      exact Or.inr (Or.inr (by omega))
    · exact Or.inl atEnd
    · exact Or.inr (Or.inl isNewline)

theorem Cursor.next (cursor : Cursor indent width row col text)
    (passed : Passed text word gap behind) (inside : indent < col)
    (room : col + text.length + 1 < 2 ^ 64) (fits : col + 1 + word.length ≤ width) :
    Cursor indent width (row ++ space :: word) (col + 1 + word.length) behind := by
  have lengths := congrArg List.length passed.whole
  have column := cursor.column
  simp only [List.length_append] at lengths
  have length_eq : (row ++ space :: word).length = col + 1 + word.length := by
    rw [List.length_append, List.length_cons]
    omega
  refine ⟨⟨cursor.fitRow.indented.trans (List.prefix_append _ _), ?_, Or.inl ?_⟩,
    length_eq.symm, Or.inr ⟨by omega, passed.passedSpaces⟩, by omega, ?_⟩
  · refine List.not_mem_append cursor.fitRow.oneLine ?_
    rw [List.mem_cons, not_or]
    exact ⟨by decide, oneLine_word passed.plain⟩
  · rw [length_eq]
    exact fits
  · refine Or.inr ?_
    obtain skipped | atEnd | isNewline := passed.stopped
    · have := List.length_pos_of_ne_nil skipped
      exact Or.inr (Or.inr (by omega))
    · exact Or.inl atEnd
    · exact Or.inr (Or.inl isNewline)

theorem appendIndent_emits (n : Nat) : Emits (appendIndent · n) (some (indentation n)) := by
  induction n with
  | zero => exact emits_nothing
  | succ n inductionHypothesis =>
      exact (appendC_emits (isText_ascii " " (by decide))).bind inductionHypothesis

/-- The word of a step, which may be empty. -/
theorem appendWord_emits (passed : Passed text (wordOf text) gap behind) (isText : IsText text) :
    Emits (fun out => if wordLength text ≠ 0 then appendCstr out (text ++ [0]) (wordLength text)
        else pure out) (some (wordOf text)) := by
  by_cases empty : wordOf text = []
  · have zero : wordLength text = 0 := congrArg List.length empty
    rw [empty]
    simpa only [zero, ne_eq, not_true_eq_false, ↓reduceIte] using emits_nothing
  · have nonzero : wordLength text ≠ 0 := by
      rw [wordLength, ← wordOf]
      simp [empty]
    have emitted := appendFront_emits (passed.isText isText).1 empty (gap ++ behind ++ [0])
    rw [List.append_assoc gap, ← List.append_assoc gap, ← List.append_assoc, ← passed.whole]
      at emitted
    simp only [if_pos nonzero]
    exact emitted

theorem wrapLoop_word (indent width col : Nat) (out : List UInt8) {c : UInt8}
    (notNewline : c ≠ newline) (tail : List UInt8) :
    wrapLoop indent width out col (c :: tail) =
      appendGap out indent width col (wordLength (c :: tail)) >>= fun gap =>
        (if wordLength (c :: tail) ≠ 0 then
            appendCstr gap.1 (c :: tail ++ [0]) (wordLength (c :: tail))
          else pure gap.1) >>= fun out =>
        wrapLoop indent width out (addSize gap.2 (wordLength (c :: tail)))
          (behindWord (c :: tail)) := by
  rw [wrapLoop.eq_def]
  simp only [notNewline, ↓reduceDIte]
  refine congrArg _ (funext fun gap => ?_)
  split
  next => rfl
  next => rfl

/-- A step that puts its word where the column is. -/
theorem wrapLoop_place {c : UInt8} {more : List UInt8} (notNewline : c ≠ newline)
    (passed : Passed (c :: tail) (wordOf (c :: tail)) gap behind) (isText : IsText (c :: tail))
    (start : ¬indent < col) (room : col + (wordOf (c :: tail)).length < 2 ^ 64)
    (emits : Emits (wrapLoop indent width · (col + (wordOf (c :: tail)).length)
      (behindWord (c :: tail))) (some more)) :
    Emits (wrapLoop indent width · col (c :: tail)) (some (wordOf (c :: tail) ++ more)) := by
  refine ((appendWord_emits passed isText).bind emits).congr fun out => ?_
  have added : addSize col (wordLength (c :: tail)) = col + (wordOf (c :: tail)).length :=
    addSize_eq room
  rw [wrapLoop_word indent width col out notNewline, appendGap, if_neg start, Exec.pure_eq_ok,
    Exec.ok_bind, added]

/-- A step that starts a row. -/
theorem wrapLoop_full {c : UInt8} {more : List UInt8} (notNewline : c ≠ newline)
    (passed : Passed (c :: tail) (wordOf (c :: tail)) gap behind) (isText : IsText (c :: tail))
    (inside : indent < col) (room : col + 1 + (wordOf (c :: tail)).length < 2 ^ 64)
    (full : width < col + 1 + (wordOf (c :: tail)).length)
    (emits : Emits (wrapLoop indent width · (indent + (wordOf (c :: tail)).length)
      (behindWord (c :: tail))) (some more)) :
    Emits (wrapLoop indent width · col (c :: tail))
      (some (newline :: (indentation indent ++ (wordOf (c :: tail) ++ more)))) := by
  have emitted := (appendC_emits (isText_ascii "\n" (by decide))).bind
    ((appendIndent_emits indent).bind ((appendWord_emits passed isText).bind emits))
  refine emitted.congr fun out => ?_
  have afterGap : addSize (addSize col 1) (wordLength (c :: tail)) =
      col + 1 + (wordOf (c :: tail)).length := by
    rw [addSize_eq (by omega : col + 1 < 2 ^ 64)]
    exact addSize_eq room
  have rowRoom : indent + (wordOf (c :: tail)).length < 2 ^ 64 := by omega
  have added : addSize indent (wordLength (c :: tail)) = indent + (wordOf (c :: tail)).length :=
    addSize_eq rowRoom
  rw [wrapLoop_word indent width col out notNewline, appendGap, if_pos inside, afterGap,
    if_pos full]
  simp only [bind_assoc, Exec.pure_eq_ok, Exec.ok_bind, added]

theorem wrapLoop_next {c : UInt8} {more : List UInt8} (notNewline : c ≠ newline)
    (passed : Passed (c :: tail) (wordOf (c :: tail)) gap behind) (isText : IsText (c :: tail))
    (inside : indent < col) (room : col + 1 + (wordOf (c :: tail)).length < 2 ^ 64)
    (fits : ¬width < col + 1 + (wordOf (c :: tail)).length)
    (emits : Emits (wrapLoop indent width · (col + 1 + (wordOf (c :: tail)).length)
      (behindWord (c :: tail))) (some more)) :
    Emits (wrapLoop indent width · col (c :: tail))
      (some (space :: wordOf (c :: tail) ++ more)) := by
  have emitted := (appendC_emits (isText_ascii " " (by decide))).bind
    ((appendWord_emits passed isText).bind emits)
  refine emitted.congr fun out => ?_
  have afterSpace : addSize col 1 = col + 1 := addSize_eq (by omega)
  have afterGap : addSize (col + 1) (wordLength (c :: tail)) =
      col + 1 + (wordOf (c :: tail)).length := addSize_eq room
  rw [wrapLoop_word indent width col out notNewline, appendGap, if_pos inside, afterSpace,
    afterGap, if_neg fits]
  simp only [bind_assoc, Exec.pure_eq_ok, Exec.ok_bind, afterGap]

theorem wrapLoop_word_wraps {c : UInt8} (notNewline : c ≠ newline) (isText : IsText (c :: tail))
    (cursor : Cursor indent width row col (c :: tail))
    (later : ∀ {col : Nat} {row : List UInt8},
      Cursor indent width row col (behindWord (c :: tail)) →
        ∃ more, Emits (wrapLoop indent width · col (behindWord (c :: tail))) (some more) ∧
          Continued indent width row (behindWord (c :: tail)) more) :
    ∃ more, Emits (wrapLoop indent width · col (c :: tail)) (some more) ∧
      Continued indent width row (c :: tail) more := by
  obtain ⟨gap, passed⟩ := passed_behindWord (c :: tail)
  have room := cursor.room
  have length_le : (wordOf (c :: tail)).length ≤ (c :: tail).length := by
    have := congrArg List.length passed.whole
    simp only [List.length_append] at this
    omega
  obtain atStart | ⟨inside, notSpace⟩ := cursor.place
  · -- the row is empty, so the word is put into it
    have col_eq : col = indent := by simp [cursor.column, atStart, indentation]
    subst atStart col_eq
    obtain ⟨more, emits, continued⟩ := later (Cursor.first passed room)
    have taken : words (indentation col ++ wordOf (c :: tail)) =
        words (indentation col) ++ words (wordOf (c :: tail)) := by
      rw [words_indentation, words_blank, List.nil_append]
    exact ⟨_, wrapLoop_place notNewline passed isText (Nat.lt_irrefl col) (by omega) emits,
      continued_word passed taken continued⟩
  · have nonempty : wordOf (c :: tail) ≠ [] := by
      have other : c ≠ space := fun same => notSpace (by rw [same]; rfl)
      simp [wordOf, other, notNewline]
    have spaceRoom : col + (c :: tail).length + 1 < 2 ^ 64 := by
      obtain atStart | atEnd | atNewline | spaceRoom := cursor.spaceRoom
      · have column := cursor.column
        simp only [atStart, indentation, List.length_replicate] at column
        omega
      · cases atEnd
      · exact absurd (Option.some.inj atNewline) notNewline
      · exact spaceRoom
    by_cases full : width < col + 1 + (wordOf (c :: tail)).length
    · obtain ⟨more, emits, continued⟩ := later (Cursor.first passed (by omega))
      have tooFull : width < row.length + 1 + (wordOf (c :: tail)).length := by
        rw [← cursor.column]
        exact full
      exact ⟨_, wrapLoop_full notNewline passed isText inside (by omega) full emits,
        continued_wrap cursor.fitRow passed nonempty tooFull continued⟩
    · obtain ⟨more, emits, continued⟩ :=
        later (cursor.next passed inside spaceRoom (Nat.le_of_not_lt full))
      exact ⟨_, wrapLoop_next notNewline passed isText inside (by omega) full emits,
        continued_word passed (words_space _ _) continued⟩

/-- The loop wraps the rest of a text behind the row under construction. -/
theorem wrapLoop_wraps (isText : IsText text) (cursor : Cursor indent width row col text) :
    ∃ more, Emits (wrapLoop indent width · col text) (some more) ∧
      Continued indent width row text more := by
  induction sized : text.length using Nat.strong_induction_on generalizing row col text with
  | _ size inductionHypothesis =>
      subst sized
      have lineFeed := appendC_emits (isText_ascii "\n" (by decide))
      cases text with
      | nil =>
          refine ⟨[newline], ?_, continued_end cursor.fitRow⟩
          exact lineFeed.congr fun out => by rw [wrapLoop.eq_def]
      | cons c tail =>
          by_cases isNewline : c = newline
          · subst isNewline
            have tailText : IsText tail := isText_behind [newline] isText (by decide)
            have tailRoom : indent + tail.length < 2 ^ 64 := by
              have room := cursor.room
              have indented := cursor.fitRow.indented.length_le
              simp only [← cursor.column, indentation, List.length_replicate] at indented
              rw [List.length_cons] at room
              omega
            obtain ⟨more, emits, continued⟩ := inductionHypothesis tail.length
              (Nat.lt_succ_self _) tailText (cursor_start width tailRoom) rfl
            refine ⟨newline :: (indentation indent ++ more), ?_,
              continued_newline cursor.fitRow continued⟩
            have emitted := lineFeed.bind ((appendIndent_emits indent).bind emits)
            exact emitted.congr fun out => by
              rw [wrapLoop.eq_def]
              rfl
          · have shorter := Nat.lt_succ_of_le (length_behindWord tail isNewline)
            obtain ⟨gap, passed⟩ := passed_behindWord (c :: tail)
            have behindText := (passed.isText isText).2
            exact wrapLoop_word_wraps isNewline isText cursor fun next =>
              inductionHypothesis _ shorter behindText next rfl

/-- A text is wrapped with its words and its lines, in rows that are no wider than the width
unless they have no two words, and that are filled as far as they can be. -/
theorem appendWrapped_wraps (isText : IsText text) (room : indent + text.length < 2 ^ 64)
    (width : Nat) (out : List UInt8) :
    ∃ more, appendWrapped out text indent width = .ok (out ++ more) ∧
      Wrapped indent width text (indentation indent ++ more) := by
  obtain ⟨more, emits, first, rest, groups, line, later, continues⟩ :=
    wrapLoop_wraps isText (cursor_start width room)
  refine ⟨more, emits.appends out, (first :: rest) :: groups, ?_, continues.appended⟩
  rw [continues.lines]
  exact .cons continues.wrappedLine continues.wrapped

/-- Three words in five columns. -/
theorem appendWrapped_wraps_three :
    IsText (ascii "a bc def") ∧
      ∃ more, appendWrapped [] (ascii "a bc def") 1 5 = .ok ([] ++ more) ∧
        Wrapped 1 5 (ascii "a bc def") (indentation 1 ++ more) :=
  ⟨isText_ascii "a bc def" (by decide),
    appendWrapped_wraps (isText_ascii "a bc def" (by decide)) (by decide) 5 []⟩

/-- A row without words is as wide as its indentation, and a column that does not fit
`size_t` loses the space between two words. -/
theorem wrapped_blank_and_overflow :
    (appendWrapped [] [] 1 0 = .ok [newline] ∧
      ∃ row ∈ lines (indentation 1 ++ [newline]), ¬row.length ≤ 0 ∧ (words row).length ≠ 1) ∧
    (appendWrapped [] (ascii "a b") (2 ^ 64 - 1) 80 = .ok (ascii "ab\n") ∧
      words (ascii "ab\n") ≠ words (ascii "a b")) := by
  refine ⟨⟨?_, indentation 1, by decide, by decide, by decide⟩, ?_, by decide⟩
  · rw [appendWrapped, wrapLoop.eq_def]
    rfl
  · have first : wrapLoop (2 ^ 64 - 1) 80 [] (2 ^ 64 - 1) (ascii "a b") =
        wrapLoop (2 ^ 64 - 1) 80 (ascii "a") 0 (ascii "b") :=
      wrapLoop_word (2 ^ 64 - 1) 80 (2 ^ 64 - 1) [] (c := 0x61) (by decide) (ascii " b")
    have second : wrapLoop (2 ^ 64 - 1) 80 (ascii "a") 0 (ascii "b") =
        wrapLoop (2 ^ 64 - 1) 80 (ascii "ab") 1 [] :=
      wrapLoop_word (2 ^ 64 - 1) 80 0 (ascii "a") (c := 0x62) (by decide) []
    rw [appendWrapped, first, second, wrapLoop.eq_def]
    rfl

end Loop

end Ucb.Argparse
