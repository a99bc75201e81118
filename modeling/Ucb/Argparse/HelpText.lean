import Ucb.Argparse.Argparse

/-!
Contract: the texts for help, usage and version, as `argparse.c` builds them.

Owns:
- appending to the text under construction, which aborts on what is no UTF-8;
- the interpolation of `%` directives;
- wrapping, and the help, usage and version texts.

Allocations succeed: a text under construction is the bytes appended so far.
-/

namespace Ucb.Argparse

open Ucb.Str

/-- `ucb_arg_parser`, with what the texts are made from. -/
structure UcbArgHelp extends UcbArgParser where
  progBase : List UInt8
  usage : List UInt8
  description : List UInt8
  width : Int
deriving DecidableEq, Repr

def percent : UInt8 := 0x25

def openParen : UInt8 := 0x28

def closeParen : UInt8 := 0x29

def space : UInt8 := 0x20

def newline : UInt8 := 0x0A

/-! ## Appending -/

def appendCstr (out mem : List UInt8) (len : Nat) : Exec (List UInt8) := do
  let len ← cstrLen mem len
  if len = 0 then pure out
  else do
    ucbStrVerifyCstr mem len
    let bytes ← slice mem 0 len
    pure (out ++ bytes)

/-- `ucb_str_append_c` of a text, and `ucb_str_append` of a string that holds it. -/
def appendC (out text : List UInt8) : Exec (List UInt8) :=
  appendCstr out (text ++ [0]) text.length

def appendEach (out : List UInt8) : List (List UInt8) → Exec (List UInt8)
  | [] => pure out
  | text :: rest => do
      let out ← appendC out text
      appendEach out rest

/-! ## Interpolation -/

def actionName : UcbArgAction → String
  | .store => "store"
  | .storeTrue => "store_true"
  | .storeFalse => "store_false"
  | .count => "count"
  | .append => "append"
  | .help | .version => "unknown"

/-- A letter from `a` to `z` as a capital. -/
def capital (c : UInt8) : UInt8 :=
  if 0x61 ≤ c ∧ c ≤ 0x7A then c - 0x61 + 0x41 else c

/-- The loop of `append_metavar` over the name. -/
def appendCapitals (out : List UInt8) : List UInt8 → Exec (List UInt8)
  | [] => pure out
  | c :: rest => do
      let out ← appendCstr out [capital c] 1
      appendCapitals out rest

def appendMetavar (out : List UInt8) (o : UcbArgOptImpl) : Exec (List UInt8) :=
  if o.metavar ≠ [] then appendC out o.metavar else appendCapitals out o.name

def missingDefault : UcbArgAction → List UInt8
  | .storeTrue => ascii "false"
  | .storeFalse => ascii "true"
  | .count => ascii "0"
  | .store | .append | .help | .version => []

def appendDefault (out : List UInt8) (o : UcbArgOptImpl) : Exec (List UInt8) :=
  appendC out (o.default.getD (missingDefault o.action))

/-- The loop of `append_field` over the choices. -/
def appendChoices (out : List UInt8) : List (List UInt8) → Exec (List UInt8)
  | [] => pure out
  | choice :: rest => do
      let out ← appendC out choice
      appendEach out (rest.flatMap fun choice => [ascii ", ", choice])

def appendShort (out : List UInt8) (shortName : UInt8) : Exec (List UInt8) := do
  let out ← appendC out (ascii "-")
  appendCstr out [shortName] 1

/-- The branch of `append_field` for a field it does not know; `field` points to the
rest of the text. -/
def appendUnknown (out field : List UInt8) (len : Nat) : Exec (List UInt8) := do
  let out ← appendC out (ascii "%(")
  let out ← if len ≠ 0 then appendCstr out field len else pure out
  appendC out (ascii ")s")

/-- `append_field` of an option, but for `prog`. -/
def appendOptField (out : List UInt8) (o : UcbArgOptImpl) (field : List UInt8) (len : Nat) :
    Exec (List UInt8) :=
  if field.take len = ascii "name" then appendC out o.name
  else if field.take len = ascii "type" then appendC out (ascii (typeName o.type))
  else if field.take len = ascii "metavar" then appendMetavar out o
  else if field.take len = ascii "choices" then appendChoices out o.choices
  else if field.take len = ascii "default" then appendDefault out o
  else if field.take len = ascii "action" then appendC out (ascii (actionName o.action))
  else if field.take len = ascii "short" then
    if o.shortName ≠ 0 then appendShort out o.shortName else pure out
  else if field.take len = ascii "long" then
    if o.longName ≠ [] then appendEach out [ascii "--", o.longName] else pure out
  else appendUnknown out field len

def appendField (out : List UInt8) (p : UcbArgHelp) (o : Option UcbArgOptImpl)
    (field : List UInt8) (len : Nat) : Exec (List UInt8) :=
  if field.take len = ascii "prog" then appendC out p.progBase
  else
    match o with
    | none => appendUnknown out field len
    | some o => appendOptField out o field len

/-- The length of the field in a text that starts behind `%`, if it is `(field)s`. -/
def fieldLength (text : List UInt8) : Option Nat :=
  if text.head? = some openParen then
    let len := (text.tail.takeWhile (· ≠ closeParen)).length
    if (text.tail.drop len).take 2 = ascii ")s" then some len else none
  else none

/-- The loop of `interp_text` over the rest of the text. -/
def interpLoop (p : UcbArgHelp) (o : Option UcbArgOptImpl) (out rest : List UInt8) :
    Exec (List UInt8) :=
  match rest with
  | [] => pure out
  | c :: tail =>
      if c ≠ percent then do
        let run := (c :: tail).takeWhile (· ≠ percent)
        let out ← appendCstr out (c :: tail ++ [0]) run.length
        interpLoop p o out (tail.dropWhile (· ≠ percent))
      else if tail.head? = some percent then do
        let out ← appendC out (ascii "%")
        interpLoop p o out tail.tail
      else if (ascii "prog").isPrefixOf tail then do
        let out ← appendC out p.progBase
        interpLoop p o out (tail.drop 4)
      else if (ascii "default").isPrefixOf tail then do
        let out ← match o with
          | some o => appendDefault out o
          | none => appendC out (ascii "%default")
        interpLoop p o out (tail.drop 7)
      else
        match fieldLength tail with
        | some len => do
            let out ← appendField out p o (tail.tail ++ [0]) len
            interpLoop p o out (tail.drop (len + 3))
        | none => do
            let out ← appendC out (ascii "%")
            interpLoop p o out tail
termination_by rest.length
decreasing_by
  · have := (List.dropWhile_sublist (· ≠ percent) (l := tail)).length_le
    simp only [List.length_cons]
    omega
  all_goals simp only [List.length_tail, List.length_drop, List.length_cons]; omega

def interpText (p : UcbArgHelp) (o : Option UcbArgOptImpl) (src : List UInt8) :
    Exec (List UInt8) :=
  interpLoop p o [] src

/-! ## Wrapping -/

def appendIndent (out : List UInt8) : Nat → Exec (List UInt8)
  | 0 => pure out
  | n + 1 => do
      let out ← appendC out (ascii " ")
      appendIndent out n

/-- The sum of two `size_t`. -/
def addSize (x y : Nat) : Nat :=
  (x + y) % 2 ^ 64

/-- What `append_wrapped` puts in front of a word, and the column behind it. -/
def appendGap (out : List UInt8) (indent width col wlen : Nat) : Exec (List UInt8 × Nat) :=
  if col > indent then
    if addSize (addSize col 1) wlen > width then do
      let out ← appendC out (ascii "\n")
      let out ← appendIndent out indent
      pure (out, indent)
    else do
      let out ← appendC out (ascii " ")
      pure (out, addSize col 1)
  else pure (out, col)

/-- How far the scan for the end of a word gets. -/
def wordLength (text : List UInt8) : Nat :=
  (text.takeWhile fun c => c ≠ space ∧ c ≠ newline).length

def behindWord (text : List UInt8) : List UInt8 :=
  (text.drop (wordLength text)).dropWhile (· = space)

/-- The scan passes the first byte, as part of the word or as a space behind an empty one. -/
theorem length_behindWord {c : UInt8} (tail : List UInt8) (notNewline : c ≠ newline) :
    (behindWord (c :: tail)).length ≤ tail.length := by
  have skipped (text : List UInt8) : (text.dropWhile (· = space)).length ≤ text.length :=
    (List.dropWhile_sublist (· = space)).length_le
  by_cases isSpace : c = space
  · subst isSpace
    have empty : wordLength (space :: tail) = 0 := by simp [wordLength]
    simpa [behindWord, empty] using skipped tail
  · have positive : 0 < wordLength (c :: tail) := by simp [wordLength, isSpace, notNewline]
    refine Nat.le_trans (skipped _) ?_
    simp only [List.length_drop, List.length_cons]
    omega

/-- The loop of `append_wrapped` over the rest of the text. -/
def wrapLoop (indent width : Nat) (out : List UInt8) (col : Nat) (text : List UInt8) :
    Exec (List UInt8) :=
  match text with
  | [] => appendC out (ascii "\n")
  | c :: tail =>
      if _newline : c = newline then do
        let out ← appendC out (ascii "\n")
        let out ← appendIndent out indent
        wrapLoop indent width out indent tail
      else do
        let wlen := wordLength (c :: tail)
        let (out, col) ← appendGap out indent width col wlen
        let out ← if wlen ≠ 0 then appendCstr out (c :: tail ++ [0]) wlen else pure out
        wrapLoop indent width out (addSize col wlen) (behindWord (c :: tail))
termination_by text.length
decreasing_by
  · exact Nat.lt_succ_self _
  · exact Nat.lt_succ_of_le (length_behindWord tail _newline)

def appendWrapped (out text : List UInt8) (indent width : Nat) : Exec (List UInt8) :=
  wrapLoop indent width out indent text

/-! ## Help, usage and version -/

/-- The long name of an option in its entry. -/
def appendLong (out : List UInt8) (o : UcbArgOptImpl) : Exec (List UInt8) := do
  let out ← if o.shortName ≠ 0 then appendC out (ascii ", ") else pure out
  let out ← appendEach out [ascii "--", o.longName]
  if optTakesValue o then do
    let out ← appendC out (ascii "=")
    appendMetavar out o
  else pure out

def formatLeft (out : List UInt8) (o : UcbArgOptImpl) : Exec (List UInt8) := do
  let out ← if o.shortName ≠ 0 then appendShort out o.shortName else appendC out (ascii "    ")
  if o.longName ≠ [] then appendLong out o
  else if optTakesValue o then do
    let out ← appendC out (ascii " ")
    appendMetavar out o
  else pure out

def appendUsageLine (out : List UInt8) (p : UcbArgHelp) : Exec (List UInt8) := do
  let out ← appendC out (ascii "Usage: ")
  let out ← if p.usage ≠ [] then do
      let t ← interpText p none p.usage
      appendC out t
    else appendEach out [p.progBase, ascii " [options]"]
  appendC out (ascii "\n")

/-- The description in `build_help`. -/
def appendDescription (out : List UInt8) (p : UcbArgHelp) : Exec (List UInt8) :=
  if p.description ≠ [] then do
    let t ← interpText p none p.description
    let out ← appendWrapped out t 0 p.width.toNat
    appendC out (ascii "\n")
  else pure out

def formatLefts : List UcbArgOptImpl → Exec (List (List UInt8))
  | [] => pure []
  | o :: rest => do
      let left ← formatLeft [] o
      let lefts ← formatLefts rest
      pure (left :: lefts)

/-- `desc_col`: where the help texts start. -/
def descCol (width : Nat) (lefts : List (List UInt8)) : Nat :=
  let maxLeft := lefts.foldl (fun longest left => max longest left.length) 0
  let limit := if width > 20 then width - 20 else 1
  max 1 (min (addSize maxLeft 2) limit)

/-- Whether the default is shown behind the help text: it is when the text does not show
it itself. -/
def showsDefault (o : UcbArgOptImpl) : Bool :=
  o.default.isSome ∧ optTakesValue o ∧ ¬ ascii "%default" <:+: o.help ∧
    ¬ ascii "%(default)" <:+: o.help

def entryHelp (p : UcbArgHelp) (o : UcbArgOptImpl) : Exec (List UInt8) := do
  let help ← interpText p (some o) o.help
  if showsDefault o then do
    let help ← appendC help (ascii " (default: ")
    let help ← appendDefault help o
    appendC help (ascii ")")
  else pure help

/-- An entry of `build_help`. -/
def appendEntry (out : List UInt8) (p : UcbArgHelp) (col : Nat) (o : UcbArgOptImpl)
    (left : List UInt8) : Exec (List UInt8) := do
  let help ← entryHelp p o
  let out ← appendC out left
  let out ← if addSize left.length 2 > col then do
      let out ← appendC out (ascii "\n")
      appendIndent out col
    else appendIndent out (col - left.length)
  appendWrapped out help col p.width.toNat

/-- The entries of `build_help`. -/
def appendEntries (out : List UInt8) (p : UcbArgHelp) (col : Nat) :
    List (UcbArgOptImpl × List UInt8) → Exec (List UInt8)
  | [] => pure out
  | (o, left) :: rest => do
      let out ← appendEntry out p col o left
      appendEntries out p col rest

/-- `build_help`, and `ucb_arg_parser_help_str`. -/
def buildHelp (p : UcbArgHelp) : Exec (List UInt8) := do
  let out ← appendUsageLine [] p
  let out ← appendC out (ascii "\n")
  let out ← appendDescription out p
  let out ← appendC out (ascii "Options:\n")
  if p.opts = [] then pure out
  else do
    let lefts ← formatLefts p.opts
    appendEntries out p (descCol p.width.toNat lefts) (p.opts.zip lefts)

def ucbArgParserUsageStr (p : UcbArgHelp) : Exec (List UInt8) :=
  appendUsageLine [] p

def ucbArgParserVersionStr (p : UcbArgHelp) : Exec (List UInt8) := do
  let out ← appendEach [] [p.progBase, ascii " version"]
  let out ← if p.version ≠ [] then do
      let out ← appendC out (ascii " ")
      let t ← interpText p none p.version
      appendC out t
    else pure out
  appendC out (ascii "\n")

end Ucb.Argparse
