import Mathlib.Logic.Function.Basic
import Ucb.Str.Str

/-!
Contract: the argument parser, as `argparse.c` computes it on a 64-bit system.

Owns:
- the option descriptors, and what `ucb_arg_parser_add` takes and aborts on;
- the converters and the destinations they write;
- the scan over `argv`, with its errors.

Does not own: the texts for help, usage and version. An option that prints is the
status it ends parsing with. `strtof` and `strtod` are parameters. Allocations
succeed.

A byte list stands for a C string without its NUL.
-/

namespace Ucb.Argparse

open Ucb.Str

/-! ## Options -/

inductive UcbArgType where
  | none
  | bool
  | str
  | int
  | uint
  | long
  | ulong
  | llong
  | ullong
  | size
  | float
  | double
deriving DecidableEq, Repr

inductive UcbArgAction where
  | store
  | storeTrue
  | storeFalse
  | count
  | append
  | help
  | version
deriving DecidableEq, Repr

/-- `ucb_arg_opt`. A null pointer is nothing; `choices` holds what can be read behind the
pointer. -/
structure UcbArgOpt where
  name : Option (List UInt8)
  shortName : UInt8
  longName : Option (List UInt8)
  type : UcbArgType
  action : UcbArgAction
  dest : Option Nat
  default : Option (List UInt8)
  metavar : Option (List UInt8)
  help : Option (List UInt8)
  choices : Option (List (List UInt8))
  numChoices : Nat
  required : Bool
deriving DecidableEq, Repr

/-- `ucb_arg_opt_impl`, without `seen`. -/
structure UcbArgOptImpl where
  name : List UInt8
  shortName : UInt8
  longName : List UInt8
  canon : List UInt8
  type : UcbArgType
  action : UcbArgAction
  dest : Option Nat
  default : Option (List UInt8)
  metavar : List UInt8
  help : List UInt8
  choices : List (List UInt8)
  required : Bool
deriving DecidableEq, Repr

/-- `ucb_arg_parser`: what parsing reads of it. -/
structure UcbArgParser where
  version : List UInt8
  opts : List UcbArgOptImpl
deriving DecidableEq, Repr

def optTakesValue (o : UcbArgOptImpl) : Bool :=
  o.action = .store ∨ o.action = .append

def dash : UInt8 := 0x2D

def equalsSign : UInt8 := 0x3D

def ascii (text : String) : List UInt8 :=
  text.toList.map fun c => UInt8.ofNat c.toNat

/-! ## Errors -/

/-- An error of parsing, with what its text is made from. -/
inductive ArgError where
  | unrecognized (name : List UInt8)
  | invalidOption (c : UInt8)
  | requiresArgument (canon : List UInt8)
  | takesNoArgument (canon : List UInt8)
  | missing (canon : List UInt8)
  | invalidValue (type : UcbArgType) (canon value : List UInt8)
  | invalidBoolDefault (canon value : List UInt8)
  | invalidCountDefault (canon value : List UInt8)
  | invalidChoice (canon value : List UInt8) (choices : List (List UInt8))
deriving DecidableEq, Repr

def typeName : UcbArgType → String
  | .none => "none"
  | .bool => "bool"
  | .str => "str"
  | .int => "int"
  | .uint => "uint"
  | .long => "long"
  | .ulong => "ulong"
  | .llong => "llong"
  | .ullong => "ullong"
  | .size => "size"
  | .float => "float"
  | .double => "double"

/-- The code every error of parsing is thrown with. -/
def ArgError.code (_ : ArgError) : UcbEcode :=
  .invalidArg

def ArgError.msg : ArgError → List UInt8
  | .unrecognized name => ascii "unrecognized option '--" ++ name ++ ascii "'"
  | .invalidOption c => ascii "invalid option -- '" ++ [c] ++ ascii "'"
  | .requiresArgument canon => ascii "option " ++ canon ++ ascii " requires an argument"
  | .takesNoArgument canon => ascii "option " ++ canon ++ ascii " does not take an argument"
  | .missing canon => ascii "option " ++ canon ++ ascii " is required"
  | .invalidValue type canon value =>
      ascii ("invalid " ++ typeName type ++ " value for ") ++ canon ++ ascii ": '" ++ value ++
        ascii "'"
  | .invalidBoolDefault canon value =>
      ascii "invalid bool default for " ++ canon ++ ascii ": '" ++ value ++ ascii "'"
  | .invalidCountDefault canon value =>
      ascii "invalid count default for " ++ canon ++ ascii ": '" ++ value ++ ascii "'"
  | .invalidChoice canon value choices =>
      ascii "invalid choice for " ++ canon ++ ascii ": '" ++ value ++ ascii "' (choose from " ++
        (ascii ", ").intercalate (choices.map fun choice => ascii "'" ++ choice ++ ascii "'") ++
        ascii ")"

/-- `ucb_arg_status`, with the error that was thrown. -/
inductive UcbArgStatus where
  | ok
  | help
  | version
  | error (thrown : Option ArgError)
deriving DecidableEq, Repr

/-! ## Converters -/

/-- What a `strto` function gives: the value, how much of the text it read, and whether
`errno` is `ERANGE`. -/
structure Strto (α : Type) where
  value : α
  read : Nat
  erange : Bool

/-- The conversions of the C library to floating point, to bit patterns. -/
structure Libc where
  strtof : List UInt8 → Strto UInt32
  strtod : List UInt8 → Strto UInt64

/-- `is_space_char`, and `isspace`. -/
def isSpaceChar (c : UInt8) : Bool :=
  c == 0x20 || c == 0x09 || c == 0x0A || c == 0x0D || c == 0x0C || c == 0x0B

def isDigit (c : UInt8) : Bool :=
  decide (0x30 ≤ c ∧ c ≤ 0x39)

def digitsValue (digits : List UInt8) : Nat :=
  digits.foldl (fun value digit => 10 * value + (digit.toNat - 0x30)) 0

/-- How the integer functions of the C library read a text in base 10: the sign, the
magnitude and how much they read. -/
def scanInteger (s : List UInt8) : Bool × Nat × Nat :=
  let spaces := (s.takeWhile isSpaceChar).length
  let rest := s.dropWhile isSpaceChar
  let negative := rest.head? == some dash
  let signed := negative || rest.head? == some 0x2B
  let digits := ((if signed then rest.drop 1 else rest).takeWhile isDigit)
  let sign := if signed then 1 else 0
  (negative, digitsValue digits, if digits = [] then 0 else spaces + sign + digits.length)

def strtoll (s : List UInt8) : Strto Int :=
  let (negative, magnitude, read) := scanInteger s
  let value : Int := if negative then -magnitude else magnitude
  if value < -2 ^ 63 then ⟨-2 ^ 63, read, true⟩
  else if value > 2 ^ 63 - 1 then ⟨2 ^ 63 - 1, read, true⟩
  else ⟨value, read, false⟩

/-- `strtoull`. A negated value wraps around. -/
def strtoull (s : List UInt8) : Strto Nat :=
  let (negative, magnitude, read) := scanInteger s
  if magnitude > 2 ^ 64 - 1 then ⟨2 ^ 64 - 1, read, true⟩
  else ⟨if negative then (2 ^ 64 - magnitude) % 2 ^ 64 else magnitude, read, false⟩

/-- The check of the converters that the whole text was read, and in range. -/
def Strto.whole {α : Type} (result : Strto α) (s : List UInt8) : Option α :=
  if result.read = 0 ∨ result.read ≠ s.length ∨ result.erange then none else some result.value

/-- A text that the converters do not begin to read: it is empty or starts with a space. -/
def startsBlank (s : List UInt8) : Bool :=
  s.isEmpty || s.head?.any isSpaceChar

def parseLl (s : List UInt8) : Option Int :=
  if startsBlank s then none else (strtoll s).whole s

def parseUll (s : List UInt8) : Option Nat :=
  if startsBlank s ∨ s.head? = some dash then none else (strtoull s).whole s

def parseFlt (libc : Libc) (s : List UInt8) : Option UInt32 :=
  if startsBlank s then none else (libc.strtof s).whole s

def parseDbl (libc : Libc) (s : List UInt8) : Option UInt64 :=
  if startsBlank s then none else (libc.strtod s).whole s

/-- A letter in lower case, as `ieq` folds it. -/
def foldCase (c : UInt8) : UInt8 :=
  if 0x41 ≤ c ∧ c ≤ 0x5A then c - 0x41 + 0x61 else c

def ieq (a b : List UInt8) : Bool :=
  a.map foldCase == b.map foldCase

def parseBoolLit (s : List UInt8) : Option Bool :=
  if ieq s (ascii "true") || ieq s (ascii "1") || ieq s (ascii "yes") || ieq s (ascii "on") then
    some true
  else if ieq s (ascii "false") || ieq s (ascii "0") || ieq s (ascii "no") || ieq s (ascii "off")
  then some false
  else none

def intMin : Int := -2 ^ 31

def intMax : Int := 2 ^ 31 - 1

def uintMax : Nat := 2 ^ 32 - 1

/-! ## Destinations -/

inductive DestCell where
  | bool (value : Bool)
  | str (text : List UInt8)
  | int (value : Int)
  | uint (value : Nat)
  | long (value : Int)
  | ulong (value : Nat)
  | llong (value : Int)
  | ullong (value : Nat)
  | size (value : Nat)
  | float (bits : UInt32)
  | double (bits : UInt64)
  | strVector (texts : List (List UInt8))
deriving DecidableEq, Repr

/-- The type of a destination; a vector of strings has no value type. -/
def DestCell.type : DestCell → UcbArgType
  | .bool _ => .bool
  | .str _ => .str
  | .int _ => .int
  | .uint _ => .uint
  | .long _ => .long
  | .ulong _ => .ulong
  | .llong _ => .llong
  | .ullong _ => .ullong
  | .size _ => .size
  | .float _ => .float
  | .double _ => .double
  | .strVector _ => .none

abbrev DestMemory := Nat → Option DestCell

/-- Load from a destination. Nothing is there behind a null pointer. -/
def readDest (memory : DestMemory) (dest : Option Nat) : Exec DestCell :=
  match dest.bind memory with
  | some cell => pure cell
  | none => .undefined

/-- Store to a destination, which has the type of what is stored. -/
def writeDest (memory : DestMemory) (dest : Option Nat) (cell : DestCell) : Exec DestMemory :=
  match dest with
  | none => .undefined
  | some ptr =>
      if (memory ptr).map DestCell.type = some cell.type then
        pure (Function.update memory ptr (some cell))
      else .undefined

/-- `ucb_str_new_c`, and the text `ucb_str_assign_c` leaves. -/
def ucbStrNewC (cstr : List UInt8) : Exec (List UInt8) := do
  ucbStrVerifyCstr (cstr ++ [0]) cstr.length
  pure cstr

/-- What `convert_store` stores for a text; nothing where it is invalid. -/
def convertCell (libc : Libc) (type : UcbArgType) (v : List UInt8) : Exec (Option DestCell) :=
  match type with
  | .bool => pure ((parseBoolLit v).map .bool)
  | .str => do
      let text ← ucbStrNewC v
      pure (some (.str text))
  | .int =>
      pure ((parseLl v).bind fun x => if x < intMin ∨ x > intMax then none else some (.int x))
  | .uint => pure ((parseUll v).bind fun x => if x > uintMax then none else some (.uint x))
  | .long => pure ((parseLl v).map .long)
  | .ulong => pure ((parseUll v).map .ulong)
  | .llong => pure ((parseLl v).map .llong)
  | .ullong => pure ((parseUll v).map .ullong)
  | .size => pure ((parseUll v).map .size)
  | .float => pure ((parseFlt libc v).map .float)
  | .double => pure ((parseDbl libc v).map .double)
  | .none => pure none

def convertStore (libc : Libc) (o : UcbArgOptImpl) (v : List UInt8) (memory : DestMemory) :
    Exec (UcbArgStatus × DestMemory) := do
  match ← convertCell libc o.type v with
  | some cell => do
      let memory ← writeDest memory o.dest cell
      pure (.ok, memory)
  | none =>
      let thrown := if o.type = .none then none else some (.invalidValue o.type o.canon v)
      pure (.error thrown, memory)

/-- What `zero_dest` stores. -/
def zeroCell : UcbArgType → Option DestCell
  | .bool => some (.bool false)
  | .int => some (.int 0)
  | .uint => some (.uint 0)
  | .long => some (.long 0)
  | .ulong => some (.ulong 0)
  | .llong => some (.llong 0)
  | .ullong => some (.ullong 0)
  | .size => some (.size 0)
  | .float => some (.float 0)
  | .double => some (.double 0)
  | .str | .none => none

def zeroDest (o : UcbArgOptImpl) (memory : DestMemory) : Exec DestMemory :=
  match zeroCell o.type with
  | some cell => writeDest memory o.dest cell
  | none => pure memory

/-- The default of a flag, for which there is a bool when none is given. -/
def initFlag (o : UcbArgOptImpl) (unset : Bool) (memory : DestMemory) :
    Exec (UcbArgStatus × DestMemory) :=
  match o.default with
  | none => do
      let memory ← writeDest memory o.dest (.bool unset)
      pure (.ok, memory)
  | some text =>
      match parseBoolLit text with
      | none => pure (.error (some (.invalidBoolDefault o.canon text)), memory)
      | some b => do
          let memory ← writeDest memory o.dest (.bool b)
          pure (.ok, memory)

def initCount (o : UcbArgOptImpl) (memory : DestMemory) : Exec (UcbArgStatus × DestMemory) :=
  match o.default with
  | none => do
      let memory ← writeDest memory o.dest (.int 0)
      pure (.ok, memory)
  | some text =>
      match (parseLl text).filter fun x => ¬ (x < intMin ∨ x > intMax) with
      | none => pure (.error (some (.invalidCountDefault o.canon text)), memory)
      | some x => do
          let memory ← writeDest memory o.dest (.int x)
          pure (.ok, memory)

/-- `init_default`, without resetting `seen`. -/
def initDefault (libc : Libc) (o : UcbArgOptImpl) (memory : DestMemory) :
    Exec (UcbArgStatus × DestMemory) :=
  match o.action with
  | .store =>
      if o.type = .str then do
        let text ← ucbStrNewC (o.default.getD [])
        let memory ← writeDest memory o.dest (.str text)
        pure (.ok, memory)
      else do
        let memory ← zeroDest o memory
        match o.default with
        | none => pure (.ok, memory)
        | some text => convertStore libc o text memory
  | .storeTrue => initFlag o false memory
  | .storeFalse => initFlag o true memory
  | .count => initCount o memory
  | .append => do
      let memory ← writeDest memory o.dest (.strVector [])
      pure (.ok, memory)
  | .help | .version => pure (.ok, memory)

/-! ## Declaring options -/

/-- `find_short`: the first option with the name, and its index. -/
def findShort (p : UcbArgParser) (c : UInt8) : Option (UcbArgOptImpl × Nat) :=
  p.opts.zipIdx.find? fun entry => entry.1.shortName == c

def findLong (p : UcbArgParser) (name : List UInt8) : Option (UcbArgOptImpl × Nat) :=
  if name = [] then none else p.opts.zipIdx.find? fun entry => entry.1.longName == name

/-- The checks of the action in `ucb_arg_parser_add`. -/
def actionFits (opt : UcbArgOpt) : Bool :=
  match opt.action with
  | .store => opt.type ≠ .none ∧ opt.dest.isSome
  | .storeTrue | .storeFalse | .count => opt.dest.isSome
  | .append => opt.dest.isSome ∧ (opt.type = .none ∨ opt.type = .str)
  | .help | .version => opt.type = .none

/-- The text of an optional string of a descriptor. -/
def copyText (text : Option (List UInt8)) : Exec (List UInt8) :=
  match text with
  | some text => ucbStrNewC text
  | none => pure []

def copyChoices : List (List UInt8) → Exec (List (List UInt8))
  | [] => pure []
  | choice :: rest => do
      let choice ← ucbStrNewC choice
      let rest ← copyChoices rest
      pure (choice :: rest)

/-- The copies of the first `count` choices of an array. -/
def takeChoices (array : List (List UInt8)) (count : Nat) : Exec (List (List UInt8)) :=
  if count ≤ array.length then copyChoices (array.take count) else .undefined

def copyDefault (text : Option (List UInt8)) : Exec (Option (List UInt8)) :=
  match text with
  | some text => some <$> ucbStrNewC text
  | none => pure none

/-- The short name of an option as messages show it. -/
def canonShort (shortName : UInt8) : Exec (List UInt8) :=
  if shortName ≠ 0 then do
    let c ← ucbStrNewC [shortName]
    pure (dash :: c)
  else pure []

def canonName (shortName : UInt8) (longName : Option (List UInt8)) : Exec (List UInt8) := do
  let short ← canonShort shortName
  match longName with
  | none => pure short
  | some long => pure (short ++ (if shortName ≠ 0 then [0x2F] else []) ++ [dash, dash] ++ long)

/-- `ucb_arg_parser_add`: the parser with the option, where it returns. -/
def ucbArgParserAdd (p : UcbArgParser) (opt : UcbArgOpt) : Exec UcbArgParser := do
  ucbVerify (opt.name.any (· ≠ [])) .invalidArg
  ucbVerify (opt.shortName ≠ 0 ∨ opt.longName.isSome) .invalidArg
  ucbVerify (opt.shortName = 0 ∨ (findShort p opt.shortName).isNone) .invalidArg
  ucbVerify (opt.longName.all fun long => (findLong p long).isNone) .invalidArg
  ucbVerify (actionFits opt) .invalidArg
  ucbVerify (opt.numChoices = 0 ∨ opt.choices.isSome) .invalidArg
  ucbVerify (opt.numChoices = 0 ∨ opt.action = .store ∨ opt.action = .append) .invalidArg
  let name ← copyText opt.name
  let long ← copyText opt.longName
  let default ← copyDefault opt.default
  let metavar ← copyText opt.metavar
  let help ← copyText opt.help
  let canon ← canonName opt.shortName opt.longName
  let choices ← takeChoices (opt.choices.getD []) opt.numChoices
  pure { p with
    opts := p.opts ++ [⟨name, opt.shortName, long, canon, opt.type, opt.action, opt.dest, default,
      metavar, help, choices, opt.required⟩] }

/-- `ucb_arg_parser_new` and `ucb_arg_parser_set_version`. -/
def ucbArgParserNew (version : List UInt8) : UcbArgParser :=
  ⟨version, []⟩

def ucbArgParserAddOptions (p : UcbArgParser) : List UcbArgOpt → Exec UcbArgParser
  | [] => pure p
  | opt :: rest => do
      let p ← ucbArgParserAdd p opt
      ucbArgParserAddOptions p rest

/-! ## Applying options -/

/-- What parsing changes: the destinations, `seen` of each option and the vector for
positional arguments. -/
structure ParseState where
  memory : DestMemory
  seen : Nat → Bool
  positionals : Option (List (List UInt8))

def ParseState.see (st : ParseState) (index : Nat) : ParseState :=
  { st with seen := Function.update st.seen index true }

def checkChoices (o : UcbArgOptImpl) (v : List UInt8) : Option ArgError :=
  if o.choices = [] ∨ v ∈ o.choices then none
  else some (.invalidChoice o.canon v o.choices)

/-- `apply_option` of an action that stores a value. -/
def applyStore (libc : Libc) (o : UcbArgOptImpl) (index : Nat) (value : List UInt8)
    (st : ParseState) : Exec (UcbArgStatus × ParseState) :=
  match checkChoices o value with
  | some err => pure (.error (some err), st)
  | none => do
      let (status, memory) ← convertStore libc o value st.memory
      let st := { st with memory := memory }
      if status = .ok then pure (.ok, st.see index) else pure (status, st)

/-- `apply_option` of an action that appends a value. -/
def applyAppend (o : UcbArgOptImpl) (index : Nat) (value : List UInt8) (st : ParseState) :
    Exec (UcbArgStatus × ParseState) :=
  match checkChoices o value with
  | some err => pure (.error (some err), st)
  | none => do
      let text ← ucbStrNewC value
      match ← readDest st.memory o.dest with
      | .strVector texts => do
          let memory ← writeDest st.memory o.dest (.strVector (texts ++ [text]))
          pure (.ok, { st with memory := memory }.see index)
      | _ => .undefined

/-- `apply_option` of a counter. Going beyond `INT_MAX` is undefined. -/
def applyCount (o : UcbArgOptImpl) (index : Nat) (st : ParseState) :
    Exec (UcbArgStatus × ParseState) := do
  match ← readDest st.memory o.dest with
  | .int count =>
      if count < intMax then do
        let memory ← writeDest st.memory o.dest (.int (count + 1))
        pure (.ok, { st with memory := memory }.see index)
      else .undefined
  | _ => .undefined

/-- `apply_option` of a flag. -/
def applyFlag (o : UcbArgOptImpl) (index : Nat) (flag : Bool) (st : ParseState) :
    Exec (UcbArgStatus × ParseState) := do
  let memory ← writeDest st.memory o.dest (.bool flag)
  pure (.ok, { st with memory := memory }.see index)

/-- `apply_option`. Printing a version that was never set aborts. -/
def applyOption (libc : Libc) (p : UcbArgParser) (o : UcbArgOptImpl) (index : Nat)
    (value : Option (List UInt8)) (st : ParseState) : Exec (UcbArgStatus × ParseState) :=
  match o.action with
  | .store =>
      match value with
      | some value => applyStore libc o index value st
      | none => .undefined
  | .append =>
      match value with
      | some value => applyAppend o index value st
      | none => .undefined
  | .storeTrue => applyFlag o index true st
  | .storeFalse => applyFlag o index false st
  | .count => applyCount o index st
  | .help => pure (.help, st.see index)
  | .version => do
      ucbVerify (p.version ≠ []) .invalidArg
      pure (.version, st.see index)

/-! ## Parsing -/

def isNegativeNumber (arg : List UInt8) : Bool :=
  (arg[1]?).any fun c => isDigit c || c == 0x2E

def pushPositional (arg : List UInt8) (st : ParseState) : Exec ParseState :=
  match st.positionals with
  | none => pure st
  | some texts => do
      let text ← ucbStrNewC arg
      pure { st with positionals := some (texts ++ [text]) }

/-- A token with `--` and a name. `next` is the token behind it; the flag in the result says
that it was taken for the value. -/
def parseLong (libc : Libc) (p : UcbArgParser) (body : List UInt8) (next : Option (List UInt8))
    (st : ParseState) : Exec (UcbArgStatus × ParseState × Bool) :=
  let name := body.takeWhile (· ≠ equalsSign)
  let eq := (body.dropWhile (· ≠ equalsSign)).tail?
  match findLong p name with
  | none => pure (.error (some (.unrecognized name)), st, false)
  | some (o, index) =>
      if optTakesValue o then
        match eq with
        | some value => do
            let (status, st) ← applyOption libc p o index (some value) st
            pure (status, st, false)
        | none =>
            match next with
            | some value => do
                let (status, st) ← applyOption libc p o index (some value) st
                pure (status, st, true)
            | none => pure (.error (some (.requiresArgument o.canon)), st, false)
      else if eq.isSome then pure (.error (some (.takesNoArgument o.canon)), st, false)
      else do
        let (status, st) ← applyOption libc p o index none st
        pure (status, st, false)

def parseShort (libc : Libc) (p : UcbArgParser) (next : Option (List UInt8)) :
    List UInt8 → ParseState → Exec (UcbArgStatus × ParseState × Bool)
  | [], st => pure (.ok, st, false)
  | c :: more, st =>
      match findShort p c with
      | none => pure (.error (some (.invalidOption c)), st, false)
      | some (o, index) =>
          if optTakesValue o then
            if more ≠ [] then do
              let (status, st) ← applyOption libc p o index (some more) st
              pure (status, st, false)
            else
              match next with
              | some value => do
                  let (status, st) ← applyOption libc p o index (some value) st
                  pure (status, st, true)
              | none => pure (.error (some (.requiresArgument o.canon)), st, false)
          else do
            let (status, st) ← applyOption libc p o index none st
            if status = .ok then parseShort libc p next more st else pure (status, st, false)

/-- What the scanner takes a token for before it looks at any name. -/
inductive TokenKind where
  | endOfOptions
  | long
  | short
  | positional
deriving DecidableEq, Repr

/-- The tests of the loop of `ucb_arg_parser_parse`. -/
def tokenKind (noMore : Bool) (arg : List UInt8) : TokenKind :=
  if ¬ noMore ∧ arg = [dash, dash] then .endOfOptions
  else if ¬ noMore ∧ arg[0]? = some dash ∧ arg[1]? = some dash ∧ arg[2]?.isSome then .long
  else if ¬ noMore ∧ arg[0]? = some dash ∧ arg[1]?.isSome ∧ arg[1]? ≠ some dash ∧
      ¬ isNegativeNumber arg then .short
  else .positional

/-- The loop of `ucb_arg_parser_parse` over the rest of `argv`. With `skip` the next token has
been taken for a value, so the index is past it. -/
def parseLoop (libc : Libc) (p : UcbArgParser) : (skip noMore : Bool) → ParseState →
    List (List UInt8) → Exec (UcbArgStatus × ParseState)
  | _, _, st, [] => pure (.ok, st)
  | true, noMore, st, _ :: rest => parseLoop libc p false noMore st rest
  | false, noMore, st, arg :: rest =>
      match tokenKind noMore arg with
      | .endOfOptions => parseLoop libc p false true st rest
      | .long => do
          let (status, st, skip) ← parseLong libc p (arg.drop 2) rest.head? st
          if status = .ok then parseLoop libc p skip noMore st rest else pure (status, st)
      | .short => do
          let (status, st, skip) ← parseShort libc p rest.head? (arg.drop 1) st
          if status = .ok then parseLoop libc p skip noMore st rest else pure (status, st)
      | .positional => do
          let st ← pushPositional arg st
          parseLoop libc p false noMore st rest

def initLoop (libc : Libc) : List (UcbArgOptImpl × Nat) → ParseState →
    Exec (UcbArgStatus × ParseState)
  | [], st => pure (.ok, st)
  | (o, index) :: rest, st => do
      let st := { st with seen := Function.update st.seen index false }
      let (status, memory) ← initDefault libc o st.memory
      let st := { st with memory := memory }
      if status = .ok then initLoop libc rest st else pure (status, st)

/-- The final check for required options. -/
def requiredLoop (seen : Nat → Bool) : List (UcbArgOptImpl × Nat) → UcbArgStatus
  | [] => .ok
  | (o, index) :: rest =>
      if o.required ∧ ¬ seen index then .error (some (.missing o.canon))
      else requiredLoop seen rest

def ucbArgParserParse (libc : Libc) (p : UcbArgParser) (argv : List (List UInt8))
    (st : ParseState) : Exec (UcbArgStatus × ParseState) := do
  let (status, st) ← initLoop libc p.opts.zipIdx st
  if status = .ok then do
    let (status, st) ← parseLoop libc p false false st (argv.drop 1)
    if status = .ok then pure (requiredLoop st.seen p.opts.zipIdx, st) else pure (status, st)
  else pure (status, st)

end Ucb.Argparse
