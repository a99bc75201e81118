import Ucb.Lib.Refinement
import Ucb.Str.Exact
import Mathlib.Logic.Function.Basic

/-!
Contract: the environment map of `envmap.c`.

Owns:
- maps as vectors of entries, each with a string for its name and one for its value;
- every operation on a map, and the lookups;
- sequences of operations on any number of maps;
- the effect of each operation on the values that names have.

The vector of entries is the list that its pushes and removals make; it is never
fitted. `environ` is the process environment at the time of the call.
-/

namespace Ucb.Env

open Ucb.Lib Ucb.Str Ucb.Unicode

/-! ## Representation -/

/-- `ucb_envmap_entry`. Neither string of an entry is ever `UCB_NULL`. -/
structure UcbEnvmapEntry where
  name : UcbStr
  value : UcbStr
deriving DecidableEq, Repr

/-- `ucb_envmap`. The entries are `none` when no vector could be allocated. -/
structure UcbEnvmap where
  entries : Option (List UcbEnvmapEntry)
deriving DecidableEq, Repr

def entrySize : Nat := 16

def vectorSize : Nat := 24

/-- A `const ucb_str*` argument next to a map: a string of its own, or the value of one of
the map's entries. -/
inductive StrPtr where
  | null
  | string (str : UcbStr)
  | valueOf (idx : Nat)
deriving DecidableEq, Repr

def entryAt (entries : List UcbEnvmapEntry) (idx : Nat) : Exec UcbEnvmapEntry :=
  match entries[idx]? with
  | some entry => pure entry
  | none => .undefined

def StrPtr.get (entries : List UcbEnvmapEntry) : StrPtr → Exec (Option UcbStr)
  | .null => pure none
  | .string str => pure (some str)
  | .valueOf idx => do
      let entry ← entryAt entries idx
      pure (some entry.value)

/-- How a string argument looks to a function that changes the value at `idx`. -/
def StrPtr.argument (ptr : StrPtr) (idx : Nat) (str : UcbStr) : StrArg :=
  if ptr = .valueOf idx then .self else .other str

variable (allocator : Allocator)

/-! ## Entries -/

/-- The loop of `envmap_find` from `idx` on. -/
def findFrom (name : UcbStr) : Nat → List UcbEnvmapEntry → Exec (Option Nat)
  | _, [] => pure none
  | idx, entry :: entries => do
      let same ← ucbStrEqual entry.name name
      if same then pure (some idx) else findFrom name (idx + 1) entries

/-- `envmap_find`; `none` is `UCB_NPOS`. -/
def envmapFind (entries : List UcbEnvmapEntry) (name : UcbStr) : Exec (Option Nat) :=
  findFrom name 0 entries

def envmapEntryFree (entry : UcbEnvmapEntry) : Exec Unit := do
  ucbStrReleaseCommon entry.name
  ucbStrReleaseCommon entry.value

def freeEntries : List UcbEnvmapEntry → Exec Unit
  | [] => pure ()
  | entry :: entries => do
      envmapEntryFree entry
      freeEntries entries

/-- The value of a new entry, when its name could be made. -/
def entryWithName (name : UcbStr × Bool) (value : Exec (UcbStr × Bool)) :
    Exec (Option UcbEnvmapEntry) :=
  if name.2 then do
    let (value, made) ← value
    if made then pure (some ⟨name.1, value⟩)
    else do
      ucbStrReleaseCommon name.1
      pure none
  else pure none

/-- `envmap_entry_from_nv` of the terminated string `nv`. -/
def envmapEntryFromNv (nv : List UInt8) : Exec (Option UcbEnvmapEntry) := do
  let total ← strlen nv
  let nameLen := (nv.take total).idxOf 61
  if nameLen = total then pure none
  else if nameLen = 0 then pure none
  else if allocator.grants .malloc entrySize then do
    let name ← ucbStrInit allocator (some nv) nameLen
    let valLen := total - nameLen - 1
    entryWithName name (ucbStrInit allocator (some (nv.drop (nameLen + 1))) valLen)
  else pure none

/-- `envmap_entry_new`, and `envmap_entry_clone` with the strings of the entry. -/
def envmapEntryNew (name value : UcbStr) : Exec (Option UcbEnvmapEntry) :=
  if allocator.grants .malloc entrySize then do
    let name ← ucbStrClone allocator name
    entryWithName name (ucbStrClone allocator value)
  else pure none

/-! ## Whole maps -/

/-- `ucb_vector_ptr_new`. -/
def newEntries : Option (List UcbEnvmapEntry) :=
  if allocator.grants .malloc vectorSize then some [] else none

/-- The loop of `ucb_envmap_init_from_current`. -/
def importAll (entries : List UcbEnvmapEntry) : List (List UInt8) → Exec (List UcbEnvmapEntry)
  | [] => pure entries
  | nv :: environ => do
      let entry ← envmapEntryFromNv allocator (nv ++ [0])
      importAll (entries ++ entry.toList) environ

def ucbEnvmapInitFromCurrent (map : UcbEnvmap) (environ : Option (List (List UInt8))) :
    Exec UcbEnvmap :=
  match map.entries with
  | none => pure map
  | some entries =>
      match environ with
      | none => pure map
      | some environ => do
          let entries ← importAll allocator entries environ
          pure ⟨some entries⟩

/-- The loop of `ucb_envmap_copy`. -/
def cloneAll (entries : List UcbEnvmapEntry) : List UcbEnvmapEntry → Exec (List UcbEnvmapEntry)
  | [] => pure entries
  | entry :: rest => do
      let cloned ← envmapEntryNew allocator entry.name entry.value
      cloneAll (entries ++ cloned.toList) rest

def UcbEnvmap.list (map : UcbEnvmap) : List UcbEnvmapEntry :=
  map.entries.getD []

/-- `ucb_envmap_copy` between two of the maps, which may be the same. The entries of `dst`
are gone when those of `src` are read. -/
def ucbEnvmapCopy (maps : Nat → UcbEnvmap) (dst src : Nat) : Exec (Nat → UcbEnvmap) :=
  match (maps src).entries with
  | none => pure maps
  | some _ => do
      freeEntries (maps dst).list
      match newEntries allocator with
      | none => pure (Function.update maps dst ⟨none⟩)
      | some entries => do
          let maps := Function.update maps dst ⟨some entries⟩
          let entries ← cloneAll allocator entries (maps src).list
          pure (Function.update maps dst ⟨some entries⟩)

def ucbEnvmapClone (src : UcbEnvmap) : Exec UcbEnvmap :=
  match src.entries, newEntries allocator with
  | some list, some entries => do
      let entries ← cloneAll allocator entries list
      pure ⟨some entries⟩
  | _, entries => pure ⟨entries⟩

/-! ## Names -/

def ucbEnvmapHas (map : UcbEnvmap) (name : UcbStr) : Exec Bool :=
  match map.entries with
  | none => pure false
  | some entries => do
      let idx ← envmapFind entries name
      pure idx.isSome

def ucbEnvmapGet (map : UcbEnvmap) (name : UcbStr) : Exec StrPtr :=
  match map.entries with
  | none => pure .null
  | some entries => do
      let idx ← envmapFind entries name
      match idx with
      | none => pure .null
      | some idx => pure (.valueOf idx)

def pushEntry (map : UcbEnvmap) (entries : List UcbEnvmapEntry) (name value : UcbStr) :
    Exec (UcbEnvmap × Bool) := do
  let entry ← envmapEntryNew allocator name value
  match entry with
  | none => pure (map, false)
  | some entry => pure (⟨some (entries ++ [entry])⟩, true)

/-- `ucb_envmap_set` of a string that `value` points to. -/
def ucbEnvmapSet (map : UcbEnvmap) (name : UcbStr) (value : StrPtr) : Exec (UcbEnvmap × Bool) :=
  match map.entries with
  | none => pure (map, false)
  | some entries => do
      let str ← value.get entries
      match str with
      | none => pure (map, false)
      | some str => do
          let idx ← envmapFind entries name
          match idx with
          | none => pushEntry allocator map entries name str
          | some idx => do
              let entry ← entryAt entries idx
              let (changed, copied) ← ucbStrCopy allocator entry.value (value.argument idx str)
              pure (⟨some (entries.set idx { entry with value := changed })⟩, copied)

def ucbEnvmapUnset (map : UcbEnvmap) (name : UcbStr) : Exec (UcbEnvmap × Bool) :=
  match map.entries with
  | none => pure (map, false)
  | some entries => do
      let idx ← envmapFind entries name
      match idx with
      | none => pure (map, false)
      | some idx => do
          let removed ← entryAt entries idx
          envmapEntryFree removed
          pure (⟨some (entries.eraseIdx idx)⟩, true)

/-- The separator of `ucb_envmap_append` and `ucb_envmap_prepend`, behind the string that
is built. -/
def appendSep (str : UcbStr) (old : UcbStr) (sep : Option StrArg) : Exec UcbStr :=
  match sep with
  | none => pure str
  | some sep => if ucbStrIsEmpty old then pure str else ucbStrAppend allocator str sep

def ucbEnvmapAppend (map : UcbEnvmap) (name : UcbStr) (value sep : StrPtr) :
    Exec (UcbEnvmap × Bool) :=
  match map.entries with
  | none => pure (map, false)
  | some entries => do
      let str ← value.get entries
      match str with
      | none => pure (map, false)
      | some str => do
          let idx ← envmapFind entries name
          match idx with
          | none => ucbEnvmapSet allocator map name value
          | some idx => do
              let entry ← entryAt entries idx
              let between ← sep.get entries
              let parted ← appendSep allocator entry.value entry.value
                (between.map (sep.argument idx))
              let changed ← ucbStrAppend allocator parted (value.argument idx str)
              pure (⟨some (entries.set idx { entry with value := changed })⟩, true)

/-- The new value in `ucb_envmap_prepend`, which is built in a string of its own from the
bytes and the length of `value`. -/
def prependedTo (old : UcbStr) (str : UcbStr) (sep : Option UcbStr) : Exec (UcbStr × Bool) := do
  let (newVal, made) ← ucbStrClone allocator str
  if made then do
    let parted ← appendSep allocator newVal old (sep.map StrArg.other)
    let newVal ← ucbStrAppend allocator parted (.other old)
    let (changed, copied) ← ucbStrCopy allocator old (.other newVal)
    ucbStrReleaseCommon newVal
    pure (changed, copied)
  else pure (old, false)

def ucbEnvmapPrepend (map : UcbEnvmap) (name : UcbStr) (value sep : StrPtr) :
    Exec (UcbEnvmap × Bool) :=
  match map.entries with
  | none => pure (map, false)
  | some entries => do
      let str ← value.get entries
      match str with
      | none => pure (map, false)
      | some str => do
          let idx ← envmapFind entries name
          match idx with
          | none => ucbEnvmapSet allocator map name value
          | some idx => do
              let entry ← entryAt entries idx
              let between ← sep.get entries
              let (changed, prepended) ← prependedTo allocator entry.value str between
              pure (⟨some (entries.set idx { entry with value := changed })⟩, prepended)

/-! ## Sequences of operations -/

/-- A string that a caller passes: one of its own, or what `ucb_envmap_get` of the same map
returns for a name. -/
inductive EnvArg where
  | text (str : ValidStr)
  | got (name : ValidStr)

def EnvArg.pointer (map : UcbEnvmap) : EnvArg → Exec StrPtr
  | .text str => pure (.string str.val)
  | .got name => ucbEnvmapGet map name.val

def sepPointer (map : UcbEnvmap) : Option EnvArg → Exec StrPtr
  | none => pure .null
  | some sep => sep.pointer map

abbrev EnvText := { text : List UInt8 // IsText text }

inductive EnvmapOp where
  | set (map : Nat) (name : ValidStr) (value : EnvArg)
  | unset (map : Nat) (name : ValidStr)
  | append (map : Nat) (name : ValidStr) (value : EnvArg) (sep : Option EnvArg)
  | prepend (map : Nat) (name : ValidStr) (value : EnvArg) (sep : Option EnvArg)
  | copy (dst src : Nat)
  | clone (dst src : Nat)
  | initFromCurrent (map : Nat) (environ : Option (List EnvText))
  | has (map : Nat) (name : ValidStr)
  | get (map : Nat) (name : ValidStr)

/-- What an operation returns. A string is told by its text. -/
inductive EnvmapResult where
  | nothing
  | flag (value : Bool)
  | text (value : Option (List UInt8))
deriving DecidableEq, Repr

def replaceMap (maps : Nat → UcbEnvmap) (map : Nat) (outcome : Exec (UcbEnvmap × Bool)) :
    Exec ((Nat → UcbEnvmap) × EnvmapResult) := do
  let (changed, done) ← outcome
  pure (Function.update maps map changed, .flag done)

/-- Perform an operation. A clone takes the number it is given. -/
def envmapStep (maps : Nat → UcbEnvmap) :
    EnvmapOp → Exec ((Nat → UcbEnvmap) × EnvmapResult)
  | .set map name value =>
      replaceMap maps map do
        let ptr ← value.pointer (maps map)
        ucbEnvmapSet allocator (maps map) name.val ptr
  | .unset map name => replaceMap maps map (ucbEnvmapUnset (maps map) name.val)
  | .append map name value sep =>
      replaceMap maps map do
        let ptr ← value.pointer (maps map)
        let sepPtr ← sepPointer (maps map) sep
        ucbEnvmapAppend allocator (maps map) name.val ptr sepPtr
  | .prepend map name value sep =>
      replaceMap maps map do
        let ptr ← value.pointer (maps map)
        let sepPtr ← sepPointer (maps map) sep
        ucbEnvmapPrepend allocator (maps map) name.val ptr sepPtr
  | .copy dst src => do
      let changed ← ucbEnvmapCopy allocator maps dst src
      pure (changed, .nothing)
  | .clone dst src => do
      let cloned ← ucbEnvmapClone allocator (maps src)
      pure (Function.update maps dst cloned, .nothing)
  | .initFromCurrent map environ => do
      let changed ← ucbEnvmapInitFromCurrent allocator (maps map)
        (environ.map (List.map Subtype.val))
      pure (Function.update maps map changed, .nothing)
  | .has map name => do
      let present ← ucbEnvmapHas (maps map) name.val
      pure (maps, .flag present)
  | .get map name => do
      let ptr ← ucbEnvmapGet (maps map) name.val
      let str ← ptr.get (maps map).list
      pure (maps, .text (str.map UcbStr.text))

/-! ## What the operations are for -/

abbrev Values := List UInt8 → Option (List UInt8)

def argText (values : Values) : EnvArg → Option (List UInt8)
  | .text str => some str.val.text
  | .got name => values name.val.text

def sepText (values : Values) (sep : Option EnvArg) : List UInt8 :=
  (sep.bind (argText values)).getD []

/-- What stands between an old value and what is added to it. -/
def separation (old sep : List UInt8) : List UInt8 :=
  if old = [] then [] else sep

/-- The name and the value in a string of the environment, if it has a name. -/
def splitNv (nv : List UInt8) : Option (List UInt8 × List UInt8) :=
  if 61 ∈ nv ∧ nv.idxOf 61 ≠ 0 then some (nv.take (nv.idxOf 61), nv.drop (nv.idxOf 61 + 1))
  else none

def assignments (environ : List EnvText) : List (List UInt8 × List UInt8) :=
  environ.filterMap fun nv => splitNv nv.val

def assignAll (values : Values) (assigned : List (List UInt8 × List UInt8)) : Values :=
  assigned.foldl (fun values pair => Function.update values pair.1 (some pair.2)) values

def assignGiven (all : Nat → Values) (map : Nat) (name : List UInt8)
    (value : Option (List UInt8)) : (Nat → Values) × EnvmapResult :=
  match value with
  | none => (all, .flag false)
  | some value =>
      (Function.update all map (Function.update (all map) name (some value)), .flag true)

/-- The effect of an operation on the values of names. -/
def valuesStep (all : Nat → Values) : EnvmapOp → Option ((Nat → Values) × EnvmapResult)
  | .set map name value => some (assignGiven all map name.val.text (argText (all map) value))
  | .unset map name =>
      some (Function.update all map (Function.update (all map) name.val.text none),
        .flag (all map name.val.text).isSome)
  | .append map name value sep =>
      let between := sepText (all map) sep
      some (assignGiven all map name.val.text ((argText (all map) value).map fun added =>
        match all map name.val.text with
        | none => added
        | some old => old ++ separation old between ++ added))
  | .prepend map name value sep =>
      let between := sepText (all map) sep
      some (assignGiven all map name.val.text ((argText (all map) value).map fun added =>
        match all map name.val.text with
        | none => added
        | some old => added ++ separation old between ++ old))
  | .copy dst src | .clone dst src => some (Function.update all dst (all src), .nothing)
  | .initFromCurrent map environ =>
      some (Function.update all map (assignAll (all map) (assignments (environ.getD []))), .nothing)
  | .has map name => some (all, .flag (all map name.val.text).isSome)
  | .get map name => some (all, .text (all map name.val.text))

end Ucb.Env
