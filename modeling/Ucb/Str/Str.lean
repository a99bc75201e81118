import Ucb.Unicode.Encode
import Ucb.Unicode.Grapheme

/-!
Contract: `ucb_str` and its public operations, as `string.c` computes them.

Owns:
- the representation: data pointer, size and allocation;
- construction, destruction, assignment, capacity and modification.

Does not own: the functions of `unicode.c` whose result a string adopts (case
mapping, normalization); their result is an argument here.

An `ucb_str` argument that is the modified string itself is `StrArg.self`, and
a pointer into its own allocation is `CstrArg.own`.
-/

namespace Ucb.Str

open Ucb.Unicode

/-! ## Representation -/

/-- Where `data` points: nowhere, at freed memory, at the literal `""`, or at
the owned allocation. -/
inductive StrData where
  | null
  | dangling
  | literal
  | heap (block : List UInt8)
deriving DecidableEq, Repr

structure UcbStr where
  data : StrData
  size : Nat
  alloc : Nat
deriving DecidableEq, Repr

def UcbStr.interned : UcbStr :=
  ⟨.literal, 0, 0⟩

/-- The memory behind a pointer that is dereferenced. -/
def StrData.load : StrData → Exec (List UInt8)
  | .literal => .ok [0]
  | .heap block => .ok block
  | .null | .dangling => .undefined

/-- The owned block behind a pointer that is written through. -/
def StrData.owned : StrData → Exec (List UInt8)
  | .heap block => .ok block
  | _ => .undefined

/-- A `cstr` argument: null, other memory, or a position in the own allocation. -/
inductive CstrArg where
  | null
  | mem (bytes : List UInt8)
  | own (offset : Nat)
deriving DecidableEq, Repr

def CstrArg.load (str : UcbStr) : CstrArg → Exec (List UInt8)
  | .null => .undefined
  | .mem bytes => .ok bytes
  | .own offset => do
      let block ← str.data.load
      if offset ≤ block.length then pure (block.drop offset) else .undefined

/-- A `const ucb_str*` argument next to the modified string. -/
inductive StrArg where
  | self
  | other (str : UcbStr)
deriving DecidableEq, Repr

def StrArg.get (str : UcbStr) : StrArg → UcbStr
  | .self => str
  | .other astr => astr

def StrArg.data (str : UcbStr) : StrArg → Exec CstrArg
  | .self =>
      match str.data with
      | .heap _ => pure (.own 0)
      | .literal => pure (.mem [0])
      | .null => pure .null
      | .dangling => .undefined
  | .other astr =>
      match astr.data with
      | .null => pure .null
      | data => do
          let mem ← data.load
          pure (.mem mem)

def ucbStrAliases (str : UcbStr) : CstrArg → Bool
  | .own offset => decide (str.alloc > 0 ∧ offset < str.alloc)
  | _ => false

/-! ## Validation of arguments -/

inductive UcbStrCstrError where
  | ok
  | embeddedNul
  | invalidUtf8
deriving DecidableEq, Repr

def ucbStrContainsNul (cstr : List UInt8) (len : Nat) : Exec Bool :=
  if (cstr.take len).contains 0 then pure true
  else if len ≤ cstr.length then pure false
  else .undefined

/-- `ucb_str_cstr_validate` of a non-null `cstr`. -/
def ucbStrCstrValidate (cstr : List UInt8) (len : Nat) : Exec UcbStrCstrError := do
  let validate (len : Nat) : Exec UcbStrCstrError := do
    match ← ucbUcValidate cstr (some len) with
    | .ok () => pure .ok
    | .error _ => pure .invalidUtf8
  if len = 0 then do
    let len ← strlen cstr
    validate len
  else if ← ucbStrContainsNul cstr len then pure .embeddedNul
  else validate len

def ucbStrVerifyCstr (cstr : List UInt8) (len : Nat) : Exec Unit := do
  let etype ← ucbStrCstrValidate cstr len
  ucbVerify (etype == .ok) .invalidArg

/-- The length of a `(cstr, len)` pair; zero means to measure. -/
def cstrLen (cstr : List UInt8) (len : Nat) : Exec Nat :=
  if len = 0 then strlen cstr else pure len

/-- `ucb_str_map_char_pos`: the byte position of a character index, or the value
of `oob`. -/
def ucbStrMapCharPos (tables : UcbUcTables) (str : UcbStr) (index : Nat) :
    Exec (Except Bool Nat) := do
  let mem ← str.data.load
  match ← ucbUcValidate mem (some str.size) with
  | .error _ => pure (.error false)
  | .ok () => do
      let num ← ucbUcNumChar tables mem (some str.size)
      if index > num then pure (.error true)
      else if index = 0 then pure (.ok 0)
      else do
        let pos ← ucbUcCharIndex tables mem str.size index
        pure (.ok pos)

/-! ## Construction and destruction -/

/-- `ucb_str_init_common`. After a refused allocation the other fields of `str`
keep their old values. -/
def ucbStrInitCommon (allocator : Allocator) (str : UcbStr) (cstr : Option (List UInt8))
    (len : Nat) : Exec (UcbStr × Bool) :=
  match cstr with
  | none => pure (.interned, true)
  | some cstr => do
      let len ← cstrLen cstr len
      ucbStrVerifyCstr cstr len
      match ucbMalloc allocator (len + 1) with
      | none => pure ({ str with data := .null }, false)
      | some block => do
          let bytes ← slice cstr 0 len
          let block ← blit block 0 bytes
          let block ← blit block len [0]
          pure (⟨.heap block, len, len + 1⟩, true)

/-- `ucb_str_init` and the string part of `ucb_str_new`, on uninitialized
memory. -/
def ucbStrInit (allocator : Allocator) (cstr : Option (List UInt8)) (len : Nat) :
    Exec (UcbStr × Bool) :=
  ucbStrInitCommon allocator ⟨.null, 0, 0⟩ cstr len

/-- `ucb_str_release_common`: freeing needs an owned or null pointer. -/
def ucbStrReleaseCommon (str : UcbStr) : Exec Unit :=
  if str.alloc = 0 then pure ()
  else
    match str.data with
    | .heap _ | .null => pure ()
    | .literal | .dangling => .undefined

/-- The pointer handed to `ucb_str_init_common`. -/
def CstrArg.pointer (str : UcbStr) : CstrArg → Exec (Option (List UInt8))
  | .null => pure none
  | cstr => do
      let mem ← cstr.load str
      pure (some mem)

/-- `ucb_str_clone`: the new string. -/
def ucbStrClone (allocator : Allocator) (src : UcbStr) : Exec (UcbStr × Bool) := do
  let data ← StrArg.data src (.other src)
  let cstr ← data.pointer src
  ucbStrInit allocator cstr src.size

/-! ## Assignment and capacity -/

def ucbStrCopy (allocator : Allocator) (dst : UcbStr) : StrArg → Exec (UcbStr × Bool)
  | .self => pure (dst, true)
  | .other src => do
      ucbStrReleaseCommon dst
      let data ← StrArg.data dst (.other src)
      let cstr ← data.pointer dst
      ucbStrInitCommon allocator dst cstr src.size

def ucbStrAssign (allocator : Allocator) (str : UcbStr) (cstr : CstrArg) (len : Nat) :
    Exec (UcbStr × Bool) :=
  if ucbStrAliases str cstr then do
    let mem ← cstr.load str
    let realLen ← cstrLen mem len
    if realLen = 0 then do
      ucbStrReleaseCommon str
      ucbStrInitCommon allocator str none realLen
    else
      match ucbMalloc allocator realLen with
      | none => pure (str, false)
      | some tmp => do
          let bytes ← slice mem 0 realLen
          let tmp ← blit tmp 0 bytes
          ucbStrReleaseCommon str
          ucbStrInitCommon allocator str (some tmp) realLen
  else do
    ucbStrReleaseCommon str
    let mem ← cstr.pointer str
    ucbStrInitCommon allocator str mem len

def ucbStrFit (allocator : Allocator) (str : UcbStr) : Exec (UcbStr × Bool) :=
  if str.alloc ≠ 0 ∧ str.alloc > str.size + 1 then do
    let block ← str.data.owned
    match ucbRealloc allocator block (str.size + 1) with
    | none => pure ({ str with data := .dangling }, false)
    | some block => do
        let block ← blit block str.size [0]
        pure (⟨.heap block, str.size, str.size + 1⟩, true)
  else pure (str, false)

/-- `ucb_str_reserve` with the `new_size` that it computes. -/
def reserveNewSize (allocator : Allocator) (str : UcbStr) (size newSize : Nat) :
    Exec (UcbStr × Bool) :=
  if str.alloc ≠ 0 then
    if size = 0 then pure (str, true)
    else if str.alloc < newSize then do
      let block ← str.data.owned
      match ucbRealloc allocator block newSize with
      | none => pure ({ str with data := .dangling }, false)
      | some block => do
          let block ← blit block str.size [0]
          pure (⟨.heap block, str.size, newSize⟩, true)
    else pure (str, false)
  else
    match ucbMalloc allocator newSize with
    | none => pure (str, false)
    | some block => do
        let mem ← str.data.load
        let bytes ← slice mem 0 str.size
        let block ← blit block 0 bytes
        let block ← blit block str.size [0]
        pure (⟨.heap block, str.size, newSize⟩, true)

/-- `ucb_str_reserve`, as a program calls it: the new size is a `size_t` and wraps around. -/
def ucbStrReserve (allocator : Allocator) (str : UcbStr) (size : UInt64) : Exec (UcbStr × Bool) :=
  reserveNewSize allocator str size.toNat ((size.toNat + str.size + 1) % 2 ^ 64)

/-- `ucb_str_reserve` for bytes that are in memory beside those of the string, which is why the
new size cannot wrap around. -/
def reserveRoom (allocator : Allocator) (str : UcbStr) (size : Nat) : Exec (UcbStr × Bool) :=
  reserveNewSize allocator str size (size + str.size + 1)

/-- `ucb_str_adopt` of an allocation; `alloc` is what the caller says its size
is. -/
def ucbStrAdopt (str : UcbStr) (cstr : List UInt8) (len alloc : Nat) : Exec UcbStr := do
  let len ← cstrLen cstr len
  ucbStrVerifyCstr cstr len
  ucbVerify (decide (alloc ≥ len + 1)) .invalidArg
  let byte ← byteAt cstr len
  ucbVerify (byte == 0) .invalidArg
  ucbStrReleaseCommon str
  pure ⟨.heap cstr, len, alloc⟩

def ucbStrAdoptC (str : UcbStr) (cstr : List UInt8) : Exec UcbStr := do
  let len ← strlen cstr
  ucbStrAdopt str cstr len (len + 1)

/-! ## Modification -/

def ucbStrClear (str : UcbStr) : Exec UcbStr := do
  ucbStrReleaseCommon str
  pure .interned

/-- Write `bytes` at `pos` and the terminator at the new size. -/
def writeAndTerminate (str : UcbStr) (pos : Nat) (bytes : List UInt8) : Exec UcbStr := do
  let block ← str.data.owned
  let block ← blit block pos bytes
  let block ← blit block (str.size + bytes.length) [0]
  pure ⟨.heap block, str.size + bytes.length, str.alloc⟩

def ucbStrAppendCstr (allocator : Allocator) (str : UcbStr) (cstr : CstrArg) (len : Nat) :
    Exec UcbStr := do
  ucbVerify (decide (cstr ≠ .null ∨ len = 0)) .invalidArg
  if cstr = .null then pure str
  else do
    let mem ← cstr.load str
    let len ← cstrLen mem len
    if len = 0 then pure str
    else do
      ucbStrVerifyCstr mem len
      if ucbStrAliases str cstr then
        match ucbMalloc allocator len with
        | none => pure str
        | some tmp => do
            let bytes ← slice mem 0 len
            let tmp ← blit tmp 0 bytes
            let (str, reserved) ← reserveRoom allocator str len
            if reserved then writeAndTerminate str str.size tmp else pure str
      else do
        let (str, reserved) ← reserveRoom allocator str len
        if reserved then do
          let bytes ← slice mem 0 len
          writeAndTerminate str str.size bytes
        else pure str

def ucbStrAppend (allocator : Allocator) (str : UcbStr) (astr : StrArg) : Exec UcbStr := do
  let data ← astr.data str
  ucbStrAppendCstr allocator str data (astr.get str).size

/-- The check of `append_cp` and `insert_cp` for zero codepoints. -/
def verifyNonzero (cps : List Nat) : Exec Unit :=
  ucbVerify (cps.all (· ≠ 0)) .invalidCodepoint

/-- `ucb_str_append_cp`: the string, the result and the stored error. -/
def ucbStrAppendCp (tables : UcbUcTables) (allocator : Allocator) (str : UcbStr)
    (cps : List Nat) : Exec (UcbStr × Bool × Option UcbError) := do
  verifyNonzero cps
  let maxSize := 4 * cps.length
  let (str, reserved) ← reserveRoom allocator str maxSize
  if reserved then do
    let block ← str.data.owned
    let spare ← slice block str.size maxSize
    let buffer ← ucbBufferInitStatic spare
    let (buffer, encoded) ← ucbUcEncodeCodepoints tables.maxMultiLen allocator buffer cps
    -- the buffer is a view: what was pushed is in the string's own block
    let block ← blit block str.size buffer.data
    match encoded with
    | .ok () => do
        let size := str.size + buffer.size
        let block ← blit block size [0]
        pure (⟨.heap block, size, str.alloc⟩, true, none)
    | .error error => pure (⟨.heap block, str.size, str.alloc⟩, false, error)
  else pure (str, false, none)

/-- Move the bytes from `pos` on up by `len` and write `bytes` there. -/
def moveAndWrite (str : UcbStr) (pos len : Nat) (bytes : List UInt8) : Exec UcbStr := do
  let block ← str.data.owned
  let tail ← slice block pos (str.size - pos)
  let block ← blit block (pos + len) tail
  writeAndTerminate { str with data := .heap block } pos bytes

def ucbStrInsertAt (allocator : Allocator) (str : UcbStr) (pos : Nat) (cstr : CstrArg)
    (len : Nat) : Exec UcbStr :=
  if len = 0 then pure str
  else do
    let mem ← cstr.load str
    if ucbStrAliases str cstr then
      match ucbMalloc allocator len with
      | none => pure str
      | some tmp => do
          let bytes ← slice mem 0 len
          let tmp ← blit tmp 0 bytes
          let (str, reserved) ← reserveRoom allocator str len
          if reserved then moveAndWrite str pos len tmp else pure str
    else do
      let (str, reserved) ← reserveRoom allocator str len
      if reserved then do
        let bytes ← slice mem 0 len
        moveAndWrite str pos len bytes
      else pure str

/-- The errors `ucb_str_insert_cp` stores for a position it cannot map. -/
def charPosError (oob : Bool) (index : Nat) : UcbError :=
  if oob then ⟨.invalidArg, "Character position " ++ toString index ++ " out of range"⟩
  else ⟨.invalidUtf8, "Invalid UTF-8 in string"⟩

/-- `ucb_str_insert_cp`: the string, the result and the stored error. -/
def ucbStrInsertCp (tables : UcbUcTables) (allocator : Allocator) (str : UcbStr) (index : Nat)
    (cps : List Nat) : Exec (UcbStr × Bool × Option UcbError) := do
  verifyNonzero cps
  if cps.length = 0 then pure (str, true, none)
  else do
    match ← ucbStrMapCharPos tables str index with
    | .error oob => pure (str, false, some (charPosError oob index))
    | .ok pos => do
        let (buffer, _) ← ucbBufferInitHeap allocator (4 * cps.length)
        let (buffer, encoded) ← ucbUcEncodeCodepoints tables.maxMultiLen allocator buffer cps
        match encoded with
        | .ok () => do
            let str ← ucbStrInsertAt allocator str pos (.mem buffer.data) buffer.size
            pure (str, true, none)
        | .error error => pure (str, false, error)

def ucbStrInsertCstr (tables : UcbUcTables) (allocator : Allocator) (str : UcbStr)
    (index : Nat) (cstr : CstrArg) (len : Nat) : Exec UcbStr := do
  ucbVerify (decide (cstr ≠ .null ∨ len = 0)) .invalidArg
  if cstr = .null then pure str
  else do
    let mem ← cstr.load str
    let len ← cstrLen mem len
    if len = 0 then pure str
    else do
      ucbStrVerifyCstr mem len
      match ← ucbStrMapCharPos tables str index with
      | .error true => .abort .invalidArg
      | .error false => pure str
      | .ok pos => ucbStrInsertAt allocator str pos cstr len

def ucbStrInsert (tables : UcbUcTables) (allocator : Allocator) (str : UcbStr) (pos : Nat)
    (istr : StrArg) : Exec UcbStr := do
  let data ← istr.data str
  ucbStrInsertCstr tables allocator str pos data (istr.get str).size

/-! ## New strings and adopted results -/

/-- `memcpy` of the data of each string behind the other. -/
def copyAll (block : List UInt8) (offset : Nat) : List UcbStr → Exec (List UInt8)
  | [] => pure block
  | next :: rest => do
      let mem ← next.data.load
      let bytes ← slice mem 0 next.size
      let block ← blit block offset bytes
      copyAll block (offset + next.size) rest

/-- `ucb_str_concat`: the new string, `none` when an allocation is refused. -/
def ucbStrConcat (allocator : Allocator) (str : UcbStr) (others : List UcbStr) :
    Exec (Option UcbStr) := do
  let size := (others.map UcbStr.size).foldl (· + ·) str.size
  if size = 0 then pure (some .interned)
  else
    match ucbMalloc allocator (size + 1) with
    | none => pure none
    | some block => do
        let block ← copyAll block 0 (str :: others)
        let block ← blit block size [0]
        pure (some ⟨.heap block, size, size + 1⟩)

/-- `ucb_str_substr`: the new string; `stop = none` is `UCB_NPOS`. -/
def ucbStrSubstr (allocator : Allocator) (str : UcbStr) (start : Nat) (stop : Option Nat) :
    Exec (UcbStr × Bool) := do
  ucbVerify (stop.all fun stop => decide (start ≤ stop ∧ stop ≤ str.size)) .invalidArg
  let stop := stop.getD str.size
  if start > stop then ucbStrInit allocator none 0
  else do
    let mem ← str.data.load
    ucbStrInit allocator (some (mem.drop start)) (stop - start)

/-- `ucb_str_adopt_uc_result`: adopt a mapped text, or keep the string when the
mapping failed. -/
def ucbStrAdoptUcResult (str : UcbStr) (res : Option (List UInt8)) : Exec (UcbStr × Bool) :=
  match res with
  | none => pure (str, false)
  | some text => do
      let str ← ucbStrAdopt str (text ++ [0]) text.length (text.length + 1)
      pure (str, true)

end Ucb.Str
