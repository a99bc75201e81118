import Ucb.Core.Exec
import Ucb.Path.Path

/-!
Contract: the shared part of the filesystem API on a POSIX build, as `fs.c`
computes it.

Owns:
- the platform calls and programs that make them;
- canonicalization and the guards that look at paths;
- recursive removal, recursive copying, and moving.

Does not own: what the platform calls do. A program waits for the answer of each
of its calls, so what it does is known for every platform.

Recursion follows what the platform reports and is cut off by a fuel argument.
A failure is the error stored through `perr`; allocations succeed.
-/

namespace Ucb.Fs

open Ucb.Path

/-! ## Platform calls -/

inductive UcbFsKind where
  | unknown
  | file
  | dir
  | symlink
  | other
deriving DecidableEq, Repr

structure UcbFsFlags where
  overwrite : Bool
  follow : Bool
deriving DecidableEq, Repr

/-- The flag sets `fs_stream_copy` opens files with. -/
inductive OpenMode where
  | read
  | createExclusive
  | createTruncate
deriving DecidableEq, Repr

/-- A call of the platform layer, or of the file and directory modules. -/
inductive FsCall where
  | kind (path : List UInt8) (nofollow : Bool)
  | stat (path : List UInt8)
  | mkdir (path : List UInt8)
  | removeFile (path : List UInt8)
  | removeDir (path : List UInt8)
  | rename (src dst : List UInt8) (overwrite : Bool)
  | setMode (path : List UInt8) (mode : Nat)
  | setMtime (path : List UInt8) (mtime : Int)
  | readLink (path : List UInt8)
  | createLink (target linkpath : List UInt8) (targetIsDir : Bool)
  | dirOpen (path : List UInt8)
  | dirNext (dir : Nat)
  | dirFree (dir : Nat)
  | fileOpen (path : List UInt8) (mode : OpenMode)
  | fileRead (file size : Nat)
  | fileWriteFull (file : Nat) (bytes : List UInt8)
  | fileFree (file : Nat)
  | tempSuffix
deriving DecidableEq, Repr

def FsCall.Answer : FsCall → Type
  | .kind _ _ => Except UcbError UcbFsKind
  | .stat _ => Except UcbError (Nat × Int)
  | .readLink _ => Except UcbError (List UInt8)
  | .dirOpen _ => Except UcbError Nat
  | .dirNext _ => Except UcbError (Option (List UInt8))
  | .fileOpen _ _ => Except UcbError Nat
  | .fileRead _ _ => Except UcbError (List UInt8)
  | .dirFree _ | .fileFree _ => Unit
  | .tempSuffix => List UInt8
  | _ => Except UcbError Unit

/-- A program that makes platform calls. -/
inductive FsProg (α : Type) where
  | ret (value : α)
  | call (op : FsCall) (next : op.Answer → FsProg α)
  | exhausted

namespace FsProg

variable {α β : Type}

protected def bind (first : FsProg α) (next : α → FsProg β) : FsProg β :=
  match first with
  | ret value => next value
  | call op rest => call op fun answer => (rest answer).bind next
  | exhausted => exhausted

instance : Monad FsProg where
  pure := ret
  bind := FsProg.bind

end FsProg

/-- A function that returns false with an error, or true. -/
abbrev FsM := ExceptT UcbError FsProg

/-- Make a call whose answer is a result or an error. -/
def platform (op : FsCall) {α : Type} (answers : op.Answer = Except UcbError α) : FsM α :=
  .mk (.call op fun answer => .ret (answers ▸ answer))

def perform (op : FsCall) {α : Type} (answers : op.Answer = α) : FsM α :=
  .mk (.call op fun answer => .ret (.ok (answers ▸ answer)))

/-- The outcome of a function, for a caller that goes on after a failure. -/
def outcome {α : Type} (run : FsM α) : FsM (Except UcbError α) :=
  .mk (do
    let result ← run.run
    pure (.ok result))

/-- Go on with an outcome: return its result or its error. -/
def liftExcept {α : Type} (result : Except UcbError α) : FsM α :=
  .mk (.ret result)

/-! ## Paths -/

/-- The separators of `fs_has_parent_component`: both, on every platform. -/
def isEitherSep (c : UInt8) : Bool :=
  c == slash || c == backslash

def fsHasParentComponent (cursor : List UInt8) : Bool :=
  match _found : cursor.dropWhile isEitherSep with
  | [] => false
  | c :: text =>
      -- `c` is no separator: the scan for the end of the component passes it
      if c :: text.takeWhile (!isEitherSep ·) = [dot, dot] then true
      else fsHasParentComponent (text.dropWhile (!isEitherSep ·))
termination_by cursor.length
decreasing_by
  have skipped := (List.dropWhile_sublist isEitherSep (l := cursor)).length_le
  have scanned := (List.dropWhile_sublist (!isEitherSep ·) (l := text)).length_le
  rw [_found, List.length_cons] at skipped
  omega

/-- `ucb_fs_canon` under the thread-local default path style. -/
def ucbFsCanon (conf : UcbPathStyle) (path : List UInt8) : List UInt8 :=
  let parsed := pathParse conf path .default
  if fsHasParentComponent (pathComposeTo conf parsed) then
    pathComposeTo conf (ucbPathNormalize conf parsed)
  else pathComposeTo conf parsed

def ucbFsParent (conf : UcbPathStyle) (canon : List UInt8) : List UInt8 :=
  pathComposeTo conf (ucbPathParent conf (pathParse conf canon .default))

def ucbFsJoin (dir name : List UInt8) : List UInt8 :=
  if dir ≠ [] ∧ dir.getLast? ≠ some slash then dir ++ [slash] ++ name else dir ++ name

def fsIsSep (c : UInt8) : Bool :=
  c == slash

def ucbFsIsRoot (canon : List UInt8) : Bool :=
  decide (canon ≠ []) && canon.all fsIsSep

def fsIsWithin (child parent : List UInt8) : Bool :=
  if parent = [] ∨ child.length < parent.length then false
  else if child.take parent.length ≠ parent then false
  else
    match child[parent.length]? with
    | none => true
    | some next =>
        parent.getLast?.any isEitherSep || isEitherSep next

def fsCheckPath (path : List UInt8) : FsM Unit :=
  if path = [] then throw ⟨.invalidArg, "path must be non-empty"⟩ else pure ()

/-! ## Removal -/

mutual

def fsRemoveAll : (fuel : Nat) → (canon : List UInt8) → FsM Unit
  | 0, _ => .mk .exhausted
  | fuel + 1, canon => do
      match ← outcome (platform (.kind canon true) rfl) with
      | .error lerr => if lerr.code = .errsysEnoent then pure () else throw lerr
      | .ok kind =>
          if kind ≠ .dir then platform (.removeFile canon) rfl
          else do
            let dir ← platform (.dirOpen canon) rfl
            let ok ← outcome (removeEntries fuel canon dir)
            perform (.dirFree dir) rfl
            liftExcept ok
            platform (.removeDir canon) rfl

/-- The loop of `fs_remove_all` over the entries of a directory. -/
def removeEntries : (fuel : Nat) → (canon : List UInt8) → (dir : Nat) → FsM Unit
  | 0, _, _ => .mk .exhausted
  | fuel + 1, canon, dir => do
      match ← platform (.dirNext dir) rfl with
      | none => pure ()
      | some name => do
          fsRemoveAll fuel (ucbFsJoin canon name)
          removeEntries fuel canon dir

end

def ucbFsRemoveAll (conf : UcbPathStyle) (fuel : Nat) (path : List UInt8) : FsM Unit := do
  fsCheckPath path
  let canon := ucbFsCanon conf path
  if ucbFsIsRoot canon then
    throw ⟨.invalidArg, "ucb_fs_remove_all: refusing to remove a root"⟩
  else fsRemoveAll fuel canon

/-! ## Queries and directories -/

/-- `fs_kind_exists`: the kind, or `none` for a missing entry. -/
def fsKindExists (canon : List UInt8) (nofollow : Bool) : FsM (Option UcbFsKind) := do
  match ← outcome (platform (.kind canon nofollow) rfl) with
  | .ok kind => pure (some kind)
  | .error lerr => if lerr.code = .errsysEnoent then pure none else throw lerr

def fsMkdirP (conf : UcbPathStyle) : (fuel : Nat) → (canon : List UInt8) → FsM Unit
  | 0, _ => .mk .exhausted
  | fuel + 1, canon => do
      match ← outcome (platform (.mkdir canon) rfl) with
      | .ok () => pure ()
      | .error lerr =>
          if lerr.code = .errsysEexist then do
            let kind ← platform (.kind canon true) rfl
            if kind = .dir then pure ()
            else throw ⟨.errsysEnotdir, "ucb_fs_mkdir_p: an existing component is not a directory"⟩
          else if lerr.code ≠ .errsysEnoent then throw lerr
          else do
            let parent := ucbFsParent conf canon
            if parent = [] ∨ parent = canon then
              throw ⟨.errsysEnoent, "ucb_fs_mkdir_p: could not reach a parent directory"⟩
            else do
              fsMkdirP conf fuel parent
              match ← outcome (platform (.mkdir canon) rfl) with
              | .ok () => pure ()
              | .error lerr => if lerr.code = .errsysEexist then pure () else throw lerr

/-! ## Copying a file -/

def fsCopyMeta (src dst : List UInt8) : FsM Unit := do
  let (mode, mtime) ← platform (.stat src) rfl
  platform (.setMode dst mode) rfl
  platform (.setMtime dst mtime) rfl

def fsCopyLink (src dst : List UInt8) : FsM Unit := do
  let target ← platform (.readLink src) rfl
  platform (.createLink target dst false) rfl

def ucbFsCopyChunk : Nat := 65536

/-- The loop of `fs_stream_copy`. -/
def streamLoop : (fuel : Nat) → (input output : Nat) → FsM Unit
  | 0, _, _ => .mk .exhausted
  | fuel + 1, input, output => do
      let chunk ← platform (.fileRead input ucbFsCopyChunk) rfl
      if chunk = [] then pure ()
      else do
        platform (.fileWriteFull output chunk) rfl
        streamLoop fuel input output

def fsStreamCopy (fuel : Nat) (src dst : List UInt8) (mode : OpenMode) : FsM Unit := do
  let input ← platform (.fileOpen src .read) rfl
  match ← outcome (platform (.fileOpen dst mode) rfl) with
  | .error error => do
      perform (.fileFree input) rfl
      throw error
  | .ok output => do
      let ok ← outcome (streamLoop fuel input output)
      perform (.fileFree output) rfl
      perform (.fileFree input) rfl
      liftExcept ok

def fsCopyPayload (fuel : Nat) (src : List UInt8) (srcKind : UcbFsKind) (flags : UcbFsFlags)
    (dst : List UInt8) (exclusive : Bool) : FsM Unit :=
  if srcKind = .symlink ∧ flags.follow = false then fsCopyLink src dst
  else do
    fsStreamCopy fuel src dst (if exclusive then .createExclusive else .createTruncate)
    fsCopyMeta src dst

def fsTempSibling (dst : List UInt8) : (attempts : Nat) → FsM (Option (List UInt8))
  | 0 => pure none
  | attempts + 1 => do
      let suffix : List UInt8 ← perform .tempSuffix rfl
      match ← outcome (platform (.kind (dst ++ suffix) true) rfl) with
      | .ok _ => fsTempSibling dst attempts
      | .error lerr =>
          if lerr.code = .errsysEnoent then pure (some (dst ++ suffix))
          else fsTempSibling dst attempts

/-- The copy of `ucb_fs_copy_file` after its checks: staged next to an existing
destination, and removed again when it fails. -/
def copyChecked (fuel : Nat) (src : List UInt8) (srcKind : UcbFsKind) (flags : UcbFsFlags)
    (dst : List UInt8) (dstExists : Bool) : FsM Unit :=
  if dstExists then do
    match ← fsTempSibling dst 64 with
    | none => throw ⟨.outOfMemory, "ucb_fs_copy_file: out of memory"⟩
    | some tmp => do
        let ok ← outcome (do
          fsCopyPayload fuel src srcKind flags tmp true
          platform (.rename tmp dst true) rfl)
        match ok with
        | .ok () => pure ()
        | .error error => do
            let _ ← outcome (platform (.removeFile tmp) rfl)
            throw error
  else do
    match ← outcome (fsCopyPayload fuel src srcKind flags dst false) with
    | .ok () => pure ()
    | .error error => do
        let _ ← outcome (platform (.removeFile dst) rfl)
        throw error

def ucbFsCopyFile (conf : UcbPathStyle) (fuel : Nat) (src dst : List UInt8) (flags : UcbFsFlags) :
    FsM Unit := do
  fsCheckPath src
  fsCheckPath dst
  let canonSrc := ucbFsCanon conf src
  let canonDst := ucbFsCanon conf dst
  match ← fsKindExists canonSrc true with
  | none => throw ⟨.errsysEnoent, "ucb_fs_copy_file: source does not exist"⟩
  | some srcKind => do
      let dstKind ← fsKindExists canonDst true
      if dstKind = some .dir then
        throw ⟨.errsysEisdir, "ucb_fs_copy_file: destination is a directory"⟩
      else if dstKind.isSome ∧ flags.overwrite = false then
        throw ⟨.errsysEexist, "ucb_fs_copy_file: destination exists"⟩
      else if srcKind = .dir then
        throw ⟨.errsysEisdir, "ucb_fs_copy_file: source is a directory"⟩
      else copyChecked fuel canonSrc srcKind flags canonDst dstKind.isSome

/-! ## Copying a tree -/

mutual

def fsCopyDir (conf : UcbPathStyle) (flags : UcbFsFlags) :
    (fuel : Nat) → (src dst : List UInt8) → FsM Unit
  | 0, _, _ => .mk .exhausted
  | fuel + 1, src, dst => do
      let dir ← platform (.dirOpen src) rfl
      let ok ← outcome (copyEntries conf flags fuel src dst dir)
      perform (.dirFree dir) rfl
      liftExcept ok

/-- The loop of `fs_copy_dir` over the entries of the source. -/
def copyEntries (conf : UcbPathStyle) (flags : UcbFsFlags) :
    (fuel : Nat) → (src dst : List UInt8) → (dir : Nat) → FsM Unit
  | 0, _, _, _ => .mk .exhausted
  | fuel + 1, src, dst, dir => do
      match ← platform (.dirNext dir) rfl with
      | none => pure ()
      | some name => do
          let childSrc := ucbFsJoin src name
          let childDst := ucbFsJoin dst name
          let kind ← platform (.kind childSrc (!flags.follow)) rfl
          if kind = .dir then do
            fsMkdirP conf fuel childDst
            fsCopyDir conf flags fuel childSrc childDst
            fsCopyMeta childSrc childDst
          else ucbFsCopyFile conf fuel childSrc childDst flags
          copyEntries conf flags fuel src dst dir

end

def ucbFsCopyTree (conf : UcbPathStyle) (fuel : Nat) (src dst : List UInt8) (flags : UcbFsFlags) :
    FsM Unit := do
  fsCheckPath src
  fsCheckPath dst
  let canonSrc := ucbFsCanon conf src
  let canonDst := ucbFsCanon conf dst
  if fsIsWithin canonDst canonSrc then
    throw ⟨.invalidArg, "ucb_fs_copy_tree: destination is inside the source"⟩
  else do
    let srcKind ← platform (.kind canonSrc false) rfl
    if srcKind ≠ .dir then
      throw ⟨.errsysEnotdir, "ucb_fs_copy_tree: source is not a directory"⟩
    else do
      match ← fsKindExists canonDst true with
      | some dstKind =>
          if dstKind ≠ .dir then
            throw ⟨.errsysEnotdir, "ucb_fs_copy_tree: destination is not a directory"⟩
          else if flags.overwrite = false then
            throw ⟨.errsysEexist, "ucb_fs_copy_tree: destination exists"⟩
          else pure ()
      | none => fsMkdirP conf fuel canonDst
      fsCopyDir conf flags fuel canonSrc canonDst
      fsCopyMeta canonSrc canonDst

/-! ## Moving -/

def ucbFsRemove (conf : UcbPathStyle) (path : List UInt8) : FsM Unit := do
  fsCheckPath path
  let canon := ucbFsCanon conf path
  let kind ← platform (.kind canon true) rfl
  if kind = .dir then platform (.removeDir canon) rfl
  else platform (.removeFile canon) rfl

def errsysExdev : UcbEcode := .errsysOther 18

/-- The copy of `ucb_fs_move` to another device. -/
def moveAcross (conf : UcbPathStyle) (fuel : Nat) (src dst : List UInt8) (srcKind : UcbFsKind)
    (flags : UcbFsFlags) : FsM Unit := do
  if srcKind = .dir then ucbFsCopyTree conf fuel src dst flags
  else ucbFsCopyFile conf fuel src dst flags
  if srcKind = .dir then ucbFsRemoveAll conf fuel src
  else ucbFsRemove conf src

/-- `ucb_fs_move` after its checks. -/
def moveChecked (conf : UcbPathStyle) (fuel : Nat) (src dst : List UInt8) (srcKind : UcbFsKind)
    (flags : UcbFsFlags) : FsM Unit := do
  match ← outcome (platform (.rename src dst flags.overwrite) rfl) with
  | .ok () => pure ()
  | .error lerr =>
      if lerr.code ≠ errsysExdev then throw lerr
      else moveAcross conf fuel src dst srcKind flags

def ucbFsMove (conf : UcbPathStyle) (fuel : Nat) (src dst : List UInt8) (flags : UcbFsFlags) :
    FsM Unit := do
  fsCheckPath src
  fsCheckPath dst
  let canonSrc := ucbFsCanon conf src
  let canonDst := ucbFsCanon conf dst
  match ← fsKindExists canonSrc true with
  | none => throw ⟨.errsysEnoent, "ucb_fs_move: source does not exist"⟩
  | some srcKind => do
      let dstKind ← fsKindExists canonDst true
      if dstKind = some .dir then
        throw ⟨.errsysEexist, "ucb_fs_move: destination is a directory"⟩
      else if dstKind.isSome ∧ srcKind = .dir then
        throw ⟨.errsysEnotdir, "ucb_fs_move: cannot move a directory onto a file"⟩
      else if dstKind.isSome ∧ flags.overwrite = false then
        throw ⟨.errsysEexist, "ucb_fs_move: destination exists"⟩
      else moveChecked conf fuel canonSrc canonDst srcKind flags

end Ucb.Fs
