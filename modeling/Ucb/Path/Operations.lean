import Ucb.Path.Path

/-!
Contract: the operations of `path.c` that change a path, and the parts it is
read back in.

Owns:
- construction, assignment, joining and the setters that parse their argument;
- changing the style, and asking for the root;
- the parts of a path by number.

Does not own: the caches and the allocations, which always succeed here.
-/

namespace Ucb.Path

/-! ## Construction and setters -/

def ucbPathInitStyle (conf : UcbPathStyle) (str : List UInt8) (style : UcbPathStyle) : UcbPath :=
  pathParse conf str style

def ucbPathAssign (conf : UcbPathStyle) (path : UcbPath) (str : List UInt8) : UcbPath :=
  pathParse conf str path.style

def ucbPathIsAbsolute (conf : UcbPathStyle) (path : UcbPath) : Bool :=
  match path.dir with
  | [] => false
  | first :: _ => pathSepMatch first (pathSepOf conf path.style)

def ucbPathSetStyle (conf : UcbPathStyle) (path : UcbPath) (style : UcbPathStyle) : UcbPath :=
  let ns := pathResolveStyle conf style
  let oldSep := pathSepOf conf path.style
  let newSep := pathSepOf conf ns
  let dir :=
    if oldSep ≠ newSep ∧ path.dir ≠ [] then
      path.dir.map fun c => if pathSepMatch c oldSep then newSep else c
    else path.dir
  { path with dir := dir, style := ns }

def ucbPathSetDir (conf : UcbPathStyle) (path : UcbPath) (dir : List UInt8) : UcbPath :=
  { path with dir := pathBuildDir dir (pathSepOf conf path.style) }

def ucbPathSetFilename (path : UcbPath) (name : List UInt8) : UcbPath :=
  let (stem, ext) := pathParseFilename name
  { path with stem := stem, ext := ext }

/-! ## Joining -/

/-- `path_append_segment`, which the join of a base filename repeats in place. -/
def pathAppendSegment (dir seg : List UInt8) (sep : UInt8) : List UInt8 :=
  if seg = [] then dir
  else if dir ≠ [] ∧ dir.getLast? ≠ some sep then dir ++ sep :: seg
  else dir ++ seg

/-- `ucb_path_append`. A path appended to itself is copied first. -/
def ucbPathAppend (conf : UcbPathStyle) (path other : UcbPath) : UcbPath :=
  if ucbPathIsAbsolute conf other then other
  else
    let sep := pathSepOf conf path.style
    let dir := pathAppendSegment path.dir (path.stem ++ path.ext) sep
    { path with dir := pathAppendSegment dir other.dir sep, stem := other.stem, ext := other.ext }

def ucbPathAppendStr (conf : UcbPathStyle) (path : UcbPath) (other : List UInt8) : UcbPath :=
  ucbPathAppend conf path (ucbPathInitStyle conf other path.style)

/-! ## Parts -/

/-- The loop of `ucb_path_num_parts` over the directory behind the anchor. -/
def numPartsLoop (sep : UInt8) (count : Nat) (rest : List UInt8) : Nat :=
  match _found : rest.dropWhile (pathSepMatch · sep) with
  | [] => count
  | _ :: text => numPartsLoop sep (count + 1) (text.dropWhile (!pathSepMatch · sep))
termination_by rest.length
decreasing_by
  have skipped := (List.dropWhile_sublist (pathSepMatch · sep) (l := rest)).length_le
  have scanned := (List.dropWhile_sublist (!pathSepMatch · sep) (l := text)).length_le
  rw [_found, List.length_cons] at skipped
  omega

def ucbPathNumParts (conf : UcbPathStyle) (path : UcbPath) : Nat :=
  let sep := pathSepOf conf path.style
  let (ak, anchorLen) := pathDetectAnchor path.dir sep
  let count := if ak ≠ .none then 1 else 0
  let count := numPartsLoop sep count (path.dir.drop anchorLen)
  if path.stem ≠ [] ∨ path.ext ≠ [] then count + 1 else count

/-- The loop of `ucb_path_part`: the segment at `index`, or how many parts the
directory has. -/
def partLoop (sep : UInt8) (index pos : Nat) (rest : List UInt8) : List UInt8 ⊕ Nat :=
  match _found : rest.dropWhile (pathSepMatch · sep) with
  | [] => .inr pos
  | c :: text =>
      if index = pos then .inl (c :: text.takeWhile (!pathSepMatch · sep))
      else partLoop sep index (pos + 1) (text.dropWhile (!pathSepMatch · sep))
termination_by rest.length
decreasing_by
  have skipped := (List.dropWhile_sublist (pathSepMatch · sep) (l := rest)).length_le
  have scanned := (List.dropWhile_sublist (!pathSepMatch · sep) (l := text)).length_le
  rw [_found, List.length_cons] at skipped
  omega

/-- `ucb_path_part`; nothing where it reports an index out of range. -/
def ucbPathPart (conf : UcbPathStyle) (path : UcbPath) (index : Nat) : Option (List UInt8) :=
  let sep := pathSepOf conf path.style
  let (ak, anchorLen) := pathDetectAnchor path.dir sep
  if ak ≠ .none ∧ index = 0 then some (pathBuildAnchor path.dir ak anchorLen sep)
  else
    match partLoop sep index (if ak ≠ .none then 1 else 0) (path.dir.drop anchorLen) with
    | .inl segment => some segment
    | .inr pos =>
        if (path.stem ≠ [] ∨ path.ext ≠ []) ∧ index = pos then some (path.stem ++ path.ext)
        else none

def pathParts (conf : UcbPathStyle) (path : UcbPath) : List (Option (List UInt8)) :=
  (List.range (ucbPathNumParts conf path)).map (ucbPathPart conf path)

/-! ## Operations -/

inductive PathOp where
  | initStyle (str : List UInt8) (style : UcbPathStyle)
  | assign (str : List UInt8)
  | append (other : UcbPath)
  | appendStr (other : List UInt8)
  | normalize
  | parent
  | setDir (dir : List UInt8)
  | setFilename (name : List UInt8)
  | setStyle (style : UcbPathStyle)
deriving DecidableEq, Repr

def applyOp (conf : UcbPathStyle) (path : UcbPath) : PathOp → UcbPath
  | .initStyle str style => ucbPathInitStyle conf str style
  | .assign str => ucbPathAssign conf path str
  | .append other => ucbPathAppend conf path other
  | .appendStr other => ucbPathAppendStr conf path other
  | .normalize => ucbPathNormalize conf path
  | .parent => ucbPathParent conf path
  | .setDir dir => ucbPathSetDir conf path dir
  | .setFilename name => ucbPathSetFilename path name
  | .setStyle style => ucbPathSetStyle conf path style

/-- A path that operations meeting a condition have made, the first one
`ucb_path_init_style`. A path that is appended has been made so too. -/
inductive Made (conf : UcbPathStyle) (meets : UcbPath → PathOp → Prop) : UcbPath → Prop
  | init {str : List UInt8} {style : UcbPathStyle}
      (allowed : meets ⟨[], [], [], .default⟩ (.initStyle str style)) :
      Made conf meets (ucbPathInitStyle conf str style)
  | op {path : UcbPath} {op : PathOp} (made : Made conf meets path)
      (operand : ∀ other, op = .append other → Made conf meets other)
      (allowed : meets path op) : Made conf meets (applyOp conf path op)

end Ucb.Path
