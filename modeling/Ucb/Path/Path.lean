import Mathlib.Tactic.Common

/-!
Contract: the path type of a POSIX build, as `path.c` computes it.

Owns:
- separators, styles and the leading anchor;
- parsing into directory, stem and extension, and composing again;
- lexical normalization and the parent of a path.

Does not own: the storage of the parts. They are lists of bytes here, and every
allocation succeeds.

A byte list stands for the content of an `ucb_str`; a loop that stops at the NUL
behind it stops at the end of the list.
-/

namespace Ucb.Path

/-! ## Separators and styles -/

def slash : UInt8 := 0x2F

def backslash : UInt8 := 0x5C

def dot : UInt8 := 0x2E

inductive UcbPathStyle where
  | default
  | native
  | posix
  | windows
deriving DecidableEq, Repr

def pathIsSep (c : UInt8) : Bool :=
  c == slash

def pathSepMatch (c extraSep : UInt8) : Bool :=
  pathIsSep c || (extraSep != 0 && c == extraSep)

/-- `path_resolve_style` under the thread-local default style `conf`. -/
def pathResolveStyle (conf style : UcbPathStyle) : UcbPathStyle :=
  if style = .default then
    if conf = .default then .native else conf
  else style

def pathSepOf (conf style : UcbPathStyle) : UInt8 :=
  match pathResolveStyle conf style with
  | .posix => slash
  | .windows => backslash
  | .default | .native => slash

/-! ## Anchors -/

/-- `path_anchor_kind`. A POSIX build finds no drive and no UNC anchor. -/
inductive PathAnchorKind where
  | none
  | root
  | drive
  | unc
deriving DecidableEq, Repr

def pathDetectAnchor (str : List UInt8) (extraSep : UInt8) : PathAnchorKind × Nat :=
  match str with
  | [] => (.none, 0)
  | first :: rest =>
      if pathSepMatch first extraSep then
        match rest with
        | [] => (.root, 1)
        | second :: rest =>
            if pathSepMatch second extraSep then
              match rest with
              | [] => (.root, 2)
              | third :: _ => if pathSepMatch third extraSep then (.root, 1) else (.root, 2)
            else (.root, 1)
      else (.none, 0)

/-! ## Parsing -/

/-- `ucb_path`. The cached name and composed string are not stored. -/
structure UcbPath where
  dir : List UInt8
  stem : List UInt8
  ext : List UInt8
  style : UcbPathStyle
deriving DecidableEq, Repr

/-- The loop of `path_build_dir` behind the anchor: the text written so far and
whether it has content. -/
def buildDirLoop (sep : UInt8) : (pendingSep : Bool) → (tmp : List UInt8) → (hasContent : Bool) →
    List UInt8 → List UInt8 × Bool
  | _, tmp, hasContent, [] => (tmp, hasContent)
  | pendingSep, tmp, hasContent, c :: rest =>
      if pathIsSep c then buildDirLoop sep true tmp hasContent rest
      else
        let tmp := if pendingSep ∧ tmp ≠ [] then tmp ++ [sep] else tmp
        buildDirLoop sep false (tmp ++ [c]) true rest

def pathBuildDir (region : List UInt8) (sep : UInt8) : List UInt8 :=
  let (ak, anchorLen) := pathDetectAnchor region 0
  let anchor := (region.take anchorLen).map fun c => if pathIsSep c then sep else c
  let (tmp, hasContent) := buildDirLoop sep false anchor false (region.drop anchorLen)
  if anchorLen > 0 ∧ hasContent = false ∧ ak ≠ .unc ∧ tmp.getLast? ≠ some sep then tmp ++ [sep]
  else tmp

/-- The loop of `path_parse_filename` for the last dot, from below `i` down. -/
def filenameDot (cstr : List UInt8) (start : Nat) : Nat → Option Nat
  | 0 => none
  | i + 1 =>
      if i < start then none
      else if i = 0 then none
      else if cstr[i]? = some dot then some i
      else filenameDot cstr start i

def pathParseFilename (cstr : List UInt8) : List UInt8 × List UInt8 :=
  let start := (cstr.takeWhile (· == dot)).length
  match if cstr.length ≥ 2 then filenameDot cstr start (cstr.length - 1) else none with
  | none => (cstr, [])
  | some dot => (cstr.take dot, cstr.drop dot)

/-- The loop of `path_parse` for the last separator, from below `i` down. -/
def lastSep (cstr : List UInt8) : Nat → Option Nat
  | 0 => none
  | i + 1 => if cstr[i]?.any pathIsSep then some i else lastSep cstr i

/-- `raw_dir_len` of `path_parse`. -/
def rawDirLen (cstr : List UInt8) : Nat :=
  match lastSep cstr cstr.length with
  | none => 0
  | some last => last + 1

def pathParse (conf : UcbPathStyle) (str : List UInt8) (style : UcbPathStyle) : UcbPath :=
  let sep := pathSepOf conf style
  if str = [] then ⟨[], [], [], pathResolveStyle conf style⟩
  else
    let dir := pathBuildDir (str.take (rawDirLen str)) sep
    let (stem, ext) := pathParseFilename (str.drop (rawDirLen str))
    ⟨dir, stem, ext, pathResolveStyle conf style⟩

/-! ## Composing -/

/-- The separator between the directory and the name, as `path_compose_info`
decides it. -/
def pathJunction (conf : UcbPathStyle) (path : UcbPath) : List UInt8 :=
  let sep := pathSepOf conf path.style
  let hasName := path.stem ≠ [] ∨ path.ext ≠ []
  if path.dir ≠ [] ∧ hasName ∧ path.dir.getLast? ≠ some sep then [sep] else []

/-- `path_compose_to`, and so `ucb_path_to_str` and `ucb_path_cstr`. -/
def pathComposeTo (conf : UcbPathStyle) (path : UcbPath) : List UInt8 :=
  path.dir ++ pathJunction conf path ++ path.stem ++ path.ext

/-! ## Normalization -/

/-- The variables of the loop of `path_normalize_lexical`: the text written, where
each segment of it starts (the last one first), and how many leading `..` it
keeps. -/
structure NormState where
  out : List UInt8
  starts : List Nat
  base : Nat
deriving DecidableEq, Repr

/-- Append a segment with a separator in front unless one is there. -/
def NormState.push (state : NormState) (sep : UInt8) (seg : List UInt8) : NormState :=
  let junction := if state.out ≠ [] ∧ state.out.getLast? ≠ some sep then [sep] else []
  { state with
    out := state.out ++ junction ++ seg
    starts := state.out.length :: state.starts }

/-- One segment of the loop of `path_normalize_lexical`. -/
def normSegment (ak : PathAnchorKind) (sep : UInt8) (state : NormState) (seg : List UInt8) :
    NormState :=
  if seg = [dot] then state
  else if seg = [dot, dot] then
    if state.starts.length > state.base then
      { state with out := state.out.take (state.starts.headD 0), starts := state.starts.tail }
    else if ak = .none then
      let state := state.push sep seg
      { state with base := state.base + 1 }
    else state
  else state.push sep seg

/-- The loop of `path_normalize_lexical` over the rest of the path. -/
def normLoop (ak : PathAnchorKind) (sep : UInt8) (state : NormState) (rest : List UInt8) :
    NormState :=
  match _found : rest.dropWhile (pathSepMatch · sep) with
  | [] => state
  | c :: text =>
      -- `c` is no separator: the scan for the end of the segment passes it
      let seg := c :: text.takeWhile (!pathSepMatch · sep)
      normLoop ak sep (normSegment ak sep state seg) (text.dropWhile (!pathSepMatch · sep))
termination_by rest.length
decreasing_by
  have skipped := (List.dropWhile_sublist (pathSepMatch · sep) (l := rest)).length_le
  have scanned := (List.dropWhile_sublist (!pathSepMatch · sep) (l := text)).length_le
  rw [_found, List.length_cons] at skipped
  omega

def pathNormalizeLexical (path : List UInt8) (sep : UInt8) : List UInt8 :=
  let (ak, anchorLen) := pathDetectAnchor path sep
  let anchor := (path.take anchorLen).map fun c => if pathSepMatch c sep then sep else c
  let state := normLoop ak sep ⟨anchor, [], 0⟩ (path.drop anchorLen)
  let out :=
    if ak = .drive ∧ state.starts = [] ∧ state.out ≠ [] ∧ state.out.getLast? ≠ some sep then
      state.out ++ [sep]
    else state.out
  if out = [] ∧ path ≠ [] ∧ ak = .none then [dot] else out

def ucbPathNormalize (conf : UcbPathStyle) (path : UcbPath) : UcbPath :=
  let cur := pathComposeTo conf path
  let norm := pathNormalizeLexical cur (pathSepOf conf path.style)
  pathParse conf norm path.style

/-! ## Parents -/

/-- The loop of `ucb_path_parent` for the last separator behind the anchor, from
below `i` down. -/
def parentCut (dir : List UInt8) (sep : UInt8) (anchorLen : Nat) : Nat → Option Nat
  | 0 => none
  | i + 1 =>
      if i < anchorLen then none
      else if dir[i]?.any (pathSepMatch · sep) then some i
      else parentCut dir sep anchorLen i

def pathBuildAnchor (dir : List UInt8) (ak : PathAnchorKind) (anchorLen : Nat) (sep : UInt8) :
    List UInt8 :=
  let anchor := (dir.take anchorLen).map fun c => if pathSepMatch c sep then sep else c
  if ak = .drive then anchor ++ [sep] else anchor

def ucbPathParent (conf : UcbPathStyle) (path : UcbPath) : UcbPath :=
  if path.stem ≠ [] ∨ path.ext ≠ [] then { path with stem := [], ext := [] }
  else
    let sep := pathSepOf conf path.style
    let (ak, anchorLen) := pathDetectAnchor path.dir sep
    let whole := if ak ≠ .none then pathBuildAnchor path.dir ak anchorLen sep else []
    match parentCut path.dir sep anchorLen path.dir.length with
    | none => { path with dir := whole }
    | some cut =>
        if cut ≤ anchorLen then { path with dir := whole }
        else { path with dir := path.dir.take cut }

end Ucb.Path
