import Mathlib.Logic.Function.Basic
import Ucb.Lib.Refinement
import Ucb.Path.Restyle

/-!
Contract: the cached texts of a path against the texts computed from its parts.

Owns:
- `ucb_path` with its two private caches and the flag that guards them;
- the operations that make, change and read paths, and changes of the
  thread-local default style between them;
- which changes of the default style leave a cached text behind.

The queries that take a path as `const` and compute their answer from the parts
change nothing, so no operation stands for them. A released path is gone until it
is initialized again.
-/

namespace Ucb.Path

open Ucb.Lib

universe u

/-! ## Paths with their caches -/

/-- The content of an `ucb_str`, which holds no embedded NUL. -/
def StrText : Type := { bytes : List UInt8 // 0 ∉ bytes }

/-- `ucb_path` with `_name`, `_cache` and `_dirty`. -/
structure CachedPath where
  path : UcbPath
  name : List UInt8
  cache : List UInt8
  dirty : Bool
deriving DecidableEq, Repr

/-- A change of the parts, which sets `_dirty`. -/
def CachedPath.changed (cached : CachedPath) (path : UcbPath) : CachedPath :=
  { cached with path := path, dirty := true }

def ucbPathMake : CachedPath :=
  ⟨⟨[], [], [], .default⟩, [], [], true⟩

def pathBuildName (path : UcbPath) : List UInt8 :=
  path.stem ++ path.ext

def pathUpdate (conf : UcbPathStyle) (cached : CachedPath) : CachedPath :=
  if cached.dirty then
    { cached with
      name := pathBuildName cached.path
      cache := pathComposeTo conf cached.path
      dirty := false }
  else cached

/-- `path_length`, the size that `path_compose_info` computes. -/
def pathLength (conf : UcbPathStyle) (path : UcbPath) : Nat :=
  let needSep := pathJunction conf path ≠ []
  path.dir.length + (if needSep then 1 else 0) + path.stem.length + path.ext.length

/-! ## Queries -/

/-- The text a C string pointer to a buffer stands for. -/
def cString (data : List UInt8) : List UInt8 :=
  data.takeWhile (· ≠ 0)

/-- `ucb_path_cstr`: the text at the pointer. Behind the cached text stands its NUL. -/
def ucbPathCstr (conf : UcbPathStyle) (cached : CachedPath) : List UInt8 :=
  cString ((pathUpdate conf cached).cache ++ [0])

def ucbPathStr (conf : UcbPathStyle) (cached : CachedPath) : List UInt8 :=
  (pathUpdate conf cached).cache

def ucbPathFilename (conf : UcbPathStyle) (cached : CachedPath) : List UInt8 :=
  (pathUpdate conf cached).name

def ucbPathToStr (conf : UcbPathStyle) (cached : CachedPath) : List UInt8 :=
  pathComposeTo conf cached.path

def ucbPathLen (conf : UcbPathStyle) (cached : CachedPath) : Nat :=
  pathLength conf cached.path

structure ViewsAgree (conf : UcbPathStyle) (cached : CachedPath) : Prop where
  cstr : ucbPathCstr conf cached = ucbPathToStr conf cached
  str : ucbPathStr conf cached = ucbPathToStr conf cached
  len : ucbPathLen conf cached = (ucbPathCstr conf cached).length
  filename : ucbPathFilename conf cached = cached.path.stem ++ cached.path.ext

/-- A change of the default style that does not touch the text of a path: its cache is to be
rebuilt anyway, the path has a style of its own, the separator stays the same, or none is
written between the directory and the name. -/
def Follows (conf style : UcbPathStyle) (cached : CachedPath) : Prop :=
  cached.dirty = true ∨ cached.path.style ≠ .default ∨
    pathSepOf style .default = pathSepOf conf .default ∨ cached.path.dir = [] ∨
    cached.path.stem = [] ∧ cached.path.ext = []

/-! ## Setters -/

/-- `ucb_path_copy` to another path. -/
def ucbPathCopy (dst src : CachedPath) : CachedPath :=
  dst.changed src.path

def ucbPathClone (src : CachedPath) : CachedPath :=
  ucbPathCopy ucbPathMake src

def ucbPathClear (cached : CachedPath) : CachedPath :=
  ⟨⟨[], [], [], cached.path.style⟩, [], [], true⟩

def ucbPathSetStem (path : UcbPath) (stem : List UInt8) : UcbPath :=
  { path with stem := stem }

/-- `ucb_path_set_ext`, and so `ucb_path_replace_ext`. -/
def ucbPathSetExt (path : UcbPath) (ext : List UInt8) : UcbPath :=
  match ext.dropWhile (· == dot) with
  | [] => { path with ext := [] }
  | first :: rest => { path with ext := dot :: first :: rest }

/-! ## Sequences of operations -/

/-- The paths of a thread and its default path style. -/
structure Paths (Key : Type u) where
  conf : UcbPathStyle
  live : Key → Option CachedPath

/-- An operation on the paths of a thread, or a change of its default path style. -/
inductive PathsOp (Key : Type u) where
  | setConf (style : UcbPathStyle)
  | make (key : Key)
  | initStyle (key : Key) (str : StrText) (style : UcbPathStyle)
  | clone (key src : Key)
  | copy (key src : Key)
  | assign (key : Key) (str : StrText)
  | clear (key : Key)
  | setStyle (key : Key) (style : UcbPathStyle)
  | setDir (key : Key) (dir : StrText)
  | setStem (key : Key) (stem : StrText)
  | setExt (key : Key) (ext : StrText)
  | setFilename (key : Key) (name : StrText)
  | append (key other : Key)
  | appendStr (key : Key) (other : StrText)
  | join (key base other : Key)
  | joinStr (key : Key) (base other : StrText)
  | normalize (key : Key)
  | parent (key src : Key)
  | cstr (key : Key)
  | str (key : Key)
  | filename (key : Key)
  | release (key : Key)

section Store

variable {Key : Type u} [DecidableEq Key]

def Paths.put (paths : Paths Key) (key : Key) (cached : CachedPath) : Paths Key :=
  { paths with live := Function.update paths.live key (some cached) }

def Paths.change (paths : Paths Key) (key : Key) (changed : CachedPath → UcbPath) :
    Option (Paths Key × Option (List UInt8)) :=
  (paths.live key).map fun cached => (paths.put key (cached.changed (changed cached)), none)

/-- A query that brings the caches up to date and hands out a text. -/
def Paths.query (paths : Paths Key) (key : Key)
    (read : UcbPathStyle → CachedPath → List UInt8) : Option (Paths Key × Option (List UInt8)) :=
  (paths.live key).map fun cached =>
    (paths.put key (pathUpdate paths.conf cached), some (read paths.conf cached))

/-- An operation, with the text that it hands out; nothing for a path that is not there. -/
def pathsStep (paths : Paths Key) : PathsOp Key → Option (Paths Key × Option (List UInt8))
  | .setConf style => some ({ paths with conf := style }, none)
  | .make key => some (paths.put key ucbPathMake, none)
  | .initStyle key str style =>
      some (paths.put key (ucbPathMake.changed (ucbPathInitStyle paths.conf str.val style)), none)
  | .clone key src => (paths.live src).map fun cached => (paths.put key (ucbPathClone cached), none)
  | .copy key src =>
      if key = src then (paths.live key).map fun _ => (paths, none)
      else (paths.live src).bind fun source => paths.change key fun _ => source.path
  | .assign key str => paths.change key fun cached => ucbPathAssign paths.conf cached.path str.val
  | .clear key => (paths.live key).map fun cached => (paths.put key (ucbPathClear cached), none)
  | .setStyle key style =>
      paths.change key fun cached => ucbPathSetStyle paths.conf cached.path style
  | .setDir key dir => paths.change key fun cached => ucbPathSetDir paths.conf cached.path dir.val
  | .setStem key stem => paths.change key fun cached => ucbPathSetStem cached.path stem.val
  | .setExt key ext => paths.change key fun cached => ucbPathSetExt cached.path ext.val
  | .setFilename key name =>
      paths.change key fun cached => ucbPathSetFilename cached.path name.val
  | .append key other =>
      (paths.live other).bind fun operand =>
        paths.change key fun cached => ucbPathAppend paths.conf cached.path operand.path
  | .appendStr key other =>
      paths.change key fun cached => ucbPathAppendStr paths.conf cached.path other.val
  | .join key base other =>
      (paths.live base).bind fun first => (paths.live other).map fun operand =>
        (paths.put key ((ucbPathClone first).changed
          (ucbPathAppend paths.conf first.path operand.path)), none)
  | .joinStr key base other =>
      let first := ucbPathInitStyle paths.conf base.val .default
      some (paths.put key (ucbPathMake.changed
        (ucbPathAppendStr paths.conf first other.val)), none)
  | .normalize key => paths.change key fun cached => ucbPathNormalize paths.conf cached.path
  | .parent key src =>
      (paths.live src).map fun source =>
        (paths.put key ((ucbPathClone source).changed (ucbPathParent paths.conf source.path)), none)
  | .cstr key => paths.query key ucbPathCstr
  | .str key => paths.query key ucbPathStr
  | .filename key => paths.query key ucbPathFilename
  | .release key =>
      (paths.live key).map fun _ =>
        ({ paths with live := Function.update paths.live key none }, none)

/-- The views of every path agree behind an operation. -/
def StaysInStep (paths : Paths Key) (op : PathsOp Key) : Prop :=
  ∀ after ∈ pathsStep paths op, ∀ key, ∀ cached ∈ after.1.live key, ViewsAgree after.1.conf cached

/-- A change of the default style touches the text of no path. -/
def KeepsJunctions (paths : Paths Key) : PathsOp Key → Prop
  | .setConf style => ∀ key, ∀ cached ∈ paths.live key, Follows paths.conf style cached
  | _ => True

end Store

/-! ## Texts without NUL -/

structure NoNul (path : UcbPath) : Prop where
  dir : 0 ∉ path.dir
  stem : 0 ∉ path.stem
  ext : 0 ∉ path.ext

theorem noNul_buildDir (conf style : UcbPathStyle) {region : List UInt8} (noNul : 0 ∉ region) :
    0 ∉ pathBuildDir region (pathSepOf conf style) :=
  notMem_pathBuildDir (pathSepOf_ne_zero conf style).symm noNul

theorem noNul_parseFilename {name : List UInt8} (noNul : 0 ∉ name) :
    0 ∉ (pathParseFilename name).1 ∧ 0 ∉ (pathParseFilename name).2 := by
  rw [← parseFilename_append name, List.mem_append, not_or] at noNul
  exact noNul

theorem noNul_parse (conf style : UcbPathStyle) {str : List UInt8} (noNul : 0 ∉ str) :
    NoNul (pathParse conf str style) := by
  rw [pathParse]
  split
  next => exact ⟨List.not_mem_nil, List.not_mem_nil, List.not_mem_nil⟩
  next =>
    have region : 0 ∉ str.take (rawDirLen str) := fun member => noNul (List.mem_of_mem_take member)
    have name : 0 ∉ str.drop (rawDirLen str) := fun member => noNul (List.mem_of_mem_drop member)
    exact ⟨noNul_buildDir conf style region, (noNul_parseFilename name).1,
      (noNul_parseFilename name).2⟩

theorem noNul_junction (conf : UcbPathStyle) (path : UcbPath) : 0 ∉ pathJunction conf path := by
  rw [pathJunction]
  split
  next => exact fun member => pathSepOf_ne_zero conf path.style (List.mem_singleton.mp member).symm
  next => exact List.not_mem_nil

theorem noNul_compose {path : UcbPath} (conf : UcbPathStyle) (noNul : NoNul path) :
    0 ∉ pathComposeTo conf path := by
  simp only [pathComposeTo, List.mem_append, not_or]
  exact ⟨⟨⟨noNul.dir, noNul_junction conf path⟩, noNul.stem⟩, noNul.ext⟩

theorem noNul_appendSegment (conf style : UcbPathStyle) {dir seg : List UInt8} (inDir : 0 ∉ dir)
    (inSeg : 0 ∉ seg) : 0 ∉ pathAppendSegment dir seg (pathSepOf conf style) := by
  have nonzero := (pathSepOf_ne_zero conf style).symm
  rw [pathAppendSegment]
  exact notMem_ite inDir (notMem_ite (by simp [inDir, inSeg, nonzero]) (by simp [inDir, inSeg]))

theorem noNul_append {conf : UcbPathStyle} {path other : UcbPath} (noNul : NoNul path)
    (operand : NoNul other) : NoNul (ucbPathAppend conf path other) := by
  rw [ucbPathAppend]
  split
  next => exact operand
  next =>
    have name : 0 ∉ path.stem ++ path.ext := by simp [noNul.stem, noNul.ext]
    exact ⟨noNul_appendSegment conf path.style
      (noNul_appendSegment conf path.style noNul.dir name) operand.dir, operand.stem, operand.ext⟩

theorem noNul_appendStr {conf : UcbPathStyle} {path : UcbPath} {other : List UInt8}
    (noNul : NoNul path) (operand : 0 ∉ other) : NoNul (ucbPathAppendStr conf path other) :=
  noNul_append noNul (noNul_parse conf path.style operand)

theorem noNul_setStyle {conf : UcbPathStyle} {path : UcbPath} (style : UcbPathStyle)
    (noNul : NoNul path) : NoNul (ucbPathSetStyle conf path style) := by
  rw [ucbPathSetStyle]
  exact ⟨notMem_ite (notMem_map_sep _ (pathSepOf_ne_zero _ _).symm noNul.dir) noNul.dir, noNul.stem,
    noNul.ext⟩

theorem noNul_setExt {path : UcbPath} {ext : List UInt8} (noNul : NoNul path)
    (noNulExt : 0 ∉ ext) : NoNul (ucbPathSetExt path ext) := by
  have kept : ∀ c ∈ ext.dropWhile (· == dot), c ∈ ext := fun c member =>
    (List.dropWhile_sublist _).subset member
  rw [ucbPathSetExt]
  split
  next => exact ⟨noNul.dir, noNul.stem, List.not_mem_nil⟩
  next first rest found =>
    rw [found] at kept
    refine ⟨noNul.dir, noNul.stem, ?_⟩
    intro member
    rcases List.mem_cons.mp member with same | later
    · exact absurd same (by decide)
    · exact noNulExt (kept 0 later)

theorem noNul_buildAnchor (conf style : UcbPathStyle) {dir : List UInt8} (ak : PathAnchorKind)
    (anchorLen : Nat) (noNul : 0 ∉ dir) :
    0 ∉ pathBuildAnchor dir ak anchorLen (pathSepOf conf style) := by
  have front : 0 ∉ dir.take anchorLen := fun member => noNul (List.mem_of_mem_take member)
  have nonzero := (pathSepOf_ne_zero conf style).symm
  have written := notMem_map_sep (pathSepMatch · (pathSepOf conf style)) nonzero front
  rw [pathBuildAnchor]
  refine notMem_ite ?_ written
  simp only [List.mem_append, List.mem_singleton, not_or]
  exact ⟨written, nonzero⟩

theorem noNul_parent {conf : UcbPathStyle} {path : UcbPath} (noNul : NoNul path) :
    NoNul (ucbPathParent conf path) := by
  rw [ucbPathParent]
  split
  next => exact ⟨noNul.dir, List.not_mem_nil, List.not_mem_nil⟩
  next =>
    dsimp only
    split
    next => exact ⟨notMem_ite (noNul_buildAnchor conf path.style _ _ noNul.dir) List.not_mem_nil,
              noNul.stem, noNul.ext⟩
    next cut _ =>
      split
      next => exact ⟨notMem_ite (noNul_buildAnchor conf path.style _ _ noNul.dir) List.not_mem_nil,
                noNul.stem, noNul.ext⟩
      next => exact ⟨fun member => noNul.dir (List.mem_of_mem_take member), noNul.stem, noNul.ext⟩

/-! ## Caches in step with the parts -/

/-- The parts hold no NUL, and an up-to-date cache holds what the parts compose to. -/
structure InStep (conf : UcbPathStyle) (cached : CachedPath) : Prop where
  noNul : NoNul cached.path
  fresh : cached.dirty = false →
    cached.name = pathBuildName cached.path ∧ cached.cache = pathComposeTo conf cached.path

theorem InStep.changed {conf : UcbPathStyle} {cached : CachedPath} {path : UcbPath}
    (noNul : NoNul path) : InStep conf (cached.changed path) where
  noNul := noNul
  fresh stale := by cases stale

/-- Bringing the caches up to date gives the texts composed from the parts. -/
theorem InStep.update_eq {conf : UcbPathStyle} {cached : CachedPath} (inStep : InStep conf cached) :
    pathUpdate conf cached =
      ⟨cached.path, pathBuildName cached.path, pathComposeTo conf cached.path, false⟩ := by
  rw [pathUpdate]
  split
  next => rfl
  next clean =>
    have clean : cached.dirty = false := Bool.not_eq_true _ ▸ clean
    obtain ⟨name, cache⟩ := inStep.fresh clean
    rw [← name, ← cache, ← clean]

theorem InStep.update {conf : UcbPathStyle} {cached : CachedPath} (inStep : InStep conf cached) :
    InStep conf (pathUpdate conf cached) := by
  rw [inStep.update_eq]
  exact ⟨inStep.noNul, fun _ => ⟨rfl, rfl⟩⟩

theorem cString_terminated {text : List UInt8} (noNul : 0 ∉ text) :
    cString (text ++ [0]) = text := by
  rw [cString, List.takeWhile_append_of_pos]
  · exact List.append_nil text
  · intro c member
    simp only [ne_eq, decide_eq_true_eq]
    rintro rfl
    exact noNul member

theorem pathLength_eq (conf : UcbPathStyle) (path : UcbPath) :
    pathLength conf path = (pathComposeTo conf path).length := by
  have junction : (if pathJunction conf path ≠ [] then 1 else 0) =
      (pathJunction conf path).length := by
    rw [pathJunction]
    split
    next => rfl
    next => rfl
  simp only [pathLength, pathComposeTo, List.length_append, junction]

theorem InStep.viewsAgree {conf : UcbPathStyle} {cached : CachedPath}
    (inStep : InStep conf cached) : ViewsAgree conf cached := by
  have composed : ucbPathCstr conf cached = pathComposeTo conf cached.path := by
    rw [ucbPathCstr, inStep.update_eq]
    exact cString_terminated (noNul_compose conf inStep.noNul)
  constructor
  case cstr => exact composed
  case str => rw [ucbPathStr, inStep.update_eq, ucbPathToStr]
  case len => rw [composed, ucbPathLen, pathLength_eq]
  case filename => rw [ucbPathFilename, inStep.update_eq, pathBuildName]

/-- A composed text depends on the default style only by the separator in front of the name. -/
theorem compose_eq_iff (conf conf' : UcbPathStyle) (path : UcbPath) :
    pathComposeTo conf path = pathComposeTo conf' path ↔
      path.style ≠ .default ∨ pathSepOf conf' .default = pathSepOf conf .default ∨ path.dir = [] ∨
        path.stem = [] ∧ path.ext = [] := by
  obtain ⟨dir, stem, ext, style⟩ := path
  have text : pathComposeTo conf ⟨dir, stem, ext, style⟩ =
      pathComposeTo conf' ⟨dir, stem, ext, style⟩ ↔
      pathJunction conf ⟨dir, stem, ext, style⟩ = pathJunction conf' ⟨dir, stem, ext, style⟩ := by
    simp only [pathComposeTo, List.append_assoc, List.append_cancel_left_eq,
      List.append_cancel_right_eq]
  rw [text]
  by_cases explicit : style = .default
  · subst explicit
    by_cases same : pathSepOf conf' .default = pathSepOf conf .default
    · simp [pathJunction, same]
    · by_cases empty : dir = [] ∨ stem = [] ∧ ext = []
      · rcases empty with none | ⟨noStem, noExt⟩
        · simp [pathJunction, none]
        · simp [pathJunction, noStem, noExt]
      · simp only [not_or, not_and_or] at empty
        simp only [ne_eq, not_true_eq_false, same, empty, false_or, pathJunction]
        grind
  · have concrete : ∀ c, pathSepOf c style = pathSepOf conf style := by
      intro c
      cases style with
      | default => exact absurd rfl explicit
      | native => rfl
      | posix => rfl
      | windows => rfl
    simp [pathJunction, explicit, concrete conf']

theorem InStep.restyled {conf style : UcbPathStyle} {cached : CachedPath}
    (inStep : InStep conf cached) (follows : Follows conf style cached) :
    InStep style cached where
  noNul := inStep.noNul
  fresh clean := by
    have same := (compose_eq_iff conf style cached.path).mpr
      (follows.resolve_left (Bool.not_eq_true _ ▸ clean))
    rw [← same]
    exact inStep.fresh clean

/-- After a change of the default style the views agree exactly when the cache follows it. -/
theorem InStep.viewsAgree_iff {conf style : UcbPathStyle} {cached : CachedPath}
    (inStep : InStep conf cached) : ViewsAgree style cached ↔ Follows conf style cached := by
  constructor
  · intro agree
    cases clean : cached.dirty with
    | true => exact .inl clean
    | false =>
        have stored : pathUpdate style cached = cached := by
          rw [pathUpdate, clean, if_neg Bool.false_ne_true]
        have same := agree.str
        rw [ucbPathStr, stored, (inStep.fresh clean).2, ucbPathToStr] at same
        exact .inr ((compose_eq_iff conf style cached.path).mp same)
  · exact fun follows => (inStep.restyled follows).viewsAgree

def Paths.InStep {Key : Type u} (paths : Paths Key) : Prop :=
  ∀ key, ∀ cached ∈ paths.live key, Path.InStep paths.conf cached

theorem Paths.InStep.viewsAgree {Key : Type u} {paths : Paths Key} (inStep : paths.InStep)
    (key : Key) : ∀ cached ∈ paths.live key, ViewsAgree paths.conf cached :=
  fun cached present => (inStep key cached present).viewsAgree

section Runs

variable {Key : Type u} [DecidableEq Key] {paths : Paths Key}

theorem Paths.InStep.put (inStep : paths.InStep) (key : Key) {cached : CachedPath}
    (new : Path.InStep paths.conf cached) : (paths.put key cached).InStep := by
  intro other found present
  by_cases same : other = key
  · subst same
    simp only [Paths.put, Function.update_self] at present
    exact Option.some.inj present ▸ new
  · simp only [Paths.put, Function.update_of_ne same] at present
    exact inStep other found present

theorem Paths.InStep.change (inStep : paths.InStep) {key : Key} {rewrite : CachedPath → UcbPath}
    {after : Paths Key × Option (List UInt8)} (stepped : paths.change key rewrite = some after)
    (noNul : ∀ cached, NoNul cached.path → NoNul (rewrite cached)) : after.1.InStep := by
  obtain ⟨cached, present, rfl⟩ := Option.map_eq_some_iff.mp stepped
  exact inStep.put key (.changed (noNul cached (inStep key cached present).noNul))

theorem Paths.InStep.query (inStep : paths.InStep) {key : Key}
    {read : UcbPathStyle → CachedPath → List UInt8} {after : Paths Key × Option (List UInt8)}
    (stepped : paths.query key read = some after) : after.1.InStep := by
  obtain ⟨cached, present, rfl⟩ := Option.map_eq_some_iff.mp stepped
  exact inStep.put key (inStep key cached present).update

theorem noNul_empty (style : UcbPathStyle) : NoNul ⟨[], [], [], style⟩ :=
  ⟨List.not_mem_nil, List.not_mem_nil, List.not_mem_nil⟩

/-- Every operation that is no change of the default style keeps all paths in step. -/
theorem Paths.InStep.step (inStep : paths.InStep) {op : PathsOp Key}
    {after : Paths Key × Option (List UInt8)} (stepped : pathsStep paths op = some after)
    (noConf : ∀ style, op ≠ .setConf style) : after.1.InStep := by
  have parts : ∀ {key cached}, paths.live key = some cached → NoNul cached.path :=
    fun present => (inStep _ _ present).noNul
  cases op with
  | setConf style => exact absurd rfl (noConf style)
  | make key =>
      obtain rfl := Option.some.inj stepped
      exact inStep.put key ⟨noNul_empty _, fun clean => by cases clean⟩
  | initStyle key str style =>
      obtain rfl := Option.some.inj stepped
      exact inStep.put key (.changed (noNul_parse paths.conf style str.property))
  | clone key src =>
      obtain ⟨source, present, rfl⟩ := Option.map_eq_some_iff.mp stepped
      exact inStep.put key (.changed (parts present))
  | copy key src =>
      rw [pathsStep] at stepped
      split at stepped
      · obtain ⟨_, -, rfl⟩ := Option.map_eq_some_iff.mp stepped
        exact inStep
      · obtain ⟨source, present, changed⟩ := Option.bind_eq_some_iff.mp stepped
        exact inStep.change changed fun _ _ => parts present
  | assign key str =>
      exact inStep.change stepped fun cached _ => noNul_parse _ cached.path.style str.property
  | clear key =>
      obtain ⟨cached, present, rfl⟩ := Option.map_eq_some_iff.mp stepped
      exact inStep.put key ⟨noNul_empty _, fun clean => by cases clean⟩
  | setStyle key style => exact inStep.change stepped fun _ => noNul_setStyle style
  | setDir key dir =>
      exact inStep.change stepped fun cached noNul =>
        ⟨noNul_buildDir _ cached.path.style dir.property, noNul.stem, noNul.ext⟩
  | setStem key stem =>
      exact inStep.change stepped fun _ noNul => ⟨noNul.dir, stem.property, noNul.ext⟩
  | setExt key ext => exact inStep.change stepped fun _ noNul => noNul_setExt noNul ext.property
  | setFilename key name =>
      have split := noNul_parseFilename name.property
      exact inStep.change stepped fun _ noNul => ⟨noNul.dir, split.1, split.2⟩
  | append key other =>
      obtain ⟨operand, present, changed⟩ := Option.bind_eq_some_iff.mp stepped
      exact inStep.change changed fun _ noNul => noNul_append noNul (parts present)
  | appendStr key other =>
      exact inStep.change stepped fun _ noNul => noNul_appendStr noNul other.property
  | join key base other =>
      obtain ⟨first, present, joined⟩ := Option.bind_eq_some_iff.mp stepped
      obtain ⟨operand, present', rfl⟩ := Option.map_eq_some_iff.mp joined
      exact inStep.put key (.changed (noNul_append (parts present) (parts present')))
  | joinStr key base other =>
      obtain rfl := Option.some.inj stepped
      exact inStep.put key (.changed
        (noNul_appendStr (noNul_parse paths.conf .default base.property) other.property))
  | normalize key =>
      exact inStep.change stepped fun cached noNul => noNul_parse _ cached.path.style
        (notMem_normalizeLexical (pathSepOf_ne_zero _ _).symm (by decide) (noNul_compose _ noNul))
  | parent key src =>
      obtain ⟨source, present, rfl⟩ := Option.map_eq_some_iff.mp stepped
      exact inStep.put key (.changed (noNul_parent (parts present)))
  | cstr key => exact inStep.query stepped
  | str key => exact inStep.query stepped
  | filename key => exact inStep.query stepped
  | release key =>
      obtain ⟨_, -, rfl⟩ := Option.map_eq_some_iff.mp stepped
      intro other found present
      by_cases same : other = key
      · subst same
        simp at present
      · simp only [Function.update_of_ne same] at present
        exact inStep other found present

/-- Behind exactly the operations that keep the junctions the views agree. -/
theorem staysInStep_iff (inStep : paths.InStep) (op : PathsOp Key) :
    StaysInStep paths op ↔ KeepsJunctions paths op := by
  cases op with
  | setConf style =>
      constructor
      · intro stays key cached present
        exact (inStep key cached present).viewsAgree_iff.mp (stays _ rfl key cached present)
      · intro keeps after stepped key cached present
        obtain rfl := Option.some.inj stepped
        exact (inStep key cached present).viewsAgree_iff.mpr (keeps key cached present)
  | _ =>
      refine iff_of_true ?_ trivial
      intro after stepped
      exact (inStep.step stepped fun _ same => by cases same).viewsAgree

/-- Operations behind which the views agree keep all paths in step. -/
theorem Paths.InStep.stays (inStep : paths.InStep) {op : PathsOp Key}
    (stays : StaysInStep paths op) {after : Paths Key × Option (List UInt8)}
    (stepped : pathsStep paths op = some after) : after.1.InStep := by
  cases op with
  | setConf style =>
      obtain rfl := Option.some.inj stepped
      intro key cached present
      have agree : ViewsAgree style cached := stays _ rfl key cached present
      exact (inStep key cached present).restyled
        ((inStep key cached present).viewsAgree_iff.mp agree)
  | _ => exact inStep.step stepped fun _ same => by cases same

/-- In every sequence of operations the cached and the computed views of all paths agree at
every point, exactly when each change of the default style keeps the junctions of the paths
whose caches are up to date. -/
theorem views_agree_iff (conf : UcbPathStyle) (ops : List (PathsOp Key)) :
    Throughout pathsStep StaysInStep ⟨conf, fun _ => none⟩ ops ↔
      Throughout pathsStep KeepsJunctions ⟨conf, fun _ => none⟩ ops :=
  throughout_iff Paths.InStep (fun _ op inStep => staysInStep_iff inStep op)
    (fun _ _ _ inStep stays stepped => inStep.stays stays stepped)
    (fun _ _ absent => by cases absent)

end Runs

/-- A path is composed, the default style is changed, and the path is composed again: the
cached text is the old one. -/
theorem cstr_after_conf :
    (performAll pathsStep (⟨.posix, fun _ => none⟩ : Paths Unit)
        [.make (), .setDir () ⟨[97], by decide⟩, .setStem () ⟨[98], by decide⟩, .cstr (),
          .setConf .windows, .cstr ()]).map (fun last =>
        (last.2, (last.1.live ()).map (ucbPathToStr last.1.conf))) =
      some ([none, none, none, some [97, slash, 98], none, some [97, slash, 98]],
        some [97, backslash, 98]) ∧
    ¬ Throughout pathsStep StaysInStep (⟨.posix, fun _ => none⟩ : Paths Unit)
        [.make (), .setDir () ⟨[97], by decide⟩, .setStem () ⟨[98], by decide⟩, .cstr (),
          .setConf .windows] := by
  refine ⟨rfl, ?_⟩
  intro stays
  have last := ((((stays.2 _ rfl).2 _ rfl).2 _ rfl).2 _ rfl).1
  exact absurd (last _ rfl () _ rfl).str (by decide)

end Ucb.Path
