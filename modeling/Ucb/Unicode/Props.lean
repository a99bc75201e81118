import Ucb.Unicode.Utf8

/-!
Contract: the generated property tables and their lookup.

Owns:
- the property record and the enumerations its fields range over;
- the two-stage lookup `ucbUcGetProp` and the decomposition and combiner
  tables it points into;
- `UcbUcTables`, which carries the proof that every scalar value has an entry and
  that an encoder chunk has room for a longest mapping.

The tables themselves are generated at build time from the UCD; they are a
parameter everywhere.
-/

namespace Ucb.Unicode

/-- `ucb_uc_gcb`: Grapheme_Cluster_Break. -/
inductive UcbUcGcb where
  | other
  | cr
  | lf
  | control
  | extend
  | zwj
  | regionalIndicator
  | prepend
  | spacingMark
  | l
  | v
  | t
  | lv
  | lvt
deriving DecidableEq, Repr, Inhabited

/-- `ucb_uc_incb`: Indic_Conjunct_Break. -/
inductive UcbUcIncb where
  | none
  | consonant
  | extend
  | linker
deriving DecidableEq, Repr, Inhabited

/-- `ucb_uc_prop`. The three flags are the bits of `flags`; an index is the
position in its table plus one, and 0 when there is no entry. -/
structure UcbUcProp where
  compExcl : Bool
  compMaybe : Bool
  nfkcNo : Bool
  ccc : Nat
  gcb : UcbUcGcb
  incb : UcbUcIncb
  extpict : Bool
  decompIdx : Nat
  combinerIdx : Nat
deriving DecidableEq, Repr, Inhabited

/-- `ucb_uc_dctype`, as far as the code tells the types apart. -/
inductive UcbUcDctype where
  | canon
  | compat
deriving DecidableEq, Repr

/-- `ucb_uc_decomp`: one decomposition step. -/
structure UcbUcDecomp where
  type : UcbUcDctype
  vals : List Nat
deriving DecidableEq, Repr

structure UcbUcCombinerEntry where
  combiner : Nat
  composed : Nat
deriving DecidableEq, Repr

/-- An array load. Loading past the end of the array is undefined. -/
def tableAt {α : Type} (table : List α) (index : Nat) : Exec α :=
  match table[index]? with
  | some entry => .ok entry
  | none => .undefined

/-- The generated constants and arrays. -/
structure UcbUcRawTables where
  maxMultiLen : Nat
  blockSize : Nat
  stage1 : List Nat
  stage2 : List Nat
  props : List UcbUcProp
  decomps : List UcbUcDecomp
  combiners : List (List UcbUcCombinerEntry)

def ucbUcGetProp (tables : UcbUcRawTables) (cp : Nat) : Exec UcbUcProp := do
  let block ← tableAt tables.stage1 (cp / tables.blockSize)
  let index ← tableAt tables.stage2 (block * tables.blockSize + cp % tables.blockSize)
  tableAt tables.props index

/-- Generated tables, which cover the scalar values. The longest full case
mapping of the UCD has three codepoints. -/
structure UcbUcTables extends UcbUcRawTables where
  multiLen : 3 ≤ maxMultiLen
  covers : ∀ cp, IsScalar cp → ∃ prop, ucbUcGetProp toUcbUcRawTables cp = .ok prop

/-- The property entry of a scalar value. -/
def UcbUcTables.propOf (tables : UcbUcTables) (cp : Scalar) : UcbUcProp :=
  match ucbUcGetProp tables.toUcbUcRawTables cp.val with
  | .ok prop => prop
  | _ => default

theorem getProp_scalar (tables : UcbUcTables) (cp : Scalar) :
    ucbUcGetProp tables.toUcbUcRawTables cp.val = .ok (tables.propOf cp) := by
  obtain ⟨prop, found⟩ := tables.covers cp.val cp.property
  simp [UcbUcTables.propOf, found]

/-- Arrays of one block in which all codepoints below `count` share an entry. -/
def uniformRawTables (prop : UcbUcProp) (count : Nat) : UcbUcRawTables where
  maxMultiLen := 3
  blockSize := count
  stage1 := [0]
  stage2 := List.replicate count 0
  props := [prop]
  decomps := []
  combiners := []

theorem getProp_uniform (prop : UcbUcProp) {count cp : Nat} (inside : cp < count) :
    ucbUcGetProp (uniformRawTables prop count) cp = .ok prop := by
  simp [ucbUcGetProp, uniformRawTables, tableAt, Nat.div_eq_of_lt inside, Nat.mod_eq_of_lt inside,
    inside]

theorem IsScalar.lt {cp : Nat} (scalar : IsScalar cp) : cp < 0x110000 := by
  unfold IsScalar at scalar
  omega

/-- Tables in which all codepoints share one entry. -/
def uniformTables (prop : UcbUcProp) : UcbUcTables where
  toUcbUcRawTables := uniformRawTables prop 0x110000
  multiLen := Nat.le_refl 3
  covers := fun _ scalar => ⟨prop, getProp_uniform prop scalar.lt⟩

@[simp] theorem uniformTables_propOf (prop : UcbUcProp) (cp : Scalar) :
    (uniformTables prop).propOf cp = prop := by
  have entry := getProp_uniform prop cp.property.lt
  simp only [UcbUcTables.propOf, uniformTables, entry]

end Ucb.Unicode
