import Ucb.Unicode.UcParser

/-!
Contract: the property table and the stage tables that `ucparser` generates.

Owns:
- the infos of codepoints, the keys of their records and the flags added last;
- `_create_property_table`, which numbers the different records;
- `_create_lookup_tables`, which stores equal blocks of these numbers once;
- the arrays of the generated header, and `ucb_uc_get_prop` in them.

`none` is an exception of Python. Dictionaries are lists of pairs in the order of insertion.
`_verify` only looks at the tables and is left out.
-/

namespace Ucb.Unicode

/-! ## Records -/

inductive GeneralCategory where
  | lu
  | ll
  | lt
  | lm
  | lo
  | mn
  | mc
  | me
  | nd
  | nl
  | no
  | pc
  | pd
  | ps
  | pe
  | pi
  | pf
  | po
  | sm
  | sc
  | sk
  | so
  | zs
  | zl
  | zp
  | cc
  | cf
  | cs
  | co
  | cn
deriving DecidableEq, Repr

inductive PropertyFlags where
  | default
  | compExcl
  | compMaybe
  | nfkcNo
deriving DecidableEq, Repr

def PropertyFlags.value : PropertyFlags → Nat
  | .default => 0
  | .compExcl => 1
  | .compMaybe => 2
  | .nfkcNo => 4

/-- The fields of a `CodepointInfo` that the property table gets. -/
structure PropRecord where
  flags : Nat
  gc : GeneralCategory
  ccc : Nat
  gcb : UcbUcGcb
  incb : UcbUcIncb
  extpict : Bool
  mappingIdx : Nat
  decompIdx : Nat
  combinerIdx : Nat
deriving DecidableEq, Repr

/-- The numbers in a key. The members of a `UcEnum` are numbered in their order. -/
def PropRecord.keyFields (record : PropRecord) : List Nat :=
  [record.flags, record.gc.ctorIdx, record.ccc, record.gcb.ctorIdx, record.incb.ctorIdx,
    record.extpict.toNat, record.mappingIdx, record.decompIdx, record.combinerIdx]

@[irreducible] def PropRecord.dataKey (record : PropRecord) : String :=
  "-".intercalate (record.keyFields.map toString)

/-- `CodepointInfo`, as far as the tables depend on it. `codepoints` lists the set's members. -/
structure CodepointInfo extends PropRecord where
  cp : Nat
  codepoints : List Nat
  propindex : Nat
deriving DecidableEq, Repr

def CodepointInfo.new (cp : Nat) (gc : GeneralCategory) : CodepointInfo where
  flags := 0
  gc := gc
  ccc := 0
  gcb := .other
  incb := .none
  extpict := false
  mappingIdx := 0
  decompIdx := 0
  combinerIdx := 0
  cp := cp
  codepoints := []
  propindex := 0

def defaultInfo : CodepointInfo :=
  .new 0xFFFF .cn

def CodepointInfo.addCodepoint (propinfo : CodepointInfo) (cp : Nat) : CodepointInfo :=
  { propinfo with codepoints := cp :: propinfo.codepoints }

def addToEntry (key : String) (cp : Nat) (entry : String × CodepointInfo) :
    String × CodepointInfo :=
  if entry.1 = key then (entry.1, entry.2.addCodepoint cp) else entry

/-- `UnicodeDataParser` in front of its last two passes: what it knows of decompositions, and the
values of `data`. -/
structure UnicodeDataParser where
  characters : UcdParser
  infos : List CodepointInfo
  distinct : (infos.map CodepointInfo.cp).Nodup
  valid : ∀ info ∈ infos, info.cp < 0x110000
  fresh : ∀ info ∈ infos, info.codepoints = []

/-! ## The property table -/

/-- The character at a codepoint. A surrogate is none: it has no decomposition and is in none. -/
def scalarAt (cp : Nat) : Option Scalar :=
  if scalar : IsScalar cp then some ⟨cp, scalar⟩ else none

def CodepointInfo.addFlag (info : CodepointInfo) (applies : Bool) (flag : PropertyFlags) :
    CodepointInfo :=
  if applies then { info with flags := info.flags ||| flag.value } else info

/-- What `_create_property_table` has made: the dictionary, the next number, and the infos that are
done. -/
structure PropTable where
  dataset : List (String × CodepointInfo)
  propIndex : Nat
  done : List CodepointInfo

/-- The records of `prop_table`, which are the values of the dictionary. -/
def PropTable.records (table : PropTable) : List PropRecord :=
  table.dataset.map fun entry => entry.2.toPropRecord

namespace UnicodeDataParser

variable (parser : UnicodeDataParser)

/-- The body of the loop that marks what is not in NFKC form. -/
def markNfkcNo (info : CodepointInfo) : CodepointInfo :=
  info.addFlag ((scalarAt info.cp).any fun c => !parser.characters.isNfkcStable c) .nfkcNo

def updatePropertyFlags (info : CodepointInfo) : CodepointInfo :=
  (info.addFlag ((scalarAt info.cp).any parser.characters.isCompExcluded) .compExcl).addFlag
    ((scalarAt info.cp).any fun c => parser.characters.compMaybe.contains c) .compMaybe

/-- The body of the second loop, behind the update of the flags. -/
def addInfo (table : PropTable) (info : CodepointInfo) : Option PropTable :=
  match table.dataset.lookup info.dataKey with
  | some propinfo =>
      if propinfo.codepoints = [] then none
      else some
        { dataset := table.dataset.map (addToEntry info.dataKey info.cp)
          propIndex := table.propIndex
          done := table.done ++ [{ info with propindex := propinfo.propindex }] }
  | none =>
      if info.codepoints ≠ [] then none
      else some
        { dataset := table.dataset ++
            [(info.dataKey, { info with propindex := table.propIndex }.addCodepoint info.cp)]
          propIndex := table.propIndex + 1
          done := table.done ++ [{ info with propindex := table.propIndex }] }

def createPropertyTable : Option PropTable :=
  (parser.infos.map parser.markNfkcNo).foldlM
    (fun table info => addInfo table (parser.updatePropertyFlags info))
    ⟨[(defaultInfo.dataKey, defaultInfo)], 1, []⟩

/-- The record that is assigned to a codepoint, with all flags, or the default record. -/
def recordOf (cp : Nat) : PropRecord :=
  ((parser.infos.find? fun info => info.cp = cp).elim defaultInfo fun info =>
    parser.updatePropertyFlags (parser.markNfkcNo info)).toPropRecord

end UnicodeDataParser

/-! ## The lookup tables -/

structure LookupTables where
  stage1 : List Nat
  stage2 : List Nat
  block : List Nat
  uniqueBlocks : List (List Nat × Nat)

def LookupTables.addBlock (tables : LookupTables) (blocksize : Nat) : LookupTables :=
  match tables.uniqueBlocks.lookup tables.block with
  | some blockIndex => { tables with stage1 := tables.stage1 ++ [blockIndex], block := [] }
  | none =>
      { stage1 := tables.stage1 ++ [tables.stage2.length / blocksize]
        stage2 := tables.stage2 ++ tables.block
        block := []
        uniqueBlocks := tables.uniqueBlocks ++
          [(tables.block, tables.stage2.length / blocksize)] }

def propIndexOf (data : List CodepointInfo) (cp : Nat) : Nat :=
  (data.find? fun info => info.cp = cp).elim 0 CodepointInfo.propindex

def LookupTables.addCodepoint (data : List CodepointInfo) (blocksize : Nat) (tables : LookupTables)
    (cp : Nat) : LookupTables :=
  let appended := { tables with block := tables.block ++ [propIndexOf data cp] }
  if appended.block.length < blocksize then appended else appended.addBlock blocksize

def createLookupTables (data : List CodepointInfo) (blocksize : Nat) : LookupTables :=
  let tables := (List.range 0x110000).foldl (LookupTables.addCodepoint data blocksize)
    ⟨[], [], [], []⟩
  if tables.block = [] then tables else tables.addBlock blocksize

/-! ## The header -/

/-- The width of the type that `cstduint` names. -/
def cstduint (maxval : Nat) : Option Nat :=
  [8, 16, 32, 64].find? fun b => maxval ≤ 2 ^ b - 1

/-- An array of the type for its greatest element. `max` raises for an empty one. -/
def emitArray (entries : List Nat) : Option (List Nat) := do
  let maxval ← entries.max?
  let b ← cstduint maxval
  pure (entries.map fun entry => entry % 2 ^ b)

structure PropHeader where
  blockSize : Nat
  stage1 : List Nat
  stage2 : List Nat
  props : List PropRecord

/-- The constructor, which checks the block size, the two passes, and the header. -/
def UnicodeDataParser.generate (parser : UnicodeDataParser) (blocksize : Nat) :
    Option PropHeader := do
  if blocksize = 0 ∨ blocksize &&& (blocksize - 1) ≠ 0 then none
  else do
    let table ← parser.createPropertyTable
    let tables := createLookupTables table.done blocksize
    let stage1 ← emitArray tables.stage1
    let stage2 ← emitArray tables.stage2
    pure ⟨blocksize, stage1, stage2, table.records⟩

/-- `ucb_uc_get_prop`, with the `unsigned int` arithmetic and whole records. -/
def ucbUcGetPropRecord (header : PropHeader) (cp : Nat) : Exec PropRecord := do
  let block ← tableAt header.stage1 (cp / header.blockSize)
  let offset := block * header.blockSize % 2 ^ 32
  let index ← tableAt header.stage2 ((offset + cp % header.blockSize) % 2 ^ 32)
  tableAt header.props index

end Ucb.Unicode
