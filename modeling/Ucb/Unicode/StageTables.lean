import Ucb.Lib.BlockTable
import Ucb.Unicode.PropTable

/-!
Contract: the stage tables that `ucparser` generates, and the lookup in them.

Owns:
- `Staged`, what the tables hold of a sequence of numbers, and the rounds that keep it;
- that the types of the arrays hold all their elements;
- that `ucb_uc_get_prop` finds the record of every codepoint.
-/

namespace Ucb.Unicode

open Ucb.Lib

/-! ## Blocks -/

/-- The tables hold these numbers in blocks. -/
structure Staged (blocksize : Nat) (content : List Nat) (tables : LookupTables) : Prop where
  blocks : Blocks blocksize tables.stage2 content tables.stage1
  aligned : blocksize ∣ tables.stage2.length
  unique : ∀ block number, tables.uniqueBlocks.lookup block = some number →
    HasBlock blocksize tables.stage2 number block
  stored : ∀ entry ∈ tables.stage2, entry ∈ content
  size : tables.stage2.length ≤ content.length

variable {blocksize : Nat} {content : List Nat} {tables : LookupTables}

theorem staged_start (blocksize : Nat) : Staged blocksize [] ⟨[], [], [], []⟩ where
  blocks := .nil
  aligned := ⟨0, rfl⟩
  unique := by simp
  stored := by simp
  size := Nat.le_refl 0

theorem Staged.addBlock (staged : Staged blocksize content tables)
    (whole : tables.block.length = blocksize) :
    Staged blocksize (content ++ tables.block) (tables.addBlock blocksize) := by
  rw [LookupTables.addBlock]
  split
  next known =>
    refine ⟨staged.blocks.snoc (staged.unique _ _ known), staged.aligned, staged.unique, ?_, ?_⟩
    · exact fun entry member => List.mem_append_left _ (staged.stored entry member)
    · rw [List.length_append]
      exact Nat.le_trans staged.size (Nat.le_add_right _ _)
  next =>
    have new := hasBlock_new staged.aligned whole
    refine ⟨(staged.blocks.extend _).snoc new, ?_, ?_, ?_, ?_⟩
    · rw [List.length_append, whole]
      exact Nat.dvd_add staged.aligned (Nat.dvd_refl _)
    · intro block number found
      rw [List.lookup_append] at found
      rcases Option.or_eq_some_iff.mp found with before | ⟨-, now⟩
      · exact (staged.unique block number before).extend _
      · obtain ⟨front, back, single, -⟩ := List.lookup_eq_some_iff.mp now
        have member : (block, number) ∈ [(tables.block, tables.stage2.length / blocksize)] := by
          rw [single]
          exact List.mem_append_right _ (List.mem_cons_self ..)
        obtain ⟨rfl, rfl⟩ := Prod.mk.inj (List.mem_singleton.mp member)
        exact new
    · intro entry member
      rcases List.mem_append.mp member with before | now
      · exact List.mem_append_left _ (staged.stored entry before)
      · exact List.mem_append_right _ now
    · rw [List.length_append, List.length_append]
      exact Nat.add_le_add_right staged.size _

theorem addBlock_block (tables : LookupTables) (blocksize : Nat) :
    (tables.addBlock blocksize).block = [] := by
  rw [LookupTables.addBlock]
  split <;> rfl

/-- The loop holds some whole blocks, and the beginning of another one. -/
def Filling (blocksize : Nat) (numbers : List Nat) (tables : LookupTables) : Prop :=
  ∃ content, numbers = content ++ tables.block ∧ tables.block.length < blocksize ∧
    Staged blocksize content tables

theorem Filling.addCodepoint {numbers : List Nat} (filling : Filling blocksize numbers tables)
    (data : List CodepointInfo) (cp : Nat) :
    Filling blocksize (numbers ++ [propIndexOf data cp])
      (tables.addCodepoint data blocksize cp) := by
  obtain ⟨content, rfl, short, staged⟩ := filling
  have appended : Staged blocksize content
      { tables with block := tables.block ++ [propIndexOf data cp] } :=
    ⟨staged.blocks, staged.aligned, staged.unique, staged.stored, staged.size⟩
  rw [LookupTables.addCodepoint]
  split
  next shorter => exact ⟨content, List.append_assoc .., shorter, appended⟩
  next full =>
    rw [List.length_append, List.length_singleton] at full
    have whole : (tables.block ++ [propIndexOf data cp]).length = blocksize := by
      rw [List.length_append, List.length_singleton]
      omega
    refine ⟨_, ?_, ?_, appended.addBlock whole⟩
    · rw [addBlock_block, List.append_nil, List.append_assoc]
    · rw [addBlock_block]
      exact Nat.lt_of_le_of_lt (Nat.zero_le _) short

theorem filling_loop (positive : 0 < blocksize) (data : List CodepointInfo) (limit : Nat) :
    Filling blocksize ((List.range limit).map (propIndexOf data))
      ((List.range limit).foldl (LookupTables.addCodepoint data blocksize) ⟨[], [], [], []⟩) := by
  induction limit with
  | zero => exact ⟨[], rfl, positive, staged_start blocksize⟩
  | succ limit inductionHypothesis =>
      rw [List.range_succ, List.map_append, List.foldl_append]
      exact inductionHypothesis.addCodepoint data limit

/-- With a block size that divides the number of codepoints, no block is left. -/
theorem createLookupTables_staged (data : List CodepointInfo) (divides : blocksize ∣ 0x110000) :
    Staged blocksize ((List.range 0x110000).map (propIndexOf data))
      (createLookupTables data blocksize) := by
  have positive : 0 < blocksize := Nat.pos_of_dvd_of_pos divides (by decide)
  obtain ⟨content, split, short, staged⟩ := filling_loop positive data 0x110000
  rw [createLookupTables]
  have length := congrArg List.length split
  rw [List.length_map, List.length_range, List.length_append, staged.blocks.length_eq] at length
  have rest : blocksize ∣ _ :=
    (Nat.dvd_add_right (Nat.dvd_mul_left blocksize _)).mp (length ▸ divides)
  have empty := List.eq_nil_of_length_eq_zero (Nat.eq_zero_of_dvd_of_lt rest short)
  rw [empty, List.append_nil] at split
  rw [if_pos empty, split]
  exact staged

/-! ## The arrays of the header -/

theorem cstduint_holds {maxval : Nat} (below : maxval < 2 ^ 64) :
    ∃ b, cstduint maxval = some b ∧ maxval < 2 ^ b := by
  cases chosen : cstduint maxval with
  | none =>
      have none := List.find?_eq_none.mp chosen 64 (by simp)
      simp only [decide_eq_true_eq] at none
      omega
  | some b =>
      have fits := List.find?_some chosen
      have positive : 0 < 2 ^ b := Nat.two_pow_pos b
      simp only [decide_eq_true_eq] at fits
      exact ⟨b, rfl, by omega⟩

/-- The type of an array holds all its elements. -/
theorem emitArray_eq {entries : List Nat} (nonempty : entries ≠ [])
    (below : ∀ entry ∈ entries, entry < 2 ^ 64) : emitArray entries = some entries := by
  obtain ⟨maxval, greatest⟩ := Option.ne_none_iff_exists'.mp (mt List.max?_eq_none_iff.mp nonempty)
  obtain ⟨member, above⟩ := List.max?_eq_some_iff.mp greatest
  obtain ⟨b, width, fits⟩ := cstduint_holds (below maxval member)
  have same : (entries.map fun entry => entry % 2 ^ b) = entries := by
    refine (List.map_congr_left fun entry inside => ?_).trans (List.map_id entries)
    exact Nat.mod_eq_of_lt (Nat.lt_of_le_of_lt (above entry inside) fits)
  simp only [emitArray, greatest, width, Option.bind_eq_bind, Option.bind_some, same]
  rfl

/-! ## The lookup -/

namespace UnicodeDataParser

variable (parser : UnicodeDataParser)

theorem infos_length_le : parser.infos.length ≤ 0x110000 := by
  have inside : parser.infos.map CodepointInfo.cp ⊆ List.range 0x110000 := by
    intro cp member
    obtain ⟨info, isInfo, rfl⟩ := List.mem_map.mp member
    exact List.mem_range.mpr (parser.valid info isInfo)
  have length := (List.subperm_of_subset parser.distinct inside).length_le
  rwa [List.length_map, List.length_range] at length

/-- What both passes make, as the arrays of the header. -/
theorem generate_eq {blocksize : Nat} {table : PropTable} {tables : LookupTables}
    (power : ∃ k, blocksize = 2 ^ k) (created : parser.createPropertyTable = some table)
    (made : createLookupTables table.done blocksize = tables)
    (stage1 : emitArray tables.stage1 = some tables.stage1)
    (stage2 : emitArray tables.stage2 = some tables.stage2) :
    parser.generate blocksize =
      some ⟨blocksize, tables.stage1, tables.stage2, table.records⟩ := by
  obtain ⟨k, rfl⟩ := power
  have checked : ¬ (2 ^ k = 0 ∨ 2 ^ k &&& (2 ^ k - 1) ≠ 0) := by
    rw [Nat.and_two_pow_sub_one_eq_mod, Nat.mod_self]
    have positive := Nat.two_pow_pos k
    omega
  rw [generate, if_neg checked, created, Option.bind_eq_bind, Option.bind_some, made]
  dsimp only
  rw [stage1, Option.bind_eq_bind, Option.bind_some, stage2, Option.bind_some, Option.pure_def]

/-- The lookup in whole blocks of numbers, where every number leads to a record. -/
theorem getPropRecord_staged {blocksize : Nat} {numbers : List Nat} {tables : LookupTables}
    {records : List PropRecord} {record : PropRecord} {cp number : Nat} (positive : 0 < blocksize)
    (staged : Staged blocksize numbers tables) (short : numbers.length ≤ 2 ^ 32)
    (numbered : numbers[cp]? = some number) (found : records[number]? = some record) :
    ucbUcGetPropRecord ⟨blocksize, tables.stage1, tables.stage2, records⟩ cp = .ok record := by
  obtain ⟨inside, -⟩ := List.getElem?_eq_some_iff.mp numbered
  obtain ⟨block, first, second⟩ := staged.blocks.load positive inside
  have within := staged.blocks.inside block (List.mem_of_getElem? first)
  have position := Nat.mod_lt cp positive
  have size := staged.size
  rw [numbered] at second
  have offset : block * blocksize % 2 ^ 32 = block * blocksize := Nat.mod_eq_of_lt (by omega)
  have index : (block * blocksize + cp % blocksize) % 2 ^ 32 = block * blocksize + cp % blocksize :=
    Nat.mod_eq_of_lt (by omega)
  simp only [ucbUcGetPropRecord, tableAt, first, Exec.ok_bind, offset, index, second, found]

/-- The generator succeeds, and `ucb_uc_get_prop` finds the record of every codepoint. -/
theorem getPropRecord_generate {blocksize : Nat} (power : ∃ k, blocksize = 2 ^ k)
    (divides : blocksize ∣ 0x110000) (noDefault : parser.NoDefault) :
    ∃ header, parser.generate blocksize = some header ∧
      ∀ cp < 0x110000, ucbUcGetPropRecord header cp = .ok (parser.recordOf cp) := by
  have positive : 0 < blocksize := Nat.pos_of_dvd_of_pos divides (by decide)
  obtain ⟨table, created, numbered⟩ := parser.createPropertyTable_numbered noDefault
  have staged := createLookupTables_staged table.done divides
  have length : ((List.range 0x110000).map (propIndexOf table.done)).length = 0x110000 := by
    rw [List.length_map, List.length_range]
  have short : table.records.length < 2 ^ 64 := by
    have count := numbered.count
    have infos := parser.infos_length_le
    rw [PropTable.records, List.length_map]
    rw [listed, List.length_map] at count
    omega
  have record (cp : Nat) := parser.propIndexOf_record numbered cp
  have below : ∀ entry ∈ (List.range 0x110000).map (propIndexOf table.done), entry < 2 ^ 64 := by
    intro entry member
    obtain ⟨cp, -, rfl⟩ := List.mem_map.mp member
    obtain ⟨inside, -⟩ := List.getElem?_eq_some_iff.mp (record cp)
    exact Nat.lt_trans inside short
  have loaded : ∀ cp < 0x110000, ((List.range 0x110000).map (propIndexOf table.done))[cp]? =
      some (propIndexOf table.done cp) := by
    intro cp inside
    rw [List.getElem?_map, List.getElem?_range inside]
    rfl
  obtain ⟨tables, made⟩ : ∃ tables, createLookupTables table.done blocksize = tables := ⟨_, rfl⟩
  rw [made] at staged
  generalize (List.range 0x110000).map (propIndexOf table.done) = numbers at *
  have count := staged.blocks.length_eq
  have within := staged.blocks.inside
  have size := staged.size
  have nonempty : tables.stage1 ≠ [] := by
    intro empty
    rw [empty, List.length_nil, Nat.zero_mul] at count
    omega
  have nonempty2 : tables.stage2 ≠ [] := by
    intro empty
    obtain ⟨number, rest, stage1⟩ := List.exists_cons_of_ne_nil nonempty
    have reaches := within number (stage1 ▸ List.mem_cons_self ..)
    rw [empty, List.length_nil] at reaches
    omega
  have stage1 := emitArray_eq nonempty fun number member => by
    have reaches := within number member
    have least := Nat.le_mul_of_pos_right number positive
    omega
  have stage2 := emitArray_eq nonempty2 fun entry member => below entry (staged.stored entry member)
  refine ⟨_, parser.generate_eq power created made stage1 stage2, fun cp inside => ?_⟩
  exact getPropRecord_staged positive staged (by omega) (loaded cp inside) (record cp)

end UnicodeDataParser

/-! ## Every assignment -/

theorem starter_hangul {cp : Scalar} (_ : IsHangul cp.val) : (0 : Nat) = 0 := rfl

def plainUcd : Ucd where
  ccc _ := 0
  mapping _ := none
  excluded _ := false
  primary _ _ := none
  rank _ := 0
  rank_lt := fun mapped => by cases mapped
  primary_eq_some := by
    intro a b p
    simp
  hangul_ccc := starter_hangul
  hangul_unmapped := fun _ => rfl
  syllable_free := fun mapped => by cases mapped
  nul_unmapped := fun _ => rfl

def plainParser : UcdParser where
  ucd := plainUcd
  data := []
  nodup := List.nodup_nil
  listed := fun mapped => by cases mapped

def infoOf (pair : Nat × PropRecord) : CodepointInfo where
  toPropRecord := pair.2
  cp := pair.1
  codepoints := []
  propindex := 0

def assignedParser (records : List (Nat × PropRecord)) (distinct : (records.map Prod.fst).Nodup)
    (valid : ∀ pair ∈ records, pair.1 < 0x110000) : UnicodeDataParser where
  characters := plainParser
  infos := records.map infoOf
  distinct := by
    rwa [List.map_map]
  valid := by
    intro info member
    obtain ⟨pair, isRecord, rfl⟩ := List.mem_map.mp member
    exact valid pair isRecord
  fresh := by
    intro info member
    obtain ⟨pair, -, rfl⟩ := List.mem_map.mp member
    rfl

section Assigned

variable {records : List (Nat × PropRecord)} (distinct : (records.map Prod.fst).Nodup)
  (valid : ∀ pair ∈ records, pair.1 < 0x110000)

theorem plain_flagged (info : CodepointInfo) :
    (assignedParser records distinct valid).flagged info = info := by
  have stable (c : Scalar) : (!plainParser.isNfkcStable c) = false := by
    rw [UcdParser.isNfkcStable]
    rfl
  have none {p : Scalar → Bool} (never : ∀ c, p c = false) (cp : Nat) :
      (scalarAt cp).any p = false := by
    cases scalarAt cp with
    | none => rfl
    | some c => exact never c
  have unmarked : (assignedParser records distinct valid).markNfkcNo info = info := by
    rw [UnicodeDataParser.markNfkcNo]
    exact congrArg (fun applies => info.addFlag applies .nfkcNo) (none stable info.cp)
  have included := none (p := plainParser.isCompExcluded) (fun _ => rfl) info.cp
  have absent := none (p := fun c => plainParser.compMaybe.contains c) (fun _ => rfl) info.cp
  have parser : (assignedParser records distinct valid).characters = plainParser := rfl
  rw [UnicodeDataParser.flagged, unmarked, UnicodeDataParser.updatePropertyFlags, parser, included,
    absent]
  rfl

/-- Every assignment of records is one that the generator can meet. -/
theorem assigned_recordOf (cp : Nat) :
    (assignedParser records distinct valid).recordOf cp =
      (records.lookup cp).getD defaultInfo.toPropRecord := by
  have flagged : (fun info => (assignedParser records distinct valid).updatePropertyFlags
      ((assignedParser records distinct valid).markNfkcNo info)) = id :=
    funext (plain_flagged distinct valid)
  have search : ∀ pairs : List (Nat × PropRecord),
      (((pairs.map infoOf).find? fun info => info.cp = cp).elim defaultInfo id).toPropRecord =
        (pairs.lookup cp).getD defaultInfo.toPropRecord := by
    intro pairs
    induction pairs with
    | nil => rfl
    | cons pair pairs inductionHypothesis =>
        obtain ⟨first, record⟩ := pair
        by_cases same : first = cp
        · subst same
          rw [List.map_cons, List.find?_cons_of_pos (by exact decide_eq_true rfl),
            List.lookup_cons_self]
          rfl
        · have differs : (cp == first) = false := beq_eq_false_iff_ne.mpr (Ne.symm same)
          have skipped : decide ((infoOf (first, record)).cp = cp) = false := decide_eq_false same
          rw [List.map_cons, List.find?_cons, skipped, List.lookup_cons, differs]
          exact inductionHypothesis
  rw [UnicodeDataParser.recordOf, flagged]
  exact search records

theorem assigned_noDefault (other : ∀ pair ∈ records, pair.2 ≠ defaultInfo.toPropRecord) :
    (assignedParser records distinct valid).NoDefault := by
  intro info member
  rw [plain_flagged]
  obtain ⟨pair, isRecord, rfl⟩ := List.mem_map.mp member
  exact other pair isRecord

end Assigned

def letterRecord : PropRecord :=
  { (CodepointInfo.new 0x41 .lu).toPropRecord with mappingIdx := 1 }

theorem letter_distinct : ([(0x41, letterRecord)].map Prod.fst).Nodup := List.nodup_singleton _

theorem letter_valid : ∀ pair ∈ [(0x41, letterRecord)], pair.1 < 0x110000 := by simp

theorem letter_other :
    ∀ pair ∈ [(0x41, letterRecord)], pair.2 ≠ defaultInfo.toPropRecord := by
  intro pair member
  obtain rfl := List.mem_singleton.mp member
  decide

theorem getPropRecord_letter :
    ∃ header, (assignedParser [(0x41, letterRecord)] letter_distinct letter_valid).generate 256 =
        some header ∧
      ucbUcGetPropRecord header 0x41 = .ok letterRecord ∧
      ucbUcGetPropRecord header 0x42 = .ok defaultInfo.toPropRecord := by
  obtain ⟨header, made, finds⟩ := (assignedParser [(0x41, letterRecord)] letter_distinct
    letter_valid).getPropRecord_generate ⟨8, rfl⟩ (by decide)
    (assigned_noDefault letter_distinct letter_valid letter_other)
  refine ⟨header, made, ?_, ?_⟩
  · rw [finds 0x41 (by decide), assigned_recordOf]
    rfl
  · rw [finds 0x42 (by decide), assigned_recordOf]
    rfl

end Ucb.Unicode
