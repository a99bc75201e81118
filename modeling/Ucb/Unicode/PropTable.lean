import Ucb.Unicode.PropGenerator

/-!
Contract: the property table that `ucparser` generates.

Owns:
- that records with the same key are the same;
- `Numbered`, what the table holds after some of the infos, and the step that keeps it;
- that every info ends with the number of its record.
-/

namespace Ucb.Unicode

/-! ## Keys -/

theorem toString_inj {m n : Nat} (same : toString m = toString n) : m = n := by
  have digits : Nat.toDigits 10 m = Nat.toDigits 10 n := by
    rw [← Nat.toList_repr, ← Nat.toList_repr]
    exact congrArg String.toList same
  rw [← @Nat.ofDigitChars_ten_toDigits m, digits, Nat.ofDigitChars_ten_toDigits]

theorem no_dash (n : Nat) : '-' ∉ (toString n).toList := by
  intro member
  have inDigits : '-' ∈ Nat.toDigits 10 n := by
    rw [← Nat.toList_repr]
    exact member
  have digit : '-'.isDigit = true :=
    Nat.isDigit_of_mem_toDigits (by decide) (by decide) inDigits
  cases digit

/-- Numbers can be read back from what joins them. -/
theorem split_joined {ns : List Nat} (nonempty : ns ≠ []) :
    (("-".intercalate (ns.map toString)).split '-').toList.map (·.copy) = ns.map toString := by
  have split := @String.toList_split_intercalate '-' (ns.map toString) fun s member => by
    obtain ⟨n, -, rfl⟩ := List.mem_map.mp member
    exact no_dash n
  rwa [if_neg (mt List.map_eq_nil_iff.mp nonempty)] at split

theorem dataKey_inj {record record' : PropRecord} (same : record.dataKey = record'.dataKey) :
    record = record' := by
  have nonempty (record : PropRecord) : record.keyFields ≠ [] := List.cons_ne_nil _ _
  have fields : record.keyFields = record'.keyFields := by
    have read := split_joined (nonempty record)
    rw [← PropRecord.dataKey, same, PropRecord.dataKey, split_joined (nonempty record')] at read
    exact (List.map_injective_iff.mpr (fun _ _ => toString_inj) read).symm
  obtain ⟨flags, gc, ccc, gcb, incb, extpict, mappingIdx, decompIdx, combinerIdx⟩ := record
  obtain ⟨flags', gc', ccc', gcb', incb', extpict', mappingIdx', decompIdx', combinerIdx'⟩ :=
    record'
  simp only [PropRecord.keyFields, List.cons.injEq, and_true] at fields
  obtain ⟨rfl, sameGc, rfl, sameGcb, sameIncb, sameExtpict, rfl, rfl, rfl⟩ := fields
  obtain rfl : gc = gc' := by
    rw [← GeneralCategory.ofNat_ctorIdx gc, sameGc, GeneralCategory.ofNat_ctorIdx]
  obtain rfl : gcb = gcb' := by
    rw [← UcbUcGcb.ofNat_ctorIdx gcb, sameGcb, UcbUcGcb.ofNat_ctorIdx]
  obtain rfl : incb = incb' := by
    rw [← UcbUcIncb.ofNat_ctorIdx incb, sameIncb, UcbUcIncb.ofNat_ctorIdx]
  obtain rfl : extpict = extpict' := by
    revert sameExtpict
    cases extpict <;> cases extpict' <;> decide
  rfl

/-! ## Numbering -/

/-- What the table holds after some infos, which have these codepoints and records. -/
structure Numbered (listed : List (Nat × PropRecord)) (table : PropTable) : Prop where
  next : table.propIndex = table.dataset.length
  count : table.dataset.length ≤ listed.length + 1
  keys : ∀ entry ∈ table.dataset, entry.1 = entry.2.dataKey
  places : ∀ (index : Nat) (entry : String × CodepointInfo), table.dataset[index]? = some entry →
    entry.2.propindex = index
  unused : ∀ entry ∈ table.dataset, entry.2.codepoints = [] →
    entry.2.toPropRecord = defaultInfo.toPropRecord
  first : table.records[0]? = some defaultInfo.toPropRecord
  listed_eq : (table.done.map fun info => (info.cp, info.toPropRecord)) = listed
  found : ∀ info ∈ table.done, table.records[info.propindex]? = some info.toPropRecord

theorem numbered_start : Numbered [] ⟨[(defaultInfo.dataKey, defaultInfo)], 1, []⟩ where
  next := rfl
  count := Nat.le_refl 1
  keys := by simp
  places := by
    intro index entry loaded
    rw [List.getElem?_singleton] at loaded
    split at loaded
    next first =>
      cases loaded
      exact first.symm
    next => cases loaded
  unused := by simp
  first := rfl
  listed_eq := rfl
  found := by simp

namespace Numbered

variable {listed : List (Nat × PropRecord)} {table : PropTable} {info : CodepointInfo}

/-- Another codepoint changes nothing else. -/
theorem addToEntry_cases (key : String) (cp : Nat) (entry : String × CodepointInfo) :
    (addToEntry key cp entry).1 = entry.1 ∧
      (addToEntry key cp entry).2.toPropRecord = entry.2.toPropRecord ∧
      (addToEntry key cp entry).2.propindex = entry.2.propindex ∧
      ((addToEntry key cp entry).2.codepoints = [] → entry.2.codepoints = []) := by
  unfold addToEntry
  split
  · exact ⟨rfl, rfl, rfl, fun empty => absurd empty (List.cons_ne_nil _ _)⟩
  · exact ⟨rfl, rfl, rfl, id⟩

/-- A record that the dictionary has under a key is the one of this key, at its number. -/
theorem present_record (numbered : Numbered listed table) {propinfo : CodepointInfo}
    (present : table.dataset.lookup info.dataKey = some propinfo) :
    (info.dataKey, propinfo) ∈ table.dataset ∧ propinfo.toPropRecord = info.toPropRecord ∧
      table.records[propinfo.propindex]? = some info.toPropRecord := by
  obtain ⟨front, back, split, -⟩ := List.lookup_eq_some_iff.mp present
  have loaded : table.dataset[front.length]? = some (info.dataKey, propinfo) := by
    rw [split, List.getElem?_append_right (Nat.le_refl _), Nat.sub_self, List.getElem?_cons_zero]
  have member : (info.dataKey, propinfo) ∈ table.dataset := List.mem_of_getElem? loaded
  have same : info.dataKey = propinfo.dataKey := numbered.keys _ member
  have record : propinfo.toPropRecord = info.toPropRecord := (dataKey_inj same).symm
  refine ⟨member, record, ?_⟩
  rw [numbered.places _ _ loaded, PropTable.records, List.getElem?_map, loaded]
  exact congrArg some record

theorem known (numbered : Numbered listed table) {propinfo : CodepointInfo}
    (present : table.dataset.lookup info.dataKey = some propinfo) :
    Numbered (listed ++ [(info.cp, info.toPropRecord)])
      { dataset := table.dataset.map (addToEntry info.dataKey info.cp)
        propIndex := table.propIndex
        done := table.done ++ [{ info with propindex := propinfo.propindex }] } := by
  have same : (table.dataset.map (addToEntry info.dataKey info.cp)).map
      (fun entry => entry.2.toPropRecord) = table.records := by
    rw [List.map_map]
    exact List.map_congr_left fun entry _ => (addToEntry_cases _ _ entry).2.1
  refine ⟨?_, ?_, ?_, ?_, ?_, ?_, ?_, ?_⟩
  · exact numbered.next.trans (List.length_map _).symm
  · rw [List.length_map, List.length_append]
    exact Nat.le_trans numbered.count (Nat.le_succ _)
  · intro changed member
    obtain ⟨entry, inside, rfl⟩ := List.mem_map.mp member
    obtain ⟨key, record, -⟩ := addToEntry_cases info.dataKey info.cp entry
    rw [key, record]
    exact numbered.keys entry inside
  · intro index changed loaded
    rw [List.getElem?_map] at loaded
    obtain ⟨entry, before, rfl⟩ := Option.map_eq_some_iff.mp loaded
    obtain ⟨-, -, place, -⟩ := addToEntry_cases info.dataKey info.cp entry
    exact place.trans (numbered.places index entry before)
  · intro changed member empty
    obtain ⟨entry, inside, rfl⟩ := List.mem_map.mp member
    obtain ⟨-, record, -, codepoints⟩ := addToEntry_cases info.dataKey info.cp entry
    exact record.trans (numbered.unused entry inside (codepoints empty))
  · rw [PropTable.records, same]
    exact numbered.first
  · rw [List.map_append, numbered.listed_eq]
    rfl
  · intro done member
    rw [PropTable.records, same]
    rcases List.mem_append.mp member with before | now
    · exact numbered.found done before
    · obtain rfl := List.mem_singleton.mp now
      exact (numbered.present_record present).2.2

theorem new (numbered : Numbered listed table) :
    Numbered (listed ++ [(info.cp, info.toPropRecord)])
      { dataset := table.dataset ++
          [(info.dataKey, { info with propindex := table.propIndex }.addCodepoint info.cp)]
        propIndex := table.propIndex + 1
        done := table.done ++ [{ info with propindex := table.propIndex }] } := by
  have length : table.records.length = table.propIndex := by
    rw [PropTable.records, List.length_map, numbered.next]
  have records : (table.dataset ++ [(info.dataKey,
      { info with propindex := table.propIndex }.addCodepoint info.cp)]).map
      (fun entry : String × CodepointInfo => entry.2.toPropRecord) =
        table.records ++ [info.toPropRecord] := by
    rw [List.map_append]
    rfl
  refine ⟨?_, ?_, ?_, ?_, ?_, ?_, ?_, ?_⟩
  · rw [numbered.next, List.length_append, List.length_singleton]
  · rw [List.length_append, List.length_append]
    exact Nat.succ_le_succ numbered.count
  · intro entry member
    rcases List.mem_append.mp member with before | now
    · exact numbered.keys entry before
    · obtain rfl := List.mem_singleton.mp now
      rfl
  · intro index entry loaded
    rcases Nat.lt_or_ge index table.dataset.length with before | behind
    · rw [List.getElem?_append_left before] at loaded
      exact numbered.places index entry loaded
    · rw [List.getElem?_append_right behind, List.getElem?_singleton] at loaded
      split at loaded
      next last =>
        cases loaded
        have place : table.propIndex = index := by
          rw [numbered.next]
          omega
        exact place
      next => cases loaded
  · intro entry member empty
    rcases List.mem_append.mp member with before | now
    · exact numbered.unused entry before empty
    · obtain rfl := List.mem_singleton.mp now
      cases empty
  · obtain ⟨inside, -⟩ := List.getElem?_eq_some_iff.mp numbered.first
    rw [PropTable.records, records, List.getElem?_append_left inside]
    exact numbered.first
  · rw [List.map_append, numbered.listed_eq]
    rfl
  · intro done member
    rw [PropTable.records, records]
    rcases List.mem_append.mp member with before | now
    · have loaded := numbered.found done before
      obtain ⟨inside, -⟩ := List.getElem?_eq_some_iff.mp loaded
      rw [List.getElem?_append_left inside, loaded]
    · obtain rfl := List.mem_singleton.mp now
      have place : table.propIndex = table.records.length := length.symm
      rw [show ({ info with propindex := table.propIndex } : CodepointInfo).propindex =
        table.records.length from place, List.getElem?_concat_length]

/-- A round succeeds on a fresh info whose record is not the default one. -/
theorem addInfo (numbered : Numbered listed table) (fresh : info.codepoints = [])
    (noDefault : info.toPropRecord ≠ defaultInfo.toPropRecord) :
    ∃ table', UnicodeDataParser.addInfo table info = some table' ∧
      Numbered (listed ++ [(info.cp, info.toPropRecord)]) table' := by
  cases present : table.dataset.lookup info.dataKey with
  | some propinfo =>
      obtain ⟨member, same, -⟩ := numbered.present_record present
      have used : propinfo.codepoints ≠ [] := fun empty =>
        noDefault (same ▸ numbered.unused _ member empty)
      refine ⟨_, ?_, numbered.known present⟩
      rw [UnicodeDataParser.addInfo, present]
      exact if_neg used
  | none =>
      refine ⟨_, ?_, numbered.new⟩
      rw [UnicodeDataParser.addInfo, present]
      exact if_neg (not_not.mpr fresh)

end Numbered

/-! ## The whole table -/

theorem addFlag_cp (info : CodepointInfo) (applies : Bool) (flag : PropertyFlags) :
    (info.addFlag applies flag).cp = info.cp := by
  unfold CodepointInfo.addFlag
  split <;> rfl

theorem addFlag_codepoints (info : CodepointInfo) (applies : Bool) (flag : PropertyFlags) :
    (info.addFlag applies flag).codepoints = info.codepoints := by
  unfold CodepointInfo.addFlag
  split <;> rfl

namespace UnicodeDataParser

variable (parser : UnicodeDataParser)

def flagged (info : CodepointInfo) : CodepointInfo :=
  parser.updatePropertyFlags (parser.markNfkcNo info)

theorem flagged_cp (info : CodepointInfo) : (parser.flagged info).cp = info.cp := by
  rw [flagged, updatePropertyFlags, markNfkcNo, addFlag_cp, addFlag_cp, addFlag_cp]

theorem flagged_codepoints (info : CodepointInfo) :
    (parser.flagged info).codepoints = info.codepoints := by
  rw [flagged, updatePropertyFlags, markNfkcNo, addFlag_codepoints, addFlag_codepoints,
    addFlag_codepoints]

def NoDefault : Prop :=
  ∀ info ∈ parser.infos, (parser.flagged info).toPropRecord ≠ defaultInfo.toPropRecord

/-- The codepoints and records of the infos. -/
def listed : List (Nat × PropRecord) :=
  parser.infos.map fun info => (info.cp, (parser.flagged info).toPropRecord)

theorem createPropertyTable_numbered (noDefault : parser.NoDefault) :
    ∃ table, parser.createPropertyTable = some table ∧ Numbered parser.listed table := by
  have run : ∀ (rest : List CodepointInfo), (∀ info ∈ rest, info ∈ parser.infos) →
      ∀ (done : List (Nat × PropRecord)) (table : PropTable), Numbered done table →
        ∃ table', (rest.map parser.markNfkcNo).foldlM
            (fun table info => addInfo table (parser.updatePropertyFlags info)) table =
            some table' ∧
          Numbered (done ++ rest.map fun info => (info.cp, (parser.flagged info).toPropRecord))
            table' := by
    intro rest
    induction rest with
    | nil =>
        intro _ done table numbered
        exact ⟨table, rfl, by rwa [List.map_nil, List.append_nil]⟩
    | cons info rest inductionHypothesis =>
        intro inside done table numbered
        have member := inside info (List.mem_cons_self ..)
        have fresh : (parser.flagged info).codepoints = [] := by
          rw [flagged_codepoints]
          exact parser.fresh info member
        obtain ⟨next, round, numbered'⟩ := numbered.addInfo fresh (noDefault info member)
        obtain ⟨table', ran, last⟩ := inductionHypothesis
          (fun later member => inside later (List.mem_cons_of_mem info member)) _ _ numbered'
        refine ⟨table', ?_, ?_⟩
        · rw [List.map_cons, List.foldlM_cons]
          rw [flagged] at round
          rw [round]
          exact ran
        · rw [List.append_assoc, flagged_cp, List.singleton_append] at last
          exact last
  exact run parser.infos (fun _ member => member) [] _ numbered_start

theorem propIndexOf_record {table : PropTable} (numbered : Numbered parser.listed table)
    (cp : Nat) :
    table.records[propIndexOf table.done cp]? = some (parser.recordOf cp) := by
  have same : (table.done.find? fun info => info.cp = cp).map
        (fun info => (info.cp, info.toPropRecord)) =
      (parser.infos.find? fun info => info.cp = cp).map
        (fun info => (info.cp, (parser.flagged info).toPropRecord)) := by
    have searched := congrArg (List.find? fun pair => decide (pair.1 = cp)) numbered.listed_eq
    rwa [listed, List.find?_map, List.find?_map] at searched
  rw [propIndexOf, recordOf]
  cases isDone : table.done.find? fun info => info.cp = cp with
  | none =>
      rw [isDone] at same
      rw [Option.map_eq_none_iff.mp same.symm]
      exact numbered.first
  | some info =>
      rw [isDone] at same
      obtain ⟨source, isListed, equal⟩ := Option.map_eq_some_iff.mp same.symm
      rw [isListed]
      have record : (parser.flagged source).toPropRecord = info.toPropRecord :=
        congrArg Prod.snd equal
      exact (numbered.found info (List.mem_of_find?_eq_some isDone)).trans
        (congrArg some record.symm)

end UnicodeDataParser

end Ucb.Unicode
