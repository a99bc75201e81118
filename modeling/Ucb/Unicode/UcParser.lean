import Ucb.Unicode.NormCompose

/-!
Contract: the normalization properties that `ucparser` computes.

Owns:
- what it has read of the database, and `_is_valid_composition`, `_create_combiner_table`,
  `_is_comp_excluded` and `_is_nfkc_stable` on it;
- what tables are that are built from them, and that these agree with the database.

The caches of the two recursions only save time. The index errors of Python do not occur: every
character that a decomposition names has been read, and no decomposition is empty.
-/

namespace Ucb.Unicode

open Ucb.Lib

/-- `UcdParser` after reading: the keys of `data` in their order, and what the database says of the
characters. -/
structure UcdParser where
  ucd : Ucd
  data : List Scalar
  nodup : data.Nodup
  listed : ∀ {cp type vals}, ucd.mapping cp = some (type, vals) →
    cp ∈ data ∧ vals ≠ [] ∧ ∀ v ∈ vals, v ∈ data

/-! ## The combiner table -/

/-- `Combiners.add_entry`: insert in front of the first entry that is not smaller. -/
def addEntry (entries : List UcbUcCombinerEntry) (entry : UcbUcCombinerEntry) :
    List UcbUcCombinerEntry :=
  entries.takeWhile (fun e => e.combiner < entry.combiner) ++
    entry :: entries.dropWhile (fun e => e.combiner < entry.combiner)

/-- The combiners of each starter, and `comp_maybe` before it is closed. -/
structure CombinerTable where
  combiners : Scalar → List UcbUcCombinerEntry
  compMaybe : List Scalar

namespace UcdParser

variable (parser : UcdParser)

def isValidComposition (cp : Scalar) : Bool :=
  match parser.ucd.mapping cp with
  | some (.canon, [starter, _]) =>
      if parser.ucd.ccc starter ≠ 0 then false else !parser.ucd.excluded cp
  | _ => false

/-- The body of the loop of `_create_combiner_table`. -/
def addComposition (table : CombinerTable) (composed : Scalar) : CombinerTable :=
  match parser.ucd.mapping composed with
  | some (_, starter :: combiner :: _) =>
      if parser.isValidComposition composed then
        { combiners := Function.update table.combiners starter
            (addEntry (table.combiners starter) ⟨combiner.val, composed.val⟩)
          compMaybe := combiner :: table.compMaybe }
      else table
  | _ => table

def createCombinerTable : CombinerTable :=
  parser.data.foldl parser.addComposition ⟨fun _ => [], []⟩

def isCompExcluded (cp : Scalar) : Bool :=
  match parser.ucd.mapping cp with
  | some (.canon, first :: rest) =>
      parser.ucd.excluded cp || rest.isEmpty || decide (parser.ucd.ccc first ≠ 0)
  | _ => false

def isMaybe (cp : Scalar) : Bool :=
  if cp ∈ parser.createCombinerTable.compMaybe then true
  else
    match _mapped : parser.ucd.mapping cp with
    | some (.canon, first :: _) =>
        if parser.isCompExcluded cp then false else isMaybe first
    | _ => false
termination_by parser.ucd.rank cp
decreasing_by exact parser.ucd.rank_lt _mapped first (List.mem_cons_self ..)

def compMaybe : List Scalar :=
  parser.data.filter parser.isMaybe

def isNfkcStable (cp : Scalar) : Bool :=
  match _mapped : parser.ucd.mapping cp with
  | none => true
  | some (.compat, _) => false
  | some (.canon, vals) =>
      if parser.isCompExcluded cp then false else vals.attach.all fun v => isNfkcStable v.val
termination_by parser.ucd.rank cp
decreasing_by exact parser.ucd.rank_lt _mapped v.val v.property

end UcdParser

/-- The tables have the entries that `ucparser` has computed. A character that was not read has the
default entry, without flags. -/
structure Built (parser : UcdParser) (tables : UcbUcNormTables) : Prop where
  ccc : ∀ cp, (tables.propOf cp).ccc = parser.ucd.ccc cp
  decomp : ∀ cp, ucbUcGetDecomp tables.toUcbUcRawTables (tables.propOf cp) =
    .ok ((parser.ucd.mapping cp).map fun step => ⟨step.1, scalarValues step.2⟩)
  combiners : ∀ cp, ∃ found : Option (List UcbUcCombinerEntry),
    ucbUcGetCombiners tables.toUcbUcRawTables (tables.propOf cp) = .ok found ∧
      found.getD [] = parser.createCombinerTable.combiners cp
  compExcl : ∀ cp, (tables.propOf cp).compExcl = parser.isCompExcluded cp
  compMaybe : ∀ cp, (tables.propOf cp).compMaybe = decide (cp ∈ parser.compMaybe)
  nfkcNo : ∀ cp, (tables.propOf cp).nfkcNo = !parser.isNfkcStable cp

/-! ## The combiner table is the primary composites -/

theorem addEntry_sorted {entries : List UcbUcCombinerEntry} {entry : UcbUcCombinerEntry}
    (sorted : entries.Pairwise fun e e' => e.combiner < e'.combiner)
    (new : ∀ e ∈ entries, e.combiner ≠ entry.combiner) :
    (addEntry entries entry).Pairwise fun e e' => e.combiner < e'.combiner := by
  induction entries with
  | nil => exact List.pairwise_singleton _ _
  | cons first rest inductionHypothesis =>
      obtain ⟨below, sorted⟩ := List.pairwise_cons.mp sorted
      obtain ⟨differs, newRest⟩ := List.forall_mem_cons.mp new
      by_cases smaller : first.combiner < entry.combiner
      · have step : addEntry (first :: rest) entry = first :: addEntry rest entry := by
          simp [addEntry, smaller]
        rw [step]
        refine List.pairwise_cons.mpr ⟨fun e member => ?_, inductionHypothesis sorted newRest⟩
        rcases List.mem_append.mp member with front | back
        · exact below e (List.takeWhile_subset _ front)
        · rcases List.mem_cons.mp back with rfl | back
          · exact smaller
          · exact below e (List.dropWhile_subset _ back)
      · have step : addEntry (first :: rest) entry = entry :: first :: rest := by
          simp [addEntry, smaller]
        rw [step]
        refine List.pairwise_cons.mpr ⟨fun e member => ?_, List.pairwise_cons.mpr ⟨below, sorted⟩⟩
        rcases List.mem_cons.mp member with rfl | later
        · omega
        · have above := below e later
          omega

theorem mem_addEntry {entries : List UcbUcCombinerEntry} {entry e : UcbUcCombinerEntry} :
    e ∈ addEntry entries entry ↔ e = entry ∨ e ∈ entries := by
  have whole := List.takeWhile_append_dropWhile (p := fun e : UcbUcCombinerEntry =>
    decide (e.combiner < entry.combiner)) (l := entries)
  have split : e ∈ entries ↔
      e ∈ entries.takeWhile (fun e => e.combiner < entry.combiner) ∨
        e ∈ entries.dropWhile (fun e => e.combiner < entry.combiner) := by
    rw [← List.mem_append, whole]
  rw [addEntry, List.mem_append, List.mem_cons, split]
  tauto

namespace UcdParser

variable {parser : UcdParser}

theorem isValidComposition_iff {composed : Scalar} :
    parser.isValidComposition composed = true ↔ ∃ a b, parser.ucd.primary a b = some composed := by
  constructor
  · intro valid
    rw [isValidComposition] at valid
    split at valid
    next starter combiner mapped =>
      split at valid
      · cases valid
      next isStarter =>
        refine ⟨starter, combiner, parser.ucd.primary_eq_some.mpr ⟨mapped, ?_, ?_⟩⟩
        · exact (Bool.not_eq_true' _).mp valid
        · exact not_not.mp isStarter
    · cases valid
  · rintro ⟨a, b, primary⟩
    obtain ⟨mapped, included, isStarter⟩ := parser.ucd.primary_eq_some.mp primary
    simp [isValidComposition, mapped, isStarter, included]

structure Entered (parser : UcdParser) (done : List Scalar) (table : CombinerTable) : Prop where
  sorted : ∀ a, (table.combiners a).Pairwise fun e e' => e.combiner < e'.combiner
  entries : ∀ a e, e ∈ table.combiners a ↔
    ∃ b p, p ∈ done ∧ parser.ucd.primary a b = some p ∧ e = ⟨b.val, p.val⟩
  compMaybe : ∀ b, b ∈ table.compMaybe ↔ ∃ a p, p ∈ done ∧ parser.ucd.primary a b = some p

theorem primary_parts {a b a' b' p : Scalar} (primary : parser.ucd.primary a b = some p)
    (primary' : parser.ucd.primary a' b' = some p) : a' = a ∧ b' = b := by
  obtain ⟨mapped, -⟩ := parser.ucd.primary_eq_some.mp primary
  obtain ⟨mapped', -⟩ := parser.ucd.primary_eq_some.mp primary'
  rw [mapped] at mapped'
  simpa [eq_comm] using mapped'

theorem Entered.add {done : List Scalar} {table : CombinerTable} {a b composed : Scalar}
    (entered : parser.Entered done table) (new : composed ∉ done)
    (primary : parser.ucd.primary a b = some composed) :
    parser.Entered (done ++ [composed])
      ⟨Function.update table.combiners a (addEntry (table.combiners a) ⟨b.val, composed.val⟩),
        b :: table.compMaybe⟩ where
  sorted := by
    intro a'
    dsimp only
    by_cases same : a' = a
    · subst same
      rw [Function.update_self]
      refine addEntry_sorted (entered.sorted a') fun e member equal => ?_
      obtain ⟨b', p', before, primary', rfl⟩ := (entered.entries a' e).mp member
      obtain rfl : b' = b := Subtype.ext equal
      obtain rfl := Option.some.inj (primary'.symm.trans primary)
      exact new before
    · rw [Function.update_of_ne same]
      exact entered.sorted a'
  entries := by
    intro a' e
    dsimp only
    by_cases same : a' = a
    · subst same
      rw [Function.update_self, mem_addEntry, entered.entries]
      constructor
      · rintro (rfl | ⟨b', p', before, primary', rfl⟩)
        · exact ⟨b, composed, List.mem_append_right _ (List.mem_singleton_self _), primary, rfl⟩
        · exact ⟨b', p', List.mem_append_left _ before, primary', rfl⟩
      · rintro ⟨b', p', inside, primary', rfl⟩
        rcases List.mem_append.mp inside with before | now
        · exact .inr ⟨b', p', before, primary', rfl⟩
        · obtain rfl := List.mem_singleton.mp now
          obtain ⟨-, rfl⟩ := primary_parts primary primary'
          exact .inl rfl
    · rw [Function.update_of_ne same, entered.entries]
      constructor
      · rintro ⟨b', p', before, primary', rfl⟩
        exact ⟨b', p', List.mem_append_left _ before, primary', rfl⟩
      · rintro ⟨b', p', inside, primary', rfl⟩
        rcases List.mem_append.mp inside with before | now
        · exact ⟨b', p', before, primary', rfl⟩
        · obtain rfl := List.mem_singleton.mp now
          exact absurd (primary_parts primary primary').1 same
  compMaybe := by
    intro b'
    rw [List.mem_cons, entered.compMaybe]
    constructor
    · rintro (rfl | ⟨a', p', before, primary'⟩)
      · exact ⟨a, composed, List.mem_append_right _ (List.mem_singleton_self _), primary⟩
      · exact ⟨a', p', List.mem_append_left _ before, primary'⟩
    · rintro ⟨a', p', inside, primary'⟩
      rcases List.mem_append.mp inside with before | now
      · exact .inr ⟨a', p', before, primary'⟩
      · obtain rfl := List.mem_singleton.mp now
        exact .inl (primary_parts primary primary').2

/-- A round at any other character has nothing to enter. -/
theorem Entered.skip {done : List Scalar} {table : CombinerTable} {composed : Scalar}
    (entered : parser.Entered done table)
    (nothing : ∀ a b, parser.ucd.primary a b ≠ some composed) :
    parser.Entered (done ++ [composed]) table := by
  have extend {P : Scalar → Prop} (fails : ¬ P composed) :
      (∃ p, p ∈ done ++ [composed] ∧ P p) ↔ ∃ p, p ∈ done ∧ P p := by
    simp [or_and_right, exists_or, fails]
  refine ⟨entered.sorted, fun a e => ?_, fun b => ?_⟩
  · rw [entered.entries]
    exact exists_congr fun b => (extend fun both => nothing a b both.1).symm
  · rw [entered.compMaybe]
    exact exists_congr fun a => (extend (nothing a b)).symm

theorem addComposition_entered {done : List Scalar} {table : CombinerTable} {composed : Scalar}
    (entered : parser.Entered done table) (new : composed ∉ done) :
    parser.Entered (done ++ [composed]) (parser.addComposition table composed) := by
  by_cases valid : parser.isValidComposition composed = true
  · obtain ⟨a, b, primary⟩ := isValidComposition_iff.mp valid
    obtain ⟨mapped, -⟩ := parser.ucd.primary_eq_some.mp primary
    have round : parser.addComposition table composed =
        ⟨Function.update table.combiners a (addEntry (table.combiners a) ⟨b.val, composed.val⟩),
          b :: table.compMaybe⟩ := by
      simp [addComposition, mapped, valid]
    rw [round]
    exact entered.add new primary
  · have round : parser.addComposition table composed = table := by
      rw [addComposition]
      split
      · rw [if_neg valid]
      · rfl
    rw [round]
    exact entered.skip fun a b primary => valid (isValidComposition_iff.mpr ⟨a, b, primary⟩)

theorem createCombinerTable_entered : parser.Entered parser.data parser.createCombinerTable := by
  have run : ∀ (rest done : List Scalar) (table : CombinerTable), (done ++ rest).Nodup →
      parser.Entered done table →
        parser.Entered (done ++ rest) (rest.foldl parser.addComposition table) := by
    intro rest
    induction rest with
    | nil =>
        intro done table _ entered
        rwa [List.append_nil]
    | cons composed rest inductionHypothesis =>
        intro done table distinct entered
        have new : composed ∉ done := fun before =>
          (List.nodup_append.mp distinct).2.2 composed before composed
            (List.mem_cons_self ..) rfl
        have next := inductionHypothesis (done ++ [composed]) _
          (by simpa using distinct) (addComposition_entered entered new)
        simpa using next
  have start : parser.Entered [] ⟨fun _ => [], []⟩ := by
    refine ⟨fun _ => .nil, fun a e => ?_, fun b => ?_⟩
    · simp
    · simp
  have whole := run parser.data [] _ (by simpa using parser.nodup) start
  rw [List.nil_append] at whole
  exact whole

theorem mem_data_of_primary {a b p : Scalar} (primary : parser.ucd.primary a b = some p) :
    p ∈ parser.data ∧ b ∈ parser.data := by
  obtain ⟨mapped, -⟩ := parser.ucd.primary_eq_some.mp primary
  obtain ⟨here, -, values⟩ := parser.listed mapped
  exact ⟨here, values b (by simp)⟩

end UcdParser

theorem Built.agrees {parser : UcdParser} {tables : UcbUcNormTables}
    (built : Built parser tables) : Agrees parser.ucd tables where
  ccc := built.ccc
  decomp := built.decomp
  combiners := by
    intro a
    have entered : parser.Entered parser.data parser.createCombinerTable :=
      UcdParser.createCombinerTable_entered
    obtain ⟨found, loaded, content⟩ := built.combiners a
    refine ⟨found, loaded, ?_, fun entry => ?_⟩
    · rw [content]
      exact entered.sorted a
    · rw [content, entered.entries]
      constructor
      · rintro ⟨b, p, -, primary, rfl⟩
        exact ⟨b, p, primary, rfl⟩
      · rintro ⟨b, p, primary, rfl⟩
        exact ⟨b, p, (UcdParser.mem_data_of_primary primary).1, primary, rfl⟩

end Ucb.Unicode
