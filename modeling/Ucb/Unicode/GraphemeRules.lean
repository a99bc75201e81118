import Ucb.Lib.RuleList
import Ucb.Lib.TextPattern
import Ucb.Unicode.Grapheme

/-!
Contract: the boundary rules of UAX #29, and that the scanner decides by them.

Owns:
- the rules GB3 to GB999 read over the whole text before a position;
- what each field of the scanner state says about that text;
- `shouldBreak_iff`: in the state after a text, the scanner breaks exactly when
  the first applicable rule does.
-/

namespace Ucb.Unicode

open Ucb.Lib

/-! ## The rules -/

/-- A position inside a text, and what the rules may look at there. -/
structure TextPosition where
  before : List UcbUcProp
  next : UcbUcProp

/-- The Grapheme_Cluster_Break of the codepoint before the position. -/
def TextPosition.After (position : TextPosition) (classes : List UcbUcGcb) : Prop :=
  EndsWith (fun prop => prop.gcb ∈ classes) position.before

/-- The Grapheme_Cluster_Break of the codepoint after the position. -/
def TextPosition.Before (position : TextPosition) (classes : List UcbUcGcb) : Prop :=
  position.next.gcb ∈ classes

def UcbUcProp.IsRegionalIndicator (prop : UcbUcProp) : Prop :=
  prop.gcb = .regionalIndicator

/-- `[\p{InCB=Extend} \p{InCB=Linker}]`. -/
def UcbUcProp.IsConjunctMark (prop : UcbUcProp) : Prop :=
  prop.incb = .extend ∨ prop.incb = .linker

/-- `\p{InCB=Consonant} [\p{InCB=Extend} \p{InCB=Linker}]*`. -/
def EndsInConjunct (text : List UcbUcProp) : Prop :=
  EndsIn (fun _ prop => prop.incb = .consonant) UcbUcProp.IsConjunctMark text

/-- The left side of GB9c: a conjunct with a linker among its marks. -/
def EndsInLinkedConjunct (text : List UcbUcProp) : Prop :=
  EndsIn (fun front prop => prop.incb = .linker ∧ EndsInConjunct front)
    UcbUcProp.IsConjunctMark text

/-- `\p{Extended_Pictographic} Extend*`. -/
def EndsInPictograph (text : List UcbUcProp) : Prop :=
  EndsIn (fun _ prop => prop.extpict = true) (fun prop => prop.gcb = .extend) text

def EndsInJoinedPictograph (text : List UcbUcProp) : Prop :=
  ∃ front joiner, text = front ++ [joiner] ∧ joiner.gcb = .zwj ∧ EndsInPictograph front

/-- `(RI RI)* RI`, the left side of GB12 and the second part of that of GB13. -/
def IsOddRun (text : List UcbUcProp) : Prop :=
  (∀ prop ∈ text, prop.IsRegionalIndicator) ∧ Odd text.length

def gb3 : Rule TextPosition :=
  ⟨fun position => position.After [.cr] ∧ position.Before [.lf], false⟩

def gb4 : Rule TextPosition :=
  ⟨fun position => position.After [.control, .cr, .lf], true⟩

def gb5 : Rule TextPosition :=
  ⟨fun position => position.Before [.control, .cr, .lf], true⟩

def gb6 : Rule TextPosition :=
  ⟨fun position => position.After [.l] ∧ position.Before [.l, .v, .lv, .lvt], false⟩

def gb7 : Rule TextPosition :=
  ⟨fun position => position.After [.lv, .v] ∧ position.Before [.v, .t], false⟩

def gb8 : Rule TextPosition :=
  ⟨fun position => position.After [.lvt, .t] ∧ position.Before [.t], false⟩

def gb9 : Rule TextPosition :=
  ⟨fun position => position.Before [.extend, .zwj], false⟩

def gb9a : Rule TextPosition :=
  ⟨fun position => position.Before [.spacingMark], false⟩

def gb9b : Rule TextPosition :=
  ⟨fun position => position.After [.prepend], false⟩

def gb9c : Rule TextPosition :=
  ⟨fun position => EndsInLinkedConjunct position.before ∧ position.next.incb = .consonant, false⟩

def gb11 : Rule TextPosition :=
  ⟨fun position => EndsInJoinedPictograph position.before ∧ position.next.extpict = true, false⟩

/-- `sot (RI RI)* RI × RI`. -/
def gb12 : Rule TextPosition :=
  ⟨fun position => IsOddRun position.before ∧ position.next.IsRegionalIndicator, false⟩

/-- `[^RI] (RI RI)* RI × RI`. -/
def gb13 : Rule TextPosition :=
  ⟨fun position =>
    (∃ front other run, position.before = front ++ other :: run ∧
      ¬ other.IsRegionalIndicator ∧ IsOddRun run) ∧ position.next.IsRegionalIndicator, false⟩

def gb999 : Rule TextPosition :=
  ⟨fun _ => True, true⟩

def graphemeRules : List (Rule TextPosition) :=
  [gb3, gb4, gb5, gb6, gb7, gb8, gb9, gb9a, gb9b, gb9c, gb11, gb12, gb13, gb999]

/-- The first applicable rule says to break before `next`. -/
def RulesBreak (before : List UcbUcProp) (next : UcbUcProp) : Prop :=
  Decides graphemeRules ⟨before, next⟩ true

/-! ## Property values of the UCD -/

/-- What the rules need of the properties of one codepoint. -/
structure UcbUcProp.Consistent (prop : UcbUcProp) : Prop where
  pictograph : prop.extpict = true → prop.gcb ≠ .extend ∧ prop.gcb ≠ .zwj
  conjunct : prop.IsConjunctMark → prop.gcb = .extend ∨ prop.gcb = .zwj

/-- Every scalar value has consistent properties. -/
def UcbUcTables.Consistent (tables : UcbUcTables) : Prop :=
  ∀ cp, (tables.propOf cp).Consistent

/-! ## The scanner state -/

def stateAfter (text : List UcbUcProp) : UcbUcGraphemeState :=
  text.foldl updateBy .zero

@[simp] theorem stateAfter_nil : stateAfter [] = .zero := rfl

@[simp] theorem stateAfter_concat (text : List UcbUcProp) (prop : UcbUcProp) :
    stateAfter (text ++ [prop]) = updateBy (stateAfter text) prop := by
  simp [stateAfter]

/-- What the fields of the state say about the text scanned so far. -/
structure Tracks (st : UcbUcGraphemeState) (text : List UcbUcProp) : Prop where
  pictograph : st.gb11 = 1 ∨ st.gb11 = 2 ↔ EndsInPictograph text
  joined : st.gb11 = 3 ↔ EndsInJoinedPictograph text
  riOdd : st.riOdd = true ↔ EndsInOddRun UcbUcProp.IsRegionalIndicator text
  incbSeq : st.incbSeq = true ↔ EndsInConjunct text
  incbLinker : st.incbLinker = true ↔ EndsInLinkedConjunct text

theorem tracks_zero : Tracks .zero [] where
  pictograph := by
    simp [UcbUcGraphemeState.zero, EndsInPictograph, not_endsIn_nil]
  joined := by
    simp [UcbUcGraphemeState.zero, EndsInJoinedPictograph]
  riOdd := by
    simp [UcbUcGraphemeState.zero, not_endsInOddRun_nil]
  incbSeq := by
    simp [UcbUcGraphemeState.zero, EndsInConjunct, not_endsIn_nil]
  incbLinker := by
    simp [UcbUcGraphemeState.zero, EndsInLinkedConjunct, not_endsIn_nil]

theorem endsInPictograph_concat (text : List UcbUcProp) (prop : UcbUcProp) :
    EndsInPictograph (text ++ [prop]) ↔
      prop.extpict = true ∨ (prop.gcb = .extend ∧ EndsInPictograph text) :=
  endsIn_concat _ _ text prop

theorem endsInJoinedPictograph_concat (text : List UcbUcProp) (prop : UcbUcProp) :
    EndsInJoinedPictograph (text ++ [prop]) ↔ prop.gcb = .zwj ∧ EndsInPictograph text := by
  constructor
  · rintro ⟨front, joiner, split, isJoiner, starts⟩
    obtain ⟨rfl, same⟩ := List.append_inj' split rfl
    obtain rfl := List.head_eq_of_cons_eq same
    exact ⟨isJoiner, starts⟩
  · rintro ⟨isJoiner, starts⟩
    exact ⟨text, prop, rfl, isJoiner, starts⟩

theorem endsInConjunct_concat (text : List UcbUcProp) (prop : UcbUcProp) :
    EndsInConjunct (text ++ [prop]) ↔
      prop.incb = .consonant ∨ (prop.IsConjunctMark ∧ EndsInConjunct text) :=
  endsIn_concat _ _ text prop

theorem endsInLinkedConjunct_concat (text : List UcbUcProp) (prop : UcbUcProp) :
    EndsInLinkedConjunct (text ++ [prop]) ↔
      (prop.incb = .linker ∧ EndsInConjunct text) ∨
        (prop.IsConjunctMark ∧ EndsInLinkedConjunct text) :=
  endsIn_concat _ _ text prop

theorem endsInConjunct_of_linked {text : List UcbUcProp} (linked : EndsInLinkedConjunct text) :
    EndsInConjunct text := by
  induction text using List.reverseRecOn with
  | nil => exact absurd linked (not_endsIn_nil _ _)
  | append_singleton text prop inductionHypothesis =>
      rw [endsInConjunct_concat]
      rcases (endsInLinkedConjunct_concat text prop).mp linked with
        ⟨isLinker, starts⟩ | ⟨isMark, linkedBefore⟩
      · exact .inr ⟨.inr isLinker, starts⟩
      · exact .inr ⟨isMark, inductionHypothesis linkedBefore⟩

theorem Tracks.update {st : UcbUcGraphemeState} {text : List UcbUcProp} {prop : UcbUcProp}
    (tracks : Tracks st text) (consistent : prop.extpict = true → prop.gcb ≠ .zwj) :
    Tracks (updateBy st prop) (text ++ [prop]) where
  pictograph := by
    rw [endsInPictograph_concat, ← tracks.pictograph]
    simp only [updateBy, ucbUcGraphemeUpdate]
    split_ifs <;> simp_all
  joined := by
    rw [endsInJoinedPictograph_concat, ← tracks.pictograph]
    simp only [updateBy, ucbUcGraphemeUpdate]
    split_ifs <;> simp_all
  riOdd := by
    rw [endsInOddRun_concat, ← tracks.riOdd, UcbUcProp.IsRegionalIndicator]
    simp only [updateBy, ucbUcGraphemeUpdate]
    split_ifs <;> simp_all
  incbSeq := by
    rw [endsInConjunct_concat, ← tracks.incbSeq, UcbUcProp.IsConjunctMark]
    simp only [updateBy, ucbUcGraphemeUpdate]
    grind
  incbLinker := by
    have within : st.incbLinker = true → st.incbSeq = true := fun seen =>
      tracks.incbSeq.mpr (endsInConjunct_of_linked (tracks.incbLinker.mp seen))
    rw [endsInLinkedConjunct_concat, ← tracks.incbSeq, ← tracks.incbLinker,
      UcbUcProp.IsConjunctMark]
    simp only [updateBy, ucbUcGraphemeUpdate]
    grind

theorem tracks_stateAfter (text : List UcbUcProp)
    (consistent : ∀ prop ∈ text, prop.extpict = true → prop.gcb ≠ .zwj) :
    Tracks (stateAfter text) text := by
  induction text using List.reverseRecOn with
  | nil => exact tracks_zero
  | append_singleton text prop inductionHypothesis =>
      rw [stateAfter_concat]
      have before := inductionHypothesis fun other member => consistent other (by simp [member])
      exact before.update (consistent prop (by simp))

/-! ## The break decision -/

theorem after_concat (text : List UcbUcProp) (last next : UcbUcProp) (classes : List UcbUcGcb) :
    TextPosition.After ⟨text ++ [last], next⟩ classes ↔ last.gcb ∈ classes :=
  endsWith_concat _ text last

/-- GB12 and GB13 together ask for an odd final run of regional indicators. -/
theorem gb12_or_gb13_iff (position : TextPosition) :
    gb12.applies position ∨ gb13.applies position ↔
      EndsInOddRun UcbUcProp.IsRegionalIndicator position.before ∧
        position.next.IsRegionalIndicator := by
  constructor
  · rintro (⟨⟨all, odd⟩, isNext⟩ | ⟨⟨front, other, run, split, notRi, all, odd⟩, isNext⟩)
    · exact ⟨⟨[], position.before, rfl, all, odd, not_endsWith_nil _⟩, isNext⟩
    · refine ⟨⟨front ++ [other], run, by simp [split], all, odd, ?_⟩, isNext⟩
      rwa [endsWith_concat]
  · rintro ⟨⟨front, run, split, all, odd, maximal⟩, isNext⟩
    rcases List.eq_nil_or_concat' front with rfl | ⟨front, other, rfl⟩
    · exact .inl ⟨by rw [split]; exact ⟨all, odd⟩, isNext⟩
    · rw [endsWith_concat] at maximal
      exact .inr ⟨⟨front, other, run, by simp [split], maximal, all, odd⟩, isNext⟩

/-- In a state that describes the text up to and including `last`, the scanner
breaks before `next` exactly when the first applicable rule does. -/
theorem shouldBreak_iff {st : UcbUcGraphemeState} {text : List UcbUcProp} {last : UcbUcProp}
    (tracks : Tracks st (text ++ [last])) (next : UcbUcProp) :
    breaksBetween st last next = true ↔ RulesBreak (text ++ [last]) next := by
  have oddRun := gb12_or_gb13_iff ⟨text ++ [last], next⟩
  unfold breaksBetween ucbUcGraphemeShouldBreak RulesBreak graphemeRules
  refine decides_cons_iff_ite gb3 ?_ ?_
  · simp [gb3, after_concat, TextPosition.Before]
  refine decides_cons_iff_ite gb4 ?_ ?_
  · simp [gb4, after_concat]
  refine decides_cons_iff_ite gb5 ?_ ?_
  · simp [gb5, TextPosition.Before]
  refine decides_cons_iff_ite gb6 ?_ ?_
  · simp [gb6, after_concat, TextPosition.Before]
  refine decides_cons_iff_ite gb7 ?_ ?_
  · simp [gb7, after_concat, TextPosition.Before]
  refine decides_cons_iff_ite gb8 ?_ ?_
  · simp [gb8, after_concat, TextPosition.Before]
  refine decides_cons_iff_ite gb9 ?_ ?_
  · simp [gb9, TextPosition.Before]
  refine decides_cons_iff_ite gb9a ?_ ?_
  · simp [gb9a, TextPosition.Before]
  refine decides_cons_iff_ite gb9b ?_ ?_
  · simp [gb9b, after_concat]
  refine decides_cons_iff_ite gb9c ?_ ?_
  · have linked : st.incbLinker = true → st.incbSeq = true := fun seen =>
      tracks.incbSeq.mpr (endsInConjunct_of_linked (tracks.incbLinker.mp seen))
    simp only [gb9c, ← tracks.incbLinker]
    tauto
  refine decides_cons_iff_ite gb11 ?_ ?_
  · simp only [gb11, ← tracks.joined]
  rw [decides_merge gb12 gb13 rfl]
  refine decides_cons_iff_ite
    ⟨fun position => gb12.applies position ∨ gb13.applies position, false⟩ ?_ ?_
  · have lastRi := tracks.riOdd.trans (endsInOddRun_concat _ text last)
    simp only [oddRun, ← tracks.riOdd]
    simp only [UcbUcProp.IsRegionalIndicator] at lastRi ⊢
    tauto
  · simp [Decides, gb999]

end Ucb.Unicode
