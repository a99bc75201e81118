import Mathlib.Data.List.Basic
import Mathlib.Data.List.DropRight
import Mathlib.Data.List.Flatten
import Mathlib.Data.List.Infix
import Mathlib.Data.List.TakeWhile

/-!
Contract: paths as lists of segments between separators.

Owns:
- `segments`, what a text holds between its separators, and its laws over
  concatenation and over `List.intercalate`;
- when one joined list is a prefix of another;
- `collapse`, which with trailing separators dropped joins the segments;
- `ancestors`, the proper prefixes of a list of segments;
- `resolve`, the lexical normal form of a list of segments, and `follow`, where a
  list of segments leads.

Does not own: what the separator or the two special segments are, and any way
of storing a path.
-/

namespace Ucb.Lib

universe u

variable {α : Type u}

/-! ## Splitting -/

/-- A segment that is complete, if it is one. -/
def completed : List α → List (List α)
  | [] => []
  | segment => [segment]

/-- The segments of a text that continues the segment `current`. -/
def segmentsFrom (isSep : α → Bool) (current : List α) : List α → List (List α)
  | [] => completed current
  | item :: rest =>
      if isSep item then completed current ++ segmentsFrom isSep [] rest
      else segmentsFrom isSep (current ++ [item]) rest

/-- The longest stretches of a text without separators. -/
def segments (isSep : α → Bool) (text : List α) : List (List α) :=
  segmentsFrom isSep [] text

/-- A text without separators. -/
def Clean (isSep : α → Bool) (text : List α) : Prop :=
  ∀ item ∈ text, isSep item = false

/-- What a segment is: not empty and without separators. -/
def IsSegment (isSep : α → Bool) (segment : List α) : Prop :=
  segment ≠ [] ∧ Clean isSep segment

theorem completed_of_ne_nil {segment : List α} (nonempty : segment ≠ []) :
    completed segment = [segment] := by
  cases segment with
  | nil => exact absurd rfl nonempty
  | cons item rest => rfl

theorem clean_append {isSep : α → Bool} {left right : List α} :
    Clean isSep (left ++ right) ↔ Clean isSep left ∧ Clean isSep right := by
  simp [Clean, or_imp, forall_and]

theorem segmentsFrom_clean (isSep : α → Bool) (word rest : List α) (clean : Clean isSep word) :
    ∀ current, segmentsFrom isSep current (word ++ rest) =
      segmentsFrom isSep (current ++ word) rest := by
  induction word with
  | nil => simp
  | cons item word inductionHypothesis =>
      intro current
      have notSep : isSep item = false := clean item List.mem_cons_self
      have cleanRest : Clean isSep word :=
        fun other member => clean other (List.mem_cons_of_mem _ member)
      rw [List.cons_append, segmentsFrom, notSep, if_neg Bool.false_ne_true,
        inductionHypothesis cleanRest]
      simp

@[simp] theorem segments_nil (isSep : α → Bool) : segments isSep [] = [] := rfl

theorem segments_sep {isSep : α → Bool} {item : α} (sep : isSep item = true) (rest : List α) :
    segments isSep (item :: rest) = segments isSep rest := by
  simp [segments, segmentsFrom, sep, completed]

theorem segments_word {isSep : α → Bool} {word : List α} (segment : IsSegment isSep word) :
    segments isSep word = [word] := by
  have whole := segmentsFrom_clean isSep word [] segment.2 []
  rw [List.append_nil, List.nil_append] at whole
  rw [segments, whole, segmentsFrom, completed_of_ne_nil segment.1]

theorem segments_word_sep {isSep : α → Bool} {word : List α} (segment : IsSegment isSep word)
    {item : α} (sep : isSep item = true) (rest : List α) :
    segments isSep (word ++ item :: rest) = word :: segments isSep rest := by
  rw [segments, segmentsFrom_clean isSep word _ segment.2, List.nil_append, segmentsFrom,
    if_pos sep,
    completed_of_ne_nil segment.1]
  rfl

/-- A separator splits a text into texts whose segments do not touch. -/
theorem segmentsFrom_append_sep {isSep : α → Bool} {item : α} (sep : isSep item = true)
    (left right : List α) : ∀ current, segmentsFrom isSep current (left ++ item :: right) =
      segmentsFrom isSep current left ++ segments isSep right := by
  induction left with
  | nil =>
      intro current
      simp [segmentsFrom, sep, segments]
  | cons head left inductionHypothesis =>
      intro current
      rw [List.cons_append, segmentsFrom, segmentsFrom]
      split
      · rw [inductionHypothesis, List.append_assoc]
      · exact inductionHypothesis _

theorem segments_append_sep {isSep : α → Bool} {item : α} (sep : isSep item = true)
    (left right : List α) :
    segments isSep (left ++ item :: right) = segments isSep left ++ segments isSep right :=
  segmentsFrom_append_sep sep left right []

/-- Leading separators do not matter. -/
theorem segments_seps_append {isSep : α → Bool} {seps : List α}
    (all : ∀ item ∈ seps, isSep item = true) (rest : List α) :
    segments isSep (seps ++ rest) = segments isSep rest := by
  induction seps with
  | nil => rfl
  | cons item seps inductionHypothesis =>
      rw [List.cons_append, segments_sep (all item List.mem_cons_self),
        inductionHypothesis fun other member => all other (List.mem_cons_of_mem _ member)]

theorem segmentsFrom_isSegment {isSep : α → Bool} (text : List α) :
    ∀ current, Clean isSep current →
      ∀ segment ∈ segmentsFrom isSep current text, IsSegment isSep segment := by
  have complete {current : List α} (clean : Clean isSep current) :
      ∀ segment ∈ completed current, IsSegment isSep segment := by
    cases current with
    | nil => simp [completed]
    | cons item rest =>
        intro segment member
        obtain rfl : segment = item :: rest := List.mem_singleton.mp member
        exact ⟨List.cons_ne_nil _ _, clean⟩
  induction text with
  | nil => exact fun current clean => complete clean
  | cons item text inductionHypothesis =>
      intro current clean segment member
      rw [segmentsFrom] at member
      split at member
      · rcases List.mem_append.mp member with first | later
        · exact complete clean segment first
        · exact inductionHypothesis [] (by simp [Clean]) segment later
      · rename_i notSep
        refine inductionHypothesis (current ++ [item]) ?_ segment member
        exact clean_append.mpr ⟨clean, by simpa [Clean] using notSep⟩

theorem segments_isSegment {isSep : α → Bool} {text segment : List α}
    (member : segment ∈ segments isSep text) : IsSegment isSep segment :=
  segmentsFrom_isSegment text [] (by simp [Clean]) segment member

theorem mem_segmentsFrom {isSep : α → Bool} {text segment : List α} {item : α} :
    ∀ {current}, segment ∈ segmentsFrom isSep current text → item ∈ segment →
      item ∈ current ∨ item ∈ text := by
  have finished {current : List α} (member : segment ∈ completed current)
    (inside : item ∈ segment) :
      item ∈ current := by
    cases current with
    | nil => cases member
    | cons first rest => exact List.mem_singleton.mp member ▸ inside
  induction text with
  | nil => exact fun member inside => .inl (finished member inside)
  | cons c text inductionHypothesis =>
      intro current member inside
      rw [segmentsFrom] at member
      split at member
      · rcases List.mem_append.mp member with early | late
        · exact .inl (finished early inside)
        · rcases inductionHypothesis late inside with none | later
          · cases none
          · exact .inr (List.mem_cons_of_mem _ later)
      · rcases inductionHypothesis member inside with early | later
        · rcases List.mem_append.mp early with before | here
          · exact .inl before
          · exact .inr (List.mem_singleton.mp here ▸ List.mem_cons_self)
        · exact .inr (List.mem_cons_of_mem _ later)

/-- A segment holds text of the text it is a segment of. -/
theorem segments_subset {isSep : α → Bool} {text segment : List α}
    (member : segment ∈ segments isSep text) : segment ⊆ text :=
  fun _ inside => (mem_segmentsFrom member inside).resolve_left List.not_mem_nil

theorem segmentsFrom_ne_nil (isSep : α → Bool) (text : List α) :
    ∀ current, current ≠ [] → segmentsFrom isSep current text ≠ [] := by
  induction text with
  | nil =>
      intro current nonempty
      rw [segmentsFrom, completed_of_ne_nil nonempty]
      exact List.cons_ne_nil _ _
  | cons item text inductionHypothesis =>
      intro current nonempty
      rw [segmentsFrom]
      split
      · rw [completed_of_ne_nil nonempty]
        exact List.cons_ne_nil _ _
      · apply inductionHypothesis
        simp

theorem segments_eq_nil_iff {isSep : α → Bool} {text : List α} :
    segments isSep text = [] ↔ ∀ item ∈ text, isSep item = true := by
  induction text with
  | nil => simp
  | cons item text inductionHypothesis =>
      by_cases sep : isSep item = true
      · rw [segments_sep sep, inductionHypothesis]
        simp [sep]
      · have found : segments isSep (item :: text) ≠ [] := by
          rw [segments, segmentsFrom, if_neg sep]
          apply segmentsFrom_ne_nil
          simp
        simp [found, sep]

/-- Splitting at more separators splits the segments further. -/
theorem segments_refine {isSep finer : α → Bool}
    (accepts : ∀ item, isSep item = true → finer item = true) (text : List α) :
    segments finer text = (segments isSep text).flatMap (segments finer) := by
  have continued : ∀ current, segments finer (current ++ text) =
      (segmentsFrom isSep current text).flatMap (segments finer) := by
    induction text with
    | nil =>
        intro current
        cases current with
        | nil => rfl
        | cons item rest => simp [segmentsFrom, completed]
    | cons item text inductionHypothesis =>
        intro current
        rw [segmentsFrom]
        split
        · rename_i sep
          rw [segments_append_sep (accepts item sep), List.flatMap_append,
            ← inductionHypothesis []]
          cases current with
          | nil => rfl
          | cons head rest => simp [completed]
        · rw [← inductionHypothesis, List.append_assoc]
          rfl
  exact continued []

/-! ## Scanning -/

/-- Skipping separators loses no segment. -/
theorem segments_dropWhile (isSep : α → Bool) (text : List α) :
    segments isSep (text.dropWhile isSep) = segments isSep text := by
  conv_rhs => rw [← List.takeWhile_append_dropWhile (p := isSep) (l := text)]
  rw [segments_seps_append]
  exact fun item member => List.mem_takeWhile_imp member

/-- Behind the separators a scan reads one segment, up to the next separator. -/
theorem segments_scan {isSep : α → Bool} {text rest : List α} {item : α}
    (skipped : text.dropWhile isSep = item :: rest) :
    segments isSep text = (item :: rest.takeWhile (!isSep ·)) ::
      segments isSep (rest.dropWhile (!isSep ·)) := by
  have inside : isSep item = false := by
    have notSep := List.head_dropWhile_not isSep (by simp [skipped] : text.dropWhile isSep ≠ [])
    simpa [skipped] using notSep
  have word : IsSegment isSep (item :: rest.takeWhile (!isSep ·)) := by
    refine ⟨List.cons_ne_nil _ _, fun other member => ?_⟩
    rcases List.mem_cons.mp member with rfl | later
    · exact inside
    · simpa using List.mem_takeWhile_imp later
  have split : item :: rest =
      item :: rest.takeWhile (!isSep ·) ++ rest.dropWhile (!isSep ·) := by
    rw [List.cons_append, List.takeWhile_append_dropWhile]
  rw [← segments_dropWhile, skipped, split]
  cases behind : rest.dropWhile (!isSep ·) with
  | nil => rw [List.append_nil, segments_word word, segments_nil]
  | cons next after =>
      have isSep_next : isSep next = true := by
        have found := List.head_dropWhile_not (!isSep ·)
          (by simp [behind] : rest.dropWhile (!isSep ·) ≠ [])
        simpa [behind] using found
      rw [segments_word_sep word isSep_next, segments_sep isSep_next]

/-! ## Joining -/

theorem intercalate_cons (sep : α) (first : List α) (rest : List (List α)) :
    [sep].intercalate (first :: rest) = first ++ rest.flatMap (sep :: ·) := by
  induction rest generalizing first with
  | nil => simp
  | cons next rest inductionHypothesis =>
      rw [List.intercalate_cons_cons, inductionHypothesis]
      simp

theorem intercalate_append (sep : α) {front : List (List α)} (nonempty : front ≠ [])
    (back : List (List α)) :
    [sep].intercalate (front ++ back) = [sep].intercalate front ++ back.flatMap (sep :: ·) := by
  cases front with
  | nil => exact absurd rfl nonempty
  | cons first rest => simp [intercalate_cons]

/-- Lengthening the last segment. -/
theorem intercalate_lengthen (sep : α) (front : List (List α)) (last more : List α) :
    [sep].intercalate (front ++ [last ++ more]) = [sep].intercalate (front ++ [last]) ++ more := by
  cases front with
  | nil => simp
  | cons first rest => simp [intercalate_cons]

theorem segments_flatMap {isSep : α → Bool} {sep : α} (isSep_sep : isSep sep = true)
    {segs : List (List α)} (proper : ∀ segment ∈ segs, IsSegment isSep segment) :
    segments isSep (segs.flatMap (sep :: ·)) = segs := by
  induction segs with
  | nil => rfl
  | cons first rest inductionHypothesis =>
      have properRest : ∀ segment ∈ rest, IsSegment isSep segment :=
        fun segment member => proper segment (List.mem_cons_of_mem _ member)
      rw [List.flatMap_cons, List.cons_append, segments_sep isSep_sep]
      cases rest with
      | nil =>
          rw [List.flatMap_nil, List.append_nil]
          exact segments_word (proper first List.mem_cons_self)
      | cons next rest =>
          have tail := inductionHypothesis properRest
          rw [List.flatMap_cons, List.cons_append, segments_sep isSep_sep] at tail
          rw [List.flatMap_cons, List.cons_append,
            segments_word_sep (proper first List.mem_cons_self) isSep_sep, tail]

/-- Joining segments and splitting again gives them back. -/
theorem segments_intercalate {isSep : α → Bool} {sep : α} (isSep_sep : isSep sep = true)
    {segs : List (List α)} (proper : ∀ segment ∈ segs, IsSegment isSep segment) :
    segments isSep ([sep].intercalate segs) = segs := by
  cases segs with
  | nil => rfl
  | cons first rest =>
      have leading := segments_flatMap isSep_sep proper
      rw [List.flatMap_cons, List.cons_append, segments_sep isSep_sep] at leading
      rw [intercalate_cons, leading]

/-- A text that starts inside a segment: the rest of that segment, then nothing
or a separator. -/
theorem exists_word_split {isSep : α → Bool} {sep : α}
    (only : ∀ item, isSep item = true ↔ item = sep) {item : α} (inside : ¬ isSep item = true)
    (text : List α) :
    ∃ word rest, item :: text = word ++ rest ∧ IsSegment isSep word ∧
      (rest = [] ∨ ∃ behind, rest = sep :: behind) := by
  induction text generalizing item with
  | nil =>
      have clean : Clean isSep [item] := by simpa [Clean] using inside
      exact ⟨[item], [], rfl, ⟨List.cons_ne_nil _ _, clean⟩, .inl rfl⟩
  | cons next text inductionHypothesis =>
      have clean : Clean isSep [item] := by simpa [Clean] using inside
      by_cases boundary : isSep next = true
      · obtain rfl := (only next).mp boundary
        exact ⟨[item], next :: text, rfl, ⟨List.cons_ne_nil _ _, clean⟩, .inr ⟨text, rfl⟩⟩
      · obtain ⟨word, rest, split, segment, behind⟩ := inductionHypothesis boundary
        refine ⟨item :: word, rest, by rw [split]; rfl, ⟨List.cons_ne_nil _ _, ?_⟩, behind⟩
        exact clean_append.mpr ⟨clean, segment.2⟩

/-- A joined list starts with another either at a segment boundary or inside the
segment that continues the other's last one. -/
theorem intercalate_eq_append_iff {isSep : α → Bool} {sep : α}
    (only : ∀ item, isSep item = true ↔ item = sep) {segs front : List (List α)}
    (proper : ∀ segment ∈ segs, IsSegment isSep segment)
    (properFront : ∀ segment ∈ front, IsSegment isSep segment) (nonempty : front ≠ [])
    (tail : List α) :
    [sep].intercalate segs = [sep].intercalate front ++ tail ↔
      (∃ back, segs = front ++ back ∧ tail = back.flatMap (sep :: ·)) ∨
        ∃ before last more back, front = before ++ [last] ∧ more ≠ [] ∧
          segs = before ++ (last ++ more) :: back ∧ tail = more ++ back.flatMap (sep :: ·) := by
  have isSep_sep : isSep sep = true := (only sep).mpr rfl
  constructor
  · intro starts
    have split := segments_intercalate isSep_sep proper
    cases tail with
    | nil =>
        rw [starts, List.append_nil, segments_intercalate isSep_sep properFront] at split
        exact .inl ⟨[], by simp [split], rfl⟩
    | cons item tail =>
        by_cases boundary : isSep item = true
        · obtain rfl := (only item).mp boundary
          rw [starts, segments_append_sep isSep_sep,
            segments_intercalate isSep_sep properFront] at split
          refine .inl ⟨segments isSep tail, split.symm, ?_⟩
          rw [← split, intercalate_append item nonempty] at starts
          exact (List.append_cancel_left starts).symm
        · obtain ⟨more, rest, tail_eq, segment, behind⟩ := exists_word_split only boundary tail
          obtain ⟨before, last, rfl⟩ := (List.eq_nil_or_concat' front).resolve_left nonempty
          have lengthened : ∀ seg ∈ before ++ [last ++ more], IsSegment isSep seg := by
            intro seg member
            rcases List.mem_append.mp member with early | late
            · exact properFront seg (List.mem_append_left _ early)
            · obtain rfl := List.mem_singleton.mp late
              have lastSegment := properFront last (by simp)
              exact ⟨by simp [lastSegment.1], clean_append.mpr ⟨lastSegment.2, segment.2⟩⟩
          rw [tail_eq, ← List.append_assoc, ← intercalate_lengthen] at starts
          -- what follows the lengthened segment is nothing or starts at a separator
          have boundaryCase : ∃ back, segs = (before ++ [last ++ more]) ++ back ∧
              rest = back.flatMap (sep :: ·) := by
            rcases behind with rfl | ⟨behind, rfl⟩
            · rw [starts, List.append_nil, segments_intercalate isSep_sep lengthened] at split
              exact ⟨[], by simp [split], rfl⟩
            · rw [starts, segments_append_sep isSep_sep,
                segments_intercalate isSep_sep lengthened] at split
              refine ⟨segments isSep behind, split.symm, ?_⟩
              rw [← split, intercalate_append sep (by simp)] at starts
              exact (List.append_cancel_left starts).symm
          obtain ⟨back, segs_eq, rest_eq⟩ := boundaryCase
          exact .inr ⟨before, last, more, back, rfl, segment.1, by simp [segs_eq],
            by rw [tail_eq, rest_eq]⟩
  · rintro (⟨back, rfl, rfl⟩ | ⟨before, last, more, back, rfl, -, rfl, rfl⟩)
    · exact intercalate_append sep nonempty back
    · have whole := intercalate_append sep
        (show before ++ [last ++ more] ≠ [] by simp) back
      rw [intercalate_lengthen, List.append_assoc, List.append_assoc] at whole
      exact whole

/-- Replacing items splits the same way when it keeps what is a separator. -/
theorem segments_map {β : Type u} {isSep : α → Bool} {isSep' : β → Bool} {f : α → β}
    {text : List α} (same : ∀ item ∈ text, isSep' (f item) = isSep item) :
    segments isSep' (text.map f) = (segments isSep text).map (List.map f) := by
  have completed_map (current : List α) :
      completed (current.map f) = (completed current).map (List.map f) := by
    cases current <;> rfl
  have continued : ∀ current, segmentsFrom isSep' (current.map f) (text.map f) =
      (segmentsFrom isSep current text).map (List.map f) := by
    induction text with
    | nil => exact completed_map
    | cons item text inductionHypothesis =>
        intro current
        have here := same item List.mem_cons_self
        have later := inductionHypothesis fun other member =>
          same other (List.mem_cons_of_mem _ member)
        rw [List.map_cons, segmentsFrom, segmentsFrom, here]
        split
        · rw [completed_map, List.map_append, ← later []]
          rfl
        · rw [← later, List.map_append]
          rfl
  exact continued []

/-! ## Tidying -/

/-- Every run of separators shortened to its last one. -/
def collapse (isSep : α → Bool) : List α → List α
  | [] => []
  | item :: rest =>
      if isSep item && rest.head?.any isSep then collapse isSep rest
      else item :: collapse isSep rest

theorem rdropWhile_cons (p : α → Bool) (item : α) (rest : List α) :
    (item :: rest).rdropWhile p =
      if p item = true ∧ rest.rdropWhile p = [] then [] else item :: rest.rdropWhile p := by
  have split : rest.rdropWhile p = [] ↔ rest.reverse.dropWhile p = [] := by
    simp [List.rdropWhile]
  rw [List.rdropWhile, List.reverse_cons, List.dropWhile_append]
  by_cases none : rest.reverse.dropWhile p = []
  · have last : rest.rdropWhile p = [] := split.mpr none
    by_cases holds : p item = true
    · simp [none, last, holds]
    · simp [none, last, holds]
  · simp [none, List.rdropWhile]

theorem intercalate_ne_nil {isSep : α → Bool} {sep : α} (isSep_sep : isSep sep = true)
    {segs : List (List α)} (proper : ∀ segment ∈ segs, IsSegment isSep segment)
    (some : segs ≠ []) : [sep].intercalate segs ≠ [] := by
  intro empty
  have split := segments_intercalate isSep_sep proper
  rw [empty, segments_nil] at split
  exact some split.symm

/-- An item in front of a segment lengthens it. -/
theorem segments_cons_inside {isSep : α → Bool} {item next : α} (inside : isSep item = false)
    (more : isSep next = false) (rest : List α) :
    ∃ word words, segments isSep (next :: rest) = word :: words ∧
      segments isSep (item :: next :: rest) = (item :: word) :: words := by
  have scanned : segments isSep (next :: rest) = _ :=
    segments_scan (List.dropWhile_cons_of_neg (by simpa using more))
  have longer : segments isSep (item :: next :: rest) = _ :=
    segments_scan (List.dropWhile_cons_of_neg (by simpa using inside))
  refine ⟨_, _, scanned, ?_⟩
  simpa [more] using longer

/-- Collapsing runs and dropping trailing separators leaves the segments, joined,
behind the separator that the text may start with. -/
theorem tidy_eq {isSep : α → Bool} {sep : α} (only : ∀ item, isSep item = true ↔ item = sep)
    (text : List α) :
    (collapse isSep text).rdropWhile isSep =
      (if text.head?.any isSep = true ∧ segments isSep text ≠ [] then [sep] else []) ++
        [sep].intercalate (segments isSep text) := by
  induction text with
  | nil => rfl
  | cons item rest inductionHypothesis =>
      by_cases isSep_item : isSep item = true
      · by_cases run : rest.head?.any isSep = true
        · simp only [collapse, isSep_item, run, Bool.and_self, if_true, inductionHypothesis,
            true_and,
            segments_sep isSep_item, List.head?_cons, Option.any_some]
        · obtain rfl := (only item).mp isSep_item
          simp only [run, Bool.false_eq_true, false_and, if_false, List.nil_append]
            at inductionHypothesis
          simp only [collapse, isSep_item, run, Bool.and_false, Bool.false_eq_true, if_false,
            rdropWhile_cons, inductionHypothesis, true_and, segments_sep isSep_item,
            List.head?_cons,
            Option.any_some]
          by_cases none : segments isSep rest = []
          · simp [none]
          · have proper : ∀ segment ∈ segments isSep rest, IsSegment isSep segment :=
              fun _ member => segments_isSegment member
            have joined := intercalate_ne_nil isSep_item proper none
            simp [none, joined]
      · have inside : isSep item = false := by simpa using isSep_item
        simp only [collapse, inside, Bool.false_and, Bool.false_eq_true, if_false, false_and,
          rdropWhile_cons, inductionHypothesis, List.head?_cons, Option.any_some, List.nil_append]
        cases rest with
        | nil => simp [segments, segmentsFrom, inside, completed]
        | cons next more =>
            have word : IsSegment isSep [item] :=
              ⟨List.cons_ne_nil _ _, by simpa [Clean] using inside⟩
            by_cases boundary : isSep next = true
            · have split := segments_word_sep word boundary more
              rw [List.singleton_append] at split
              rw [split, segments_sep boundary, intercalate_cons]
              cases found : segments isSep more with
              | nil => simp
              | cons first rest => simp [boundary, intercalate_cons]
            · have outside : isSep next = false := by simpa using boundary
              obtain ⟨first, words, split, longer⟩ := segments_cons_inside inside outside more
              rw [longer, split, intercalate_cons, intercalate_cons]
              simp [outside]

/-! ## Ancestors -/

/-- The proper prefixes of a list of segments that hold a segment, the longest first. -/
def ancestors (segs : List α) : List (List α) :=
  (List.range' 1 (segs.length - 1)).reverse.map segs.take

@[simp] theorem ancestors_nil : ancestors ([] : List α) = [] := rfl

/-- What is above a list of segments is the list without its last segment, and what is above
that. -/
theorem ancestors_concat (front : List α) (last : α) :
    ancestors (front ++ [last]) = if front = [] then [] else front :: ancestors front := by
  cases shape : front.length with
  | zero =>
      rw [List.length_eq_zero_iff.mp shape]
      rfl
  | succ count =>
      have nonempty : front ≠ [] := List.ne_nil_of_length_eq_add_one shape
      have shorter : ∀ k ∈ (List.range' 1 count).reverse,
          (front ++ [last]).take k = front.take k := by
        intro k member
        rw [List.mem_reverse, List.mem_range'_1] at member
        exact List.take_append_of_le_length (by omega)
      have whole : (front ++ [last]).take (1 + count) = front := by
        rw [Nat.add_comm, ← shape]
        exact List.take_left
      rw [if_neg nonempty, ancestors, ancestors, List.length_append, shape, List.length_singleton,
        Nat.add_sub_cancel, Nat.add_sub_cancel, List.range'_1_concat, List.reverse_append,
        List.reverse_singleton, List.singleton_append, List.map_cons, whole,
        List.map_congr_left shorter]

theorem mem_ancestors {segs above : List α} :
    above ∈ ancestors segs ↔ above <+: segs ∧ above ≠ [] ∧ above ≠ segs := by
  rw [ancestors, List.mem_map]
  constructor
  · rintro ⟨k, member, rfl⟩
    rw [List.mem_reverse, List.mem_range'_1] at member
    have short : (segs.take k).length = k := by
      rw [List.length_take]
      omega
    refine ⟨List.take_prefix _ _, ?_, fun same => ?_⟩
    · exact List.ne_nil_of_length_pos (by omega)
    · rw [same] at short
      omega
  · rintro ⟨prefixed, nonempty, proper⟩
    have shorter : above.length < segs.length := by
      have le := prefixed.length_le
      have ne : above.length ≠ segs.length := fun same => proper (prefixed.eq_of_length same)
      omega
    have positive := List.length_pos_of_ne_nil nonempty
    refine ⟨above.length, ?_, (List.prefix_iff_eq_take.mp prefixed).symm⟩
    rw [List.mem_reverse, List.mem_range'_1]
    omega

/-- Each ancestor is shorter than the ones in front of it. -/
theorem ancestors_shorten (segs : List α) :
    (ancestors segs).Pairwise fun below above => above.length < below.length := by
  induction segs using List.reverseRecOn with
  | nil => exact List.Pairwise.nil
  | append_singleton front last inductionHypothesis =>
      rw [ancestors_concat]
      split
      · exact List.Pairwise.nil
      · refine List.Pairwise.cons (fun above member => ?_) inductionHypothesis
        obtain ⟨prefixed, -, proper⟩ := mem_ancestors.mp member
        have le := prefixed.length_le
        have ne : above.length ≠ front.length := fun same => proper (prefixed.eq_of_length same)
        omega

/-- The last ancestor is the first segment. -/
theorem ancestors_getLast {first : α} {rest : List α} (nonempty : rest ≠ []) :
    (ancestors (first :: rest)).getLast? = some [first] := by
  induction rest using List.reverseRecOn with
  | nil => exact absurd rfl nonempty
  | append_singleton front last inductionHypothesis =>
      rw [← List.cons_append, ancestors_concat, if_neg (List.cons_ne_nil _ _)]
      by_cases single : front = []
      · subst single
        rfl
      · have above := inductionHypothesis single
        rw [List.getLast?_cons, above]
        rfl

/-! ## Lexical resolution -/

variable {σ : Type u} [DecidableEq σ]

/-- One segment onto the stack of those kept so far, the last one first: `cur`
adds nothing, `parent` takes the last one back. -/
def resolveStep (cur parent : σ) (rooted : Bool) (stack : List σ) (segment : σ) : List σ :=
  if segment = cur then stack
  else if segment = parent then
    match stack with
    | [] => if rooted then [] else [parent]
    | top :: below => if top = parent then parent :: top :: below else below
  else segment :: stack

/-- The normal form of a list of segments. Above a root there is only the root. -/
def resolve (cur parent : σ) (rooted : Bool) (segs : List σ) : List σ :=
  (segs.foldl (resolveStep cur parent rooted) []).reverse

theorem mem_resolveStep {cur parent : σ} {rooted : Bool} {stack : List σ} {segment seg : σ}
    (member : seg ∈ resolveStep cur parent rooted stack segment) :
    seg ∈ stack ∨ (seg = segment ∧ seg ≠ cur) := by
  unfold resolveStep at member
  split at member
  · exact .inl member
  · rename_i notCur
    split at member
    · rename_i isParent
      split at member
      · split at member
        · cases member
        · obtain rfl := List.mem_singleton.mp member
          exact .inr ⟨isParent.symm, isParent ▸ notCur⟩
      · rename_i top below
        split at member
        · rcases List.mem_cons.mp member with rfl | later
          · exact .inr ⟨isParent.symm, isParent ▸ notCur⟩
          · exact .inl later
        · exact .inl (List.mem_cons_of_mem _ member)
    · rcases List.mem_cons.mp member with rfl | later
      · exact .inr ⟨rfl, notCur⟩
      · exact .inl later

/-- The normal form has only segments of the list, and never `cur`. -/
theorem mem_resolve {cur parent : σ} {rooted : Bool} {segs : List σ} {seg : σ}
    (member : seg ∈ resolve cur parent rooted segs) : seg ∈ segs ∧ seg ≠ cur := by
  have run : ∀ (segs stack : List σ), seg ∈ segs.foldl (resolveStep cur parent rooted) stack →
      seg ∈ stack ∨ (seg ∈ segs ∧ seg ≠ cur) := by
    intro segs
    induction segs with
    | nil => exact fun stack member => .inl member
    | cons segment rest inductionHypothesis =>
        intro stack member
        rcases inductionHypothesis _ member with early | ⟨late, notCur⟩
        · rcases mem_resolveStep early with kept | ⟨rfl, notCur⟩
          · exact .inl kept
          · exact .inr ⟨List.mem_cons_self, notCur⟩
        · exact .inr ⟨List.mem_cons_of_mem _ late, notCur⟩
  rcases run segs [] (List.mem_reverse.mp member) with none | found
  · cases none
  · exact found

/-- Without a parent segment, resolving only drops `cur`. -/
theorem resolve_of_no_parent {cur parent : σ} (rooted : Bool) {segs : List σ}
    (absent : parent ∉ segs) : resolve cur parent rooted segs = segs.filter (· ≠ cur) := by
  have run : ∀ (segs stack : List σ), parent ∉ segs →
      segs.foldl (resolveStep cur parent rooted) stack =
        (segs.filter (· ≠ cur)).reverse ++ stack := by
    intro segs
    induction segs with
    | nil => exact fun stack _ => rfl
    | cons segment rest inductionHypothesis =>
        intro stack absent
        have notParent : segment ≠ parent := fun same => absent (same ▸ List.mem_cons_self)
        have absentRest : parent ∉ rest := fun member => absent (List.mem_cons_of_mem _ member)
        rw [List.foldl_cons, inductionHypothesis _ absentRest]
        by_cases isCur : segment = cur
        · simp [resolveStep, isCur]
        · simp [resolveStep, isCur, notParent]
  rw [resolve, run segs [] absent, List.append_nil, List.reverse_reverse]

/-- A normal form: no `cur`, and `parent` only at the front and below no root. -/
def Settled (cur parent : σ) (rooted : Bool) (segs : List σ) : Prop :=
  ∃ count names, segs = List.replicate count parent ++ names ∧ parent ∉ names ∧ cur ∉ segs ∧
    (rooted = true → count = 0)

/-- A step keeps the stack, read from its bottom, a normal form. -/
theorem settled_resolveStep {cur parent : σ} {rooted : Bool} {stack : List σ}
    (settled : Settled cur parent rooted stack.reverse) (segment : σ) :
    Settled cur parent rooted (resolveStep cur parent rooted stack segment).reverse := by
  have noCur : cur ∉ (resolveStep cur parent rooted stack segment).reverse := by
    intro member
    rcases mem_resolveStep (List.mem_reverse.mp member) with early | ⟨-, notCur⟩
    · obtain ⟨-, -, -, -, absent, -⟩ := settled
      exact absent (List.mem_reverse.mpr early)
    · exact notCur rfl
  obtain ⟨count, names, split, notParent, -, root⟩ := settled
  rw [List.reverse_eq_iff, List.reverse_append, List.reverse_replicate] at split
  unfold resolveStep at noCur ⊢
  split
  next =>
    rename_i isCur
    rw [if_pos isCur] at noCur
    exact ⟨count, names, by simp [split], notParent, noCur, root⟩
  next notCur =>
    rw [if_neg notCur] at noCur
    split
    next isParent =>
      rw [if_pos isParent] at noCur
      cases found : names.reverse with
      | nil =>
          rw [List.reverse_eq_nil_iff] at found
          subst found
          rw [List.reverse_nil, List.nil_append] at split
          cases count with
          | zero =>
              obtain rfl := split
              cases rooted with
              | true => exact ⟨0, [], rfl, notParent, noCur, fun _ => rfl⟩
              | false => exact ⟨1, [], rfl, notParent, noCur, fun isRoot => by cases isRoot⟩
          | succ count =>
              obtain rfl := split
              refine ⟨count + 2, [], ?_, notParent, noCur,
                fun isRoot => absurd (root isRoot) (by simp)⟩
              rw [List.replicate_succ, List.append_nil]
              dsimp only
              rw [if_pos rfl, ← List.replicate_succ, ← List.replicate_succ, List.reverse_replicate]
      | cons top below =>
          rw [found, List.cons_append] at split
          obtain rfl := split
          have topName : top ≠ parent := by
            rintro rfl
            exact notParent (List.mem_reverse.mp (found ▸ List.mem_cons_self))
          dsimp only at noCur ⊢
          rw [if_neg topName] at noCur ⊢
          refine ⟨count, below.reverse, by simp, ?_, noCur, root⟩
          intro member
          exact notParent (List.mem_reverse.mp
            (found ▸ List.mem_cons_of_mem _ (List.mem_reverse.mp member)))
    next isName =>
      rw [if_neg isName] at noCur
      refine ⟨count, names ++ [segment], by simp [split], ?_, noCur, root⟩
      simpa [notParent] using Ne.symm isName

/-- Resolving gives a normal form. -/
theorem settled_resolve (cur parent : σ) (rooted : Bool) (segs : List σ) :
    Settled cur parent rooted (resolve cur parent rooted segs) := by
  have run : ∀ (segs stack : List σ), Settled cur parent rooted stack.reverse →
      Settled cur parent rooted (segs.foldl (resolveStep cur parent rooted) stack).reverse := by
    intro segs
    induction segs with
    | nil => exact fun _ settled => settled
    | cons segment rest inductionHypothesis =>
        exact fun _ settled => inductionHypothesis _ (settled_resolveStep settled segment)
  exact run segs [] ⟨0, [], rfl, List.not_mem_nil, List.not_mem_nil, fun _ => rfl⟩

/-- A normal form is its own. -/
theorem resolve_of_settled {cur parent : σ} {rooted : Bool} {segs : List σ}
    (settled : Settled cur parent rooted segs) : resolve cur parent rooted segs = segs := by
  obtain ⟨count, names, rfl, notParent, noCur, root⟩ := settled
  have parents : ∀ count, (rooted = true → count = 0) → (0 < count → parent ≠ cur) →
      (List.replicate count parent).foldl (resolveStep cur parent rooted) [] =
        List.replicate count parent := by
    intro count
    induction count with
    | zero => exact fun _ _ => rfl
    | succ count inductionHypothesis =>
        intro root differ
        have relative : rooted = false := by
          cases rooted with
          | true => exact absurd (root rfl) (Nat.succ_ne_zero count)
          | false => rfl
        rw [List.replicate_succ', List.foldl_append,
          inductionHypothesis (by simp [relative]) fun _ => differ (Nat.succ_pos _)]
        cases count with
        | zero => simp [resolveStep, differ, relative]
        | succ count => simp [resolveStep, differ, List.replicate_succ, ← List.replicate_succ']
  have differ : 0 < count → parent ≠ cur := by
    rintro positive rfl
    exact noCur (List.mem_append_left _ (List.mem_replicate.mpr ⟨Nat.ne_of_gt positive, rfl⟩))
  have pushed : ∀ (names stack : List σ), parent ∉ names → cur ∉ names →
      names.foldl (resolveStep cur parent rooted) stack = names.reverse ++ stack := by
    intro names
    induction names with
    | nil => exact fun _ _ _ => rfl
    | cons first rest inductionHypothesis =>
        intro stack notParent noCur
        rw [List.mem_cons, not_or] at notParent noCur
        rw [List.foldl_cons, inductionHypothesis _ notParent.2 noCur.2]
        simp [resolveStep, Ne.symm notParent.1, Ne.symm noCur.1]
  rw [resolve, List.foldl_append, parents count root differ, pushed names _ notParent
    fun member => noCur (List.mem_append_right _ member)]
  simp

/-! ## Following a path -/

/-- Follow a list of segments from a place, given by the names above it, the nearest one first:
`cur` stays, `parent` goes up if there is something above, and a name goes down. -/
def follow (cur parent : σ) (here segs : List σ) : List σ :=
  segs.foldl
    (fun here segment =>
      if segment = cur then here else if segment = parent then here.tail else segment :: here) here

theorem follow_append (cur parent : σ) (here front back : List σ) :
    follow cur parent here (front ++ back) =
      follow cur parent (follow cur parent here front) back :=
  List.foldl_append

/-- A step of resolving leads on from where the stack led. Below a root there is nothing above
the place the follow starts at. -/
theorem follow_resolveStep {cur parent : σ} {rooted : Bool} {here stack : List σ}
    (settled : Settled cur parent rooted stack.reverse) (root : rooted = true → here = [])
    (segment : σ) :
    follow cur parent here (resolveStep cur parent rooted stack segment).reverse =
      follow cur parent (follow cur parent here stack.reverse) [segment] := by
  rw [← follow_append]
  unfold resolveStep
  split
  next isCur => simp [follow, isCur]
  next notCur =>
    split
    next isParent =>
      subst isParent
      cases stack with
      | nil =>
          cases rooted with
          | true => simp [follow, root rfl, notCur]
          | false => rfl
      | cons top below =>
          dsimp only
          split
          next isParent => simp [isParent]
          next isName =>
            have notCurTop : top ≠ cur := by
              obtain ⟨-, -, -, -, absent, -⟩ := settled
              rintro rfl
              exact absent (by simp)
            simp [follow, notCur, notCurTop, isName]
    next => rw [List.reverse_cons]

/-- Resolving does not change where a list of segments leads. -/
theorem follow_resolve {cur parent : σ} {rooted : Bool} {here : List σ}
    (root : rooted = true → here = []) (segs : List σ) :
    follow cur parent here (resolve cur parent rooted segs) = follow cur parent here segs := by
  have run : ∀ (segs stack : List σ), Settled cur parent rooted stack.reverse →
      follow cur parent here (segs.foldl (resolveStep cur parent rooted) stack).reverse =
        follow cur parent (follow cur parent here stack.reverse) segs := by
    intro segs
    induction segs with
    | nil => exact fun _ _ => rfl
    | cons segment rest inductionHypothesis =>
        intro stack settled
        rw [List.foldl_cons, inductionHypothesis _ (settled_resolveStep settled segment),
          follow_resolveStep settled root, ← follow_append]
        rfl
  exact run segs [] ⟨0, [], rfl, List.not_mem_nil, List.not_mem_nil, fun _ => rfl⟩

end Ucb.Lib
