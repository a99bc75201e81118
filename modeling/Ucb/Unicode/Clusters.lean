import Ucb.Unicode.GraphemeScan

/-!
Contract: a text as a list of grapheme clusters.

Owns:
- the division of a text at the breaks of the forward scan;
- cluster counts and byte positions as `ucb_uc_num_char` and
  `ucb_uc_char_index` report them.
-/

namespace Ucb.Unicode

/-- Divide the rest of a text, with `current` the cluster being collected. -/
def clustersFrom (tables : UcbUcTables) :
    UcbUcGraphemeState → UcbUcProp → List Scalar → List Scalar → List (List Scalar)
  | _, _, current, [] => [current]
  | st, prop, current, cp :: rest =>
      let nextProp := tables.propOf cp
      if breaksBetween st prop nextProp then
        current :: clustersFrom tables (updateBy st nextProp) nextProp [cp] rest
      else clustersFrom tables (updateBy st nextProp) nextProp (current ++ [cp]) rest

def graphemeClusters (tables : UcbUcTables) : List Scalar → List (List Scalar)
  | [] => []
  | cp :: rest =>
      clustersFrom tables (updateBy .zero (tables.propOf cp)) (tables.propOf cp) [cp] rest

theorem clustersFrom_flatten (tables : UcbUcTables) (rest : List Scalar) :
    ∀ (st : UcbUcGraphemeState) (prop : UcbUcProp) (current : List Scalar),
      (clustersFrom tables st prop current rest).flatten = current ++ rest := by
  induction rest with
  | nil => intro st prop current; simp [clustersFrom]
  | cons cp rest inductionHypothesis =>
      intro st prop current
      simp only [clustersFrom]
      split <;> simp [inductionHypothesis]

/-- The clusters make up the text. -/
@[simp] theorem graphemeClusters_flatten (tables : UcbUcTables) (cps : List Scalar) :
    (graphemeClusters tables cps).flatten = cps := by
  cases cps with
  | nil => rfl
  | cons cp rest => exact clustersFrom_flatten tables rest _ _ [cp]

theorem clustersFrom_length (tables : UcbUcTables) (rest : List Scalar) :
    ∀ (st : UcbUcGraphemeState) (prop : UcbUcProp) (current : List Scalar) (offset : Nat),
      (clustersFrom tables st prop current rest).length =
        (breaksFrom tables st prop offset rest).length + 1 := by
  induction rest with
  | nil => intro st prop current offset; rfl
  | cons cp rest inductionHypothesis =>
      intro st prop current offset
      simp only [clustersFrom, breaksFrom]
      split
      · rw [List.length_cons, List.length_cons, inductionHypothesis]
      · exact inductionHypothesis _ _ _ _

/-- The end of each cluster is the next break, or the end of the text. -/
theorem clustersFrom_offset (tables : UcbUcTables) (rest : List Scalar) :
    ∀ (st : UcbUcGraphemeState) (prop : UcbUcProp) (current : List Scalar) (start index : Nat),
      index < (clustersFrom tables st prop current rest).length →
      (breaksFrom tables st prop (start + (encode current).length) rest)[index]?.getD
          (start + (encode current).length + (encode rest).length) =
        start + (encode
          ((clustersFrom tables st prop current rest).take (index + 1)).flatten).length := by
  induction rest with
  | nil =>
      intro st prop current start index inside
      have first : index = 0 := by simpa [clustersFrom] using inside
      simp [first, clustersFrom, breaksFrom]
  | cons cp rest inductionHypothesis =>
      intro st prop current start index inside
      simp only [clustersFrom, breaksFrom] at inside ⊢
      split at inside
      · rename_i breaks
        rw [if_pos breaks, if_pos breaks]
        cases index with
        | zero => simp
        | succ index =>
            have later := inductionHypothesis (updateBy st (tables.propOf cp)) (tables.propOf cp)
              [cp] (start + (encode current).length) index (by simpa using inside)
            simp only [encode_cons, encode_nil, List.append_nil] at later
            rw [List.getElem?_cons_succ, List.take_succ_cons, List.flatten_cons, encode_append,
              encode_cons, List.length_append, List.length_append, ← Nat.add_assoc, later,
              Nat.add_assoc]
      · rename_i joins
        rw [if_neg joins, if_neg joins]
        have later := inductionHypothesis (updateBy st (tables.propOf cp)) (tables.propOf cp)
          (current ++ [cp]) start index inside
        simp only [encode_append, encode_cons, encode_nil, List.append_nil, List.length_append,
          ← Nat.add_assoc] at later ⊢
        exact later

theorem numChar_clusters (tables : UcbUcTables) (cps : List Scalar) (after : List UInt8) :
    ucbUcNumChar tables (encode cps ++ after) (some (encode cps).length) =
      .ok (graphemeClusters tables cps).length := by
  rw [numChar_encode]
  cases cps with
  | nil => rfl
  | cons cp rest =>
      rw [if_neg (by simp), graphemeClusters, clusterBreaks, clustersFrom_length]

/-- `ucb_uc_char_index` finds the end of the first `index` clusters. -/
theorem charIndex_clusters (tables : UcbUcTables) (cps : List Scalar) (after : List UInt8)
    {index : Nat} (positive : 1 ≤ index) (inside : index ≤ (graphemeClusters tables cps).length) :
    ucbUcCharIndex tables (encode cps ++ after) (encode cps).length index =
      .ok (encode ((graphemeClusters tables cps).take index).flatten).length := by
  rw [charIndex_encode tables cps after positive]
  cases cps with
  | nil => simp [graphemeClusters] at inside; omega
  | cons cp rest =>
      obtain ⟨index, rfl⟩ := Nat.exists_eq_succ_of_ne_zero (Nat.ne_of_gt positive)
      have found := clustersFrom_offset tables rest (updateBy .zero (tables.propOf cp))
        (tables.propOf cp) [cp] 0 index inside
      simp only [encode_cons, encode_nil, List.append_nil, Nat.zero_add] at found
      rw [Nat.succ_sub_one, clusterBreaks, graphemeClusters, encode_cons, List.length_append, found]

end Ucb.Unicode
