import Ucb.Unicode.GraphemeRules
import Ucb.Unicode.Utf8Validation

/-!
Contract: what the grapheme functions compute on a valid UTF-8 string.

Owns:
- the list of break positions of the forward scan, and the results of
  `ucb_uc_num_char`, `ucb_uc_char_index` and `ucb_uc_grapheme_next_from` in
  terms of it;
- that these positions are the boundaries of UAX #29.

Does not own: the scanner state rebuilt by scanning backwards.
-/

namespace Ucb.Unicode

open Ucb.Lib

def textOf (tables : UcbUcTables) (cps : List Scalar) : List UcbUcProp :=
  cps.map tables.propOf

@[simp] theorem textOf_nil (tables : UcbUcTables) : textOf tables [] = [] := rfl

@[simp] theorem textOf_cons (tables : UcbUcTables) (cp : Scalar) (rest : List Scalar) :
    textOf tables (cp :: rest) = tables.propOf cp :: textOf tables rest := rfl

@[simp] theorem textOf_append (tables : UcbUcTables) (left right : List Scalar) :
    textOf tables (left ++ right) = textOf tables left ++ textOf tables right := by
  simp [textOf]

/-! ## Break positions -/

/-- The byte positions at which the scan breaks in front of a codepoint of the
list, which starts at `offset` after a codepoint with properties `prop`. -/
def breaksFrom (tables : UcbUcTables) :
    UcbUcGraphemeState → UcbUcProp → Nat → List Scalar → List Nat
  | _, _, _, [] => []
  | st, prop, offset, cp :: rest =>
      let nextProp := tables.propOf cp
      let later := breaksFrom tables (updateBy st nextProp) nextProp
        (offset + (encodeScalar cp).length) rest
      if breaksBetween st prop nextProp then offset :: later else later

/-- The positions at which the scan of a whole text breaks. -/
def clusterBreaks (tables : UcbUcTables) : List Scalar → List Nat
  | [] => []
  | cp :: rest =>
      breaksFrom tables (updateBy .zero (tables.propOf cp)) (tables.propOf cp)
        (encodeScalar cp).length rest

theorem propAt_at (tables : UcbUcTables) (before : List UInt8) (cp : Scalar)
    (after : List UInt8) :
    ucbUcPropAt tables (before ++ (encodeScalar cp ++ after)) before.length =
      .ok (tables.propOf cp, before.length + (encodeScalar cp).length) := by
  simp [ucbUcPropAt, nextValid_at, getProp_scalar]

/-- The loop hands exactly the break positions to `onBreak`, in order. -/
theorem graphemeLoop_encode {σ ρ : Type} (tables : UcbUcTables)
    (onBreak : σ → Nat → Except ρ σ) (cps : List Scalar) :
    ∀ (before after : List UInt8) (fuel : Nat) (st : UcbUcGraphemeState) (prop : UcbUcProp)
      (var : σ), cps.length < fuel →
      graphemeLoop tables (before ++ (encode cps ++ after)) (before.length + (encode cps).length)
          onBreak fuel before.length st prop var =
        .ok ((breaksFrom tables st prop before.length cps).foldlM onBreak var) := by
  induction cps with
  | nil =>
      intro before after fuel st prop var enough
      obtain ⟨fuel, rfl⟩ := Nat.exists_eq_succ_of_ne_zero (Nat.ne_of_gt enough)
      simp [graphemeLoop, breaksFrom]
      rfl
  | cons cp rest inductionHypothesis =>
      intro before after fuel st prop var enough
      obtain ⟨fuel, rfl⟩ := Nat.exists_eq_succ_of_ne_zero (Nat.ne_of_gt (Nat.zero_lt_of_lt enough))
      have positive := encodeScalar_length_pos cp
      have inside : before.length <
          before.length + ((encodeScalar cp).length + (encode rest).length) := by omega
      have step := propAt_at tables before cp (encode rest ++ after)
      have tail := fun next => inductionHypothesis (before ++ encodeScalar cp) after fuel
        (updateBy st (tables.propOf cp)) (tables.propOf cp) next (by simpa using enough)
      simp only [List.length_append, List.append_assoc, Nat.add_assoc] at tail
      simp only [graphemeLoop, breaksFrom, encode_cons, List.length_append, List.append_assoc,
        if_pos inside, step, Exec.ok_bind]
      by_cases breaks : breaksBetween st prop (tables.propOf cp) = true
      · rw [if_pos breaks, if_pos breaks, List.foldlM_cons]
        cases onBreak var before.length with
        | error result => rfl
        | ok next => exact tail next
      · rw [if_neg breaks, if_neg breaks]
        exact tail var

/-- A scan that starts in front of `cp`. What follows `last` is not looked at. -/
theorem graphemeScan_encode {σ ρ : Type} (tables : UcbUcTables) (onBreak : σ → Nat → Except ρ σ)
    (before : List UInt8) (cp : Scalar) (rest : List Scalar) (after : List UInt8)
    (st : UcbUcGraphemeState) (var : σ) :
    graphemeScan tables (before ++ (encode (cp :: rest) ++ after)) before.length
        (before.length + (encode (cp :: rest)).length) st onBreak var =
      .ok ((breaksFrom tables (updateBy st (tables.propOf cp)) (tables.propOf cp)
        (before.length + (encodeScalar cp).length) rest).foldlM onBreak var) := by
  have bound := length_le_encode_length rest
  have loop := graphemeLoop_encode tables onBreak rest (before ++ encodeScalar cp) after
    (before.length + (encode (cp :: rest)).length + 1) (updateBy st (tables.propOf cp))
    (tables.propOf cp) var (by simp; omega)
  have step := propAt_at tables before cp (encode rest ++ after)
  rw [List.length_append, Nat.add_assoc, ← List.length_append, ← encode_cons] at loop
  simp only [graphemeScan, encode_cons, List.append_assoc, step, Exec.ok_bind] at loop ⊢
  exact loop

/-- The positions at which the loop of `ucb_uc_num_char` counts a break. -/
def graphemeBreaks (tables : UcbUcTables) (str : List UInt8) (len : Nat) : Exec (List Nat) :=
  if 0 < len then do
    let collect (seen : List Nat) (pos : Nat) : Except Empty (List Nat) := .ok (seen ++ [pos])
    match ← graphemeScan tables str 0 len .zero collect [] with
    | .ok breaks => pure breaks
  else pure []

private theorem foldlM_count (positions : List Nat) (num : Nat) :
    positions.foldlM (m := Except Empty) (fun num _ => .ok (num + 1)) num =
      .ok (num + positions.length) := by
  induction positions generalizing num with
  | nil => rfl
  | cons pos rest inductionHypothesis =>
      rw [List.foldlM_cons, List.length_cons, ← Nat.add_assoc, Nat.add_right_comm]
      exact inductionHypothesis (num + 1)

private theorem foldlM_collect (positions seen : List Nat) :
    positions.foldlM (m := Except Empty) (fun seen pos => .ok (seen ++ [pos])) seen =
      .ok (seen ++ positions) := by
  induction positions generalizing seen with
  | nil => simp; rfl
  | cons pos rest inductionHypothesis =>
      have tail := inductionHypothesis (seen ++ [pos])
      rw [List.append_assoc, List.singleton_append] at tail
      rw [List.foldlM_cons]
      exact tail

private theorem foldlM_select (index : Nat) (positions : List Nat) :
    ∀ num ≤ index,
      positions.foldlM (m := Except Nat)
          (fun num pos => if num = index then .error pos else .ok (num + 1)) num =
        match positions[index - num]? with
        | some pos => .error pos
        | none => .ok (num + positions.length) := by
  induction positions with
  | nil => intro num _; rfl
  | cons pos rest inductionHypothesis =>
      intro num reached
      rw [List.foldlM_cons]
      rcases Nat.eq_or_lt_of_le reached with rfl | later
      · rw [if_pos rfl, Nat.sub_self]
        rfl
      · have index_eq : index - num = (index - (num + 1)) + 1 := by omega
        rw [if_neg (Nat.ne_of_lt later), index_eq, List.getElem?_cons_succ, List.length_cons,
          ← Nat.add_assoc, Nat.add_right_comm]
        exact inductionHypothesis (num + 1) later

theorem encode_cons_ne_nil (cp : Scalar) (rest : List Scalar) :
    0 < (encode (cp :: rest)).length := by
  have positive := encodeScalar_length_pos cp
  rw [encode_cons, List.length_append]
  omega

theorem graphemeBreaks_encode (tables : UcbUcTables) (cps : List Scalar) (after : List UInt8) :
    graphemeBreaks tables (encode cps ++ after) (encode cps).length =
      .ok (clusterBreaks tables cps) := by
  cases cps with
  | nil => rfl
  | cons cp rest =>
      have scan := graphemeScan_encode (ρ := Empty) tables (fun seen pos => .ok (seen ++ [pos])) []
        cp rest after .zero []
      rw [List.nil_append, List.length_nil, Nat.zero_add, Nat.zero_add, foldlM_collect] at scan
      simp only [graphemeBreaks, if_pos (encode_cons_ne_nil cp rest), scan, Exec.ok_bind]
      rfl

theorem numChar_encode (tables : UcbUcTables) (cps : List Scalar) (after : List UInt8) :
    ucbUcNumChar tables (encode cps ++ after) (some (encode cps).length) =
      .ok (if cps = [] then 0 else (clusterBreaks tables cps).length + 1) := by
  cases cps with
  | nil => rfl
  | cons cp rest =>
      have scan := graphemeScan_encode (ρ := Empty) tables (fun num _ => .ok (num + 1)) []
        cp rest after .zero 1
      rw [List.nil_append, List.length_nil, Nat.zero_add, Nat.zero_add, foldlM_count,
        Nat.add_comm 1] at scan
      simp only [ucbUcNumChar, resolveLen, Exec.pure_eq_ok, Exec.ok_bind,
        if_pos (encode_cons_ne_nil cp rest), scan]
      rfl

theorem charIndex_encode (tables : UcbUcTables) (cps : List Scalar) (after : List UInt8)
    {index : Nat} (positive : 1 ≤ index) :
    ucbUcCharIndex tables (encode cps ++ after) (encode cps).length index =
      .ok ((clusterBreaks tables cps)[index - 1]?.getD (encode cps).length) := by
  have nonzero : ¬ index = 0 := by omega
  cases cps with
  | nil => simp [ucbUcCharIndex, nonzero, clusterBreaks]
  | cons cp rest =>
      have scan := graphemeScan_encode tables
        (fun num pos => if num = index then .error pos else .ok (num + 1)) [] cp rest after .zero 1
      have nonempty : ¬ 0 ≥ (encode (cp :: rest)).length :=
        Nat.not_le.mpr (encode_cons_ne_nil cp rest)
      rw [List.nil_append, List.length_nil, Nat.zero_add, Nat.zero_add,
        foldlM_select index _ 1 positive] at scan
      simp only [ucbUcCharIndex, if_neg nonzero, if_neg nonempty, scan, Exec.ok_bind, clusterBreaks]
      cases (breaksFrom tables (updateBy .zero (tables.propOf cp)) (tables.propOf cp)
        (encodeScalar cp).length rest)[index - 1]? with
      | none => rfl
      | some pos => rfl

theorem nextFrom_encode (tables : UcbUcTables) (before : List UInt8) (cp : Scalar)
    (rest : List Scalar) (after : List UInt8) (st : UcbUcGraphemeState) :
    ucbUcGraphemeNextFrom tables (before ++ (encode (cp :: rest) ++ after)) before.length
        (before.length + (encode (cp :: rest)).length) st =
      .ok (breaksFrom tables (updateBy st (tables.propOf cp)) (tables.propOf cp)
        (before.length + (encodeScalar cp).length) rest).head? := by
  rw [ucbUcGraphemeNextFrom, graphemeScan_encode]
  cases breaksFrom tables (updateBy st (tables.propOf cp)) (tables.propOf cp)
    (before.length + (encodeScalar cp).length) rest with
  | nil => rfl
  | cons pos later => rfl

/-! ## Boundaries of UAX #29 -/

/-- A scan of two parts scans the second one in the state the first one left. -/
theorem breaksFrom_append (tables : UcbUcTables) (front back : List Scalar) :
    ∀ (st : UcbUcGraphemeState) (prop : UcbUcProp) (offset : Nat),
      breaksFrom tables st prop offset (front ++ back) =
        breaksFrom tables st prop offset front ++
          breaksFrom tables ((textOf tables front).foldl updateBy st)
            ((textOf tables front).getLastD prop) (offset + (encode front).length) back := by
  induction front with
  | nil => intro st prop offset; simp [breaksFrom]
  | cons cp front inductionHypothesis =>
      intro st prop offset
      simp only [List.cons_append, breaksFrom, inductionHypothesis, textOf_cons, List.foldl_cons,
        encode_cons, List.length_append, List.getLastD_cons, Nat.add_assoc]
      split <;> rfl

theorem breaksFrom_bounds (tables : UcbUcTables) (cps : List Scalar) :
    ∀ (st : UcbUcGraphemeState) (prop : UcbUcProp) (offset : Nat),
      ∀ pos ∈ breaksFrom tables st prop offset cps,
        offset ≤ pos ∧ pos < offset + (encode cps).length := by
  induction cps with
  | nil => intro st prop offset pos member; simp [breaksFrom] at member
  | cons cp rest inductionHypothesis =>
      intro st prop offset pos member
      have positive := encodeScalar_length_pos cp
      have later : pos = offset ∨ pos ∈ breaksFrom tables (updateBy st (tables.propOf cp))
          (tables.propOf cp) (offset + (encodeScalar cp).length) rest := by
        simp only [breaksFrom] at member
        split at member
        · exact List.mem_cons.mp member
        · exact .inr member
      rw [encode_cons, List.length_append]
      rcases later with rfl | member
      · omega
      · have bounds := inductionHypothesis _ _ _ pos member
        omega

/-- The scan up to a codepoint `last` and on from there. -/
theorem clusterBreaks_append (tables : UcbUcTables) (front : List Scalar) (last : Scalar)
    (back : List Scalar) :
    clusterBreaks tables (front ++ last :: back) =
      clusterBreaks tables (front ++ [last]) ++
        breaksFrom tables (stateAfter (textOf tables (front ++ [last]))) (tables.propOf last)
          (encode (front ++ [last])).length back := by
  cases front with
  | nil => simp [clusterBreaks, breaksFrom, stateAfter]
  | cons first front =>
      have split := breaksFrom_append tables (front ++ [last]) back
        (updateBy .zero (tables.propOf first)) (tables.propOf first) (encodeScalar first).length
      rw [List.append_assoc, List.singleton_append] at split
      simp only [List.cons_append, clusterBreaks, split]
      simp [stateAfter, textOf]

theorem clusterBreaks_lt (tables : UcbUcTables) (cps : List Scalar) :
    ∀ pos ∈ clusterBreaks tables cps, pos < (encode cps).length := by
  cases cps with
  | nil => intro pos member; simp [clusterBreaks] at member
  | cons cp rest =>
      intro pos member
      have bounds := breaksFrom_bounds tables rest _ _ _ pos member
      rw [encode_cons, List.length_append]
      exact bounds.2

/-- The scan breaks between two neighbours exactly when the state there says so. -/
theorem mem_clusterBreaks_iff (tables : UcbUcTables) (front : List Scalar) (last next : Scalar)
    (back : List Scalar) :
    (encode (front ++ [last])).length ∈ clusterBreaks tables (front ++ last :: next :: back) ↔
      breaksBetween (stateAfter (textOf tables (front ++ [last]))) (tables.propOf last)
        (tables.propOf next) = true := by
  have positive := encodeScalar_length_pos next
  have notBefore := fun member =>
    Nat.lt_irrefl _ (clusterBreaks_lt tables (front ++ [last]) _ member)
  rw [clusterBreaks_append, List.mem_append, or_iff_right notBefore]
  have notAfter : (encode (front ++ [last])).length ∉
      breaksFrom tables (updateBy (stateAfter (textOf tables (front ++ [last])))
        (tables.propOf next)) (tables.propOf next)
        ((encode (front ++ [last])).length + (encodeScalar next).length) back := by
    intro member
    have bounds := breaksFrom_bounds tables back _ _ _ _ member
    omega
  simp only [breaksFrom]
  split <;> simp_all

theorem UcbUcTables.Consistent.noJoinerPictograph {tables : UcbUcTables}
    (consistent : tables.Consistent) (cps : List Scalar) :
    ∀ prop ∈ textOf tables cps, prop.extpict = true → prop.gcb ≠ .zwj := by
  intro prop member pictograph
  obtain ⟨cp, -, rfl⟩ := List.mem_map.mp member
  exact ((consistent cp).pictograph pictograph).2

/-- Every break lies between two neighbours. -/
theorem mem_breaksFrom_split (tables : UcbUcTables) (cps : List Scalar) :
    ∀ (st : UcbUcGraphemeState) (prop : UcbUcProp) (offset : Nat),
      ∀ pos ∈ breaksFrom tables st prop offset cps,
        ∃ front next back, cps = front ++ next :: back ∧ pos = offset + (encode front).length := by
  induction cps with
  | nil => intro st prop offset pos member; simp [breaksFrom] at member
  | cons cp rest inductionHypothesis =>
      intro st prop offset pos member
      simp only [breaksFrom] at member
      have later : pos = offset ∨ pos ∈ breaksFrom tables (updateBy st (tables.propOf cp))
          (tables.propOf cp) (offset + (encodeScalar cp).length) rest := by
        split at member
        · exact List.mem_cons.mp member
        · exact .inr member
      rcases later with rfl | member
      · exact ⟨[], cp, rest, rfl, by simp⟩
      · obtain ⟨front, next, back, rfl, rfl⟩ := inductionHypothesis _ _ _ pos member
        exact ⟨cp :: front, next, back, rfl, by simp [Nat.add_assoc]⟩

theorem mem_clusterBreaks_split (tables : UcbUcTables) (cps : List Scalar) :
    ∀ pos ∈ clusterBreaks tables cps, ∃ front last next back,
      cps = front ++ last :: next :: back ∧ pos = (encode (front ++ [last])).length := by
  cases cps with
  | nil => intro pos member; simp [clusterBreaks] at member
  | cons cp rest =>
      intro pos member
      obtain ⟨front, next, back, rfl, rfl⟩ := mem_breaksFrom_split tables rest _ _ _ pos member
      rcases List.eq_nil_or_concat' front with rfl | ⟨front, last, rfl⟩
      · exact ⟨[], cp, next, back, by simp, by simp⟩
      · exact ⟨cp :: front, last, next, back, by simp, by simp⟩

/-- On a valid UTF-8 string the forward scan breaks between two neighbours
exactly when the first applicable rule of UAX #29 does, breaks nowhere else,
and `ucb_uc_num_char` counts these breaks. -/
theorem graphemeBreaks_spec (tables : UcbUcTables) (consistent : tables.Consistent)
    (cps : List Scalar) :
    ∃ breaks,
      graphemeBreaks tables (encode cps) (encode cps).length = .ok breaks ∧
      ucbUcNumChar tables (encode cps) (some (encode cps).length) =
        .ok (if cps = [] then 0 else breaks.length + 1) ∧
      (∀ front last next back, cps = front ++ last :: next :: back →
        ((encode (front ++ [last])).length ∈ breaks ↔
          RulesBreak (textOf tables (front ++ [last])) (tables.propOf next))) ∧
      ∀ pos ∈ breaks, ∃ front last next back,
        cps = front ++ last :: next :: back ∧ pos = (encode (front ++ [last])).length := by
  refine ⟨clusterBreaks tables cps, by simpa using graphemeBreaks_encode tables cps [],
    by simpa using numChar_encode tables cps [], ?_, mem_clusterBreaks_split tables cps⟩
  rintro front last next back rfl
  have tracks := tracks_stateAfter (textOf tables (front ++ [last]))
    (consistent.noJoinerPictograph _)
  rw [textOf_append] at tracks
  rw [mem_clusterBreaks_iff, textOf_append]
  exact shouldBreak_iff tracks (tables.propOf next)

def flagTables : UcbUcTables :=
  uniformTables { (default : UcbUcProp) with gcb := .regionalIndicator }

theorem flagTables_consistent : flagTables.Consistent := by
  intro cp
  rw [flagTables, uniformTables_propOf]
  exact ⟨by decide, by unfold UcbUcProp.IsConjunctMark; decide⟩

theorem graphemeBreaks_flags :
    ∃ breaks,
      graphemeBreaks flagTables (encode [⟨65, by decide⟩, ⟨66, by decide⟩, ⟨67, by decide⟩])
        (encode [⟨65, by decide⟩, ⟨66, by decide⟩, ⟨67, by decide⟩]).length = .ok breaks ∧
      (2 ∈ breaks ↔
        RulesBreak (textOf flagTables [⟨65, by decide⟩, ⟨66, by decide⟩])
          (flagTables.propOf ⟨67, by decide⟩)) := by
  obtain ⟨breaks, scanned, -, decides, -⟩ := graphemeBreaks_spec flagTables flagTables_consistent
    [⟨65, by decide⟩, ⟨66, by decide⟩, ⟨67, by decide⟩]
  exact ⟨breaks, scanned, decides [⟨65, by decide⟩] ⟨66, by decide⟩ ⟨67, by decide⟩ [] rfl⟩

end Ucb.Unicode
