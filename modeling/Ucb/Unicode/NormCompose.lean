import Mathlib.Data.List.Sort
import Ucb.Unicode.Normalize

/-!
Contract: `norm_compose` against the composition algorithm.

Owns:
- what it means that generated tables agree with character data;
- the binary search, the seek for the last starter and the whole loop, each as
  the operation of the composition algorithm it carries out;
- `IndexFits`, when the loop never leaves the range of its `int` index.
-/

namespace Ucb.Unicode

open Ucb.Lib

/-! ## Tables that agree with character data -/

/-- Generated tables agree with character data on combining classes, on single
decomposition steps, and on primary composites, which are listed by ascending
second characters. -/
structure Agrees (ucd : Ucd) (tables : UcbUcNormTables) : Prop where
  ccc : ∀ cp, (tables.propOf cp).ccc = ucd.ccc cp
  decomp : ∀ cp, ucbUcGetDecomp tables.toUcbUcRawTables (tables.propOf cp) =
    .ok ((ucd.mapping cp).map fun step => ⟨step.1, scalarValues step.2⟩)
  combiners : ∀ a, ∃ found : Option (List UcbUcCombinerEntry),
    ucbUcGetCombiners tables.toUcbUcRawTables (tables.propOf a) = .ok found ∧
      (found.getD []).Pairwise (fun e e' => e.combiner < e'.combiner) ∧
      ∀ entry, entry ∈ found.getD [] ↔
        ∃ b p, ucd.primary a b = some p ∧ entry = ⟨b.val, p.val⟩

/-! ## The binary search -/

/-- The composite an entry list gives for a second character. -/
def composedOf (entries : List UcbUcCombinerEntry) (combiner : Nat) : Nat :=
  ((entries.find? fun entry => entry.combiner = combiner).map (·.composed)).getD 0

theorem composedOf_of_mem {entries : List UcbUcCombinerEntry}
    (sorted : entries.Pairwise fun e e' => e.combiner < e'.combiner)
    {entry : UcbUcCombinerEntry} (member : entry ∈ entries) :
    composedOf entries entry.combiner = entry.composed := by
  induction entries with
  | nil => cases member
  | cons first rest inductionHypothesis =>
      obtain ⟨below, sorted⟩ := List.pairwise_cons.mp sorted
      rcases List.mem_cons.mp member with rfl | later
      · simp [composedOf]
      · have differs : first.combiner ≠ entry.combiner := Nat.ne_of_lt (below entry later)
        have inRest := inductionHypothesis sorted later
        simpa [composedOf, differs] using inRest

theorem composedOf_of_notMem {entries : List UcbUcCombinerEntry} {combiner : Nat}
    (absent : ∀ entry ∈ entries, entry.combiner ≠ combiner) : composedOf entries combiner = 0 := by
  have nothing : entries.find? (fun entry => entry.combiner = combiner) = none :=
    List.find?_eq_none.mpr fun entry member => by simpa using absent entry member
  rw [composedOf, nothing]
  rfl

/-- The search finds what the list has between its bounds. -/
theorem searchCombiner_eq {entries : List UcbUcCombinerEntry}
    (sorted : entries.Pairwise fun e e' => e.combiner < e'.combiner) {combiner : Nat}
    (width : Nat) :
    ∀ {left right : Nat}, right - left ≤ width → right ≤ entries.length →
      (∀ (i : Nat) entry, entries[i]? = some entry → i < left → entry.combiner < combiner) →
      (∀ (i : Nat) entry, entries[i]? = some entry → right ≤ i → combiner < entry.combiner) →
      searchCombiner entries combiner left right = .ok (composedOf entries combiner) := by
  induction width with
  | zero =>
      intro left right narrow inside lower upper
      have absent : ∀ entry ∈ entries, entry.combiner ≠ combiner := by
        intro entry member
        obtain ⟨i, found⟩ := List.getElem?_of_mem member
        by_cases below : i < left
        · exact Nat.ne_of_lt (lower i entry found below)
        · exact Nat.ne_of_gt (upper i entry found (by omega))
      rw [searchCombiner, if_neg (by omega), composedOf_of_notMem absent]
      rfl
  | succ width inductionHypothesis =>
      intro left right narrow inside lower upper
      by_cases nonempty : left < right
      · have middle : (left + right) / 2 < entries.length := by omega
        have found : entries[(left + right) / 2]? = some entries[(left + right) / 2] :=
          List.getElem?_eq_getElem middle
        have loaded : tableAt entries ((left + right) / 2) = .ok entries[(left + right) / 2] := by
          rw [tableAt, found]
        have ordered := List.pairwise_iff_getElem.mp sorted
        rw [searchCombiner, if_pos nonempty, loaded, Exec.ok_bind]
        generalize middleIs : entries[(left + right) / 2] = entry at found ⊢
        split
        next less =>
          apply inductionHypothesis (by omega) inside _ upper
          intro i entry' found' before
          rcases Nat.lt_or_eq_of_le (Nat.le_of_lt_succ before) with earlier | rfl
          · obtain ⟨inRange, rfl⟩ := List.getElem?_eq_some_iff.mp found'
            have := ordered i _ inRange middle earlier
            rw [middleIs] at this
            omega
          · rwa [← Option.some.inj (found.symm.trans found')]
        next notLess =>
          split
          next greater =>
            apply inductionHypothesis (by omega) (by omega) lower
            intro i entry' found' behind
            rcases Nat.lt_or_eq_of_le behind with later | rfl
            · obtain ⟨inRange, rfl⟩ := List.getElem?_eq_some_iff.mp found'
              have := ordered _ i middle inRange later
              rw [middleIs] at this
              omega
            · rwa [← Option.some.inj (found.symm.trans found')]
          next notGreater =>
            have same : entry.combiner = combiner := by omega
            rw [← same, composedOf_of_mem sorted (List.mem_of_getElem? found)]
            rfl
      · exact inductionHypothesis (by omega) inside lower upper

variable {ucd : Ucd} {tables : UcbUcNormTables}

/-- The search of a starter's entries is the primary composite. -/
theorem normComposeCp_eq (agrees : Agrees ucd tables) (a b : Scalar) :
    (ucbUcGetCombiners tables.toUcbUcRawTables (tables.propOf a) >>= normComposeCp b.val) =
      .ok (((ucd.primary a b).map Subtype.val).getD 0) := by
  obtain ⟨found, loaded, sorted, listed⟩ := agrees.combiners a
  have searched : normComposeCp b.val found = .ok (composedOf (found.getD []) b.val) := by
    cases found with
    | none => rfl
    | some entries =>
        apply searchCombiner_eq (sorted : entries.Pairwise _) entries.length (Nat.sub_le _ _)
          (Nat.le_refl _)
        · intro i entry _ before
          omega
        · intro i entry present behind
          have inside := (List.getElem?_eq_some_iff.mp present).1
          exact absurd inside (Nat.not_lt.mpr behind)
  rw [loaded, Exec.ok_bind, searched]
  cases joined : ucd.primary a b with
  | some p =>
      have member := (listed ⟨b.val, p.val⟩).mpr ⟨b, p, joined, rfl⟩
      rw [composedOf_of_mem sorted member]
      rfl
  | none =>
      have absent : ∀ entry ∈ found.getD [], entry.combiner ≠ b.val := by
        intro entry member same
        obtain ⟨b', p, joined', rfl⟩ := (listed entry).mp member
        rw [Subtype.ext same, joined] at joined'
        cases joined'
      rw [composedOf_of_notMem absent]
      rfl

/-! ## The last starter -/

theorem primary_val_pos {a b p : Scalar} (joined : ucd.primary a b = some p) : p.val ≠ 0 := by
  intro nul
  have mapped := (ucd.primary_eq_some.mp joined).1
  rw [ucd.nul_unmapped nul] at mapped
  cases mapped

/-- Seeking back is the search for a starter the codepoint composes with. -/
theorem seekBack_eq (agrees : Agrees ucd tables) (c : Scalar) (done : List Scalar) :
    seekBack tables c.val (ucd.ccc c) (scalarValues done) =
      .ok ((absorb ucd.ccc ucd.primary c done).map scalarValues) := by
  induction done with
  | nil => rfl
  | cons b before inductionHypothesis =>
      have found := normComposeCp_eq agrees b c
      rw [scalarValues_cons, seekBack, getProp_scalar, Exec.ok_bind, ← bind_assoc, found,
        Exec.ok_bind, agrees.ccc, absorb]
      cases joined : ucd.primary b c with
      | some p =>
          have starter := (ucd.primary_eq_some.mp joined).2.2
          rw [if_pos starter]
          simp [primary_val_pos joined]
      | none =>
          by_cases starter : ucd.ccc b = 0
          · simp [starter]
          · by_cases below : ucd.ccc b < ucd.ccc c
            · have passes : ¬ (ucd.ccc b = 0 ∨ ucd.ccc b ≥ ucd.ccc c) := by omega
              rw [if_neg starter, if_pos below]
              simp only [Option.map_none, Option.getD_none, ne_eq, not_true_eq_false, if_false,
                if_neg passes, inductionHypothesis, Exec.ok_bind, Exec.pure_eq_ok]
              cases absorb ucd.ccc ucd.primary c before <;> rfl
            · have stops : ucd.ccc b = 0 ∨ ucd.ccc b ≥ ucd.ccc c := .inr (by omega)
              rw [if_neg starter, if_neg below]
              simp [stops]

/-- A codepoint that makes no syllable with the one in front of it composes as a
primary composite only. -/
theorem composeStep_primary {c : Scalar} {done : List Scalar}
    (noSyllable : ∀ b ∈ done.head?, hangulComposite b c = none) :
    composeStep ucd.ccc ucd.composite done c = composeStep ucd.ccc ucd.primary done c := by
  have same : ∀ done : List Scalar, (∀ b ∈ done, ucd.ccc b = 0 → hangulComposite b c = none) →
      absorb ucd.ccc ucd.composite c done = absorb ucd.ccc ucd.primary c done := by
    intro done alone
    induction done with
    | nil => rfl
    | cons b before inductionHypothesis =>
        obtain ⟨first, later⟩ := List.forall_mem_cons.mp alone
        rw [absorb, absorb, inductionHypothesis later]
        by_cases starter : ucd.ccc b = 0
        · rw [if_pos starter, if_pos starter, Ucd.composite, first starter, Option.none_or]
        · rw [if_neg starter, if_neg starter]
  rw [composeStep, composeStep]
  by_cases starter : ucd.ccc c = 0
  · -- a starter composes with its neighbour only
    cases done with
    | nil => rfl
    | cons b before =>
        have alone := noSyllable b rfl
        rw [absorb, absorb, Ucd.composite, alone, Option.none_or, starter]
        simp
  · have nothing : ∀ b, hangulComposite b c = none := by
      intro b
      cases joined : hangulComposite b c with
      | none => rfl
      | some p =>
          have hangul : IsHangul c.val := by
            rcases hangulComposite_eq_some joined with ⟨-, vowel, -⟩ | ⟨-, trailing, -⟩
            · exact .inr (.inr (.inl vowel))
            · exact .inr (.inr (.inr trailing))
          exact absurd (ucd.hangul_ccc hangul) starter
    rw [same done fun b _ _ => nothing b]

/-! ## One round -/

theorem intPred_small {i : Nat} (small : i < 2 ^ 31) : intPred i = .ok ((i : Int) - 1) := by
  have narrowed : Int.bmod i (2 ^ 32) = i := Int.bmod_eq_of_le (by omega) (by omega)
  have inRange : ¬ (i : Int) = -(2 ^ 31) := by omega
  unfold intPred
  rw [narrowed]
  exact if_neg inRange

theorem normComposeRound_eq (agrees : Agrees ucd tables) (c : Scalar) {done : List Scalar}
    (small : done.length < 2 ^ 31) :
    normComposeRound tables (scalarValues done) c.val =
      .ok (scalarValues (composeStep ucd.ccc ucd.primary done c)) := by
  have index := intPred_small small
  rw [normComposeRound, getProp_scalar, Exec.ok_bind, scalarValues_length, index, Exec.ok_bind]
  cases done with
  | nil => simp [composeStep, absorb]
  | cons b before =>
      have notNegative : ¬ ((b :: before).length : Int) - 1 < 0 := by
        rw [List.length_cons]
        omega
      have whole : (b :: before).length - 1 - (((b :: before).length : Int) - 1).toNat = 0 := by
        omega
      simp only [if_neg notNegative, whole, List.drop_zero, List.take_zero, agrees.ccc,
        seekBack_eq agrees, composeStep, Exec.ok_bind]
      cases absorb ucd.ccc ucd.primary c (b :: before) <;> rfl

/-- At the first index outside the range of `int` the round is undefined. -/
theorem normComposeRound_limit (tables : UcbUcNormTables) (c : Scalar) {done : List Scalar}
    (limit : done.length = 2 ^ 31) :
    normComposeRound tables (scalarValues done) c.val = .undefined := by
  have undefined : intPred (2 ^ 31) = .undefined := by decide
  rw [normComposeRound, getProp_scalar, Exec.ok_bind, scalarValues_length, limit, undefined]
  rfl

/-! ## The loop -/

/-- Behind this composed text, last codepoint first, the loop handles `c`: its index
is an `int`, or `c` goes on with a syllable. -/
def FitsAt (done : List Scalar) (c : Scalar) : Prop :=
  done.length < 2 ^ 31 ∨ ∃ last ∈ done.head?, (hangulComposite last c).isSome = true

/-- The loop of `norm_compose` handles every codepoint of a decomposed text: fewer
than `2 ^ 31` codepoints are left of what stands in front of it, unless it goes on
with a syllable. -/
def IndexFits (ucd : Ucd) (cps : List Scalar) : Prop :=
  ∀ front c rest, cps = front ++ c :: rest → FitsAt (ucd.compose front).reverse c

/-- `IndexFits` for the rest of a text behind a composed front. -/
def FitsFrom (ucd : Ucd) (done cps : List Scalar) : Prop :=
  ∀ front c rest, cps = front ++ c :: rest →
    FitsAt (composeRev ucd.ccc ucd.composite done front) c

theorem fitsFrom_nil (ucd : Ucd) (done : List Scalar) : FitsFrom ucd done [] := by
  intro front c rest split
  simp at split

theorem fitsFrom_cons {done : List Scalar} {c : Scalar} {rest : List Scalar} :
    FitsFrom ucd done (c :: rest) ↔
      FitsAt done c ∧ FitsFrom ucd (composeStep ucd.ccc ucd.composite done c) rest := by
  constructor
  · intro fits
    refine ⟨fits [] c rest rfl, ?_⟩
    intro front d tail split
    have later := fits (c :: front) d tail (by rw [split, List.cons_append])
    rwa [composeRev_cons] at later
  · rintro ⟨first, later⟩ front d tail split
    cases front with
    | nil =>
        obtain ⟨rfl, rfl⟩ := List.cons.inj split
        exact first
    | cons b front =>
        obtain ⟨rfl, restEq⟩ := List.cons.inj split
        exact later front d tail restEq

/-- No syllable of two jamo is left open in front of a trailing jamo. -/
def Closed (done rest : List Scalar) : Prop :=
  ∀ s ∈ done.head?, IsLvSyllable s.val → ∀ t ∈ rest.head?, ¬ IsTrailingJamo t.val

theorem closed_of_not_syllable {s : Scalar} (noSyllable : ¬ IsHangulSyllable s.val)
    (before rest : List Scalar) : Closed (s :: before) rest := by
  intro first isFirst syllable
  obtain rfl := Option.some.inj isFirst
  exact absurd syllable.1 noSyllable

/-- What a round leaves in front is no syllable. -/
theorem closed_composeStep {done : List Scalar} {c : Scalar} (noSyllable : ¬ IsHangulSyllable c.val)
    (rest : List Scalar) : Closed (composeStep ucd.ccc ucd.primary done c) rest := by
  rcases composeStep_cases ucd.ccc ucd.primary done c with
    appended | ⟨between, starter, before, p, rfl, _, lower, joined, composed⟩
  · rw [appended]
    exact closed_of_not_syllable noSyllable done rest
  · rw [composed]
    cases between with
    | nil =>
        have mapped := (ucd.primary_eq_some.mp joined).1
        exact closed_of_not_syllable (Ucd.mapped_not_syllable mapped) before rest
    | cons b between =>
        have mark := (lower b (List.mem_cons_self ..)).1
        apply closed_of_not_syllable
        intro syllable
        have := ucd.hangul_ccc (.inl syllable)
        omega

/-- A composite of jamo replaces the codepoint in front. -/
theorem composeStep_hangul {last c p : Scalar} (joined : hangulComposite last c = some p)
    (before : List Scalar) :
    composeStep ucd.ccc ucd.composite (last :: before) c = p :: before := by
  have hangul : IsHangul last.val := by
    rcases hangulComposite_eq_some joined with ⟨leading, -⟩ | ⟨syllable, -⟩
    · exact .inr (.inl leading)
    · exact .inl syllable.1
  have composed : ucd.composite last c = some p := by
    rw [Ucd.composite, joined]
    rfl
  have none : ∀ b ∈ ([] : List Scalar), 0 < ucd.ccc b ∧ ucd.ccc b < ucd.ccc c := nofun
  exact composeStep_composes (ucd.hangul_ccc hangul) none composed

theorem composeHangul_trailing {l v t : Nat} (trailing : IsTrailingJamo t) :
    composeHangul l v t = composeHangul l v 0 + (t - 0x11A7) := by
  unfold IsTrailingJamo at trailing
  have present : t ≠ 0 := by omega
  simp [composeHangul, present]

/-- The outcome of composing the rest of a text behind a composed front: the composed
text, or undefined when the index leaves its range. -/
def ComposesTo (ucd : Ucd) (done rest : List Scalar) (run : Exec (List Nat)) : Prop :=
  (FitsFrom ucd done rest →
    run = .ok (scalarValues (composeRev ucd.ccc ucd.composite done rest))) ∧
  (¬ FitsFrom ucd done rest → run = .undefined)

theorem ComposesTo.nil (ucd : Ucd) (done : List Scalar) :
    ComposesTo ucd done [] (.ok (scalarValues done)) :=
  ⟨fun _ => rfl, fun leaves => absurd (fitsFrom_nil ucd done) leaves⟩

theorem ComposesTo.cons {done rest : List Scalar} {c : Scalar} {run : Exec (List Nat)}
    (fits : FitsAt done c)
    (later : ComposesTo ucd (composeStep ucd.ccc ucd.composite done c) rest run) :
    ComposesTo ucd done (c :: rest) run := by
  rw [ComposesTo, fitsFrom_cons, composeRev_cons]
  exact ⟨fun both => later.1 both.2, fun leaves => later.2 fun rest => leaves ⟨fits, rest⟩⟩

theorem ComposesTo.stop {done : List Scalar} {c : Scalar} (leaves : ¬ FitsAt done c)
    (rest : List Scalar) : ComposesTo ucd done (c :: rest) .undefined := by
  rw [ComposesTo, fitsFrom_cons]
  exact ⟨fun both => absurd both.1 leaves, fun _ => rfl⟩

/-- The loop composes what is left of a decomposed text. -/
theorem normComposeLoop_composes (agrees : Agrees ucd tables) (count : Nat) :
    ∀ {rest done : List Scalar}, rest.length ≤ count → (∀ c ∈ rest, ¬ IsHangulSyllable c.val) →
      Closed done rest → done.length ≤ 2 ^ 31 →
      ComposesTo ucd done rest
        (normComposeLoop tables (scalarValues done) (scalarValues rest)) := by
  induction count with
  | zero =>
      intro rest done short _ _ _
      obtain rfl := List.eq_nil_of_length_eq_zero (Nat.le_zero.mp short)
      rw [scalarValues_nil, normComposeLoop]
      exact ComposesTo.nil ucd done
  | succ count inductionHypothesis =>
      intro rest done short noSyllable isClosed limit
      cases rest with
      | nil =>
          rw [scalarValues_nil, normComposeLoop]
          exact ComposesTo.nil ucd done
      | cons c rest =>
          obtain ⟨single, later⟩ := List.forall_mem_cons.mp noSyllable
          have shorter : rest.length ≤ count := by
            rw [List.length_cons] at short
            omega
          cases done with
          | nil =>
              have start := inductionHypothesis shorter later
                (closed_of_not_syllable single [] rest) (by rw [List.length_singleton]; omega)
              rw [scalarValues_cons, scalarValues_nil, normComposeLoop]
              exact ComposesTo.cons (.inl (by rw [List.length_nil]; omega)) start
          | cons last before =>
              rw [scalarValues_cons, scalarValues_cons, normComposeLoop.eq_def]
              dsimp only
              split
              next jamo =>
                obtain ⟨p, joined, value, open'⟩ := hangulComposite_jamo jamo.1 jamo.2
                have goesOn : FitsAt (last :: before) c := .inr ⟨last, rfl, by rw [joined]; rfl⟩
                apply ComposesTo.cons goesOn
                rw [composeStep_hangul joined, ← value]
                cases rest with
                | nil => exact ComposesTo.nil ucd (p :: before)
                | cons t rest =>
                    rw [scalarValues_cons]
                    dsimp only
                    split
                    next trailing =>
                      obtain ⟨q, joined', value', syllable, notOpen⟩ :=
                        hangulComposite_trailing open' trailing
                      have goesOn' : FitsAt (p :: before) t :=
                        .inr ⟨p, rfl, by rw [joined']; rfl⟩
                      apply ComposesTo.cons goesOn'
                      rw [composeStep_hangul joined', composeHangul_trailing trailing, ← value,
                        ← value']
                      apply inductionHypothesis
                      · rw [List.length_cons] at shorter
                        omega
                      · exact (List.forall_mem_cons.mp later).2
                      · intro first isFirst syllable'
                        obtain rfl := Option.some.inj isFirst
                        exact absurd syllable' notOpen
                      · simpa using limit
                    next notTrailing =>
                      apply inductionHypothesis shorter later
                      · intro first _ _ t' isNext
                        obtain rfl := Option.some.inj isNext
                        exact notTrailing
                      · simpa using limit
              next noJamo =>
                have alone : hangulComposite last c = none := by
                  rw [hangulComposite, dif_neg noJamo, dif_neg]
                  rintro ⟨open', trailing⟩
                  exact isClosed last rfl open' c rfl trailing
                have noSyllable' : ∀ b ∈ (last :: before).head?, hangulComposite b c = none := by
                  intro b isFirst
                  obtain rfl := Option.some.inj isFirst
                  exact alone
                by_cases small : (last :: before).length < 2 ^ 31
                · have round := normComposeRound_eq agrees c small
                  rw [scalarValues_cons] at round
                  rw [round, Exec.ok_bind]
                  apply ComposesTo.cons (.inl small)
                  rw [composeStep_primary noSyllable']
                  have grows : (composeStep ucd.ccc ucd.primary (last :: before) c).length ≤
                      (last :: before).length + 1 := composeStep_length_le _ c
                  exact inductionHypothesis shorter later (closed_composeStep single rest)
                    (by omega)
                · have round := normComposeRound_limit tables c
                    (show (last :: before).length = 2 ^ 31 by omega)
                  rw [scalarValues_cons] at round
                  rw [round, Exec.undefined_bind]
                  apply ComposesTo.stop
                  rintro (fits | ⟨b, isFirst, joined⟩)
                  · exact small fits
                  · rw [noSyllable' b isFirst] at joined
                    cases joined

theorem indexFits_iff {cps : List Scalar} : IndexFits ucd cps ↔ FitsFrom ucd [] cps := by
  simp only [IndexFits, FitsFrom, Ucd.compose, composition, List.reverse_reverse]

/-- `norm_compose` is canonical composition as long as its index fits. -/
theorem normCompose_eq (agrees : Agrees ucd tables) {cps : List Scalar}
    (noSyllable : ∀ c ∈ cps, ¬ IsHangulSyllable c.val) (fits : IndexFits ucd cps) :
    normCompose tables (scalarValues cps) = .ok (scalarValues (ucd.compose cps)) := by
  have run := normComposeLoop_composes agrees cps.length (Nat.le_refl _) noSyllable
    (show Closed [] cps from nofun) (Nat.zero_le _)
  have composed := run.1 (indexFits_iff.mp fits)
  rw [scalarValues_nil] at composed
  rw [normCompose, composed, Ucd.compose, composition, scalarValues, scalarValues, List.map_reverse]
  rfl

theorem normCompose_undefined (agrees : Agrees ucd tables) {cps : List Scalar}
    (noSyllable : ∀ c ∈ cps, ¬ IsHangulSyllable c.val) (leaves : ¬ IndexFits ucd cps) :
    normCompose tables (scalarValues cps) = .undefined := by
  have run := normComposeLoop_composes agrees cps.length (Nat.le_refl _) noSyllable
    (show Closed [] cps from nofun) (Nat.zero_le _)
  have undefined := run.2 fun fits => leaves (indexFits_iff.mpr fits)
  rw [scalarValues_nil] at undefined
  rw [normCompose, undefined]
  rfl

theorem compose_length_le (cps : List Scalar) : (ucd.compose cps).length ≤ cps.length := by
  have grows : ∀ (xs done : List Scalar),
      (composeRev ucd.ccc ucd.composite done xs).length ≤ done.length + xs.length := by
    intro xs
    induction xs with
    | nil => intro done; rfl
    | cons c xs inductionHypothesis =>
        intro done
        have step : (composeStep ucd.ccc ucd.composite done c).length ≤ done.length + 1 :=
          composeStep_length_le done c
        have later := inductionHypothesis (composeStep ucd.ccc ucd.composite done c)
        rw [composeRev_cons, List.length_cons]
        omega
  have whole := grows cps []
  rw [Ucd.compose, composition, List.length_reverse]
  simpa using whole

end Ucb.Unicode
