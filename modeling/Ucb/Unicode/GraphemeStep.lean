import Ucb.Unicode.GraphemeScan

/-!
Contract: stepping through a string cluster by cluster.

Owns:
- stepping back over one codepoint of a valid string;
- what the three backward scans recover from the text before a position;
- that at a boundary the rebuilt state scans on like the original one, so that
  `ucb_uc_next_char` visits the positions at which the forward scan breaks.
-/

namespace Ucb.Unicode

open Ucb.Lib

/-! ## Stepping back over a codepoint -/

/-- Only the first byte of a code word is not a continuation byte. -/
theorem CodeWord.eq_lead_cons {cp : Nat} {bytes : List UInt8} (word : CodeWord cp bytes) :
    ∃ lead tail, bytes = lead :: tail ∧ ¬ lead.toNat &&& 0xC0 = 0x80 ∧
      ∀ byte ∈ tail, byte.toNat &&& 0xC0 = 0x80 := by
  have continuation (byte : UInt8) : byte.toNat &&& 0xC0 = 0x80 ↔
      128 ≤ byte.toNat ∧ byte.toNat < 192 := continuation_iff byte.toNat byte.toNat_lt
  cases word with
  | one b0 lead small =>
      refine ⟨b0, [], rfl, ?_, by simp⟩
      rw [continuation]
      omega
  | two b0 b1 lead tail1 low high =>
      refine ⟨b0, [b1], rfl, ?_, ?_⟩
      · rw [continuation]
        omega
      · simp only [continuation, List.mem_singleton, forall_eq]
        omega
  | three b0 b1 b2 lead tail1 tail2 low high scalar =>
      refine ⟨b0, [b1, b2], rfl, ?_, ?_⟩
      · rw [continuation]
        omega
      · simp only [continuation, List.mem_cons, List.not_mem_nil, or_false, forall_eq_or_imp,
          forall_eq]
        omega
  | four b0 b1 b2 b3 lead tail1 tail2 tail3 low high =>
      refine ⟨b0, [b1, b2, b3], rfl, ?_, ?_⟩
      · rw [continuation]
        omega
      · simp only [continuation, List.mem_cons, List.not_mem_nil, or_false, forall_eq_or_imp,
          forall_eq]
        omega

theorem encodeScalar_eq_lead_cons (cp : Scalar) :
    ∃ lead tail, encodeScalar cp = lead :: tail ∧ ¬ lead.toNat &&& 0xC0 = 0x80 ∧
      ∀ byte ∈ tail, byte.toNat &&& 0xC0 = 0x80 :=
  (codeWord_encodeScalar cp).eq_lead_cons

/-- The step back ends at the lead byte in front of continuation bytes. -/
theorem stepBack_lead (before : List UInt8) {lead : UInt8} (notTail : ¬ lead.toNat &&& 0xC0 = 0x80)
    (tail after : List UInt8) (areTail : ∀ byte ∈ tail, byte.toNat &&& 0xC0 = 0x80) :
    ∀ count ≤ tail.length,
      stepBack (before ++ (lead :: tail ++ after)) (before.length + count) = .ok before.length := by
  intro count
  induction count with
  | zero =>
      intro _
      have load : byteAt (before ++ (lead :: tail ++ after)) before.length = .ok lead.toNat :=
        byteAt_of_getElem? (by simp)
      cases length : before.length with
      | zero => rfl
      | succ pos =>
          rw [length] at load
          rw [Nat.add_zero, stepBack, load, Exec.ok_bind, if_neg notTail]
          rfl
  | succ count inductionHypothesis =>
      intro inside
      have found : (before ++ (lead :: tail ++ after))[before.length + count + 1]? =
          some (tail.get ⟨count, inside⟩) := by
        rw [List.getElem?_append_right (by omega)]
        have index : before.length + count + 1 - before.length = count + 1 := by omega
        rw [index, List.cons_append, List.getElem?_cons_succ, List.getElem?_append_left inside]
        simp
      have isTail := areTail (tail.get ⟨count, inside⟩) (List.get_mem _ _)
      rw [← Nat.add_assoc, stepBack, byteAt_of_getElem? found, Exec.ok_bind, if_pos isTail]
      exact inductionHypothesis (by omega)

theorem prevStart_at (before : List UInt8) (cp : Scalar) (after : List UInt8) :
    ucbUcPrevStart (before ++ (encodeScalar cp ++ after))
      (before.length + (encodeScalar cp).length) = .ok before.length := by
  obtain ⟨lead, tail, word, notTail, areTail⟩ := encodeScalar_eq_lead_cons cp
  rw [word, List.length_cons, ← Nat.add_assoc, ucbUcPrevStart]
  exact stepBack_lead before notTail tail after areTail tail.length (Nat.le_refl _)

/-- The backward loop runs its body over the preceding text, last codepoint
first. -/
theorem graphemeBackLoop_encode {σ ρ : Type} (tables : UcbUcTables)
    (body : σ → UcbUcProp → Except ρ σ) (cps : List Scalar) :
    ∀ (after : List UInt8) (fuel : Nat) (var : σ), (encode cps).length < fuel →
      graphemeBackLoop tables (encode cps ++ after) body fuel (encode cps).length var =
        .ok ((textOf tables cps).reverse.foldlM body var) := by
  induction cps using List.reverseRecOn with
  | nil =>
      intro after fuel var enough
      obtain ⟨fuel, rfl⟩ := Nat.exists_eq_succ_of_ne_zero (Nat.ne_of_gt enough)
      rfl
  | append_singleton cps cp inductionHypothesis =>
      intro after fuel var enough
      obtain ⟨fuel, rfl⟩ := Nat.exists_eq_succ_of_ne_zero (Nat.ne_of_gt (Nat.zero_lt_of_lt enough))
      have positive := encodeScalar_length_pos cp
      have width : (encode (cps ++ [cp])).length =
          (encode cps).length + (encodeScalar cp).length := by simp
      have whole : encode (cps ++ [cp]) ++ after = encode cps ++ (encodeScalar cp ++ after) := by
        simp
      have inside : 0 < (encode cps).length + (encodeScalar cp).length := by omega
      rw [whole, width, graphemeBackLoop, if_pos inside, prevStart_at, Exec.ok_bind, propAt_at,
        Exec.ok_bind, textOf_append, List.reverse_append, textOf_cons, textOf_nil,
        List.reverse_singleton, List.singleton_append, List.foldlM_cons]
      dsimp only
      cases body var (tables.propOf cp) with
      | error result => rfl
      | ok next => exact inductionHypothesis (encodeScalar cp ++ after) fuel next (by omega)

/-! ## The rebuilt state -/

theorem foldlM_reverse_concat {σ ρ : Type} (body : σ → UcbUcProp → Except ρ σ)
    (text : List UcbUcProp) (prop : UcbUcProp) (var : σ) :
    (text ++ [prop]).reverse.foldlM body var =
      body var prop >>= fun next => text.reverse.foldlM body next := by
  rw [List.reverse_append, List.reverse_singleton, List.singleton_append, List.foldlM_cons]

theorem riScan (text : List UcbUcProp) (odd : Bool) :
    ∃ result, (text.reverse.foldlM riStep odd = .ok result ∨
        text.reverse.foldlM riStep odd = .error result) ∧
      (result = true ↔ (odd = true ↔ ¬ EndsInOddRun UcbUcProp.IsRegionalIndicator text)) := by
  induction text using List.reverseRecOn generalizing odd with
  | nil => exact ⟨odd, .inl rfl, by simp [not_endsInOddRun_nil]⟩
  | append_singleton text prop inductionHypothesis =>
      rw [endsInOddRun_concat, foldlM_reverse_concat, riStep, UcbUcProp.IsRegionalIndicator]
      by_cases isRi : prop.gcb = .regionalIndicator
      · obtain ⟨result, scan, parity⟩ := inductionHypothesis (!odd)
        rw [if_neg (not_not_intro isRi)]
        refine ⟨result, scan, parity.trans ?_⟩
        cases odd <;> simp [isRi]
      · rw [if_pos isRi]
        exact ⟨odd, .inr rfl, by simp [isRi]⟩

theorem riOddAt_encode (tables : UcbUcTables) (cps : List Scalar) (after : List UInt8) :
    ∃ odd, riOddAt tables (encode cps ++ after) (encode cps).length = .ok odd ∧
      (odd = true ↔ EndsInOddRun UcbUcProp.IsRegionalIndicator (textOf tables cps)) := by
  obtain ⟨odd, scan, parity⟩ := riScan (textOf tables cps) false
  refine ⟨odd, ?_, by simpa using parity⟩
  rw [riOddAt, graphemeBackLoop_encode _ _ _ _ _ _ (Nat.lt_succ_self _), Exec.ok_bind]
  rcases scan with scan | scan <;> rw [scan] <;> rfl

theorem gb11Scan (text : List UcbUcProp) :
    (text.reverse.foldlM gb11Step () = .error 3 ∧ EndsInPictograph text) ∨
      ((text.reverse.foldlM gb11Step () = .ok () ∨ text.reverse.foldlM gb11Step () = .error 0) ∧
        ¬ EndsInPictograph text) := by
  induction text using List.reverseRecOn with
  | nil => exact .inr ⟨.inl rfl, not_endsIn_nil _ _⟩
  | append_singleton text prop inductionHypothesis =>
      rw [endsInPictograph_concat, foldlM_reverse_concat, gb11Step]
      by_cases pictograph : prop.extpict = true
      · exact .inl ⟨by rw [if_pos pictograph]; rfl, .inl pictograph⟩
      · rw [if_neg pictograph]
        by_cases extends_ : prop.gcb = .extend
        · rw [if_neg (not_not_intro extends_), or_iff_right pictograph, and_iff_right extends_]
          exact inductionHypothesis
        · rw [if_pos extends_]
          exact .inr ⟨.inr rfl, by simp [pictograph, extends_]⟩

theorem gb11At_encode (tables : UcbUcTables) (cps : List Scalar) (after : List UInt8) :
    ∃ gb11, gb11At tables (encode cps ++ after) (encode cps).length = .ok gb11 ∧
      (gb11 = 0 ∨ gb11 = 3) ∧ (gb11 = 3 ↔ EndsInJoinedPictograph (textOf tables cps)) := by
  rcases List.eq_nil_or_concat' cps with rfl | ⟨cps, joiner, rfl⟩
  · refine ⟨0, rfl, .inl rfl, ?_⟩
    simp [EndsInJoinedPictograph]
  · have positive := encodeScalar_length_pos joiner
    have width : (encode (cps ++ [joiner])).length =
        (encode cps).length + (encodeScalar joiner).length := by simp
    have whole :
        encode (cps ++ [joiner]) ++ after = encode cps ++ (encodeScalar joiner ++ after) := by
      simp
    have inside : 0 < (encode cps).length + (encodeScalar joiner).length := by omega
    rw [textOf_append, textOf_cons, textOf_nil, endsInJoinedPictograph_concat, whole, width, gb11At,
      if_pos inside, prevStart_at, Exec.ok_bind, propAt_at, Exec.ok_bind]
    dsimp only
    by_cases isJoiner : (tables.propOf joiner).gcb = .zwj
    · rw [if_pos isJoiner, graphemeBackLoop_encode _ _ _ _ _ _ (Nat.lt_succ_self _)]
      rcases gb11Scan (textOf tables cps) with ⟨scan, found⟩ | ⟨scan | scan, absent⟩ <;> rw [scan]
      · exact ⟨3, rfl, .inr rfl, by simp [isJoiner, found]⟩
      · exact ⟨0, rfl, .inl rfl, by simp [absent]⟩
      · exact ⟨0, rfl, .inl rfl, by simp [absent]⟩
    · rw [if_neg isJoiner]
      exact ⟨0, rfl, .inl rfl, by simp [isJoiner]⟩

def incbOutcome : Except (Bool × Bool) Bool → Bool × Bool
  | .ok _ => (false, false)
  | .error incb => incb

/-- The scan for a conjunct; `linker` tells whether a linker lies further right. -/
theorem incbScan (text : List UcbUcProp) (linker : Bool) :
    ((incbOutcome (text.reverse.foldlM incbStep linker)).1 = true ↔ EndsInConjunct text) ∧
      ((incbOutcome (text.reverse.foldlM incbStep linker)).2 = true ↔
        EndsInConjunct text ∧ (linker = true ∨ EndsInLinkedConjunct text)) := by
  induction text using List.reverseRecOn generalizing linker with
  | nil =>
      simp [incbOutcome, EndsInConjunct, not_endsIn_nil, pure, Except.pure]
  | append_singleton text prop inductionHypothesis =>
      rw [endsInConjunct_concat, endsInLinkedConjunct_concat, UcbUcProp.IsConjunctMark,
        foldlM_reverse_concat, incbStep]
      cases incb : prop.incb with
      | linker =>
          have rest := inductionHypothesis true
          refine ⟨rest.1.trans (by simp), rest.2.trans ?_⟩
          simp only [reduceCtorEq, or_true, true_and, false_or, true_or, and_true]
          tauto
      | extend =>
          have rest := inductionHypothesis linker
          exact ⟨rest.1.trans (by simp), rest.2.trans (by simp)⟩
      | consonant => simp [incbOutcome, bind, Except.bind]
      | none => simp [incbOutcome, bind, Except.bind]

theorem incbAt_encode (tables : UcbUcTables) (cps : List Scalar) (after : List UInt8) :
    ∃ incb, incbAt tables (encode cps ++ after) (encode cps).length = .ok incb ∧
      (incb.1 = true ↔ EndsInConjunct (textOf tables cps)) ∧
      (incb.2 = true ↔ EndsInLinkedConjunct (textOf tables cps)) := by
  obtain ⟨inConjunct, linked⟩ := incbScan (textOf tables cps) false
  refine ⟨_, ?_, inConjunct, linked.trans ?_⟩
  · rw [incbAt, graphemeBackLoop_encode _ _ _ _ _ _ (Nat.lt_succ_self _), Exec.ok_bind]
    cases (textOf tables cps).reverse.foldlM incbStep false with
    | ok _ => rfl
    | error _ => rfl
  · exact ⟨fun both => by simpa using both.2,
      fun seen => ⟨endsInConjunct_of_linked seen, .inr seen⟩⟩

/-- What the rebuilt state says about the text before its position. -/
structure Rebuilt (st : UcbUcGraphemeState) (text : List UcbUcProp) : Prop where
  gb11 : st.gb11 = 0 ∨ st.gb11 = 3
  joined : st.gb11 = 3 ↔ EndsInJoinedPictograph text
  riOdd : st.riOdd = true ↔ EndsInOddRun UcbUcProp.IsRegionalIndicator text
  incbSeq : st.incbSeq = true ↔ EndsInConjunct text
  incbLinker : st.incbLinker = true ↔ EndsInLinkedConjunct text

theorem stateAt_encode (tables : UcbUcTables) (cps : List Scalar) (after : List UInt8) :
    ∃ st, ucbUcGraphemeStateAt tables (encode cps ++ after) (encode cps).length = .ok st ∧
      Rebuilt st (textOf tables cps) := by
  cases cps with
  | nil =>
      exact ⟨.zero, rfl, .inl rfl, tracks_zero.joined, tracks_zero.riOdd, tracks_zero.incbSeq,
        tracks_zero.incbLinker⟩
  | cons cp rest =>
      obtain ⟨odd, riOdd, parity⟩ := riOddAt_encode tables (cp :: rest) after
      obtain ⟨gb11, scan, range, joined⟩ := gb11At_encode tables (cp :: rest) after
      obtain ⟨incb, conjunct, incbSeq, incbLinker⟩ := incbAt_encode tables (cp :: rest) after
      have nonzero : ¬ (encode (cp :: rest)).length = 0 :=
        Nat.ne_of_gt (encode_cons_ne_nil cp rest)
      refine ⟨⟨odd, gb11, incb.1, incb.2⟩, ?_, range, joined, parity, incbSeq, incbLinker⟩
      rw [ucbUcGraphemeStateAt, if_neg nonzero, riOdd, Exec.ok_bind, scan, Exec.ok_bind, conjunct]
      rfl

/-! ## Scanning on from a boundary -/

/-- Properties as the UCD assigns them: a pictograph belongs to no other
cluster class. -/
structure UcbUcProp.UcdConsistent (prop : UcbUcProp) : Prop where
  pictograph : prop.extpict = true → prop.gcb = .other
  conjunct : prop.IsConjunctMark → prop.gcb = .extend ∨ prop.gcb = .zwj

/-- Every scalar value has properties as in the UCD. -/
def UcbUcTables.UcdConsistent (tables : UcbUcTables) : Prop :=
  ∀ cp, (tables.propOf cp).UcdConsistent

theorem UcbUcTables.UcdConsistent.consistent {tables : UcbUcTables}
    (ucd : tables.UcdConsistent) : tables.Consistent := by
  intro cp
  refine ⟨fun pictograph => ?_, (ucd cp).conjunct⟩
  simp [(ucd cp).pictograph pictograph]

/-- A cluster starts with an extender or a joiner only after a control. -/
theorem control_of_break_before_extender {st : UcbUcGraphemeState} {last next : UcbUcProp}
    (breaks : breaksBetween st last next = true) (extender : next.gcb = .extend ∨ next.gcb = .zwj) :
    last.gcb = .control ∨ last.gcb = .cr ∨ last.gcb = .lf := by
  by_contra notControl
  unfold breaksBetween ucbUcGraphemeShouldBreak at breaks
  rw [if_neg notControl] at breaks
  rcases extender with isNext | isNext <;> simp [isNext] at breaks

/-- The rebuilt state forgets a pictograph that no joiner follows. Across a
break this makes no difference to the next codepoint. -/
theorem updateBy_rebuilt {st : UcbUcGraphemeState} {text : List UcbUcProp}
    {last next : UcbUcProp} (rebuilt : Rebuilt st (text ++ [last]))
    (tracks : Tracks (stateAfter (text ++ [last])) (text ++ [last]))
    (pictograph : last.extpict = true → last.gcb = .other)
    (breaks : breaksBetween (stateAfter (text ++ [last])) last next = true) :
    updateBy st next = updateBy (stateAfter (text ++ [last])) next := by
  have riOdd : st.riOdd = (stateAfter (text ++ [last])).riOdd :=
    Bool.eq_iff_iff.mpr (rebuilt.riOdd.trans tracks.riOdd.symm)
  have incbSeq : st.incbSeq = (stateAfter (text ++ [last])).incbSeq :=
    Bool.eq_iff_iff.mpr (rebuilt.incbSeq.trans tracks.incbSeq.symm)
  have incbLinker : st.incbLinker = (stateAfter (text ++ [last])).incbLinker :=
    Bool.eq_iff_iff.mpr (rebuilt.incbLinker.trans tracks.incbLinker.symm)
  have notStarted : ¬ (st.gb11 = 1 ∨ st.gb11 = 2) := by
    have range := rebuilt.gb11
    omega
  have afterControl : next.gcb = .extend ∨ next.gcb = .zwj →
      ¬ ((stateAfter (text ++ [last])).gb11 = 1 ∨ (stateAfter (text ++ [last])).gb11 = 2) := by
    intro extender started
    rw [tracks.pictograph, endsInPictograph_concat] at started
    have control := control_of_break_before_extender breaks extender
    rcases started with isPictograph | ⟨isExtend, -⟩
    · simp [pictograph isPictograph] at control
    · simp [isExtend] at control
  simp only [updateBy, ucbUcGraphemeUpdate, riOdd, incbSeq, incbLinker]
  grind

/-- Iterating `ucb_uc_next_char`: the positions visited until it returns
`UCB_NPOS`. -/
def nextCharWalk (tables : UcbUcTables) (str : List UInt8) (len : Nat) :
    Nat → Nat → Exec (List Nat)
  | 0, _ => .undefined
  | fuel + 1, fromByte => do
      match ← ucbUcNextChar tables str len fromByte with
      | none => pure []
      | some pos => do
          let later ← nextCharWalk tables str len fuel pos
          pure (pos :: later)

/-- A position between two parts of a text at which a cluster starts. -/
def IsBoundary (tables : UcbUcTables) (front : List Scalar) (next : Scalar) : Prop :=
  front = [] ∨ ∃ text last, textOf tables front = text ++ [last] ∧
    breaksBetween (stateAfter (text ++ [last])) last (tables.propOf next) = true

/-- The breaks of the forward scan after the boundary in front of `next`. -/
def breaksAfter (tables : UcbUcTables) (front : List Scalar) (next : Scalar)
    (back : List Scalar) : List Nat :=
  breaksFrom tables (updateBy (stateAfter (textOf tables front)) (tables.propOf next))
    (tables.propOf next) ((encode front).length + (encodeScalar next).length) back

/-- From a boundary `ucb_uc_next_char` finds the next break of the forward scan. -/
theorem nextChar_boundary (tables : UcbUcTables) (ucd : tables.UcdConsistent)
    {front : List Scalar} {next : Scalar} (boundary : IsBoundary tables front next)
    (back : List Scalar) :
    ucbUcNextChar tables (encode (front ++ next :: back)) (encode (front ++ next :: back)).length
        (encode front).length =
      .ok (breaksAfter tables front next back).head? := by
  have positive := encode_cons_ne_nil next back
  have inside : ¬ (encode front).length ≥
      (encode front).length + (encode (next :: back)).length := by omega
  obtain ⟨st, rebuild, rebuilt⟩ := stateAt_encode tables front (encode (next :: back))
  have scan := nextFrom_encode tables (encode front) next back [] st
  rw [List.append_nil] at scan
  rw [encode_append, List.length_append, ucbUcNextChar, if_neg inside, rebuild, Exec.ok_bind, scan]
  have same : updateBy st (tables.propOf next) =
      updateBy (stateAfter (textOf tables front)) (tables.propOf next) := by
    rcases boundary with rfl | ⟨text, last, split, breaks⟩
    · have zero : Exec.ok UcbUcGraphemeState.zero = .ok st := rebuild
      rw [← Exec.ok.inj zero]
      rfl
    · have tracks := tracks_stateAfter (textOf tables front)
        (ucd.consistent.noJoinerPictograph front)
      have member : last ∈ textOf tables front := by simp [split]
      obtain ⟨cp, -, rfl⟩ := List.mem_map.mp member
      rw [split] at tracks rebuilt ⊢
      exact updateBy_rebuilt rebuilt tracks (ucd cp).pictograph breaks
  rw [same]
  rfl

/-- The first break of a scan splits the text into a cluster and the rest. -/
theorem breaksFrom_eq_cons (tables : UcbUcTables) {pos : Nat} {later : List Nat}
    (cps : List Scalar) :
    ∀ {st : UcbUcGraphemeState} {prop : UcbUcProp} {offset : Nat},
      breaksFrom tables st prop offset cps = pos :: later →
      ∃ front next back, cps = front ++ next :: back ∧
        pos = offset + (encode front).length ∧
        breaksBetween ((textOf tables front).foldl updateBy st)
          ((textOf tables front).getLastD prop) (tables.propOf next) = true ∧
        later = breaksFrom tables
          (updateBy ((textOf tables front).foldl updateBy st) (tables.propOf next))
          (tables.propOf next) (pos + (encodeScalar next).length) back := by
  induction cps with
  | nil => intro st prop offset found; simp [breaksFrom] at found
  | cons cp rest inductionHypothesis =>
      intro st prop offset found
      by_cases breaks : breaksBetween st prop (tables.propOf cp) = true
      · simp only [breaksFrom, if_pos breaks] at found
        obtain ⟨rfl, rfl⟩ := List.cons.inj found
        exact ⟨[], cp, rest, rfl, rfl, breaks, rfl⟩
      · simp only [breaksFrom, if_neg breaks] at found
        obtain ⟨front, next, back, rfl, rfl, breaks, rfl⟩ := inductionHypothesis found
        refine ⟨cp :: front, next, back, rfl, by simp [Nat.add_assoc], ?_, rfl⟩
        simpa only [textOf_cons, List.foldl_cons, List.getLastD_cons] using breaks

/-- Walking on from a boundary visits the breaks of the forward scan. -/
theorem nextCharWalk_boundary (tables : UcbUcTables) (ucd : tables.UcdConsistent) :
    ∀ (fuel : Nat) (front : List Scalar) (next : Scalar) (back : List Scalar),
      IsBoundary tables front next → back.length < fuel →
      nextCharWalk tables (encode (front ++ next :: back))
          (encode (front ++ next :: back)).length fuel (encode front).length =
        .ok (breaksAfter tables front next back) := by
  intro fuel
  induction fuel with
  | zero => intro _ _ _ _ enough; omega
  | succ fuel inductionHypothesis =>
      intro front next back boundary enough
      rw [nextCharWalk, nextChar_boundary tables ucd boundary, Exec.ok_bind]
      cases found : breaksAfter tables front next back with
      | nil => rfl
      | cons pos later =>
          obtain ⟨cluster, start, rest, rfl, rfl, breaks, rfl⟩ :=
            breaksFrom_eq_cons tables back found
          have state : stateAfter (textOf tables (front ++ next :: cluster)) =
              (textOf tables cluster).foldl updateBy
                (updateBy (stateAfter (textOf tables front)) (tables.propOf next)) := by
            simp [stateAfter]
          have boundaryThere : IsBoundary tables (front ++ next :: cluster) start := by
            rw [← state, textOf_append, textOf_cons] at breaks
            rw [IsBoundary, textOf_append, textOf_cons]
            rcases List.eq_nil_or_concat' (textOf tables cluster) with single | ⟨text, last, more⟩
            · rw [single] at breaks ⊢
              exact .inr ⟨_, _, rfl, breaks⟩
            · rw [more, List.getLastD_concat] at breaks
              refine .inr ⟨textOf tables front ++ tables.propOf next :: text, last,
                by simp [more], ?_⟩
              simpa using breaks
          have width : (encode (front ++ next :: cluster)).length =
              (encode front).length + (encodeScalar next).length + (encode cluster).length := by
            simp [Nat.add_assoc]
          have whole : front ++ next :: (cluster ++ start :: rest) =
              (front ++ next :: cluster) ++ start :: rest := by simp
          have tail := inductionHypothesis (front ++ next :: cluster) start rest boundaryThere
            (by simp only [List.length_append, List.length_cons] at enough; omega)
          rw [breaksAfter, state, width, ← whole] at tail
          simp only [List.head?_cons, tail, Exec.ok_bind]
          rfl

/-- Stepping with `ucb_uc_next_char`, which rebuilds its state at every call,
visits exactly the breaks of the forward scan; `ucb_uc_num_char` counts them
and `ucb_uc_char_index` selects among them. -/
theorem nextCharWalk_spec (tables : UcbUcTables) (ucd : tables.UcdConsistent)
    (cps : List Scalar) :
    ∃ breaks,
      graphemeBreaks tables (encode cps) (encode cps).length = .ok breaks ∧
      nextCharWalk tables (encode cps) (encode cps).length ((encode cps).length + 1) 0 =
        .ok breaks ∧
      ucbUcNumChar tables (encode cps) (some (encode cps).length) =
        .ok (if encode cps = [] then 0 else breaks.length + 1) ∧
      ∀ index ≥ 1, ucbUcCharIndex tables (encode cps) (encode cps).length index =
        .ok (breaks[index - 1]?.getD (encode cps).length) := by
  refine ⟨clusterBreaks tables cps, by simpa using graphemeBreaks_encode tables cps [], ?_, ?_,
    fun index positive => by simpa using charIndex_encode tables cps [] positive⟩
  · cases cps with
    | nil => rfl
    | cons cp rest =>
        have bound := length_le_encode_length (cp :: rest)
        have walk := nextCharWalk_boundary tables ucd ((encode (cp :: rest)).length + 1) [] cp rest
          (.inl rfl) (by rw [List.length_cons] at bound; omega)
        rw [List.nil_append, encode_nil, List.length_nil, breaksAfter, encode_nil, List.length_nil,
          Nat.zero_add] at walk
        exact walk
  · have empty : encode cps = [] ↔ cps = [] := by
      rw [← encode_nil, encode_injective.eq_iff]
    have counted := numChar_encode tables cps []
    rw [List.append_nil] at counted
    simp only [counted, empty]

theorem flagTables_ucdConsistent : flagTables.UcdConsistent := by
  intro cp
  rw [flagTables, uniformTables_propOf]
  exact ⟨by decide, by unfold UcbUcProp.IsConjunctMark; decide⟩

theorem nextCharWalk_flags :
    ∃ breaks,
      graphemeBreaks flagTables (encode [⟨65, by decide⟩, ⟨66, by decide⟩, ⟨67, by decide⟩]) 3 =
        .ok breaks ∧
      nextCharWalk flagTables (encode [⟨65, by decide⟩, ⟨66, by decide⟩, ⟨67, by decide⟩]) 3 4 0 =
        .ok breaks := by
  obtain ⟨breaks, scan, walk, -⟩ := nextCharWalk_spec flagTables flagTables_ucdConsistent
    [⟨65, by decide⟩, ⟨66, by decide⟩, ⟨67, by decide⟩]
  exact ⟨breaks, scan, walk⟩

end Ucb.Unicode
