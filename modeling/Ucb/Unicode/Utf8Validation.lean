import Ucb.Unicode.Utf8Code

/-!
Contract: what the validator accepts, and what iterating over it yields.

Owns:
- the loop `FOR_EACH_CODEPOINT` over an encoded list is a fold over the list;
- the validation loop is the greedy scan of the prefix code `utf8`;
- validation, decoding and counting agree on every byte string.
-/

namespace Ucb.Unicode

open Ucb.Lib

/-- The valid UTF-8 string that encodes `cps`. -/
def encode (cps : List Scalar) : List UInt8 :=
  utf8.encodeAll cps

/-- Valid UTF-8: a concatenation of encoded scalar values. -/
def ValidUtf8 (str : List UInt8) : Prop :=
  ∃ cps, str = encode cps

def scalarValues (cps : List Scalar) : List Nat :=
  cps.map Subtype.val

@[simp] theorem encode_nil : encode [] = [] := rfl

@[simp] theorem encode_cons (cp : Scalar) (rest : List Scalar) :
    encode (cp :: rest) = encodeScalar cp ++ encode rest :=
  utf8.encodeAll_cons cp rest

@[simp] theorem encode_append (left right : List Scalar) :
    encode (left ++ right) = encode left ++ encode right :=
  utf8.encodeAll_append left right

theorem encode_injective : Function.Injective encode :=
  utf8.encodeAll_injective

@[simp] theorem scalarValues_nil : scalarValues [] = [] := rfl

@[simp] theorem scalarValues_cons (cp : Scalar) (rest : List Scalar) :
    scalarValues (cp :: rest) = cp.val :: scalarValues rest := rfl

theorem encodeScalar_length_pos (cp : Scalar) : 0 < (encodeScalar cp).length :=
  utf8.encode_length_pos cp

/-! ## Iterating over an encoded list -/

/-- The loop body of `FOR_EACH_CODEPOINT`, run over a list. -/
def foldCps {σ ρ : Type} (body : σ → Nat → Exec (Except ρ σ)) :
    σ → List Scalar → Exec (Except ρ σ)
  | state, [] => pure (.ok state)
  | state, cp :: rest => do
      match ← body state cp.val with
      | .ok next => foldCps body next rest
      | .error result => pure (.error result)

/-- A body that never leaves the loop folds its step over the list. -/
theorem foldCps_pure {σ ρ : Type} (next : σ → Nat → σ) (state : σ) (cps : List Scalar) :
    foldCps (ρ := ρ) (fun state cp => .ok (.ok (next state cp))) state cps =
      .ok (.ok ((scalarValues cps).foldl next state)) := by
  induction cps generalizing state with
  | nil => rfl
  | cons cp rest inductionHypothesis =>
      simp [foldCps, inductionHypothesis]

/-- Decoding at the boundary in front of `cp`. -/
theorem nextValid_at (before : List UInt8) (cp : Scalar) (after : List UInt8) :
    ucbUcNextValid (before ++ (encodeScalar cp ++ after)) before.length =
      .ok (cp.val, before.length + (encodeScalar cp).length) := by
  rw [nextValid_drop, List.drop_left, nextValid_encodeScalar]
  rfl

theorem iterNext_at (before : List UInt8) (cp : Scalar) (after : List UInt8) {last : Nat}
    (inside : before.length < last) :
    ucbUcIterNext (before ++ (encodeScalar cp ++ after)) last before.length =
      .ok (some (cp.val, before.length + (encodeScalar cp).length)) := by
  rw [ucbUcIterNext, if_neg (by omega), nextValid_at]
  rfl

/-- `FOR_EACH_CODEPOINT` over an encoded list visits its codepoints in order
and ends exactly at the end of the string. -/
theorem forEachCodepoint_encode {σ ρ : Type} (body : σ → Nat → Exec (Except ρ σ))
    (after : List UInt8) (cps : List Scalar) :
    ∀ (before : List UInt8) (fuel : Nat) (state : σ), cps.length < fuel →
      forEachCodepoint (before ++ (encode cps ++ after)) (before ++ encode cps).length body fuel
          before.length state =
        (fun result => result.map (·, (before ++ encode cps).length)) <$>
          foldCps body state cps := by
  induction cps with
  | nil =>
      intro before fuel state enough
      obtain ⟨fuel, rfl⟩ := Nat.exists_eq_succ_of_ne_zero (Nat.ne_of_gt enough)
      simp [forEachCodepoint, ucbUcIterNext, foldCps, Except.map]
  | cons cp rest inductionHypothesis =>
      intro before fuel state enough
      obtain ⟨fuel, rfl⟩ := Nat.exists_eq_succ_of_ne_zero (Nat.ne_of_gt (Nat.zero_lt_of_lt enough))
      have positive := encodeScalar_length_pos cp
      have step := iterNext_at before cp (encode rest ++ after)
        (show before.length < (before ++ encode (cp :: rest)).length by
          rw [encode_cons, List.length_append, List.length_append]
          omega)
      have tail := fun next => inductionHypothesis (before ++ encodeScalar cp) fuel next
        (by simpa using enough)
      simp only [encode_cons, List.length_append, List.append_assoc] at tail step
      simp only [forEachCodepoint, foldCps, encode_cons, List.append_assoc, List.length_append,
        step, Exec.ok_bind]
      cases body state cp.val with
      | abort | undefined => rfl
      | ok next =>
          cases next with
          | error result => rfl
          | ok next => exact tail next

/-- The codepoint count never exceeds the byte count. -/
theorem length_le_encode_length (cps : List Scalar) : cps.length ≤ (encode cps).length := by
  induction cps with
  | nil => simp
  | cons cp rest inductionHypothesis =>
      have positive := encodeScalar_length_pos cp
      simp only [encode_cons, List.length_append, List.length_cons]
      omega

/-- The loop over a valid string at the start of a block, with the fuel its
callers use. -/
theorem forEachCodepoint_front {σ ρ : Type} (body : σ → Nat → Exec (Except ρ σ))
    (cps : List Scalar) (after : List UInt8) (state : σ) :
    forEachCodepoint (encode cps ++ after) (encode cps).length body ((encode cps).length + 1) 0
        state =
      (fun result => result.map (·, (encode cps).length)) <$> foldCps body state cps := by
  have bound := length_le_encode_length cps
  exact forEachCodepoint_encode body after cps [] _ state (by omega)

theorem forEachCodepoint_valid {σ ρ : Type} (body : σ → Nat → Exec (Except ρ σ))
    (cps : List Scalar) (state : σ) :
    forEachCodepoint (encode cps) (encode cps).length body ((encode cps).length + 1) 0 state =
      (fun result => result.map (·, (encode cps).length)) <$> foldCps body state cps := by
  have front := forEachCodepoint_front body cps [] state
  rwa [List.append_nil] at front

/-- The codepoints of `[0, len)` and the position where decoding ended. -/
def decodeAll (str : List UInt8) (len : Nat) : Exec (List Nat × Nat) := do
  let collect (seen : List Nat) (cp : Nat) : Exec (Except Empty (List Nat)) :=
    pure (.ok (seen ++ [cp]))
  match ← forEachCodepoint str len collect (len + 1) 0 [] with
  | .ok (cps, iter) => pure (cps, iter)

theorem decodeAll_encode (cps : List Scalar) :
    decodeAll (encode cps) (encode cps).length =
      .ok (scalarValues cps, (encode cps).length) := by
  simp [decodeAll, forEachCodepoint_valid, foldCps_pure, Except.map]
  exact List.flatMap_singleton' _

theorem numCp_front (cps : List Scalar) (after : List UInt8) :
    ucbUcNumCp (encode cps ++ after) (some (encode cps).length) = .ok cps.length := by
  simp [ucbUcNumCp, resolveLen, forEachCodepoint_front, foldCps_pure, Except.map, scalarValues]

theorem numCp_encode (cps : List Scalar) :
    ucbUcNumCp (encode cps) (some (encode cps).length) = .ok cps.length := by
  have front := numCp_front cps []
  rwa [List.append_nil] at front

/-! ## The validation loop -/

/-- A round of the validator loads nothing at or past the end. -/
theorem validateStep_append (str after : List UInt8) {i : Nat} (inside : i < str.length) :
    ucbUcValidateStep (str ++ after) str.length i = ucbUcValidateStep str str.length i := by
  have second (room : ¬ i + 1 ≥ str.length) :
      byteAt (str ++ after) (i + 1) = byteAt str (i + 1) := byteAt_append after (by omega)
  have third (room : ¬ i + 2 ≥ str.length) :
      byteAt (str ++ after) (i + 2) = byteAt str (i + 2) := byteAt_append after (by omega)
  have fourth (room : ¬ i + 3 ≥ str.length) :
      byteAt (str ++ after) (i + 3) = byteAt str (i + 3) := byteAt_append after (by omega)
  simp only [ucbUcValidateStep, ucbUcFetch2, ucbUcFetch3, ucbUcFetch4, byteAt_append after inside]
  by_cases room3 : i + 3 ≥ str.length
  · by_cases room2 : i + 2 ≥ str.length
    · by_cases room1 : i + 1 ≥ str.length
      · simp only [if_pos room1, if_pos room2, if_pos room3]
      · simp only [if_pos room2, if_pos room3, second room1]
    · have room1 : ¬ i + 1 ≥ str.length := by omega
      simp only [if_pos room3, second room1, third room2]
  · have room2 : ¬ i + 2 ≥ str.length := by omega
    have room1 : ¬ i + 1 ≥ str.length := by omega
    simp only [second room1, third room2, fourth room3]

theorem validateLoop_append (str after : List UInt8) :
    ∀ fuel i, ucbUcValidateLoop (str ++ after) str.length fuel i =
      ucbUcValidateLoop str str.length fuel i := by
  intro fuel
  induction fuel with
  | zero => intro i; rfl
  | succ fuel inductionHypothesis =>
      intro i
      by_cases inside : i < str.length
      · simp only [ucbUcValidateLoop, validateStep_append str after inside, inductionHypothesis]
      · simp only [ucbUcValidateLoop, if_neg inside]

/-- Validation depends on the first `len` bytes only. -/
theorem validate_append (str after : List UInt8) :
    ucbUcValidate (str ++ after) (some str.length) = ucbUcValidate str (some str.length) := by
  simp only [ucbUcValidate, resolveLen, Exec.pure_eq_ok, Exec.ok_bind, validateLoop_append]

/-- The loop stops at the end of the longest valid part of the string. -/
theorem validateLoop_scan (str : List UInt8) :
    ∀ (fuel : Nat) (before rest : List UInt8), str = before ++ rest → rest.length < fuel →
      ∃ cps remaining, utf8.Scanned rest cps remaining ∧
        ((remaining = [] ∧
            ucbUcValidateLoop str str.length fuel before.length = .ok .complete) ∨
          (remaining ≠ [] ∧ ∃ expected,
            ucbUcValidateLoop str str.length fuel before.length =
              .ok (.bad (before.length + (encode cps).length) expected))) := by
  intro fuel
  induction fuel with
  | zero => intro _ _ _ enough; omega
  | succ fuel inductionHypothesis =>
      intro before rest split enough
      cases rest with
      | nil =>
          refine ⟨[], [], .nil utf8 utf8.read_nil, .inl ⟨rfl, ?_⟩⟩
          simp [ucbUcValidateLoop, split]
      | cons b0 tail =>
          have inside : before.length < str.length := by simp [split]
          have atStart : ucbUcValidateStep str str.length before.length =
              ucbUcValidateStep (b0 :: tail) (b0 :: tail).length 0 := by
            rw [validateStep_drop str (Nat.le_of_lt inside), split, List.drop_left]
          rcases validateStep_cases b0 tail with
            ⟨cp, word, after, shape, restEq, step⟩ | ⟨expected, step⟩
          · have wordEq := shape.eq_encodeScalar
            have advance := atStart.trans step
            generalize shape.isScalar = scalar at wordEq
            subst wordEq
            have lengths := congrArg List.length restEq
            have positive := encodeScalar_length_pos ⟨cp, scalar⟩
            rw [List.length_append] at lengths
            obtain ⟨cps, remaining, scanned, outcome⟩ :=
              inductionHypothesis (before ++ encodeScalar ⟨cp, scalar⟩) after
                (by rw [split, restEq, List.append_assoc]) (by omega)
            refine ⟨⟨cp, scalar⟩ :: cps, remaining, restEq ▸ scanned.cons utf8, ?_⟩
            simpa only [ucbUcValidateLoop, if_pos inside, advance, Exec.ok_bind,
              List.length_append, encode_cons, Nat.add_assoc] using outcome
          · have stop := atStart.trans step
            refine ⟨[], b0 :: tail, .nil utf8 ?_, .inr ⟨by simp, expected, ?_⟩⟩
            · by_contra found
              obtain ⟨cp, readCp⟩ := Option.ne_none_iff_exists'.mp found
              obtain ⟨after, restEq⟩ := (utf8.read_eq_some _ _).mp readCp
              have advances := validateStep_encodeScalar cp after
              change encodeScalar cp ++ after = b0 :: tail at restEq
              rw [restEq, step] at advances
              simp at advances
            · simp [ucbUcValidateLoop, inside, stop]

/-- Validation scans the string and reports the end of its longest valid part. -/
theorem validate_scan (str : List UInt8) :
    ∃ cps remaining, utf8.Scanned str cps remaining ∧
      ((remaining = [] ∧ ucbUcValidate str (some str.length) = .ok (.ok ())) ∨
        (remaining ≠ [] ∧ ∃ expected, ucbUcValidate str (some str.length) =
          .ok (.error ⟨.invalidUtf8,
            utf8ErrorMsg (encode cps).length expected str.length⟩))) := by
  obtain ⟨cps, remaining, scanned, outcome⟩ :=
    validateLoop_scan str (str.length + 1) [] str rfl (Nat.lt_succ_self _)
  refine ⟨cps, remaining, scanned, ?_⟩
  rcases outcome with ⟨consumed, loop⟩ | ⟨left, expected, loop⟩
  · refine .inl ⟨consumed, ?_⟩
    rw [List.length_nil] at loop
    simp [ucbUcValidate, resolveLen, loop]
  · refine .inr ⟨left, expected, ?_⟩
    rw [List.length_nil, Nat.zero_add] at loop
    simp [ucbUcValidate, resolveLen, loop]

theorem validate_ok_iff (str : List UInt8) :
    ucbUcValidate str (some str.length) = .ok (.ok ()) ↔ ValidUtf8 str := by
  obtain ⟨cps, remaining, scanned, outcome⟩ := validate_scan str
  change _ ↔ utf8.Encodable str
  rw [scanned.encodable_iff utf8]
  rcases outcome with ⟨consumed, accepted⟩ | ⟨left, expected, rejected⟩
  · simp [consumed, accepted]
  · simp [left, rejected]

/-- The validator accepts exactly the encodable strings, uniquely decoded by
the iterator, and otherwise reports the length of the longest valid prefix. -/
theorem ucbUcValidate_spec (str : List UInt8) :
    (ucbUcValidate str (some str.length) = .ok (.ok ()) ↔
      ∃ cps : List Scalar, str = encode cps) ∧
    (∀ cps : List Scalar, str = encode cps →
      (∀ others : List Scalar, str = encode others → others = cps) ∧
      decodeAll str str.length = .ok (scalarValues cps, str.length) ∧
      ucbUcNumCp str (some str.length) = .ok cps.length) ∧
    (ucbUcValidate str (some str.length) ≠ .ok (.ok ()) →
      ∃ errpos expected,
        ucbUcValidate str (some str.length) =
          .ok (.error ⟨.invalidUtf8, utf8ErrorMsg errpos expected str.length⟩) ∧
        errpos ≤ str.length ∧ ValidUtf8 (str.take errpos) ∧
        ∀ count ≤ str.length, ValidUtf8 (str.take count) → count ≤ errpos) := by
  refine ⟨validate_ok_iff str, ?_, ?_⟩
  · rintro cps rfl
    exact ⟨fun others same => (encode_injective same).symm, decodeAll_encode cps,
      numCp_encode cps⟩
  · intro failed
    obtain ⟨cps, remaining, scanned, outcome⟩ := validate_scan str
    rcases outcome with ⟨-, accepted⟩ | ⟨-, expected, rejected⟩
    · exact absurd accepted failed
    have starts : encode cps <+: str := ⟨remaining, scanned.split.symm⟩
    refine ⟨(encode cps).length, expected, rejected, starts.length_le, ?_, ?_⟩
    · exact ⟨cps, (List.prefix_iff_eq_take.mp starts).symm⟩
    · intro count inside valid
      have longest := scanned.longest utf8 valid (List.take_prefix _ _)
      have lengths := longest.length_le
      rwa [List.length_take_of_le inside] at lengths

end Ucb.Unicode
