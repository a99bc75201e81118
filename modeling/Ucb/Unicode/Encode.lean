import Ucb.Core.Buffer
import Ucb.Core.Words
import Ucb.Unicode.Props
import Ucb.Unicode.Utf8Validation

/-!
Contract: encoding a codepoint list into a buffer, chunk by chunk.

Owns:
- `ucbUcEncodeCodepoints` over any buffer;
- what it leaves in a buffer with room: all bytes of an encodable list, and the
  full chunks in front of the first codepoint that cannot be encoded;
- encoding codepoints that are in the buffer itself.
-/

namespace Ucb.Unicode

open Ucb.Lib

/-- Why encoding failed: the error stored through `perr`, or a push the
allocator refused. -/
abbrev EncodeFailure := Option UcbError

/-- The error of `ucb_uc_encode_codepoints`. -/
def invalidCodepointError (cp : Nat) : UcbError :=
  ⟨.invalidCodepoint, "Invalid codepoint: " ++ toString cp⟩

/-- The loop of `ucb_uc_encode_codepoints`; `bytes` is the filled part of its
chunk of `5 * UCB_UC_MAX_MULTI_LEN` bytes. -/
def encodeLoop (maxMultiLen : Nat) (allocator : Allocator) :
    UcbBuffer → List UInt8 → List Nat → Exec (UcbBuffer × Except EncodeFailure Unit)
  | buf, bytes, [] =>
      if bytes.length = 0 then pure (buf, .ok ())
      else do
        let (buf, pushed) ← ucbBufferPush allocator buf bytes
        pure (buf, if pushed then .ok () else .error none)
  | buf, bytes, cp :: rest =>
      match ucbUcEncodeCodepoint cp with
      | none => pure (buf, .error (some (invalidCodepointError cp)))
      | some word =>
          if bytes.length + word.length > 5 * maxMultiLen then .undefined
          else if bytes.length + word.length ≥ 4 * maxMultiLen then do
            let (buf, pushed) ← ucbBufferPush allocator buf (bytes ++ word)
            if pushed then encodeLoop maxMultiLen allocator buf [] rest
            else pure (buf, .error none)
          else encodeLoop maxMultiLen allocator buf (bytes ++ word) rest

def ucbUcEncodeCodepoints (maxMultiLen : Nat) (allocator : Allocator) (buf : UcbBuffer)
    (codepoints : List Nat) : Exec (UcbBuffer × Except EncodeFailure Unit) :=
  encodeLoop maxMultiLen allocator buf [] codepoints

/-- The same loop when `codepoints` points to the front of the buffer's own block
and `left` of them, from `index` on, have not been read. A push that moves the
block leaves `codepoints` dangling. -/
def encodeInPlaceLoop (maxMultiLen : Nat) (allocator : Allocator) :
    Nat → UcbBuffer → Nat → List UInt8 → Exec (UcbBuffer × Except EncodeFailure Unit)
  | 0, buf, _, bytes => encodeLoop maxMultiLen allocator buf bytes []
  | left + 1, buf, index, bytes => do
      let cp ← wordAt buf.data index
      match ucbUcEncodeCodepoint cp with
      | none => pure (buf, .error (some (invalidCodepointError cp)))
      | some word =>
          if bytes.length + word.length > 5 * maxMultiLen then .undefined
          else if bytes.length + word.length ≥ 4 * maxMultiLen then do
            let (next, pushed) ← ucbBufferPush allocator buf (bytes ++ word)
            if pushed = false then pure (next, .error none)
            else if left ≠ 0 ∧ next.data.length ≠ buf.data.length then .undefined
            else encodeInPlaceLoop maxMultiLen allocator left next (index + 1) []
          else encodeInPlaceLoop maxMultiLen allocator left buf (index + 1) (bytes ++ word)

/-- `ucb_uc_encode_codepoints` of the first `count` codepoints in the buffer. -/
def ucbUcEncodeInPlace (maxMultiLen : Nat) (allocator : Allocator) (buf : UcbBuffer)
    (count : Nat) : Exec (UcbBuffer × Except EncodeFailure Unit) :=
  encodeInPlaceLoop maxMultiLen allocator count buf 0 []

/-! ## What is pushed -/

def firstInvalid (codepoints : List Nat) : Option Nat :=
  codepoints.find? fun cp => ¬ IsScalar cp

/-- The outcome of encoding when every push succeeds. -/
def encodeOutcome (codepoints : List Nat) : Except EncodeFailure Unit :=
  match firstInvalid codepoints with
  | none => .ok ()
  | some cp => .error (some (invalidCodepointError cp))

/-- The bytes pushed after `bytes` have been collected. -/
def pushedBytes (maxMultiLen : Nat) : List UInt8 → List Nat → List UInt8
  | bytes, [] => bytes
  | bytes, cp :: rest =>
      match ucbUcEncodeCodepoint cp with
      | none => []
      | some word =>
          if bytes.length + word.length ≥ 4 * maxMultiLen then
            bytes ++ word ++ pushedBytes maxMultiLen [] rest
          else pushedBytes maxMultiLen (bytes ++ word) rest

theorem encodeScalar_length_le (cp : Scalar) : (encodeScalar cp).length ≤ 4 := by
  have word := codeWord_encodeScalar cp
  generalize encodeScalar cp = bytes at word
  cases word <;> simp

theorem encodeCodepoint_length_le {cp : Nat} {word : List UInt8}
    (written : ucbUcEncodeCodepoint cp = some word) : word.length ≤ 4 ∧ IsScalar cp := by
  have scalar : IsScalar cp := (encodeCodepoint_isSome_iff cp).mp (by simp [written])
  have known := encodeCodepoint_scalar ⟨cp, scalar⟩
  rw [written] at known
  exact ⟨Option.some.inj known ▸ encodeScalar_length_le _, scalar⟩

theorem pushedBytes_length_le (maxMultiLen : Nat) (codepoints : List Nat) :
    ∀ bytes : List UInt8,
      (pushedBytes maxMultiLen bytes codepoints).length ≤ bytes.length + 4 * codepoints.length := by
  induction codepoints with
  | nil => intro bytes; simp [pushedBytes]
  | cons cp rest inductionHypothesis =>
      intro bytes
      cases written : ucbUcEncodeCodepoint cp with
      | none => simp [pushedBytes, written]
      | some word =>
          have width := (encodeCodepoint_length_le written).1
          simp only [pushedBytes, written, List.length_cons]
          split
          · have later := inductionHypothesis []
            simp only [List.length_append, List.length_nil] at later ⊢
            omega
          · have later := inductionHypothesis (bytes ++ word)
            rw [List.length_append] at later
            omega

/-- With room for four bytes per codepoint no push needs to grow the buffer. -/
theorem encodeLoop_fits {maxMultiLen : Nat} (multiLen : 3 ≤ maxMultiLen) (allocator : Allocator)
    (growth : BufferGrowth) (codepoints : List Nat) :
    ∀ used spare bytes : List UInt8, bytes.length < 4 * maxMultiLen →
      bytes.length + 4 * codepoints.length ≤ spare.length →
      encodeLoop maxMultiLen allocator ⟨used ++ spare, used.length, growth⟩ bytes codepoints =
        .ok (⟨used ++ pushedBytes maxMultiLen bytes codepoints ++
            spare.drop (pushedBytes maxMultiLen bytes codepoints).length,
          (used ++ pushedBytes maxMultiLen bytes codepoints).length, growth⟩,
          encodeOutcome codepoints) := by
  induction codepoints with
  | nil =>
      intro used spare bytes _ room
      by_cases empty : bytes.length = 0
      · obtain rfl := List.eq_nil_of_length_eq_zero empty
        simp [encodeLoop, pushedBytes, encodeOutcome, firstInvalid]
      · rw [encodeLoop, if_neg empty, bufferPush_fits allocator used spare growth (by omega)]
        rfl
  | cons cp rest inductionHypothesis =>
      intro used spare bytes short room
      rw [List.length_cons] at room
      cases written : ucbUcEncodeCodepoint cp with
      | none =>
          have invalid := (encodeCodepoint_eq_none_iff cp).mp written
          simp [encodeLoop, pushedBytes, written, encodeOutcome, firstInvalid, invalid]
      | some word =>
          obtain ⟨width, scalar⟩ := encodeCodepoint_length_le written
          have outcome : encodeOutcome (cp :: rest) = encodeOutcome rest := by
            simp [encodeOutcome, firstInvalid, scalar]
          have inChunk : ¬ bytes.length + word.length > 5 * maxMultiLen := by omega
          rw [outcome]
          simp only [encodeLoop, pushedBytes, written, if_neg inChunk]
          by_cases full : bytes.length + word.length ≥ 4 * maxMultiLen
          · have fits : (bytes ++ word).length ≤ spare.length := by
              rw [List.length_append]
              omega
            have later := inductionHypothesis (used ++ (bytes ++ word))
              (spare.drop (bytes ++ word).length) [] (by simp; omega)
              (by simp only [List.length_drop, List.length_append, List.length_nil]; omega)
            rw [if_pos full, if_pos full, bufferPush_fits allocator used spare growth fits,
              Exec.ok_bind]
            simp only [if_true]
            rw [later]
            simp only [List.drop_drop, List.length_append, List.append_assoc, Nat.add_assoc]
          · rw [if_neg full, if_neg full]
            exact inductionHypothesis used spare (bytes ++ word)
              (by rw [List.length_append]; omega) (by rw [List.length_append]; omega)

theorem pushedBytes_scalarValues (maxMultiLen : Nat) (cps : List Scalar) :
    ∀ bytes : List UInt8,
      pushedBytes maxMultiLen bytes (scalarValues cps) = bytes ++ encode cps := by
  induction cps with
  | nil => intro bytes; simp [pushedBytes]
  | cons cp rest inductionHypothesis =>
      intro bytes
      simp only [scalarValues_cons, pushedBytes, encodeCodepoint_scalar, encode_cons,
        inductionHypothesis]
      split <;> simp

theorem encodeOutcome_scalarValues (cps : List Scalar) :
    encodeOutcome (scalarValues cps) = .ok () := by
  have none : firstInvalid (scalarValues cps) = none := by
    rw [firstInvalid, List.find?_eq_none]
    intro cp member
    obtain ⟨scalar, -, rfl⟩ := List.mem_map.mp member
    simpa using scalar.property
  rw [encodeOutcome, none]

theorem encodable_or_invalid (codepoints : List Nat) :
    (∃ cps, codepoints = scalarValues cps) ∨
      ∃ cps bad rest, codepoints = scalarValues cps ++ bad :: rest ∧ ¬ IsScalar bad := by
  induction codepoints with
  | nil => exact .inl ⟨[], rfl⟩
  | cons cp rest inductionHypothesis =>
      by_cases scalar : IsScalar cp
      · rcases inductionHypothesis with ⟨cps, rfl⟩ | ⟨cps, bad, rest, rfl, invalid⟩
        · exact .inl ⟨⟨cp, scalar⟩ :: cps, rfl⟩
        · exact .inr ⟨⟨cp, scalar⟩ :: cps, bad, rest, rfl, invalid⟩
      · exact .inr ⟨[], cp, rest, rfl, scalar⟩

theorem encodeOutcome_invalid (cps : List Scalar) {bad : Nat} (invalid : ¬ IsScalar bad)
    (rest : List Nat) :
    encodeOutcome (scalarValues cps ++ bad :: rest) =
      .error (some (invalidCodepointError bad)) := by
  have found : firstInvalid (scalarValues cps ++ bad :: rest) = some bad := by
    have encodable : firstInvalid (scalarValues cps) = none := by
      rw [firstInvalid, List.find?_eq_none]
      intro cp member
      obtain ⟨scalar, -, rfl⟩ := List.mem_map.mp member
      simpa using scalar.property
    rw [firstInvalid] at encodable ⊢
    rw [List.find?_append, encodable]
    simp [invalid]
  rw [encodeOutcome, found]

theorem exists_of_encodeOutcome_ok {codepoints : List Nat}
    (encoded : encodeOutcome codepoints = .ok ()) : ∃ cps, codepoints = scalarValues cps := by
  rcases encodable_or_invalid codepoints with encodable | ⟨cps, bad, rest, rfl, invalid⟩
  · exact encodable
  · rw [encodeOutcome_invalid cps invalid rest] at encoded
    cases encoded

/-- In front of an invalid codepoint only full chunks are pushed: nothing when
the encodable part is shorter than a chunk, and otherwise a part of it. -/
theorem pushedBytes_invalid (maxMultiLen : Nat) (cps : List Scalar) {bad : Nat}
    (invalid : ¬ IsScalar bad) (rest : List Nat) :
    ∀ bytes : List UInt8, bytes.length < 4 * maxMultiLen →
      pushedBytes maxMultiLen bytes (scalarValues cps ++ bad :: rest) <+: bytes ++ encode cps ∧
        (pushedBytes maxMultiLen bytes (scalarValues cps ++ bad :: rest) = [] ↔
          bytes.length + (encode cps).length < 4 * maxMultiLen) := by
  have refused := (encodeCodepoint_eq_none_iff bad).mpr invalid
  induction cps with
  | nil =>
      intro bytes short
      simpa [pushedBytes, refused] using short
  | cons cp tail inductionHypothesis =>
      intro bytes short
      have positive := encodeScalar_length_pos cp
      simp only [scalarValues_cons, List.cons_append, pushedBytes, encodeCodepoint_scalar,
        encode_cons, List.length_append]
      by_cases full : bytes.length + (encodeScalar cp).length ≥ 4 * maxMultiLen
      · obtain ⟨isPrefix, -⟩ := inductionHypothesis [] (by simp; omega)
        rw [if_pos full, List.append_assoc]
        refine ⟨?_, ?_⟩
        · exact (List.prefix_append_right_inj _).mpr ((List.prefix_append_right_inj _).mpr isPrefix)
        · have nonempty : encodeScalar cp ≠ [] := List.ne_nil_of_length_pos positive
          simp only [List.append_eq_nil_iff, nonempty, false_and, and_false, false_iff]
          omega
      · have later := inductionHypothesis (bytes ++ encodeScalar cp)
          (by rw [List.length_append]; omega)
        rw [if_neg full]
        rw [List.append_assoc, List.length_append] at later
        refine ⟨later.1, later.2.trans ?_⟩
        omega

/-! ## Into a buffer that grows -/

theorem encodeLoop_double {maxMultiLen : Nat} (multiLen : 3 ≤ maxMultiLen) {allocator : Allocator}
    (generous : allocator.Generous) (cps : List Scalar) :
    ∀ used spare bytes : List UInt8, bytes.length < 4 * maxMultiLen →
      ∃ spare', encodeLoop maxMultiLen allocator ⟨used ++ spare, used.length, .double⟩ bytes
          (scalarValues cps) =
        .ok (⟨used ++ bytes ++ encode cps ++ spare', (used ++ bytes ++ encode cps).length, .double⟩,
          .ok ()) := by
  induction cps with
  | nil =>
      intro used spare bytes _
      by_cases empty : bytes.length = 0
      · obtain rfl := List.eq_nil_of_length_eq_zero empty
        exact ⟨spare, by simp [encodeLoop]⟩
      · obtain ⟨spare', pushed⟩ := bufferPush_double generous used spare bytes
        refine ⟨spare', ?_⟩
        rw [scalarValues_nil, encodeLoop, if_neg empty, pushed, encode_nil, List.append_nil]
        rfl
  | cons cp rest inductionHypothesis =>
      intro used spare bytes short
      have width := encodeScalar_length_le cp
      have inChunk : ¬ bytes.length + (encodeScalar cp).length > 5 * maxMultiLen := by omega
      simp only [scalarValues_cons, encodeLoop, encodeCodepoint_scalar, if_neg inChunk]
      split
      next full =>
        obtain ⟨spare', pushed⟩ := bufferPush_double generous used spare (bytes ++ encodeScalar cp)
        obtain ⟨spare'', later⟩ :=
          inductionHypothesis (used ++ (bytes ++ encodeScalar cp)) spare' []
          (by simp; omega)
        refine ⟨spare'', ?_⟩
        rw [pushed, Exec.ok_bind, if_pos rfl, later]
        simp
      next notFull =>
        obtain ⟨spare', later⟩ := inductionHypothesis used spare (bytes ++ encodeScalar cp)
          (by rw [List.length_append]; omega)
        refine ⟨spare', ?_⟩
        rw [later]
        simp

/-- A generous allocator lets a doubling buffer take every encodable list. -/
theorem encodeCodepoints_double {maxMultiLen : Nat} (multiLen : 3 ≤ maxMultiLen)
    {allocator : Allocator} (generous : allocator.Generous) (cps : List Scalar)
    (used spare : List UInt8) :
    ∃ spare', ucbUcEncodeCodepoints maxMultiLen allocator ⟨used ++ spare, used.length, .double⟩
        (scalarValues cps) =
      .ok (⟨used ++ encode cps ++ spare', (used ++ encode cps).length, .double⟩, .ok ()) := by
  have run := encodeLoop_double multiLen generous cps used spare [] (by simp; omega)
  simpa [ucbUcEncodeCodepoints] using run

/-! ## In place -/

theorem scalarValues_lt (cps : List Scalar) : ∀ value ∈ scalarValues cps, value < 2 ^ 32 := by
  intro value member
  obtain ⟨cp, -, rfl⟩ := List.mem_map.mp member
  have := cp.property.lt
  omega

theorem scalarValues_length (cps : List Scalar) : (scalarValues cps).length = cps.length :=
  List.length_map _

theorem scalarValues_append (left right : List Scalar) :
    scalarValues (left ++ right) = scalarValues left ++ scalarValues right :=
  List.map_append

/-- The bytes written never reach a codepoint that has not been read: the ones
read take four bytes each. -/
theorem encodeInPlaceLoop_behind {maxMultiLen : Nat} (multiLen : 3 ≤ maxMultiLen)
    (allocator : Allocator) (growth : BufferGrowth) (spare : List UInt8) (rest : List Scalar) :
    ∀ (front : List Scalar) (mem written bytes : List UInt8),
      mem = wordsBytes (scalarValues (front ++ rest)) ++ spare →
      bytes.length < 4 * maxMultiLen → written.length + bytes.length ≤ 4 * front.length →
      encodeInPlaceLoop maxMultiLen allocator rest.length
          ⟨written ++ mem.drop written.length, written.length, growth⟩ front.length bytes =
        .ok (⟨written ++ bytes ++ encode rest ++
            mem.drop (written ++ bytes ++ encode rest).length,
          (written ++ bytes ++ encode rest).length, growth⟩, .ok ()) := by
  induction rest with
  | nil =>
      intro front mem written bytes memEq _ behind
      have length := congrArg List.length memEq
      simp only [List.append_nil, List.length_append, wordsBytes_length, scalarValues_length]
        at length
      have room : bytes.length ≤ (mem.drop written.length).length := by
        rw [List.length_drop]
        omega
      by_cases empty : bytes.length = 0
      · obtain rfl := List.eq_nil_of_length_eq_zero empty
        simp [encodeInPlaceLoop, encodeLoop]
      · rw [List.length_nil, encodeInPlaceLoop, encodeLoop, if_neg empty,
          bufferPush_fits allocator written _ growth room]
        simp [List.drop_drop]
  | cons cp rest inductionHypothesis =>
      intro front mem written bytes memEq short behind
      have width := encodeScalar_length_le cp
      have small := cp.property.lt
      have length := congrArg List.length memEq
      simp only [List.length_append, List.length_cons, wordsBytes_length, scalarValues_length]
        at length
      have nextEq : mem = wordsBytes (scalarValues (front ++ [cp] ++ rest)) ++ spare := by
        rw [memEq, List.append_assoc front, List.singleton_append]
      have loaded : wordAt (written ++ mem.drop written.length) front.length = .ok cp.val := by
        rw [wordAt_behind _ _ (by omega), memEq, scalarValues_append, wordsBytes_append,
          scalarValues_cons, wordsBytes_cons, List.append_assoc, List.append_assoc,
          ← scalarValues_length front]
        exact wordAt_stored _ (by omega) _
      have inChunk : ¬ bytes.length + (encodeScalar cp).length > 5 * maxMultiLen := by omega
      have index : (front ++ [cp]).length = front.length + 1 := List.length_append
      simp only [List.length_cons, encodeInPlaceLoop, loaded, Exec.ok_bind, encodeCodepoint_scalar,
        if_neg inChunk]
      by_cases full : bytes.length + (encodeScalar cp).length ≥ 4 * maxMultiLen
      · have room : (bytes ++ encodeScalar cp).length ≤ (mem.drop written.length).length := by
          rw [List.length_drop, List.length_append]
          omega
        have later := inductionHypothesis (front ++ [cp]) mem
          (written ++ (bytes ++ encodeScalar cp)) [] nextEq (by simp; omega) (by
            simp only [List.length_append, List.length_cons, List.length_nil]
            omega)
        have same : (written ++ (bytes ++ encodeScalar cp) ++
            mem.drop (written ++ (bytes ++ encodeScalar cp)).length).length =
            (written ++ mem.drop written.length).length := by
          simp only [List.length_drop, List.length_append]
          omega
        rw [if_pos full, bufferPush_fits allocator written _ growth room, Exec.ok_bind,
          List.drop_drop, ← List.length_append]
        simp only [same, ne_eq, not_true_eq_false, and_false, if_false, Bool.true_eq_false]
        rw [index] at later
        simpa [List.append_assoc] using later
      · have later := inductionHypothesis (front ++ [cp]) mem written (bytes ++ encodeScalar cp)
          nextEq (by rw [List.length_append]; omega) (by
            simp only [List.length_append, List.length_cons, List.length_nil]
            omega)
        rw [index] at later
        rw [if_neg full]
        simpa [List.append_assoc] using later

/-- Codepoints at the front of a cleared buffer are encoded over themselves. -/
theorem encodeInPlace_scalarValues {maxMultiLen : Nat} (multiLen : 3 ≤ maxMultiLen)
    (allocator : Allocator) (growth : BufferGrowth) (cps : List Scalar) (spare : List UInt8) :
    ∃ spare', ucbUcEncodeInPlace maxMultiLen allocator
        ⟨wordsBytes (scalarValues cps) ++ spare, 0, growth⟩ cps.length =
      .ok (⟨encode cps ++ spare', (encode cps).length, growth⟩, .ok ()) := by
  have whole := encodeInPlaceLoop_behind multiLen allocator growth spare cps [] _ [] [] rfl
    (by simp; omega) (by simp)
  exact ⟨_, by simpa [ucbUcEncodeInPlace] using whole⟩

end Ucb.Unicode
