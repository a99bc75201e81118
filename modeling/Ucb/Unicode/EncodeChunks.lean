import Ucb.Container.ByteBufferRefinement
import Ucb.Unicode.Encode

/-!
Contract: what encoding a codepoint list does to any buffer.

Owns:
- `ucb_uc_encode_codepoints` over an arbitrary push, and the chunks that it pushes;
- that the chunk array is never left, so encoding is pushing these chunks in order;
- what a buffer that appends its pushes has gained when encoding ends, and when it ends well;
- that the buffers of `buffer.c` append their pushes, whatever grow function and allocator they
  meet.
-/

namespace Ucb.Unicode

open Ucb.Container

universe u

variable {Buffer : Type u}

/-! ## Pushing chunks -/

section Chunks

variable (push : Buffer → List UInt8 → Exec (Buffer × Bool))

/-- The loop of `ucb_uc_encode_codepoints` over any push; `bytes` is the filled part of the chunk
array. -/
def encodeLoopWith (maxMultiLen : Nat) :
    Buffer → List UInt8 → List Nat → Exec (Buffer × Except EncodeFailure Unit)
  | buf, bytes, [] =>
      if bytes.length = 0 then pure (buf, .ok ())
      else do
        let (buf, pushed) ← push buf bytes
        pure (buf, if pushed then .ok () else .error none)
  | buf, bytes, cp :: rest =>
      match ucbUcEncodeCodepoint cp with
      | none => pure (buf, .error (some (invalidCodepointError cp)))
      | some word =>
          -- the codepoint is written behind `bytes` in `bytes[5 * UCB_UC_MAX_MULTI_LEN]`
          if bytes.length + word.length > 5 * maxMultiLen then .undefined
          else if bytes.length + word.length ≥ 4 * maxMultiLen then do
            let (buf, pushed) ← push buf (bytes ++ word)
            if pushed then encodeLoopWith maxMultiLen buf [] rest
            else pure (buf, .error none)
          else encodeLoopWith maxMultiLen buf (bytes ++ word) rest

/-- `ucb_uc_encode_codepoints` of a buffer with this push. -/
def encodeCodepointsWith (maxMultiLen : Nat) (buf : Buffer) (codepoints : List Nat) :
    Exec (Buffer × Except EncodeFailure Unit) :=
  encodeLoopWith push maxMultiLen buf [] codepoints

/-- Push one after another, until one is refused. -/
def pushAll : Buffer → List (List UInt8) → Exec (Buffer × Bool)
  | buf, [] => pure (buf, true)
  | buf, chunk :: chunks => do
      let (buf, pushed) ← push buf chunk
      if pushed then pushAll buf chunks else pure (buf, false)

/-- The chunks pushed after `bytes` have been collected. -/
def chunksFrom (maxMultiLen : Nat) : List UInt8 → List Nat → List (List UInt8)
  | bytes, [] => if bytes.length = 0 then [] else [bytes]
  | bytes, cp :: rest =>
      match ucbUcEncodeCodepoint cp with
      | none => []
      | some word =>
          if bytes.length + word.length ≥ 4 * maxMultiLen then
            (bytes ++ word) :: chunksFrom maxMultiLen [] rest
          else chunksFrom maxMultiLen (bytes ++ word) rest

theorem chunksFrom_flatten (maxMultiLen : Nat) (codepoints : List Nat) :
    ∀ bytes, (chunksFrom maxMultiLen bytes codepoints).flatten =
      pushedBytes maxMultiLen bytes codepoints := by
  induction codepoints with
  | nil =>
      intro bytes
      rw [chunksFrom, pushedBytes]
      split
      next empty => rw [List.eq_nil_of_length_eq_zero empty, List.flatten_nil]
      next => simp
  | cons cp rest inductionHypothesis =>
      intro bytes
      cases written : ucbUcEncodeCodepoint cp with
      | none => simp [chunksFrom, pushedBytes, written]
      | some word =>
          simp only [chunksFrom, pushedBytes, written]
          split
          · rw [List.flatten_cons, inductionHypothesis]
          · exact inductionHypothesis _

def encodeReport (codepoints : List Nat) (pushed : Buffer × Bool) :
    Buffer × Except EncodeFailure Unit :=
  (pushed.1, if pushed.2 then encodeOutcome codepoints else .error none)

theorem encodeOutcome_cons {cp : Nat} (scalar : IsScalar cp) (rest : List Nat) :
    encodeOutcome (cp :: rest) = encodeOutcome rest := by
  simp [encodeOutcome, firstInvalid, scalar]

/-- The chunk array is never left: with less than a full chunk collected, there is room for one
more codepoint. -/
theorem encodeLoopWith_eq {maxMultiLen : Nat} (multiLen : 3 ≤ maxMultiLen) (codepoints : List Nat) :
    ∀ buf bytes, bytes.length < 4 * maxMultiLen →
      encodeLoopWith push maxMultiLen buf bytes codepoints =
        encodeReport codepoints <$> pushAll push buf (chunksFrom maxMultiLen bytes codepoints) := by
  induction codepoints with
  | nil =>
      intro buf bytes _
      rw [encodeLoopWith, chunksFrom]
      split
      · rfl
      · rw [pushAll]
        cases push buf bytes with
        | ok outcome =>
            obtain ⟨after, pushed⟩ := outcome
            cases pushed <;> rfl
        | abort code => rfl
        | undefined => rfl
  | cons cp rest inductionHypothesis =>
      intro buf bytes short
      cases written : ucbUcEncodeCodepoint cp with
      | none =>
          have invalid := (encodeCodepoint_eq_none_iff cp).mp written
          have outcome : encodeOutcome (cp :: rest) =
              .error (some (invalidCodepointError cp)) := by
            simp [encodeOutcome, firstInvalid, invalid]
          simp only [encodeLoopWith, chunksFrom, written, pushAll, Exec.pure_eq_ok, Exec.ok_map,
            encodeReport, outcome, if_true]
      | some word =>
          obtain ⟨width, scalar⟩ := encodeCodepoint_length_le written
          have inChunk : ¬ bytes.length + word.length > 5 * maxMultiLen := by omega
          have reports : (encodeReport (cp :: rest) : Buffer × Bool → _) = encodeReport rest := by
            funext pushed
            rw [encodeReport, encodeOutcome_cons scalar, encodeReport]
          rw [reports]
          simp only [encodeLoopWith, chunksFrom, written, if_neg inChunk]
          by_cases full : bytes.length + word.length ≥ 4 * maxMultiLen
          · rw [if_pos full, if_pos full, pushAll]
            cases push buf (bytes ++ word) with
            | ok outcome =>
                obtain ⟨after, pushed⟩ := outcome
                cases pushed with
                | true => exact inductionHypothesis after [] (by rw [List.length_nil]; omega)
                | false => rfl
            | abort code => rfl
            | undefined => rfl
          · rw [if_neg full, if_neg full]
            exact inductionHypothesis buf (bytes ++ word) (by rw [List.length_append]; omega)

end Chunks

/-! ## Buffers that append their pushes -/

/-- A push that succeeds has appended its bytes, and one that fails has left what was stored. -/
structure Appends (push : Buffer → List UInt8 → Exec (Buffer × Bool))
    (stores : Buffer → List UInt8 → Prop) : Prop where
  appended : ∀ {buf after : Buffer} {content data : List UInt8}, stores buf content →
    push buf data = .ok (after, true) → stores after (content ++ data)
  kept : ∀ {buf after : Buffer} {content data : List UInt8}, stores buf content →
    push buf data = .ok (after, false) → stores after content

section Appends

variable {push : Buffer → List UInt8 → Exec (Buffer × Bool)} {stores : Buffer → List UInt8 → Prop}
  {maxMultiLen : Nat} {buf : Buffer} {content : List UInt8}

/-- Pushes append a beginning of what they are given, and all of it if none is refused. -/
theorem pushAll_stores (appends : Appends push stores) (chunks : List (List UInt8)) :
    ∀ {buf after : Buffer} {content : List UInt8} {pushed : Bool}, stores buf content →
      pushAll push buf chunks = .ok (after, pushed) →
      ∃ appended, appended <+: chunks.flatten ∧ stores after (content ++ appended) ∧
        (pushed = true → appended = chunks.flatten) := by
  induction chunks with
  | nil =>
      intro buf after content pushed stored ran
      obtain ⟨rfl, rfl⟩ := Prod.mk.inj (Exec.ok.inj ran)
      exact ⟨[], List.nil_prefix, by rwa [List.append_nil], fun _ => rfl⟩
  | cons chunk chunks inductionHypothesis =>
      intro buf after content pushed stored ran
      obtain ⟨⟨next, success⟩, first, ran⟩ := Exec.bind_eq_ok.mp ran
      cases success with
      | true =>
          obtain ⟨appended, isPrefix, stored', complete⟩ :=
            inductionHypothesis (appends.appended stored first) ran
          refine ⟨chunk ++ appended, ?_, ?_, fun success => ?_⟩
          · rw [List.flatten_cons]
            exact (List.prefix_append_right_inj chunk).mpr isPrefix
          · rwa [← List.append_assoc]
          · rw [complete success, List.flatten_cons]
      | false =>
          obtain ⟨rfl, rfl⟩ := Prod.mk.inj (Exec.ok.inj ran)
          refine ⟨[], List.nil_prefix, ?_, fun impossible => absurd impossible Bool.false_ne_true⟩
          rw [List.append_nil]
          exact appends.kept stored first

/-- All bytes of the list are taken, chunk by chunk. -/
def TakesAll (push : Buffer → List UInt8 → Exec (Buffer × Bool)) (maxMultiLen : Nat) (buf : Buffer)
    (codepoints : List Nat) : Prop :=
  ∃ after, pushAll push buf (chunksFrom maxMultiLen [] codepoints) = .ok (after, true)

theorem encodeCodepointsWith_eq (push : Buffer → List UInt8 → Exec (Buffer × Bool))
    (multiLen : 3 ≤ maxMultiLen) (buf : Buffer) (codepoints : List Nat) :
    encodeCodepointsWith push maxMultiLen buf codepoints = encodeReport codepoints <$>
      pushAll push buf (chunksFrom maxMultiLen [] codepoints) :=
  encodeLoopWith_eq push multiLen codepoints buf [] (by rw [List.length_nil]; omega)

theorem encodeOutcome_eq_ok_iff (codepoints : List Nat) :
    encodeOutcome codepoints = .ok () ↔ ∀ cp ∈ codepoints, IsScalar cp := by
  constructor
  · intro encoded cp member
    obtain ⟨cps, rfl⟩ := exists_of_encodeOutcome_ok encoded
    obtain ⟨scalar, -, rfl⟩ := List.mem_map.mp member
    exact scalar.property
  · intro scalar
    have none : firstInvalid codepoints = none :=
      List.find?_eq_none.mpr fun cp member => by simpa using scalar cp member
    rw [encodeOutcome, none]

/-- Encoding succeeds exactly on scalar values that the buffer takes. -/
theorem encodeCodepointsWith_ok_iff (push : Buffer → List UInt8 → Exec (Buffer × Bool))
    (multiLen : 3 ≤ maxMultiLen) (buf : Buffer) (codepoints : List Nat) :
    (∃ after, encodeCodepointsWith push maxMultiLen buf codepoints = .ok (after, .ok ())) ↔
      (∀ cp ∈ codepoints, IsScalar cp) ∧ TakesAll push maxMultiLen buf codepoints := by
  rw [encodeCodepointsWith_eq push multiLen, ← encodeOutcome_eq_ok_iff, TakesAll]
  constructor
  · rintro ⟨after, ran⟩
    obtain ⟨⟨pushedBuf, pushed⟩, pushes, report⟩ := Exec.map_eq_ok ran
    cases pushed with
    | true => exact ⟨(Prod.mk.inj report).2, pushedBuf, pushes⟩
    | false => cases (Prod.mk.inj report).2
  · rintro ⟨outcome, after, pushes⟩
    refine ⟨after, ?_⟩
    rw [pushes, Exec.ok_map, encodeReport, if_pos rfl, outcome]

/-- What a run leaves that encodes all codepoints, or comes to one that cannot be encoded. -/
theorem encodeCodepointsWith_stores (appends : Appends push stores) (multiLen : 3 ≤ maxMultiLen)
    (stored : stores buf content) {codepoints : List Nat} {after : Buffer}
    {result : Except EncodeFailure Unit}
    (ran : encodeCodepointsWith push maxMultiLen buf codepoints = .ok (after, result)) :
    (result = .ok () → ∃ cps, codepoints = scalarValues cps ∧
      stores after (content ++ encode cps)) ∧
    (∀ error, result = .error (some error) → ∃ cps bad rest,
      codepoints = scalarValues cps ++ bad :: rest ∧ ¬ IsScalar bad ∧
        error = invalidCodepointError bad ∧
        ∃ appended, appended <+: encode cps ∧ stores after (content ++ appended)) := by
  rw [encodeCodepointsWith_eq push multiLen] at ran
  obtain ⟨⟨pushedBuf, pushed⟩, pushes, report⟩ := Exec.map_eq_ok ran
  obtain ⟨rfl, rfl⟩ := Prod.mk.inj report
  obtain ⟨appended, isPrefix, stored', complete⟩ := pushAll_stores appends _ stored pushes
  rw [chunksFrom_flatten] at isPrefix complete
  cases pushed with
  | false =>
      have refused : (encodeReport codepoints (pushedBuf, false)).2 = .error none := rfl
      refine ⟨fun failed => ?_, fun error failed => ?_⟩
      · cases refused.symm.trans failed
      · cases refused.symm.trans failed
  | true =>
      have outcome : (encodeReport codepoints (pushedBuf, true)).2 = encodeOutcome codepoints := rfl
      obtain rfl := complete rfl
      rcases encodable_or_invalid codepoints with ⟨cps, rfl⟩ | ⟨cps, bad, rest, rfl, invalid⟩
      · refine ⟨fun _ => ⟨cps, rfl, ?_⟩, fun error failed => ?_⟩
        · rwa [pushedBytes_scalarValues, List.nil_append] at stored'
        · rw [encodeOutcome_scalarValues] at outcome
          cases outcome.symm.trans failed
      · rw [encodeOutcome_invalid cps invalid rest] at outcome
        obtain ⟨front, -⟩ := pushedBytes_invalid maxMultiLen cps invalid rest []
          (by rw [List.length_nil]; omega)
        rw [List.nil_append] at front
        refine ⟨fun encoded => ?_, fun error failed => ?_⟩
        · cases outcome.symm.trans encoded
        · have same := Option.some.inj (Except.error.inj (outcome.symm.trans failed))
          exact ⟨cps, bad, rest, rfl, invalid, same.symm, _, front, stored'⟩

end Appends

/-! ## The buffers of `buffer.c` -/

/-- A buffer and what its next pushes meet. -/
structure MetBuffer where
  buffer : ByteBuffer
  meets : Nat → Surroundings

/-- `ucb_buffer_push` in what it meets. -/
def metPush (buf : MetBuffer) (data : List UInt8) : Exec (MetBuffer × Bool) := do
  let (buffer, pushed) ← Container.ucbBufferPush (buf.meets 0) buf.buffer data
  pure (⟨buffer, fun later => buf.meets (later + 1)⟩, pushed)

/-- `ucb_uc_encode_codepoints` of a buffer of `buffer.c`. -/
def encodeCodepointsMet (maxMultiLen : Nat) (buf : MetBuffer) (codepoints : List Nat) :
    Exec (MetBuffer × Except EncodeFailure Unit) :=
  encodeCodepointsWith metPush maxMultiLen buf codepoints

/-- Making room that fails leaves the buffer. -/
theorem ensure_failed {env : Surroundings} {buf after : ByteBuffer} {content : List UInt8}
    (stores : Stores buf content) {size : Nat}
    (ran : ucbBufferEnsure env buf size = .ok (after, false)) : after = buf := by
  by_cases fits : size ≤ buf.alloc - buf.size
  · have enough : ucbBufferEnsure env buf size = .ok (buf, true) := if_pos fits
    cases enough.symm.trans ran
  · have grows : ucbBufferEnsure env buf size =
        Container.ucbBufferGrow env buf (size - (buf.alloc - buf.size)) := if_neg fits
    rw [grows] at ran
    rcases grow_cases env stores (size - (buf.alloc - buf.size)) with
      ⟨grown, grew, -⟩ | same | ⟨code, aborted, -⟩
    · cases grew.symm.trans ran
    · exact ((Prod.mk.inj (Exec.ok.inj (same.symm.trans ran))).1).symm
    · cases aborted.symm.trans ran

/-- What a push of `buffer.c` leaves, whatever it meets. -/
theorem push_stores {env : Surroundings} {buf after : ByteBuffer} {content data : List UInt8}
    (stores : Stores buf content) {pushed : Bool}
    (ran : Container.ucbBufferPush env buf data = .ok (after, pushed)) :
    Stores after (if pushed then content ++ data else content) := by
  rw [Container.ucbBufferPush] at ran
  split at ran
  · obtain ⟨⟨grown, success⟩, ensured, ran⟩ := Exec.bind_eq_ok.mp ran
    cases success with
    | true =>
        have stores' := ensure_stores stores env data.length ensured
        obtain ⟨written, wrote, ran⟩ := Exec.bind_eq_ok.mp ran
        obtain ⟨rfl, rfl⟩ := Prod.mk.inj (Exec.ok.inj ran)
        by_cases room : data.length ≤ grown.alloc - grown.size
        · obtain ⟨written', wrote', stores''⟩ := blit_stores stores' room
          obtain rfl := Exec.ok.inj (wrote'.symm.trans wrote)
          exact stores''
        · cases (push_outside stores' room).symm.trans wrote
    | false =>
        obtain ⟨rfl, rfl⟩ := Prod.mk.inj (Exec.ok.inj ran)
        rw [ensure_failed stores ensured]
        exact stores
  next empty =>
    obtain ⟨rfl, rfl⟩ := Prod.mk.inj (Exec.ok.inj ran)
    obtain rfl : data = [] := List.eq_nil_of_length_eq_zero (by omega)
    rw [List.append_nil, ite_self]
    exact stores

theorem metPush_appends : Appends metPush fun buf content => Stores buf.buffer content where
  appended stores ran := by
    obtain ⟨⟨buffer, pushed⟩, pushedRan, ran⟩ := Exec.bind_eq_ok.mp ran
    obtain ⟨rfl, rfl⟩ := Prod.mk.inj (Exec.ok.inj ran)
    exact push_stores stores pushedRan
  kept stores ran := by
    obtain ⟨⟨buffer, pushed⟩, pushedRan, ran⟩ := Exec.bind_eq_ok.mp ran
    obtain ⟨rfl, rfl⟩ := Prod.mk.inj (Exec.ok.inj ran)
    exact push_stores stores pushedRan

/-- A push that fits succeeds and leaves the rest of the room. -/
theorem metPush_fits {buf : MetBuffer} {content : List UInt8} (stores : Stores buf.buffer content)
    {data : List UInt8} (room : data.length ≤ buf.buffer.alloc - buf.buffer.size) :
    ∃ after, metPush buf data = .ok (after, true) ∧
      after.buffer.alloc - after.buffer.size =
        buf.buffer.alloc - buf.buffer.size - data.length := by
  by_cases empty : data.length > 0
  · obtain ⟨written, wrote, -⟩ := blit_stores stores room
    have enough : ucbBufferEnsure (buf.meets 0) buf.buffer data.length = .ok (buf.buffer, true) :=
      if_pos room
    refine ⟨⟨{ buf.buffer with data := written, size := buf.buffer.size + data.length },
      fun later => buf.meets (later + 1)⟩, ?_, ?_⟩
    · rw [metPush, Container.ucbBufferPush, if_pos empty, enough, Exec.ok_bind]
      dsimp only
      rw [if_pos rfl, wrote]
      rfl
    · dsimp only
      omega
  · refine ⟨⟨buf.buffer, fun later => buf.meets (later + 1)⟩, ?_, by dsimp only; omega⟩
    rw [metPush, Container.ucbBufferPush, if_neg empty]
    rfl

theorem takesAll_of_room {maxMultiLen : Nat} {buf : MetBuffer} {content : List UInt8}
    (stores : Stores buf.buffer content) (codepoints : List Nat)
    (room : (pushedBytes maxMultiLen [] codepoints).length ≤ buf.buffer.alloc - buf.buffer.size) :
    TakesAll metPush maxMultiLen buf codepoints := by
  rw [← chunksFrom_flatten] at room
  rw [TakesAll]
  generalize chunksFrom maxMultiLen [] codepoints = chunks at room ⊢
  induction chunks generalizing buf content with
  | nil => exact ⟨buf, rfl⟩
  | cons chunk chunks inductionHypothesis =>
      rw [List.flatten_cons, List.length_append] at room
      have fits : chunk.length ≤ buf.buffer.alloc - buf.buffer.size := by omega
      obtain ⟨next, pushed, left⟩ := metPush_fits stores fits
      obtain ⟨after, ran⟩ := inductionHypothesis (metPush_appends.appended stores pushed) (by omega)
      refine ⟨after, ?_⟩
      rw [pushAll, pushed, Exec.ok_bind]
      exact ran

/-- Encoding into any buffer of `buffer.c`: it never leaves the chunk array and only pushes its
chunks; it succeeds exactly on scalar values that the buffer takes, and has then appended their
encodings; when it fails at a codepoint, what it has appended is a beginning of the encodings of
those before. -/
theorem encodeCodepoints_exact {maxMultiLen : Nat} (multiLen : 3 ≤ maxMultiLen) {buf : MetBuffer}
    {content : List UInt8} (stores : Stores buf.buffer content) (codepoints : List Nat) :
    (encodeCodepointsMet maxMultiLen buf codepoints = encodeReport codepoints <$>
      pushAll metPush buf (chunksFrom maxMultiLen [] codepoints)) ∧
    ((∃ after, encodeCodepointsMet maxMultiLen buf codepoints = .ok (after, .ok ())) ↔
      (∀ cp ∈ codepoints, IsScalar cp) ∧ TakesAll metPush maxMultiLen buf codepoints) ∧
    (∀ after, encodeCodepointsMet maxMultiLen buf codepoints = .ok (after, .ok ()) →
      ∃ cps, codepoints = scalarValues cps ∧ Stores after.buffer (content ++ encode cps)) ∧
    (∀ after error,
      encodeCodepointsMet maxMultiLen buf codepoints = .ok (after, .error (some error)) →
        ∃ cps bad rest, codepoints = scalarValues cps ++ bad :: rest ∧ ¬ IsScalar bad ∧
          error = invalidCodepointError bad ∧
          ∃ appended, appended <+: encode cps ∧ Stores after.buffer (content ++ appended)) := by
  refine ⟨encodeCodepointsWith_eq metPush multiLen buf codepoints,
    encodeCodepointsWith_ok_iff metPush multiLen buf codepoints, fun after ran => ?_,
    fun after error ran => ?_⟩
  · exact (encodeCodepointsWith_stores metPush_appends multiLen stores ran).1 rfl
  · exact (encodeCodepointsWith_stores metPush_appends multiLen stores ran).2 error rfl

/-- A heap buffer of one byte that grows to what is asked for. -/
def oneByteBuffer : MetBuffer :=
  ⟨⟨.heap [some 0], 0, 1, true⟩, fun _ => ⟨none, ⟨fun _ _ => true, fun _ => 0⟩⟩⟩

theorem oneByteBuffer_stores : Stores oneByteBuffer.buffer [] :=
  ⟨rfl, .inr ⟨Nat.one_pos, [some 0], rfl, rfl⟩, by decide⟩

theorem encodeCodepoints_exact_letter :
    ∃ after, encodeCodepointsMet 3 oneByteBuffer [0xE9] = .ok (after, .ok ()) := by
  have scalar : ∀ cp ∈ [0xE9], IsScalar cp := by
    intro cp member
    obtain rfl := List.mem_singleton.mp member
    decide
  exact (encodeCodepoints_exact (Nat.le_refl 3) oneByteBuffer_stores [0xE9]).2.1.mpr
    ⟨scalar, _, rfl⟩

/-! ## The buffers of the string functions -/

/-- Their encoder is the same loop. -/
theorem encodeLoop_eq_with (maxMultiLen : Nat) (allocator : Allocator) (codepoints : List Nat) :
    ∀ buf bytes, encodeLoop maxMultiLen allocator buf bytes codepoints =
      encodeLoopWith (Ucb.ucbBufferPush allocator) maxMultiLen buf bytes codepoints := by
  induction codepoints with
  | nil => exact fun buf bytes => rfl
  | cons cp rest inductionHypothesis =>
      intro buf bytes
      rw [encodeLoop, encodeLoopWith]
      cases ucbUcEncodeCodepoint cp with
      | none => rfl
      | some word =>
          refine ite_congr rfl (fun _ => rfl) fun _ => ?_
          refine ite_congr rfl (fun _ => ?_) fun _ => inductionHypothesis _ _
          refine congrArg (Exec.bind _) (funext fun outcome => ?_)
          obtain ⟨buf, pushed⟩ := outcome
          cases pushed with
          | false => rfl
          | true => exact inductionHypothesis buf []

/-- A buffer of the string functions holds its content within its block. -/
def Contains (buf : UcbBuffer) (content : List UInt8) : Prop :=
  buf.size ≤ buf.data.length ∧ buf.content = content

variable {allocator : Allocator}

theorem realloc_contains {buf : UcbBuffer} {content : List UInt8} (contains : Contains buf content)
    {newCapacity : Nat} (larger : buf.data.length ≤ newCapacity) {block : List UInt8}
    (granted : ucbRealloc allocator buf.data newCapacity = some block) :
    Contains { buf with data := block } content := by
  rw [ucbRealloc] at granted
  split at granted
  · obtain rfl := Option.some.inj granted
    rw [List.take_of_length_le larger]
    refine ⟨?_, ?_⟩
    · rw [List.length_append]
      exact Nat.le_add_right_of_le contains.1
    · rw [← contains.2, UcbBuffer.content, UcbBuffer.content,
        List.take_append_of_le_length contains.1]
  · cases granted

theorem grow_contains {buf after : UcbBuffer} {content : List UInt8}
    (contains : Contains buf content) {incCapacity : Nat} {grown : Bool}
    (ran : Ucb.ucbBufferGrow allocator buf incCapacity = .ok (after, grown)) :
    Contains after content := by
  rw [Ucb.ucbBufferGrow] at ran
  dsimp only at ran
  split at ran
  · cases ran
  -- to the capacity asked for, and to a doubled one
  all_goals
    split at ran
    · obtain ⟨rfl, -⟩ := Prod.mk.inj (Exec.ok.inj ran)
      exact contains
    · split at ran
      next block granted =>
        obtain ⟨rfl, -⟩ := Prod.mk.inj (Exec.ok.inj ran)
        exact realloc_contains contains (by omega) granted
      next refused =>
        obtain ⟨rfl, -⟩ := Prod.mk.inj (Exec.ok.inj ran)
        exact contains

theorem blit_contains {buf : UcbBuffer} {content data block : List UInt8}
    (contains : Contains buf content) (written : blit buf.data buf.size data = .ok block) :
    Contains { buf with data := block, size := buf.size + data.length } (content ++ data) := by
  rw [blit] at written
  split at written
  next inside =>
    obtain rfl := Exec.ok.inj written
    have front : (buf.data.take buf.size ++ data).length = buf.size + data.length := by
      rw [List.length_append, List.length_take, Nat.min_eq_left contains.1]
    refine ⟨?_, ?_⟩
    · rw [List.length_append, front]
      exact Nat.le_add_right _ _
    · rw [UcbBuffer.content, ← front, List.take_left, ← contains.2]
      rfl
  next => cases written

/-- Their pushes append as well, whatever the allocator grants. -/
theorem bufferPush_appends (allocator : Allocator) :
    Appends (Ucb.ucbBufferPush allocator) Contains := by
  have outcome : ∀ {buf after : UcbBuffer} {content data : List UInt8} {pushed : Bool},
      Contains buf content → Ucb.ucbBufferPush allocator buf data = .ok (after, pushed) →
        Contains after (if pushed then content ++ data else content) := by
    intro buf after content data pushed contains ran
    rw [Ucb.ucbBufferPush] at ran
    dsimp only at ran
    split at ran
    · split at ran
      · obtain ⟨⟨grown, success⟩, grows, ran⟩ := Exec.bind_eq_ok.mp ran
        have contains' := grow_contains contains grows
        cases success with
        | true =>
            obtain ⟨block, written, ran⟩ := Exec.bind_eq_ok.mp ran
            obtain ⟨rfl, rfl⟩ := Prod.mk.inj (Exec.ok.inj ran)
            exact blit_contains contains' written
        | false =>
            obtain ⟨rfl, rfl⟩ := Prod.mk.inj (Exec.ok.inj ran)
            exact contains'
      · rw [Exec.pure_eq_ok, Exec.ok_bind, if_pos rfl] at ran
        obtain ⟨block, written, ran⟩ := Exec.bind_eq_ok.mp ran
        obtain ⟨rfl, rfl⟩ := Prod.mk.inj (Exec.ok.inj ran)
        exact blit_contains contains written
    next empty =>
      obtain ⟨rfl, rfl⟩ := Prod.mk.inj (Exec.ok.inj ran)
      obtain rfl : data = [] := List.eq_nil_of_length_eq_zero (by omega)
      rw [List.append_nil, ite_self]
      exact contains
  exact ⟨fun contains ran => outcome contains ran, fun contains ran => outcome contains ran⟩

end Ucb.Unicode
