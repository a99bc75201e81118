import Ucb.Unicode.EncodeChunks
import Ucb.Unicode.Normalize

/-!
Contract: encoding a codepoint array over itself, as `normalize` does for the composing forms.

Owns:
- what the buffer looks like whenever a chunk has been pushed;
- that the bytes written never reach a codepoint that has not been read, and the block does not
  move, for every array and whatever the allocator would grant;
- that the bytes are those that a fresh buffer gets.

Codepoints are stored in four bytes each, and no codepoint takes more than four bytes of UTF-8.
-/

namespace Ucb.Unicode

/-! ## The buffer at every flush -/

/-- The buffer behind a pushed chunk, and how many codepoints have been read by then. -/
structure Flush where
  buffer : UcbBuffer
  read : Nat

def flushed (pushed : Exec (UcbBuffer × Bool)) (read : Nat) : Option Flush :=
  pushed.returned.bind fun outcome => if outcome.2 then some ⟨outcome.1, read⟩ else none

/-- The chunks that the loop of `ucb_uc_encode_codepoints` pushes when it reads the codepoints in
the buffer itself. -/
def inPlaceFlushes (maxMultiLen : Nat) (allocator : Allocator) :
    Nat → UcbBuffer → Nat → List UInt8 → List Flush
  | 0, buf, index, bytes =>
      if bytes.length = 0 then []
      else (flushed (ucbBufferPush allocator buf bytes) index).toList
  | left + 1, buf, index, bytes =>
      match (wordAt buf.data index).returned.bind ucbUcEncodeCodepoint with
      | none => []
      | some word =>
          if bytes.length + word.length ≥ 4 * maxMultiLen then
            match flushed (ucbBufferPush allocator buf (bytes ++ word)) (index + 1) with
            | none => []
            | some flush =>
                flush :: inPlaceFlushes maxMultiLen allocator left flush.buffer (index + 1) []
          else inPlaceFlushes maxMultiLen allocator left buf (index + 1) (bytes ++ word)

/-- The bytes written end before the first codepoint that has not been read, the block is the
one of `mem`, and what has not been read is unchanged. -/
structure FlushBehind (mem : List UInt8) (flush : Flush) : Prop where
  behind : flush.buffer.size ≤ 4 * flush.read
  block : flush.buffer.data.length = mem.length
  unread : flush.buffer.data.drop (4 * flush.read) = mem.drop (4 * flush.read)

/-- A block whose front has been written over. -/
def overwritten (written mem : List UInt8) (growth : BufferGrowth) : UcbBuffer :=
  ⟨written ++ mem.drop written.length, written.length, growth⟩

theorem overwritten_behind {written mem : List UInt8} {read : Nat} (growth : BufferGrowth)
    (behind : written.length ≤ 4 * read) (inside : written.length ≤ mem.length) :
    FlushBehind mem ⟨overwritten written mem growth, read⟩ where
  behind := behind
  block := by
    rw [overwritten, List.length_append, List.length_drop]
    omega
  unread := by
    obtain ⟨further, split⟩ := Nat.exists_eq_add_of_le behind
    dsimp only [overwritten]
    rw [split, ← List.drop_drop, List.drop_left, List.drop_drop]

/-- A chunk that ends within the block is written over what is there. -/
theorem push_overwritten (allocator : Allocator) {written mem bytes : List UInt8}
    (growth : BufferGrowth) (room : written.length + bytes.length ≤ mem.length) :
    ucbBufferPush allocator (overwritten written mem growth) bytes =
      .ok (overwritten (written ++ bytes) mem growth, true) := by
  have inside : bytes.length ≤ (mem.drop written.length).length := by
    rw [List.length_drop]
    omega
  rw [overwritten, bufferPush_fits allocator written _ growth inside, List.drop_drop, overwritten,
    List.length_append]

theorem flushed_ok (buf : UcbBuffer) (read : Nat) :
    flushed (.ok (buf, true)) read = some ⟨buf, read⟩ :=
  rfl

/-! ## All codepoints -/

/-- The codepoint that is read next has not been written over. -/
theorem wordAt_overwritten (front : List Nat) {cp : Nat} (rest : List Nat)
    {written spare : List UInt8}
    (growth : BufferGrowth) (small : cp < 2 ^ 32) (behind : written.length ≤ 4 * front.length) :
    wordAt (overwritten written (wordsBytes (front ++ cp :: rest) ++ spare) growth).data
      front.length = .ok cp := by
  rw [overwritten, wordAt_behind _ _ behind, wordsBytes_append, wordsBytes_cons, List.append_assoc,
    List.append_assoc]
  exact wordAt_stored front small _

/-- The bytes read are at least as many as the bytes written and collected; so the chunks are
pushed within the block, behind what has been read. -/
theorem inPlaceLoop_behind {maxMultiLen : Nat} (multiLen : 3 ≤ maxMultiLen) (allocator : Allocator)
    (growth : BufferGrowth) (spare : List UInt8) (rest : List Nat) :
    ∀ (front : List Nat) (mem written bytes : List UInt8),
      mem = wordsBytes (front ++ rest) ++ spare → (∀ cp ∈ rest, cp < 2 ^ 32) →
      bytes.length < 4 * maxMultiLen → written.length + bytes.length ≤ 4 * front.length →
      encodeInPlaceLoop maxMultiLen allocator rest.length (overwritten written mem growth)
          front.length bytes =
        .ok (overwritten (written ++ pushedBytes maxMultiLen bytes rest) mem growth,
          encodeOutcome rest) ∧
      ∀ flush ∈ inPlaceFlushes maxMultiLen allocator rest.length (overwritten written mem growth)
        front.length bytes, FlushBehind mem flush := by
  induction rest with
  | nil =>
      intro front mem written bytes memEq _ _ behind
      have length := congrArg List.length memEq
      rw [List.append_nil, List.length_append, wordsBytes_length] at length
      rw [List.length_nil, encodeInPlaceLoop, encodeLoop, inPlaceFlushes, pushedBytes]
      by_cases empty : bytes.length = 0
      · obtain rfl := List.eq_nil_of_length_eq_zero empty
        rw [List.append_nil]
        exact ⟨rfl, fun flush member => absurd member List.not_mem_nil⟩
      · have room : written.length + bytes.length ≤ mem.length := by omega
        rw [if_neg empty, if_neg empty, push_overwritten allocator growth room,
          flushed_ok]
        refine ⟨rfl, fun flush member => ?_⟩
        obtain rfl := List.mem_singleton.mp member
        exact overwritten_behind growth (by rw [List.length_append]; omega)
          (by rw [List.length_append]; omega)
  | cons cp rest inductionHypothesis =>
      intro front mem written bytes memEq small short behind
      obtain ⟨first, later⟩ := List.forall_mem_cons.mp small
      have length := congrArg List.length memEq
      rw [List.length_append, wordsBytes_length, List.length_append, List.length_cons] at length
      have nextEq : mem = wordsBytes (front ++ [cp] ++ rest) ++ spare := by
        rw [memEq, List.append_assoc front, List.singleton_append]
      have loaded : wordAt (overwritten written mem growth).data front.length = .ok cp := by
        rw [memEq]
        exact wordAt_overwritten front rest growth first (by omega)
      have index : (front ++ [cp]).length = front.length + 1 := List.length_append
      rw [List.length_cons, encodeInPlaceLoop, inPlaceFlushes, loaded, Exec.ok_bind, Exec.returned,
        Option.bind_some]
      cases written' : ucbUcEncodeCodepoint cp with
      | none =>
          have invalid := (encodeCodepoint_eq_none_iff cp).mp written'
          simp [pushedBytes, written', encodeOutcome, firstInvalid, invalid]
      | some word =>
          obtain ⟨width, scalar⟩ := encodeCodepoint_length_le written'
          have inChunk : ¬ bytes.length + word.length > 5 * maxMultiLen := by omega
          dsimp only
          rw [if_neg inChunk, encodeOutcome_cons scalar, pushedBytes, written']
          dsimp only
          by_cases full : bytes.length + word.length ≥ 4 * maxMultiLen
          · have room : written.length + (bytes ++ word).length ≤ mem.length := by
              rw [List.length_append]
              omega
            have advanced : (written ++ (bytes ++ word)).length ≤ 4 * (front.length + 1) := by
              rw [List.length_append, List.length_append]
              omega
            obtain ⟨run, flushes⟩ := inductionHypothesis (front ++ [cp]) mem
              (written ++ (bytes ++ word)) [] nextEq later (by rw [List.length_nil]; omega)
              (by rw [List.length_nil, index]; omega)
            have here : FlushBehind mem
                ⟨overwritten (written ++ (bytes ++ word)) mem growth, front.length + 1⟩ :=
              overwritten_behind growth advanced (by rw [List.length_append]; omega)
            have before : FlushBehind mem ⟨overwritten written mem growth, front.length⟩ :=
              overwritten_behind growth (by omega) (by omega)
            have block : (overwritten (written ++ (bytes ++ word)) mem growth).data.length =
                (overwritten written mem growth).data.length :=
              here.block.trans before.block.symm
            rw [index] at run flushes
            rw [if_pos full, if_pos full, if_pos full, push_overwritten allocator growth room,
              flushed_ok, Exec.ok_bind]
            dsimp only
            refine ⟨?_, ?_⟩
            · rw [if_neg Bool.noConfusion, if_neg (fun both => both.2 block), run,
                List.append_assoc, List.append_assoc]
            · exact List.forall_mem_cons.mpr ⟨here, flushes⟩
          · obtain ⟨run, flushes⟩ := inductionHypothesis (front ++ [cp]) mem written (bytes ++ word)
              nextEq later (by rw [List.length_append]; omega)
              (by rw [List.length_append, index]; omega)
            rw [index] at run flushes
            rw [if_neg full, if_neg full, if_neg full]
            exact ⟨run, flushes⟩

/-! ## Against a fresh buffer -/

/-- The buffer's block begins with an array of codepoints. -/
structure StoresArray (buf : UcbBuffer) (cps : List Nat) : Prop where
  block : ∃ spare, buf.data = wordsBytes cps ++ spare
  small : ∀ cp ∈ cps, cp < 2 ^ 32

/-- What encoding leaves in a buffer that is not refused memory. -/
theorem encodeCodepoints_contains {maxMultiLen : Nat} (multiLen : 3 ≤ maxMultiLen)
    {allocator : Allocator} {buf after : UcbBuffer} {content : List UInt8}
    (contains : Contains buf content) {cps : List Nat} {result : Except EncodeFailure Unit}
    (ran : ucbUcEncodeCodepoints maxMultiLen allocator buf cps = .ok (after, result))
    (given : result ≠ .error none) :
    after.content = content ++ pushedBytes maxMultiLen [] cps ∧ result = encodeOutcome cps := by
  rw [ucbUcEncodeCodepoints, encodeLoop_eq_with] at ran
  have whole := encodeCodepointsWith_eq (ucbBufferPush allocator) multiLen buf cps
  rw [encodeCodepointsWith, ran] at whole
  obtain ⟨⟨pushedBuf, pushed⟩, pushes, report⟩ := Exec.map_eq_ok whole.symm
  obtain ⟨rfl, rfl⟩ := Prod.mk.inj report
  cases pushed with
  | false => exact absurd rfl given
  | true =>
      obtain ⟨appended, -, stored, complete⟩ :=
        pushAll_stores (bufferPush_appends allocator) _ contains pushes
      rw [complete rfl, chunksFrom_flatten] at stored
      exact ⟨stored.2, rfl⟩

/-- Encoding an array over itself, into the cleared buffer: the block stays, every chunk ends
before the first codepoint that has not been read, and the bytes and the result are those of a
fresh buffer, of any kind and with any allocator that does not refuse it memory. -/
theorem encodeInPlace_safe {maxMultiLen : Nat} (multiLen : 3 ≤ maxMultiLen) (allocator : Allocator)
    {buf : UcbBuffer} {cps : List Nat} (stored : StoresArray buf cps) :
    ∃ after, ucbUcEncodeInPlace maxMultiLen allocator (ucbBufferClear buf) cps.length =
        .ok (after, encodeOutcome cps) ∧
      after.data.length = buf.data.length ∧
      (∀ flush ∈ inPlaceFlushes maxMultiLen allocator cps.length (ucbBufferClear buf) 0 [],
        FlushBehind buf.data flush) ∧
      ∀ other fresh freshAfter result, Contains fresh [] →
        ucbUcEncodeCodepoints maxMultiLen other fresh cps = .ok (freshAfter, result) →
          result ≠ .error none →
            freshAfter.content = after.content ∧ result = encodeOutcome cps := by
  obtain ⟨spare, block⟩ := stored.block
  have cleared : ucbBufferClear buf = overwritten [] buf.data buf.growth := by
    rw [ucbBufferClear, overwritten, List.length_nil, List.drop_zero, List.nil_append]
  obtain ⟨run, flushes⟩ := inPlaceLoop_behind multiLen allocator buf.growth spare cps [] buf.data []
    [] block stored.small (by rw [List.length_nil]; omega) (Nat.le_refl _)
  have fits := pushedBytes_length_le maxMultiLen cps []
  have length := congrArg List.length block
  rw [List.length_append, wordsBytes_length] at length
  rw [List.nil_append] at run
  refine ⟨overwritten (pushedBytes maxMultiLen [] cps) buf.data buf.growth, ?_, ?_, ?_, ?_⟩
  · rw [ucbUcEncodeInPlace, cleared]
    exact run
  · rw [overwritten, List.length_append, List.length_drop]
    rw [List.length_nil] at fits
    omega
  · rw [cleared]
    exact flushes
  · intro other fresh freshAfter result empty ran given
    obtain ⟨content, outcome⟩ := encodeCodepoints_contains multiLen empty ran given
    refine ⟨?_, outcome⟩
    rw [content, List.nil_append, UcbBuffer.content, overwritten, List.take_left]

/-- Three letters of one, two and three bytes in a buffer with no room behind them. -/
theorem encodeInPlace_safe_letters :
    StoresArray ⟨wordsBytes [0x61, 0xE9, 0x20AC], 12, .double⟩ [0x61, 0xE9, 0x20AC] ∧
    ∃ after, ucbUcEncodeInPlace 3 ⟨fun _ _ => false, fun _ => 0⟩
        (ucbBufferClear ⟨wordsBytes [0x61, 0xE9, 0x20AC], 12, .double⟩) 3 =
      .ok (after, encodeOutcome [0x61, 0xE9, 0x20AC]) ∧ after.data.length = 12 := by
  have stored : StoresArray ⟨wordsBytes [0x61, 0xE9, 0x20AC], 12, .double⟩ [0x61, 0xE9, 0x20AC] :=
    ⟨⟨[], (List.append_nil _).symm⟩, by decide⟩
  obtain ⟨after, ran, block, -⟩ :=
    encodeInPlace_safe (Nat.le_refl 3) ⟨fun _ _ => false, fun _ => 0⟩ stored
  exact ⟨stored, after, ran, block⟩

/-! ## In `normalize` -/

/-- The end of `normalize` encodes the composed codepoints that way. -/
theorem normRecode_in_place (tables : UcbUcNormTables) (allocator : Allocator) {ctx : NormCtx}
    {cps composed : List Nat} {block : List UInt8}
    (loaded : wordsAt ctx.cp.data 0 (ctx.cp.size / 4) = .ok cps)
    (composes : normCompose tables cps = .ok composed) (small : ∀ cp ∈ composed, cp < 2 ^ 32)
    (moved : blit ctx.cp.data 0 (wordsBytes composed) = .ok block) :
    StoresArray { ctx.cp with data := block } composed ∧
      normRecode tables allocator ctx = (fun outcome => outcome.2.map fun _ =>
          { ctx with cp := outcome.1 }) <$>
        ucbUcEncodeInPlace tables.maxMultiLen allocator
          (ucbBufferClear { ctx.cp with data := block }) composed.length := by
  constructor
  · refine ⟨?_, small⟩
    rw [blit] at moved
    split at moved
    · obtain rfl := Exec.ok.inj moved
      exact ⟨_, rfl⟩
    · cases moved
  · rw [normRecode, loaded, Exec.ok_bind, composes, Exec.ok_bind, moved, Exec.ok_bind]
    dsimp only
    generalize ucbUcEncodeInPlace tables.maxMultiLen allocator
      (ucbBufferClear { ctx.cp with data := block }) composed.length = encoded
    cases encoded <;> rfl

end Ucb.Unicode
