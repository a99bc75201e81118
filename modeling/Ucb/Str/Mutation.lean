import Ucb.Str.Content
import Ucb.Unicode.Clusters

/-!
Contract: appending and inserting in terms of contents.

Owns:
- what reserving and then writing leaves in the string;
- one equation for each of the append and insert functions.
-/

namespace Ucb.Str

open Ucb.Unicode

/-! ## Reserve, then write -/

/-- The string after `ucb_str_reserve` of `n` bytes and, if that allocated,
writing `new`. -/
def grownTo (allocator : Allocator) (str : UcbStr) (n : Nat) (new : UcbStr) : UcbStr :=
  if Grows str n then
    if GrowGranted allocator str n then new
    else if str.alloc = 0 then str
    else { str with data := .dangling }
  else str

theorem reserve_then {str new : UcbStr} {content : List UInt8} (holds : Holds str content)
    (allocator : Allocator) {n : Nat} (positive : n ≠ 0) (write : UcbStr → Exec UcbStr)
    (writes : ∀ spare : List UInt8, spare.length = n →
      write (ownedStr content (0 :: spare) (content.length + n + 1)) = .ok new) :
    (do
      let (str, reserved) ← reserveRoom allocator str n
      if reserved then write str else pure str) = .ok (grownTo allocator str n new) := by
  rcases reserve_cases holds allocator n with ⟨grows, granted, spare, length, reserved⟩ |
    ⟨room, reserved⟩ | ⟨grows, refused, empty, reserved⟩ | ⟨grows, refused, nonempty, reserved⟩
  · simp [reserved, grownTo, grows, granted, writes spare length]
  · simp [reserved, grownTo, room, positive]
  · simp [reserved, grownTo, grows, refused, empty]
  · simp [reserved, grownTo, grows, refused, nonempty]

theorem writeAndTerminate_owned (content bytes spare : List UInt8) (alloc : Nat)
    (room : bytes.length < spare.length) :
    writeAndTerminate (ownedStr content spare alloc) content.length bytes =
      .ok (ownedStr (content ++ bytes) (0 :: spare.drop (bytes.length + 1)) alloc) := by
  have written := blit_spare content spare (Nat.le_of_lt room)
  have terminated := blit_terminator (content ++ bytes) (spare.drop bytes.length)
    (by rw [List.length_drop]; omega)
  rw [List.length_append, List.drop_drop] at terminated
  simp only [writeAndTerminate, ownedStr, StrData.owned, Exec.ok_bind, written, terminated,
    Exec.pure_eq_ok, List.length_append]

/-- The bytes behind `left` are moved up and the gap is filled. -/
theorem moveAndWrite_owned (left right bytes spare : List UInt8) (alloc : Nat)
    (room : bytes.length < spare.length) :
    moveAndWrite (ownedStr (left ++ right) spare alloc) left.length bytes.length bytes =
      .ok (ownedStr (left ++ bytes ++ right) (0 :: spare.drop (bytes.length + 1)) alloc) := by
  -- `gap` is overwritten by the new bytes, `rest` first by the moved tail
  obtain ⟨gap, rest, split, gapLength⟩ : ∃ gap rest, right ++ spare = gap ++ rest ∧
      gap.length = bytes.length :=
    ⟨(right ++ spare).take bytes.length, (right ++ spare).drop bytes.length,
      (List.take_append_drop _ _).symm, by simp; omega⟩
  have restLength : right.length < rest.length := by
    have lengths := congrArg List.length split
    rw [List.length_append, List.length_append] at lengths
    omega
  have block_eq : left ++ right ++ spare = left ++ gap ++ rest := by
    rw [List.append_assoc, split, List.append_assoc]
  have tail := slice_append left right spare
  have moved := blit_spare (left ++ gap) rest (Nat.le_of_lt restLength)
  have filled := blit_append left gap (right ++ rest.drop right.length) gapLength
  have terminated := blit_terminator (left ++ bytes ++ right) (rest.drop right.length)
    (by rw [List.length_drop]; omega)
  have spare_eq : (rest.drop right.length).drop 1 = spare.drop (bytes.length + 1) := by
    calc (rest.drop right.length).drop 1
        = (gap ++ rest).drop (gap.length + (right.length + 1)) := by
          rw [List.drop_drop, List.drop_length_add_append]
      _ = (right ++ spare).drop (right.length + (bytes.length + 1)) := by
          rw [← split, gapLength, Nat.add_left_comm]
      _ = spare.drop (bytes.length + 1) := List.drop_length_add_append _
  have size : (left ++ right).length - left.length = right.length := by simp
  have newSize : (left ++ right).length + bytes.length = (left ++ bytes ++ right).length := by
    simp only [List.length_append]
    omega
  rw [List.length_append, gapLength] at moved
  rw [block_eq] at tail
  simp only [List.append_assoc] at moved filled terminated tail spare_eq
  simp only [moveAndWrite, writeAndTerminate, ownedStr, StrData.owned, Exec.ok_bind, size, block_eq,
    newSize,
    List.append_assoc, tail, moved, filled, terminated, spare_eq, Exec.pure_eq_ok]

/-! ## Appending -/

/-- An argument the code has measured and verified. -/
structure Verified (str : UcbStr) (cstr : CstrArg) (len : Nat) (text : List UInt8) : Prop where
  read : ∃ rest, cstr.load str = .ok (text ++ rest) ∧
    cstrLen (text ++ rest) len = .ok text.length ∧
    ucbStrVerifyCstr (text ++ rest) text.length = .ok ()
  nonempty : text ≠ []

theorem Verified.not_null {str : UcbStr} {cstr : CstrArg} {len : Nat} {text : List UInt8}
    (verified : Verified str cstr len text) : cstr ≠ .null := by
  rintro rfl
  obtain ⟨rest, load, -⟩ := verified.read
  cases load

/-- The copy of an argument that lies in the string itself could not be made. -/
def CopyRefused (allocator : Allocator) (str : UcbStr) (cstr : CstrArg) (n : Nat) : Prop :=
  ucbStrAliases str cstr = true ∧ ¬ allocator.grants .malloc n = true

theorem slice_text (text rest : List UInt8) : slice (text ++ rest) 0 text.length = .ok text :=
  slice_left text rest

theorem copyOut {allocator : Allocator} (text : List UInt8) :
    blit (allocator.freshBlock text.length) 0 text = .ok text := by
  have written := blit_append [] (allocator.freshBlock text.length) []
    (Allocator.freshBlock_length allocator text.length)
  simpa using written

theorem appendCstr_verified {str : UcbStr} {content : List UInt8} (holds : Holds str content)
    (allocator : Allocator) {cstr : CstrArg} {len : Nat} {text : List UInt8}
    (verified : Verified str cstr len text) :
    (CopyRefused allocator str cstr text.length ∧
        ucbStrAppendCstr allocator str cstr len = .ok str) ∨
      (¬ CopyRefused allocator str cstr text.length ∧
        ucbStrAppendCstr allocator str cstr len =
          .ok (grownTo allocator str text.length
            (ownedStr (content ++ text) [0] (content.length + text.length + 1)))) := by
  have notNull := verified.not_null
  have nonzero : text.length ≠ 0 := by simp [verified.nonempty]
  obtain ⟨rest, load, measured, accepted⟩ := verified.read
  have writes (spare : List UInt8) (length : spare.length = text.length) :
      writeAndTerminate (ownedStr content (0 :: spare) (content.length + text.length + 1))
          content.length text =
        .ok (ownedStr (content ++ text) [0] (content.length + text.length + 1)) := by
    rw [writeAndTerminate_owned content text (0 :: spare) _ (by simp [length]), List.drop_succ_cons,
      List.drop_of_length_le (Nat.le_of_eq length)]
  have grown := reserve_then holds allocator nonzero
    (fun str => writeAndTerminate str str.size text) writes
  unfold ucbStrAppendCstr
  simp only [notNull, ne_eq, not_false_eq_true, true_or, decide_true, ucbVerify_true, Exec.ok_bind,
    if_false, load, measured, nonzero, accepted]
  by_cases aliases : ucbStrAliases str cstr = true
  · by_cases granted : allocator.grants .malloc text.length = true
    · refine .inr ⟨fun refused => refused.2 granted, ?_⟩
      simp only [aliases, if_true, malloc_granted granted (Nat.pos_of_ne_zero nonzero), slice_text,
        copyOut, Exec.ok_bind]
      exact grown
    · refine .inl ⟨⟨aliases, granted⟩, ?_⟩
      simp only [aliases, if_true, malloc_refused granted]
      rfl
  · refine .inr ⟨fun refused => aliases refused.1, ?_⟩
    simp only [aliases, slice_text, Exec.ok_bind]
    exact grown

/-! ## Positions -/

theorem mapCharPos_holds {str : UcbStr} {cps : List Scalar} (holds : Holds str (encode cps))
    (tables : UcbUcTables) (index : Nat) :
    ucbStrMapCharPos tables str index =
      .ok (if index > (graphemeClusters tables cps).length then .error true
        else .ok (encode ((graphemeClusters tables cps).take index).flatten).length) := by
  obtain ⟨spare, load⟩ := holds.load
  have valid := (validate_append (encode cps) spare).trans
    ((validate_ok_iff (encode cps)).mpr ⟨cps, rfl⟩)
  have counted := numChar_clusters tables cps spare
  rw [← holds.size_eq] at valid counted
  unfold ucbStrMapCharPos
  simp only [load, valid, counted, Exec.ok_bind]
  split
  · rfl
  · rename_i inside
    rcases Nat.eq_zero_or_pos index with rfl | positive
    · simp
    · have found := charIndex_clusters tables cps spare positive (Nat.le_of_not_gt inside)
      rw [← holds.size_eq] at found
      rw [if_neg (Nat.ne_of_gt positive), found]
      rfl

/-! ## Inserting -/

theorem insertAt_text {str : UcbStr} {left right : List UInt8}
    (holds : Holds str (left ++ right)) (allocator : Allocator) {cstr : CstrArg}
    {text rest : List UInt8} (load : cstr.load str = .ok (text ++ rest)) (nonempty : text ≠ []) :
    (CopyRefused allocator str cstr text.length ∧
        ucbStrInsertAt allocator str left.length cstr text.length = .ok str) ∨
      (¬ CopyRefused allocator str cstr text.length ∧
        ucbStrInsertAt allocator str left.length cstr text.length =
          .ok (grownTo allocator str text.length
            (ownedStr (left ++ text ++ right) [0]
              ((left ++ right).length + text.length + 1)))) := by
  have nonzero : text.length ≠ 0 := by simp [nonempty]
  have writes (spare : List UInt8) (length : spare.length = text.length) :
      moveAndWrite
        (ownedStr (left ++ right) (0 :: spare) ((left ++ right).length + text.length + 1))
          left.length text.length text =
        .ok (ownedStr (left ++ text ++ right) [0] ((left ++ right).length + text.length + 1)) := by
    rw [moveAndWrite_owned left right text (0 :: spare) _ (by simp [length]), List.drop_succ_cons,
      List.drop_of_length_le (Nat.le_of_eq length)]
  have grown := reserve_then holds allocator nonzero
    (fun str => moveAndWrite str left.length text.length text) writes
  unfold ucbStrInsertAt
  simp only [nonzero, if_false, load, Exec.ok_bind]
  by_cases aliases : ucbStrAliases str cstr = true
  · by_cases granted : allocator.grants .malloc text.length = true
    · refine .inr ⟨fun refused => refused.2 granted, ?_⟩
      simp only [aliases, if_true, malloc_granted granted (Nat.pos_of_ne_zero nonzero), slice_text,
        copyOut, Exec.ok_bind]
      exact grown
    · refine .inl ⟨⟨aliases, granted⟩, ?_⟩
      simp only [aliases, if_true, malloc_refused granted]
      rfl
  · refine .inr ⟨fun refused => aliases refused.1, ?_⟩
    simp only [aliases, slice_text, Exec.ok_bind]
    exact grown

/-- The content with a text inserted in front of the cluster at `index`. -/
def insertedAt (tables : UcbUcTables) (cps : List Scalar) (index : Nat) (text : List UInt8) :
    List UInt8 :=
  encode ((graphemeClusters tables cps).take index).flatten ++ text ++
    encode ((graphemeClusters tables cps).drop index).flatten

theorem encode_split (tables : UcbUcTables) (cps : List Scalar) (index : Nat) :
    encode cps = encode ((graphemeClusters tables cps).take index).flatten ++
      encode ((graphemeClusters tables cps).drop index).flatten := by
  rw [← encode_append, ← List.flatten_append, List.take_append_drop, graphemeClusters_flatten]

theorem insertCstr_verified {str : UcbStr} {cps : List Scalar} (holds : Holds str (encode cps))
    (tables : UcbUcTables) (allocator : Allocator) (index : Nat) {cstr : CstrArg} {len : Nat}
    {text : List UInt8} (verified : Verified str cstr len text) :
    (index > (graphemeClusters tables cps).length ∧
        ucbStrInsertCstr tables allocator str index cstr len = .abort .invalidArg) ∨
      (index ≤ (graphemeClusters tables cps).length ∧
        CopyRefused allocator str cstr text.length ∧
        ucbStrInsertCstr tables allocator str index cstr len = .ok str) ∨
      (index ≤ (graphemeClusters tables cps).length ∧
        ¬ CopyRefused allocator str cstr text.length ∧
        ucbStrInsertCstr tables allocator str index cstr len =
          .ok (grownTo allocator str text.length
            (ownedStr (insertedAt tables cps index text) [0]
              ((encode cps).length + text.length + 1)))) := by
  have notNull := verified.not_null
  have nonzero : text.length ≠ 0 := by simp [verified.nonempty]
  obtain ⟨rest, load, measured, accepted⟩ := verified.read
  unfold ucbStrInsertCstr
  simp only [notNull, ne_eq, not_false_eq_true, true_or, decide_true, ucbVerify_true, Exec.ok_bind,
    if_false, load, measured, nonzero, accepted, mapCharPos_holds holds tables index]
  by_cases outside : index > (graphemeClusters tables cps).length
  · exact .inl ⟨outside, by rw [if_pos outside]⟩
  · have inside := Nat.le_of_not_gt outside
    have split := encode_split tables cps index
    rw [if_neg outside]
    rw [split] at holds ⊢
    rcases insertAt_text holds allocator load verified.nonempty with
      ⟨refused, unchanged⟩ | ⟨copied, inserted⟩
    · exact .inr (.inl ⟨inside, refused, unchanged⟩)
    · exact .inr (.inr ⟨inside, copied, inserted⟩)

/-! ## Codepoint lists -/

theorem verifyNonzero_ok {cps : List Nat} (nonzero : ∀ cp ∈ cps, cp ≠ 0) :
    verifyNonzero cps = .ok () := by
  have all : cps.all (· ≠ 0) = true := by simpa using nonzero
  rw [verifyNonzero, all, ucbVerify_true]

/-- `ucb_str_append_cp` after it has allocated: the chunks are written behind
the content before the outcome is known. -/
theorem appendCp_grown (tables : UcbUcTables) (allocator : Allocator) {str : UcbStr}
    {content spare : List UInt8} {cps : List Nat} (nonzero : ∀ cp ∈ cps, cp ≠ 0)
    (nonempty : cps ≠ []) (length : spare.length = 4 * cps.length)
    (reserved : reserveRoom allocator str (4 * cps.length) =
      .ok (ownedStr content (0 :: spare) (content.length + 4 * cps.length + 1), true)) :
    ∃ tail,
      (pushedBytes tables.maxMultiLen [] cps).length + tail.length = 4 * cps.length + 1 ∧
      (pushedBytes tables.maxMultiLen [] cps = [] → tail = 0 :: spare) ∧
      ucbStrAppendCp tables allocator str cps =
        match encodeOutcome cps with
        | .ok () =>
            .ok (ownedStr (content ++ pushedBytes tables.maxMultiLen [] cps) (0 :: tail.drop 1)
              (content.length + 4 * cps.length + 1), true, none)
        | .error error =>
            .ok (ownedStr content (pushedBytes tables.maxMultiLen [] cps ++ tail)
              (content.length + 4 * cps.length + 1), false, error) := by
  obtain ⟨view, last, split, viewLength⟩ : ∃ view last, 0 :: spare = view ++ last ∧
      view.length = 4 * cps.length :=
    ⟨(0 :: spare).take (4 * cps.length), (0 :: spare).drop (4 * cps.length),
      (List.take_append_drop _ _).symm, by simp [length]⟩
  have lastLength : last.length = 1 := by
    have lengths := congrArg List.length split
    rw [List.length_cons, List.length_append] at lengths
    omega
  have positive : 0 < cps.length := List.length_pos_of_ne_nil nonempty
  have pushedLength := pushedBytes_length_le tables.maxMultiLen cps []
  have encoded := encodeLoop_fits tables.multiLen allocator .fixed cps [] view []
    (by have multiLen := tables.multiLen; simp; omega) (by simp [viewLength])
  have sliced := slice_append content view last
  generalize pushedBytes tables.maxMultiLen [] cps = pushed at pushedLength encoded ⊢
  rw [List.length_nil, Nat.zero_add] at pushedLength
  have writtenLength : view.length = (pushed ++ view.drop pushed.length).length := by
    rw [List.length_append, List.length_drop]
    omega
  have written := blit_append content view last writtenLength
  have terminated := blit_terminator (content ++ pushed) (view.drop pushed.length ++ last)
    (by rw [List.length_append]; omega)
  refine ⟨view.drop pushed.length ++ last, ?_, ?_, ?_⟩
  · rw [List.length_append, List.length_drop]
    omega
  · rintro rfl
    simpa using split.symm
  · simp only [List.nil_append, List.length_nil] at encoded
    rw [List.length_append] at terminated
    simp only [List.append_assoc] at sliced written terminated
    rw [viewLength] at sliced
    unfold ucbStrAppendCp
    simp only [verifyNonzero_ok nonzero, Exec.ok_bind, reserved, ownedStr, StrData.owned, if_true,
      split, sliced, ucbBufferInitStatic, viewLength, Nat.mul_pos (by omega : 0 < 4) positive,
      decide_true, gt_iff_lt, ucbVerify_true, Exec.pure_eq_ok, ucbUcEncodeCodepoints, encoded,
      written]
    cases encodeOutcome cps with
    | ok _ => simp only [terminated, Exec.ok_bind, List.length_append, List.append_assoc]
    | error error => rfl

/-- Without growth `ucb_str_append_cp` reports failure and appends nothing. -/
theorem appendCp_not_grown (tables : UcbUcTables) (allocator : Allocator) {str : UcbStr}
    {cps : List Nat} (nonzero : ∀ cp ∈ cps, cp ≠ 0) {unchanged : UcbStr}
    (reserved : reserveRoom allocator str (4 * cps.length) = .ok (unchanged, false)) :
    ucbStrAppendCp tables allocator str cps = .ok (unchanged, false, none) := by
  simp [ucbStrAppendCp, verifyNonzero_ok nonzero, reserved]

/-- The empty list never succeeds: its static buffer would have no bytes. -/
theorem appendCp_nil (tables : UcbUcTables) (allocator : Allocator) {str : UcbStr}
    {content : List UInt8} (holds : Holds str content) :
    ucbStrAppendCp tables allocator str [] = .abort .invalidArg ∨
      ucbStrAppendCp tables allocator str [] = .ok (str, false, none) := by
  have abort {grown : UcbStr} {newContent : List UInt8} (grownHolds : Holds grown newContent)
      (owned : grown.alloc ≠ 0) (reserved : reserveRoom allocator str 0 = .ok (grown, true)) :
      ucbStrAppendCp tables allocator str [] = .abort .invalidArg := by
    cases grownHolds with
    | interned => exact absurd rfl owned
    | owned content spare alloc above inside =>
        simp [ucbStrAppendCp, verifyNonzero, reserved, ownedStr, StrData.owned, slice,
          ucbBufferInitStatic]
  rcases reserve_cases holds allocator 0 with ⟨grows, granted, spare, length, reserved⟩ |
    ⟨room, reserved⟩ | ⟨grows, refused, empty, reserved⟩ | ⟨grows, refused, nonempty, reserved⟩
  · exact .inl (abort (.owned content (0 :: spare) _ (by omega) (by simp [length]))
      (by simp [ownedStr]) reserved)
  · exact .inl (abort holds (fun empty => room (.inl empty)) reserved)
  · exact .inr (appendCp_not_grown tables allocator (by simp) reserved)
  · rcases grows with empty | ⟨nonzero, -⟩
    · exact absurd empty nonempty
    · exact absurd rfl nonzero

theorem encodeLoop_no_memory {maxMultiLen : Nat} (allocator : Allocator) (cps : List Nat) :
    ∀ (bytes : List UInt8) (buffer : UcbBuffer),
      encodeLoop maxMultiLen allocator ⟨[], 0, .fixed⟩ bytes cps = .ok (buffer, .ok ()) →
      bytes = [] ∧ cps = [] := by
  have refuses {bytes : List UInt8} (nonempty : 0 < bytes.length) :
      ucbBufferPush allocator ⟨[], 0, .fixed⟩ bytes = .abort .buffer := by
    simp [ucbBufferPush, ucbBufferGrow, nonempty]
  induction cps with
  | nil =>
      intro bytes buffer encoded
      by_cases empty : bytes.length = 0
      · exact ⟨List.eq_nil_of_length_eq_zero empty, rfl⟩
      · simp [encodeLoop, empty, refuses (Nat.pos_of_ne_zero empty)] at encoded
  | cons cp rest inductionHypothesis =>
      intro bytes buffer encoded
      simp only [encodeLoop] at encoded
      cases written : ucbUcEncodeCodepoint cp with
      | none => simp [written] at encoded
      | some word =>
          have scalar := (encodeCodepoint_length_le written).2
          have wordLength : 0 < word.length := by
            have known := encodeCodepoint_scalar ⟨cp, scalar⟩
            rw [written] at known
            exact Option.some.inj known ▸ encodeScalar_length_pos _
          simp only [written] at encoded
          split at encoded
          · cases encoded
          · split at encoded
            · rw [refuses (by rw [List.length_append]; omega)] at encoded
              cases encoded
            · have nonempty := (inductionHypothesis _ _ encoded).1
              have lengths := congrArg List.length nonempty
              rw [List.length_append, List.length_nil] at lengths
              omega

theorem insertCp_outside {str : UcbStr} {text : List Scalar} (holds : Holds str (encode text))
    (tables : UcbUcTables) (allocator : Allocator) {index : Nat} {cps : List Nat}
    (nonzero : ∀ cp ∈ cps, cp ≠ 0) (nonempty : cps ≠ [])
    (outside : index > (graphemeClusters tables text).length) :
    ucbStrInsertCp tables allocator str index cps =
      .ok (str, false, some (charPosError true index)) := by
  have counted : cps.length ≠ 0 := by simp [nonempty]
  simp [ucbStrInsertCp, verifyNonzero_ok nonzero, nonempty, mapCharPos_holds holds tables index,
    outside]

theorem insertCp_inside {str : UcbStr} {text : List Scalar} (holds : Holds str (encode text))
    (tables : UcbUcTables) (allocator : Allocator) {index : Nat} {cps : List Nat}
    (nonzero : ∀ cp ∈ cps, cp ≠ 0) (nonempty : cps ≠ [])
    (inside : index ≤ (graphemeClusters tables text).length)
    (granted : allocator.grants .calloc (4 * cps.length) = true) :
    ucbStrInsertCp tables allocator str index cps =
      match encodeOutcome cps with
      | .ok () =>
          .ok (grownTo allocator str (pushedBytes tables.maxMultiLen [] cps).length
            (ownedStr (insertedAt tables text index (pushedBytes tables.maxMultiLen [] cps)) [0]
              ((encode text).length + (pushedBytes tables.maxMultiLen [] cps).length + 1)),
            true, none)
      | .error error => .ok (str, false, error) := by
  have positive : 0 < 4 * cps.length := by
    have counted := List.length_pos_of_ne_nil nonempty
    omega
  have zeroed :
      ucbCalloc allocator (4 * cps.length) = some (List.replicate (4 * cps.length) 0) := by
    rw [ucbCalloc, if_pos ⟨positive, granted⟩]
  have notOutside := Nat.not_lt.mpr inside
  have multiLen := tables.multiLen
  have encoded :=
    encodeLoop_fits multiLen allocator .exact cps [] (List.replicate (4 * cps.length) 0)
    [] (by simp; omega) (by simp)
  simp only [List.nil_append, List.length_nil] at encoded
  unfold ucbStrInsertCp
  simp only [verifyNonzero_ok nonzero, Exec.ok_bind, List.length_eq_zero_iff, nonempty, if_false,
    mapCharPos_holds holds tables index, if_neg notOutside, ucbBufferInitHeap, positive, gt_iff_lt,
    decide_true, ucbVerify_true, zeroed, Exec.pure_eq_ok, ucbUcEncodeCodepoints, encoded]
  cases outcome : encodeOutcome cps with
  | error error => rfl
  | ok _ =>
      obtain ⟨scalars, rfl⟩ := exists_of_encodeOutcome_ok outcome
      have notEmpty : encode scalars ≠ [] := by
        cases scalars with
        | nil => exact absurd rfl nonempty
        | cons cp rest => exact List.ne_nil_of_length_pos (encode_cons_ne_nil cp rest)
      have noCopy (n : Nat) (mem : List UInt8) : ¬ CopyRefused allocator str (.mem mem) n :=
        fun refused => Bool.false_ne_true refused.1
      have split := encode_split tables text index
      rw [split] at holds ⊢
      simp only [pushedBytes_scalarValues, List.nil_append]
      have atPos (rest : List UInt8) := insertAt_text holds allocator
        (show (CstrArg.mem (encode scalars ++ rest)).load str =
          .ok (encode scalars ++ rest) from rfl)
        notEmpty
      rcases atPos ((List.replicate (4 * (scalarValues scalars).length) 0).drop
        (encode scalars).length) with ⟨refused, -⟩ | ⟨-, inserted⟩
      · exact absurd refused (noCopy _ _)
      · rw [inserted]
        rfl

/-- When the buffer of `ucb_str_insert_cp` could not be allocated, the call
fails or aborts. -/
theorem insertCp_refused {str : UcbStr} {text : List Scalar} (holds : Holds str (encode text))
    (tables : UcbUcTables) (allocator : Allocator) {index : Nat} {cps : List Nat}
    (nonempty : cps ≠ []) (refused : ¬ allocator.grants .calloc (4 * cps.length) = true)
    {result : UcbStr × Bool × Option UcbError}
    (ran : ucbStrInsertCp tables allocator str index cps = .ok result) :
    ∃ error, result = (str, false, error) := by
  have noMemory : ucbCalloc allocator (4 * cps.length) = none := by
    rw [ucbCalloc, if_neg (fun both => refused both.2)]
  have positive : 0 < 4 * cps.length := by
    have counted := List.length_pos_of_ne_nil nonempty
    omega
  unfold ucbStrInsertCp at ran
  obtain ⟨_, -, ran⟩ := Exec.bind_eq_ok.mp ran
  simp only [List.length_eq_zero_iff, nonempty, if_false, mapCharPos_holds holds tables index,
    Exec.ok_bind] at ran
  split at ran
  · rename_i oob mapped
    exact ⟨_, (Exec.ok.inj ran).symm⟩
  · simp only [ucbBufferInitHeap, positive, decide_true, ucbVerify_true, Exec.ok_bind,
      noMemory, Exec.pure_eq_ok, ucbUcEncodeCodepoints] at ran
    obtain ⟨⟨buffer, encoded⟩, loop, ran⟩ := Exec.bind_eq_ok.mp ran
    cases encoded with
    | ok _ => exact absurd (encodeLoop_no_memory allocator cps [] buffer loop).2 nonempty
    | error error => exact ⟨error, (Exec.ok.inj ran).symm⟩

end Ucb.Str
