import Ucb.Str.Refinement

/-!
Contract: strings without spare room.

Owns:
- the text of a string, comparing texts, and parting them at ASCII bytes;
- `Exact`, that a string has no room behind its text;
- that new strings, copies and appending leave such strings, when no allocation fails.

A string with spare room drops what is appended to it; one without never does.
-/

namespace Ucb.Str

open Ucb.Unicode

/-! ## Texts -/

def UcbStr.text (str : UcbStr) : List UInt8 :=
  match str.data with
  | .heap block => block.take str.size
  | .literal | .null | .dangling => []

theorem Holds.text_eq {str : UcbStr} {content : List UInt8} (holds : Holds str content) :
    str.text = content := by
  cases holds with
  | interned => rfl
  | owned content spare alloc above inside => exact List.take_left

theorem RepInv.holds_text {str : UcbStr} (valid : RepInv str) : Holds str str.text := by
  obtain ⟨content, holds, -⟩ := valid.holds
  rwa [holds.text_eq]

theorem RepInv.isText {str : UcbStr} (valid : RepInv str) : IsText str.text := by
  obtain ⟨content, holds, isText⟩ := valid.holds
  rwa [holds.text_eq]

def ucbStrIsEmpty (str : UcbStr) : Bool :=
  decide (str.size = 0)

theorem isEmpty_eq {str : UcbStr} (valid : RepInv str) : ucbStrIsEmpty str = str.text.isEmpty := by
  rw [ucbStrIsEmpty, valid.holds_text.size_eq, Bool.eq_iff_iff, decide_eq_true_iff,
    List.isEmpty_iff_length_eq_zero]

def ucbStrEqual (str1 str2 : UcbStr) : Exec Bool :=
  if str1.size ≠ str2.size then pure false
  else do
    let data1 ← str1.data.load
    let data2 ← str2.data.load
    let bytes1 ← slice data1 0 str1.size
    let bytes2 ← slice data2 0 str1.size
    pure (decide (bytes1 = bytes2))

theorem equal_eq {str1 str2 : UcbStr} (valid1 : RepInv str1) (valid2 : RepInv str2) :
    ucbStrEqual str1 str2 = .ok (decide (str1.text = str2.text)) := by
  have size1 := valid1.holds_text.size_eq
  have size2 := valid2.holds_text.size_eq
  by_cases same : str1.size = str2.size
  · obtain ⟨spare1, load1⟩ := valid1.holds_text.load
    obtain ⟨spare2, load2⟩ := valid2.holds_text.load
    have slice1 : slice (str1.text ++ spare1) 0 str1.size = .ok str1.text := by
      rw [size1]
      exact slice_left _ _
    have slice2 : slice (str2.text ++ spare2) 0 str1.size = .ok str2.text := by
      rw [same, size2]
      exact slice_left _ _
    rw [ucbStrEqual, if_neg (not_not.mpr same), load1, Exec.ok_bind, load2, Exec.ok_bind, slice1,
      Exec.ok_bind, slice2]
    rfl
  · have differ : str1.text ≠ str2.text := fun equal => same (by rw [size1, size2, equal])
    rw [ucbStrEqual, if_pos same, decide_eq_false differ]
    rfl

/-- The only code word with an ASCII byte is that byte. -/
theorem encodeScalar_of_ascii {cp : Scalar} {byte : UInt8} (ascii : byte.toNat < 0x80)
    (member : byte ∈ encodeScalar cp) : encodeScalar cp = [byte] := by
  have word := codeWord_encodeScalar cp
  generalize encodeScalar cp = bytes at word member
  cases word with
  | one b0 lead small => rw [List.mem_singleton.mp member]
  | two b0 b1 lead tail1 low high =>
      simp only [List.mem_cons, List.not_mem_nil, or_false] at member
      rcases member with rfl | rfl <;> omega
  | three b0 b1 b2 lead tail1 tail2 low high scalar =>
      simp only [List.mem_cons, List.not_mem_nil, or_false] at member
      rcases member with rfl | rfl | rfl <;> omega
  | four b0 b1 b2 b3 lead tail1 tail2 tail3 low high =>
      simp only [List.mem_cons, List.not_mem_nil, or_false] at member
      rcases member with rfl | rfl | rfl | rfl <;> omega

/-- Both parts of a valid text around an ASCII byte are valid. -/
theorem validUtf8_parts {byte : UInt8} (ascii : byte.toNat < 0x80) (cps : List Scalar) :
    ∀ {front back : List UInt8}, encode cps = front ++ byte :: back →
      ValidUtf8 front ∧ ValidUtf8 back := by
  induction cps with
  | nil => simp
  | cons cp cps inductionHypothesis =>
      intro front back split
      rw [encode_cons] at split
      rcases List.append_eq_append_iff.mp split with ⟨rest, rfl, later⟩ | ⟨rest, word, here⟩
      · obtain ⟨valid, behind⟩ := inductionHypothesis later
        exact ⟨validUtf8_append ⟨[cp], by simp⟩ valid, behind⟩
      · cases rest with
        | nil =>
            rw [List.append_nil] at word
            have behind : encode cps = [] ++ byte :: back := here.symm
            exact ⟨⟨[cp], by simp [word]⟩, (inductionHypothesis behind).2⟩
        | cons first rest =>
            obtain ⟨rfl, rfl⟩ := List.cons.inj here
            have member : byte ∈ encodeScalar cp := by simp [word]
            rw [encodeScalar_of_ascii ascii member] at word
            obtain ⟨rfl, tail⟩ :=
              List.append_eq_singleton_iff.mp word.symm |>.resolve_right (by simp)
            obtain rfl : rest = [] := (List.cons.inj tail).2
            exact ⟨isText_nil.valid, cps, rfl⟩

/-- Both parts of a text around an ASCII byte are texts. -/
theorem IsText.parts {front back : List UInt8} {byte : UInt8}
    (isText : IsText (front ++ byte :: back)) (ascii : byte.toNat < 0x80) :
    IsText front ∧ IsText back := by
  obtain ⟨cps, split⟩ := isText.valid
  obtain ⟨before, behind⟩ := validUtf8_parts ascii cps split.symm
  have noNul := isText.noNul
  simp only [List.mem_append, List.mem_cons, not_or] at noNul
  exact ⟨⟨before, noNul.1⟩, ⟨behind, noNul.2.2⟩⟩

/-! ## Single bytes -/

/-- A byte alone is valid exactly if it is ASCII. -/
theorem validate_one (c : UInt8) : ∃ expected, ucbUcValidate [c] (some 1) =
    if c.toNat < 0x80 then .ok (.ok ())
    else .ok (.error ⟨.invalidUtf8, utf8ErrorMsg 0 expected 1⟩) := by
  by_cases ascii : c.toNat < 0x80
  · exact ⟨0, by simp [ucbUcValidate, resolveLen, ucbUcValidateLoop, ucbUcValidateStep, ascii]⟩
  · have stops : ∃ expected, ucbUcValidateStep [c] 1 0 = .ok (.error expected) := by
      simp only [ucbUcValidateStep, byteAt_cons_zero, Exec.ok_bind, ascii, ↓reduceIte]
      split
      · exact ⟨2, rfl⟩
      · split
        · exact ⟨3, rfl⟩
        · split
          · exact ⟨4, rfl⟩
          · exact ⟨0, rfl⟩
    obtain ⟨expected, stop⟩ := stops
    exact ⟨expected, by simp [ucbUcValidate, resolveLen, ucbUcValidateLoop, stop, ascii]⟩

theorem isText_one {c : UInt8} (nonzero : c ≠ 0) (ascii : c.toNat < 0x80) : IsText [c] where
  valid := by
    obtain ⟨_, accepted⟩ := validate_one c
    rw [if_pos ascii] at accepted
    exact (validate_ok_iff [c]).mp accepted
  noNul := by simpa using Ne.symm nonzero

/-- Verification refuses any other byte. -/
theorem verifyCstr_one {c : UInt8} (nonzero : c ≠ 0) (other : ¬ c.toNat < 0x80) :
    ucbStrVerifyCstr [c] 1 = .abort .invalidArg := by
  obtain ⟨_, rejected⟩ := validate_one c
  rw [if_neg other] at rejected
  have noNul : ucbStrContainsNul [c] 1 = .ok false := by
    simp [ucbStrContainsNul, Ne.symm nonzero]
  have validated : ucbStrCstrValidate [c] 1 = .ok .invalidUtf8 := by
    simp [ucbStrCstrValidate, noNul, rejected]
  rw [ucbStrVerifyCstr, validated]
  rfl

theorem isText_of_ascii {text : List UInt8} (ascii : ∀ c ∈ text, c ≠ 0 ∧ c.toNat < 0x80) :
    IsText text := by
  induction text with
  | nil => exact isText_nil
  | cons c text inductionHypothesis =>
      obtain ⟨nonzero, small⟩ := ascii c List.mem_cons_self
      exact (isText_one nonzero small).append
        (inductionHypothesis fun c member => ascii c (List.mem_cons_of_mem _ member))

/-! ## No spare room -/

/-- A valid string whose allocation ends with its terminator. -/
structure Exact (str : UcbStr) : Prop where
  valid : RepInv str
  noRoom : str.alloc ≤ str.size + 1

theorem exact_owned {content : List UInt8} (isText : IsText content) (spare : List UInt8) :
    Exact (ownedStr content (0 :: spare) (content.length + 1)) where
  valid := repInv_owned isText spare (Nat.lt_succ_self _) (by omega)
  noRoom := Nat.le_refl _

def madeOf (text : List UInt8) : UcbStr :=
  ownedStr text [0] (text.length + 1)

@[simp] theorem text_madeOf (text : List UInt8) : (madeOf text).text = text :=
  List.take_left

theorem madeOf_repInv {text : List UInt8} (isText : IsText text) : RepInv (madeOf text) :=
  (exact_owned isText []).valid

@[simp] theorem text_interned : UcbStr.text .interned = [] :=
  rfl

variable {allocator : Allocator}

theorem verifyCstr_denotes {mem text : List UInt8} {len : Nat} (isText : IsText text)
    (denotes : DenotesAt mem len text) : ucbStrVerifyCstr mem text.length = .ok () := by
  cases denotes with
  | counted text rest nonempty => exact verifyCstr_text isText rest nonempty
  | measured text rest =>
      by_cases nonempty : text = []
      · subst nonempty
        have measured : strlen (0 :: rest) = .ok 0 := strlen_append [] rest List.not_mem_nil
        have valid : ucbUcValidate (0 :: rest) (some 0) = .ok (.ok ()) :=
          (validate_append [] (0 :: rest)).trans ((validate_ok_iff []).mpr isText_nil.valid)
        simp [ucbStrVerifyCstr, ucbStrCstrValidate, measured, valid]
      · exact verifyCstr_text isText (0 :: rest) nonempty

/-- A new string, when its memory is granted. -/
theorem init_granted (str : UcbStr) {mem text : List UInt8} {len : Nat}
    (granted : allocator.grants .malloc (text.length + 1) = true) (isText : IsText text)
    (denotes : DenotesAt mem len text) :
    ∃ made, ucbStrInitCommon allocator str (some mem) len = .ok (made, true) ∧ Exact made ∧
      made.text = text := by
  have measured := denotes.cstrLen isText.noNul
  have verified := verifyCstr_denotes isText denotes
  obtain ⟨rest, rfl⟩ := denotes.prefix
  have room : text.length ≤ (allocator.freshBlock (text.length + 1)).length := by simp
  have written := blit_spare [] (allocator.freshBlock (text.length + 1)) room
  have terminated := blit_terminator text
    ((allocator.freshBlock (text.length + 1)).drop text.length) (by simp)
  rw [List.nil_append, List.length_nil, List.nil_append] at written
  refine ⟨_, ?_, exact_owned isText
    (((allocator.freshBlock (text.length + 1)).drop text.length).drop 1), ?_⟩
  · simp only [ucbStrInitCommon, measured, verified, Exec.ok_bind,
      malloc_granted granted (Nat.succ_pos _), slice_text, written, terminated]
    rfl
  · exact List.take_left

/-- No new string, when its memory is refused. -/
theorem init_refused (str : UcbStr) {mem text : List UInt8} {len : Nat}
    (refused : ¬ allocator.grants .malloc (text.length + 1) = true) (isText : IsText text)
    (denotes : DenotesAt mem len text) :
    ucbStrInitCommon allocator str (some mem) len = .ok ({ str with data := .null }, false) := by
  have measured := denotes.cstrLen isText.noNul
  have verified := verifyCstr_denotes isText denotes
  simp only [ucbStrInitCommon, measured, verified, Exec.ok_bind, malloc_refused refused]
  rfl

/-- New strings have no spare room. -/
theorem init_exact (generous : allocator.Generous) (str : UcbStr) {mem text : List UInt8}
    {len : Nat}
    (isText : IsText text) (denotes : DenotesAt mem len text) :
    ∃ made, ucbStrInitCommon allocator str (some mem) len = .ok (made, true) ∧ Exact made ∧
      made.text = text :=
  init_granted str (generous .malloc (text.length + 1)) isText denotes

theorem denotes_length (text rest : List UInt8) :
    DenotesAt (text ++ 0 :: rest) text.length text := by
  cases text with
  | nil => exact .measured [] rest
  | cons byte text => exact .counted (byte :: text) (0 :: rest) (List.cons_ne_nil byte text)

theorem RepInv.denotes {str : UcbStr} (valid : RepInv str) :
    ∃ mem, str.data.load = .ok mem ∧ DenotesAt mem str.size str.text := by
  obtain ⟨spare, load⟩ := valid.holds_text.load_terminated valid.terminated
  refine ⟨_, load, ?_⟩
  rw [valid.holds_text.size_eq]
  exact denotes_length str.text spare

theorem clone_exact (generous : allocator.Generous) {src : UcbStr} (valid : RepInv src) :
    ∃ made, ucbStrClone allocator src = .ok (made, true) ∧ Exact made ∧ made.text = src.text := by
  obtain ⟨mem, load, denotes⟩ := valid.denotes
  have made := init_exact generous ⟨.null, 0, 0⟩ valid.isText denotes
  have data := valid.holds_text.argument src load
  simpa only [ucbStrClone, ucbStrInit, data, Exec.ok_bind, CstrArg.pointer, CstrArg.load,
    Exec.pure_eq_ok] using made

theorem copy_exact (generous : allocator.Generous) {dst src : UcbStr} (old : Exact dst)
    (valid : RepInv src) :
    ∃ made, ucbStrCopy allocator dst (.other src) = .ok (made, true) ∧ Exact made ∧
      made.text = src.text := by
  obtain ⟨mem, load, denotes⟩ := valid.denotes
  have made := init_exact generous dst valid.isText denotes
  have data := valid.holds_text.argument dst load
  simpa only [ucbStrCopy, old.valid.holds_text.release, data, Exec.ok_bind, CstrArg.pointer,
    CstrArg.load, Exec.pure_eq_ok] using made

/-- Appending a text to a string without spare room. -/
theorem appendCstr_exact (generous : allocator.Generous) {str : UcbStr} (old : Exact str)
    {cstr : CstrArg} {len : Nat} {text : List UInt8} (isText : IsText text)
    (denotes : DenotesArg str cstr len text) :
    ∃ made, ucbStrAppendCstr allocator str cstr len = .ok made ∧ Exact made ∧
      made.text = str.text ++ text := by
  have holds := old.valid.holds_text
  by_cases nonempty : text = []
  · subst nonempty
    exact ⟨str, appendCstr_empty denotes, old, (List.append_nil _).symm⟩
  · have positive : 0 < text.length := List.length_pos_of_ne_nil nonempty
    have grows : Grows str text.length := by
      have noRoom := old.noRoom
      exact .inr ⟨Nat.ne_of_gt positive, by omega⟩
    rcases appendCstr_verified holds allocator (denotes.verified isText nonempty) with
      ⟨refused, -⟩ | ⟨-, appended⟩
    · exact absurd refused (not_copyRefused generous _ _ _)
    · rw [grownTo_generous generous, if_pos grows, ← List.length_append] at appended
      exact ⟨_, appended, exact_owned (old.valid.isText.append isText) [], List.take_left⟩

/-- Appending to a string without spare room. -/
theorem append_exact (generous : allocator.Generous) {str : UcbStr} (old : Exact str)
    {astr : StrArg}
    (valid : RepInv (astr.get str)) :
    ∃ made, ucbStrAppend allocator str astr = .ok made ∧ Exact made ∧
      made.text = str.text ++ (astr.get str).text := by
  obtain ⟨cstr, data, denotes⟩ := strArg_denotes valid valid.holds_text
  simp only [ucbStrAppend, data, Exec.ok_bind]
  exact appendCstr_exact generous old valid.isText denotes

end Ucb.Str
