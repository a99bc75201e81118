import Ucb.Str.Str

/-!
Contract: what a string holds, and what the building blocks of its operations
do to it.

Owns:
- `Holds`, the relation between a string and its content, and the terminator;
- the argument pairs `(cstr, len)` and the text they denote;
- verification, reserving and writing in terms of contents.
-/

namespace Ucb.Str

open Ucb.Unicode

/-! ## Contents -/

/-- Text a string may hold: valid UTF-8 without NUL. -/
structure IsText (content : List UInt8) : Prop where
  valid : ValidUtf8 content
  noNul : 0 ∉ content

/-- An owned string: the content, and memory behind it that starts at `size`. -/
def ownedStr (content spare : List UInt8) (alloc : Nat) : UcbStr :=
  ⟨.heap (content ++ spare), content.length, alloc⟩

/-- The string holds `content`. Nothing is said about the byte at `size`. -/
inductive Holds : UcbStr → List UInt8 → Prop where
  | interned : Holds .interned []
  | owned (content spare : List UInt8) (alloc : Nat) (above : content.length < alloc)
      (inside : alloc ≤ content.length + spare.length) :
      Holds (ownedStr content spare alloc) content

def Terminated (str : UcbStr) : Prop :=
  ∃ mem, str.data.load = .ok mem ∧ byteAt mem str.size = .ok 0

/-- The documented invariant of an initialized string. -/
structure RepInv (str : UcbStr) : Prop where
  holds : ∃ content, Holds str content ∧ IsText content
  terminated : Terminated str

abbrev ValidStr := { str : UcbStr // RepInv str }

theorem Holds.size_eq {str : UcbStr} {content : List UInt8} (holds : Holds str content) :
    str.size = content.length := by
  cases holds <;> rfl

theorem Holds.load {str : UcbStr} {content : List UInt8} (holds : Holds str content) :
    ∃ spare, str.data.load = .ok (content ++ spare) := by
  cases holds with
  | interned => exact ⟨[0], rfl⟩
  | owned content spare alloc above inside => exact ⟨spare, rfl⟩

theorem Holds.unique {str : UcbStr} {left right : List UInt8} (first : Holds str left)
    (second : Holds str right) : left = right := by
  obtain ⟨leftSpare, leftLoad⟩ := first.load
  obtain ⟨rightSpare, rightLoad⟩ := second.load
  rw [leftLoad] at rightLoad
  have sameLength : left.length = right.length := by rw [← first.size_eq, second.size_eq]
  exact (List.append_inj (Exec.ok.inj rightLoad) sameLength).1

theorem terminated_owned (content spare : List UInt8) (alloc : Nat) :
    Terminated (ownedStr content (0 :: spare) alloc) := by
  refine ⟨_, rfl, ?_⟩
  exact byteAt_zero (by simp [ownedStr])

theorem terminated_interned : Terminated .interned :=
  ⟨[0], rfl, rfl⟩

/-- A terminated string: the memory at `data` is the content, NUL and a rest. -/
theorem Holds.load_terminated {str : UcbStr} {content : List UInt8} (holds : Holds str content)
    (terminated : Terminated str) : ∃ spare, str.data.load = .ok (content ++ 0 :: spare) := by
  obtain ⟨spare, load⟩ := holds.load
  obtain ⟨mem, load', nul⟩ := terminated
  rw [load] at load'
  obtain rfl := Exec.ok.inj load'
  rw [holds.size_eq] at nul
  cases spare with
  | nil => simp [byteAt] at nul
  | cons slot spare =>
      have slot_eq : slot = 0 := by
        apply UInt8.toNat_inj.mp
        simpa [byteAt] using nul
      exact ⟨spare, slot_eq ▸ load⟩

theorem isText_nil : IsText [] :=
  ⟨⟨[], rfl⟩, by simp⟩

theorem validUtf8_append {left right : List UInt8} (first : ValidUtf8 left)
    (second : ValidUtf8 right) : ValidUtf8 (left ++ right) := by
  obtain ⟨leftCps, rfl⟩ := first
  obtain ⟨rightCps, rfl⟩ := second
  exact ⟨leftCps ++ rightCps, by simp⟩

theorem IsText.append {left right : List UInt8} (first : IsText left) (second : IsText right) :
    IsText (left ++ right) :=
  ⟨validUtf8_append first.valid second.valid, by simp [first.noNul, second.noNul]⟩

/-- The only NUL of UTF-8 is the codepoint 0. -/
theorem zero_mem_encodeScalar_iff (cp : Scalar) : 0 ∈ encodeScalar cp ↔ cp.val = 0 := by
  have word := codeWord_encodeScalar cp
  have zero (byte : UInt8) : 0 = byte ↔ byte.toNat = 0 := by
    rw [eq_comm, ← UInt8.toNat_inj]
    rfl
  generalize encodeScalar cp = bytes at word
  cases word with
  | one b0 lead small => simp [zero, lead]
  | two b0 b1 lead tail1 low high => simp [zero, lead, tail1]; omega
  | three b0 b1 b2 lead tail1 tail2 low high scalar => simp [zero, lead, tail1, tail2]; omega
  | four b0 b1 b2 b3 lead tail1 tail2 tail3 low high =>
      simp [zero, lead, tail1, tail2, tail3]; omega

theorem isText_encode {cps : List Scalar} (nonzero : ∀ cp ∈ cps, cp.val ≠ 0) :
    IsText (encode cps) := by
  refine ⟨⟨cps, rfl⟩, ?_⟩
  induction cps with
  | nil => simp
  | cons cp rest inductionHypothesis =>
      rw [encode_cons, List.mem_append, zero_mem_encodeScalar_iff]
      have notHead := nonzero cp (by simp)
      have notTail := inductionHypothesis fun other member => nonzero other (by simp [member])
      simp [notHead, notTail]

/-! ## Arguments -/

/-- A pair `(mem, len)` denotes the text: with a length, or terminated. -/
inductive DenotesAt : List UInt8 → Nat → List UInt8 → Prop where
  | measured (text rest : List UInt8) : DenotesAt (text ++ 0 :: rest) 0 text
  | counted (text rest : List UInt8) (nonempty : text ≠ []) :
      DenotesAt (text ++ rest) text.length text

theorem DenotesAt.cstrLen {mem text : List UInt8} {len : Nat} (denotes : DenotesAt mem len text)
    (noNul : 0 ∉ text) : cstrLen mem len = .ok text.length := by
  cases denotes with
  | measured text rest => rw [Str.cstrLen, if_pos rfl, strlen_append text rest noNul]
  | counted text rest nonempty =>
      rw [Str.cstrLen, if_neg (by simp [nonempty])]
      rfl

theorem DenotesAt.prefix {mem text : List UInt8} {len : Nat} (denotes : DenotesAt mem len text) :
    ∃ rest, mem = text ++ rest := by
  cases denotes with
  | measured text rest => exact ⟨_, rfl⟩
  | counted text rest nonempty => exact ⟨_, rfl⟩

theorem verifyCstr_text {text : List UInt8} (isText : IsText text) (rest : List UInt8)
    (nonempty : text ≠ []) : ucbStrVerifyCstr (text ++ rest) text.length = .ok () := by
  have nonzero : ¬ text.length = 0 := by simp [nonempty]
  have noNul : ucbStrContainsNul (text ++ rest) text.length = .ok false := by
    have absent : ¬ (text.contains 0) = true := by simpa using isText.noNul
    rw [ucbStrContainsNul, List.take_left, if_neg absent, if_pos (by simp)]
    rfl
  have valid := (validate_append text rest).trans ((validate_ok_iff text).mpr isText.valid)
  simp [ucbStrVerifyCstr, ucbStrCstrValidate, nonzero, noNul, valid]

theorem text_of_verify {mem : List UInt8} {len : Nat}
    (verified : ucbStrVerifyCstr mem len = .ok ()) (nonzero : len ≠ 0) :
    len ≤ mem.length ∧ IsText (mem.take len) := by
  obtain ⟨etype, accepted, isOk⟩ := Exec.bind_eq_ok.mp verified
  have etype_eq : etype = .ok := by
    cases etype with
    | ok => rfl
    | embeddedNul => cases isOk
    | invalidUtf8 => cases isOk
  rw [etype_eq, ucbStrCstrValidate, if_neg nonzero] at accepted
  obtain ⟨hasNul, scanned, accepted⟩ := Exec.bind_eq_ok.mp accepted
  cases hasNul with
  | true => cases accepted
  | false =>
      have noNul : ¬ (mem.take len).contains 0 = true := by
        intro present
        rw [ucbStrContainsNul, if_pos present] at scanned
        cases scanned
      have inside : len ≤ mem.length := by
        rw [ucbStrContainsNul, if_neg noNul] at scanned
        split at scanned
        · assumption
        · cases scanned
      refine ⟨inside, ?_, by simpa using noNul⟩
      obtain ⟨outcome, validated, accepted⟩ := Exec.bind_eq_ok.mp accepted
      cases outcome with
      | error error => cases accepted
      | ok _ =>
          have local_ := validate_append (mem.take len) (mem.drop len)
          rw [List.take_append_drop, List.length_take_of_le inside, validated] at local_
          rw [← validate_ok_iff, List.length_take_of_le inside]
          exact local_.symm

theorem slice_eq_ok {mem bytes : List UInt8} {len : Nat} (read : slice mem 0 len = .ok bytes) :
    bytes = mem.take len ∧ bytes.length = len := by
  unfold slice at read
  split at read
  · obtain rfl := Exec.ok.inj read
    refine ⟨by simp, ?_⟩
    rw [List.drop_zero, List.length_take_of_le (by omega)]
  · cases read

theorem text_of_verify_slice {mem bytes : List UInt8} {len : Nat}
    (verified : ucbStrVerifyCstr mem len = .ok ()) (read : slice mem 0 len = .ok bytes) :
    IsText bytes ∧ bytes.length = len := by
  obtain ⟨rfl, length⟩ := slice_eq_ok read
  refine ⟨?_, length⟩
  rcases Nat.eq_zero_or_pos len with rfl | positive
  · exact isText_nil
  · exact (text_of_verify verified (Nat.ne_of_gt positive)).2

/-! ## Reserving and writing -/

/-- `ucb_str_reserve` has to allocate. -/
def Grows (str : UcbStr) (n : Nat) : Prop :=
  str.alloc = 0 ∨ (n ≠ 0 ∧ str.alloc < n + str.size + 1)

/-- The allocator grants the request of a growing `ucb_str_reserve`. -/
def GrowGranted (allocator : Allocator) (str : UcbStr) (n : Nat) : Prop :=
  if str.alloc = 0 then allocator.grants .malloc (str.size + n + 1) = true
  else allocator.grants .realloc (n + str.size + 1) = true

instance (str : UcbStr) (n : Nat) : Decidable (Grows str n) := by
  unfold Grows
  infer_instance

instance (allocator : Allocator) (str : UcbStr) (n : Nat) :
    Decidable (GrowGranted allocator str n) := by
  unfold GrowGranted
  infer_instance

/-- Reallocating to hold the content and `n` bytes more keeps the content. -/
theorem realloc_content (content spare : List UInt8) {allocator : Allocator} {n : Nat}
    (granted : allocator.grants .realloc (content.length + n + 1) = true) :
    ∃ tail, tail.length = n + 1 ∧
      ucbRealloc allocator (content ++ spare) (content.length + n + 1) =
        some (content ++ tail) := by
  refine ⟨spare.take (n + 1) ++
    allocator.freshBlock (content.length + n + 1 - (content ++ spare).length), ?_, ?_⟩
  · simp only [List.length_append, List.length_take, Allocator.freshBlock_length]
    omega
  · rw [realloc_granted _ granted (Nat.succ_pos _), Nat.add_assoc, List.take_length_add_append,
      List.append_assoc]

theorem blit_terminator (content tail : List UInt8) (room : 0 < tail.length) :
    blit (content ++ tail) content.length [0] = .ok (content ++ 0 :: tail.drop 1) := by
  rw [blit_spare content tail (show ([0] : List UInt8).length ≤ tail.length from room)]
  simp

theorem growGranted_owned {content spare : List UInt8} {alloc : Nat} (nonzero : alloc ≠ 0)
    (allocator : Allocator) (n : Nat) :
    GrowGranted allocator (ownedStr content spare alloc) n ↔
      allocator.grants .realloc (content.length + n + 1) = true := by
  simp [GrowGranted, ownedStr, nonzero, Nat.add_comm n]

/-- Everything `ucb_str_reserve` can do to a string that holds `content`. -/
theorem reserve_cases {str : UcbStr} {content : List UInt8} (holds : Holds str content)
    (allocator : Allocator) (n : Nat) :
    (Grows str n ∧ GrowGranted allocator str n ∧ ∃ spare, spare.length = n ∧
        reserveRoom allocator str n =
          .ok (ownedStr content (0 :: spare) (content.length + n + 1), true)) ∨
      (¬ Grows str n ∧ reserveRoom allocator str n = .ok (str, decide (n = 0))) ∨
      (Grows str n ∧ ¬ GrowGranted allocator str n ∧ str.alloc = 0 ∧
        reserveRoom allocator str n = .ok (str, false)) ∨
      (Grows str n ∧ ¬ GrowGranted allocator str n ∧ str.alloc ≠ 0 ∧
        reserveRoom allocator str n = .ok ({ str with data := .dangling }, false)) := by
  cases holds with
  | interned =>
      have grows : Grows .interned n := .inl rfl
      have size : UcbStr.interned.size + n + 1 = n + 1 := by simp [UcbStr.interned]
      by_cases granted : GrowGranted allocator .interned n
      · have granted' : allocator.grants .malloc (UcbStr.interned.size + n + 1) = true := granted
        refine .inl ⟨grows, granted, (allocator.freshBlock (n + 1)).drop 1, by simp, ?_⟩
        have terminate := blit_spare [] (allocator.freshBlock (n + 1))
          (show ([0] : List UInt8).length ≤ _ by simp)
        rw [size] at granted'
        simp [reserveRoom, reserveNewSize, UcbStr.interned, malloc_granted granted' (by omega),
          StrData.load, slice, blit_nil, ownedStr] at terminate ⊢
        simp [terminate]
      · have refused := malloc_refused (mt id granted :
          ¬ allocator.grants .malloc (UcbStr.interned.size + n + 1) = true)
        rw [size] at refused
        refine .inr (.inr (.inl ⟨grows, granted, rfl, ?_⟩))
        simp [reserveRoom, reserveNewSize, UcbStr.interned, refused]
  | owned content spare alloc above inside =>
      have nonzero : alloc ≠ 0 := by omega
      by_cases grows : Grows (ownedStr content spare alloc) n
      · have positive : n ≠ 0 ∧ alloc < n + content.length + 1 := grows.resolve_left nonzero
        by_cases granted : GrowGranted allocator (ownedStr content spare alloc) n
        · obtain ⟨tail, length, block⟩ :=
            realloc_content content spare ((growGranted_owned nonzero allocator n).mp granted)
          refine .inl ⟨grows, granted, tail.drop 1, by simp [length], ?_⟩
          have terminated := blit_terminator content tail (by omega)
          have size : n + content.length + 1 = content.length + n + 1 := by omega
          rw [size] at positive
          simp only [reserveRoom, reserveNewSize, ownedStr, nonzero, positive.1, positive.2,
            StrData.owned, size, block, terminated, ne_eq, not_false_eq_true, if_true, if_false,
            Exec.ok_bind, Exec.pure_eq_ok]
        · have refused := realloc_refused (content ++ spare)
            (mt (growGranted_owned nonzero allocator n).mpr granted)
          refine .inr (.inr (.inr ⟨grows, granted, nonzero, ?_⟩))
          have size : n + content.length + 1 = content.length + n + 1 := by omega
          rw [size] at positive
          simp only [reserveRoom, reserveNewSize, ownedStr, nonzero, positive.1, positive.2,
            StrData.owned, size, refused, ne_eq, not_false_eq_true, if_true, if_false, Exec.ok_bind,
            Exec.pure_eq_ok]
      · have unchanged : ¬ (n ≠ 0 ∧ alloc < n + content.length + 1) := fun room => grows (.inr room)
        refine .inr (.inl ⟨grows, ?_⟩)
        rcases Nat.eq_zero_or_pos n with rfl | positive
        · simp [reserveRoom, reserveNewSize, ownedStr, nonzero]
        · have enough : ¬ alloc < n + content.length + 1 := fun room => unchanged ⟨by omega, room⟩
          simp [reserveRoom, reserveNewSize, ownedStr, nonzero, enough, Nat.ne_of_gt positive]

theorem ucbStrReserve_fits {str : UcbStr} {size : UInt64} (allocator : Allocator)
    (fits : size.toNat + str.size + 1 < 2 ^ 64) :
    ucbStrReserve allocator str size = reserveRoom allocator str size.toNat := by
  rw [ucbStrReserve, Nat.mod_eq_of_lt fits, reserveRoom]

/-- A new size that wraps around is below the room that the string already has, or zero: nothing
is asked of the allocator. -/
theorem ucbStrReserve_wraps {str : UcbStr} {content : List UInt8} {size : UInt64}
    (holds : Holds str content) (allocator : Allocator)
    (wraps : ¬ size.toNat + str.size + 1 < 2 ^ 64) :
    ∃ done, ucbStrReserve allocator str size = .ok (str, done) := by
  have bound : size.toNat < 2 ^ 64 := size.toNat_lt
  have wrapped : (size.toNat + str.size + 1) % 2 ^ 64 ≤ str.size := by
    rw [Nat.mod_eq_sub_mod (Nat.le_of_not_lt wraps)]
    exact (Nat.mod_le _ _).trans (by omega)
  cases holds with
  | interned =>
      have nothing : (size.toNat + UcbStr.interned.size + 1) % 2 ^ 64 = 0 := Nat.le_zero.mp wrapped
      refine ⟨false, ?_⟩
      rw [ucbStrReserve, nothing]
      rfl
  | owned content spare alloc above inside =>
      have nonzero : alloc ≠ 0 := by omega
      have enough : ¬ alloc < (size.toNat + content.length + 1) % 2 ^ 64 :=
        Nat.not_lt.mpr (Nat.le_trans wrapped above.le)
      unfold ucbStrReserve reserveNewSize
      simp only [ownedStr, ne_eq, nonzero, not_false_eq_true, if_true, enough, if_false]
      split
      · exact ⟨true, rfl⟩
      · exact ⟨false, rfl⟩

end Ucb.Str
