import Ucb.Str.Run

/-!
Contract: the representation invariant over whole sequences of operations.

Owns:
- for each operation, that it keeps the invariant when its allocation requests
  are granted and no chunk is pushed before an invalid codepoint;
- the invariant in every state such a sequence reaches, and that a failing
  `ucb_str_append_cp` or `ucb_str_insert_cp` changes nothing there;
- a sequence that loses the terminator.
-/

namespace Ucb.Str

open Ucb.Unicode

/-! ## One operation -/

theorem verified_of_steps {str : UcbStr} {cstr : CstrArg} {len n : Nat} {mem : List UInt8}
    (load : cstr.load str = .ok mem) (measured : cstrLen mem len = .ok n) (nonzero : n ≠ 0)
    (accepted : ucbStrVerifyCstr mem n = .ok ()) :
    ∃ text, Verified str cstr len text ∧ IsText text ∧ text.length = n := by
  obtain ⟨inside, isText⟩ := text_of_verify accepted nonzero
  have length : (mem.take n).length = n := List.length_take_of_le inside
  have split : mem.take n ++ mem.drop n = mem := List.take_append_drop n mem
  refine ⟨mem.take n, ⟨⟨mem.drop n, ?_⟩, ?_⟩, isText, length⟩
  · rw [split, length]
    exact ⟨load, measured, accepted⟩
  · intro empty
    rw [empty] at length
    exact nonzero length.symm

theorem appendCstr_kept {allocator : Allocator} {str str' : UcbStr} {cstr : CstrArg} {len : Nat}
    (holdsText : HoldsText str) (granted : ArgGranted allocator str cstr len)
    (ran : ucbStrAppendCstr allocator str cstr len = .ok str') : Kept str str' := by
  obtain ⟨content, holds, contentText⟩ := holdsText
  have whole := ran
  unfold ucbStrAppendCstr at ran
  obtain ⟨_, -, ran⟩ := Exec.bind_eq_ok.mp ran
  split at ran
  · exact .inl (Exec.ok.inj ran).symm
  · obtain ⟨mem, load, ran⟩ := Exec.bind_eq_ok.mp ran
    obtain ⟨n, measured, ran⟩ := Exec.bind_eq_ok.mp ran
    split at ran
    · exact .inl (Exec.ok.inj ran).symm
    · rename_i nonzero
      obtain ⟨_, accepted, -⟩ := Exec.bind_eq_ok.mp ran
      obtain ⟨text, verified, isText, rfl⟩ := verified_of_steps load measured nonzero accepted
      rcases appendCstr_verified holds allocator verified with ⟨-, same⟩ | ⟨copied, appended⟩
      · rw [same] at whole
        exact .inl (Exec.ok.inj whole).symm
      · rw [appended] at whole
        obtain rfl := Exec.ok.inj whole
        have room :=
          ((granted mem text.length load measured).resolve_left nonzero).resolve_left copied
        simpa using kept_grownTo room (contentText.append isText)

theorem isText_insertedAt (tables : UcbUcTables) {cps : List Scalar} {text : List UInt8}
    (contentText : IsText (encode cps)) (isText : IsText text) (index : Nat) :
    IsText (insertedAt tables cps index text) := by
  have noNul := contentText.noNul
  rw [encode_split tables cps index, List.mem_append, not_or] at noNul
  have left : IsText (encode ((graphemeClusters tables cps).take index).flatten) :=
    ⟨⟨_, rfl⟩, noNul.1⟩
  have right : IsText (encode ((graphemeClusters tables cps).drop index).flatten) :=
    ⟨⟨_, rfl⟩, noNul.2⟩
  exact (left.append isText).append right

theorem insertedAt_length (tables : UcbUcTables) (cps : List Scalar) (index : Nat)
    (text : List UInt8) :
    (insertedAt tables cps index text).length = (encode cps).length + text.length := by
  rw [encode_split tables cps index, insertedAt]
  simp only [List.length_append]
  omega

theorem insertCstr_kept {tables : UcbUcTables} {allocator : Allocator} {str str' : UcbStr}
    {index : Nat} {cstr : CstrArg} {len : Nat} (holdsText : HoldsText str)
    (granted : ArgGranted allocator str cstr len)
    (ran : ucbStrInsertCstr tables allocator str index cstr len = .ok str') : Kept str str' := by
  obtain ⟨content, holds, contentText⟩ := holdsText
  obtain ⟨cps, rfl⟩ := contentText.valid
  have whole := ran
  unfold ucbStrInsertCstr at ran
  obtain ⟨_, -, ran⟩ := Exec.bind_eq_ok.mp ran
  split at ran
  · exact .inl (Exec.ok.inj ran).symm
  · obtain ⟨mem, load, ran⟩ := Exec.bind_eq_ok.mp ran
    obtain ⟨n, measured, ran⟩ := Exec.bind_eq_ok.mp ran
    split at ran
    · exact .inl (Exec.ok.inj ran).symm
    · rename_i nonzero
      obtain ⟨_, accepted, -⟩ := Exec.bind_eq_ok.mp ran
      obtain ⟨text, verified, isText, rfl⟩ := verified_of_steps load measured nonzero accepted
      rcases insertCstr_verified holds tables allocator index verified with
        ⟨-, aborted⟩ | ⟨-, -, same⟩ | ⟨-, copied, inserted⟩
      · rw [aborted] at whole
        cases whole
      · rw [same] at whole
        exact .inl (Exec.ok.inj whole).symm
      · rw [inserted] at whole
        obtain rfl := Exec.ok.inj whole
        have room :=
          ((granted mem text.length load measured).resolve_left nonzero).resolve_left copied
        have kept := kept_grownTo room (isText_insertedAt tables contentText isText index)
        rwa [insertedAt_length] at kept

/-- The zero check of the codepoint functions. -/
theorem nonzero_of_verify {cps : List Nat} (verified : verifyNonzero cps = .ok ()) :
    ∀ cp ∈ cps, cp ≠ 0 := by
  unfold verifyNonzero ucbVerify at verified
  split at verified
  · rename_i all
    simpa using all
  · cases verified

theorem nonzero_scalarValues {cps : List Scalar} (nonzero : ∀ cp ∈ scalarValues cps, cp ≠ 0) :
    ∀ cp ∈ cps, cp.val ≠ 0 :=
  fun cp member => nonzero cp.val (List.mem_map_of_mem member)

/-- What `ucb_str_append_cp` leaves: a valid string with the encoding appended,
or the old content with a failure, and then the old terminator unless a chunk
was pushed. -/
theorem appendCp_outcome {tables : UcbUcTables} {allocator : Allocator} {str str' : UcbStr}
    {content : List UInt8} (holds : Holds str content) (contentText : IsText content)
    {cps : List Nat} {done : Bool} {error : Option UcbError}
    (granted : RoomGranted allocator str (4 * cps.length))
    (ran : ucbStrAppendCp tables allocator str cps = .ok (str', done, error)) :
    (done = true ∧ RepInv str') ∨
      (done = false ∧ Holds str' content ∧ (str' = str ∨ Terminated str' ∨
        ¬ ChunkMeets tables allocator str (.appendCp cps))) := by
  have nonzero : ∀ cp ∈ cps, cp ≠ 0 := by
    obtain ⟨_, verified, -⟩ := Exec.bind_eq_ok.mp ran
    exact nonzero_of_verify verified
  have unchanged (reserved : reserveRoom allocator str (4 * cps.length) = .ok (str, false)) :
      done = false ∧ str' = str := by
    rw [appendCp_not_grown tables allocator nonzero reserved] at ran
    obtain ⟨rfl, rest⟩ := Prod.mk.inj (Exec.ok.inj ran)
    exact ⟨(Prod.mk.inj rest).1.symm, rfl⟩
  by_cases nonempty : cps = []
  · subst nonempty
    rcases appendCp_nil tables allocator holds with aborted | failed
    · rw [aborted] at ran
      cases ran
    · rw [failed] at ran
      obtain ⟨rfl, rest⟩ := Prod.mk.inj (Exec.ok.inj ran)
      exact .inr ⟨(Prod.mk.inj rest).1.symm, holds, .inl rfl⟩
  have positive : 4 * cps.length ≠ 0 := by
    have counted := List.length_pos_of_ne_nil nonempty
    omega
  rcases reserve_cases holds allocator (4 * cps.length) with
    ⟨grows, sufficient, spare, length, reserved⟩ | ⟨room, reserved⟩ | ⟨-, -, -, reserved⟩ |
      ⟨grows, refused, owned, -⟩
  · obtain ⟨tail, lengths, empty, appended⟩ :=
      appendCp_grown tables allocator nonzero nonempty length reserved
    have pushedLength := pushedBytes_length_le tables.maxMultiLen cps []
    rw [List.length_nil, Nat.zero_add] at pushedLength
    rw [appended] at ran
    rcases encodable_or_invalid cps with ⟨scalars, rfl⟩ | ⟨front, bad, rest, rfl, invalid⟩
    · rw [encodeOutcome_scalarValues] at ran
      obtain ⟨rfl, rest⟩ := Prod.mk.inj (Exec.ok.inj ran)
      refine .inl ⟨(Prod.mk.inj rest).1.symm, repInv_owned ?_ _ ?_ ?_⟩
      · rw [pushedBytes_scalarValues]
        exact contentText.append (isText_encode (nonzero_scalarValues nonzero))
      · rw [List.length_append]
        omega
      · rw [List.length_append, List.length_drop]
        omega
    · rw [encodeOutcome_invalid front invalid rest] at ran
      obtain ⟨rfl, failed⟩ := Prod.mk.inj (Exec.ok.inj ran)
      refine .inr ⟨(Prod.mk.inj failed).1.symm, ?_, ?_⟩
      · refine .owned content _ _ (by omega) (Nat.le_of_eq ?_)
        rw [Nat.add_assoc, ← lengths]
        exact congrArg (content.length + ·) List.length_append.symm
      · have chunk := (pushedBytes_invalid tables.maxMultiLen front invalid rest []
          (by have multiLen := tables.multiLen; simp; omega)).2
        rw [List.length_nil, Nat.zero_add] at chunk
        by_cases short : (encode front).length < 4 * tables.maxMultiLen
        · have none := chunk.mpr short
          rw [none, empty none]
          exact .inr (.inl (terminated_owned content spare _))
        · exact .inr (.inr fun meets => short (meets front bad rest rfl invalid grows sufficient))
  · rw [decide_eq_false positive] at reserved
    obtain ⟨failed, rfl⟩ := unchanged reserved
    exact .inr ⟨failed, holds, .inl rfl⟩
  · obtain ⟨failed, rfl⟩ := unchanged reserved
    exact .inr ⟨failed, holds, .inl rfl⟩
  · exact absurd (granted grows owned) refused

theorem insertCp_kept {tables : UcbUcTables} {allocator : Allocator} {str str' : UcbStr}
    {index : Nat} {cps : List Nat} {done : Bool} {error : Option UcbError}
    (holdsText : HoldsText str)
    (granted : AllocMeets tables allocator str (.insertCp index cps))
    (ran : ucbStrInsertCp tables allocator str index cps = .ok (str', done, error)) :
    Kept str str' ∧ (done = false → str' = str) := by
  obtain ⟨content, holds, contentText⟩ := holdsText
  obtain ⟨text, rfl⟩ := contentText.valid
  have nonzero : ∀ cp ∈ cps, cp ≠ 0 := by
    obtain ⟨_, verified, -⟩ := Exec.bind_eq_ok.mp ran
    exact nonzero_of_verify verified
  by_cases nonempty : cps = []
  · subst nonempty
    obtain ⟨rfl, rest⟩ := Prod.mk.inj (Exec.ok.inj ran)
    exact ⟨.inl rfl, fun _ => rfl⟩
  by_cases outside : index > (graphemeClusters tables text).length
  · rw [insertCp_outside holds tables allocator nonzero nonempty outside] at ran
    obtain ⟨rfl, rest⟩ := Prod.mk.inj (Exec.ok.inj ran)
    exact ⟨.inl rfl, fun _ => rfl⟩
  have inside := Nat.le_of_not_gt outside
  by_cases zeroed : allocator.grants .calloc (4 * cps.length) = true
  · rw [insertCp_inside holds tables allocator nonzero nonempty inside zeroed] at ran
    cases outcome : encodeOutcome cps with
    | error error =>
        rw [outcome] at ran
        obtain ⟨rfl, rest⟩ := Prod.mk.inj (Exec.ok.inj ran)
        exact ⟨.inl rfl, fun _ => rfl⟩
    | ok _ =>
        rw [outcome] at ran
        obtain ⟨scalars, rfl⟩ := exists_of_encodeOutcome_ok outcome
        obtain ⟨rfl, rest⟩ := Prod.mk.inj (Exec.ok.inj ran)
        have done_eq : done = true := (Prod.mk.inj rest).1.symm
        have mapped := mapCharPos_holds holds tables index
        rw [if_neg outside] at mapped
        have room := granted scalars _ rfl mapped zeroed
        have isText := isText_insertedAt tables contentText
          (isText_encode (nonzero_scalarValues nonzero)) index
        have kept := kept_grownTo room isText
        rw [insertedAt_length] at kept
        rw [pushedBytes_scalarValues, List.nil_append]
        exact ⟨kept, fun failed => by rw [done_eq] at failed; cases failed⟩
  · obtain ⟨error', failed⟩ := insertCp_refused holds tables allocator nonempty zeroed ran
    obtain ⟨rfl, rest⟩ := Prod.mk.inj failed
    exact ⟨.inl rfl, fun _ => rfl⟩

theorem strlen_ok {mem : List UInt8} {n : Nat} (measured : strlen mem = .ok n) :
    byteAt mem n = .ok 0 := by
  unfold strlen at measured
  split at measured
  · rename_i index found
    obtain rfl := Exec.ok.inj measured
    obtain ⟨inside, nul, -⟩ := List.findIdx?_eq_some_iff_getElem.mp found
    refine byteAt_zero ?_
    rw [List.getElem?_eq_getElem inside, eq_of_beq nul]
  · cases measured

theorem inside_of_byteAt {mem : List UInt8} {n byte : Nat} (read : byteAt mem n = .ok byte) :
    n < mem.length := by
  unfold byteAt at read
  split at read
  · rename_i found
    exact (List.getElem?_eq_some_iff.mp found).1
  · cases read

/-- An adopted block holds the text up to the verified length. -/
theorem adopt_repInv {str str' : UcbStr} {cstr : List UInt8} {len alloc : Nat}
    (inside : alloc ≤ cstr.length) (ran : ucbStrAdopt str cstr len alloc = .ok str') :
    RepInv str' := by
  obtain ⟨n, measured, ran⟩ := Exec.bind_eq_ok.mp ran
  obtain ⟨_, verified, ran⟩ := Exec.bind_eq_ok.mp ran
  obtain ⟨_, above, ran⟩ := Exec.bind_eq_ok.mp ran
  obtain ⟨byte, read, ran⟩ := Exec.bind_eq_ok.mp ran
  obtain ⟨_, isNul, ran⟩ := Exec.bind_eq_ok.mp ran
  obtain ⟨_, -, ran⟩ := Exec.bind_eq_ok.mp ran
  obtain rfl := Exec.ok.inj ran
  have above : n < alloc := of_decide_eq_true (ucbVerify_ok above)
  have terminated : byteAt cstr n = .ok 0 := by rw [read, eq_of_beq (ucbVerify_ok isNul)]
  have length : (cstr.take n).length = n := List.length_take_of_le (by omega)
  have isText : IsText (cstr.take n) := by
    rcases Nat.eq_zero_or_pos n with rfl | positive
    · exact isText_nil
    · exact (text_of_verify verified (Nat.ne_of_gt positive)).2
  have owned : (⟨.heap cstr, n, alloc⟩ : UcbStr) = ownedStr (cstr.take n) (cstr.drop n) alloc := by
    rw [ownedStr, List.take_append_drop, length]
  refine ⟨⟨cstr.take n, ?_, isText⟩, cstr, rfl, terminated⟩
  rw [owned]
  refine .owned _ _ _ (by omega) ?_
  rw [length, List.length_drop]
  omega

theorem adoptC_repInv {str str' : UcbStr} {cstr : List UInt8}
    (ran : ucbStrAdoptC str cstr = .ok str') : RepInv str' := by
  obtain ⟨n, measured, ran⟩ := Exec.bind_eq_ok.mp ran
  exact adopt_repInv (inside_of_byteAt (strlen_ok measured)) ran

theorem adoptUcResult_kept {str str' : UcbStr} {res : Option (List UInt8)} {done : Bool}
    (ran : ucbStrAdoptUcResult str res = .ok (str', done)) : Kept str str' := by
  cases res with
  | none => exact .inl (Prod.mk.inj (Exec.ok.inj ran)).1.symm
  | some text =>
      obtain ⟨adopted, adopt, ran⟩ := Exec.bind_eq_ok.mp ran
      obtain ⟨rfl, -⟩ := Prod.mk.inj (Exec.ok.inj ran)
      exact .inr (adopt_repInv (by simp) adopt)

theorem Holds.argument {src : UcbStr} {content mem : List UInt8} (holds : Holds src content)
    (str : UcbStr) (load : src.data.load = .ok mem) :
    StrArg.data str (.other src) = .ok (.mem mem) := by
  cases holds with
  | interned =>
      obtain rfl := Exec.ok.inj load
      rfl
  | owned content spare alloc above inside =>
      obtain rfl := Exec.ok.inj load
      rfl

theorem copy_kept {allocator : Allocator} {str str' : UcbStr} {src : Option ValidStr}
    {done : Bool} (granted : ∀ valid : ValidStr, src = some valid →
      allocator.grants .malloc (valid.val.size + 1) = true)
    (ran : ucbStrCopy allocator str (strArg src) = .ok (str', done)) : Kept str str' := by
  cases src with
  | none => exact .inl (Prod.mk.inj (Exec.ok.inj ran)).1.symm
  | some valid =>
      obtain ⟨_, -, ran⟩ := Exec.bind_eq_ok.mp ran
      obtain ⟨content, holds, -⟩ := valid.property.holds
      obtain ⟨spare, load⟩ := holds.load_terminated valid.property.terminated
      have data := holds.argument str load
      simp only [data, Exec.ok_bind, CstrArg.pointer, CstrArg.load, Exec.pure_eq_ok] at ran
      rcases initCommon_cases ran with ⟨-, invariant⟩ | ⟨-, mem, n, mem_eq, measured, refused⟩
      · exact .inr invariant
      · obtain rfl := Option.some.inj mem_eq
        have size_eq : n = valid.val.size := by
          rw [cstrLen, holds.size_eq] at measured
          split at measured
          · rename_i empty
            rw [List.eq_nil_of_length_eq_zero empty, List.nil_append] at measured
            rw [holds.size_eq, empty]
            exact (Exec.ok.inj measured).symm
          · rw [holds.size_eq]
            exact (Exec.ok.inj measured).symm
        rw [size_eq] at refused
        exact absurd (granted valid rfl) refused

theorem assign_kept {allocator : Allocator} {str str' : UcbStr} {cstr : CstrArg} {len : Nat}
    {done : Bool} (granted : AssignGranted allocator str cstr len)
    (ran : ucbStrAssign allocator str cstr len = .ok (str', done)) : Kept str str' := by
  unfold ucbStrAssign at ran
  split at ran
  · rename_i aliases
    obtain ⟨mem, load, ran⟩ := Exec.bind_eq_ok.mp ran
    obtain ⟨n, measured, ran⟩ := Exec.bind_eq_ok.mp ran
    split at ran
    · obtain ⟨_, -, ran⟩ := Exec.bind_eq_ok.mp ran
      obtain ⟨rfl, -⟩ := Prod.mk.inj (Exec.ok.inj ran)
      exact .inr repInv_interned
    · rename_i nonzero
      by_cases copied : allocator.grants .malloc n = true
      · rw [malloc_granted copied (Nat.pos_of_ne_zero nonzero)] at ran
        obtain ⟨bytes, -, ran⟩ := Exec.bind_eq_ok.mp ran
        obtain ⟨tmp, -, ran⟩ := Exec.bind_eq_ok.mp ran
        obtain ⟨_, -, ran⟩ := Exec.bind_eq_ok.mp ran
        rcases initCommon_cases ran with ⟨-, invariant⟩ | ⟨-, mem', n', -, measured', refused⟩
        · exact .inr invariant
        · rw [cstrLen, if_neg nonzero] at measured'
          obtain rfl := Exec.ok.inj measured'
          rcases granted mem n load measured with ⟨-, none⟩ | room
          · exact absurd none (not_or.mpr ⟨nonzero, not_not_intro copied⟩)
          · exact absurd room refused
      · rw [malloc_refused copied] at ran
        exact .inl (Prod.mk.inj (Exec.ok.inj ran)).1.symm
  · rename_i outside
    obtain ⟨_, -, ran⟩ := Exec.bind_eq_ok.mp ran
    obtain ⟨pointed, pointer, ran⟩ := Exec.bind_eq_ok.mp ran
    rcases initCommon_cases ran with ⟨-, invariant⟩ | ⟨-, mem, n, rfl, measured, refused⟩
    · exact .inr invariant
    · have load : cstr.load str = .ok mem := by
        cases cstr with
        | null => cases Exec.ok.inj pointer
        | mem bytes => exact congrArg Exec.ok (Option.some.inj (Exec.ok.inj pointer))
        | own offset =>
            obtain ⟨loaded, load, same⟩ := Exec.bind_eq_ok.mp pointer
            rw [load, Option.some.inj (Exec.ok.inj same)]
      rcases granted mem n load measured with ⟨aliases, -⟩ | room
      · exact absurd aliases outside
      · exact absurd room refused

theorem fit_kept {allocator : Allocator} {str str' : UcbStr} {done : Bool}
    (holdsText : HoldsText str)
    (granted : str.alloc > str.size + 1 → allocator.grants .realloc (str.size + 1) = true)
    (ran : ucbStrFit allocator str = .ok (str', done)) : Kept str str' := by
  obtain ⟨content, holds, isText⟩ := holdsText
  unfold ucbStrFit at ran
  split at ran
  · rename_i slack
    cases holds with
    | interned => exact absurd rfl slack.1
    | owned content spare alloc above inside =>
        obtain ⟨tail, length, shrunk⟩ := realloc_content (n := 0) content spare (granted slack.2)
        have terminated := blit_terminator content tail (by omega)
        simp only [ownedStr, StrData.owned, Exec.ok_bind] at ran
        simp only [Nat.add_zero] at shrunk
        simp only [shrunk, terminated, Exec.ok_bind, Exec.pure_eq_ok] at ran
        obtain ⟨rfl, -⟩ := Prod.mk.inj (Exec.ok.inj ran)
        exact .inr (repInv_owned isText _ (Nat.lt_succ_self _) (by omega))
  · exact .inl (Prod.mk.inj (Exec.ok.inj ran)).1.symm

theorem reserve_kept {allocator : Allocator} {str str' : UcbStr} {n : Nat} {done : Bool}
    (holdsText : HoldsText str) (granted : RoomGranted allocator str n)
    (ran : reserveRoom allocator str n = .ok (str', done)) : Kept str str' := by
  obtain ⟨content, holds, isText⟩ := holdsText
  rcases reserve_cases holds allocator n with ⟨-, -, spare, length, reserved⟩ | ⟨-, reserved⟩ |
    ⟨-, -, -, reserved⟩ | ⟨grows, refused, owned, -⟩
  · rw [reserved] at ran
    obtain ⟨rfl, -⟩ := Prod.mk.inj (Exec.ok.inj ran)
    exact .inr (repInv_owned isText spare (by omega) (by omega))
  · rw [reserved] at ran
    exact .inl (Prod.mk.inj (Exec.ok.inj ran)).1.symm
  · rw [reserved] at ran
    exact .inl (Prod.mk.inj (Exec.ok.inj ran)).1.symm
  · exact absurd (granted grows owned) refused

/-- The contents of the strings, one behind the other, land behind `front`. -/
theorem copyAll_texts (strs : List UcbStr) :
    (∀ str ∈ strs, HoldsText str) →
      ∃ text, IsText text ∧ (strs.map UcbStr.size).sum = text.length ∧
        ∀ front spare : List UInt8, text.length ≤ spare.length →
          copyAll (front ++ spare) front.length strs =
            .ok (front ++ text ++ spare.drop text.length) := by
  induction strs with
  | nil => exact fun _ => ⟨[], isText_nil, rfl, fun front spare _ => by simp [copyAll]⟩
  | cons next rest inductionHypothesis =>
      intro all
      obtain ⟨content, holds, contentText⟩ := all next List.mem_cons_self
      obtain ⟨text, isText, sum, copied⟩ :=
        inductionHypothesis fun str member => all str (List.mem_cons_of_mem next member)
      obtain ⟨behind, load⟩ := holds.load
      refine ⟨content ++ text, contentText.append isText, ?_, ?_⟩
      · rw [List.map_cons, List.sum_cons, sum, holds.size_eq, List.length_append]
      · intro front spare room
        rw [List.length_append] at room
        have written := blit_spare front spare (show content.length ≤ spare.length by omega)
        have rest_eq := copied (front ++ content) (spare.drop content.length)
          (by rw [List.length_drop]; omega)
        rw [List.drop_drop, List.length_append] at rest_eq
        simp only [copyAll, load, holds.size_eq, slice_left, written, Exec.ok_bind, rest_eq]
        simp only [List.append_assoc, List.length_append]

theorem concat_repInv {allocator : Allocator} {str str' : UcbStr} {others : List UcbStr}
    (all : ∀ other ∈ str :: others, HoldsText other)
    (ran : ucbStrConcat allocator str others = .ok (some str')) : RepInv str' := by
  obtain ⟨text, isText, sum, copied⟩ := copyAll_texts (str :: others) all
  have size : (others.map UcbStr.size).foldl (· + ·) str.size = text.length := by
    rw [← sum, List.sum_eq_foldl, List.map_cons, List.foldl_cons, Nat.zero_add]
  unfold ucbStrConcat at ran
  simp only [size] at ran
  split at ran
  · obtain rfl := Option.some.inj (Exec.ok.inj ran)
    exact repInv_interned
  · by_cases granted : allocator.grants .malloc (text.length + 1) = true
    · have written := copied [] (allocator.freshBlock (text.length + 1)) (by simp)
      have terminated := blit_terminator text
        ((allocator.freshBlock (text.length + 1)).drop text.length) (by simp)
      rw [malloc_granted granted (Nat.succ_pos _)] at ran
      simp only [List.nil_append, List.length_nil] at written
      simp only [written, terminated, Exec.ok_bind, Exec.pure_eq_ok] at ran
      obtain rfl := Option.some.inj (Exec.ok.inj ran)
      exact repInv_owned isText _ (Nat.lt_succ_self _) (by simp)
    · rw [malloc_refused granted] at ran
      cases Exec.ok.inj ran

/-- `ucb_str_init` makes a valid string or none. -/
theorem init_repInv {allocator : Allocator} {str : UcbStr} {cstr : Option (List UInt8)}
    {len : Nat} (ran : ucbStrInit allocator cstr len = .ok (str, true)) : RepInv str := by
  rcases initCommon_cases ran with ⟨-, invariant⟩ | ⟨failed, -⟩
  · exact invariant
  · cases failed

theorem follow_kept {str str' : UcbStr} {made : UcbStr × Bool} {done : Bool}
    (invariant : made.2 = true → RepInv made.1) (followed : follow str made = (str', done)) :
    Kept str str' := by
  unfold follow at followed
  split at followed
  · rename_i success
    rw [followed] at success invariant
    exact .inr (invariant success)
  · exact .inl (Prod.mk.inj followed).1.symm

theorem substr_repInv {allocator : Allocator} {str str' : UcbStr} {start : Nat}
    {stop : Option Nat} (ran : ucbStrSubstr allocator str start stop = .ok (str', true)) :
    RepInv str' := by
  obtain ⟨_, -, ran⟩ := Exec.bind_eq_ok.mp ran
  dsimp only at ran
  split at ran
  · exact init_repInv ran
  · obtain ⟨mem, -, ran⟩ := Exec.bind_eq_ok.mp ran
    exact init_repInv ran

/-! ## Every operation -/

/-- Every operation whose allocations are granted keeps the invariant, except
`ucb_str_append_cp`. -/
theorem strOp_kept {tables : UcbUcTables} {allocator : Allocator} {str str' : UcbStr} {op : StrOp}
    {done : Bool} (holdsText : HoldsText str) (granted : AllocMeets tables allocator str op)
    (other : ∀ cps, op ≠ .appendCp cps)
    (ran : strOp tables allocator str op = .ok (str', done)) : Kept str str' := by
  cases op with
  | copy src =>
      refine copy_kept (fun valid found => ?_) ran
      subst found
      exact granted
  | assign cstr len => exact assign_kept granted ran
  | fit => exact fit_kept holdsText granted ran
  | reserve size =>
      by_cases fits : size.toNat + str.size + 1 < 2 ^ 64
      · rw [strOp, ucbStrReserve_fits allocator fits] at ran
        exact reserve_kept holdsText (granted fits) ran
      · obtain ⟨content, holds, -⟩ := holdsText
        obtain ⟨answer, same⟩ := ucbStrReserve_wraps holds allocator fits
        rw [strOp, same] at ran
        exact .inl (Prod.mk.inj (Exec.ok.inj ran)).1.symm
  | adopt cstr len alloc =>
      simp only [strOp] at ran
      split at ran
      · rename_i inside
        obtain ⟨adopted, inner, same⟩ := Exec.map_eq_ok ran
        obtain ⟨rfl, -⟩ := Prod.mk.inj same
        exact .inr (adopt_repInv inside inner)
      · cases ran
  | adoptC cstr =>
      obtain ⟨adopted, inner, same⟩ := Exec.map_eq_ok ran
      obtain ⟨rfl, -⟩ := Prod.mk.inj same
      exact .inr (adoptC_repInv inner)
  | clear =>
      obtain ⟨cleared, inner, same⟩ := Exec.map_eq_ok ran
      obtain ⟨rfl, -⟩ := Prod.mk.inj same
      obtain ⟨_, -, inner⟩ := Exec.bind_eq_ok.mp inner
      obtain rfl := Exec.ok.inj inner
      exact .inr repInv_interned
  | append astr =>
      obtain ⟨appended, inner, same⟩ := Exec.map_eq_ok ran
      obtain ⟨rfl, -⟩ := Prod.mk.inj same
      obtain ⟨cstr, data, inner⟩ := Exec.bind_eq_ok.mp inner
      exact appendCstr_kept holdsText (granted cstr data) inner
  | appendCstr cstr len =>
      obtain ⟨appended, inner, same⟩ := Exec.map_eq_ok ran
      obtain ⟨rfl, -⟩ := Prod.mk.inj same
      exact appendCstr_kept holdsText granted inner
  | appendCp cps => exact absurd rfl (other cps)
  | insert index istr =>
      obtain ⟨inserted, inner, same⟩ := Exec.map_eq_ok ran
      obtain ⟨rfl, -⟩ := Prod.mk.inj same
      obtain ⟨cstr, data, inner⟩ := Exec.bind_eq_ok.mp inner
      exact insertCstr_kept holdsText (granted cstr data) inner
  | insertCstr index cstr len =>
      obtain ⟨inserted, inner, same⟩ := Exec.map_eq_ok ran
      obtain ⟨rfl, -⟩ := Prod.mk.inj same
      exact insertCstr_kept holdsText granted inner
  | insertCp index cps =>
      obtain ⟨⟨inserted, _, error⟩, inner, same⟩ := Exec.map_eq_ok ran
      obtain ⟨rfl, -⟩ := Prod.mk.inj same
      exact (insertCp_kept holdsText granted inner).1
  | adoptUcResult res => exact adoptUcResult_kept ran
  | clone =>
      obtain ⟨made, inner, followed⟩ := Exec.map_eq_ok ran
      refine follow_kept (fun success => ?_) followed
      obtain ⟨data, -, inner⟩ := Exec.bind_eq_ok.mp inner
      obtain ⟨cstr, -, inner⟩ := Exec.bind_eq_ok.mp inner
      rw [← Prod.eta made, success] at inner
      exact init_repInv inner
  | concat others =>
      obtain ⟨made, inner, followed⟩ := Exec.map_eq_ok ran
      obtain ⟨rfl, -⟩ := Prod.mk.inj followed
      cases made with
      | none => exact .inl rfl
      | some made =>
          refine .inr (concat_repInv ?_ inner)
          rintro other (_ | ⟨_, member⟩)
          · exact holdsText
          · obtain ⟨valid, -, rfl⟩ := List.mem_map.mp member
            exact valid.property.holds
  | substr start stop =>
      obtain ⟨made, inner, followed⟩ := Exec.map_eq_ok ran
      refine follow_kept (fun success => ?_) followed
      rw [← Prod.eta made, success] at inner
      exact substr_repInv inner

/-- The text is never lost when the allocations are granted. -/
theorem strOp_holdsText {tables : UcbUcTables} {allocator : Allocator} {str str' : UcbStr}
    {op : StrOp} {done : Bool} (holdsText : HoldsText str)
    (granted : AllocMeets tables allocator str op)
    (ran : strOp tables allocator str op = .ok (str', done)) : HoldsText str' := by
  by_cases codepoints : ∃ cps, op = .appendCp cps
  · obtain ⟨cps, rfl⟩ := codepoints
    obtain ⟨content, holds, isText⟩ := holdsText
    obtain ⟨⟨appended, _, error⟩, inner, same⟩ := Exec.map_eq_ok ran
    obtain ⟨rfl, -⟩ := Prod.mk.inj same
    rcases appendCp_outcome holds isText granted inner with ⟨-, invariant⟩ | ⟨-, kept, -⟩
    · exact invariant.holds
    · exact ⟨content, kept, isText⟩
  · exact (strOp_kept holdsText granted (not_exists.mp codepoints) ran).holdsText holdsText

theorem strOp_repInv {tables : UcbUcTables} {allocator : Allocator} {str str' : UcbStr}
    {op : StrOp} {done : Bool} (invariant : RepInv str)
    (granted : AllocMeets tables allocator str op) (chunks : ChunkMeets tables allocator str op)
    (ran : strOp tables allocator str op = .ok (str', done)) : RepInv str' := by
  by_cases codepoints : ∃ cps, op = .appendCp cps
  · obtain ⟨cps, rfl⟩ := codepoints
    obtain ⟨content, holds, isText⟩ := invariant.holds
    obtain ⟨⟨appended, _, error⟩, inner, same⟩ := Exec.map_eq_ok ran
    obtain ⟨rfl, -⟩ := Prod.mk.inj same
    rcases appendCp_outcome holds isText granted inner with ⟨-, kept⟩ | ⟨-, kept, damage⟩
    · exact kept
    · rcases damage with rfl | terminated | pushed
      · exact invariant
      · exact ⟨⟨content, kept, isText⟩, terminated⟩
      · exact absurd chunks pushed
  · exact (strOp_kept invariant.holds granted (not_exists.mp codepoints) ran).repInv invariant

/-! ## Runs -/

/-- The documented invariant of an initialized string, byte by byte. -/
structure DocumentedInv (str : UcbStr) : Prop where
  terminated : ∃ mem, str.data.load = .ok mem ∧ byteAt mem str.size = .ok 0 ∧
    (∀ index < str.size, byteAt mem index ≠ .ok 0) ∧ ValidUtf8 (mem.take str.size)
  capacity : str = .interned ∨ str.size < str.alloc

/-- The size, the bytes before it and the byte at it are the same. -/
def SameText (str str' : UcbStr) : Prop :=
  str'.size = str.size ∧ ∃ mem mem', str.data.load = .ok mem ∧ str'.data.load = .ok mem' ∧
    mem'.take (str.size + 1) = mem.take (str.size + 1)

theorem RepInv.documented {str : UcbStr} (invariant : RepInv str) : DocumentedInv str := by
  obtain ⟨content, holds, isText⟩ := invariant.holds
  obtain ⟨spare, load⟩ := holds.load_terminated invariant.terminated
  refine ⟨⟨_, load, ?_, ?_, ?_⟩, ?_⟩
  · rw [holds.size_eq]
    exact byteAt_zero (by simp)
  · intro index inside nul
    rw [holds.size_eq] at inside
    rw [byteAt_append _ inside, byteAt_of_getElem? (List.getElem?_eq_getElem inside)] at nul
    have zero : content[index] = 0 := UInt8.toNat_inj.mp (Exec.ok.inj nul)
    exact isText.noNul (zero ▸ List.getElem_mem inside)
  · rw [holds.size_eq, List.take_left]
    exact isText.valid
  · cases holds with
    | interned => exact .inl rfl
    | owned content spare alloc above inside => exact .inr above

theorem sameText_of_holds {str str' : UcbStr} {content : List UInt8} (invariant : RepInv str)
    (invariant' : RepInv str') (holds : Holds str content) (holds' : Holds str' content) :
    SameText str str' := by
  obtain ⟨spare, load⟩ := holds.load_terminated invariant.terminated
  obtain ⟨spare', load'⟩ := holds'.load_terminated invariant'.terminated
  refine ⟨by rw [holds.size_eq, holds'.size_eq], _, _, load, load', ?_⟩
  rw [holds.size_eq, List.take_length_add_append, List.take_length_add_append]
  rfl

/-- The call refuses no allocation that the string depends on and pushes no
chunk ahead of a codepoint it cannot encode. -/
def CallMeets (tables : UcbUcTables) (allocator : Allocator) : StrPhase → StrCall → Prop
  | .live str, .op op => AllocMeets tables allocator str op ∧ ChunkMeets tables allocator str op
  | _, _ => True

/-- One such call; every call may meet another allocator. -/
def MeetingStep (tables : UcbUcTables) (before after : StrPhase) : Prop :=
  ∃ allocator call done, CallMeets tables allocator before call ∧
    strCall tables allocator before call = .ok (after, done)

def PhaseInv : StrPhase → Prop
  | .zeroed => True
  | .live str => RepInv str

theorem meetingStep_preserves {tables : UcbUcTables} {before after : StrPhase}
    (invariant : PhaseInv before) (step : MeetingStep tables before after) : PhaseInv after := by
  obtain ⟨allocator, call, done, meets, ran⟩ := step
  match before, call with
  | .zeroed, .init cstr len =>
      obtain ⟨⟨made, success⟩, inner, same⟩ := Exec.map_eq_ok ran
      obtain ⟨rfl, -⟩ := Prod.mk.inj same
      cases success with
      | true => exact init_repInv inner
      | false => trivial
  | .live str, .release =>
      obtain ⟨_, -, same⟩ := Exec.map_eq_ok ran
      obtain ⟨rfl, -⟩ := Prod.mk.inj same
      trivial
  | .live str, .abandon =>
      obtain ⟨rfl, -⟩ := Prod.mk.inj (Exec.ok.inj ran)
      trivial
  | .live str, .op op =>
      obtain ⟨⟨str', _⟩, inner, same⟩ := Exec.map_eq_ok ran
      obtain ⟨rfl, -⟩ := Prod.mk.inj same
      exact strOp_repInv invariant meets.1 meets.2 inner

theorem meetingRun_preserves {tables : UcbUcTables} {before after : StrPhase}
    (invariant : PhaseInv before) (run : Relation.ReflTransGen (MeetingStep tables) before after) :
    PhaseInv after := by
  induction run with
  | refl => exact invariant
  | tail _ step inductionHypothesis => exact meetingStep_preserves inductionHypothesis step

theorem failedCp_sameText {tables : UcbUcTables} {allocator : Allocator} {str str' : UcbStr}
    {op : StrOp} (invariant : RepInv str) (meets : CallMeets tables allocator (.live str) (.op op))
    (codepoints : (∃ cps, op = .appendCp cps) ∨ ∃ index cps, op = .insertCp index cps)
    (failed : strOp tables allocator str op = .ok (str', false)) : SameText str str' := by
  have invariant' := strOp_repInv invariant meets.1 meets.2 failed
  obtain ⟨content, holds, isText⟩ := invariant.holds
  rcases codepoints with ⟨cps, rfl⟩ | ⟨index, cps, rfl⟩
  · obtain ⟨⟨_, done, error⟩, inner, same⟩ := Exec.map_eq_ok failed
    obtain ⟨rfl, rfl⟩ := Prod.mk.inj same
    rcases appendCp_outcome holds isText meets.1 inner with ⟨success, -⟩ | ⟨-, holds', -⟩
    · cases success
    · exact sameText_of_holds invariant invariant' holds holds'
  · obtain ⟨⟨_, done, error⟩, inner, same⟩ := Exec.map_eq_ok failed
    obtain ⟨rfl, rfl⟩ := Prod.mk.inj same
    obtain rfl := (insertCp_kept ⟨content, holds, isText⟩ meets.1 inner).2 rfl
    exact sameText_of_holds invariant invariant holds holds

/-- In a run whose calls all meet the condition, every string reached satisfies
the documented invariant, and a failing `ucb_str_append_cp` or
`ucb_str_insert_cp` leaves the text and its terminator as they were. -/
theorem meetingRun_documented (tables : UcbUcTables) {str : UcbStr}
    (run : Relation.ReflTransGen (MeetingStep tables) .zeroed (.live str)) :
    DocumentedInv str ∧
      ∀ allocator op str', CallMeets tables allocator (.live str) (.op op) →
        ((∃ cps, op = .appendCp cps) ∨ ∃ index cps, op = .insertCp index cps) →
          strOp tables allocator str op = .ok (str', false) → SameText str str' := by
  have invariant : RepInv str := meetingRun_preserves (show PhaseInv .zeroed from trivial) run
  exact ⟨invariant.documented, fun allocator op str' meets codepoints failed =>
    failedCp_sameText invariant meets codepoints failed⟩

/-- Grants everything; fresh memory is zero. -/
def zeroAllocator : Allocator :=
  ⟨fun _ _ => true, fun _ => 0⟩

theorem meetingRun_documented_letters :
    DocumentedInv ⟨.heap ([97, 98] ++ 0 :: List.replicate 6 0), 2, 9⟩ := by
  refine (meetingRun_documented flagTables (.tail (.single ⟨zeroAllocator, .init none 0, true,
    trivial, rfl⟩) ⟨zeroAllocator, .op (.appendCp [97, 98]), true, ⟨?_, ?_⟩, rfl⟩)).1
  · exact fun _ owned => absurd rfl owned
  · intro front bad rest split invalid
    have letters : ∀ cp ∈ [97, 98], IsScalar cp := by decide
    exact absurd (letters bad (split ▸ by simp)) invalid

/-- Twelve letters fill a chunk; the surrogate behind them is refused. -/
def letterChunk : List Nat :=
  List.replicate 12 97 ++ [0xD800]

/-- The empty string after the refused append: its first byte is a letter. -/
def overwritten : UcbStr :=
  ⟨.heap (List.replicate 12 97 ++ List.replicate 41 0), 0, 53⟩

theorem letterChunk_unterminated :
    strCall flagTables zeroAllocator .zeroed (.init none 0) = .ok (.live .interned, true) ∧
      strCall flagTables zeroAllocator (.live .interned) (.op (.appendCp letterChunk)) =
        .ok (.live overwritten, false) ∧
      ¬ DocumentedInv overwritten ∧ ¬ SameText .interned overwritten := by
  refine ⟨rfl, rfl, ?_, ?_⟩
  · intro documented
    obtain ⟨mem, load, nul, -⟩ := documented.terminated
    obtain rfl := Exec.ok.inj load
    cases nul
  · rintro ⟨-, mem, mem', load, load', same⟩
    obtain rfl := Exec.ok.inj load
    obtain rfl := Exec.ok.inj load'
    cases same

end Ucb.Str
