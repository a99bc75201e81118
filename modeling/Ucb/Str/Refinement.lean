import Ucb.Str.Invariant

/-!
Contract: appending and inserting as list operations, when no allocation fails.

Owns:
- for each of the six functions, exactly when it leaves the list it should;
- that the strings reached by any sequence of operations are covered;
- a string with spare room that drops what is appended.
-/

namespace Ucb.Str

open Ucb.Unicode

/-! ## Arguments and outcomes -/

/-- The pair `(cstr, len)` of a caller denotes the text. -/
inductive DenotesArg (str : UcbStr) : CstrArg → Nat → List UInt8 → Prop where
  | null : DenotesArg str .null 0 []
  | pointed {cstr : CstrArg} {len : Nat} {mem text : List UInt8}
      (load : cstr.load str = .ok mem) (denotes : DenotesAt mem len text) :
      DenotesArg str cstr len text

/-- The call returns and the string then holds `content`. -/
def Leaves (ran : Exec UcbStr) (content : List UInt8) : Prop :=
  ∃ str, ran = .ok str ∧ Holds str content ∧ str.size = content.length

/-- The call reports success and the string then holds `content`. -/
def LeavesTrue (ran : Exec (UcbStr × Bool × Option UcbError)) (content : List UInt8) : Prop :=
  ∃ str error, ran = .ok (str, true, error) ∧ Holds str content ∧ str.size = content.length

/-- The call reports the position and changes nothing. -/
def RefusesPos (str : UcbStr) (index : Nat)
    (ran : Exec (UcbStr × Bool × Option UcbError)) : Prop :=
  ran = .ok (str, false, some (charPosError true index))

theorem leaves_ok_iff {str : UcbStr} {content : List UInt8} (holds : Holds str content)
    (expected : List UInt8) : Leaves (.ok str) expected ↔ expected = content := by
  constructor
  · rintro ⟨str', same, holds', -⟩
    obtain rfl := Exec.ok.inj same
    exact holds'.unique holds
  · rintro rfl
    exact ⟨str, rfl, holds, holds.size_eq⟩

theorem DenotesArg.verified {str : UcbStr} {cstr : CstrArg} {len : Nat} {text : List UInt8}
    (denotes : DenotesArg str cstr len text) (isText : IsText text) (nonempty : text ≠ []) :
    Verified str cstr len text := by
  cases denotes with
  | null => exact absurd rfl nonempty
  | pointed load denotes =>
      obtain ⟨rest, rfl⟩ := denotes.prefix
      exact ⟨⟨rest, load, denotes.cstrLen isText.noNul, verifyCstr_text isText rest nonempty⟩,
        nonempty⟩

/-- A string argument hands its data and size to the C-string function. -/
theorem strArg_denotes {str : UcbStr} {astr : StrArg} {text : List UInt8}
    (valid : RepInv (astr.get str)) (holds : Holds (astr.get str) text) :
    ∃ cstr, astr.data str = .ok cstr ∧ DenotesArg str cstr (astr.get str).size text := by
  obtain ⟨spare, load⟩ := holds.load_terminated valid.terminated
  have denotes : DenotesAt (text ++ 0 :: spare) (astr.get str).size text := by
    rw [holds.size_eq]
    cases text with
    | nil => exact .measured [] spare
    | cons byte rest => exact .counted (byte :: rest) (0 :: spare) (List.cons_ne_nil byte rest)
  cases astr with
  | other other => exact ⟨_, holds.argument str load, .pointed rfl denotes⟩
  | self =>
      cases holds with
      | interned => exact ⟨.mem [0], rfl, .pointed rfl (.measured [] [])⟩
      | owned content spare' alloc above inside =>
          refine ⟨.own 0, rfl, .pointed ?_ denotes⟩
          rw [← Exec.ok.inj load]
          rfl

/-! ## Growing with a generous allocator -/

theorem growGranted_generous {allocator : Allocator} (generous : allocator.Generous) (str : UcbStr)
    (n : Nat) : GrowGranted allocator str n := by
  unfold GrowGranted
  split
  · exact generous _ _
  · exact generous _ _

theorem grownTo_generous {allocator : Allocator} (generous : allocator.Generous) (str : UcbStr)
    (n : Nat) (new : UcbStr) :
    grownTo allocator str n new = if Grows str n then new else str := by
  simp [grownTo, growGranted_generous generous]

theorem not_copyRefused {allocator : Allocator} (generous : allocator.Generous) (str : UcbStr)
    (cstr : CstrArg) (n : Nat) : ¬ CopyRefused allocator str cstr n :=
  fun refused => refused.2 (generous _ _)

/-- With room already there `ucb_str_reserve` answers false, and the caller
takes that for a failure. -/
theorem leaves_grownTo_iff {allocator : Allocator} (generous : allocator.Generous) {str : UcbStr}
    {content new : List UInt8} (holds : Holds str content) {n : Nat} (nonzero : n ≠ 0)
    (length : new.length = content.length + n) :
    Leaves (.ok (grownTo allocator str n (ownedStr new [0] (content.length + n + 1)))) new ↔
      Grows str n := by
  rw [grownTo_generous generous]
  split
  · rename_i grows
    have owned : Holds (ownedStr new [0] (content.length + n + 1)) new :=
      .owned new [0] _ (by omega) (by simp [length])
    simp [leaves_ok_iff owned, grows]
  · rename_i room
    have changed : new ≠ content := by
      rintro rfl
      omega
    simp [leaves_ok_iff holds, changed, room]

/-! ## Appending -/

theorem appendCstr_empty {allocator : Allocator} {str : UcbStr} {cstr : CstrArg} {len : Nat}
    (denotes : DenotesArg str cstr len []) : ucbStrAppendCstr allocator str cstr len = .ok str := by
  cases denotes with
  | null => rfl
  | pointed load denotes =>
      have notNull : cstr ≠ .null := by
        rintro rfl
        cases load
      have measured := denotes.cstrLen (List.not_mem_nil)
      simp [ucbStrAppendCstr, notNull, load, measured]

theorem appendCstr_leaves_iff {allocator : Allocator} (generous : allocator.Generous)
    {str : UcbStr} {content : List UInt8} (holds : Holds str content) {cstr : CstrArg} {len : Nat}
    {text : List UInt8} (isText : IsText text) (denotes : DenotesArg str cstr len text) :
    Leaves (ucbStrAppendCstr allocator str cstr len) (content ++ text) ↔
      text = [] ∨ Grows str text.length := by
  by_cases nonempty : text = []
  · subst nonempty
    rw [appendCstr_empty denotes, List.append_nil, leaves_ok_iff holds]
    simp
  · have nonzero : text.length ≠ 0 := by simp [nonempty]
    rcases appendCstr_verified holds allocator (denotes.verified isText nonempty) with
      ⟨refused, -⟩ | ⟨-, appended⟩
    · exact absurd refused (not_copyRefused generous _ _ _)
    · rw [appended, leaves_grownTo_iff generous holds nonzero List.length_append]
      simp [nonempty]

theorem append_leaves_iff {allocator : Allocator} (generous : allocator.Generous) {str : UcbStr}
    {content : List UInt8} (holds : Holds str content) {astr : StrArg} {text : List UInt8}
    (valid : RepInv (astr.get str)) (argument : Holds (astr.get str) text) :
    Leaves (ucbStrAppend allocator str astr) (content ++ text) ↔
      text = [] ∨ Grows str text.length := by
  obtain ⟨other, argument', isText⟩ := valid.holds
  obtain rfl := argument.unique argument'
  obtain ⟨cstr, data, denotes⟩ := strArg_denotes valid argument
  simp only [ucbStrAppend, data, Exec.ok_bind]
  exact appendCstr_leaves_iff generous holds isText denotes

theorem appendCp_leaves_iff (tables : UcbUcTables) {allocator : Allocator}
    (generous : allocator.Generous) {str : UcbStr} {content : List UInt8}
    (holds : Holds str content) {cps : List Scalar} (nonzero : ∀ cp ∈ cps, cp.val ≠ 0) :
    LeavesTrue (ucbStrAppendCp tables allocator str (scalarValues cps)) (content ++ encode cps) ↔
      cps ≠ [] ∧ Grows str (4 * cps.length) := by
  have counted : (scalarValues cps).length = cps.length := List.length_map _
  by_cases empty : cps = []
  · subst empty
    constructor
    · rintro ⟨str', error, ran, -⟩
      rcases appendCp_nil tables allocator holds with aborted | failed
      · rw [show scalarValues [] = [] from rfl, aborted] at ran
        cases ran
      · rw [show scalarValues [] = [] from rfl, failed] at ran
        cases (Prod.mk.inj (Prod.mk.inj (Exec.ok.inj ran)).2).1
    · exact fun both => absurd rfl both.1
  · have values : scalarValues cps ≠ [] := fun none => empty (List.map_eq_nil_iff.mp none)
    have nonzeroValues : ∀ cp ∈ scalarValues cps, cp ≠ 0 := by
      intro cp member
      obtain ⟨scalar, inside, rfl⟩ := List.mem_map.mp member
      exact nonzero scalar inside
    have fails {unchanged : UcbStr}
        (reserved : reserveRoom allocator str (4 * (scalarValues cps).length) =
          .ok (unchanged, false)) :
        ¬ LeavesTrue (ucbStrAppendCp tables allocator str (scalarValues cps))
          (content ++ encode cps) := by
      rintro ⟨str', error, ran, -⟩
      rw [appendCp_not_grown tables allocator nonzeroValues reserved] at ran
      cases (Prod.mk.inj (Prod.mk.inj (Exec.ok.inj ran)).2).1
    rw [← counted]
    rcases reserve_cases holds allocator (4 * (scalarValues cps).length) with
      ⟨grows, -, spare, length, reserved⟩ | ⟨room, reserved⟩ | ⟨grows, refused, -⟩ |
        ⟨grows, refused, -⟩
    · obtain ⟨tail, lengths, -, appended⟩ :=
        appendCp_grown tables allocator nonzeroValues values length reserved
      rw [encodeOutcome_scalarValues] at appended
      have pushedLength := pushedBytes_length_le tables.maxMultiLen (scalarValues cps) []
      simp only [pushedBytes_scalarValues, List.nil_append] at lengths appended pushedLength
      rw [List.length_nil] at pushedLength
      refine ⟨fun _ => ⟨empty, grows⟩, fun _ => ⟨_, none, appended, .owned _ _ _ ?_ ?_, rfl⟩⟩
      · rw [List.length_append]
        omega
      · rw [List.length_append, List.length_cons, List.length_drop]
        omega
    · have nonempty : ¬ 4 * (scalarValues cps).length = 0 := by
        have positive := List.length_pos_of_ne_nil values
        omega
      rw [decide_eq_false nonempty] at reserved
      exact ⟨fun left => absurd left (fails reserved), fun both => absurd both.2 room⟩
    · exact absurd (growGranted_generous generous _ _) refused
    · exact absurd (growGranted_generous generous _ _) refused

/-! ## Inserting -/

theorem insertCstr_empty {tables : UcbUcTables} {allocator : Allocator} {str : UcbStr}
    {index : Nat} {cstr : CstrArg} {len : Nat} (denotes : DenotesArg str cstr len []) :
    ucbStrInsertCstr tables allocator str index cstr len = .ok str := by
  cases denotes with
  | null => rfl
  | pointed load denotes =>
      have notNull : cstr ≠ .null := by
        rintro rfl
        cases load
      have measured := denotes.cstrLen (List.not_mem_nil)
      simp [ucbStrInsertCstr, notNull, load, measured]

theorem insertedAt_nil (tables : UcbUcTables) (cps : List Scalar) (index : Nat) :
    insertedAt tables cps index [] = encode cps := by
  rw [insertedAt, List.append_nil, ← encode_split]

/-- What a call of an insert function with a C string must do. -/
def InsertsAt (tables : UcbUcTables) (cps : List Scalar) (index : Nat) (text : List UInt8)
    (ran : Exec UcbStr) : Prop :=
  if index ≤ (graphemeClusters tables cps).length then Leaves ran (insertedAt tables cps index text)
  else ran = .abort .invalidArg

/-- When it does so: in range, there is nothing to insert or no room for it;
out of range, there is something to insert. -/
def InsertMeets (tables : UcbUcTables) (str : UcbStr) (cps : List Scalar) (index : Nat)
    (text : List UInt8) : Prop :=
  if index ≤ (graphemeClusters tables cps).length then text = [] ∨ Grows str text.length
  else text ≠ []

theorem insertCstr_inserts_iff (tables : UcbUcTables) {allocator : Allocator}
    (generous : allocator.Generous) {str : UcbStr} {cps : List Scalar}
    (holds : Holds str (encode cps)) (index : Nat) {cstr : CstrArg} {len : Nat} {text : List UInt8}
    (isText : IsText text) (denotes : DenotesArg str cstr len text) :
    InsertsAt tables cps index text (ucbStrInsertCstr tables allocator str index cstr len) ↔
      InsertMeets tables str cps index text := by
  unfold InsertsAt InsertMeets
  by_cases nonempty : text = []
  · subst nonempty
    rw [insertCstr_empty denotes, insertedAt_nil, leaves_ok_iff holds]
    simp
  · have nonzero : text.length ≠ 0 := by simp [nonempty]
    have length := insertedAt_length tables cps index text
    rcases insertCstr_verified holds tables allocator index (denotes.verified isText nonempty) with
      ⟨outside, aborted⟩ | ⟨-, refused, -⟩ | ⟨inside, -, inserted⟩
    · rw [if_neg (Nat.not_le.mpr outside), if_neg (Nat.not_le.mpr outside), aborted]
      simp [nonempty]
    · exact absurd refused (not_copyRefused generous _ _ _)
    · rw [if_pos inside, if_pos inside, inserted, leaves_grownTo_iff generous holds nonzero length]
      simp [nonempty]

theorem insert_inserts_iff (tables : UcbUcTables) {allocator : Allocator}
    (generous : allocator.Generous) {str : UcbStr} {cps : List Scalar}
    (holds : Holds str (encode cps)) (index : Nat) {istr : StrArg} {text : List UInt8}
    (valid : RepInv (istr.get str)) (argument : Holds (istr.get str) text) :
    InsertsAt tables cps index text (ucbStrInsert tables allocator str index istr) ↔
      InsertMeets tables str cps index text := by
  obtain ⟨other, argument', isText⟩ := valid.holds
  obtain rfl := argument.unique argument'
  obtain ⟨cstr, data, denotes⟩ := strArg_denotes valid argument
  simp only [ucbStrInsert, data, Exec.ok_bind]
  exact insertCstr_inserts_iff tables generous holds index isText denotes

/-- What `ucb_str_insert_cp` must do. -/
def InsertsCpAt (tables : UcbUcTables) (str : UcbStr) (cps : List Scalar) (index : Nat)
    (text : List UInt8) (ran : Exec (UcbStr × Bool × Option UcbError)) : Prop :=
  if index ≤ (graphemeClusters tables cps).length then
    LeavesTrue ran (insertedAt tables cps index text)
  else RefusesPos str index ran

theorem leavesTrue_ok_iff (str : UcbStr) (error : Option UcbError) (content : List UInt8) :
    LeavesTrue (.ok (str, true, error)) content ↔ Leaves (.ok str) content := by
  constructor
  · rintro ⟨str', error', same, holds⟩
    obtain rfl := (Prod.mk.inj (Exec.ok.inj same)).1
    exact ⟨str, rfl, holds⟩
  · rintro ⟨str', same, holds⟩
    obtain rfl := Exec.ok.inj same
    exact ⟨str, error, rfl, holds⟩

theorem insertCp_inserts_iff (tables : UcbUcTables) {allocator : Allocator}
    (generous : allocator.Generous) {str : UcbStr} {cps : List Scalar}
    (holds : Holds str (encode cps)) (index : Nat) {arg : List Scalar}
    (nonzero : ∀ cp ∈ arg, cp.val ≠ 0) :
    InsertsCpAt tables str cps index (encode arg)
        (ucbStrInsertCp tables allocator str index (scalarValues arg)) ↔
      InsertMeets tables str cps index (encode arg) := by
  unfold InsertsCpAt InsertMeets
  by_cases empty : arg = []
  · subst empty
    have unchanged : ucbStrInsertCp tables allocator str index (scalarValues []) =
        .ok (str, true, none) := rfl
    rw [unchanged, leavesTrue_ok_iff, encode_nil, insertedAt_nil, leaves_ok_iff holds]
    simp [RefusesPos]
  · have values : scalarValues arg ≠ [] := fun none => empty (List.map_eq_nil_iff.mp none)
    have nonempty : encode arg ≠ [] := by
      cases arg with
      | nil => exact absurd rfl empty
      | cons cp rest => exact List.ne_nil_of_length_pos (encode_cons_ne_nil cp rest)
    have nonzeroLength : (encode arg).length ≠ 0 := by simp [nonempty]
    have nonzeroValues : ∀ cp ∈ scalarValues arg, cp ≠ 0 := by
      intro cp member
      obtain ⟨scalar, inside, rfl⟩ := List.mem_map.mp member
      exact nonzero scalar inside
    by_cases inside : index ≤ (graphemeClusters tables cps).length
    · rw [if_pos inside, if_pos inside, insertCp_inside holds tables allocator nonzeroValues values
        inside (generous _ _), encodeOutcome_scalarValues]
      simp only [pushedBytes_scalarValues, List.nil_append]
      rw [leavesTrue_ok_iff, leaves_grownTo_iff generous holds nonzeroLength
        (insertedAt_length tables cps index (encode arg))]
      simp [nonempty]
    · rw [if_neg inside, if_neg inside, RefusesPos, insertCp_outside holds tables allocator
        nonzeroValues values (Nat.lt_of_not_le inside)]
      simp [nonempty]

/-! ## Every reachable string -/

/-- One call whose allocations all succeed. -/
def GenerousStep (tables : UcbUcTables) (before after : StrPhase) : Prop :=
  ∃ allocator call done, allocator.Generous ∧
    strCall tables allocator before call = .ok (after, done)

theorem roomGranted_generous {allocator : Allocator} (generous : allocator.Generous) (str : UcbStr)
    (n : Nat) : RoomGranted allocator str n :=
  fun _ _ => growGranted_generous generous str n

theorem allocMeets_generous {tables : UcbUcTables} {allocator : Allocator}
    (generous : allocator.Generous) (str : UcbStr) (op : StrOp) :
    AllocMeets tables allocator str op := by
  have room := roomGranted_generous generous str
  have argument (cstr : CstrArg) (len : Nat) : ArgGranted allocator str cstr len :=
    fun _ n _ _ => .inr (.inr (room n))
  cases op with
  | copy src =>
      cases src with
      | none => trivial
      | some valid => exact generous _ _
  | assign cstr len => exact fun _ _ _ _ => .inr (generous _ _)
  | fit => exact fun _ => generous _ _
  | reserve size => exact fun _ => room size.toNat
  | append astr => exact fun cstr _ => argument cstr _
  | appendCstr cstr len => exact argument cstr len
  | appendCp cps => exact room _
  | insert index istr => exact fun cstr _ => argument cstr _
  | insertCstr index cstr len => exact argument cstr len
  | insertCp index cps => exact fun _ _ _ _ _ => room _
  | adopt | adoptC | clear | adoptUcResult | clone | concat | substr => trivial

def PhaseText : StrPhase → Prop
  | .zeroed => True
  | .live str => HoldsText str

theorem generousStep_preserves {tables : UcbUcTables} {before after : StrPhase}
    (text : PhaseText before) (step : GenerousStep tables before after) : PhaseText after := by
  obtain ⟨allocator, call, done, generous, ran⟩ := step
  match before, call with
  | .zeroed, .init cstr len =>
      obtain ⟨⟨made, success⟩, inner, same⟩ := Exec.map_eq_ok ran
      obtain ⟨rfl, -⟩ := Prod.mk.inj same
      cases success with
      | true => exact (init_repInv inner).holds
      | false => trivial
  | .live str, .release =>
      obtain ⟨_, -, same⟩ := Exec.map_eq_ok ran
      obtain ⟨rfl, -⟩ := Prod.mk.inj same
      trivial
  | .live str, .abandon =>
      obtain ⟨rfl, -⟩ := Prod.mk.inj (Exec.ok.inj ran)
      trivial
  | .live str, .op op =>
      obtain ⟨⟨str', _⟩, inner, same⟩ := Exec.map_eq_ok ran
      obtain ⟨rfl, -⟩ := Prod.mk.inj same
      exact strOp_holdsText text (allocMeets_generous generous str op) inner

theorem generousRun_preserves {tables : UcbUcTables} {before after : StrPhase}
    (text : PhaseText before) (run : Relation.ReflTransGen (GenerousStep tables) before after) :
    PhaseText after := by
  induction run with
  | refl => exact text
  | tail _ step inductionHypothesis => exact generousStep_preserves inductionHypothesis step

/-- Exactly when appending to and inserting into a reachable string do what the
list operations do: the string has to grow for the text, or there is no text.
Where room was reserved before, the text is dropped. `ucb_str_append_cp` of no
codepoints never succeeds, and an insertion of nothing refuses no index. -/
theorem mutation_refines_iff (tables : UcbUcTables) {str : UcbStr}
    (run : Relation.ReflTransGen (GenerousStep tables) .zeroed (.live str))
    {allocator : Allocator} (generous : allocator.Generous) :
    ∃ cps, Holds str (encode cps) ∧
      (∀ astr text, RepInv (astr.get str) → Holds (astr.get str) text →
        (Leaves (ucbStrAppend allocator str astr) (encode cps ++ text) ↔
          text = [] ∨ Grows str text.length)) ∧
      (∀ cstr len text, IsText text → DenotesArg str cstr len text →
        (Leaves (ucbStrAppendCstr allocator str cstr len) (encode cps ++ text) ↔
          text = [] ∨ Grows str text.length)) ∧
      (∀ arg : List Scalar, (∀ cp ∈ arg, cp.val ≠ 0) →
        (LeavesTrue (ucbStrAppendCp tables allocator str (scalarValues arg))
            (encode cps ++ encode arg) ↔
          arg ≠ [] ∧ Grows str (4 * arg.length))) ∧
      (∀ index astr text, RepInv (astr.get str) → Holds (astr.get str) text →
        (InsertsAt tables cps index text (ucbStrInsert tables allocator str index astr) ↔
          InsertMeets tables str cps index text)) ∧
      (∀ index cstr len text, IsText text → DenotesArg str cstr len text →
        (InsertsAt tables cps index text (ucbStrInsertCstr tables allocator str index cstr len) ↔
          InsertMeets tables str cps index text)) ∧
      (∀ index (arg : List Scalar), (∀ cp ∈ arg, cp.val ≠ 0) →
        (InsertsCpAt tables str cps index (encode arg)
            (ucbStrInsertCp tables allocator str index (scalarValues arg)) ↔
          InsertMeets tables str cps index (encode arg))) := by
  obtain ⟨content, holds, isText⟩ : HoldsText str :=
    generousRun_preserves (show PhaseText .zeroed from trivial) run
  obtain ⟨cps, rfl⟩ := isText.valid
  refine ⟨cps, holds, ?_, ?_, ?_, ?_, ?_, ?_⟩
  · exact fun astr text valid argument => append_leaves_iff generous holds valid argument
  · exact fun cstr len text isText denotes => appendCstr_leaves_iff generous holds isText denotes
  · exact fun arg nonzero => appendCp_leaves_iff tables generous holds nonzero
  · exact fun index astr text valid argument =>
      insert_inserts_iff tables generous holds index valid argument
  · exact fun index cstr len text isText denotes =>
      insertCstr_inserts_iff tables generous holds index isText denotes
  · exact fun index arg nonzero => insertCp_inserts_iff tables generous holds index nonzero

theorem mutation_refines_iff_letter :
    Leaves (ucbStrAppendCstr zeroAllocator .interned (.mem [97, 0]) 0) [97] := by
  obtain ⟨cps, holds, -, appended, -⟩ := mutation_refines_iff flagTables
    (.single ⟨zeroAllocator, .init none 0, true, fun _ _ => rfl, rfl⟩)
    (show zeroAllocator.Generous from fun _ _ => rfl)
  have empty : encode cps = [] := holds.unique .interned
  have isText : IsText [97] := ⟨⟨[⟨97, by decide⟩], by decide⟩, by decide⟩
  have grown := (appended (.mem [97, 0]) 0 [97] isText
    (.pointed rfl (.measured [97] []))).mpr (.inr (.inl rfl))
  rwa [empty] at grown

/-- The letter `a` with room for eight bytes more. -/
def roomyLetter : UcbStr :=
  ⟨.heap (97 :: List.replicate 9 0), 1, 10⟩

theorem roomyLetter_drops :
    strCall flagTables zeroAllocator .zeroed (.init (some [97, 0]) 0) =
        .ok (.live ⟨.heap [97, 0], 1, 2⟩, true) ∧
      strCall flagTables zeroAllocator (.live ⟨.heap [97, 0], 1, 2⟩) (.op (.reserve 8)) =
        .ok (.live roomyLetter, true) ∧
      ucbStrAppendCstr zeroAllocator roomyLetter (.mem [98, 0]) 0 = .ok roomyLetter ∧
      ¬ Leaves (ucbStrAppendCstr zeroAllocator roomyLetter (.mem [98, 0]) 0) [97, 98] := by
  have dropped : ucbStrAppendCstr zeroAllocator roomyLetter (.mem [98, 0]) 0 = .ok roomyLetter :=
    by decide
  refine ⟨by decide, by decide, dropped, ?_⟩
  rw [dropped]
  rintro ⟨str, same, -, size⟩
  obtain rfl := Exec.ok.inj same
  cases size

end Ucb.Str
