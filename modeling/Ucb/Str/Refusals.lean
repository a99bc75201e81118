import Ucb.Str.Invariant
import Ucb.Lib.Refusal

/-!
Contract: a string when the allocator refuses a request.

Owns:
- what each operation does when the memory it needs is refused;
- exactly which sequences leave the string as it was at each refusal.

A copy or an assignment has released the old memory before it asks for the new.
-/

namespace Ucb.Str

open Ucb.Unicode
open Ucb.Lib

/-- What a string holds over its life: nothing before it is initialized, then a text. -/
def PhaseHolds : StrPhase → Option (List UInt8) → Prop
  | .zeroed, none => True
  | .live str, some text => Holds str text ∧ IsText text
  | _, _ => False

def strings (tables : UcbUcTables) :
    Component Allocator StrPhase StrCall Bool (Option (List UInt8)) where
  step allocator phase call := (strCall tables allocator phase call).returned
  granting := Allocator.granting
  holds := PhaseHolds

/-- `ucb_str_insert_cp` is not refused its buffer when it has a chunk to write into it. -/
def ScratchGranted (tables : UcbUcTables) (allocator : Allocator) (str : UcbStr) : StrOp → Prop
  | .insertCp index cps => ∀ pos front rest, ucbStrMapCharPos tables str index = .ok (.ok pos) →
      cps = scalarValues front ++ rest →
        (front ≠ [] ∧ rest = []) ∨ 4 * tables.maxMultiLen ≤ (encode front).length →
          allocator.grants .calloc (4 * cps.length) = true
  | _ => True

/-- No memory is refused that a string has to have, or that an operation cannot do without. -/
def TextGranted (tables : UcbUcTables) (phase : StrPhase) (call : Allocator × StrCall) : Prop :=
  match phase, call.2 with
  | .live str, .op op =>
      AllocMeets tables call.1 str op ∧ ScratchGranted tables call.1 str op
  | _, _ => True

/-- The call returns when nothing is refused. -/
def ProperStrCall (tables : UcbUcTables) (phase : StrPhase) (call : Allocator × StrCall) : Prop :=
  ((strings tables).run phase (call.1.granting, call.2)).isSome

/-- There is no memory behind the data pointer. -/
def Lost (str : UcbStr) : Prop :=
  str.data = .null ∨ str.data = .dangling

/-- The outcome is that of an allocator that refuses nothing, or the string is left alone. -/
def Undisturbed (str : UcbStr) (outcome granted : Exec (UcbStr × Bool)) : Prop :=
  outcome = granted ∨ ∃ done, outcome = .ok (str, done)

/-- The outcome is a string without memory, or none. -/
def Damaged (outcome : Exec (UcbStr × Bool)) : Prop :=
  (∃ str done, outcome = .ok (str, done) ∧ Lost str) ∨ outcome = .abort .buffer

/-! ## Requests -/

section Requests

variable {allocator : Allocator} {str : UcbStr} {content : List UInt8} {size : Nat}

theorem malloc_granting (granted : allocator.grants .malloc size = true) :
    ucbMalloc allocator size = ucbMalloc allocator.granting size := by
  have answer : allocator.granting.grants .malloc size = true := rfl
  rw [ucbMalloc, ucbMalloc, granted, answer]
  rfl

theorem block_granting (block : List UInt8) (granted : allocator.grants .realloc size = true) :
    ucbRealloc allocator block size = ucbRealloc allocator.granting block size := by
  have answer : allocator.granting.grants .realloc size = true := rfl
  rw [ucbRealloc, ucbRealloc, granted, answer]
  rfl

/-- `ucb_str_reserve` with the request it makes granted, or with none. -/
theorem reserve_granting (granted : Grows str size → GrowGranted allocator str size) :
    reserveRoom allocator str size = reserveRoom allocator.granting str size := by
  unfold reserveRoom reserveNewSize
  by_cases owned : str.alloc ≠ 0
  · rw [if_pos owned, if_pos owned]
    by_cases nothing : size = 0
    · rw [if_pos nothing, if_pos nothing]
    by_cases room : str.alloc < size + str.size + 1
    · have answer := granted (.inr ⟨nothing, room⟩)
      rw [GrowGranted, if_neg owned] at answer
      simp only [block_granting _ answer]
    · simp only [if_neg room]
  · have empty : str.alloc = 0 := not_not.mp owned
    have answer := granted (.inl empty)
    rw [GrowGranted, if_pos empty] at answer
    rw [if_neg owned, if_neg owned, Nat.add_comm size str.size, malloc_granting answer]

/-- A refused `ucb_str_reserve` of a string without own memory leaves it alone. -/
theorem reserve_undisturbed (holds : Holds str content)
    (granted : RoomGranted allocator str size) :
    reserveRoom allocator str size = reserveRoom allocator.granting str size ∨
      reserveRoom allocator str size = .ok (str, false) := by
  rcases reserve_cases holds allocator size with ⟨-, sufficient, -⟩ | ⟨room, -⟩ |
    ⟨-, -, -, reserved⟩ | ⟨grows, refused, owned, -⟩
  · exact .inl (reserve_granting fun _ => sufficient)
  · exact .inl (reserve_granting fun grows => absurd grows room)
  · exact .inr reserved
  · exact absurd (granted grows owned) refused

/-- A refused `ucb_str_reserve` of a string with own memory. -/
theorem reserve_lost (holds : Holds str content) (refused : ¬ RoomGranted allocator str size) :
    reserveRoom allocator str size = .ok ({ str with data := .dangling }, false) := by
  rw [RoomGranted, Classical.not_imp, Classical.not_imp] at refused
  obtain ⟨grows, owned, refused⟩ := refused
  rcases reserve_cases holds allocator size with ⟨-, granted, -⟩ | ⟨room, -⟩ |
    ⟨-, -, empty, -⟩ | ⟨-, -, -, reserved⟩
  · exact absurd granted refused
  · exact absurd grows room
  · exact absurd empty owned
  · exact reserved

theorem fit_undisturbed
    (granted : str.alloc > str.size + 1 → allocator.grants .realloc (str.size + 1) = true) :
    ucbStrFit allocator str = ucbStrFit allocator.granting str := by
  unfold ucbStrFit
  by_cases slack : str.alloc ≠ 0 ∧ str.alloc > str.size + 1
  · simp only [block_granting _ (granted slack.2)]
  · rw [if_neg slack, if_neg slack]

theorem fit_lost (holds : Holds str content)
    (refused : ¬ (str.alloc > str.size + 1 → allocator.grants .realloc (str.size + 1) = true)) :
    ucbStrFit allocator str = .ok ({ str with data := .dangling }, false) := by
  obtain ⟨slack, refused⟩ := Classical.not_imp.mp refused
  cases holds with
  | interned => exact absurd slack (by decide)
  | owned content spare alloc above inside =>
      have nonzero : (ownedStr content spare alloc).alloc ≠ 0 := Nat.ne_of_gt (by omega)
      rw [ucbStrFit, if_pos ⟨nonzero, slack⟩]
      simp only [ownedStr, StrData.owned, Exec.ok_bind] at refused ⊢
      rw [realloc_refused _ refused]
      rfl

end Requests

/-! ## Growing for a text -/

section Growing

variable {allocator : Allocator} {str new : UcbStr} {content text : List UInt8} {cstr : CstrArg}
  {len n : Nat}

theorem grownTo_granting (granted : RoomGranted allocator str n) (new : UcbStr) :
    grownTo allocator str n new = grownTo allocator.granting str n new ∨
      grownTo allocator str n new = str := by
  rcases grownTo_of_roomGranted granted new with same | same
  · exact .inr same
  · by_cases grows : Grows str n
    · have sufficient : GrowGranted allocator.granting str n := by
        rw [GrowGranted]
        split <;> rfl
      refine .inl (same.trans ?_)
      rw [grownTo, if_pos grows, if_pos sufficient]
    · exact .inr (if_neg grows)

theorem grownTo_lost (refused : ¬ RoomGranted allocator str n) (new : UcbStr) :
    grownTo allocator str n new = { str with data := .dangling } := by
  rw [RoomGranted, Classical.not_imp, Classical.not_imp] at refused
  obtain ⟨grows, owned, refused⟩ := refused
  rw [grownTo, if_pos grows, if_neg refused, if_neg owned]

/-- Without refusals every copy of an argument can be made. -/
theorem not_copyRefused_granting : ¬ CopyRefused allocator.granting str cstr n :=
  fun refused => refused.2 rfl

theorem argGranted_iff (verified : Verified str cstr len text) :
    ArgGranted allocator str cstr len ↔
      CopyRefused allocator str cstr text.length ∨ RoomGranted allocator str text.length := by
  have nonzero : text.length ≠ 0 := by simp [verified.nonempty]
  obtain ⟨rest, load, measured, -⟩ := verified.read
  constructor
  · intro granted
    exact (granted _ _ load measured).resolve_left nonzero
  · intro granted mem n load' measured'
    obtain rfl := Exec.ok.inj (load.symm.trans load')
    obtain rfl := Exec.ok.inj (measured.symm.trans measured')
    exact .inr granted

/-- A function that grows the string for its argument, and whose room is not refused. -/
theorem grown_undisturbed (use : Allocator → Exec UcbStr)
    (uses : ∀ allocator, (CopyRefused allocator str cstr n ∧ use allocator = .ok str) ∨
      (¬ CopyRefused allocator str cstr n ∧ use allocator = .ok (grownTo allocator str n new)))
    (granted : CopyRefused allocator str cstr n ∨ RoomGranted allocator str n) :
    use allocator = use allocator.granting ∨ use allocator = .ok str := by
  rcases uses allocator with ⟨-, same⟩ | ⟨copied, grown⟩
  · exact .inr same
  · rcases uses allocator.granting with ⟨refused, -⟩ | ⟨-, grown'⟩
    · exact absurd refused not_copyRefused_granting
    · rw [grown, grown']
      rcases grownTo_granting (granted.resolve_left copied) new with same | same
      · exact .inl (congrArg Exec.ok same)
      · exact .inr (congrArg Exec.ok same)

theorem grown_lost (use : Allocator → Exec UcbStr)
    (uses : ∀ allocator, (CopyRefused allocator str cstr n ∧ use allocator = .ok str) ∨
      (¬ CopyRefused allocator str cstr n ∧ use allocator = .ok (grownTo allocator str n new)))
    (refused : ¬ (CopyRefused allocator str cstr n ∨ RoomGranted allocator str n)) :
    use allocator = .ok { str with data := .dangling } := by
  obtain ⟨copied, refused⟩ := not_or.mp refused
  rcases uses allocator with ⟨copyRefused, -⟩ | ⟨-, grown⟩
  · exact absurd copyRefused copied
  · rw [grown, grownTo_lost refused]

/-- An append that returns has nothing to append, or has verified its text. -/
theorem appendCstr_argument {other : Allocator} {after : UcbStr}
    (ran : ucbStrAppendCstr other str cstr len = .ok after) :
    (∀ allocator, ucbStrAppendCstr allocator str cstr len = .ok str ∧
      ArgGranted allocator str cstr len) ∨ ∃ text, Verified str cstr len text := by
  unfold ucbStrAppendCstr at ran
  obtain ⟨_, allowed, ran⟩ := Exec.bind_eq_ok.mp ran
  split at ran
  · rename_i null
    refine .inl fun allocator => ⟨?_, fun mem n load => ?_⟩
    · rw [ucbStrAppendCstr, allowed, Exec.ok_bind, if_pos null]
      rfl
    · rw [null] at load
      cases load
  · rename_i notNull
    obtain ⟨mem, load, ran⟩ := Exec.bind_eq_ok.mp ran
    obtain ⟨n, measured, ran⟩ := Exec.bind_eq_ok.mp ran
    split at ran
    · rename_i nothing
      refine .inl fun allocator => ⟨?_, fun mem' n' load' measured' => ?_⟩
      · rw [ucbStrAppendCstr, allowed, Exec.ok_bind, if_neg notNull, load, Exec.ok_bind, measured,
          Exec.ok_bind, if_pos nothing]
        rfl
      · obtain rfl := Exec.ok.inj (load.symm.trans load')
        obtain rfl := Exec.ok.inj (measured.symm.trans measured')
        exact .inl nothing
    · rename_i something
      obtain ⟨_, accepted, -⟩ := Exec.bind_eq_ok.mp ran
      obtain ⟨text, verified, -⟩ := verified_of_steps load measured something accepted
      exact .inr ⟨text, verified⟩

theorem appendCstr_undisturbed {after : UcbStr} (holds : Holds str content)
    (granted : ArgGranted allocator str cstr len)
    (ran : ucbStrAppendCstr allocator.granting str cstr len = .ok after) :
    ucbStrAppendCstr allocator str cstr len = ucbStrAppendCstr allocator.granting str cstr len ∨
      ucbStrAppendCstr allocator str cstr len = .ok str := by
  rcases appendCstr_argument ran with nothing | ⟨text, verified⟩
  · exact .inr (nothing allocator).1
  · exact grown_undisturbed (fun allocator => ucbStrAppendCstr allocator str cstr len)
      (fun allocator => appendCstr_verified holds allocator verified)
      ((argGranted_iff verified).mp granted)

theorem appendCstr_lost {after : UcbStr} (holds : Holds str content)
    (refused : ¬ ArgGranted allocator str cstr len)
    (ran : ucbStrAppendCstr allocator.granting str cstr len = .ok after) :
    ucbStrAppendCstr allocator str cstr len = .ok { str with data := .dangling } := by
  rcases appendCstr_argument ran with nothing | ⟨text, verified⟩
  · exact absurd (nothing allocator).2 refused
  · exact grown_lost (fun allocator => ucbStrAppendCstr allocator str cstr len)
      (fun allocator => appendCstr_verified holds allocator verified)
      (mt (argGranted_iff verified).mpr refused)

/-- An insertion that returns has nothing to insert, or has verified its text and its index. -/
theorem insertCstr_argument {tables : UcbUcTables} {index : Nat} {cps : List Scalar}
    {other : Allocator} {after : UcbStr} (holds : Holds str (encode cps))
    (ran : ucbStrInsertCstr tables other str index cstr len = .ok after) :
    (∀ allocator, ucbStrInsertCstr tables allocator str index cstr len = .ok str ∧
      ArgGranted allocator str cstr len) ∨
      ∃ text, Verified str cstr len text ∧ index ≤ (graphemeClusters tables cps).length := by
  have whole := ran
  unfold ucbStrInsertCstr at ran
  obtain ⟨_, allowed, ran⟩ := Exec.bind_eq_ok.mp ran
  split at ran
  · rename_i null
    refine .inl fun allocator => ⟨?_, fun mem n load => ?_⟩
    · rw [ucbStrInsertCstr, allowed, Exec.ok_bind, if_pos null]
      rfl
    · rw [null] at load
      cases load
  · rename_i notNull
    obtain ⟨mem, load, ran⟩ := Exec.bind_eq_ok.mp ran
    obtain ⟨n, measured, ran⟩ := Exec.bind_eq_ok.mp ran
    split at ran
    · rename_i nothing
      refine .inl fun allocator => ⟨?_, fun mem' n' load' measured' => ?_⟩
      · rw [ucbStrInsertCstr, allowed, Exec.ok_bind, if_neg notNull, load, Exec.ok_bind, measured,
          Exec.ok_bind, if_pos nothing]
        rfl
      · obtain rfl := Exec.ok.inj (load.symm.trans load')
        obtain rfl := Exec.ok.inj (measured.symm.trans measured')
        exact .inl nothing
    · rename_i something
      obtain ⟨_, accepted, -⟩ := Exec.bind_eq_ok.mp ran
      obtain ⟨text, verified, -⟩ := verified_of_steps load measured something accepted
      rcases insertCstr_verified holds tables other index verified with
        ⟨-, aborted⟩ | ⟨inside, -⟩ | ⟨inside, -⟩
      · rw [aborted] at whole
        cases whole
      · exact .inr ⟨text, verified, inside⟩
      · exact .inr ⟨text, verified, inside⟩

theorem insertCstr_inside {tables : UcbUcTables} {index : Nat} {cps : List Scalar}
    (holds : Holds str (encode cps)) (verified : Verified str cstr len text)
    (inside : index ≤ (graphemeClusters tables cps).length) (allocator : Allocator) :
    (CopyRefused allocator str cstr text.length ∧
      ucbStrInsertCstr tables allocator str index cstr len = .ok str) ∨
    (¬ CopyRefused allocator str cstr text.length ∧
      ucbStrInsertCstr tables allocator str index cstr len =
        .ok (grownTo allocator str text.length (ownedStr (insertedAt tables cps index text) [0]
          ((encode cps).length + text.length + 1)))) := by
  rcases insertCstr_verified holds tables allocator index verified with
    ⟨outside, -⟩ | ⟨-, refused, same⟩ | ⟨-, copied, grown⟩
  · exact absurd inside (Nat.not_le.mpr outside)
  · exact .inl ⟨refused, same⟩
  · exact .inr ⟨copied, grown⟩

theorem insertCstr_undisturbed {tables : UcbUcTables} {index : Nat} {cps : List Scalar}
    {after : UcbStr} (holds : Holds str (encode cps)) (granted : ArgGranted allocator str cstr len)
    (ran : ucbStrInsertCstr tables allocator.granting str index cstr len = .ok after) :
    ucbStrInsertCstr tables allocator str index cstr len =
        ucbStrInsertCstr tables allocator.granting str index cstr len ∨
      ucbStrInsertCstr tables allocator str index cstr len = .ok str := by
  rcases insertCstr_argument holds ran with nothing | ⟨text, verified, inside⟩
  · exact .inr (nothing allocator).1
  · exact grown_undisturbed
      (fun allocator => ucbStrInsertCstr tables allocator str index cstr len)
      (insertCstr_inside holds verified inside) ((argGranted_iff verified).mp granted)

theorem insertCstr_lost {tables : UcbUcTables} {index : Nat} {cps : List Scalar}
    {after : UcbStr} (holds : Holds str (encode cps))
    (refused : ¬ ArgGranted allocator str cstr len)
    (ran : ucbStrInsertCstr tables allocator.granting str index cstr len = .ok after) :
    ucbStrInsertCstr tables allocator str index cstr len =
      .ok { str with data := .dangling } := by
  rcases insertCstr_argument holds ran with nothing | ⟨text, verified, inside⟩
  · exact absurd (nothing allocator).2 refused
  · exact grown_lost
      (fun allocator => ucbStrInsertCstr tables allocator str index cstr len)
      (insertCstr_inside holds verified inside) (mt (argGranted_iff verified).mpr refused)

end Growing

/-! ## Memory for a new text -/

section Fresh

variable {allocator other : Allocator} {str : UcbStr} {content mem : List UInt8} {cstr : CstrArg}
  {len n : Nat} {made : UcbStr × Bool}

/-- `ucb_str_init_common` with its request granted, or with none. -/
theorem initCommon_granting {pointed : Option (List UInt8)}
    (granted : ∀ mem n, pointed = some mem → cstrLen mem len = .ok n →
      allocator.grants .malloc (n + 1) = true) :
    ucbStrInitCommon allocator str pointed len =
      ucbStrInitCommon allocator.granting str pointed len := by
  cases pointed with
  | none => rfl
  | some mem =>
      refine Exec.bind_congr_ok fun n measured => Exec.bind_congr_ok fun _ _ => ?_
      rw [malloc_granting (granted mem n rfl measured)]

/-- `ucb_str_init_common` has verified the text when the memory for it is refused. -/
theorem initCommon_refused (ran : ucbStrInitCommon other str (some mem) len = .ok made)
    (measured : cstrLen mem len = .ok n) (refused : ¬ allocator.grants .malloc (n + 1) = true) :
    ucbStrInitCommon allocator str (some mem) len = .ok ({ str with data := .null }, false) := by
  obtain ⟨n', measured', ran⟩ := Exec.bind_eq_ok.mp ran
  obtain rfl := Exec.ok.inj (measured.symm.trans measured')
  obtain ⟨_, accepted, -⟩ := Exec.bind_eq_ok.mp ran
  rw [ucbStrInitCommon, measured, Exec.ok_bind, accepted, Exec.ok_bind, malloc_refused refused]
  rfl

theorem validArgument (str : UcbStr) (valid : ValidStr) :
    ∃ mem, StrArg.data str (.other valid.val) = .ok (.mem mem) ∧
      cstrLen mem valid.val.size = .ok valid.val.size := by
  obtain ⟨content, holds, -⟩ := valid.property.holds
  obtain ⟨spare, load⟩ := holds.load_terminated valid.property.terminated
  refine ⟨_, holds.argument str load, ?_⟩
  rw [cstrLen, holds.size_eq]
  split
  · rename_i empty
    rw [List.eq_nil_of_length_eq_zero empty]
    rfl
  · rfl

/-- A copy of a valid string, once the old memory has been released. -/
theorem copy_eq (str : UcbStr) (valid : ValidStr) :
    ∃ mem, cstrLen mem valid.val.size = .ok valid.val.size ∧ ∀ allocator,
      ucbStrCopy allocator str (.other valid.val) = ucbStrReleaseCommon str >>= fun _ =>
        ucbStrInitCommon allocator str (some mem) valid.val.size := by
  obtain ⟨mem, data, measured⟩ := validArgument str valid
  refine ⟨mem, measured, fun allocator => Exec.bind_congr_ok fun _ _ => ?_⟩
  rw [data]
  rfl

theorem copy_granting {valid : ValidStr}
    (granted : allocator.grants .malloc (valid.val.size + 1) = true) :
    ucbStrCopy allocator str (.other valid.val) =
      ucbStrCopy allocator.granting str (.other valid.val) := by
  obtain ⟨mem, measured, copied⟩ := copy_eq str valid
  rw [copied, copied]
  refine Exec.bind_congr_ok fun _ _ => initCommon_granting fun mem' n pointed measured' => ?_
  obtain rfl := Option.some.inj pointed
  obtain rfl := Exec.ok.inj (measured.symm.trans measured')
  exact granted

theorem copy_lost {valid : ValidStr}
    (refused : ¬ allocator.grants .malloc (valid.val.size + 1) = true)
    (ran : ucbStrCopy allocator.granting str (.other valid.val) = .ok made) :
    ucbStrCopy allocator str (.other valid.val) = .ok ({ str with data := .null }, false) := by
  obtain ⟨mem, measured, copied⟩ := copy_eq str valid
  rw [copied] at ran ⊢
  obtain ⟨_, released, ran⟩ := Exec.bind_eq_ok.mp ran
  rw [released, Exec.ok_bind]
  exact initCommon_refused ran measured refused

/-- The pointer that `ucb_str_init_common` gets is the one that was given. -/
theorem pointer_load (pointer : cstr.pointer str = .ok (some mem)) : cstr.load str = .ok mem := by
  cases cstr with
  | null => cases Exec.ok.inj pointer
  | mem bytes => exact congrArg Exec.ok (Option.some.inj (Exec.ok.inj pointer))
  | own offset =>
      obtain ⟨loaded, load, same⟩ := Exec.bind_eq_ok.mp pointer
      rw [load, Option.some.inj (Exec.ok.inj same)]

theorem load_pointer (load : cstr.load str = .ok mem) : cstr.pointer str = .ok (some mem) := by
  cases cstr with
  | null => cases load
  | mem bytes => exact congrArg (fun bytes => Exec.ok (some bytes)) (Exec.ok.inj load)
  | own offset =>
      rw [CstrArg.pointer, load]
      · rfl
      · exact fun null => by cases null

theorem assign_undisturbed (granted : AssignGranted allocator str cstr len) :
    Undisturbed str (ucbStrAssign allocator str cstr len)
      (ucbStrAssign allocator.granting str cstr len) := by
  unfold ucbStrAssign
  by_cases aliases : ucbStrAliases str cstr = true
  · rw [if_pos aliases, if_pos aliases]
    cases load : cstr.load str with
    | abort code => exact .inl rfl
    | undefined => exact .inl rfl
    | ok mem =>
      simp only [Exec.ok_bind]
      cases measured : cstrLen mem len with
      | abort code => exact .inl rfl
      | undefined => exact .inl rfl
      | ok n =>
        simp only [Exec.ok_bind]
        by_cases nothing : n = 0
        · rw [if_pos nothing, if_pos nothing]
          exact .inl rfl
        · rw [if_neg nothing, if_neg nothing]
          by_cases copied : allocator.grants .malloc n = true
          · have room := (granted mem n load measured).resolve_left fun none =>
              none.2.elim nothing (absurd copied)
            rw [← malloc_granting copied, malloc_granted copied (Nat.pos_of_ne_zero nothing)]
            refine .inl (Exec.bind_congr_ok fun bytes _ => Exec.bind_congr_ok fun tmp _ =>
              Exec.bind_congr_ok fun _ _ => initCommon_granting fun mem' n' _ measured' => ?_)
            rw [cstrLen, if_neg nothing] at measured'
            obtain rfl := Exec.ok.inj measured'
            exact room
          · rw [malloc_refused copied]
            exact .inr ⟨false, rfl⟩
  · rw [if_neg aliases, if_neg aliases]
    refine .inl (Exec.bind_congr_ok fun _ _ => Exec.bind_congr_ok fun pointed pointer =>
      initCommon_granting fun mem n here measured => ?_)
    rw [here] at pointer
    exact (granted mem n (pointer_load pointer) measured).resolve_left fun none =>
      aliases none.1

theorem assign_lost (refused : ¬ AssignGranted allocator str cstr len)
    (ran : ucbStrAssign allocator.granting str cstr len = .ok made) :
    ucbStrAssign allocator str cstr len = .ok ({ str with data := .null }, false) := by
  obtain ⟨mem, n, load, measured, refused⟩ : ∃ mem n, cstr.load str = .ok mem ∧
      cstrLen mem len = .ok n ∧
        ¬ ((ucbStrAliases str cstr = true ∧ (n = 0 ∨ ¬ allocator.grants .malloc n = true)) ∨
          allocator.grants .malloc (n + 1) = true) := by
    by_contra none
    exact refused fun mem n load measured =>
      not_not.mp fun refused => none ⟨mem, n, load, measured, refused⟩
  obtain ⟨copied, refused⟩ := not_or.mp refused
  unfold ucbStrAssign at ran ⊢
  by_cases aliases : ucbStrAliases str cstr = true
  · obtain ⟨nothing, copied⟩ := not_or.mp fun none => copied ⟨aliases, none⟩
    have copied := not_not.mp copied
    rw [if_pos aliases, load, Exec.ok_bind, measured, Exec.ok_bind, if_neg nothing] at ran ⊢
    rw [← malloc_granting copied] at ran
    rw [malloc_granted copied (Nat.pos_of_ne_zero nothing)] at ran ⊢
    obtain ⟨bytes, read, ran⟩ := Exec.bind_eq_ok.mp ran
    obtain ⟨tmp, written, ran⟩ := Exec.bind_eq_ok.mp ran
    obtain ⟨_, released, ran⟩ := Exec.bind_eq_ok.mp ran
    simp only [read, written, released, Exec.ok_bind]
    exact initCommon_refused ran (if_neg nothing) refused
  · rw [if_neg aliases] at ran ⊢
    obtain ⟨_, released, ran⟩ := Exec.bind_eq_ok.mp ran
    rw [load_pointer load, Exec.ok_bind] at ran ⊢
    rw [released, Exec.ok_bind]
    exact initCommon_refused ran measured refused

/-- The outcome is that of an allocator that refuses nothing, or no string was made. -/
def MadeOrRefused (outcome granted : Exec (UcbStr × Bool)) : Prop :=
  outcome = granted ∨ ∃ made, outcome = .ok (made, false)

theorem init_refusal (allocator : Allocator) (pointed : Option (List UInt8)) (len : Nat) :
    MadeOrRefused (ucbStrInit allocator pointed len)
      (ucbStrInit allocator.granting pointed len) := by
  cases pointed with
  | none => exact .inl rfl
  | some mem =>
    simp only [ucbStrInit, ucbStrInitCommon]
    cases measured : cstrLen mem len with
    | abort code => exact .inl rfl
    | undefined => exact .inl rfl
    | ok n =>
      simp only [Exec.ok_bind]
      cases accepted : ucbStrVerifyCstr mem n with
      | abort code => exact .inl rfl
      | undefined => exact .inl rfl
      | ok _ =>
        simp only [Exec.ok_bind]
        by_cases granted : allocator.grants .malloc (n + 1) = true
        · rw [malloc_granting granted]
          exact .inl rfl
        · rw [malloc_refused granted]
          exact .inr ⟨_, rfl⟩

theorem clone_refusal (allocator : Allocator) (str : UcbStr) :
    MadeOrRefused (ucbStrClone allocator str) (ucbStrClone allocator.granting str) := by
  unfold ucbStrClone
  cases StrArg.data str (.other str) with
  | abort code => exact .inl rfl
  | undefined => exact .inl rfl
  | ok data =>
    simp only [Exec.ok_bind]
    cases data.pointer str with
    | abort code => exact .inl rfl
    | undefined => exact .inl rfl
    | ok pointed => exact init_refusal allocator pointed str.size

theorem substr_refusal (allocator : Allocator) (str : UcbStr) (start : Nat) (stop : Option Nat) :
    MadeOrRefused (ucbStrSubstr allocator str start stop)
      (ucbStrSubstr allocator.granting str start stop) := by
  unfold ucbStrSubstr
  cases ucbVerify _ _ with
  | abort code => exact .inl rfl
  | undefined => exact .inl rfl
  | ok _ =>
    simp only [Exec.ok_bind]
    by_cases beyond : start > stop.getD str.size
    · rw [if_pos beyond, if_pos beyond]
      exact init_refusal allocator none 0
    · rw [if_neg beyond, if_neg beyond]
      cases str.data.load with
      | abort code => exact .inl rfl
      | undefined => exact .inl rfl
      | ok mem => exact init_refusal allocator (some (mem.drop start)) _

theorem concat_refusal (allocator : Allocator) (str : UcbStr) (others : List UcbStr) :
    ucbStrConcat allocator str others = ucbStrConcat allocator.granting str others ∨
      ucbStrConcat allocator str others = .ok none := by
  simp only [ucbStrConcat]
  by_cases empty : (others.map UcbStr.size).foldl (· + ·) str.size = 0
  · rw [if_pos empty, if_pos empty]
    exact .inl rfl
  · rw [if_neg empty, if_neg empty]
    by_cases granted : allocator.grants .malloc
        ((others.map UcbStr.size).foldl (· + ·) str.size + 1) = true
    · rw [malloc_granting granted]
      exact .inl rfl
    · rw [malloc_refused granted]
      exact .inr rfl

/-- A string goes on with the string that was made, or with itself. -/
theorem MadeOrRefused.follow {outcome granted : Exec (UcbStr × Bool)}
    (refusal : MadeOrRefused outcome granted) (str : UcbStr) :
    Undisturbed str (Str.follow str <$> outcome) (Str.follow str <$> granted) := by
  rcases refusal with rfl | ⟨made, rfl⟩
  · exact .inl rfl
  · exact .inr ⟨false, rfl⟩

end Fresh

/-! ## Codepoint lists -/

section Codepoints

variable {tables : UcbUcTables} {allocator : Allocator} {str : UcbStr} {text : List Scalar}
  {index : Nat} {cps : List Nat}

/-- The buffer of `ucb_str_append_cp` lies in the string and asks for nothing. -/
theorem appendCp_granting
    (same : reserveRoom allocator str (4 * cps.length) =
      reserveRoom allocator.granting str (4 * cps.length)) :
    ucbStrAppendCp tables allocator str cps = ucbStrAppendCp tables allocator.granting str cps := by
  unfold ucbStrAppendCp
  refine Exec.bind_congr_ok fun _ _ => ?_
  dsimp only
  rw [same]
  refine Exec.bind_congr_ok fun grown _ => ?_
  split
  · refine Exec.bind_congr_ok fun block _ => Exec.bind_congr_ok fun spare read => ?_
    refine Exec.bind_congr_ok fun buffer made => ?_
    obtain ⟨_, -, made⟩ := Exec.bind_eq_ok.mp made
    obtain rfl := Exec.ok.inj made
    have multiLen := tables.multiLen
    have length : spare.length = 4 * cps.length := by
      unfold slice at read
      split at read
      · obtain rfl := Exec.ok.inj read
        rw [List.length_take, List.length_drop]
        omega
      · cases read
    have encoded (allocator : Allocator) := encodeLoop_fits multiLen allocator .fixed cps [] spare
      [] (by simp; omega) (by simp [length])
    simp only [List.nil_append, List.length_nil] at encoded
    simp only [ucbUcEncodeCodepoints, encoded]
  · rfl

theorem appendCp_lost {content : List UInt8} (holds : Holds str content)
    (refused : ¬ RoomGranted allocator str (4 * cps.length))
    {made : UcbStr × Bool × Option UcbError}
    (ran : ucbStrAppendCp tables allocator.granting str cps = .ok made) :
    ucbStrAppendCp tables allocator str cps =
      .ok ({ str with data := .dangling }, false, none) := by
  obtain ⟨_, verified, -⟩ := Exec.bind_eq_ok.mp ran
  exact appendCp_not_grown tables allocator (nonzero_of_verify verified)
    (reserve_lost holds refused)

/-- A chunk is pushed when everything can be encoded, or enough for a whole chunk. -/
theorem pushes_iff :
    pushedBytes tables.maxMultiLen [] cps ≠ [] ↔
      ∃ front rest, cps = scalarValues front ++ rest ∧
        ((front ≠ [] ∧ rest = []) ∨ 4 * tables.maxMultiLen ≤ (encode front).length) := by
  have room : ([] : List UInt8).length < 4 * tables.maxMultiLen := by
    have multiLen := tables.multiLen
    rw [List.length_nil]
    omega
  constructor
  · intro pushes
    rcases encodable_or_invalid cps with ⟨front, rfl⟩ | ⟨front, bad, rest, rfl, invalid⟩
    · refine ⟨front, [], (List.append_nil _).symm, .inl ⟨?_, rfl⟩⟩
      rintro rfl
      exact pushes rfl
    · refine ⟨front, bad :: rest, rfl, .inr ?_⟩
      have short := (pushedBytes_invalid tables.maxMultiLen front invalid rest [] room).2
      rw [List.length_nil, Nat.zero_add] at short
      exact Nat.not_lt.mp (mt short.mpr pushes)
  · rintro ⟨front, rest, rfl, enough⟩
    have nonempty : encode front ≠ [] := by
      rcases enough with ⟨some, -⟩ | long
      · cases front with
        | nil => exact absurd rfl some
        | cons cp front => exact List.ne_nil_of_length_pos (encode_cons_ne_nil cp front)
      · exact List.ne_nil_of_length_pos (by omega)
    rcases encodable_or_invalid rest with ⟨more, rfl⟩ | ⟨more, bad, rest, rfl, invalid⟩
    · rw [← scalarValues_append, pushedBytes_scalarValues, List.nil_append, encode_append]
      exact fun empty => nonempty (List.append_eq_nil_iff.mp empty).1
    · rw [← List.append_assoc, ← scalarValues_append, Ne,
        (pushedBytes_invalid tables.maxMultiLen (front ++ more) invalid rest [] room).2,
        encode_append, List.length_append, List.length_nil]
      rcases enough with ⟨-, none⟩ | long
      · exact absurd (List.append_eq_nil_iff.mp none).2 (List.cons_ne_nil _ _)
      · omega

/-- A buffer without memory takes no byte. -/
theorem encodeLoop_unbacked {maxMultiLen : Nat} (multiLen : 3 ≤ maxMultiLen)
    (allocator : Allocator) (cps : List Nat) :
    ∀ bytes : List UInt8, bytes.length < 4 * maxMultiLen →
      encodeLoop maxMultiLen allocator ⟨[], 0, .fixed⟩ bytes cps =
        if pushedBytes maxMultiLen bytes cps = [] then
          .ok (⟨[], 0, .fixed⟩, encodeOutcome cps) else .abort .buffer := by
  have refuses {bytes : List UInt8} (nonempty : bytes ≠ []) :
      ucbBufferPush allocator ⟨[], 0, .fixed⟩ bytes = .abort .buffer := by
    have positive := List.length_pos_iff.mpr nonempty
    simp [ucbBufferPush, ucbBufferGrow, positive]
  induction cps with
  | nil =>
      intro bytes _
      by_cases empty : bytes = []
      · subst empty
        rfl
      · rw [encodeLoop, if_neg (mt List.length_eq_zero_iff.mp empty), refuses empty, pushedBytes,
          if_neg empty]
        rfl
  | cons cp rest inductionHypothesis =>
      intro bytes short
      cases written : ucbUcEncodeCodepoint cp with
      | none =>
          have invalid := (encodeCodepoint_eq_none_iff cp).mp written
          simp [encodeLoop, pushedBytes, written, encodeOutcome, firstInvalid, invalid]
      | some word =>
          obtain ⟨width, scalar⟩ := encodeCodepoint_length_le written
          have outcome : encodeOutcome (cp :: rest) = encodeOutcome rest := by
            simp [encodeOutcome, firstInvalid, scalar]
          have inChunk : ¬ bytes.length + word.length > 5 * maxMultiLen := by omega
          simp only [encodeLoop, pushedBytes, written, if_neg inChunk, outcome]
          by_cases full : bytes.length + word.length ≥ 4 * maxMultiLen
          · have nonempty : bytes ++ word ≠ [] := by
              apply List.ne_nil_of_length_pos
              rw [List.length_append]
              omega
            rw [if_pos full, if_pos full, refuses nonempty,
              if_neg fun empty => nonempty (List.append_eq_nil_iff.mp empty).1]
            rfl
          · rw [if_neg full, if_neg full]
            exact inductionHypothesis (bytes ++ word) (by rw [List.length_append]; omega)

/-- `ucb_str_insert_cp` without its buffer. -/
theorem insertCp_unbacked (holds : Holds str (encode text)) (nonzero : ∀ cp ∈ cps, cp ≠ 0)
    (nonempty : cps ≠ []) (inside : index ≤ (graphemeClusters tables text).length)
    (refused : ¬ allocator.grants .calloc (4 * cps.length) = true) :
    (pushedBytes tables.maxMultiLen [] cps = [] ∧ ∃ error,
      ucbStrInsertCp tables allocator str index cps = .ok (str, false, error)) ∨
    (pushedBytes tables.maxMultiLen [] cps ≠ [] ∧
      ucbStrInsertCp tables allocator str index cps = .abort .buffer) := by
  have noMemory : ucbCalloc allocator (4 * cps.length) = none := by
    rw [ucbCalloc, if_neg (fun both => refused both.2)]
  have positive : 0 < 4 * cps.length := by
    have counted := List.length_pos_of_ne_nil nonempty
    omega
  have multiLen := tables.multiLen
  have encoded := encodeLoop_unbacked multiLen allocator cps [] (by simp; omega)
  unfold ucbStrInsertCp
  simp only [verifyNonzero_ok nonzero, Exec.ok_bind, List.length_eq_zero_iff, nonempty, if_false,
    mapCharPos_holds holds tables index, if_neg (Nat.not_lt.mpr inside), ucbBufferInitHeap,
    positive, gt_iff_lt, decide_true, ucbVerify_true, noMemory, Exec.pure_eq_ok,
    ucbUcEncodeCodepoints, encoded]
  by_cases pushes : pushedBytes tables.maxMultiLen [] cps = []
  · refine .inl ⟨pushes, ?_⟩
    rw [if_pos pushes, Exec.ok_bind]
    cases outcome : encodeOutcome cps with
    | error error => exact ⟨error, rfl⟩
    | ok _ =>
        obtain ⟨scalars, rfl⟩ := exists_of_encodeOutcome_ok outcome
        have none : scalars ≠ [] := fun empty => nonempty (empty ▸ rfl)
        exact absurd pushes (pushes_iff.mpr
          ⟨scalars, [], (List.append_nil _).symm, .inl ⟨none, rfl⟩⟩)
  · refine .inr ⟨pushes, ?_⟩
    rw [if_neg pushes]
    rfl

theorem mapped_inside (holds : Holds str (encode text))
    (inside : index ≤ (graphemeClusters tables text).length) :
    ucbStrMapCharPos tables str index =
      .ok (.ok (encode ((graphemeClusters tables text).take index).flatten).length) := by
  rw [mapCharPos_holds holds tables index, if_neg (Nat.not_lt.mpr inside)]

theorem inside_of_mapped (holds : Holds str (encode text)) {pos : Nat}
    (mapped : ucbStrMapCharPos tables str index = .ok (.ok pos)) :
    index ≤ (graphemeClusters tables text).length := by
  by_contra outside
  rw [mapCharPos_holds holds tables index, if_pos (Nat.not_le.mp outside)] at mapped
  cases Exec.ok.inj mapped

theorem insertCp_undisturbed {made : UcbStr × Bool × Option UcbError}
    (holds : Holds str (encode text))
    (granted : AllocMeets tables allocator str (.insertCp index cps))
    (scratch : ScratchGranted tables allocator str (.insertCp index cps))
    (ran : ucbStrInsertCp tables allocator.granting str index cps = .ok made) :
    ucbStrInsertCp tables allocator str index cps =
        ucbStrInsertCp tables allocator.granting str index cps ∨
      ∃ done error, ucbStrInsertCp tables allocator str index cps = .ok (str, done, error) := by
  obtain ⟨_, verified, -⟩ := Exec.bind_eq_ok.mp ran
  have nonzero := nonzero_of_verify verified
  by_cases nonempty : cps = []
  · subst nonempty
    exact .inl rfl
  by_cases outside : index > (graphemeClusters tables text).length
  · exact .inl ((insertCp_outside holds tables allocator nonzero nonempty outside).trans
      (insertCp_outside holds tables allocator.granting nonzero nonempty outside).symm)
  have inside := Nat.le_of_not_gt outside
  have mapped := mapped_inside holds inside
  by_cases backed : allocator.grants .calloc (4 * cps.length) = true
  · rw [insertCp_inside holds tables allocator nonzero nonempty inside backed,
      insertCp_inside holds tables allocator.granting nonzero nonempty inside rfl]
    cases outcome : encodeOutcome cps with
    | error error => exact .inl rfl
    | ok _ =>
        obtain ⟨scalars, rfl⟩ := exists_of_encodeOutcome_ok outcome
        have room := granted scalars _ rfl mapped backed
        rw [pushedBytes_scalarValues, List.nil_append]
        rcases grownTo_granting room _ with same | same
        · exact .inl (congrArg (fun grown => Exec.ok (grown, true, none)) same)
        · exact .inr ⟨true, none, congrArg (fun grown => Exec.ok (grown, true, none)) same⟩
  · rcases insertCp_unbacked holds nonzero nonempty inside backed with
      ⟨-, error, same⟩ | ⟨pushes, -⟩
    · exact .inr ⟨false, error, same⟩
    · obtain ⟨front, rest, split, enough⟩ := pushes_iff.mp pushes
      exact absurd (scratch _ front rest mapped split enough) backed

theorem insertCp_damaged {made : UcbStr × Bool × Option UcbError}
    (holds : Holds str (encode text))
    (refused : ¬ (AllocMeets tables allocator str (.insertCp index cps) ∧
      ScratchGranted tables allocator str (.insertCp index cps)))
    (ran : ucbStrInsertCp tables allocator.granting str index cps = .ok made) :
    ucbStrInsertCp tables allocator str index cps =
        .ok ({ str with data := .dangling }, true, none) ∨
      ucbStrInsertCp tables allocator str index cps = .abort .buffer := by
  obtain ⟨_, verified, -⟩ := Exec.bind_eq_ok.mp ran
  have nonzero := nonzero_of_verify verified
  rcases not_and_or.mp refused with refused | refused
  · simp only [AllocMeets, not_forall] at refused
    obtain ⟨scalars, pos, rfl, mapped, backed, refused⟩ := refused
    have nonempty : scalarValues scalars ≠ [] := by
      intro empty
      obtain rfl := List.map_eq_nil_iff.mp empty
      refine refused fun grows owned => absurd grows ?_
      exact not_or.mpr ⟨owned, fun more => more.1 rfl⟩
    rw [insertCp_inside holds tables allocator nonzero nonempty (inside_of_mapped holds mapped)
      backed, encodeOutcome_scalarValues, pushedBytes_scalarValues, List.nil_append]
    exact .inl (congrArg (fun grown => Exec.ok (grown, true, none)) (grownTo_lost refused _))
  · simp only [ScratchGranted, not_forall] at refused
    obtain ⟨pos, front, rest, mapped, split, enough, unbacked⟩ := refused
    have pushes : pushedBytes tables.maxMultiLen [] cps ≠ [] :=
      pushes_iff.mpr ⟨front, rest, split, enough⟩
    have nonempty : cps ≠ [] := by
      rintro rfl
      exact pushes rfl
    rcases insertCp_unbacked holds nonzero nonempty (inside_of_mapped holds mapped) unbacked with
      ⟨none, -⟩ | ⟨-, aborted⟩
    · exact absurd none pushes
    · exact .inr aborted

end Codepoints

/-! ## Every operation -/

section Operations

variable {tables : UcbUcTables} {allocator : Allocator} {str : UcbStr} {op : StrOp}
  {made : UcbStr × Bool}

theorem undisturbed_map {outcome granted : Exec UcbStr}
    (kept : outcome = granted ∨ outcome = .ok str) :
    Undisturbed str ((·, true) <$> outcome) ((·, true) <$> granted) := by
  rcases kept with rfl | rfl
  · exact .inl rfl
  · exact .inr ⟨true, rfl⟩

/-- When no memory is refused that the operation has to have, it does what it does without
refusals, or leaves the string alone. -/
theorem strOp_undisturbed (holdsText : HoldsText str) (granted : AllocMeets tables allocator str op)
    (scratch : ScratchGranted tables allocator str op)
    (ran : strOp tables allocator.granting str op = .ok made) :
    Undisturbed str (strOp tables allocator str op) (strOp tables allocator.granting str op) := by
  obtain ⟨content, holds, contentText⟩ := holdsText
  obtain ⟨text, rfl⟩ := contentText.valid
  cases op with
  | copy src =>
      cases src with
      | none => exact .inl rfl
      | some valid => exact .inl (copy_granting granted)
  | assign cstr len => exact assign_undisturbed granted
  | fit => exact .inl (fit_undisturbed granted)
  | reserve size =>
      rw [strOp, strOp]
      by_cases fits : size.toNat + str.size + 1 < 2 ^ 64
      · rw [ucbStrReserve_fits allocator fits, ucbStrReserve_fits allocator.granting fits]
        exact (reserve_undisturbed holds (granted fits)).imp_right fun same => ⟨false, same⟩
      · exact .inr (ucbStrReserve_wraps holds allocator fits)
  | adopt cstr len alloc | adoptC cstr | clear | adoptUcResult res => exact .inl rfl
  | append astr =>
      obtain ⟨_, inner, -⟩ := Exec.map_eq_ok ran
      obtain ⟨cstr, data, inner⟩ := Exec.bind_eq_ok.mp inner
      refine undisturbed_map ?_
      unfold ucbStrAppend
      rw [data]
      exact appendCstr_undisturbed holds (granted cstr data) inner
  | appendCstr cstr len =>
      obtain ⟨_, inner, -⟩ := Exec.map_eq_ok ran
      exact undisturbed_map (appendCstr_undisturbed holds granted inner)
  | appendCp cps =>
      obtain ⟨_, inner, -⟩ := Exec.map_eq_ok ran
      obtain ⟨_, verified, -⟩ := Exec.bind_eq_ok.mp inner
      rw [strOp, strOp]
      rcases reserve_undisturbed holds granted with same | same
      · rw [appendCp_granting same]
        exact .inl rfl
      · rw [appendCp_not_grown tables allocator (nonzero_of_verify verified) same]
        exact .inr ⟨false, rfl⟩
  | insert index istr =>
      obtain ⟨_, inner, -⟩ := Exec.map_eq_ok ran
      obtain ⟨cstr, data, inner⟩ := Exec.bind_eq_ok.mp inner
      refine undisturbed_map ?_
      unfold ucbStrInsert
      rw [data]
      exact insertCstr_undisturbed holds (granted cstr data) inner
  | insertCstr index cstr len =>
      obtain ⟨_, inner, -⟩ := Exec.map_eq_ok ran
      exact undisturbed_map (insertCstr_undisturbed holds granted inner)
  | insertCp index cps =>
      obtain ⟨_, inner, -⟩ := Exec.map_eq_ok ran
      rw [strOp, strOp]
      rcases insertCp_undisturbed holds granted scratch inner with same | ⟨done, error, same⟩
      · rw [same]
        exact .inl rfl
      · rw [same]
        exact .inr ⟨done, rfl⟩
  | clone => exact (clone_refusal allocator str).follow str
  | concat others =>
      rw [strOp, strOp]
      rcases concat_refusal allocator str (others.map Subtype.val) with same | refused
      · rw [same]
        exact .inl rfl
      · rw [refused]
        exact .inr ⟨false, rfl⟩
  | substr start stop => exact (substr_refusal allocator str start stop).follow str

/-- When memory is refused that the operation has to have, the string is without memory. -/
theorem strOp_damaged (holdsText : HoldsText str)
    (refused : ¬ (AllocMeets tables allocator str op ∧ ScratchGranted tables allocator str op))
    (ran : strOp tables allocator.granting str op = .ok made) :
    Damaged (strOp tables allocator str op) := by
  obtain ⟨content, holds, contentText⟩ := holdsText
  obtain ⟨text, rfl⟩ := contentText.valid
  cases op with
  | copy src =>
      have refused := mt (And.intro · trivial) refused
      cases src with
      | none => exact absurd trivial refused
      | some valid => exact .inl ⟨_, _, copy_lost refused ran, .inl rfl⟩
  | assign cstr len =>
      exact .inl ⟨_, _, assign_lost (mt (And.intro · trivial) refused) ran, .inl rfl⟩
  | fit => exact .inl ⟨_, _, fit_lost holds (mt (And.intro · trivial) refused), .inr rfl⟩
  | reserve size =>
      obtain ⟨fits, refused⟩ := Classical.not_imp.mp (mt (And.intro · trivial) refused)
      rw [strOp, ucbStrReserve_fits allocator fits]
      exact .inl ⟨_, _, reserve_lost holds refused, .inr rfl⟩
  | adopt cstr len alloc | adoptC cstr | clear | adoptUcResult res | clone | concat others
  | substr start stop => exact absurd ⟨trivial, trivial⟩ refused
  | append astr =>
      have refused := mt (And.intro · trivial) refused
      obtain ⟨_, inner, -⟩ := Exec.map_eq_ok ran
      obtain ⟨cstr, data, inner⟩ := Exec.bind_eq_ok.mp inner
      have argument : ¬ ArgGranted allocator str cstr ((strArg astr).get str).size := by
        intro granted
        refine refused fun cstr' data' => ?_
        obtain rfl := Exec.ok.inj (data.symm.trans data')
        exact granted
      rw [strOp, ucbStrAppend, data, Exec.ok_bind, appendCstr_lost holds argument inner]
      exact .inl ⟨_, true, rfl, .inr rfl⟩
  | appendCstr cstr len =>
      obtain ⟨_, inner, -⟩ := Exec.map_eq_ok ran
      rw [strOp, appendCstr_lost holds (mt (And.intro · trivial) refused) inner]
      exact .inl ⟨_, true, rfl, .inr rfl⟩
  | appendCp cps =>
      obtain ⟨_, inner, -⟩ := Exec.map_eq_ok ran
      rw [strOp, appendCp_lost holds (mt (And.intro · trivial) refused) inner]
      exact .inl ⟨_, false, rfl, .inr rfl⟩
  | insert index istr =>
      have refused := mt (And.intro · trivial) refused
      obtain ⟨_, inner, -⟩ := Exec.map_eq_ok ran
      obtain ⟨cstr, data, inner⟩ := Exec.bind_eq_ok.mp inner
      have argument : ¬ ArgGranted allocator str cstr ((strArg istr).get str).size := by
        intro granted
        refine refused fun cstr' data' => ?_
        obtain rfl := Exec.ok.inj (data.symm.trans data')
        exact granted
      rw [strOp, ucbStrInsert, data, Exec.ok_bind, insertCstr_lost holds argument inner]
      exact .inl ⟨_, true, rfl, .inr rfl⟩
  | insertCstr index cstr len =>
      obtain ⟨_, inner, -⟩ := Exec.map_eq_ok ran
      rw [strOp, insertCstr_lost holds (mt (And.intro · trivial) refused) inner]
      exact .inl ⟨_, true, rfl, .inr rfl⟩
  | insertCp index cps =>
      obtain ⟨_, inner, -⟩ := Exec.map_eq_ok ran
      rw [strOp]
      rcases insertCp_damaged holds refused inner with lost | aborted
      · rw [lost]
        exact .inl ⟨_, true, rfl, .inr rfl⟩
      · rw [aborted]
        exact .inr rfl

theorem not_holds_lost {str : UcbStr} {content : List UInt8} (lost : Lost str) :
    ¬ Holds str content := by
  intro holds
  cases holds with
  | interned => rcases lost with lost | lost <;> cases lost
  | owned content spare alloc above inside => rcases lost with lost | lost <;> cases lost

end Operations

/-! ## Whole lives -/

section Lives

variable {tables : UcbUcTables} {allocator : Allocator} {str : UcbStr} {op : StrOp}

theorem sound_live (holdsText : HoldsText str) : (strings tables).Sound (.live str) := by
  obtain ⟨content, holds, isText⟩ := holdsText
  exact ⟨some content, holds, isText⟩

theorem sound_zeroed : (strings tables).Sound .zeroed :=
  ⟨none, trivial⟩

theorem holdsText_of_sound (sound : (strings tables).Sound (.live str)) : HoldsText str := by
  obtain ⟨held, holds⟩ := sound
  cases held with
  | none => cases holds
  | some text => exact ⟨text, holds⟩

theorem strings_run_op (tables : UcbUcTables) (allocator : Allocator) (str : UcbStr) (op : StrOp) :
    (strings tables).run (.live str) (allocator, .op op) =
      (strOp tables allocator str op).returned.map fun next => (.live next.1, next.2) := by
  have step : (strings tables).run (.live str) (allocator, .op op) =
      Exec.returned ((fun next => (.live next.1, next.2)) <$> strOp tables allocator str op) := rfl
  rw [step]
  cases strOp tables allocator str op <;> rfl

/-- An operation withstands refusals exactly when no memory is refused that it has to have. -/
theorem op_withstands_iff (sound : (strings tables).Sound (.live str))
    (proper : ProperStrCall tables (.live str) (allocator, .op op)) :
    (strings tables).Withstands (.live str) (allocator, .op op) ↔
      AllocMeets tables allocator str op ∧ ScratchGranted tables allocator str op := by
  have holdsText := holdsText_of_sound sound
  have run := strings_run_op tables allocator str op
  have runGranting := strings_run_op tables allocator.granting str op
  obtain ⟨made, ran⟩ : ∃ made, strOp tables allocator.granting str op = .ok made := by
    rw [ProperStrCall, runGranting] at proper
    cases outcome : strOp tables allocator.granting str op with
    | ok made => exact ⟨made, rfl⟩
    | abort code =>
        rw [outcome] at proper
        cases proper
    | undefined =>
        rw [outcome] at proper
        cases proper
  by_cases granted : AllocMeets tables allocator str op ∧ ScratchGranted tables allocator str op
  · refine iff_of_true ?_ granted
    rcases strOp_undisturbed holdsText granted.1 granted.2 ran with same | ⟨done, same⟩
    · refine Component.withstands_of_unhindered (run.trans ?_) fun after ran' => ?_
      · rw [same]
        exact runGranting.symm
      · rw [run, same, ran] at ran'
        obtain rfl := Option.some.inj ran'
        exact sound_live (strOp_holdsText holdsText granted.1 (same.trans ran))
    · rw [same] at run
      exact Component.withstands_of_survives run sound fun _ held => held
  · refine iff_of_false ?_ granted
    rcases strOp_damaged holdsText granted ran with ⟨after, done, damaged, lost⟩ | aborted
    · rw [damaged] at run
      refine Component.not_withstands run fun sound' => ?_
      obtain ⟨content, holds, -⟩ := holdsText_of_sound sound'
      exact not_holds_lost lost holds
    · rw [aborted] at run
      rw [ran] at runGranting
      rintro ⟨survives, -⟩
      obtain ⟨after, ran', -⟩ := survives fun same => by
        cases run.symm.trans (same.trans runGranting)
      cases run.symm.trans ran'

theorem init_withstands (tables : UcbUcTables) (allocator : Allocator)
    (cstr : Option (List UInt8)) (len : Nat) :
    (strings tables).Withstands .zeroed (allocator, .init cstr len) := by
  have run (allocator : Allocator) :
      (strings tables).run .zeroed (allocator, .init cstr len) =
        Exec.returned ((fun made => (if made.2 then .live made.1 else .zeroed, made.2)) <$>
          ucbStrInit allocator cstr len) := rfl
  rcases init_refusal allocator cstr len with same | ⟨made, refused⟩
  · refine Component.withstands_of_unhindered ?_ fun after ran => ?_
    · rw [Component.Unhindered, run, same]
      rfl
    · obtain ⟨⟨made, success⟩, inner, rfl⟩ := Exec.map_eq_ok (Exec.returned_eq_some.mp ran)
      cases success with
      | true => exact sound_live (init_repInv inner).holds
      | false => exact sound_zeroed
  · have ran := run allocator
    rw [refused] at ran
    exact Component.withstands_of_survives ran sound_zeroed fun _ held => held

/-- A string withstands the refusals of a call exactly when no memory is refused that it has
to have. -/
theorem strings_sparedBy (tables : UcbUcTables) :
    (strings tables).SparedBy (ProperStrCall tables) (TextGranted tables) := by
  rintro phase ⟨allocator, call⟩ sound proper
  cases phase with
  | zeroed =>
      cases call with
      | init cstr len => exact iff_of_true (init_withstands tables allocator cstr len) trivial
      | release | abandon | op op => cases proper
  | live str =>
      cases call with
      | init cstr len => cases proper
      | release =>
          refine iff_of_true (Component.withstands_of_unhindered rfl fun after ran => ?_) trivial
          obtain ⟨_, -, rfl⟩ := Exec.map_eq_ok (Exec.returned_eq_some.mp ran)
          exact sound_zeroed
      | abandon =>
          refine iff_of_true (Component.withstands_of_unhindered rfl fun after ran => ?_) trivial
          obtain rfl := Option.some.inj ran
          exact sound_zeroed
      | op op => exact op_withstands_iff sound proper

end Lives

end Ucb.Str
