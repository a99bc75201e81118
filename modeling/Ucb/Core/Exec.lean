import Mathlib.Algebra.Group.Int.Defs
import Mathlib.Algebra.Group.Nat.Defs
import Mathlib.Tactic.Common

/-!
Contract: outcomes of a C call and the errors the library reports or throws.

Owns:
- the error codes and thrown errors the modelled functions use;
- `Exec`, the outcome of running a piece of C: a value, an abort through
  `UCB_REPORT` and its wrappers, or undefined behaviour;
- checked access to a block of memory.

Allocation failure is a value of the functions that allocate, not an outcome
of its own: with an overriding error handler `ucb_malloc` returns `UCB_NULL`.
-/

namespace Ucb

universe u v

/-- The error codes of `errcodes.h` that the modelled functions use. -/
inductive UcbEcode where
  | invalidArg
  | invalidState
  | invalidUtf8
  | invalidCodepoint
  | outOfMemory
  | outOfBounds
  | buffer
  | notImplemented
  | internal
  | errsysEnoent
  | errsysEexist
  | errsysEnotdir
  | errsysEisdir
  | errsysOther (errno : Nat)
deriving DecidableEq, Repr

/-- `ucb_error`: what a throwing function stores through `perr`. -/
structure UcbError where
  code : UcbEcode
  msg : String
deriving DecidableEq, Repr

/-- The outcome of running a piece of C. -/
inductive Exec (α : Type u) where
  | ok (value : α)
  | abort (code : UcbEcode)
  | undefined
deriving DecidableEq, Repr

namespace Exec

variable {α : Type u} {β : Type v}

protected def bind (first : Exec α) (next : α → Exec β) : Exec β :=
  match first with
  | ok value => next value
  | abort code => abort code
  | undefined => undefined

instance : Monad Exec where
  pure := ok
  bind := Exec.bind

instance : LawfulMonad Exec :=
  LawfulMonad.mk' Exec
    (fun first => by cases first <;> rfl)
    (fun _ _ => rfl)
    (fun first _ _ => by cases first <;> rfl)

@[simp] theorem pure_eq_ok (value : α) : (pure value : Exec α) = ok value := rfl

@[simp] theorem ok_bind {β : Type u} (value : α) (next : α → Exec β) :
    (ok value >>= next) = next value := rfl

@[simp] theorem abort_bind {β : Type u} (code : UcbEcode) (next : α → Exec β) :
    ((abort code : Exec α) >>= next) = abort code := rfl

@[simp] theorem undefined_bind {β : Type u} (next : α → Exec β) :
    ((undefined : Exec α) >>= next) = undefined := rfl

@[simp] theorem ok_map {β : Type u} (value : α) (f : α → β) :
    (f <$> (ok value : Exec α)) = ok (f value) := rfl

theorem map_eq_ok {β : Type u} {run : Exec α} {f : α → β} {result : β}
    (ran : f <$> run = ok result) : ∃ value, run = ok value ∧ f value = result := by
  cases run with
  | ok value => exact ⟨value, rfl, ok.inj ran⟩
  | abort code => cases ran
  | undefined => cases ran

def returned : Exec α → Option α
  | ok value => some value
  | abort _ | undefined => none

theorem returned_eq_some {run : Exec α} {value : α} : run.returned = some value ↔
    run = ok value := by
  cases run with
  | ok other => simp [returned]
  | abort code => simp [returned]
  | undefined => simp [returned]

theorem bind_eq_ok {β : Type u} {first : Exec α} {next : α → Exec β} {result : β} :
    (first >>= next) = ok result ↔ ∃ value, first = ok value ∧ next value = ok result := by
  cases first with
  | ok value => simp
  | abort code => simp
  | undefined => simp

/-- The rest of a run matters only for the value it gets. -/
theorem bind_congr_ok {β : Type u} {first : Exec α} {next next' : α → Exec β}
    (same : ∀ value, first = ok value → next value = next' value) :
    (first >>= next) = (first >>= next') := by
  cases first with
  | ok value => exact same value rfl
  | abort code => rfl
  | undefined => rfl

end Exec

/-- `UCB_VERIFY`: report a user error, which always aborts. -/
def ucbVerify (condition : Bool) (code : UcbEcode) : Exec Unit :=
  if condition then .ok () else .abort code

@[simp] theorem ucbVerify_true (code : UcbEcode) : ucbVerify true code = .ok () := rfl

@[simp] theorem ucbVerify_false (code : UcbEcode) :
    ucbVerify false code = .abort code := rfl

theorem ucbVerify_ok {condition : Bool} {code : UcbEcode}
    (passed : ucbVerify condition code = .ok ()) : condition = true := by
  cases condition with
  | true => rfl
  | false => cases passed

/-- Bytes are compared lawfully. -/
instance lawfulBEqBytes : LawfulBEq (List UInt8) := inferInstance

/-- A byte load. Loading past the end of the block is undefined. -/
def byteAt (mem : List UInt8) (index : Nat) : Exec Nat :=
  match mem[index]? with
  | some byte => .ok byte.toNat
  | none => .undefined

theorem byteAt_of_getElem? {mem : List UInt8} {index : Nat} {byte : UInt8}
    (present : mem[index]? = some byte) : byteAt mem index = .ok byte.toNat := by
  simp [byteAt, present]

/-- Loads at an offset are loads from the remaining block. -/
theorem byteAt_zero {mem : List UInt8} {index : Nat} (present : mem[index]? = some 0) :
    byteAt mem index = .ok 0 :=
  byteAt_of_getElem? present

theorem byteAt_drop (mem : List UInt8) (start offset : Nat) :
    byteAt (mem.drop start) offset = byteAt mem (start + offset) := by
  simp [byteAt, List.getElem?_drop]

/-- Loads in the first part of a block. -/
theorem byteAt_append {str : List UInt8} (after : List UInt8) {index : Nat}
    (inside : index < str.length) : byteAt (str ++ after) index = byteAt str index := by
  rw [byteAt, byteAt, List.getElem?_append_left inside]

@[simp] theorem byteAt_cons_zero (byte : UInt8) (rest : List UInt8) :
    byteAt (byte :: rest) 0 = .ok byte.toNat := rfl

@[simp] theorem byteAt_cons_succ (byte : UInt8) (rest : List UInt8) (index : Nat) :
    byteAt (byte :: rest) (index + 1) = byteAt rest index := rfl

@[simp] theorem byteAt_nil (index : Nat) : byteAt [] index = .undefined := rfl

end Ucb
