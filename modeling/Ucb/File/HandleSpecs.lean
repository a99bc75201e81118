import Mathlib.Algebra.Order.Group.Multiset
import Ucb.File.Handles

/-!
Contract: what each function leaves of the descriptors that its thread holds.

Owns:
- the terms of a thread with the system, in descriptors held;
- what a handle answers for: its descriptor, if it owns one;
- one lemma for each function of `file.c` and `file_unix.c`.

The descriptors are counted: what is held twice is answered for twice.
-/

namespace Ucb.File.Handles

open Ucb.Lib
open Ucb.Process (Errno)

/-! ## Terms -/

/-- Only what is held is closed. A failing `close` keeps the descriptor or releases
it, and other calls only make descriptors. -/
def terms (kept : Bool) : Terms (Multiset Int) Ask Ask.Answer where
  needs
    | held, .close fd => fd ∈ held
    | _, _ => True
  gives
    | held, .openPath _ _ _, .ok fd, after => 0 ≤ fd ∧ after = fd ::ₘ held
    | held, .dupfdCloexec _, .ok fd, after => 0 ≤ fd ∧ after = fd ::ₘ held
    | held, .pipe _ _, .ok (read, write), after =>
        0 ≤ read ∧ 0 ≤ write ∧ after = read ::ₘ write ::ₘ held
    | held, .close fd, .ok (), after => after = held.erase fd
    | held, .close fd, .error _, after => after = if kept then held else held.erase fd
    | held, _, _, after => after = held

/-- What holds after a success, or after a failure. -/
def Results {α : Type} (ok : α → Multiset Int → Prop) (failed : Multiset Int → Prop) :
    Except Thrown α → Multiset Int → Prop
  | .ok value, held => ok value held
  | .error _, held => failed held

section Rules

variable {kept : Bool} {held : Multiset Int} {fd : Int} {α : Type} {post : α → Multiset Int → Prop}

/-- A call that leaves all descriptors as they are. -/
theorem keeps_asked {question : Ask} {next : question.Answer → FdProg α}
    (needs : (terms kept).needs held question)
    (same : ∀ answer after, (terms kept).gives held question answer after → after = held)
    (behind : ∀ answer, (next answer).Keeps (terms kept) held post) :
    (Asking.request question >>= next).Keeps (terms kept) held post := by
  apply keeps_request needs
  intro answer after gives
  rw [same answer after gives]
  exact behind answer

theorem keeps_openPath {path : List UInt8} {flags : OpenFlags} {mode : Nat}
    {next : Except Errno Int → FdProg α}
    (failed : ∀ errno, (next (.error errno)).Keeps (terms kept) held post)
    (opened : ∀ fd, 0 ≤ fd → (next (.ok fd)).Keeps (terms kept) (fd ::ₘ held) post) :
    (openPath path flags mode >>= next).Keeps (terms kept) held post := by
  apply keeps_request trivial
  rintro (errno | fd) after gives
  · obtain rfl : after = held := gives
    exact failed errno
  · obtain ⟨valid, rfl⟩ := gives
    exact opened fd valid

theorem keeps_dupfd {next : Except Errno Int → FdProg α}
    (failed : ∀ errno, (next (.error errno)).Keeps (terms kept) held post)
    (made : ∀ new, 0 ≤ new → (next (.ok new)).Keeps (terms kept) (new ::ₘ held) post) :
    (dupfdCloexec fd >>= next).Keeps (terms kept) held post := by
  apply keeps_request trivial
  rintro (errno | new) after gives
  · obtain rfl : after = held := gives
    exact failed errno
  · obtain ⟨valid, rfl⟩ := gives
    exact made new valid

theorem keeps_pipe {nonblock cloexec : Bool} {next : Except Errno (Int × Int) → FdProg α}
    (failed : ∀ errno, (next (.error errno)).Keeps (terms kept) held post)
    (made : ∀ read write, 0 ≤ read → 0 ≤ write →
      (next (.ok (read, write))).Keeps (terms kept) (read ::ₘ write ::ₘ held) post) :
    (pipe nonblock cloexec >>= next).Keeps (terms kept) held post := by
  apply keeps_request trivial
  rintro (errno | ⟨read, write⟩) after gives
  · obtain rfl : after = held := gives
    exact failed errno
  · obtain ⟨validRead, validWrite, rfl⟩ := gives
    exact made read write validRead validWrite

theorem keeps_close {next : Except Errno Unit → FdProg α}
    (failed : ∀ errno,
      (next (.error errno)).Keeps (terms kept) (if kept then fd ::ₘ held else held) post)
    (closed : (next (.ok ())).Keeps (terms kept) held post) :
    (close fd >>= next).Keeps (terms kept) (fd ::ₘ held) post := by
  apply keeps_request (Multiset.mem_cons_self fd held)
  rintro (errno | ⟨⟩) after gives
  · obtain rfl : after = if kept then fd ::ₘ held else (fd ::ₘ held).erase fd := gives
    rw [Multiset.erase_cons_head]
    exact failed errno
  · obtain rfl : after = (fd ::ₘ held).erase fd := gives
    rw [Multiset.erase_cons_head]
    exact closed

/-- A descriptor is closed, and a failure is ignored. -/
theorem closeQuiet_keeps {next : FdProg α} (behind : next.Keeps (terms false) held post) :
    (closeQuiet fd >>= fun _ => next).Keeps (terms false) (fd ::ₘ held) post := by
  apply keeps_bind
  apply keeps_close
  · intro errno
    exact keeps_pure behind
  · exact keeps_pure behind

def Leaves (kept : Bool) (program : FdProg α) : Prop :=
  ∀ held, program.Keeps (terms kept) held fun _ after => after = held

theorem Leaves.andThen {first : FdProg α} {β : Type} {next : α → FdProg β}
    {post : β → Multiset Int → Prop} (leaves : Leaves kept first)
    (behind : ∀ value, (next value).Keeps (terms kept) held post) :
    (first >>= next).Keeps (terms kept) held post := by
  apply (leaves held).andThen
  rintro value _ rfl
  exact behind value

theorem leaves_pure (value : α) : Leaves kept (pure value : FdProg α) :=
  fun _ => keeps_pure rfl

end Rules

/-! ## Handles -/

def UcbFileHandle.owes (file : UcbFileHandle) : Multiset Int :=
  if file.own then {file.fd} else 0

/-- A handle that closes its descriptor when it is freed. -/
structure UcbFileHandle.Owner (file : UcbFileHandle) : Prop where
  own : file.own = true
  std : file.std = false
  valid : 0 ≤ file.fd

/-- A handle that owns a descriptor closes it. -/
def UcbFileHandle.Sound (file : UcbFileHandle) : Prop :=
  file.own = true → file.Owner

/-- A new handle answers for a new descriptor, or nothing is left. -/
def Opens (held : Multiset Int) : Except Thrown UcbFileHandle → Multiset Int → Prop :=
  Results (fun file after => file.Owner ∧ after = file.owes + held) (· = held)

/-- A handle is as `ucb_file_unix_from_fd` builds it. -/
structure Built (file : UcbFileHandle) (fd : Int) (own : Bool) : Prop where
  refers : file.fd = fd
  own : file.own = own
  std : file.std = false

section Specs

variable {kept : Bool} {held : Multiset Int} {file : UcbFileHandle} {fd : Int} {own : Bool}

theorem owes_of_other (other : file.own = false) : file.owes = 0 := by
  rw [UcbFileHandle.owes, other]
  rfl

theorem UcbFileHandle.Owner.owes (owner : file.Owner) : file.owes + held = file.fd ::ₘ held := by
  rw [UcbFileHandle.owes, if_pos owner.own, Multiset.singleton_add]

theorem UcbFileHandle.Owner.closes (owner : file.Owner) :
    (file.own && ucbFilePlatHasResource file) = true := by
  rw [owner.own, ucbFilePlatHasResource, Bool.true_and, decide_eq_true_eq]
  exact owner.valid

theorem UcbFileHandle.Owner.reflag (owner : file.Owner) (flags : UcbFileFlags) :
    { file with flags }.Owner :=
  ⟨owner.own, owner.std, owner.valid⟩

theorem Built.owner (built : Built file fd true) (valid : 0 ≤ fd) : file.Owner :=
  ⟨built.own, built.std, built.refers ▸ valid⟩

theorem Built.owes (built : Built file fd true) : file.owes + held = fd ::ₘ held := by
  rw [UcbFileHandle.owes, if_pos built.own, Multiset.singleton_add, built.refers]

theorem detectFlags_keeps : (ucbFileUnixDetectFlags file).Keeps (terms kept) held
    fun found after => after = held ∧ found = { file with flags := found.flags } := by
  refine keeps_asked trivial (fun _ _ => id) fun status => ?_
  refine keeps_asked trivial (fun _ _ => id) fun cloexec => ?_
  exact keeps_pure ⟨rfl, rfl⟩

theorem query_keeps : (ucbFileUnixQuery file).Keeps (terms kept) held fun query after =>
    after = held ∧ ∀ found, query = .found found →
      ∃ kind, found = ucbFileApplyKindCaps { file with kind } := by
  refine keeps_asked trivial (fun _ _ => id) ?_
  rintro (errno | type)
  · refine keeps_pure ⟨rfl, fun found same => ?_⟩
    cases same
  · refine keeps_asked trivial (fun _ _ => id) fun tty => ?_
    dsimp only
    split
    next =>
      refine keeps_pure ⟨rfl, fun found same => ?_⟩
      cases same
    next =>
      refine keeps_pure ⟨rfl, fun found same => ?_⟩
      cases same
      exact ⟨_, rfl⟩

theorem fromFd_keeps : (ucbFileUnixFromFd fd own).Keeps (terms kept) held
    (Results (fun file after => after = held ∧ Built file fd own) (· = held)) := by
  refine keeps_asked trivial (fun _ _ => id) fun able => ?_
  cases able with
  | false => exact keeps_pure rfl
  | true =>
      apply detectFlags_keeps.andThen
      rintro file _ ⟨rfl, same⟩
      apply query_keeps.andThen
      rintro query _ ⟨rfl, found⟩
      cases query with
      | failed errno => exact keeps_pure rfl
      | unsupported => exact keeps_pure rfl
      | found file' =>
          obtain ⟨kind, rfl⟩ := found file' rfl
          rw [same]
          exact keeps_pure ⟨rfl, rfl, rfl, rfl⟩

theorem applyInherit_leaves (inherit : Bool) :
    Leaves kept (ucbFileUnixApplyInherit fd inherit) := by
  intro held
  refine keeps_asked trivial (fun _ _ => id) ?_
  rintro (errno | cloexec)
  · exact keeps_pure rfl
  · refine keeps_asked trivial (fun _ _ => id) ?_
    rintro (errno | ⟨⟩)
    · exact keeps_pure rfl
    · exact keeps_pure rfl

/-! ## Opening -/

theorem wrapNew_keeps {flags : UcbFileFlags} (valid : 0 ≤ fd) :
    (wrapNew fd flags).Keeps (terms false) (fd ::ₘ held) (Opens held) := by
  apply fromFd_keeps.andThen
  rintro (thrown | file) after here
  · obtain rfl : after = fd ::ₘ held := here
    exact closeQuiet_keeps (keeps_pure rfl)
  · obtain ⟨rfl, built⟩ := here
    exact keeps_pure ⟨(built.owner valid).reflag flags, built.owes.symm⟩

theorem plat_open_keeps {path : List UInt8} {flags : UcbFileFlags} {mode : Nat} :
    (ucbFilePlatOpen path flags mode).Keeps (terms false) held (Opens held) := by
  apply keeps_openPath
  · intro errno
    exact keeps_pure rfl
  · intro fd valid
    have applied : Leaves false (applyAsked fd flags) := by
      unfold applyAsked
      split
      next => exact applyInherit_leaves flags.inherit
      next => exact leaves_pure _
    apply applied.andThen
    rintro (thrown | ⟨⟩)
    · exact closeQuiet_keeps (keeps_pure rfl)
    · exact wrapNew_keeps valid

theorem openMode_keeps {path : List UInt8} {flags : UcbFileFlags} {mode : Nat} :
    (ucbFileOpenMode path flags mode).Keeps (terms false) held (Opens held) := by
  unfold ucbFileOpenMode
  split
  next => exact keeps_pure rfl
  next => exact plat_open_keeps

/-! ## Closing -/

theorem closed_sound : (ucbFileInvalidate file).Sound := by
  intro own
  cases own

/-- A handle that is closed answers for nothing any more. A failing `close` leaves it as it is. -/
theorem close_keeps (sound : file.Sound) :
    (ucbFileClose file).Keeps (terms true) (file.owes + held) fun result after =>
      result.2.Sound ∧ after = result.2.owes + held := by
  cases own : file.own with
  | false =>
      unfold ucbFileClose
      rw [own, Bool.false_and]
      split
      next => exact keeps_pure ⟨sound, rfl⟩
      next =>
        rw [owes_of_other own]
        exact keeps_pure ⟨closed_sound, rfl⟩
  | true =>
      have owner := sound own
      unfold ucbFileClose
      rw [owner.std, owner.closes, owner.owes]
      apply keeps_bind
      apply keeps_close
      · intro errno
        exact keeps_pure (keeps_pure ⟨sound, owner.owes.symm⟩)
      · exact keeps_pure (keeps_pure ⟨closed_sound, (zero_add held).symm⟩)

theorem free_keeps (sound : file.Sound) :
    (ucbFileFree (some file)).Keeps (terms false) (file.owes + held) fun _ after =>
      after = held := by
  cases own : file.own with
  | false =>
      rw [ucbFileFree, own, Bool.false_and, owes_of_other own, zero_add]
      split
      next => exact keeps_pure rfl
      next => exact keeps_pure rfl
  | true =>
      have owner := sound own
      rw [ucbFileFree, owner.std, owner.closes, owner.owes]
      apply keeps_bind
      apply keeps_close
      · intro errno
        exact keeps_pure (keeps_pure rfl)
      · exact keeps_pure (keeps_pure rfl)

/-! ## Wrapping, duplicating, marking -/

theorem fileFromFd_keeps : (ucbFileFromFd fd own).Keeps (terms kept) held
    (Results (fun file after => after = held ∧ 0 ≤ fd ∧ Built file fd own) (· = held)) := by
  unfold ucbFileFromFd
  split
  next => exact keeps_pure rfl
  next valid =>
      apply fromFd_keeps.mono
      rintro (thrown | file) after here
      · exact here
      · exact ⟨here.1, by omega, here.2⟩

theorem copyInherit_leaves (new : Int) : Leaves kept (copyInherit fd new) := by
  intro held
  refine keeps_asked trivial (fun _ _ => id) ?_
  rintro (errno | cloexec)
  · exact keeps_pure rfl
  · refine keeps_asked trivial (fun _ _ => id) fun _ => ?_
    exact keeps_pure rfl

theorem dup_keeps : (ucbFileDup file).Keeps (terms false) held (Opens held) := by
  unfold ucbFileDup
  split
  next =>
    apply keeps_dupfd
    · intro errno
      exact keeps_pure rfl
    · intro new valid
      apply (copyInherit_leaves new).andThen
      intro _
      exact wrapNew_keeps valid
  next => exact keeps_pure rfl

/-- A handle that is marked answers for what it has answered for. -/
theorem setInherit_keeps (inherit : Bool) (sound : file.Sound) :
    (ucbFileSetInherit file inherit).Keeps (terms kept) held fun result after =>
      result.2.Sound ∧ result.2.owes = file.owes ∧ after = held := by
  unfold ucbFileSetInherit
  split
  next =>
    apply (applyInherit_leaves inherit).andThen
    rintro (thrown | ⟨⟩)
    · exact keeps_pure ⟨sound, rfl, rfl⟩
    · exact keeps_pure ⟨fun own => (sound own).reflag _, rfl, rfl⟩
  next => exact keeps_pure ⟨sound, rfl, rfl⟩

/-! ## Pipes -/

/-- Two new handles answer for two new descriptors, or nothing is left. -/
def OpensBoth (held : Multiset Int) :
    Except Thrown (UcbFileHandle × UcbFileHandle) → Multiset Int → Prop :=
  Results (fun files after => (files.1.Owner ∧ files.2.Owner) ∧
    after = files.1.owes + (files.2.owes + held)) (· = held)

theorem wrapBoth_keeps {flags : UcbFileFlags} {read write : Int} (validRead : 0 ≤ read)
    (validWrite : 0 ≤ write) :
    (wrapBoth read write flags).Keeps (terms false) (read ::ₘ write ::ₘ held)
      (OpensBoth held) := by
  apply fromFd_keeps.andThen
  rintro (thrown | readEnd) after here
  · obtain rfl : after = read ::ₘ write ::ₘ held := here
    exact closeQuiet_keeps (closeQuiet_keeps (keeps_pure rfl))
  · obtain ⟨rfl, builtRead⟩ := here
    apply fromFd_keeps.andThen
    rintro (thrown | writeEnd) after here
    · obtain rfl : after = read ::ₘ write ::ₘ held := here
      rw [← builtRead.owes]
      apply (free_keeps fun _ => builtRead.owner validRead).andThen
      rintro _ _ rfl
      exact closeQuiet_keeps (keeps_pure rfl)
    · obtain ⟨rfl, builtWrite⟩ := here
      refine keeps_pure ⟨⟨(builtRead.owner validRead).reflag _,
        (builtWrite.owner validWrite).reflag _⟩, ?_⟩
      show read ::ₘ write ::ₘ held = readEnd.owes + (writeEnd.owes + held)
      rw [builtRead.owes, builtWrite.owes]

theorem pipe_keeps {flags : UcbFileFlags} :
    (ucbPipeCreate flags).Keeps (terms false) held (OpensBoth held) := by
  apply keeps_pipe
  · intro errno
    exact keeps_pure rfl
  · intro read write validRead validWrite
    have marked : Leaves false (inheritAsked flags read write) := by
      intro held
      unfold inheritAsked
      split
      next =>
        apply (applyInherit_leaves true).andThen
        rintro (thrown | ⟨⟩)
        · exact keeps_pure rfl
        · exact applyInherit_leaves true held
      next => exact keeps_pure rfl
    apply marked.andThen
    rintro (thrown | ⟨⟩)
    · exact closeQuiet_keeps (closeQuiet_keeps (keeps_pure rfl))
    · exact wrapBoth_keeps validRead validWrite

end Specs

end Ucb.File.Handles
