import Ucb.Lib.MsvcrtArgs
import Ucb.Str.Exact

/-!
Contract: the command line `process_win32.c` builds for a child.

Owns:
- building it, character by character, in a `ucb_str`;
- its text, and that exactly the ASCII arguments can be appended.

An argument is the text in front of its terminator. The conversion of the finished
line to UTF-16 is left out.
-/

namespace Ucb.Process

open Ucb.Str Ucb.Unicode Ucb.Lib.Msvcrt

/-! ## Building -/

def strSize : Nat := 24

section Building

variable (allocator : Allocator)

def processWin32AppendChar (str : UcbStr) (c : UInt8) : Exec UcbStr :=
  ucbStrAppendCstr allocator str (.mem [c]) 1

def processWin32ArgNeedsQuotes (arg : List UInt8) : Bool :=
  arg.isEmpty || arg.any fun p => p = 0x20 || p = 0x09 || p = quote

/-- The loops over `n`. -/
def appendRepeated (str : UcbStr) (c : UInt8) : Nat → Exec UcbStr
  | 0 => pure str
  | n + 1 => do
      let str ← processWin32AppendChar allocator str c
      appendRepeated str c n

/-- The loop over `p`: the line, and the backslashes that have not been appended. -/
def appendEscaped (str : UcbStr) (backslashes : Nat) : List UInt8 → Exec (UcbStr × Nat)
  | [] => pure (str, backslashes)
  | p :: rest =>
      if p = backslash then appendEscaped str (backslashes + 1) rest
      else if p = quote then do
        let str ← appendRepeated allocator str backslash (backslashes * 2 + 1)
        let str ← processWin32AppendChar allocator str quote
        appendEscaped str 0 rest
      else do
        let str ← appendRepeated allocator str backslash backslashes
        let str ← processWin32AppendChar allocator str p
        appendEscaped str 0 rest

/-- An argument, in quotes if it needs them. -/
def appendArg (str : UcbStr) (arg : List UInt8) : Exec UcbStr := do
  let quoted := processWin32ArgNeedsQuotes arg
  let str ← if quoted then processWin32AppendChar allocator str quote else pure str
  let (str, backslashes) ← appendEscaped allocator str 0 arg
  let str ← appendRepeated allocator str backslash
    (if quoted then backslashes * 2 else backslashes)
  if quoted then processWin32AppendChar allocator str quote else pure str

/-- The loop over `i`. -/
def appendArgs (str : UcbStr) (i : Nat) : List (List UInt8) → Exec UcbStr
  | [] => pure str
  | arg :: rest => do
      let str ← if i ≠ 0 then processWin32AppendChar allocator str 0x20 else pure str
      let str ← appendArg allocator str arg
      appendArgs str (i + 1) rest

/-- `process_win32_build_command_line`. Without memory for the string it throws an
error, and there is no line. -/
def processWin32BuildCommandLine (argv : List (List UInt8)) : Exec (Option (List UInt8)) :=
  if allocator.grants .malloc strSize then do
    let cmd ← appendArgs allocator .interned 0 argv
    let mem ← cmd.data.load
    let slen ← strlen mem
    pure (some (mem.take slen))
  else pure none

end Building

/-! ## The text of the line -/

/-- An argument with its backslashes, but for those at the end, and their number. -/
def escaped (backslashes : Nat) : List UInt8 → List UInt8 × Nat
  | [] => ([], backslashes)
  | p :: rest =>
      if p = backslash then escaped (backslashes + 1) rest
      else if p = quote then
        let (text, left) := escaped 0 rest
        (List.replicate (backslashes * 2 + 1) backslash ++ quote :: text, left)
      else
        let (text, left) := escaped 0 rest
        (List.replicate backslashes backslash ++ p :: text, left)

/-- What follows the opening quote of an argument. -/
def closedText (arg : List UInt8) : List UInt8 :=
  let (text, left) := escaped 0 arg
  text ++ List.replicate (left * 2) backslash ++ [quote]

def argText (arg : List UInt8) : List UInt8 :=
  if processWin32ArgNeedsQuotes arg then quote :: closedText arg
  else
    let (text, left) := escaped 0 arg
    text ++ List.replicate left backslash

def furtherText (args : List (List UInt8)) : List UInt8 :=
  args.flatMap fun arg => 0x20 :: argText arg

def lineText : List (List UInt8) → List UInt8
  | [] => []
  | program :: args => argText program ++ furtherText args

section Characters

variable {holds : UInt8 → Prop} {arg : List UInt8} {args : List (List UInt8)}

/-- The line has the characters of the arguments, quotes, backslashes and spaces. -/
theorem forall_escaped (slash : holds backslash) {backslashes : Nat} :
    (∀ c ∈ (escaped backslashes arg).1, holds c) ↔ ∀ c ∈ arg, holds c := by
  induction arg generalizing backslashes with
  | nil => simp [escaped]
  | cons p rest inductionHypothesis =>
      have slashes : ∀ n, ∀ c ∈ List.replicate n backslash, holds c := fun n c member =>
        List.eq_of_mem_replicate member ▸ slash
      simp only [escaped]
      split
      next same => simp [inductionHypothesis, same, slash]
      next =>
        split
        next same =>
          simp only [List.forall_mem_append, List.forall_mem_cons, inductionHypothesis, ← same]
          exact and_iff_right (slashes _)
        next =>
          simp only [List.forall_mem_append, List.forall_mem_cons, inductionHypothesis]
          exact and_iff_right (slashes _)

theorem forall_argText (slash : holds backslash) (mark : holds quote) :
    (∀ c ∈ argText arg, holds c) ↔ ∀ c ∈ arg, holds c := by
  have slashes : ∀ n, ∀ c ∈ List.replicate n backslash, holds c := fun n c member =>
    List.eq_of_mem_replicate member ▸ slash
  by_cases quoted : processWin32ArgNeedsQuotes arg = true
  · simp only [argText, quoted, ↓reduceIte, closedText, List.forall_mem_cons,
      List.forall_mem_append, forall_escaped slash, mark, true_and]
    exact ⟨fun all => all.1.1, fun all => ⟨⟨all, slashes _⟩, by simp⟩⟩
  · simp only [argText, quoted, Bool.false_eq_true, ↓reduceIte, List.forall_mem_append,
      forall_escaped slash]
    exact and_iff_left (slashes _)

theorem forall_furtherText (slash : holds backslash) (mark : holds quote) (space : holds 0x20) :
    (∀ c ∈ furtherText args, holds c) ↔ ∀ arg ∈ args, ∀ c ∈ arg, holds c := by
  simp only [furtherText, List.forall_mem_flatMap, List.forall_mem_cons, forall_argText slash mark,
    space, true_and]

theorem forall_lineText (slash : holds backslash) (mark : holds quote) (space : holds 0x20) :
    (∀ c ∈ lineText args, holds c) ↔ ∀ arg ∈ args, ∀ c ∈ arg, holds c := by
  cases args with
  | nil => simp [lineText]
  | cons program args =>
      simp only [lineText, List.forall_mem_append, List.forall_mem_cons,
        forall_argText slash mark, forall_furtherText slash mark space]

end Characters

section Text

variable {allocator : Allocator} {str : UcbStr} {c : UInt8} {text front back : List UInt8}

def appendText (allocator : Allocator) (str : UcbStr) (text : List UInt8) : Exec UcbStr :=
  text.foldlM (processWin32AppendChar allocator) str

theorem appendText_append : appendText allocator str (front ++ back) =
    (appendText allocator str front >>= fun str => appendText allocator str back) :=
  List.foldlM_append

theorem appendText_cons : appendText allocator str (c :: text) =
    (processWin32AppendChar allocator str c >>= fun str => appendText allocator str text) :=
  List.foldlM_cons

theorem appendText_nil : appendText allocator str [] = pure str := rfl

theorem appendRepeated_eq (n : Nat) :
    appendRepeated allocator str c n = appendText allocator str (List.replicate n c) := by
  induction n generalizing str with
  | zero => rfl
  | succ n inductionHypothesis =>
      rw [List.replicate_succ, appendText_cons, appendRepeated]
      simp only [inductionHypothesis]

theorem appendEscaped_eq {backslashes : Nat} {arg : List UInt8} :
    appendEscaped allocator str backslashes arg =
      (appendText allocator str (escaped backslashes arg).1 >>= fun str =>
        pure (str, (escaped backslashes arg).2)) := by
  induction arg generalizing str backslashes with
  | nil => rfl
  | cons p rest inductionHypothesis =>
      simp only [appendEscaped, escaped]
      split
      · exact inductionHypothesis
      · split
        · simp only [appendRepeated_eq, inductionHypothesis, appendText_append, appendText_cons,
            bind_assoc]
        · simp only [appendRepeated_eq, inductionHypothesis, appendText_append, appendText_cons,
            bind_assoc]

theorem appendArg_eq {arg : List UInt8} :
    appendArg allocator str arg = appendText allocator str (argText arg) := by
  by_cases quoted : processWin32ArgNeedsQuotes arg = true
  · simp only [appendArg, quoted, ↓reduceIte, appendEscaped_eq, appendRepeated_eq, argText,
      closedText, appendText_cons, appendText_append, appendText_nil, bind_assoc, pure_bind,
      bind_pure]
  · simp only [appendArg, quoted, Bool.false_eq_true, ↓reduceIte, appendEscaped_eq,
      appendRepeated_eq, argText, appendText_append, bind_assoc, pure_bind, bind_pure]

/-- The arguments are appended as their texts, with a space in front of each but the
first. -/
theorem appendArgs_eq {i : Nat} {args : List (List UInt8)} :
    appendArgs allocator str i args =
      appendText allocator str (if i = 0 then lineText args else furtherText args) := by
  induction args generalizing str i with
  | nil => cases i <;> rfl
  | cons arg rest inductionHypothesis =>
      have further (str : UcbStr) : appendArgs allocator str (i + 1) rest =
          appendText allocator str (furtherText rest) := inductionHypothesis
      cases i with
      | zero =>
          simp only [appendArgs, ne_eq, not_true_eq_false, ↓reduceIte, pure_bind, further,
            appendArg_eq, lineText, appendText_append]
      | succ i =>
          simp only [appendArgs, ne_eq, Nat.succ_ne_zero, not_false_eq_true, ↓reduceIte, further,
            appendArg_eq, furtherText, List.flatMap_cons, List.cons_append, appendText_append,
            appendText_cons]

/-! ## Characters that can be appended -/

theorem appendChar_ascii (generous : allocator.Generous) (old : Exact str) (nonzero : c ≠ 0)
    (ascii : c.toNat < 0x80) : ∃ made, processWin32AppendChar allocator str c = .ok made ∧
      Exact made ∧ made.text = str.text ++ [c] :=
  appendCstr_exact generous old (isText_one nonzero ascii)
    (.pointed rfl (.counted [c] [] (List.cons_ne_nil c [])))

theorem appendChar_abort (nonzero : c ≠ 0) (other : ¬ c.toNat < 0x80) :
    processWin32AppendChar allocator str c = .abort .invalidArg := by
  simp [processWin32AppendChar, ucbStrAppendCstr, CstrArg.load, cstrLen,
    verifyCstr_one nonzero other]

/-- ASCII is appended, and anything else aborts. -/
theorem appendText_outcome (generous : allocator.Generous) (noNul : 0 ∉ text) (old : Exact str) :
    if text.all (·.toNat < 0x80) then
      ∃ made, appendText allocator str text = .ok made ∧ Exact made ∧ made.text = str.text ++ text
    else appendText allocator str text = .abort .invalidArg := by
  induction text generalizing str with
  | nil =>
      rw [List.all_nil, if_pos rfl]
      exact ⟨str, rfl, old, (List.append_nil _).symm⟩
  | cons c text inductionHypothesis =>
      obtain ⟨first, later⟩ := not_or.mp (List.mem_cons.not.mp noNul)
      rw [List.all_cons]
      by_cases ascii : c.toNat < 0x80
      · obtain ⟨one, appended, exact_one, content⟩ :=
          appendChar_ascii generous old (Ne.symm first) ascii
        have rest := inductionHypothesis later exact_one
        rw [content, List.append_assoc] at rest
        rw [decide_eq_true ascii, Bool.true_and, appendText_cons, appended, Exec.ok_bind]
        exact rest
      · rw [decide_eq_false ascii, Bool.false_and, if_neg Bool.false_ne_true, appendText_cons,
          appendChar_abort (Ne.symm first) ascii, Exec.abort_bind]

theorem lineText_all {argv : List (List UInt8)} :
    (lineText argv).all (·.toNat < 0x80) = argv.all (·.all (·.toNat < 0x80)) := by
  rw [Bool.eq_iff_iff]
  simp only [List.all_eq_true, decide_eq_true_eq]
  exact forall_lineText (by decide) (by decide) (by decide)

/-- The command line is the text of its arguments if these are ASCII, and else building
it aborts. -/
theorem buildCommandLine_outcome (generous : allocator.Generous) {argv : List (List UInt8)}
    (noNul : ∀ arg ∈ argv, 0 ∉ arg) :
    processWin32BuildCommandLine allocator argv =
      if argv.all (·.all (·.toNat < 0x80)) then .ok (some (lineText argv))
      else .abort .invalidArg := by
  have lineNoNul : 0 ∉ lineText argv := by
    have all : ∀ c ∈ lineText argv, c ≠ 0 := (forall_lineText (by decide) (by decide)
      (by decide)).mpr fun arg member c here same => noNul arg member (same ▸ here)
    exact fun member => all 0 member rfl
  have empty : Exact .interned := ⟨repInv_interned, Nat.zero_le _⟩
  have outcome := appendText_outcome generous lineNoNul empty
  have granted : allocator.grants .malloc strSize = true := generous _ _
  rw [processWin32BuildCommandLine, if_pos granted, appendArgs_eq, if_pos rfl, ← lineText_all]
  split at outcome
  next ascii =>
    obtain ⟨made, appended, isExact, content⟩ := outcome
    obtain ⟨spare, load⟩ := isExact.valid.holds_text.load_terminated isExact.valid.terminated
    have whole : made.text = lineText argv := content
    rw [if_pos ascii, appended, Exec.ok_bind, load, Exec.ok_bind,
      strlen_append _ _ isExact.valid.isText.noNul, Exec.ok_bind, List.take_left, whole]
    rfl
  next other =>
    rw [if_neg other, outcome]
    rfl

end Text

end Ucb.Process
