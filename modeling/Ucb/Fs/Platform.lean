import Ucb.Fs.Frames
import Ucb.Unicode.Utf8Validation

/-!
Contract: what the platform calls do on a POSIX system.

Owns:
- what a path names on a disk;
- `Answers`, what a call may answer and what it leaves, on a system where calls may
  fail and on one where no call fails without need;
- the runs of a program.

A path is read as its components, and any number of separators in front is the root.
A call that fails changes nothing, but what a failed write had written stays. Nobody
else changes anything, and closing a file does not fail or lose what was written to
it. At a name that is not UTF-8 `ucb_dir_next` aborts the process.
-/

namespace Ucb.Fs

open Ucb.Lib Ucb.Path

/-! ## Systems -/

structure Host where
  /-- The style that `ucb_dir_open` canonicalizes with. -/
  conf : UcbPathStyle
  /-- How many links a path may lead through. -/
  links : Nat
  /-- The device that the entries of a directory are on. -/
  device : Loc → Nat
  /-- No call fails if it can succeed. -/
  reliable : Bool

/-- The disk, and what a process has opened. -/
structure System where
  disk : Disk
  opened : Nat
  /-- The names that an iterator has not returned. -/
  dirs : Nat → List Name
  /-- Where an open file is, and the position in it. -/
  files : Nat → Loc × Nat

/-! ## Paths -/

namespace Host

variable (host : Host) (disk : Disk) (path : List UInt8)

/-- Where a path starts. A process may be left without its directory; a directory that has been
removed holds nothing, not even `..`. -/
def start : Except Refusal Loc :=
  if path = [] then .error .missing
  else if isRooted path then .ok []
  else if IsDir (disk.entry disk.cwd) then .ok disk.cwd
  else .error .missing

def leads : Except Refusal Loc := do
  let here ← start disk path
  let place ← disk.tree.walk [dot] dotdot host.links here (pathSegments path)
  pure place.1

def spot : Except Refusal (Spot Name) := do
  let here ← start disk path
  disk.tree.spot [dot] dotdot host.links here (pathSegments path)

/-- Where a path ends if links at its end are followed. -/
def final : Except Refusal Loc := do
  let here ← start disk path
  disk.tree.final [dot] dotdot (host.links + 1) host.links here (pathSegments path)

def finds : Except Refusal Loc := do
  match ← host.spot disk path with
  | .inside loc => pure loc
  | .slot loc => if disk.entry loc = none then .error .missing else pure loc

/-- What a path names if links at its end are followed. -/
def reaches : Except Refusal Loc := do
  let loc ← host.final disk path
  if disk.entry loc = none then .error .missing else pure loc

def vacant : Except Refusal Loc := do
  match ← host.spot disk path with
  | .inside _ => .error .present
  | .slot loc => if disk.entry loc = none then pure loc else .error .present

end Host

def whyNot {α : Type} : Except Refusal α → Option Refusal
  | .ok _ => none
  | .error refusal => some refusal

/-- Why a call cannot find what its paths are to name. -/
def Host.refusal (host : Host) (disk : Disk) : FsCall → Option Refusal
  | .kind path true | .readLink path | .removeFile path | .removeDir path =>
      whyNot (host.finds disk path)
  | .kind path false | .stat path | .setMode path _ | .setMtime path _ | .fileOpen path .read =>
      whyNot (host.reaches disk path)
  | .mkdir path | .createLink _ path _ | .fileOpen path .createExclusive =>
      whyNot (host.vacant disk path)
  | .fileOpen path .createTruncate => whyNot (host.final disk path)
  | .dirOpen path => whyNot (host.leads disk (ucbFsCanon host.conf path))
  | .rename src dst _ => (whyNot (host.finds disk src)).or (whyNot (host.spot disk dst))
  | _ => none

/-- The entries of a rename are in directories of one device. -/
def Host.SameDevice (host : Host) (disk : Disk) (src dst : List UInt8) : Prop :=
  ∃ old new, host.spot disk src = .ok (.slot old) ∧ host.spot disk dst = .ok (.slot new) ∧
    host.device old.tail = host.device new.tail

/-! ## Effects -/

/-- An entry is made or taken away, which is a change of its directory. -/
def Disk.change (disk : Disk) (loc : Loc) (new : Option Entry) (time : Int)
    (fits : disk.Fits loc new) : Disk :=
  (disk.replace loc new fits).touch loc.tail time

def Entry.write (pos : Nat) (chunk : List UInt8) (time : Int) : Entry → Entry
  | file bytes attrs =>
      file (bytes.take pos ++ chunk ++ bytes.drop (pos + chunk.length)) { attrs with mtime := time }
  | entry => entry

def Disk.setAttrs (disk : Disk) (loc : Loc) (change : Attrs → Attrs) : Disk :=
  disk.adjust loc (.setAttrs change) (Entry.node_setAttrs change)

def Entry.truncate (time : Int) : Entry → Entry
  | file _ attrs => file [] { attrs with mtime := time }
  | entry => entry

@[simp] theorem Entry.node_write (pos : Nat) (chunk : List UInt8) (time : Int) (entry : Entry) :
    (entry.write pos chunk time).node = entry.node := by
  cases entry <;> rfl

@[simp] theorem Entry.node_truncate (time : Int) (entry : Entry) :
    (entry.truncate time).node = entry.node := by
  cases entry <;> rfl

namespace System

variable (system : System)

def on (disk : Disk) : System :=
  { system with disk := disk }

def openFile (loc : Loc) : System :=
  { system with
    opened := system.opened + 1
    files := fun file => if file = system.opened then (loc, 0) else system.files file }

def seek (file pos : Nat) : System :=
  { system with
    files := fun other =>
      if other = file then ((system.files file).1, pos) else system.files other }

def openDir (names : List Name) : System :=
  { system with
    opened := system.opened + 1
    dirs := fun dir => if dir = system.opened then names else system.dirs dir }

def leave (dir : Nat) (names : List Name) : System :=
  { system with dirs := fun other => if other = dir then names else system.dirs other }

def wrote (file : Nat) (chunk : List UInt8) (time : Int) : System :=
  (system.on (system.disk.adjust (system.files file).1
    (.write (system.files file).2 chunk time) (Entry.node_write _ chunk time))).seek file
    ((system.files file).2 + chunk.length)

end System

/-- The suffix of `fs_temp_sibling`. -/
def tempSuffix (pid counter : Nat) : List UInt8 :=
  let decimal (n : Nat) : List UInt8 := (Nat.toDigits 10 n).map fun digit => digit.toNat.toUInt8
  [dot, 0x75, 0x63, 0x62, 0x2D, 0x74, 0x6D, 0x70, 0x2D] ++ decimal pid ++ [0x2D] ++ decimal counter

/-! ## Answers -/

/-- An error that a call may be answered with. That something is missing or on another device is
said if it is true only, and where nothing fails without need, what is wrong with a path is
said. -/
structure Host.Truthful (host : Host) (disk : Disk) (op : FsCall) (error : UcbError) : Prop where
  missing : error.code = .errsysEnoent → host.refusal disk op = some .missing
  device : ∀ src dst overwrite, op = .rename src dst overwrite → error.code = errsysExdev →
    ¬ host.SameDevice disk src dst
  told : host.reliable = true → ∀ refusal, host.refusal disk op = some refusal →
    error.code = refusalCode refusal

def Host.Replies {α : Type} (host : Host) (system : System) (op : FsCall)
    (does : α → System → Prop) : Except UcbError α → System → Prop
  | .ok value, after => does value after
  | .error error, after =>
      after = system ∧ host.Truthful system.disk op error ∧
        (host.reliable = true → ∀ value after, ¬ does value after)

/-- `ucb_dir_next` aborts the process at a name that is not UTF-8. -/
def System.Aborts (system : System) : FsCall → Prop
  | .dirNext dir => ∃ name ∈ (system.dirs dir).head?, ¬ Unicode.ValidUtf8 name
  | _ => False

/-- What a call that returns may answer, and what it leaves. -/
def Host.Answers (host : Host) (system : System) : (op : FsCall) → op.Answer → System → Prop
  | .kind path nofollow, answer, after =>
      host.Replies system (.kind path nofollow) (fun kind after => after = system ∧
        ∃ loc entry, (if nofollow then host.finds system.disk path
            else host.reaches system.disk path) = .ok loc ∧
          system.disk.entry loc = some entry ∧ kind = entry.kind) answer after
  | .stat path, answer, after =>
      host.Replies system (.stat path) (fun stat after => after = system ∧
        ∃ loc entry attrs, host.reaches system.disk path = .ok loc ∧
          system.disk.entry loc = some entry ∧ entry.attrs = some attrs ∧
          stat = (attrs.mode, attrs.mtime)) answer after
  | .mkdir path, answer, after =>
      host.Replies system (.mkdir path) (fun _ after => ∃ loc attrs time fits,
        host.vacant system.disk path = .ok loc ∧
        after = system.on (system.disk.change loc (some (.dir attrs)) time fits)) answer after
  | .removeFile path, answer, after =>
      host.Replies system (.removeFile path) (fun _ after => ∃ loc entry time fits,
        host.spot system.disk path = .ok (.slot loc) ∧ system.disk.entry loc = some entry ∧
        ¬ IsDir (some entry) ∧
        after = system.on (system.disk.change loc none time fits)) answer after
  | .removeDir path, answer, after =>
      host.Replies system (.removeDir path) (fun _ after => ∃ loc time fits,
        host.spot system.disk path = .ok (.slot loc) ∧ IsDir (system.disk.entry loc) ∧
        after = system.on (system.disk.change loc none time fits)) answer after
  | .rename src dst overwrite, answer, after =>
      host.Replies system (.rename src dst overwrite) (fun _ after =>
        host.SameDevice system.disk src dst ∧ ∃ old new,
          host.spot system.disk src = .ok (.slot old) ∧
          host.spot system.disk dst = .ok (.slot new) ∧
          ((old = new ∧ system.disk.entry new ≠ none ∧ after = system) ∨
            ∃ movable : system.disk.Movable old new, ∃ left entered,
              (system.disk.entry new = none ∨
                (IsDir (system.disk.entry old) ↔ IsDir (system.disk.entry new))) ∧
              after = system.on (((system.disk.move old new movable).touch old.tail left).touch
                new.tail entered))) answer after
  | .setMode path mode, answer, after =>
      host.Replies system (.setMode path mode) (fun _ after => ∃ loc,
        host.reaches system.disk path = .ok loc ∧
        after = system.on (system.disk.setAttrs loc fun attrs => { attrs with mode := mode }))
        answer after
  | .setMtime path mtime, answer, after =>
      host.Replies system (.setMtime path mtime) (fun _ after => ∃ loc,
        host.reaches system.disk path = .ok loc ∧
        after = system.on (system.disk.setAttrs loc fun attrs => { attrs with mtime := mtime }))
        answer after
  | .readLink path, answer, after =>
      host.Replies system (.readLink path) (fun target after => after = system ∧
        ∃ loc, host.finds system.disk path = .ok loc ∧
          system.disk.entry loc = some (.link target)) answer after
  | .createLink target path targetIsDir, answer, after =>
      host.Replies system (.createLink target path targetIsDir) (fun _ after => ∃ loc time fits,
        host.vacant system.disk path = .ok loc ∧
        after = system.on (system.disk.change loc (some (.link target)) time fits)) answer after
  | .dirOpen path, answer, after =>
      host.Replies system (.dirOpen path) (fun dir after => ∃ loc names,
        host.leads system.disk (ucbFsCanon host.conf path) = .ok loc ∧ names.Nodup ∧
        (∀ name, name ∈ names ↔ system.disk.entry (name :: loc) ≠ none) ∧
        dir = system.opened ∧ after = system.openDir names) answer after
  | .dirNext dir, answer, after =>
      host.Replies system (.dirNext dir) (fun item after =>
        item = (system.dirs dir).head? ∧ after = system.leave dir (system.dirs dir).tail)
        answer after ∧ ((∃ error, answer = .error error) ∨ ¬ system.Aborts (.dirNext dir))
  | .dirFree _, _, after => after = system
  | .fileOpen path .read, answer, after =>
      host.Replies system (.fileOpen path .read) (fun file after => ∃ loc,
        host.reaches system.disk path = .ok loc ∧ ¬ IsDir (system.disk.entry loc) ∧
        file = system.opened ∧ after = system.openFile loc) answer after
  | .fileOpen path .createExclusive, answer, after =>
      host.Replies system (.fileOpen path .createExclusive) (fun file after =>
        ∃ loc attrs time fits, host.vacant system.disk path = .ok loc ∧ file = system.opened ∧
        after = (system.on (system.disk.change loc (some (.file [] attrs)) time fits)).openFile loc)
        answer after
  | .fileOpen path .createTruncate, answer, after =>
      host.Replies system (.fileOpen path .createTruncate) (fun file after =>
        ∃ loc, host.final system.disk path = .ok loc ∧ file = system.opened ∧
        ((system.disk.entry loc = none ∧ ∃ attrs time fits, after =
            (system.on (system.disk.change loc (some (.file [] attrs)) time fits)).openFile loc) ∨
          (system.disk.entry loc ≠ none ∧ ¬ IsDir (system.disk.entry loc) ∧ ∃ time, after =
            (system.on (system.disk.adjust loc (.truncate time)
              (Entry.node_truncate time))).openFile loc))) answer after
  | .fileRead file size, answer, after =>
      host.Replies system (.fileRead file size) (fun chunk after => chunk.length ≤ size ∧
        (∀ bytes attrs, system.disk.entry (system.files file).1 = some (.file bytes attrs) →
          chunk <+: bytes.drop (system.files file).2 ∧
            (chunk = [] → bytes.drop (system.files file).2 = [])) ∧
        after = system.seek file ((system.files file).2 + chunk.length)) answer after
  | .fileWriteFull file bytes, .ok _, after => ∃ time, after = system.wrote file bytes time
  | .fileWriteFull file bytes, .error error, after =>
      host.reliable = false ∧ host.Truthful system.disk (.fileWriteFull file bytes) error ∧
        ∃ part time, part <+: bytes ∧ after = system.wrote file part time
  | .fileFree _, _, after => after = system
  | .tempSuffix, suffix, after => after = system ∧ ∃ pid counter, suffix = tempSuffix pid counter

/-! ## Runs -/

/-- A run of a program: the systems it goes through, and its result or nothing where it runs out
of fuel or is aborted. -/
inductive FsProg.Runs (host : Host) {α : Type} :
    FsProg α → System → List System → Option α → System → Prop where
  | ret (value : α) (system : System) : Runs host (.ret value) system [] (some value) system
  | exhausted (system : System) : Runs host .exhausted system [] none system
  | aborted {op : FsCall} {next : op.Answer → FsProg α} {system : System}
      (aborts : system.Aborts op) : Runs host (.call op next) system [] none system
  | call {op : FsCall} {next : op.Answer → FsProg α} {system after last : System}
      {answer : op.Answer} {visited : List System} {result : Option α}
      (answers : host.Answers system op answer after)
      (rest : Runs host (next answer) after visited result last) :
      Runs host (.call op next) system (after :: visited) result last

/-- The same system, but every call may fail. -/
def Host.careless (host : Host) : Host :=
  { host with reliable := false }

section Careless

variable {host : Host} {system after : System}

theorem Host.Truthful.careless {op : FsCall} {error : UcbError}
    (truthful : host.Truthful system.disk op error) :
    host.careless.Truthful system.disk op error :=
  ⟨truthful.missing, truthful.device, fun absent => absurd absent Bool.false_ne_true⟩

theorem Host.Replies.careless {α : Type} {op : FsCall} {does : α → System → Prop}
    {answer : Except UcbError α} (replies : host.Replies system op does answer after) :
    host.careless.Replies system op does answer after := by
  cases answer with
  | ok value => exact replies
  | error error =>
      exact ⟨replies.1, replies.2.1.careless, fun absent => absurd absent Bool.false_ne_true⟩

theorem Host.Answers.careless {op : FsCall} {answer : op.Answer}
    (answers : host.Answers system op answer after) :
    host.careless.Answers system op answer after := by
  cases op with
  | dirNext dir => exact ⟨Replies.careless answers.1, answers.2⟩
  | dirFree dir => exact answers
  | fileFree file => exact answers
  | tempSuffix => exact answers
  | fileWriteFull file bytes =>
      cases answer with
      | ok value => exact answers
      | error error => exact ⟨rfl, answers.2.1.careless, answers.2.2⟩
  | fileOpen path mode =>
      cases mode with
      | read => exact Replies.careless answers
      | createExclusive => exact Replies.careless answers
      | createTruncate => exact Replies.careless answers
  | _ => exact Replies.careless answers

/-- What a reliable system does another one may do. -/
theorem FsProg.Runs.careless {α : Type} {prog : FsProg α} {last : System}
    {visited : List System} {result : Option α}
    (runs : prog.Runs host system visited result last) :
    prog.Runs host.careless system visited result last := by
  induction runs with
  | ret value system => exact .ret value system
  | exhausted system => exact .exhausted system
  | aborted aborts => exact .aborted aborts
  | call answers rest inductionHypothesis => exact .call answers.careless inductionHypothesis

end Careless

/-- Whatever the calls answer: every disk on the way keeps an invariant, and the result fits.
Only where calls fail may the program run out of fuel or be aborted. -/
def FsProg.Ensures (host : Host) (inv : Disk → Prop) {α : Type} :
    FsProg α → System → (α → System → Prop) → Prop
  | .ret value, system, post => post value system
  | .call op next, system, post =>
      (system.Aborts op → host.reliable = false) ∧
        ∀ answer after, host.Answers system op answer after →
          inv after.disk ∧ (next answer).Ensures host inv after post
  | .exhausted, _, _ => host.reliable = false

theorem FsProg.Ensures.runs {host : Host} {inv : Disk → Prop} {α : Type} {prog : FsProg α}
    {system last : System} {post : α → System → Prop} {visited : List System} {result : Option α}
    (ensures : prog.Ensures host inv system post)
    (runs : prog.Runs host system visited result last) :
    (∀ passed ∈ visited, inv passed.disk) ∧
      ((∃ value, result = some value ∧ post value last) ∨
        (result = none ∧ host.reliable = false)) := by
  induction runs with
  | ret value system =>
      exact ⟨fun passed absent => absurd absent List.not_mem_nil, .inl ⟨value, rfl, ensures⟩⟩
  | exhausted system =>
      exact ⟨fun passed absent => absurd absent List.not_mem_nil, .inr ⟨rfl, ensures⟩⟩
  | aborted aborts =>
      exact ⟨fun passed absent => absurd absent List.not_mem_nil, .inr ⟨rfl, ensures.1 aborts⟩⟩
  | call answers rest inductionHypothesis =>
      obtain ⟨here, behind⟩ := ensures.2 _ _ answers
      obtain ⟨visited, ends⟩ := inductionHypothesis behind
      refine ⟨fun passed member => ?_, ends⟩
      rcases List.mem_cons.mp member with rfl | later
      · exact here
      · exact visited passed later

/-! ## A small system -/

def bareDisk : Disk where
  entry := fun loc => if loc = [] then some (.dir ⟨0o755, 0⟩) else none
  root := ⟨_, rfl⟩
  above := fun _ _ some => absurd rfl some
  named := fun _ _ some => absurd rfl some
  finite :=
    ⟨[[]], fun _ some => List.mem_singleton.mpr (by_contra fun other => some (if_neg other))⟩
  cwd := []

theorem fits_sampleDir : bareDisk.Fits [[0x64]] (some (.dir ⟨0o755, 1⟩)) :=
  ⟨by decide, fun _ => ⟨_, rfl⟩, fun _ name isName => by
    obtain rfl := Option.some.inj isName
    decide, fun absent => absurd ⟨_, rfl⟩ absent⟩

def dirDisk : Disk := bareDisk.replace [[0x64]] _ fits_sampleDir

theorem fits_sampleFile : dirDisk.Fits [[0x66], [0x64]] (some (.file [1, 2] ⟨0o644, 2⟩)) :=
  ⟨by decide, fun _ => ⟨_, rfl⟩, fun _ name isName => by
    obtain rfl := Option.some.inj isName
    decide, fun _ name => if_neg (by simp)⟩

/-- The directory `/d` with the file `/d/f`. -/
def sampleDisk : Disk := dirDisk.replace [[0x66], [0x64]] _ fits_sampleFile

def sampleHost : Host :=
  { conf := .posix, links := 8, device := fun _ => 0, reliable := true }

def sampleSystem : System :=
  { disk := sampleDisk, opened := 0, dirs := fun _ => [], files := fun _ => ([], 0) }

end Ucb.Fs
