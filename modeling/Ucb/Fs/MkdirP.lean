import Ucb.Fs.Canon
import Ucb.Lib.FileTree
import Ucb.Path.Ancestors

/-!
Contract: `ucb_fs_mkdir_p` on a file system that nobody else changes.

Owns:
- the answers of `mkdir` and `lstat` over a tree of directories and links, and any
  other failure of a call at any time;
- that the recursion ends, what is there when it succeeds, what it has changed, and
  why it fails.

A path is read as its components, and any number of separators in front is the root.
The current directory exists. Calls are numbered, and may fail by their number.
-/

namespace Ucb.Fs

open Ucb.Lib Ucb.Path

/-! ## A file system -/

/-- A failure for another reason than that an entry is missing or present. -/
def OtherError : Type :=
  { error : UcbError // error.code ≠ .errsysEnoent ∧ error.code ≠ .errsysEexist }

/-- A file system and a process in it. -/
structure World where
  tree : FileTree (List UInt8)
  /-- How many links a path may lead through. -/
  links : Nat
  /-- The calls that fail whatever the tree, by number. -/
  fails : Nat → Option OtherError
  calls : Nat
  /-- The calls that have failed. -/
  failed : List (FsCall × UcbError)

/-- What `errno` says of a path that does not name what it is asked for. -/
def refusalCode : Refusal → UcbEcode
  | .missing => .errsysEnoent
  | .notDir => .errsysEnotdir
  | .loop => .errsysOther 40
  | .present => .errsysEexist

/-- `fs_unix_kind_from_mode`. -/
def nodeKind : Node (List UInt8) → UcbFsKind
  | .dir => .dir
  | .file => .file
  | .other => .other
  | .link _ _ => .symlink

theorem refusalCode_missing_iff (refusal : Refusal) :
    refusalCode refusal = .errsysEnoent ↔ refusal = .missing := by
  cases refusal <;> simp [refusalCode]

theorem refusalCode_present_iff (refusal : Refusal) :
    refusalCode refusal = .errsysEexist ↔ refusal = .present := by
  cases refusal <;> simp [refusalCode]

theorem nodeKind_dir_iff (node : Node (List UInt8)) : nodeKind node = .dir ↔ node = .dir := by
  cases node <;> simp [nodeKind]

namespace World

def passed (world : World) : World :=
  { world with calls := world.calls + 1 }

def refused (world : World) (op : FsCall) (error : UcbError) : World :=
  { world with calls := world.calls + 1, failed := (op, error) :: world.failed }

def leadsTo (world : World) (rooted : Bool) (comps : List (List UInt8)) :
    Except Refusal (List (List UInt8) × Nat) :=
  world.tree.walk [dot] dotdot world.links (world.tree.start rooted) comps

/-- What a path names if a link at its end is not followed. -/
def entry (world : World) (rooted : Bool) (comps : List (List UInt8)) :
    Except Refusal (Node (List UInt8)) :=
  world.tree.entry [dot] dotdot world.links (world.tree.start rooted) comps

/-- What `lstat` finds at a path. -/
def finds (world : World) (path : List UInt8) : Except Refusal (Node (List UInt8)) :=
  if path = [] then .error .missing else world.entry (isRooted path) (pathSegments path)

/-- What `mkdir` makes of the tree. -/
def makes (world : World) (path : List UInt8) : Except Refusal (FileTree (List UInt8)) :=
  if path = [] then .error .missing
  else
    world.tree.makeDir [dot] dotdot world.links (world.tree.start (isRooted path))
      (pathSegments path)

def mkdir (world : World) (path : List UInt8) : Except UcbError Unit × World :=
  match world.fails world.calls with
  | some error => (.error error.1, world.refused (.mkdir path) error.1)
  | none =>
      match world.makes path with
      | .ok tree => (.ok (), { world.passed with tree := tree })
      | .error refusal =>
          let error := ⟨refusalCode refusal, "ucb_fs_mkdir: mkdir failed"⟩
          (.error error, world.refused (.mkdir path) error)

/-- `ucb_fs_plat_kind` with `UCB_FS_NOFOLLOW`. -/
def kind (world : World) (path : List UInt8) : Except UcbError UcbFsKind × World :=
  match world.fails world.calls with
  | some error => (.error error.1, world.refused (.kind path true) error.1)
  | none =>
      match world.finds path with
      | .ok node => (.ok (nodeKind node), world.passed)
      | .error refusal =>
          let error := ⟨refusalCode refusal, "filesystem query failed"⟩
          (.error error, world.refused (.kind path true) error)

/-- The answer to a call, and the world behind it. `fs_mkdir_p` makes no other calls. -/
def answer (world : World) : (op : FsCall) → Option (op.Answer × World)
  | .mkdir path => some (world.mkdir path)
  | .kind path true => some (world.kind path)
  | _ => none

end World

/-- A program run in a world; nothing where it runs out of fuel. -/
def FsProg.runOn {α : Type} : FsProg α → World → Option (α × World)
  | .ret value, world => some (value, world)
  | .call op next, world =>
      (world.answer op).bind fun answered => (next answered.1).runOn answered.2
  | .exhausted, _ => none

def ucbFsMkdirP (conf : UcbPathStyle) (fuel : Nat) (path : List UInt8) : FsM Unit := do
  fsCheckPath path
  fsMkdirP conf fuel (ucbFsCanon conf path)

/-! ## Running a program -/

section Running

variable {α β : Type} {world made : World}

theorem runOn_bind (first : FsProg α) (next : α → FsProg β) (world : World) :
    (first >>= next).runOn world =
      (first.runOn world).bind fun reached => (next reached.1).runOn reached.2 := by
  induction first generalizing world with
  | ret value => rfl
  | exhausted => rfl
  | call op rest inductionHypothesis =>
      show ((world.answer op).bind fun answered => (rest answered.1 >>= next).runOn answered.2) = _
      simp only [inductionHypothesis]
      exact (Option.bind_assoc _ _ _).symm

theorem runOn_ok {first : FsM α} {value : α} (next : α → FsM β)
    (run : first.run.runOn world = some (.ok value, made)) :
    (first >>= next).run.runOn world = (next value).run.runOn made := by
  show (first.run >>= ExceptT.bindCont next).runOn world = _
  rw [runOn_bind, run]
  rfl

theorem runOn_error {first : FsM α} {error : UcbError} (next : α → FsM β)
    (run : first.run.runOn world = some (.error error, made)) :
    (first >>= next).run.runOn world = some (.error error, made) := by
  show (first.run >>= ExceptT.bindCont next).runOn world = _
  rw [runOn_bind, run]
  rfl

theorem runOn_outcome {first : FsM α} {result : Except UcbError α}
    (run : first.run.runOn world = some (result, made)) :
    (outcome first).run.runOn world = some (.ok result, made) := by
  show (first.run >>= fun result => pure (Except.ok result)).runOn world = _
  rw [runOn_bind, run]
  rfl

theorem runOn_mkdir {path : List UInt8} {result : Except UcbError Unit}
    (step : world.mkdir path = (result, made)) :
    (platform (α := Unit) (.mkdir path) rfl).run.runOn world = some (result, made) := by
  show some ((world.mkdir path).1, (world.mkdir path).2) = _
  rw [step]

theorem runOn_kind {path : List UInt8} {result : Except UcbError UcbFsKind}
    (step : world.kind path = (result, made)) :
    (platform (α := UcbFsKind) (.kind path true) rfl).run.runOn world = some (result, made) := by
  show some ((world.kind path).1, (world.kind path).2) = _
  rw [step]

end Running

/-! ## The steps of the recursion -/

section Steps

variable {conf : UcbPathStyle} {fuel : Nat} {canon : List UInt8} {world made asked : World}

theorem mkdirP_made (step : world.mkdir canon = (.ok (), made)) :
    (fsMkdirP conf (fuel + 1) canon).run.runOn world = some (.ok (), made) := by
  rw [fsMkdirP, runOn_ok _ (runOn_outcome (runOn_mkdir step))]
  rfl

def notDirectory : UcbError :=
  ⟨.errsysEnotdir, "ucb_fs_mkdir_p: an existing component is not a directory"⟩

theorem mkdirP_present {lerr : UcbError} (step : world.mkdir canon = (.error lerr, made))
    (present : lerr.code = .errsysEexist) {kind : UcbFsKind}
    (found : made.kind canon = (.ok kind, asked)) :
    (fsMkdirP conf (fuel + 1) canon).run.runOn world =
      some (if kind = .dir then .ok () else .error notDirectory, asked) := by
  rw [fsMkdirP, runOn_ok _ (runOn_outcome (runOn_mkdir step))]
  dsimp only
  rw [if_pos present, runOn_ok _ (runOn_kind found)]
  split
  · rfl
  · rfl

theorem mkdirP_unasked {lerr kerr : UcbError} (step : world.mkdir canon = (.error lerr, made))
    (present : lerr.code = .errsysEexist) (failed : made.kind canon = (.error kerr, asked)) :
    (fsMkdirP conf (fuel + 1) canon).run.runOn world = some (.error kerr, asked) := by
  rw [fsMkdirP, runOn_ok _ (runOn_outcome (runOn_mkdir step))]
  dsimp only
  rw [if_pos present, runOn_error _ (runOn_kind failed)]

theorem mkdirP_failed {lerr : UcbError} (step : world.mkdir canon = (.error lerr, made))
    (notPresent : lerr.code ≠ .errsysEexist) (notMissing : lerr.code ≠ .errsysEnoent) :
    (fsMkdirP conf (fuel + 1) canon).run.runOn world = some (.error lerr, made) := by
  rw [fsMkdirP, runOn_ok _ (runOn_outcome (runOn_mkdir step))]
  dsimp only
  rw [if_neg notPresent, if_pos notMissing]
  rfl

section Missing

variable {lerr : UcbError} (step : world.mkdir canon = (.error lerr, made))
  (missing : lerr.code = .errsysEnoent)
  (above : ¬ (ucbFsParent conf canon = [] ∨ ucbFsParent conf canon = canon))
include step missing above

theorem mkdirP_above_failed {error : UcbError}
    (failed : (fsMkdirP conf fuel (ucbFsParent conf canon)).run.runOn made =
      some (.error error, asked)) :
    (fsMkdirP conf (fuel + 1) canon).run.runOn world = some (.error error, asked) := by
  rw [fsMkdirP, runOn_ok _ (runOn_outcome (runOn_mkdir step))]
  dsimp only
  rw [if_neg (by rw [missing]; decide), if_neg (not_not_intro missing), if_neg above,
    runOn_error _ failed]

/-- With the parent there, `mkdir` is asked again, and an entry is no failure. -/
theorem mkdirP_again {after : World} {result : Except UcbError Unit}
    (there : (fsMkdirP conf fuel (ucbFsParent conf canon)).run.runOn made = some (.ok (), asked))
    (again : asked.mkdir canon = (result, after)) :
    (fsMkdirP conf (fuel + 1) canon).run.runOn world =
      some (result.tryCatch fun lerr =>
        if lerr.code = .errsysEexist then .ok () else .error lerr, after) := by
  rw [fsMkdirP, runOn_ok _ (runOn_outcome (runOn_mkdir step))]
  dsimp only
  rw [if_neg (by rw [missing]; decide), if_neg (not_not_intro missing), if_neg above,
    runOn_ok _ there, runOn_ok _ (runOn_outcome (runOn_mkdir again))]
  cases result with
  | ok value => rfl
  | error lerr =>
      show (if lerr.code = .errsysEexist then pure () else throw lerr : FsM Unit).run.runOn after =
        some (if lerr.code = .errsysEexist then .ok () else .error lerr, after)
      split
      · rfl
      · rfl

end Missing

/-- The recursion returns, with fuel for every component of the path. -/
def Returns (conf : UcbPathStyle) (comps : List (List UInt8)) (canon : List UInt8) (world : World)
    (result : Except UcbError Unit) (after : World) : Prop :=
  ∀ fuel, comps.length < fuel →
    (fsMkdirP conf fuel canon).run.runOn world = some (result, after)

theorem returns_of_succ {comps : List (List UInt8)} {result : Except UcbError Unit}
    (run : ∀ fuel, (fsMkdirP conf (fuel + 1) canon).run.runOn world = some (result, made)) :
    Returns conf comps canon world result made := by
  intro fuel enough
  obtain ⟨fuel, rfl⟩ := Nat.exists_eq_add_one_of_ne_zero (Nat.ne_of_gt (Nat.zero_lt_of_lt enough))
  exact run fuel

/-- The recursion goes on with one component less. -/
theorem Returns.above {front : List (List UInt8)} (last : List UInt8) {parent : List UInt8}
    {result result' : Except UcbError Unit} (returns : Returns conf front parent made result asked)
    {after : World}
    (run : ∀ fuel, (fsMkdirP conf fuel parent).run.runOn made = some (result, asked) →
      (fsMkdirP conf (fuel + 1) canon).run.runOn world = some (result', after)) :
    Returns conf (front ++ [last]) canon world result' after := by
  intro fuel enough
  rw [List.length_append, List.length_singleton] at enough
  obtain ⟨fuel, rfl⟩ := Nat.exists_eq_add_one_of_ne_zero (Nat.ne_of_gt (Nat.zero_lt_of_lt enough))
  exact run fuel (returns fuel (by omega))

end Steps

/-! ## Paths -/

structure Composed (lead : Nat) (comps : List (List UInt8)) (text : List UInt8) : Prop where
  few : lead ≤ 2
  proper : Proper comps
  text_eq : text = List.replicate lead slash ++ joined comps
  nonempty : text ≠ []

section Texts

variable {conf : UcbPathStyle} {lead : Nat} {comps : List (List UInt8)} {text : List UInt8}

theorem Composed.isRooted (composed : Composed lead comps text) :
    isRooted text = decide (lead ≠ 0) := by
  rw [Ucb.Path.isRooted, composed.text_eq, leadCount_replicate (joined_head composed.proper)]

theorem Composed.pathSegments (composed : Composed lead comps text) :
    pathSegments text = comps := by
  rw [Ucb.Path.pathSegments, composed.text_eq, segments_seps_append]
  · exact pathSegments_joined composed.proper
  · intro c member
    rw [List.eq_of_mem_replicate member]
    decide

/-- The parent of a path that is parsed again is the path without its last component. -/
theorem fsParent_text (posix : WritesSlash conf) (composed : Composed lead comps text) :
    ucbFsParent conf text = List.replicate lead slash ++ joined comps.dropLast := by
  obtain ⟨lead', comps', parsed⟩ := StandsFor.parse text posix
  have same := parsed.compose
  have nonempty := composed.nonempty
  rw [composed.text_eq] at nonempty
  rw [composed.text_eq, compose_parse_replicate posix composed.few composed.proper nonempty] at same
  obtain ⟨rfl, rfl⟩ := composed_inj composed.proper parsed.proper same
  exact parsed.parent.compose

/-- A path of two components or more has a parent, which is another path. -/
theorem fsParent_above (posix : WritesSlash conf) {front : List (List UInt8)} {last : List UInt8}
    (composed : Composed lead (front ++ [last]) text) (above : front ≠ []) :
    Composed lead front (ucbFsParent conf text) ∧
      ¬ (ucbFsParent conf text = [] ∨ ucbFsParent conf text = text) := by
  have parent := fsParent_text posix composed
  rw [List.dropLast_concat] at parent
  have properFront := composed.proper.left
  have nonempty : ucbFsParent conf text ≠ [] := by
    rw [parent]
    simp [(joined_getLast properFront above).1]
  refine ⟨⟨composed.few, properFront, parent, nonempty⟩, ?_⟩
  rintro (empty | same)
  · exact nonempty empty
  · rw [parent, composed.text_eq] at same
    have front_eq := (composed_inj properFront composed.proper same).2
    simpa using congrArg List.length front_eq

end Texts

def ParentsFirst (comps : List (List UInt8)) : Prop :=
  ∃ count names, comps = List.replicate count dotdot ++ names ∧ dotdot ∉ names

theorem ParentsFirst.front {front : List (List UInt8)} {last : List UInt8}
    (first : ParentsFirst (front ++ [last])) :
    ParentsFirst front ∧ (last = dotdot → ∃ count, front = List.replicate count dotdot) := by
  obtain ⟨count, names, split, none⟩ := first
  rcases List.eq_nil_or_concat' names with rfl | ⟨more, final, rfl⟩
  · rw [List.append_nil] at split
    have all : front = List.replicate front.length dotdot := by
      rw [List.eq_replicate_iff]
      refine ⟨rfl, fun comp member => ?_⟩
      have inside : comp ∈ List.replicate count dotdot := by
        rw [← split]
        exact List.mem_append_left _ member
      exact List.eq_of_mem_replicate inside
    exact ⟨⟨front.length, [], by simpa using all, List.not_mem_nil⟩, fun _ => ⟨_, all⟩⟩
  · rw [← List.append_assoc] at split
    obtain ⟨front_eq, same⟩ := List.append_inj' split rfl
    obtain rfl : last = final := by simpa using same
    refine ⟨⟨count, more, front_eq, fun member => none (List.mem_append_left _ member)⟩, ?_⟩
    rintro rfl
    exact absurd (List.mem_append_right _ (List.mem_singleton_self _)) none

/-! ## One call -/

namespace World

/-- A call has failed for another reason than that something is missing or present. -/
def FailedWith (after : World) (error : UcbError) : Prop :=
  error.code ≠ .errsysEnoent ∧ error.code ≠ .errsysEexist ∧ ∃ op, (op, error) ∈ after.failed

theorem mkdir_made {world : World} {path : List UInt8} {tree : FileTree (List UInt8)}
    (noFail : world.fails world.calls = none) (makes : world.makes path = .ok tree) :
    world.mkdir path = (.ok (), { world.passed with tree := tree }) := by
  rw [World.mkdir, noFail, makes]

theorem mkdir_refused {world : World} {path : List UInt8} {refusal : Refusal}
    (noFail : world.fails world.calls = none) (makes : world.makes path = .error refusal) :
    world.mkdir path = (.error ⟨refusalCode refusal, "ucb_fs_mkdir: mkdir failed"⟩,
      world.refused (.mkdir path) ⟨refusalCode refusal, "ucb_fs_mkdir: mkdir failed"⟩) := by
  rw [World.mkdir, noFail, makes]

theorem kind_found {world : World} {path : List UInt8} {node : Node (List UInt8)}
    (noFail : world.fails world.calls = none) (finds : world.finds path = .ok node) :
    world.kind path = (.ok (nodeKind node), world.passed) := by
  rw [World.kind, noFail, finds]

theorem mkdir_cases (world : World) (path : List UInt8) :
    ∃ result after, world.mkdir path = (result, after) ∧ after.links = world.links ∧
      ((result = .ok () ∧ world.makes path = .ok after.tree) ∨
        (after.tree = world.tree ∧ ∃ error, result = .error error ∧
          ((∃ refusal, world.makes path = .error refusal ∧ error.code = refusalCode refusal ∧
              (.mkdir path, error) ∈ after.failed) ∨ after.FailedWith error))) := by
  unfold World.mkdir
  cases fault : world.fails world.calls with
  | some error =>
      exact ⟨_, _, rfl, rfl, .inr ⟨rfl, _, rfl, .inr ⟨error.2.1, error.2.2, _,
        List.mem_cons_self⟩⟩⟩
  | none =>
      cases makes : world.makes path with
      | ok tree => exact ⟨_, _, rfl, rfl, .inl ⟨rfl, rfl⟩⟩
      | error refusal =>
          exact ⟨_, _, rfl, rfl, .inr ⟨rfl, _, rfl, .inl ⟨refusal, rfl, rfl, List.mem_cons_self⟩⟩⟩

theorem kind_cases (world : World) {path : List UInt8} {node : Node (List UInt8)}
    (found : world.finds path = .ok node) :
    ∃ result after, world.kind path = (result, after) ∧ after.links = world.links ∧
      after.tree = world.tree ∧
      (result = .ok (nodeKind node) ∨ ∃ error, result = .error error ∧ after.FailedWith error) := by
  unfold World.kind
  cases fault : world.fails world.calls with
  | some error =>
      exact ⟨_, _, rfl, rfl, rfl, .inr ⟨_, rfl, error.2.1, error.2.2, _, List.mem_cons_self⟩⟩
  | none =>
      rw [found]
      exact ⟨_, _, rfl, rfl, rfl, .inl rfl⟩

end World

/-! ## The whole recursion -/

/-- What has become of a file system in which a path was to be made a directory. -/
structure MadeRight (rooted : Bool) (comps : List (List UInt8)) (world after : World)
    (result : Except UcbError Unit) : Prop where
  grows : world.tree.Grows after.tree
  links : after.links = world.links
  /-- What is new are directories that a part of the path in front leads to. -/
  created : ∀ loc, world.tree.node loc = none → after.tree.node loc ≠ none →
    after.tree.node loc = some .dir ∧
      ∃ front left, front <+: comps ∧ after.leadsTo rooted front = .ok (loc, left)
  dir : result = .ok () → after.entry rooted comps = .ok .dir
  /-- The path was a directory, or it leads to a new and empty one. -/
  there : result = .ok () →
    ((∃ place, world.leadsTo rooted comps = .ok place) ∧ after.tree = world.tree) ∨
      ∃ place, after.leadsTo rooted comps = .ok place ∧ world.tree.node place.1 = none ∧
        ∀ name, after.tree.node (name :: place.1) = none
  /-- Something that is no directory is in the way, or a call failed for another reason. -/
  failed : ∀ error, result = .error error →
    after.FailedWith error ∨
      (error = notDirectory ∧ ∃ front node, front <+: comps ∧ world.entry rooted front = .ok node ∧
        node ≠ .dir ∧ (front = comps ∨ ∃ refusal, world.leadsTo rooted front = .error refusal))

section Recursion

variable {rooted : Bool} {comps : List (List UInt8)} {world made after : World}

theorem leadsTo_congr (tree : after.tree = world.tree) (links : after.links = world.links) :
    after.leadsTo rooted comps = world.leadsTo rooted comps := by
  rw [World.leadsTo, World.leadsTo, tree, links]

theorem entry_congr (tree : after.tree = world.tree) (links : after.links = world.links) :
    after.entry rooted comps = world.entry rooted comps := by
  rw [World.entry, World.entry, tree, links]

theorem World.start_dir (world : World) (rooted : Bool) :
    world.tree.node (world.tree.start rooted) = some .dir := by
  cases rooted with
  | true => exact world.tree.root
  | false => exact world.tree.cwd_dir

/-- What leads somewhere still does in a tree that has grown. -/
theorem leadsTo_grows (grows : world.tree.Grows after.tree) (links : after.links = world.links)
    {place : List (List UInt8) × Nat} (leads : world.leadsTo rooted comps = .ok place) :
    after.leadsTo rooted comps = .ok place := by
  rw [World.leadsTo, links, grows.start]
  exact grows.walk leads

theorem madeRight_same (tree : after.tree = world.tree) (links : after.links = world.links)
    {result : Except UcbError Unit}
    (dir : result = .ok () → world.entry rooted comps = .ok .dir)
    (failed : ∀ error, result = .error error → after.FailedWith error ∨
      (error = notDirectory ∧ ∃ front node, front <+: comps ∧ world.entry rooted front = .ok node ∧
        node ≠ .dir ∧ (front = comps ∨ ∃ refusal, world.leadsTo rooted front = .error refusal))) :
    MadeRight rooted comps world after result where
  grows := by
    rw [tree]
    exact .refl _
  links := links
  created := by
    intro loc none some
    rw [tree] at some
    exact absurd none some
  dir := fun ok => (entry_congr tree links).trans (dir ok)
  there := fun ok => .inl ⟨FileTree.walk_of_entry (dir ok), tree⟩
  failed := failed

/-- A path leads to a directory that is new and empty, and nothing else is new. -/
structure NewDir (rooted : Bool) (comps : List (List UInt8)) (world after : World)
    (place : List (List UInt8) × Nat) : Prop where
  grows : world.tree.Grows after.tree
  leads : after.leadsTo rooted comps = .ok place
  new : world.tree.node place.1 = none
  dir : after.tree.node place.1 = some .dir
  entry : after.entry rooted comps = .ok .dir
  empty : ∀ name, after.tree.node (name :: place.1) = none
  only : ∀ loc, loc ≠ place.1 → after.tree.node loc = world.tree.node loc

theorem newDir_of_makes {text : List UInt8} {lead : Nat} (composed : Composed lead comps text)
    (links : after.links = world.links) (makes : world.makes text = .ok after.tree) :
    ∃ place, NewDir (decide (lead ≠ 0)) comps world after place := by
  rw [World.makes, if_neg composed.nonempty, composed.isRooted, composed.pathSegments] at makes
  obtain ⟨front, last, place, dir, rfl, leads, notCur, notParent, new, tree⟩ :=
    FileTree.makeDir_ok makes
  have grows : world.tree.Grows after.tree := by
    rw [tree]
    exact FileTree.grows_addDir dir new
  have there : after.tree.node (last :: place.1) = some .dir := by rw [tree, FileTree.addDir_node]
  have before : after.leadsTo (decide (lead ≠ 0)) front = .ok place :=
    leadsTo_grows grows links leads
  refine ⟨(last :: place.1, place.2), grows, ?_, new, there, ?_, ?_, ?_⟩
  · rw [World.leadsTo] at before ⊢
    rw [FileTree.walk_append, before]
    show FileTree.walk _ _ after.tree place.2 place.1 [last] = _
    rw [FileTree.walk, if_neg notCur, if_neg notParent, there]
    exact FileTree.walk_nil
  · rw [World.entry, FileTree.entry_concat before, if_neg (not_or.mpr ⟨notCur, notParent⟩), there]
    rfl
  · rw [tree]
    exact FileTree.addDir_empty dir new
  · intro loc old
    rw [tree]
    exact if_neg old

/-- A directory has been made where there was nothing. -/
theorem NewDir.madeRight {place : List (List UInt8) × Nat}
    (newDir : NewDir rooted comps world after place) (links : after.links = world.links) :
    MadeRight rooted comps world after (.ok ()) where
  grows := newDir.grows
  links := links
  created := by
    intro loc none some
    by_cases added : loc = place.1
    · subst added
      exact ⟨newDir.dir, _, _, List.prefix_rfl, newDir.leads⟩
    · rw [newDir.only loc added] at some
      exact absurd none some
  dir := fun _ => newDir.entry
  there := fun _ => .inr ⟨place, newDir.leads, newDir.new, newDir.empty⟩
  failed := fun _ absent => by cases absent

theorem MadeRight.congr {result : Except UcbError Unit}
    (right : MadeRight rooted comps made after result) (tree : made.tree = world.tree)
    (links : made.links = world.links) : MadeRight rooted comps world after result := by
  obtain ⟨grows, sameLinks, created, dir, there, failed⟩ := right
  simp only [tree, leadsTo_congr tree links, entry_congr tree links] at grows created there failed
  exact ⟨grows, sameLinks.trans links, created, dir, there, failed⟩

/-- The parent is there, and the last component is seen to. -/
theorem MadeRight.behind {front : List (List UInt8)}
    (right : MadeRight rooted front world made (.ok ())) (above : front <+: comps)
    (links : after.links = made.links)
    (step : after.tree = made.tree ∨ ∃ place, NewDir rooted comps made after place)
    {result : Except UcbError Unit} (dir : result = .ok () → after.entry rooted comps = .ok .dir)
    (there : result = .ok () → ∃ place, after.leadsTo rooted comps = .ok place ∧
      world.tree.node place.1 = none ∧ ∀ name, after.tree.node (name :: place.1) = none)
    (failed : ∀ error, result = .error error → after.FailedWith error) :
    MadeRight rooted comps world after result := by
  have grows : made.tree.Grows after.tree := by
    rcases step with same | ⟨place, newDir⟩
    · rw [same]
      exact .refl _
    · exact newDir.grows
  refine ⟨right.grows.trans grows, links.trans right.links, fun loc none some => ?_, dir,
    fun ok => .inr (there ok), fun error refused => .inl (failed error refused)⟩
  by_cases before : made.tree.node loc = Option.none
  · -- it is the last component that is new
    rcases step with same | ⟨place, newDir⟩
    · rw [same] at some
      exact absurd before some
    · by_cases added : loc = place.1
      · subst added
        exact ⟨newDir.dir, _, _, List.prefix_rfl, newDir.leads⟩
      · rw [newDir.only loc added] at some
        exact absurd before some
  · obtain ⟨dir, part, left, inFront, leads⟩ := right.created loc none before
    exact ⟨grows.kept _ _ dir, part, left, inFront.trans above, leadsTo_grows grows links leads⟩

/-- `mkdir` has found an entry, and `lstat` tells what it is. -/
theorem mkdirP_found (conf : UcbPathStyle) {lead : Nat} {text : List UInt8} {lerr : UcbError}
    (composed : Composed lead comps text) (step : world.mkdir text = (.error lerr, made))
    (present : lerr.code = .errsysEexist) (tree : made.tree = world.tree)
    (links : made.links = world.links) {node : Node (List UInt8)}
    (found : world.entry (decide (lead ≠ 0)) comps = .ok node) :
    ∃ result after, Returns conf comps text world result after ∧
      MadeRight (decide (lead ≠ 0)) comps world after result := by
  have finds : made.finds text = .ok node := by
    rw [World.finds, if_neg composed.nonempty, composed.isRooted, composed.pathSegments,
      entry_congr tree links, found]
  obtain ⟨asked, after, kind, afterLinks, afterTree, cases⟩ := made.kind_cases finds
  have sameTree : after.tree = world.tree := afterTree.trans tree
  have sameLinks : after.links = world.links := afterLinks.trans links
  rcases cases with rfl | ⟨error, rfl, other⟩
  · refine ⟨_, _, returns_of_succ fun _ => mkdirP_present step present kind,
      madeRight_same sameTree sameLinks ?_ ?_⟩
    · intro ok
      by_cases isDir : node = .dir
      · subst isDir
        exact found
      · rw [if_neg (mt (nodeKind_dir_iff node).mp isDir)] at ok
        cases ok
    · intro error refused
      by_cases isDir : node = .dir
      · rw [if_pos ((nodeKind_dir_iff node).mpr isDir)] at refused
        cases refused
      · rw [if_neg (mt (nodeKind_dir_iff node).mp isDir)] at refused
        exact .inr ⟨(Except.error.inj refused).symm, comps, node, List.prefix_rfl, found, isDir,
          .inl rfl⟩
  · refine ⟨_, _, returns_of_succ fun _ => mkdirP_unasked step present kind,
      madeRight_same sameTree sameLinks ?_ ?_⟩
    · intro ok
      cases ok
    · intro found refused
      rw [← Except.error.inj refused]
      exact .inl other

/-- In an empty directory a name can be made, and the special names are there. -/
theorem makes_behind {lead : Nat} {text last : List UInt8} {front : List (List UInt8)}
    {place : List (List UInt8) × Nat} (composed : Composed lead (front ++ [last]) text)
    (leads : world.leadsTo (decide (lead ≠ 0)) front = .ok place)
    (empty : ∀ name, world.tree.node (name :: place.1) = none) :
    ((last = [dot] ∨ last = dotdot) ∧ world.makes text = .error .present) ∨
      ∃ tree, world.makes text = .ok tree := by
  rw [World.makes, if_neg composed.nonempty, composed.isRooted, composed.pathSegments,
    FileTree.makeDir_concat leads, dif_pos (FileTree.walk_dir (world.start_dir _) leads),
    if_pos (empty last)]
  by_cases special : last = [dot] ∨ last = dotdot
  · exact .inl ⟨special, if_pos special⟩
  · exact .inr ⟨_, if_neg special⟩

/-- With the parent new and empty, the second `mkdir` does what is left to do: it finds an entry
only where the last component is `.`. -/
theorem madeRight_again {conf : UcbPathStyle} {lead : Nat} {text last : List UInt8}
    {front : List (List UInt8)} {lerr : UcbError} {asked : World}
    (composed : Composed lead (front ++ [last]) text) (first : ParentsFirst (front ++ [last]))
    (step : world.mkdir text = (.error lerr, made)) (missing : lerr.code = .errsysEnoent)
    (walk : world.leadsTo (decide (lead ≠ 0)) front = .error .missing)
    (above : ¬ (ucbFsParent conf text = [] ∨ ucbFsParent conf text = text))
    (returns : Returns conf front (ucbFsParent conf text) made (.ok ()) asked)
    (right : MadeRight (decide (lead ≠ 0)) front world asked (.ok ())) :
    ∃ result after, Returns conf (front ++ [last]) text world result after ∧
      MadeRight (decide (lead ≠ 0)) (front ++ [last]) world after result := by
  have inFront : front <+: front ++ [last] := List.prefix_append _ _
  obtain ⟨place, leads, new, empty⟩ : ∃ place,
      asked.leadsTo (decide (lead ≠ 0)) front = .ok place ∧ world.tree.node place.1 = none ∧
        ∀ name, asked.tree.node (name :: place.1) = none := by
    rcases right.there rfl with ⟨⟨place, leads⟩, -⟩ | fresh
    · rw [walk] at leads
      cases leads
    · exact fresh
  obtain ⟨again, after, stepAgain, links, cases⟩ := asked.mkdir_cases text
  have whole := returns.above last fun _ run =>
    mkdirP_again step missing above run stepAgain
  rcases cases with ⟨rfl, makes⟩ | ⟨sameTree, error, rfl, refused | other⟩
  · obtain ⟨below, newDir⟩ := newDir_of_makes composed links makes
    refine ⟨_, _, whole, right.behind inFront links (.inr ⟨below, newDir⟩) (fun _ => newDir.entry)
      (fun _ => ?_) ?_⟩
    · refine ⟨below, newDir.leads, ?_, newDir.empty⟩
      cases before : world.tree.node below.1 with
      | none => rfl
      | some node =>
          have kept := right.grows.kept _ _ before
          rw [newDir.new] at kept
          cases kept
    · intro error absent
      cases absent
  · obtain ⟨refusal, makes, code, -⟩ := refused
    rcases makes_behind composed leads empty with ⟨special, present⟩ | ⟨tree, ok⟩
    · rw [present] at makes
      obtain rfl := Except.error.inj makes
      have found : (Except.error error : Except UcbError Unit).tryCatch (fun lerr =>
          if lerr.code = .errsysEexist then .ok () else .error lerr) = .ok () := if_pos code
      rw [found] at whole
      refine ⟨_, _, whole, right.behind inFront links (.inl sameTree) (fun _ => ?_)
        (fun _ => ?_) ?_⟩
      · rw [entry_congr sameTree links, World.entry, FileTree.entry_concat leads, if_pos special]
      · refine ⟨place, ?_, new, fun name => by rw [sameTree, empty name]⟩
        rw [leadsTo_congr sameTree links]
        rcases special with rfl | rfl
        · rw [World.leadsTo, FileTree.walk_append]
          rw [World.leadsTo] at leads
          rw [leads]
          exact (FileTree.walk_cur []).trans FileTree.walk_nil
        · -- nothing is missing above the directory a path starts at
          obtain ⟨count, rfl⟩ := first.front.2 rfl
          obtain ⟨there, parents⟩ : ∃ there, world.leadsTo (decide (lead ≠ 0))
              (List.replicate count dotdot) = .ok there := FileTree.walk_parents count
          rw [parents] at walk
          cases walk
      · intro error absent
        cases absent
    · rw [ok] at makes
      cases makes
  · have failed : (Except.error error : Except UcbError Unit).tryCatch (fun lerr =>
        if lerr.code = .errsysEexist then .ok () else .error lerr) = .error error :=
      if_neg other.2.1
    rw [failed] at whole
    refine ⟨_, _, whole, right.behind inFront links (.inl sameTree) ?_ ?_ ?_⟩
    · intro absent
      cases absent
    · intro absent
      cases absent
    · intro found same
      rw [← Except.error.inj same]
      exact other

/-- A directory in front is missing: it is seen to first, and then the last component. -/
theorem mkdirP_missing {conf : UcbPathStyle} (posix : WritesSlash conf) {lead : Nat}
    {text : List UInt8} {front : List (List UInt8)} {last : List UInt8} {lerr : UcbError}
    (composed : Composed lead (front ++ [last]) text) (first : ParentsFirst (front ++ [last]))
    (step : world.mkdir text = (.error lerr, made)) (missing : lerr.code = .errsysEnoent)
    (tree : made.tree = world.tree) (links : made.links = world.links)
    (walk : world.leadsTo (decide (lead ≠ 0)) front = .error .missing)
    (recursion : Composed lead front (ucbFsParent conf text) →
      ∃ result after, Returns conf front (ucbFsParent conf text) made result after ∧
        MadeRight (decide (lead ≠ 0)) front made after result) :
    ∃ result after, Returns conf (front ++ [last]) text world result after ∧
      MadeRight (decide (lead ≠ 0)) (front ++ [last]) world after result := by
  have someFront : front ≠ [] := by
    rintro rfl
    rw [World.leadsTo, FileTree.walk_nil] at walk
    cases walk
  obtain ⟨composedFront, above⟩ := fsParent_above posix composed someFront
  obtain ⟨result, asked, returns, rightMade⟩ := recursion composedFront
  have right := rightMade.congr tree links
  have inFront : front <+: front ++ [last] := List.prefix_append _ _
  cases result with
  | ok value => exact madeRight_again composed first step missing walk above returns right
  | error error =>
      refine ⟨_, _, returns.above _ fun _ run => mkdirP_above_failed step missing above run,
        right.grows, right.links, ?_, ?_, ?_, ?_⟩
      · intro loc none some
        obtain ⟨dir, part, left, inside, leads⟩ := right.created loc none some
        exact ⟨dir, part, left, inside.trans inFront, leads⟩
      · intro absent
        cases absent
      · intro absent
        cases absent
      · intro found same
        rcases right.failed found same with
          other | ⟨notDir, part, node, inside, entry, isNot, blocked⟩
        · exact .inl other
        · refine .inr ⟨notDir, part, node, inside.trans inFront, entry, isNot, .inr ?_⟩
          rcases blocked with rfl | refused
          · exact ⟨_, walk⟩
          · exact refused

/-- One step: the first `mkdir` decides, or the recursion goes on with the path in front. -/
theorem mkdirP_step {conf : UcbPathStyle} (posix : WritesSlash conf) {lead : Nat}
    {text : List UInt8} (composed : Composed lead comps text) (first : ParentsFirst comps)
    (world : World)
    (recursion : ∀ front last, comps = front ++ [last] → ∀ parent made,
      Composed lead front parent → ∃ result after, Returns conf front parent made result after ∧
        MadeRight (decide (lead ≠ 0)) front made after result) :
    ∃ result after, Returns conf comps text world result after ∧
      MadeRight (decide (lead ≠ 0)) comps world after result := by
  obtain ⟨result, made, step, links, cases⟩ := world.mkdir_cases text
  have failedWith {error : UcbError} (other : made.FailedWith error)
      (run : ∀ fuel, (fsMkdirP conf (fuel + 1) text).run.runOn world = some (.error error, made))
      (tree : made.tree = world.tree) :
      ∃ result after, Returns conf comps text world result after ∧
        MadeRight (decide (lead ≠ 0)) comps world after result := by
    refine ⟨_, _, returns_of_succ run, madeRight_same tree links ?_ ?_⟩
    · intro absent
      cases absent
    · intro found same
      rw [← Except.error.inj same]
      exact .inl other
  rcases cases with ⟨rfl, makes⟩ | ⟨tree, error, rfl, refused | other⟩
  · obtain ⟨place, newDir⟩ := newDir_of_makes composed links makes
    exact ⟨_, _, returns_of_succ fun _ => mkdirP_made step, newDir.madeRight links⟩
  · obtain ⟨refusal, makes, code, logged⟩ := refused
    rw [World.makes, if_neg composed.nonempty, composed.isRooted, composed.pathSegments] at makes
    by_cases present : refusal = .present
    · subst present
      obtain ⟨node, found⟩ := FileTree.makeDir_present makes
      exact mkdirP_found conf composed step code tree links found
    · obtain ⟨front, last, rfl, walk⟩ :=
        FileTree.makeDir_refused (world.start_dir _) present makes
      by_cases missing : refusal = .missing
      · subst missing
        exact mkdirP_missing posix composed first step code tree links walk
          (recursion front last rfl _ made)
      · have notPresent : error.code ≠ .errsysEexist := by
          rwa [code, ne_eq, refusalCode_present_iff]
        have notMissing : error.code ≠ .errsysEnoent := by
          rwa [code, ne_eq, refusalCode_missing_iff]
        exact failedWith ⟨notMissing, notPresent, _, logged⟩
          (fun _ => mkdirP_failed step notPresent notMissing) tree
  · exact failedWith other (fun _ => mkdirP_failed step other.2.1 other.1) tree

/-- The recursion ends and does what it is for. The induction is on the components, from the
last one: a call that misses a directory goes on with one component less. -/
theorem mkdirP_right {conf : UcbPathStyle} (posix : WritesSlash conf) {lead : Nat}
    {text : List UInt8} (composed : Composed lead comps text) (first : ParentsFirst comps)
    (world : World) :
    ∃ result after, Returns conf comps text world result after ∧
      MadeRight (decide (lead ≠ 0)) comps world after result := by
  induction comps using List.reverseRecOn generalizing text world with
  | nil =>
      refine mkdirP_step posix composed first world fun front last absent => ?_
      simp at absent
  | append_singleton front last inductionHypothesis =>
      refine mkdirP_step posix composed first world fun front' last' same parent made above => ?_
      obtain ⟨rfl, -⟩ := List.append_inj' same rfl
      exact inductionHypothesis above first.front.1 made

end Recursion

/-! ## The canonical path -/

theorem parentsFirst_kept (path : List UInt8) : ParentsFirst (keptSegments path) := by
  unfold keptSegments
  split
  next parent =>
    unfold normalizedSegments
    split
    · exact ⟨0, [[dot]], rfl, by decide⟩
    · obtain ⟨count, names, split, absent, -⟩ :=
        settled_resolve [dot] dotdot (isRooted path) (pathSegments path)
      exact ⟨count, names, split, absent⟩
  next noParent =>
    exact ⟨0, pathSegments path, rfl, fun member => noParent (dotdot_mem_of_pathSegments member)⟩

theorem composed_canon {conf : UcbPathStyle} (posix : WritesSlash conf) {path : List UInt8}
    (nonempty : path ≠ []) :
    ∃ lead, Composed lead (keptSegments path) (ucbFsCanon conf path) ∧
      decide (lead ≠ 0) = isRooted path := by
  obtain ⟨count, atMostTwo, lead, rooted⟩ := pathLead_replicate path
  refine ⟨count, ⟨atMostTwo, proper_keptSegments path, ?_, canon_ne_nil posix nonempty⟩, rooted⟩
  rw [ucbFsCanon_eq posix nonempty, lead]

theorem runOn_ucbFsMkdirP {path : List UInt8} (nonempty : path ≠ []) (conf : UcbPathStyle)
    (fuel : Nat) (world : World) :
    (ucbFsMkdirP conf fuel path).run.runOn world =
      (fsMkdirP conf fuel (ucbFsCanon conf path)).run.runOn world := by
  have checked : (fsCheckPath path).run.runOn world = some (.ok (), world) := by
    rw [fsCheckPath, if_neg nonempty]
    rfl
  rw [ucbFsMkdirP, runOn_ok _ checked]

/-- Without a `..` the canonical path leads where the path leads. -/
theorem leadsTo_kept {path : List UInt8} (plain : dotdot ∉ pathSegments path) (world : World)
    (rooted : Bool) :
    world.leadsTo rooted (keptSegments path) = world.leadsTo rooted (pathSegments path) := by
  have same : (keptSegments path).filter (· ≠ [dot]) = (pathSegments path).filter (· ≠ [dot]) := by
    rw [← lexicalSegments_eq]
    exact resolve_of_no_parent _ plain
  rw [World.leadsTo, World.leadsTo, ← FileTree.walk_filter (keptSegments path), same,
    FileTree.walk_filter]

theorem leadsTo_front {world : World} {rooted : Bool} {front comps : List (List UInt8)}
    (leads : ∃ place, world.leadsTo rooted comps = .ok place) (inFront : front <+: comps) :
    ∃ place, world.leadsTo rooted front = .ok place := by
  obtain ⟨more, rfl⟩ := inFront
  obtain ⟨place, whole⟩ := leads
  obtain ⟨mid, part, -⟩ := FileTree.walk_front whole
  exact ⟨mid, part⟩

/-- Where the path is a directory and no call fails for another reason, nothing happens. -/
theorem mkdirP_existing (conf : UcbPathStyle) {lead : Nat} {comps : List (List UInt8)}
    {text : List UInt8} (composed : Composed lead comps text) (world : World)
    (dir : world.entry (decide (lead ≠ 0)) comps = .ok .dir) (noFails : ∀ n, world.fails n = none) :
    ∃ after, Returns conf comps text world (.ok ()) after ∧ after.tree = world.tree := by
  have makes : world.makes text = .error .present := by
    rw [World.makes, if_neg composed.nonempty, composed.isRooted, composed.pathSegments]
    exact FileTree.makeDir_of_entry (world.start_dir _) dir
  have finds : world.finds text = .ok .dir := by
    rw [World.finds, if_neg composed.nonempty, composed.isRooted, composed.pathSegments, dir]
  have step := World.mkdir_refused (noFails _) makes
  have found : (world.refused (.mkdir text)
      ⟨refusalCode .present, "ucb_fs_mkdir: mkdir failed"⟩).kind text = _ :=
    World.kind_found (noFails _) finds
  exact ⟨_, returns_of_succ fun _ => mkdirP_present step rfl found, rfl⟩

/-! ## The whole function -/

/-- A path string of the platform: not empty, and without a NUL. -/
structure PathString (path : List UInt8) : Prop where
  nonempty : path ≠ []
  noNul : 0 ∉ path

def World.start (tree : FileTree (List UInt8)) (links : Nat) (fails : Nat → Option OtherError) :
    World :=
  ⟨tree, links, fails, 0, []⟩

/-- The function returns, with fuel for every component of the canonical path. -/
def MkdirPReturns (conf : UcbPathStyle) (path : List UInt8) (world : World)
    (result : Except UcbError Unit) (after : World) : Prop :=
  ∀ fuel, (keptSegments path).length < fuel →
    (ucbFsMkdirP conf fuel path).run.runOn world = some (result, after)

/-- What the function has done to a tree, for the canonical path. -/
structure MkdirPRight (conf : UcbPathStyle) (path : List UInt8) (world after : World)
    (result : Except UcbError Unit) : Prop where
  /-- Every path in front of it, and the path itself, is an existing directory. -/
  dirs : result = .ok () → ∀ front, front <+: keptSegments path →
    ∃ place, after.leadsTo (isRooted path) front = .ok place
  /-- Without a `..` this is said of the path as it was given. -/
  given : result = .ok () → dotdot ∉ pathSegments path → ∀ front, front <+: pathSegments path →
    ∃ place, after.leadsTo (isRooted path) front = .ok place
  kept : ∀ loc node, world.tree.node loc = some node → after.tree.node loc = some node
  /-- What is new are directories that were missing on the path. -/
  created : ∀ loc, world.tree.node loc = none → after.tree.node loc ≠ none →
    after.tree.node loc = some .dir ∧ ∃ front left, front <+: keptSegments path ∧
      after.leadsTo (isRooted path) front = .ok (loc, left)
  again : result = .ok () → ∃ last,
    MkdirPReturns conf path (.start after.tree world.links fun _ => none) (.ok ()) last ∧
      last.tree = after.tree
  /-- A call has failed for another reason, or there is something on the path that is no
  directory. At its end that may be a link. -/
  failed : ∀ error, result = .error error → after.FailedWith error ∨
    (error = notDirectory ∧ ∃ front node, front <+: keptSegments path ∧
      world.entry (isRooted path) front = .ok node ∧ node ≠ .dir ∧
      (front = keptSegments path ∨
        ∃ refusal, world.leadsTo (isRooted path) front = .error refusal))

/-- `ucb_fs_mkdir_p` returns and is complete for the canonical path, on every file system and
whatever other failures there are. -/
theorem mkdirP_complete {conf : UcbPathStyle} (posix : WritesSlash conf) {path : List UInt8}
    (string : PathString path) (tree : FileTree (List UInt8)) (links : Nat)
    (fails : Nat → Option OtherError) :
    ∃ result after, MkdirPReturns conf path (.start tree links fails) result after ∧
      MkdirPRight conf path (.start tree links fails) after result := by
  obtain ⟨lead, composed, rooted⟩ := composed_canon posix string.nonempty
  obtain ⟨result, after, returns, right⟩ := mkdirP_right posix composed (parentsFirst_kept path)
    (World.start tree links fails)
  rw [rooted] at right
  have whole (ok : result = .ok ()) :
      ∃ place, after.leadsTo (isRooted path) (keptSegments path) = .ok place :=
    FileTree.walk_of_entry (right.dir ok)
  refine ⟨result, after, fun fuel enough => ?_, ?_⟩
  · rw [runOn_ucbFsMkdirP string.nonempty]
    exact returns fuel enough
  · constructor
    case dirs => exact fun ok front inFront => leadsTo_front (whole ok) inFront
    case given =>
      intro ok plain front inFront
      have given := whole ok
      rw [leadsTo_kept plain] at given
      exact leadsTo_front given inFront
    case kept => exact right.grows.kept
    case created => exact right.created
    case again =>
      intro ok
      have dir := right.dir ok
      rw [World.entry, right.links, ← rooted] at dir
      obtain ⟨last, returnsAgain, same⟩ := mkdirP_existing conf composed
        (.start after.tree links fun _ => none) dir fun _ => rfl
      refine ⟨last, fun fuel enough => ?_, same⟩
      rw [runOn_ucbFsMkdirP string.nonempty]
      exact returnsAgain fuel enough
    case failed => exact right.failed

/-- `a/b` where there is nothing but a root. -/
theorem mkdirP_complete_bare :
    ∃ result after,
      MkdirPReturns .default [0x61, slash, 0x62] (.start .bare 40 fun _ => none) result after ∧
        MkdirPRight .default [0x61, slash, 0x62] (.start .bare 40 fun _ => none) after result :=
  mkdirP_complete (show WritesSlash .default from rfl) ⟨by decide, by decide⟩ .bare 40 fun _ => none

/-- In `a/../b` the `..` is resolved first: where there is nothing but a root, `b` is made, and
the path is no directory, for there is no `a`. -/
theorem mkdirP_parent_not_there :
    ¬ ∀ path world fuel after, PathString path →
      (ucbFsMkdirP .default fuel path).run.runOn world = some (.ok (), after) →
        ∃ place, after.leadsTo (isRooted path) (pathSegments path) = .ok place := by
  intro complete
  have canon : ucbFsCanon .default aParentB = [0x62] := by
    rw [ucbFsCanon_eq rfl (by decide)]
    decide
  have makes : (World.start .bare 40 fun _ => none).makes [0x62] =
      .ok (FileTree.bare.addDir [] [0x62] rfl) := by
    rw [World.makes, if_neg (by decide)]
    have split : pathSegments [0x62] = [] ++ [[0x62]] := by decide
    rw [split, FileTree.makeDir_concat FileTree.walk_nil, if_neg (by decide)]
    rfl
  have returns {after : World}
      (step : (World.start .bare 40 fun _ => none).mkdir [0x62] = (.ok (), after)) :
      (ucbFsMkdirP .default 2 aParentB).run.runOn (.start .bare 40 fun _ => none) =
        some (.ok (), after) := by
    rw [runOn_ucbFsMkdirP (by decide), canon]
    exact mkdirP_made step
  obtain ⟨place, leads⟩ := complete aParentB _ 2 _ ⟨by decide, by decide⟩
    (returns (World.mkdir_made rfl makes))
  have split : pathSegments aParentB = [[0x61], dotdot, [0x62]] := by decide
  rw [split, World.leadsTo, FileTree.walk, if_neg (by decide), if_neg (by decide)] at leads
  have missing : (Except.error Refusal.missing : Except Refusal (List (List UInt8) × Nat)) =
      .ok place := leads
  cases missing

end Ucb.Fs
