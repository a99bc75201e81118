import Mathlib.Data.List.Basic
import Mathlib.Tactic.Common

/-!
Contract: a tree of directories with symbolic links, and what a path names in it.

Owns:
- `FileTree`, locations that are directories wherever something lies below them;
- `walk`, the directory a list of names leads to, following links;
- `entry`, what the last name names without following it, and `makeDir`;
- what is left of a walk in a tree that has more directories.

A location is the list of its names, the deepest first. `cur` and `parent` are the
two special names. A walk follows so many links at most.

Does not own: permissions and resources. What fails for such reasons does not
change the tree.
-/

namespace Ucb.Lib

universe u

/-- What lies at a location. A link holds whether its target starts at the root, and the
names of the target. -/
inductive Node (Name : Type u) where
  | dir
  | file
  | other
  | link (rooted : Bool) (target : List Name)
deriving DecidableEq, Repr

/-- Directories down to every node, and the directory that relative paths start at. It has not
been removed. -/
structure FileTree (Name : Type u) where
  node : List Name → Option (Node Name)
  root : node [] = some .dir
  above : ∀ name loc, node (name :: loc) ≠ none → node loc = some .dir
  cwd : List Name
  cwd_dir : node cwd = some .dir

/-- Why a path does not name what it is asked for. -/
inductive Refusal where
  | missing
  | notDir
  | loop
  | present
deriving DecidableEq, Repr

namespace FileTree

variable {Name : Type u} [DecidableEq Name] (cur parent : Name)

/-! ## Paths in a tree -/

/-- Where a path starts. -/
def start (tree : FileTree Name) (rooted : Bool) : List Name :=
  if rooted then [] else tree.cwd

/-- The directory that names lead to from a directory, and how many links may still be
followed. -/
def walk (tree : FileTree Name) (links : Nat) (here : List Name) :
    List Name → Except Refusal (List Name × Nat)
  | [] => .ok (here, links)
  | name :: rest =>
      if name = cur then walk tree links here rest
      else if name = parent then walk tree links here.tail rest
      else
        match tree.node (name :: here) with
        | none => .error .missing
        | some .dir => walk tree links (name :: here) rest
        | some (.link rooted target) =>
            match links with
            | 0 => .error .loop
            | links + 1 => walk tree links (bif rooted then [] else here) (target ++ rest)
        | some _ => .error .notDir
termination_by names => (links, names.length)

/-- What names lead to if a link at their end is not followed. -/
def entry (tree : FileTree Name) (links : Nat) (here names : List Name) :
    Except Refusal (Node Name) :=
  match names.getLast? with
  | none => .ok .dir
  | some last => do
      let (loc, _) ← walk cur parent tree links here names.dropLast
      if last = cur ∨ last = parent then .ok .dir
      else (tree.node (last :: loc)).elim (.error .missing) .ok

/-- Nothing but a root. -/
def bare : FileTree Name where
  node := fun loc => if loc = [] then some .dir else none
  root := if_pos rfl
  above := fun _ _ some => absurd (if_neg (List.cons_ne_nil _ _)) some
  cwd := []
  cwd_dir := if_pos rfl

/-- The tree with a new directory. -/
def addDir (tree : FileTree Name) (loc : List Name) (name : Name)
    (dir : tree.node loc = some .dir) : FileTree Name where
  node := fun other => if other = name :: loc then some .dir else tree.node other
  root := by rw [if_neg (List.cons_ne_nil _ _).symm, tree.root]
  above := by
    intro other below some
    by_cases new : below = name :: loc
    · rw [if_pos new]
    · rw [if_neg new]
      by_cases added : other :: below = name :: loc
      · rw [(List.cons.inj added).2]
        exact dir
      · rw [if_neg added] at some
        exact tree.above other below some
  cwd := tree.cwd
  cwd_dir := by
    split
    · rfl
    · exact tree.cwd_dir

/-- Make the directory that names lead to. -/
def makeDir (tree : FileTree Name) (links : Nat) (here names : List Name) :
    Except Refusal (FileTree Name) :=
  match names.getLast? with
  | none => .error .present
  | some last => do
      let (loc, _) ← walk cur parent tree links here names.dropLast
      if last = cur ∨ last = parent then .error .present
      else if dir : tree.node loc = some .dir then
        if tree.node (last :: loc) = none then .ok (tree.addDir loc last dir) else .error .present
      else .error .notDir

/-! ## Walks -/

variable {cur parent} {tree tree' : FileTree Name} {links : Nat} {here : List Name}

@[simp] theorem walk_nil : walk cur parent tree links here [] = .ok (here, links) := by
  rw [walk]

@[simp] theorem walk_cur (rest : List Name) :
    walk cur parent tree links here (cur :: rest) = walk cur parent tree links here rest := by
  rw [walk, if_pos rfl]

theorem walk_parent (differ : parent ≠ cur) (rest : List Name) :
    walk cur parent tree links here (parent :: rest) =
      walk cur parent tree links here.tail rest := by
  rw [walk, if_neg differ, if_pos rfl]

/-- The rest of the names is walked from where the first ones lead to. -/
theorem walk_append (front back : List Name) :
    walk cur parent tree links here (front ++ back) =
      (walk cur parent tree links here front >>= fun place =>
        walk cur parent tree place.2 place.1 back) := by
  fun_induction walk cur parent tree links here front with
  | case1 links here => rfl
  | case2 links here rest inductionHypothesis =>
      rw [List.cons_append, walk_cur, inductionHypothesis]
  | case3 links here rest differ inductionHypothesis =>
      rw [List.cons_append, walk_parent differ, inductionHypothesis]
  | case4 links here name rest notCur notParent absent =>
      rw [List.cons_append, walk, if_neg notCur, if_neg notParent, absent]
      rfl
  | case5 links here name rest notCur notParent dir inductionHypothesis =>
      rw [List.cons_append, walk, if_neg notCur, if_neg notParent, dir, inductionHypothesis]
  | case6 here name rest notCur notParent rooted target link =>
      rw [List.cons_append, walk, if_neg notCur, if_neg notParent, link]
      rfl
  | case7 here name rest notCur notParent rooted target link links inductionHypothesis =>
      rw [List.cons_append, walk, if_neg notCur, if_neg notParent, link]
      dsimp only
      rw [← List.append_assoc, inductionHypothesis]
  | case8 links here name rest notCur notParent node notDir notLink found =>
      rw [List.cons_append, walk, if_neg notCur, if_neg notParent, found]
      cases node with
      | dir => exact absurd rfl notDir
      | file => rfl
      | other => rfl
      | link rooted target => exact absurd rfl (notLink rooted target)

theorem walk_dir {names loc : List Name} {left : Nat} (dir : tree.node here = some .dir)
    (leads : walk cur parent tree links here names = .ok (loc, left)) :
    tree.node loc = some .dir := by
  have tail {loc : List Name} (dir : tree.node loc = some .dir) :
      tree.node loc.tail = some .dir := by
    cases loc with
    | nil => exact tree.root
    | cons name loc => exact tree.above name loc (by rw [dir]; exact Option.some_ne_none _)
  fun_induction walk cur parent tree links here names with
  | case1 links here =>
      obtain ⟨rfl, -⟩ := Prod.mk.inj (Except.ok.inj leads)
      exact dir
  | case2 links here rest inductionHypothesis => exact inductionHypothesis dir leads
  | case3 links here rest differ inductionHypothesis => exact inductionHypothesis (tail dir) leads
  | case4 links here name rest notCur notParent absent => cases leads
  | case5 links here name rest notCur notParent found inductionHypothesis =>
      exact inductionHypothesis found leads
  | case6 here name rest notCur notParent rooted target link => cases leads
  | case7 here name rest notCur notParent rooted target link links inductionHypothesis =>
      refine inductionHypothesis ?_ leads
      cases rooted with
      | true => exact tree.root
      | false => exact dir
  | case8 links here name rest notCur notParent node notDir notLink found => cases leads

theorem walk_ne_present {names : List Name} :
    walk cur parent tree links here names ≠ .error .present := by
  intro refused
  fun_induction walk cur parent tree links here names with
  | case1 links here => cases refused
  | case2 links here rest inductionHypothesis => exact inductionHypothesis refused
  | case3 links here rest differ inductionHypothesis => exact inductionHypothesis refused
  | case4 links here name rest notCur notParent absent => cases refused
  | case5 links here name rest notCur notParent found inductionHypothesis =>
      exact inductionHypothesis refused
  | case6 here name rest notCur notParent rooted target link => cases refused
  | case7 here name rest notCur notParent rooted target link links inductionHypothesis =>
      exact inductionHypothesis refused
  | case8 links here name rest notCur notParent node notDir notLink found => cases refused

/-- Names that lead somewhere do so all the way. -/
theorem walk_front {front back : List Name} {place : List Name × Nat}
    (leads : walk cur parent tree links here (front ++ back) = .ok place) :
    ∃ mid, walk cur parent tree links here front = .ok mid ∧
      walk cur parent tree mid.2 mid.1 back = .ok place := by
  rw [walk_append] at leads
  cases first : walk cur parent tree links here front with
  | error refusal =>
      rw [first] at leads
      cases leads
  | ok mid =>
      rw [first] at leads
      exact ⟨mid, rfl, leads⟩

/-- The name of the directory itself can be left out. -/
theorem walk_filter (names : List Name) :
    walk cur parent tree links here (names.filter (· ≠ cur)) =
      walk cur parent tree links here names := by
  induction names generalizing links here with
  | nil => rfl
  | cons name rest inductionHypothesis =>
      by_cases isCur : name = cur
      · subst isCur
        rw [walk_cur, List.filter_cons_of_neg (by simp), inductionHypothesis]
      · have split (names : List Name) : name :: names = [name] ++ names := rfl
        rw [List.filter_cons_of_pos (by simp [isCur]), split, split rest, walk_append, walk_append]
        simp only [inductionHypothesis]

/-- There is always a directory above. -/
theorem walk_parents (count : Nat) :
    ∃ place, walk cur parent tree links here (List.replicate count parent) = .ok place := by
  induction count generalizing here with
  | zero => exact ⟨_, walk_nil⟩
  | succ count inductionHypothesis =>
      rw [List.replicate_succ]
      by_cases same : parent = cur
      · subst same
        rw [walk_cur]
        exact inductionHypothesis
      · rw [walk_parent same]
        exact inductionHypothesis

/-! ## Trees that grow -/

/-- What is there stays there. -/
structure Grows (tree tree' : FileTree Name) : Prop where
  kept : ∀ loc node, tree.node loc = some node → tree'.node loc = some node
  cwd : tree'.cwd = tree.cwd

omit [DecidableEq Name] in
theorem Grows.refl (tree : FileTree Name) : Grows tree tree := ⟨fun _ _ found => found, rfl⟩

omit [DecidableEq Name] in
theorem Grows.trans {third : FileTree Name} (first : Grows tree tree')
    (second : Grows tree' third) : Grows tree third :=
  ⟨fun loc node found => second.kept loc node (first.kept loc node found),
    second.cwd.trans first.cwd⟩

omit [DecidableEq Name] in
theorem Grows.start (grows : Grows tree tree') (rooted : Bool) :
    tree'.start rooted = tree.start rooted := by
  rw [FileTree.start, FileTree.start, grows.cwd]

/-- Names lead where they led. -/
theorem Grows.walk (grows : Grows tree tree') {names : List Name} {place : List Name × Nat}
    (leads : walk cur parent tree links here names = .ok place) :
    FileTree.walk cur parent tree' links here names = .ok place := by
  fun_induction FileTree.walk cur parent tree links here names with
  | case1 links here => rw [walk_nil, leads]
  | case2 links here rest inductionHypothesis => rw [walk_cur, inductionHypothesis leads]
  | case3 links here rest differ inductionHypothesis =>
      rw [walk_parent differ, inductionHypothesis leads]
  | case4 links here name rest notCur notParent absent => cases leads
  | case5 links here name rest notCur notParent found inductionHypothesis =>
      rw [FileTree.walk, if_neg notCur, if_neg notParent, grows.kept _ _ found]
      exact inductionHypothesis leads
  | case6 here name rest notCur notParent rooted target link => cases leads
  | case7 here name rest notCur notParent rooted target link links inductionHypothesis =>
      rw [FileTree.walk, if_neg notCur, if_neg notParent, grows.kept _ _ link]
      exact inductionHypothesis leads
  | case8 links here name rest notCur notParent node notDir notLink found => cases leads

section Grows

variable {loc : List Name} {name : Name} (dir : tree.node loc = some .dir)
  (new : tree.node (name :: loc) = none)
include new

theorem grows_addDir : Grows tree (tree.addDir loc name dir) := by
  refine ⟨fun other node found => ?_, rfl⟩
  have old : other ≠ name :: loc := by
    rintro rfl
    rw [new] at found
    cases found
  exact (if_neg old).trans found

omit new in
@[simp] theorem addDir_node : (tree.addDir loc name dir).node (name :: loc) = some .dir :=
  if_pos rfl

/-- A new directory is empty. -/
theorem addDir_empty (below : Name) :
    (tree.addDir loc name dir).node (below :: name :: loc) = none := by
  have deeper : below :: name :: loc ≠ name :: loc := fun same => by
    simpa using congrArg List.length same
  refine (if_neg deeper).trans ?_
  by_contra some
  have above := tree.above below (name :: loc) some
  rw [new] at above
  cases above

end Grows

/-! ## Entries and new directories -/

section Last

variable {front : List Name} {last : Name} {place : List Name × Nat}

theorem entry_concat (leads : walk cur parent tree links here front = .ok place) :
    entry cur parent tree links here (front ++ [last]) =
      if last = cur ∨ last = parent then .ok .dir
      else (tree.node (last :: place.1)).elim (.error .missing) .ok := by
  rw [entry, List.getLast?_concat, List.dropLast_concat]
  dsimp only
  rw [leads]
  rfl

theorem makeDir_concat (leads : walk cur parent tree links here front = .ok place) :
    makeDir cur parent tree links here (front ++ [last]) =
      if last = cur ∨ last = parent then .error .present
      else if dir : tree.node place.1 = some .dir then
        if tree.node (last :: place.1) = none then .ok (tree.addDir place.1 last dir)
        else .error .present
      else .error .notDir := by
  rw [makeDir, List.getLast?_concat, List.dropLast_concat]
  dsimp only
  rw [leads]
  rfl

theorem makeDir_concat_refused {refusal : Refusal}
    (refused : walk cur parent tree links here front = .error refusal) :
    makeDir cur parent tree links here (front ++ [last]) = .error refusal := by
  rw [makeDir, List.getLast?_concat, List.dropLast_concat]
  dsimp only
  rw [refused]
  rfl

end Last

/-- A directory is made in the directory in front of the last name, where there was nothing. -/
theorem makeDir_ok {names : List Name}
    (made : makeDir cur parent tree links here names = .ok tree') :
    ∃ front last place, ∃ dir : tree.node place.1 = some .dir, names = front ++ [last] ∧
      walk cur parent tree links here front = .ok place ∧ last ≠ cur ∧ last ≠ parent ∧
      tree.node (last :: place.1) = none ∧ tree' = tree.addDir place.1 last dir := by
  rcases List.eq_nil_or_concat' names with rfl | ⟨front, last, rfl⟩
  · cases made
  · cases leads : walk cur parent tree links here front with
    | error refusal =>
        rw [makeDir_concat_refused leads] at made
        cases made
    | ok place =>
        rw [makeDir_concat leads] at made
        split at made
        · cases made
        next plain =>
          obtain ⟨notCur, notParent⟩ := not_or.mp plain
          split at made
          next dir =>
            split at made
            next new =>
              exact ⟨front, last, place, dir, rfl, leads, notCur, notParent, new,
                (Except.ok.inj made).symm⟩
            · cases made
          · cases made

/-- Where a directory is said to be present, there is an entry. -/
theorem makeDir_present {names : List Name}
    (refused : makeDir cur parent tree links here names = .error .present) :
    ∃ node, entry cur parent tree links here names = .ok node := by
  rcases List.eq_nil_or_concat' names with rfl | ⟨front, last, rfl⟩
  · exact ⟨.dir, rfl⟩
  · cases leads : walk cur parent tree links here front with
    | error refusal =>
        rw [makeDir_concat_refused leads] at refused
        rw [Except.error.inj refused] at leads
        exact absurd leads walk_ne_present
    | ok place =>
        rw [makeDir_concat leads] at refused
        rw [entry_concat leads]
        split at refused
        next special => exact ⟨.dir, if_pos special⟩
        next plain =>
          rw [if_neg plain]
          split at refused
          · split at refused
            · cases refused
            next some =>
              obtain ⟨node, found⟩ := Option.ne_none_iff_exists'.mp some
              exact ⟨node, by rw [found]; rfl⟩
          · cases refused

/-- Every other refusal is that of the walk to the directory in front of the last name. -/
theorem makeDir_refused {names : List Name} {refusal : Refusal}
    (dir : tree.node here = some .dir) (other : refusal ≠ .present)
    (refused : makeDir cur parent tree links here names = .error refusal) :
    ∃ front last, names = front ++ [last] ∧
      walk cur parent tree links here front = .error refusal := by
  rcases List.eq_nil_or_concat' names with rfl | ⟨front, last, rfl⟩
  · exact absurd (Except.error.inj refused).symm other
  · refine ⟨front, last, rfl, ?_⟩
    cases leads : walk cur parent tree links here front with
    | error found =>
        rw [makeDir_concat_refused leads] at refused
        rw [Except.error.inj refused]
    | ok place =>
        rw [makeDir_concat leads, dif_pos (walk_dir dir leads)] at refused
        split at refused
        · exact absurd (Except.error.inj refused).symm other
        · split at refused
          · cases refused
          · exact absurd (Except.error.inj refused).symm other

/-- Where there is an entry, no directory is made. -/
theorem makeDir_of_entry {names : List Name} {node : Node Name} (dir : tree.node here = some .dir)
    (found : entry cur parent tree links here names = .ok node) :
    makeDir cur parent tree links here names = .error .present := by
  rcases List.eq_nil_or_concat' names with rfl | ⟨front, last, rfl⟩
  · rfl
  · cases leads : walk cur parent tree links here front with
    | error refusal =>
        rw [entry, List.getLast?_concat, List.dropLast_concat] at found
        dsimp only at found
        rw [leads] at found
        cases found
    | ok place =>
        rw [entry_concat leads] at found
        rw [makeDir_concat leads, dif_pos (walk_dir dir leads)]
        by_cases special : last = cur ∨ last = parent
        · exact if_pos special
        · rw [if_neg special] at found ⊢
          refine if_neg fun absent => ?_
          rw [absent] at found
          cases found

/-- An entry that is a directory is led to. -/
theorem walk_of_entry {names : List Name}
    (found : entry cur parent tree links here names = .ok .dir) :
    ∃ place, walk cur parent tree links here names = .ok place := by
  rcases List.eq_nil_or_concat' names with rfl | ⟨front, last, rfl⟩
  · exact ⟨_, walk_nil⟩
  · cases leads : walk cur parent tree links here front with
    | error refusal =>
        rw [entry, List.getLast?_concat, List.dropLast_concat] at found
        dsimp only at found
        rw [leads] at found
        cases found
    | ok place =>
        rw [entry_concat leads] at found
        rw [walk_append, leads]
        show ∃ after, walk cur parent tree place.2 place.1 [last] = .ok after
        by_cases isCur : last = cur
        · subst isCur
          exact ⟨_, (walk_cur _).trans walk_nil⟩
        · by_cases isParent : last = parent
          · subst isParent
            exact ⟨_, (walk_parent isCur _).trans walk_nil⟩
          · rw [if_neg (not_or.mpr ⟨isCur, isParent⟩)] at found
            cases node : tree.node (last :: place.1) with
            | none =>
                rw [node] at found
                cases found
            | some kind =>
                rw [node] at found
                obtain rfl : kind = .dir := Except.ok.inj found
                refine ⟨(last :: place.1, place.2), ?_⟩
                rw [walk, if_neg isCur, if_neg isParent, node]
                exact walk_nil

end FileTree

end Ucb.Lib
