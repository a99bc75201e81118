import Mathlib.Data.List.Induction
import Ucb.Lib.FileTree

/-!
Contract: where a path ends in a tree of directories with links.

Owns:
- `spot`, the place of the last name, and `final`, where links at the end lead to;
- `Aims`, what a path leads to once the directories that are missing on it are made;
- that every other path has something in its way, or nowhere to start;
- what is left of all this in a tree that grows.

Does not own: the walk itself.
-/

namespace Ucb.Lib

universe u

/-- The end of a path: a directory, or a name in one. -/
inductive Spot (Name : Type u) where
  | inside (loc : List Name)
  | slot (loc : List Name)
deriving DecidableEq, Repr

namespace FileTree

variable {Name : Type u} [DecidableEq Name] (cur parent : Name)

/-! ## The end of a path -/

/-- Where names end, whether or not something is there. -/
def spot (tree : FileTree Name) (links : Nat) (here names : List Name) :
    Except Refusal (Spot Name) :=
  match names.getLast? with
  | none => .ok (.inside here)
  | some last => do
      let (loc, _) ← walk cur parent tree links here names.dropLast
      if last = cur then .ok (.inside loc)
      else if last = parent then .ok (.inside loc.tail)
      else .ok (.slot (last :: loc))

/-- Where names end if links at their end are followed, whether or not something is there.
Every link takes one of `links`, so more `depth` than that is enough. -/
def final (tree : FileTree Name) :
    (depth links : Nat) → (here names : List Name) → Except Refusal (List Name)
  | 0, _, _, _ => .error .loop
  | depth + 1, links, here, names =>
      match names.getLast? with
      | none => .ok here
      | some last => do
          let (loc, left) ← walk cur parent tree links here names.dropLast
          if last = cur then .ok loc
          else if last = parent then .ok loc.tail
          else
            match tree.node (last :: loc), left with
            | some (.link _ _), 0 => .error .loop
            | some (.link rooted target), left + 1 =>
                final tree depth left (bif rooted then [] else loc) target
            | _, _ => .ok (last :: loc)

/-- Names lead to a directory, or would if directories were made where there is nothing. -/
inductive Aims (tree : FileTree Name) (links : Nat) (here : List Name) :
    List Name → List Name → Prop where
  | leads {names loc : List Name} {left : Nat}
      (found : walk cur parent tree links here names = .ok (loc, left)) :
      Aims tree links here names loc
  | name {names loc : List Name} {name : Name} (above : Aims tree links here names loc)
      (notCur : name ≠ cur) (notParent : name ≠ parent)
      (free : tree.node (name :: loc) = none ∨ tree.node (name :: loc) = some .dir) :
      Aims tree links here (names ++ [name]) (name :: loc)
  | same {names loc : List Name} (above : Aims tree links here names loc) :
      Aims tree links here (names ++ [cur]) loc

variable {cur parent} {tree tree' : FileTree Name} {links : Nat} {here : List Name}

/-! ## Spots -/

section Last

variable {front : List Name} {last : Name}

theorem spot_concat {place : List Name × Nat}
    (leads : walk cur parent tree links here front = .ok place) :
    spot cur parent tree links here (front ++ [last]) =
      if last = cur then .ok (.inside place.1)
      else if last = parent then .ok (.inside place.1.tail)
      else .ok (.slot (last :: place.1)) := by
  rw [spot, List.getLast?_concat, List.dropLast_concat]
  dsimp only
  rw [leads]
  rfl

theorem spot_refused {refusal : Refusal}
    (refused : walk cur parent tree links here front = .error refusal) :
    spot cur parent tree links here (front ++ [last]) = .error refusal := by
  rw [spot, List.getLast?_concat, List.dropLast_concat]
  dsimp only
  rw [refused]
  rfl

end Last

theorem spot_error {names : List Name} {refusal : Refusal}
    (refused : spot cur parent tree links here names = .error refusal) :
    ∃ front last, names = front ++ [last] ∧
      walk cur parent tree links here front = .error refusal := by
  rcases List.eq_nil_or_concat' names with rfl | ⟨front, last, rfl⟩
  · cases refused
  · refine ⟨front, last, rfl, ?_⟩
    cases leads : walk cur parent tree links here front with
    | error found =>
        rw [spot_refused leads] at refused
        rw [Except.error.inj refused]
    | ok place =>
        rw [spot_concat leads] at refused
        split at refused
        · cases refused
        · split at refused
          · cases refused
          · cases refused

theorem spot_slot {names loc : List Name}
    (found : spot cur parent tree links here names = .ok (.slot loc)) :
    ∃ front last place, names = front ++ [last] ∧ loc = last :: place.1 ∧
      last ≠ cur ∧ last ≠ parent ∧ walk cur parent tree links here front = .ok place := by
  rcases List.eq_nil_or_concat' names with rfl | ⟨front, last, rfl⟩
  · cases found
  · cases leads : walk cur parent tree links here front with
    | error refusal =>
        rw [spot_refused leads] at found
        cases found
    | ok place =>
        rw [spot_concat leads] at found
        split at found
        · cases found
        · split at found
          · cases found
          next notCur notParent =>
            refine ⟨front, last, place, rfl, ?_, notCur, notParent, leads⟩
            exact (Spot.slot.inj (Except.ok.inj found)).symm

/-- A path that ends in a directory leads to it. -/
theorem spot_inside {names loc : List Name}
    (found : spot cur parent tree links here names = .ok (.inside loc)) :
    ∃ left, walk cur parent tree links here names = .ok (loc, left) := by
  rcases List.eq_nil_or_concat' names with rfl | ⟨front, last, rfl⟩
  · exact ⟨links, by rw [walk_nil, ← Spot.inside.inj (Except.ok.inj found)]⟩
  · cases leads : walk cur parent tree links here front with
    | error refusal =>
        rw [spot_refused leads] at found
        cases found
    | ok place =>
        rw [spot_concat leads] at found
        rw [walk_append, leads]
        show ∃ left, walk cur parent tree place.2 place.1 [last] = .ok (loc, left)
        split at found
        next isCur =>
          subst isCur
          exact ⟨place.2, by rw [walk_cur, walk_nil, ← Spot.inside.inj (Except.ok.inj found)]⟩
        next notCur =>
          split at found
          next isParent =>
            subst isParent
            refine ⟨place.2, ?_⟩
            rw [walk_parent notCur, walk_nil, ← Spot.inside.inj (Except.ok.inj found)]
          next => cases found

/-- A name that is a directory is led to. -/
theorem walk_of_slot {names loc : List Name}
    (found : spot cur parent tree links here names = .ok (.slot loc))
    (dir : tree.node loc = some .dir) :
    ∃ left, walk cur parent tree links here names = .ok (loc, left) := by
  obtain ⟨front, last, place, rfl, rfl, notCur, notParent, leads⟩ := spot_slot found
  refine ⟨place.2, ?_⟩
  rw [walk_append, leads]
  show walk cur parent tree place.2 place.1 [last] = _
  rw [walk, if_neg notCur, if_neg notParent, dir]
  exact walk_nil

/-- Whatever names may lead through is there in another tree too. -/
def Passes (tree tree' : FileTree Name) : Prop :=
  ∀ loc node, tree.node loc = some node →
    node = .dir ∨ (∃ rooted target, node = .link rooted target) →
    tree'.node loc = some node

theorem Passes.walk (passes : Passes tree tree') {names : List Name} {place : List Name × Nat}
    (leads : FileTree.walk cur parent tree links here names = .ok place) :
    FileTree.walk cur parent tree' links here names = .ok place := by
  fun_induction FileTree.walk cur parent tree links here names with
  | case1 links here => rw [walk_nil, leads]
  | case2 links here rest inductionHypothesis => rw [walk_cur, inductionHypothesis leads]
  | case3 links here rest differ inductionHypothesis =>
      rw [walk_parent differ, inductionHypothesis leads]
  | case4 links here name rest notCur notParent absent => cases leads
  | case5 links here name rest notCur notParent found inductionHypothesis =>
      rw [FileTree.walk, if_neg notCur, if_neg notParent, passes _ _ found (.inl rfl)]
      exact inductionHypothesis leads
  | case6 here name rest notCur notParent rooted target link => cases leads
  | case7 here name rest notCur notParent rooted target link links inductionHypothesis =>
      rw [FileTree.walk, if_neg notCur, if_neg notParent, passes _ _ link (.inr ⟨_, _, rfl⟩)]
      exact inductionHypothesis leads
  | case8 links here name rest notCur notParent node notDir notLink found => cases leads

theorem Passes.spot (passes : Passes tree tree') {names : List Name} {found : Spot Name}
    (ends : FileTree.spot cur parent tree links here names = .ok found) :
    FileTree.spot cur parent tree' links here names = .ok found := by
  rcases List.eq_nil_or_concat' names with rfl | ⟨front, last, rfl⟩
  · exact ends
  · cases leads : FileTree.walk cur parent tree links here front with
    | error refusal =>
        rw [spot_refused leads] at ends
        cases ends
    | ok place =>
        rw [spot_concat leads] at ends
        rw [spot_concat (passes.walk leads)]
        exact ends

omit [DecidableEq Name] in
theorem Grows.passes (grows : Grows tree tree') : Passes tree tree' :=
  fun loc node found _ => grows.kept loc node found

theorem Grows.spot (grows : Grows tree tree') {names : List Name} {found : Spot Name}
    (ends : FileTree.spot cur parent tree links here names = .ok found) :
    FileTree.spot cur parent tree' links here names = .ok found :=
  grows.passes.spot ends

/-- What leads somewhere has an end. -/
theorem spot_of_walk {names : List Name} {place : List Name × Nat}
    (leads : walk cur parent tree links here names = .ok place) :
    spot cur parent tree links here names = .ok (.inside place.1) ∨
      ∃ loc, spot cur parent tree links here names = .ok (.slot loc) ∧ tree.node loc ≠ none := by
  rcases List.eq_nil_or_concat' names with rfl | ⟨front, last, rfl⟩
  · rw [walk_nil] at leads
    rw [← Except.ok.inj leads]
    exact .inl rfl
  · obtain ⟨mid, first, behind⟩ := walk_front leads
    rw [spot_concat first]
    by_cases isCur : last = cur
    · subst isCur
      rw [walk_cur, walk_nil] at behind
      rw [if_pos rfl, ← Except.ok.inj behind]
      exact .inl rfl
    · rw [if_neg isCur]
      by_cases isParent : last = parent
      · subst isParent
        rw [walk_parent isCur, walk_nil] at behind
        rw [if_pos rfl, ← Except.ok.inj behind]
        exact .inl rfl
      · rw [if_neg isParent]
        refine .inr ⟨_, rfl, fun absent => ?_⟩
        rw [walk, if_neg isCur, if_neg isParent, absent] at behind
        cases behind

/-- What the directory in front of the last name is named with does not matter. -/
theorem spot_congr {front front' : List Name} (last : Name)
    (same : walk cur parent tree links here front' = walk cur parent tree links here front) :
    spot cur parent tree links here (front' ++ [last]) =
      spot cur parent tree links here (front ++ [last]) := by
  cases leads : walk cur parent tree links here front with
  | error refusal => rw [spot_refused leads, spot_refused (same.trans leads)]
  | ok place => rw [spot_concat leads, spot_concat (same.trans leads)]

/-! ## Ends that are followed -/

theorem walk_links {names : List Name} {place : List Name × Nat}
    (leads : walk cur parent tree links here names = .ok place) : place.2 ≤ links := by
  fun_induction walk cur parent tree links here names with
  | case1 links here => exact Nat.le_of_eq (congrArg Prod.snd (Except.ok.inj leads)).symm
  | case2 links here rest inductionHypothesis => exact inductionHypothesis leads
  | case3 links here rest differ inductionHypothesis => exact inductionHypothesis leads
  | case4 links here name rest notCur notParent absent => cases leads
  | case5 links here name rest notCur notParent found inductionHypothesis =>
      exact inductionHypothesis leads
  | case6 here name rest notCur notParent rooted target link => cases leads
  | case7 here name rest notCur notParent rooted target link links inductionHypothesis =>
      exact Nat.le_succ_of_le (inductionHypothesis leads)
  | case8 links here name rest notCur notParent node notDir notLink found => cases leads

section Final

variable {depth : Nat} {front : List Name} {last : Name} {place : List Name × Nat}

theorem final_concat (leads : walk cur parent tree links here front = .ok place)
    (notCur : last ≠ cur) (notParent : last ≠ parent)
    (notLink : ∀ rooted target, tree.node (last :: place.1) ≠ some (.link rooted target)) :
    final cur parent tree (depth + 1) links here (front ++ [last]) = .ok (last :: place.1) := by
  rw [final, List.getLast?_concat, List.dropLast_concat]
  dsimp only
  rw [leads]
  show (if last = cur then _ else _) = _
  rw [if_neg notCur, if_neg notParent]
  cases node : tree.node (last :: place.1) with
  | none => rfl
  | some node' =>
      cases node' with
      | dir => rfl
      | file => rfl
      | other => rfl
      | link rooted target => exact absurd node (notLink rooted target)

theorem final_refused {refusal : Refusal}
    (refused : walk cur parent tree links here front = .error refusal) :
    final cur parent tree (depth + 1) links here (front ++ [last]) = .error refusal := by
  rw [final, List.getLast?_concat, List.dropLast_concat]
  dsimp only
  rw [refused]
  rfl

end Final

/-- A name that is no link is where its path ends. -/
theorem final_of_slot {names loc : List Name} {depth : Nat}
    (found : spot cur parent tree links here names = .ok (.slot loc))
    (notLink : ∀ rooted target, tree.node loc ≠ some (.link rooted target)) :
    final cur parent tree (depth + 1) links here names = .ok loc := by
  obtain ⟨front, last, place, rfl, rfl, notCur, notParent, leads⟩ := spot_slot found
  exact final_concat leads notCur notParent notLink

theorem final_of_spot_error {names : List Name} {depth : Nat} {refusal : Refusal}
    (refused : spot cur parent tree links here names = .error refusal) :
    final cur parent tree (depth + 1) links here names = .error refusal := by
  obtain ⟨front, last, rfl, unled⟩ := spot_error refused
  exact final_refused unled

/-- A directory that names lead to is where they end. The induction is on the links at the end
that are followed. -/
theorem final_of_walk {depth : Nat} {names : List Name} {place : List Name × Nat}
    (enough : links < depth) (leads : walk cur parent tree links here names = .ok place) :
    final cur parent tree depth links here names = .ok place.1 := by
  induction depth generalizing links here names with
  | zero => exact absurd enough (Nat.not_lt_zero _)
  | succ depth inductionHypothesis =>
      rcases List.eq_nil_or_concat' names with rfl | ⟨front, last, rfl⟩
      · rw [walk_nil] at leads
        rw [← Except.ok.inj leads]
        rfl
      · obtain ⟨mid, first, behind⟩ := walk_front leads
        rw [final, List.getLast?_concat, List.dropLast_concat]
        dsimp only
        rw [first]
        show (if last = cur then _ else _) = _
        by_cases isCur : last = cur
        · subst isCur
          rw [walk_cur, walk_nil] at behind
          rw [if_pos rfl, ← Except.ok.inj behind]
        · rw [if_neg isCur]
          by_cases isParent : last = parent
          · subst isParent
            rw [walk_parent isCur, walk_nil] at behind
            rw [if_pos rfl, ← Except.ok.inj behind]
          · rw [if_neg isParent]
            rw [walk, if_neg isCur, if_neg isParent] at behind
            split at behind
            next => cases behind
            next dir =>
              rw [walk_nil] at behind
              rw [dir, ← Except.ok.inj behind]
            next rooted target link =>
              split at behind
              next => cases behind
              next left some =>
                have fewer := walk_links first
                rw [some] at fewer
                rw [List.append_nil] at behind
                rw [link, some]
                exact inductionHypothesis (by omega) behind
            next => cases behind

/-! ## Aims -/

/-- What is aimed at by a path with one name more. -/
theorem aims_concat {names loc : List Name} {last : Name}
    (aims : Aims cur parent tree links here (names ++ [last]) loc) :
    (∃ left, walk cur parent tree links here (names ++ [last]) = .ok (loc, left)) ∨
    (last ≠ cur ∧ last ≠ parent ∧ ∃ above, loc = last :: above ∧
      Aims cur parent tree links here names above ∧
      (tree.node loc = none ∨ tree.node loc = some .dir)) ∨
    (last = cur ∧ Aims cur parent tree links here names loc) := by
  generalize all : names ++ [last] = names' at aims
  cases aims with
  | leads found => exact .inl ⟨_, found⟩
  | name above notCur notParent free =>
      obtain ⟨rfl, same⟩ := List.append_inj' all rfl
      obtain rfl : last = _ := (List.cons.inj same).1
      exact .inr (.inl ⟨notCur, notParent, _, rfl, above, free⟩)
  | same above =>
      obtain ⟨rfl, same⟩ := List.append_inj' all rfl
      obtain rfl : last = cur := (List.cons.inj same).1
      exact .inr (.inr ⟨rfl, above⟩)

theorem walk_concat {names : List Name} {last : Name} {place : List Name × Nat}
    (leads : walk cur parent tree links here names = .ok place) (notCur : last ≠ cur)
    (notParent : last ≠ parent) (dir : tree.node (last :: place.1) = some .dir) :
    walk cur parent tree links here (names ++ [last]) = .ok (last :: place.1, place.2) := by
  rw [walk_append, leads]
  show walk cur parent tree place.2 place.1 [last] = _
  rw [walk, if_neg notCur, if_neg notParent, dir]
  exact walk_nil

theorem walk_concat_missing {names : List Name} {last : Name} {place : List Name × Nat}
    (leads : walk cur parent tree links here names = .ok place) (notCur : last ≠ cur)
    (notParent : last ≠ parent) (absent : tree.node (last :: place.1) = none) :
    walk cur parent tree links here (names ++ [last]) = .error .missing := by
  rw [walk_append, leads]
  show walk cur parent tree place.2 place.1 [last] = _
  rw [walk, if_neg notCur, if_neg notParent, absent]

theorem walk_concat_refused {names : List Name} {last : Name} {refusal : Refusal}
    (refused : walk cur parent tree links here names = .error refusal) :
    walk cur parent tree links here (names ++ [last]) = .error refusal := by
  rw [walk_append, refused]
  rfl

theorem walk_concat_cur (names : List Name) :
    walk cur parent tree links here (names ++ [cur]) = walk cur parent tree links here names := by
  rw [walk_append]
  cases walk cur parent tree links here names with
  | error refusal => rfl
  | ok place => exact (walk_cur []).trans walk_nil

/-- A path leads to what it aims at, or what it aims at is missing. -/
theorem aims_cases {names loc : List Name} (aims : Aims cur parent tree links here names loc) :
    (∃ left, walk cur parent tree links here names = .ok (loc, left)) ∨
      (walk cur parent tree links here names = .error .missing ∧ tree.node loc = none) := by
  induction aims with
  | leads found => exact .inl ⟨_, found⟩
  | name above notCur notParent free inductionHypothesis =>
      rcases inductionHypothesis with ⟨left, leads⟩ | ⟨refused, absent⟩
      · rcases free with none | dir
        · exact .inr ⟨walk_concat_missing leads notCur notParent none, none⟩
        · exact .inl ⟨left, walk_concat leads notCur notParent dir⟩
      · refine .inr ⟨walk_concat_refused refused, ?_⟩
        by_contra some
        have above := tree.above _ _ some
        rw [absent] at above
        cases above
  | same above inductionHypothesis =>
      rw [walk_concat_cur]
      exact inductionHypothesis

theorem aims_walk {names loc : List Name} {place : List Name × Nat}
    (aims : Aims cur parent tree links here names loc)
    (leads : walk cur parent tree links here names = .ok place) : place.1 = loc := by
  rcases aims_cases aims with ⟨left, found⟩ | ⟨refused, -⟩
  · rw [leads] at found
    rw [Except.ok.inj found]
  · rw [leads] at refused
    cases refused

theorem aims_refused {names loc : List Name} {refusal : Refusal}
    (aims : Aims cur parent tree links here names loc)
    (refused : walk cur parent tree links here names = .error refusal) :
    refusal = .missing ∧ tree.node loc = none := by
  rcases aims_cases aims with ⟨left, found⟩ | ⟨missing, absent⟩
  · rw [refused] at found
    cases found
  · rw [refused] at missing
    exact ⟨Except.error.inj missing, absent⟩

theorem aims_dir {names loc : List Name} (aims : Aims cur parent tree links here names loc)
    (dir : tree.node loc = some .dir) :
    ∃ left, walk cur parent tree links here names = .ok (loc, left) := by
  rcases aims_cases aims with found | ⟨-, absent⟩
  · exact found
  · rw [dir] at absent
    cases absent

/-- Where a directory can be made, it is the one that is aimed at. -/
theorem aims_slot {names loc loc' : List Name}
    (aims : Aims cur parent tree links here names loc)
    (ends : spot cur parent tree links here names = .ok (.slot loc'))
    (free : tree.node loc' = none ∨ tree.node loc' = some .dir) : loc' = loc := by
  obtain ⟨front, last, place, rfl, rfl, notCur, notParent, leads⟩ := spot_slot ends
  rcases aims_concat aims with ⟨left, found⟩ | ⟨-, -, above, rfl, aimsFront, -⟩ | ⟨isCur, -⟩
  · rcases free with none | dir
    · rw [walk_concat_missing leads notCur notParent none] at found
      cases found
    · rw [walk_concat leads notCur notParent dir] at found
      exact congrArg Prod.fst (Except.ok.inj found)
  · rw [aims_walk aimsFront leads]
  · exact absurd isCur notCur

/-- If the place of the last name is missing, then for the path in front of it. -/
theorem aims_front {front loc : List Name} {last : Name} {refusal : Refusal}
    (aims : Aims cur parent tree links here (front ++ [last]) loc)
    (refused : walk cur parent tree links here front = .error refusal) :
    ∃ above, Aims cur parent tree links here front above ∧ above <:+ loc ∧
      (last ≠ cur → last ≠ parent ∧ loc = last :: above) ∧ (last = cur → loc = above) := by
  rcases aims_concat aims with
    ⟨left, found⟩ | ⟨notCur, notParent, above, rfl, aimsFront, -⟩ | ⟨isCur, aimsFront⟩
  · rw [walk_concat_refused refused] at found
    cases found
  · exact ⟨above, aimsFront, List.suffix_cons _ _, fun _ => ⟨notParent, rfl⟩,
      fun isCur => absurd isCur notCur⟩
  · exact ⟨loc, aimsFront, List.suffix_rfl, fun notCur => absurd isCur notCur, fun _ => rfl⟩

/-- What is aimed at stays, while at most directories are made on the way. -/
theorem Aims.grows {names loc : List Name} (aims : Aims cur parent tree links here names loc)
    (grows : Grows tree tree')
    (free : ∀ low, low <:+ loc → tree.node low = none →
      tree'.node low = none ∨ tree'.node low = some .dir) :
    Aims cur parent tree' links here names loc := by
  induction aims with
  | leads found => exact .leads (grows.walk found)
  | name above notCur notParent here inductionHypothesis =>
      refine .name (inductionHypothesis fun low inside => free low (inside.trans
        (List.suffix_cons _ _))) notCur notParent ?_
      rcases here with none | dir
      · exact free _ List.suffix_rfl none
      · exact .inr (grows.kept _ _ dir)
  | same above inductionHypothesis => exact .same (inductionHypothesis free)

end FileTree

end Ucb.Lib
