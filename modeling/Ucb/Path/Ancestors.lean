import Ucb.Path.Join

/-!
Contract: the parents of a path, in styles that write `/`.

Owns:
- `ucb_path_is_empty`, `ucb_path_equals` and the loop of `ucb_path_parents`;
- the components of the paths that parsing, joining and taking parents make;
- the parent as the path without its last component, and the parents as the
  ancestors of the parts.

A parent is represented by a path without a name or by one with a shorter
directory. What a path stands for is the same list of components either way, and
the proofs are about that list.
-/

namespace Ucb.Path

open Ucb.Lib

/-! ## The loop over the parents -/

def ucbPathIsEmpty (path : UcbPath) : Bool :=
  path.dir = [] ∧ path.stem = [] ∧ path.ext = []

def ucbPathEquals (conf : UcbPathStyle) (a b : UcbPath) : Bool :=
  pathComposeTo conf a = pathComposeTo conf b

/-- The loop of `ucb_path_parents`, which has filled `vec`; nothing when it runs out
of fuel. -/
def parentsLoop (conf : UcbPathStyle) :
    (fuel : Nat) → (vec : List (List UInt8)) → (cur : UcbPath) → Option (List (List UInt8))
  | 0, _, _ => none
  | fuel + 1, vec, cur =>
      if ucbPathIsEmpty cur then some vec
      else
        let parent := ucbPathParent conf cur
        if ucbPathIsEmpty parent ∨ ucbPathEquals conf cur parent then some vec
        else parentsLoop conf fuel (vec ++ [pathComposeTo conf parent]) parent

def ucbPathParents (conf : UcbPathStyle) (fuel : Nat) (path : UcbPath) :
    Option (List (List UInt8)) :=
  parentsLoop conf fuel [] path

/-! ## Joined components -/

/-- Components put behind components. -/
theorem pathAppendSegment_joined (lead : Nat) {front back : List (List UInt8)}
    (properFront : Proper front) (properBack : Proper back) :
    pathAppendSegment (List.replicate lead slash ++ joined front) (joined back) slash =
      List.replicate lead slash ++ joined (front ++ back) := by
  cases back with
  | nil => simp [joined]
  | cons first rest =>
      have nonempty := (joined_getLast properBack (List.cons_ne_nil first rest)).1
      rw [pathAppendSegment_eq _ nonempty]
      by_cases none : front = []
      · subst none
        have noJunction : ¬ (List.replicate lead slash ++ joined [] ≠ [] ∧
            (List.replicate lead slash ++ joined []).getLast? ≠ some slash) := by
          cases lead with
          | zero => simp [joined]
          | succ lead => simp [joined, List.getLast?_replicate]
        rw [if_neg noJunction]
        simp [joined]
      · obtain ⟨some, last⟩ := joined_getLast properFront none
        have junction : List.replicate lead slash ++ joined front ≠ [] ∧
            (List.replicate lead slash ++ joined front).getLast? ≠ Option.some slash := by
          rw [List.getLast?_append_of_ne_nil _ some]
          exact ⟨by simp [some], last⟩
        have whole : joined (front ++ first :: rest) =
            joined front ++ slash :: joined (first :: rest) := by
          rw [joined, joined, joined, intercalate_append slash none, intercalate_cons]
          rfl
        rw [if_pos junction, whole]
        simp

theorem joined_completed (name : List UInt8) : joined (completed name) = name := by
  cases name with
  | nil => rfl
  | cons c rest => exact List.append_nil _

/-- Lists of components that are joined to the same text are the same. -/
theorem joined_inj {segs other : List (List UInt8)} (proper : Proper segs)
    (properOther : Proper other) (same : joined segs = joined other) : segs = other := by
  rw [← pathSegments_joined proper, same, pathSegments_joined properOther]

theorem completed_of_clean {name : List UInt8} (clean : Clean pathIsSep name) :
    Proper (completed name) := by
  cases name with
  | nil => exact fun _ member => absurd member List.not_mem_nil
  | cons c rest =>
      intro segment member
      obtain rfl := List.mem_singleton.mp member
      exact ⟨List.cons_ne_nil _ _, clean⟩

theorem Proper.append {front back : List (List UInt8)} (properFront : Proper front)
    (properBack : Proper back) : Proper (front ++ back) := by
  intro segment member
  rcases List.mem_append.mp member with inside | behind
  · exact properFront segment inside
  · exact properBack segment behind

theorem Proper.left {front back : List (List UInt8)} (proper : Proper (front ++ back)) :
    Proper front :=
  fun segment member => proper segment (List.mem_append_left _ member)

/-! ## What a path stands for -/

/-- The path stands for components behind `lead` separators, the name being the last
component if there is one. -/
structure StandsFor (conf : UcbPathStyle) (path : UcbPath) (lead : Nat)
    (comps : List (List UInt8)) : Prop where
  posix : pathSepOf conf path.style = slash
  few : lead ≤ 2
  proper : Proper comps
  stored : ∃ segs, path.dir = List.replicate lead slash ++ joined segs ∧
    comps = segs ++ completed (path.stem ++ path.ext)

variable {conf : UcbPathStyle} {path other : UcbPath} {lead : Nat} {comps : List (List UInt8)}

theorem StandsFor.parse (str : List UInt8) {style : UcbPathStyle}
    (posix : pathSepOf conf style = slash) :
    ∃ lead comps, StandsFor conf (pathParse conf str style) lead comps := by
  have resolved : pathSepOf conf (pathResolveStyle conf style) = slash := by
    rw [pathSepOf_resolve, posix]
  by_cases empty : str = []
  · subst empty
    exact ⟨0, [], resolved, Nat.zero_le _, fun _ member => absurd member List.not_mem_nil, [],
      rfl, rfl⟩
  · obtain ⟨region, name, rfl, clean, shape⟩ := exists_name_split str
    obtain ⟨count, atMostTwo, replicate, -⟩ := leadSeps_replicate (leadCount region)
      (decide (pathSegments region ≠ []))
    refine ⟨count, pathSegments region ++ completed name, ?_⟩
    rw [pathParse_split conf style clean shape empty, posix, pathBuildDir_eq, replicate]
    refine ⟨resolved, atMostTwo, (proper_pathSegments region).append (completed_of_clean clean),
      pathSegments region, rfl, ?_⟩
    rw [parseFilename_append]

theorem StandsFor.compose (stands : StandsFor conf path lead comps) :
    pathComposeTo conf path = List.replicate lead slash ++ joined comps := by
  obtain ⟨segs, dir, rfl⟩ := stands.stored
  have whole : pathComposeTo conf path =
      pathAppendSegment path.dir (path.stem ++ path.ext) slash := by
    by_cases unnamed : path.stem ++ path.ext = []
    · obtain ⟨noStem, noExt⟩ := List.append_eq_nil_iff.mp unnamed
      simp [pathComposeTo, pathJunction, noStem, noExt]
    · have named : path.stem ≠ [] ∨ path.ext ≠ [] := by
        by_contra neither
        simp only [ne_eq, not_or, not_not] at neither
        exact unnamed (by simp [neither])
      rw [pathAppendSegment_eq _ unnamed, pathComposeTo, pathJunction, stands.posix]
      simp [named]
  have joinedName := pathAppendSegment_joined lead stands.proper.left
    (fun segment member => stands.proper segment (List.mem_append_right _ member))
  rw [joined_completed] at joinedName
  rw [whole, dir, joinedName]

theorem StandsFor.isEmpty (stands : StandsFor conf path lead comps) :
    ucbPathIsEmpty path = true ↔ lead = 0 ∧ comps = [] := by
  obtain ⟨segs, dir, rfl⟩ := stands.stored
  have noSegs : joined segs = [] ↔ segs = [] := by
    refine ⟨fun none => joined_inj stands.proper.left (by simp [Proper]) none, ?_⟩
    rintro rfl
    rfl
  have noName : completed (path.stem ++ path.ext) = [] ↔ path.stem = [] ∧ path.ext = [] := by
    rw [completed_name, ← not_iff_not]
    simp [imp_iff_not_or]
  simp only [ucbPathIsEmpty, decide_eq_true_eq, dir, List.append_eq_nil_iff, noName,
    List.replicate_eq_nil_iff, noSegs, and_assoc]

theorem StandsFor.isAbsolute (stands : StandsFor conf path lead comps) :
    ucbPathIsAbsolute conf path = decide (lead ≠ 0) := by
  obtain ⟨segs, dir, rfl⟩ := stands.stored
  rw [isAbsolute_eq, dir, stands.posix]
  cases lead with
  | succ lead => simp [List.replicate_succ, pathSepMatch, pathIsSep]
  | zero =>
      have head := joined_head stands.proper.left
      cases text : joined segs with
      | nil => rfl
      | cons c rest =>
          rw [text] at head
          by_cases isSep : pathIsSep c = true
          · simp [isSep] at head
          · simp [pathSepMatch_slash, isSep]

def rootPart (lead : Nat) : List (List UInt8) :=
  if lead = 0 then [] else [List.replicate lead slash]

theorem StandsFor.parts (stands : StandsFor conf path lead comps) :
    storedParts conf path = rootPart lead ++ comps := by
  obtain ⟨segs, dir, rfl⟩ := stands.stored
  have few := stands.few
  have leads : leadOf slash (List.replicate lead slash ++ joined segs) = lead := by
    rw [leadOf_slash, leadCount_replicate (joined_head stands.proper.left)]
  have seps : ∀ c ∈ List.replicate lead slash, pathIsSep c = true := by
    intro c member
    rw [List.eq_of_mem_replicate member]
    decide
  have split : segments (pathSepMatch · slash) (List.replicate lead slash ++ joined segs) =
      segs := by
    simp only [pathSepMatch_slash]
    rw [segments_seps_append seps]
    exact pathSegments_joined stands.proper.left
  have root : rootParts slash (List.replicate lead slash ++ joined segs) = rootPart lead := by
    rw [rootParts, leads, rootPart]
    obtain rfl | rfl | rfl : lead = 0 ∨ lead = 1 ∨ lead = 2 := by omega
    · rfl
    · rfl
    · rfl
  rw [storedParts, stands.posix, dir, splitParts, root, split, List.append_assoc]

/-! ## Joining -/

theorem StandsFor.append {otherLead : Nat} {otherComps : List (List UInt8)}
    (stands : StandsFor conf path lead comps)
    (operand : StandsFor conf other otherLead otherComps) :
    ∃ lead comps, StandsFor conf (ucbPathAppend conf path other) lead comps := by
  by_cases absolute : ucbPathIsAbsolute conf other = true
  · rw [append_absolute path absolute]
    exact ⟨_, _, operand⟩
  · have relative : ucbPathIsAbsolute conf other = false := by simpa using absolute
    obtain rfl : otherLead = 0 := by simpa [operand.isAbsolute] using relative
    obtain ⟨segs, dir, rfl⟩ := stands.stored
    obtain ⟨more, otherDir, rfl⟩ := operand.stored
    have named := pathAppendSegment_joined lead stands.proper.left
      (fun segment member => stands.proper segment (List.mem_append_right _ member))
    rw [joined_completed] at named
    have longer := pathAppendSegment_joined lead stands.proper operand.proper.left
    rw [append_relative path relative, stands.posix]
    refine ⟨lead, segs ++ completed (path.stem ++ path.ext) ++ more ++
      completed (other.stem ++ other.ext), stands.posix, stands.few, ?_, _, ?_, rfl⟩
    · rw [List.append_assoc]
      exact stands.proper.append operand.proper
    · dsimp only
      rw [dir, otherDir, List.replicate_zero, List.nil_append, named, longer]

/-! ## Parents -/

/-- The scan passes what holds no separator. -/
theorem parentCut_clean {front word : List UInt8} (clean : Clean pathIsSep word) {anchorLen : Nat}
    (behind : anchorLen ≤ front.length) :
    ∀ count ≤ word.length, parentCut (front ++ word) slash anchorLen (front.length + count) =
      parentCut (front ++ word) slash anchorLen front.length := by
  intro count
  induction count with
  | zero => exact fun _ => rfl
  | succ count inductionHypothesis =>
      intro inside
      have item : (front ++ word)[front.length + count]? = some word[count] := by
        rw [List.getElem?_append_right (by omega), Nat.add_sub_cancel_left,
          List.getElem?_eq_getElem (by omega)]
      have notSep : pathSepMatch word[count] slash = false := by
        rw [pathSepMatch_slash]
        exact clean _ (List.getElem_mem _)
      rw [← Nat.add_assoc, parentCut, if_neg (by omega), item, Option.any_some, notSep,
        if_neg Bool.false_ne_true]
      exact inductionHypothesis (by omega)

theorem parentCut_anchor (dir : List UInt8) (anchorLen : Nat) :
    parentCut dir slash anchorLen anchorLen = none := by
  cases anchorLen with
  | zero => rfl
  | succ anchorLen => exact if_pos (Nat.lt_succ_self _)

/-- Behind the anchor there is one component and no separator. -/
theorem parentCut_single (anchor : List UInt8) {word : List UInt8} (clean : Clean pathIsSep word) :
    parentCut (anchor ++ word) slash anchor.length (anchor ++ word).length = none := by
  rw [List.length_append, parentCut_clean clean (Nat.le_refl _) _ (Nat.le_refl _)]
  exact parentCut_anchor _ _

/-- The scan finds the separator in front of the last component. -/
theorem parentCut_junction (front : List UInt8) {word : List UInt8} (clean : Clean pathIsSep word)
    {anchorLen : Nat} (behind : anchorLen ≤ front.length) :
    parentCut (front ++ slash :: word) slash anchorLen (front ++ slash :: word).length =
      some front.length := by
  have shape : front ++ slash :: word = (front ++ [slash]) ++ word := by simp
  have inside : anchorLen ≤ (front ++ [slash]).length := by
    rw [List.length_append]
    omega
  have item : (front ++ [slash] ++ word)[front.length]? = some slash := by simp
  rw [shape, List.length_append, parentCut_clean clean inside _ (Nat.le_refl _),
    List.length_append, List.length_singleton, parentCut, if_neg (by omega), item]
  rfl

/-- What is left of a directory when its last component is taken away. -/
theorem parent_dir (posix : pathSepOf conf path.style = slash)
    (unnamed : path.stem = [] ∧ path.ext = []) (few : lead ≤ 2) {segs : List (List UInt8)}
    (proper : Proper segs) (dir : path.dir = List.replicate lead slash ++ joined segs) :
    ucbPathParent conf path =
      { path with dir := List.replicate lead slash ++ joined segs.dropLast } := by
  have anchor : pathDetectAnchor path.dir slash = (if lead = 0 then .none else .root, lead) := by
    rw [dir, pathDetectAnchor_replicate (joined_head proper) pathSepMatch_slash]
    obtain rfl | rfl | rfl : lead = 0 ∨ lead = 1 ∨ lead = 2 := by omega
    · rfl
    · rfl
    · rfl
  have whole : (if (if lead = 0 then PathAnchorKind.none else .root) ≠ .none then
      pathBuildAnchor path.dir (if lead = 0 then .none else .root) lead slash else []) =
      List.replicate lead slash := by
    have inside : lead ≤ leadOf slash path.dir := by
      rw [dir, leadOf_slash, leadCount_replicate (joined_head proper)]
    by_cases relative : lead = 0
    · simp [relative]
    · rw [if_neg relative, if_pos (fun same => by cases same), pathBuildAnchor_root inside]
  have noName : ¬ (path.stem ≠ [] ∨ path.ext ≠ []) := by simp [unnamed]
  rw [ucbPathParent, if_neg noName]
  simp only [posix, anchor, whole]
  -- the scan stops behind the last component but one, or finds nothing
  rcases List.eq_nil_or_concat' segs with rfl | ⟨front, last, rfl⟩
  · have cut : parentCut path.dir slash lead path.dir.length = none := by
      have length : path.dir.length = lead := by simp [dir, joined]
      rw [length, parentCut_anchor]
    simp [cut, joined]
  · have clean := (proper last (by simp)).2
    by_cases single : front = []
    · subst single
      have alone : joined ([] ++ [last]) = last := List.append_nil last
      have cut := parentCut_single (List.replicate lead slash) clean
      rw [List.length_replicate] at cut
      simp only [dir, alone, cut]
      simp [joined]
    · have shape : path.dir = (List.replicate lead slash ++ joined front) ++ slash :: last := by
        rw [dir, joined_concat front single last, List.append_assoc]
      have anchored : lead ≤ (List.replicate lead slash ++ joined front).length := by simp
      have cut := parentCut_junction (List.replicate lead slash ++ joined front) clean anchored
      have beyond : ¬ (List.replicate lead slash ++ joined front).length ≤ lead := by
        have longer := List.length_pos_of_ne_nil (joined_getLast proper.left single).1
        rw [List.length_append, List.length_replicate]
        omega
      simp only [shape, cut, if_neg beyond, List.take_left, List.dropLast_concat]

/-- The parent of a path stands for its components without the last one. -/
theorem StandsFor.parent (stands : StandsFor conf path lead comps) :
    StandsFor conf (ucbPathParent conf path) lead comps.dropLast := by
  obtain ⟨segs, dir, rfl⟩ := stands.stored
  have shorter {segs : List (List UInt8)} (proper : Proper segs) : Proper segs.dropLast :=
    fun segment member => proper segment (List.mem_of_mem_dropLast member)
  by_cases named : path.stem ≠ [] ∨ path.ext ≠ []
  · have kept : (segs ++ completed (path.stem ++ path.ext)).dropLast = segs := by
      rw [completed_name, if_pos named, List.dropLast_concat]
    rw [kept, ucbPathParent, if_pos named]
    exact ⟨stands.posix, stands.few, stands.proper.left, segs, dir, (List.append_nil _).symm⟩
  · have unnamed : path.stem = [] ∧ path.ext = [] := by
      simpa only [ne_eq, not_or, not_not] using named
    have noName : completed (path.stem ++ path.ext) = [] := by rw [completed_name, if_neg named]
    rw [noName, List.append_nil, parent_dir stands.posix unnamed stands.few stands.proper.left dir]
    refine ⟨stands.posix, stands.few, shorter stands.proper.left, segs.dropLast, rfl, ?_⟩
    dsimp only
    rw [noName, List.append_nil]

/-- Without a component there is nothing to take away: a root is its own parent. -/
theorem StandsFor.parent_root (stands : StandsFor conf path lead []) :
    ucbPathParent conf path = path := by
  obtain ⟨segs, dir, none⟩ := stands.stored
  obtain ⟨rfl, noName⟩ := List.append_eq_nil_iff.mp none.symm
  have unnamed : path.stem = [] ∧ path.ext = [] := by
    rw [completed_name] at noName
    simpa only [ne_eq, not_or, not_not, ite_eq_right_iff, reduceCtorEq, imp_false] using noName
  rw [parent_dir stands.posix unnamed stands.few (fun _ member => absurd member List.not_mem_nil)
    dir, List.dropLast_nil, ← dir]

/-! ## Every path -/

/-- Parsing, appending and taking parents, in styles that write `/`. -/
def PosixSteps (conf : UcbPathStyle) (_ : UcbPath) : PathOp → Prop
  | .initStyle _ style => pathSepOf conf style = slash
  | .assign _ | .append _ | .appendStr _ | .parent => True
  | .normalize | .setDir _ | .setFilename _ | .setStyle _ => False

/-- A step keeps what it is about: components behind separators. -/
theorem standsFor_op {op : PathOp} (stands : StandsFor conf path lead comps)
    (operand : ∀ other, op = .append other → ∃ lead comps, StandsFor conf other lead comps)
    (allowed : PosixSteps conf path op) :
    ∃ lead comps, StandsFor conf (applyOp conf path op) lead comps := by
  cases op with
  | initStyle str style => exact StandsFor.parse _ allowed
  | assign str => exact StandsFor.parse _ stands.posix
  | append other =>
      obtain ⟨_, _, parsed⟩ := operand other rfl
      exact stands.append parsed
  | appendStr other =>
      obtain ⟨_, _, parsed⟩ := StandsFor.parse other stands.posix
      exact stands.append parsed
  | parent => exact ⟨_, _, stands.parent⟩
  | normalize => exact allowed.elim
  | setDir dir => exact allowed.elim
  | setFilename name => exact allowed.elim
  | setStyle style => exact allowed.elim

theorem standsFor_of_made (made : Made conf (PosixSteps conf) path) :
    ∃ lead comps, StandsFor conf path lead comps := by
  induction made with
  | init allowed => exact StandsFor.parse _ allowed
  | op made operand allowed inductionHypothesis operands =>
      obtain ⟨_, _, stands⟩ := inductionHypothesis
      exact standsFor_op stands operands allowed

/-! ## All parents -/

/-- The text of a list of parts: a root is written in front of the components, which are
written with separators between them. -/
def partsText : List (List UInt8) → List UInt8
  | [] => []
  | first :: rest =>
      if first.head? = some slash then first ++ joined rest else joined (first :: rest)

theorem partsText_rootPart (lead : Nat) {comps : List (List UInt8)} (proper : Proper comps) :
    partsText (rootPart lead ++ comps) = List.replicate lead slash ++ joined comps := by
  cases lead with
  | succ lead => simp [rootPart, partsText, List.replicate_succ]
  | zero =>
      cases comps with
      | nil => rfl
      | cons first rest =>
          obtain ⟨-, clean⟩ := proper first List.mem_cons_self
          have relative : first.head? ≠ some slash := fun head =>
            absurd (clean slash (List.mem_of_head? head)) (by decide)
          simp [rootPart, partsText, relative]

/-- The loop fills in the ancestors of the parts: it goes on with the parent as long as the
parent has a part and is shorter. -/
theorem parentsLoop_eq (stands : StandsFor conf path lead comps) {fuel : Nat}
    (enough : comps.length < fuel) (vec : List (List UInt8)) :
    parentsLoop conf fuel vec path =
      some (vec ++ (ancestors (rootPart lead ++ comps)).map partsText) := by
  induction fuel generalizing path comps vec with
  | zero => omega
  | succ fuel inductionHypothesis =>
      have parent := stands.parent
      rcases List.eq_nil_or_concat' comps with rfl | ⟨front, last, rfl⟩
      · have itself : ucbPathEquals conf path (ucbPathParent conf path) = true := by
          rw [stands.parent_root]
          exact decide_eq_true rfl
        have noAncestor : ancestors (rootPart lead) = [] := by
          rw [rootPart]
          split
          · rfl
          · rfl
        simp [parentsLoop, itself, noAncestor]
      · rw [List.dropLast_concat] at parent
        have notEmpty : ¬ ucbPathIsEmpty path = true := by simp [stands.isEmpty]
        have shorter : ¬ ucbPathEquals conf path (ucbPathParent conf path) = true := by
          intro equal
          have same := of_decide_eq_true equal
          rw [stands.compose, parent.compose] at same
          have front_eq := joined_inj stands.proper stands.proper.left
            (List.append_cancel_left same)
          simpa using congrArg List.length front_eq
        rw [parentsLoop, if_neg notEmpty, ← List.append_assoc, ancestors_concat]
        by_cases none : rootPart lead ++ front = []
        · have parentEmpty : ucbPathIsEmpty (ucbPathParent conf path) = true := by
            obtain ⟨noRoot, noFront⟩ := List.append_eq_nil_iff.mp none
            rw [parent.isEmpty]
            refine ⟨?_, noFront⟩
            by_contra rooted
            simp [rootPart, rooted] at noRoot
          simp [parentEmpty, none]
        · have parentSome : ¬ ucbPathIsEmpty (ucbPathParent conf path) = true := by
            rw [parent.isEmpty]
            rintro ⟨rfl, rfl⟩
            exact none rfl
          have behind : front.length < fuel := by
            rw [List.length_append, List.length_singleton] at enough
            omega
          have neither : ¬ (ucbPathIsEmpty (ucbPathParent conf path) = true ∨
              ucbPathEquals conf path (ucbPathParent conf path) = true) :=
            fun either => either.elim parentSome shorter
          dsimp only
          rw [if_neg neither, if_neg none, inductionHypothesis parent behind, parent.compose,
            ← partsText_rootPart lead parent.proper, List.map_cons, List.append_assoc]
          rfl

/-! ## Parent chains -/

theorem composed_inj {count count' : Nat} {segs segs' : List (List UInt8)}
    (proper : Proper segs) (proper' : Proper segs')
    (same : List.replicate count slash ++ joined segs =
      List.replicate count' slash ++ joined segs') : count = count' ∧ segs = segs' := by
  have leads := congrArg leadCount same
  rw [leadCount_replicate (joined_head proper), leadCount_replicate (joined_head proper')] at leads
  subst leads
  exact ⟨rfl, joined_inj proper proper' (List.append_cancel_left same)⟩

theorem parts_partsText (style : UcbPathStyle) (posix : pathSepOf conf style = slash)
    (few : lead ≤ 2) (proper : Proper comps) {above : List (List UInt8)}
    (member : above ∈ ancestors (rootPart lead ++ comps)) :
    pathParts conf (pathParse conf (partsText above) style) = above.map some := by
  obtain ⟨prefixed, some, -⟩ := mem_ancestors.mp member
  obtain ⟨front, frontPrefix, rfl⟩ : ∃ front, front <+: comps ∧ above = rootPart lead ++ front := by
    unfold rootPart at prefixed ⊢
    by_cases relative : lead = 0
    · exact ⟨above, by simpa [relative] using prefixed, by simp [relative]⟩
    · rw [if_neg relative] at prefixed ⊢
      obtain ⟨first, front, rfl⟩ := List.exists_cons_of_ne_nil some
      obtain ⟨rfl, frontPrefix⟩ := List.cons_prefix_cons.mp prefixed
      exact ⟨front, frontPrefix, rfl⟩
  have properFront : Proper front := fun segment inside =>
    proper segment (frontPrefix.subset inside)
  have nonempty : List.replicate lead slash ++ joined front ≠ [] := by
    intro none
    obtain ⟨noLead, noFront⟩ := List.append_eq_nil_iff.mp none
    obtain rfl : lead = 0 := by simpa using noLead
    obtain rfl : front = [] := joined_inj properFront (fun _ inside => absurd inside
      List.not_mem_nil) noFront
    exact some rfl
  rw [partsText_rootPart lead properFront]
  obtain ⟨lead', comps', parsed⟩ := StandsFor.parse
    (List.replicate lead slash ++ joined front) posix
  have text := parsed.compose
  rw [compose_parse_replicate posix few properFront nonempty] at text
  obtain ⟨rfl, rfl⟩ := composed_inj properFront parsed.proper text
  rw [pathParts_eq, parsed.parts]

/-- The parent of a path with these parts, and all its parents. -/
structure ChainExact (conf : UcbPathStyle) (path : UcbPath) (parts : List (List UInt8)) :
    Prop where
  stored : pathParts conf path = parts.map some
  /-- A root keeps its part. -/
  parent : pathParts conf (ucbPathParent conf path) =
    (if ucbPathIsAbsolute conf path ∧ parts.length = 1 then parts else parts.dropLast).map some
  root : ucbPathIsAbsolute conf path = true → parts.length = 1 → ucbPathParent conf path = path
  single : ucbPathIsAbsolute conf path = false → parts.length = 1 →
    ucbPathIsEmpty (ucbPathParent conf path) = true
  parents : ∀ fuel, parts.length < fuel →
    ucbPathParents conf fuel path = some ((ancestors parts).map partsText)
  /-- The text of a parent has the parts of that parent. -/
  texts : ∀ above ∈ ancestors parts,
    pathParts conf (pathParse conf (partsText above) path.style) = above.map some
  once : ((ancestors parts).map partsText).Nodup
  ends : ucbPathIsAbsolute conf path = true → 1 < parts.length →
    ((ancestors parts).map partsText).getLast? = parts.head? ∧
      (parts.head? = some [slash] ∨ parts.head? = some [slash, slash])

theorem map_some_inj {parts other : List (List UInt8)} (same : parts.map some = other.map some) :
    parts = other :=
  List.map_injective_iff.mpr (fun _ _ => Option.some.inj) same

theorem rootPart_length (lead : Nat) : (rootPart lead).length = if lead = 0 then 0 else 1 := by
  unfold rootPart
  split <;> rfl

theorem StandsFor.chainExact (stands : StandsFor conf path lead comps) :
    ChainExact conf path (rootPart lead ++ comps) := by
  have parent := stands.parent
  have absolute := stands.isAbsolute
  have texts (above : List (List UInt8)) (member : above ∈ ancestors (rootPart lead ++ comps)) :=
    parts_partsText path.style stands.posix stands.few stands.proper member
  have length : (rootPart lead ++ comps).length = (if lead = 0 then 0 else 1) + comps.length := by
    rw [List.length_append, rootPart_length]
  constructor
  case stored => rw [pathParts_eq, stands.parts]
  case parent =>
    rw [pathParts_eq, parent.parts, absolute, length]
    by_cases relative : lead = 0
    · simp [rootPart, relative]
    · cases comps with
      | nil => simp [relative]
      | cons first rest => simp [rootPart, relative]
  case root =>
    intro isAbsolute one
    rw [absolute, decide_eq_true_eq] at isAbsolute
    rw [length, if_neg isAbsolute] at one
    obtain rfl : comps = [] := List.length_eq_zero_iff.mp (by omega)
    exact stands.parent_root
  case single =>
    intro isRelative one
    rw [absolute, decide_eq_false_iff_not, not_not] at isRelative
    rw [length, if_pos isRelative, Nat.zero_add] at one
    obtain ⟨last, rfl⟩ := List.length_eq_one_iff.mp one
    exact parent.isEmpty.mpr ⟨isRelative, rfl⟩
  case parents =>
    intro fuel enough
    have behind : comps.length < fuel := by omega
    have loop := parentsLoop_eq stands behind []
    rwa [List.nil_append] at loop
  case texts => exact texts
  case once =>
    refine List.pairwise_map.mpr ((ancestors_shorten _).imp_of_mem ?_)
    intro below above belowMember aboveMember shorter same
    -- two parents with one text would have the same parts
    have parts := texts below belowMember
    rw [same, texts above aboveMember] at parts
    rw [map_some_inj parts] at shorter
    exact Nat.lt_irrefl _ shorter
  case ends =>
    intro isAbsolute several
    rw [absolute, decide_eq_true_eq] at isAbsolute
    rw [length, if_neg isAbsolute] at several
    have nonempty : comps ≠ [] := List.ne_nil_of_length_pos (by omega)
    have few := stands.few
    have shape : rootPart lead = [List.replicate lead slash] := if_neg isAbsolute
    rw [shape, List.singleton_append, List.getLast?_map, ancestors_getLast nonempty]
    have text := partsText_rootPart lead (fun _ inside => absurd inside List.not_mem_nil :
      Proper [])
    rw [shape] at text
    refine ⟨?_, ?_⟩
    · simpa [joined] using text
    · obtain rfl | rfl | rfl : lead = 0 ∨ lead = 1 ∨ lead = 2 := by omega
      · exact absurd rfl isAbsolute
      · exact .inl rfl
      · exact .inr rfl

/-- Parent chains are exact and finite: of a path that parsing, appending and taking parents
have made the parent has the parts but the last one, and `ucb_path_parents` gives the ancestors
of the parts, the nearest first, in as many steps as the path has parts. -/
theorem parent_chain_exact (made : Made conf (PosixSteps conf) path) :
    ∃ parts, ChainExact conf path parts := by
  obtain ⟨_, _, stands⟩ := standsFor_of_made made
  exact ⟨_, stands.chainExact⟩

/-- `//a/b` has the parents `//a` and `//`. -/
theorem parent_chain_exact_doubleRoot :
    ucbPathParents .default 5
        (ucbPathInitStyle .default [slash, slash, 0x61, slash, 0x62] .posix) =
      some [[slash, slash, 0x61], [slash, slash]] := by
  have made : Made .default (PosixSteps .default)
      (ucbPathInitStyle .default [slash, slash, 0x61, slash, 0x62] .posix) := .init rfl
  obtain ⟨parts, chain⟩ := parent_chain_exact made
  have stored := chain.stored
  have known : pathParts .default
      (ucbPathInitStyle .default [slash, slash, 0x61, slash, 0x62] .posix) =
      [[slash, slash], [0x61], [0x62]].map some := (pathParts_eq _ _).trans (by decide)
  rw [known] at stored
  obtain rfl := map_some_inj stored
  exact chain.parents 5 (by decide)

end Ucb.Path
