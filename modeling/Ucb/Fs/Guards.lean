import Ucb.Fs.Fs
import Ucb.Path.Canonical

/-!
Contract: the guards that look at a path before anything is done to it.

Owns:
- `keptSegments`, the components canonicalization leaves;
- exactly when the root guard of `ucb_fs_remove_all` refuses a spelling of the
  root;
- exactly when the nesting check of `ucb_fs_copy_tree` is right.
-/

namespace Ucb.Fs

open Ucb.Lib Ucb.Path

/-! ## Canonical paths -/

/-- A `..` between separators, where a backslash counts as one. -/
def HasParent (path : List UInt8) : Prop :=
  dotdot ∈ segments isEitherSep path

instance (path : List UInt8) : Decidable (HasParent path) := by
  unfold HasParent
  infer_instance

/-- The components `ucb_fs_canon` leaves: the normal form if there is a `..`, else
all of them, with `.`. -/
def keptSegments (path : List UInt8) : List (List UInt8) :=
  if HasParent path then normalizedSegments (isRooted path) (pathSegments path)
  else pathSegments path

theorem hasParentComponent_iff (path : List UInt8) :
    fsHasParentComponent path = true ↔ HasParent path := by
  induction path using fsHasParentComponent.induct with
  | case1 path skipped =>
      have none : segments isEitherSep path = [] := by
        rw [← segments_dropWhile, skipped, segments_nil]
      rw [fsHasParentComponent, HasParent, none]
      split
      · simp
      · rename_i c text found
        rw [skipped] at found
        cases found
  | case2 path c text skipped isParent =>
      rw [fsHasParentComponent, HasParent, segments_scan skipped]
      split
      · rename_i found
        rw [skipped] at found
        cases found
      · rename_i c' text' found
        rw [skipped] at found
        obtain ⟨rfl, rfl⟩ := List.cons.inj found
        simp [isParent, dotdot]
  | case3 path c text skipped notParent inductionHypothesis =>
      rw [fsHasParentComponent, HasParent, segments_scan skipped]
      split
      · rename_i found
        rw [skipped] at found
        cases found
      · rename_i c' text' found
        rw [skipped] at found
        obtain ⟨rfl, rfl⟩ := List.cons.inj found
        have other : dotdot ≠ _ := fun same => notParent same.symm
        rw [if_neg notParent, inductionHypothesis, HasParent, List.mem_cons, or_iff_right other]

theorem isEitherSep_of_pathIsSep (c : UInt8) (isSep : pathIsSep c = true) :
    isEitherSep c = true := by
  rw [(pathIsSep_iff c).mp isSep]
  decide

theorem pathSegments_composed (path : List UInt8) :
    pathSegments (pathLead path ++ joined (pathSegments path)) = pathSegments path := by
  obtain ⟨count, -, lead, -⟩ := pathLead_replicate path
  rw [lead, pathSegments, segments_seps_append]
  · exact pathSegments_joined (proper_pathSegments path)
  · intro c member
    rw [List.eq_of_mem_replicate member]
    decide

/-- Composing changes no component, so it keeps every `..`. -/
theorem hasParent_composed (path : List UInt8) :
    HasParent (pathLead path ++ joined (pathSegments path)) ↔ HasParent path := by
  have split (text : List UInt8) :
      segments isEitherSep text = (pathSegments text).flatMap (segments isEitherSep) :=
    segments_refine isEitherSep_of_pathIsSep text
  rw [HasParent, HasParent, split, pathSegments_composed, ← split]

theorem ucbFsCanon_eq {conf : UcbPathStyle} (posix : pathSepOf conf .default = slash)
    {path : List UInt8} (nonempty : path ≠ []) :
    ucbFsCanon conf path = pathLead path ++ joined (keptSegments path) := by
  have guard := (hasParentComponent_iff _).trans (hasParent_composed path)
  simp only [ucbFsCanon, compose_parse posix nonempty, compose_normalize posix nonempty,
    keptSegments, guard]
  split
  · rfl
  · rfl

theorem proper_keptSegments (path : List UInt8) : Proper (keptSegments path) := by
  unfold keptSegments
  split
  · exact proper_normalizedSegments (proper_pathSegments path)
  · exact proper_pathSegments path

/-- The components of the lexical normal form. -/
def lexicalSegments (path : List UInt8) : List (List UInt8) :=
  resolved (isRooted path) (pathSegments path)

theorem dotdot_mem_of_pathSegments {path : List UInt8} (member : dotdot ∈ pathSegments path) :
    HasParent path := by
  rw [HasParent, segments_refine isEitherSep_of_pathIsSep path]
  exact List.mem_flatMap.mpr ⟨dotdot, member, by decide⟩

/-- The normal form is what is kept, without `.`. -/
theorem lexicalSegments_eq (path : List UInt8) :
    lexicalSegments path = (keptSegments path).filter (· ≠ [dot]) := by
  unfold keptSegments lexicalSegments
  split
  · unfold normalizedSegments
    split
    · rename_i empty
      rw [empty.2]
      rfl
    · symm
      rw [List.filter_eq_self]
      intro segment member
      simpa using (mem_resolve member).2
  · rename_i absent
    exact resolve_of_no_parent _ fun member => absent (dotdot_mem_of_pathSegments member)

theorem lead_isSep (path : List UInt8) : ∀ c ∈ pathLead path, c = slash := by
  obtain ⟨count, -, lead, -⟩ := pathLead_replicate path
  rw [lead]
  exact fun c member => List.eq_of_mem_replicate member

theorem normalizedSegments_ne_nil {segs : List (List UInt8)} :
    normalizedSegments false segs ≠ [] := by
  unfold normalizedSegments
  split
  · exact List.cons_ne_nil _ _
  · rename_i some
    exact fun none => some ⟨rfl, none⟩

theorem canon_ne_nil {conf : UcbPathStyle} (posix : pathSepOf conf .default = slash)
    {path : List UInt8} (nonempty : path ≠ []) : ucbFsCanon conf path ≠ [] := by
  obtain ⟨count, -, lead, rooted⟩ := pathLead_replicate path
  rw [ucbFsCanon_eq posix nonempty]
  unfold keptSegments
  split
  · intro empty
    obtain ⟨noLead, noSegs⟩ := List.append_eq_nil_iff.mp empty
    have relative : isRooted path = false := by
      rw [← rooted]
      simpa [lead] using noLead
    rw [relative] at noSegs
    exact (joined_getLast (proper_normalizedSegments (proper_pathSegments path))
      normalizedSegments_ne_nil).1 noSegs
  · exact composed_ne_nil nonempty

/-! ## The root guard -/

/-- The lexical normal form of the path consists of separators only. -/
def NormalizesToRoot (path : List UInt8) : Prop :=
  isRooted path = true ∧ lexicalSegments path = []

def rootRefused : UcbError :=
  ⟨.invalidArg, "ucb_fs_remove_all: refusing to remove a root"⟩

theorem isRoot_canon_iff {conf : UcbPathStyle} (posix : pathSepOf conf .default = slash)
    {path : List UInt8} (nonempty : path ≠ []) :
    ucbFsIsRoot (ucbFsCanon conf path) = true ↔ keptSegments path = [] := by
  have notEmpty := canon_ne_nil posix nonempty
  rw [ucbFsCanon_eq posix nonempty] at notEmpty ⊢
  rw [ucbFsIsRoot, decide_eq_true notEmpty, Bool.true_and, List.all_append,
    List.all_eq_true.mpr fun c member => by rw [lead_isSep path c member]; decide, Bool.true_and]
  constructor
  · intro all
    by_contra some
    obtain ⟨first, rest, segs⟩ := List.exists_cons_of_ne_nil some
    obtain ⟨nonempty, clean⟩ := proper_keptSegments path first (segs ▸ List.mem_cons_self)
    obtain ⟨c, text, rfl⟩ := List.exists_cons_of_ne_nil nonempty
    rw [segs, joined, intercalate_cons] at all
    have isSep := List.all_eq_true.mp all c (by simp)
    have notSep := clean c List.mem_cons_self
    rw [pathIsSep] at notSep
    rw [fsIsSep, notSep] at isSep
    cases isSep
  · intro none
    rw [none]
    rfl

theorem fsRemoveAll_not_ret (fuel : Nat) (canon : List UInt8) (result : Except UcbError Unit) :
    (fsRemoveAll fuel canon).run ≠ .ret result := by
  intro same
  cases fuel with
  | zero => cases same
  | succ fuel => cases same

theorem removeAll_eq (conf : UcbPathStyle) (fuel : Nat) {path : List UInt8}
    (nonempty : path ≠ []) :
    ucbFsRemoveAll conf fuel path =
      if ucbFsIsRoot (ucbFsCanon conf path) then throw rootRefused
      else fsRemoveAll fuel (ucbFsCanon conf path) := by
  simp only [ucbFsRemoveAll, fsCheckPath, nonempty, if_false]
  rfl

/-- Exactly when a spelling of the root is refused, with no platform call: it has
a `..`, or it has no `.`. -/
theorem removeAll_refuses_iff {conf : UcbPathStyle} (posix : pathSepOf conf .default = slash)
    (fuel : Nat) {path : List UInt8} (nonempty : path ≠ []) (root : NormalizesToRoot path) :
    (ucbFsRemoveAll conf fuel path).run = .ret (.error rootRefused) ↔
      dotdot ∈ pathSegments path ∨ [dot] ∉ pathSegments path := by
  obtain ⟨rooted, resolvedEmpty⟩ := root
  have refuses : (ucbFsRemoveAll conf fuel path).run = .ret (.error rootRefused) ↔
      keptSegments path = [] := by
    rw [removeAll_eq conf fuel nonempty, ← isRoot_canon_iff posix nonempty]
    split
    · rename_i isRoot
      simp only [isRoot, iff_true]
      rfl
    · rename_i notRoot
      simp only [notRoot, Bool.false_eq_true, iff_false]
      exact fsRemoveAll_not_ret fuel _ _
  rw [refuses]
  by_cases parent : HasParent path
  · have kept : keptSegments path = [] := by
      rw [keptSegments, if_pos parent, normalizedSegments, rooted, if_neg (by simp)]
      rw [lexicalSegments, rooted] at resolvedEmpty
      exact resolvedEmpty
    simp only [kept, true_iff]
    by_contra neither
    obtain ⟨noParent, someDot⟩ := not_or.mp neither
    -- all components are `.`, so no backslash can make a `..` of them
    rw [lexicalSegments, resolved, resolve_of_no_parent _ noParent,
      List.filter_eq_nil_iff] at resolvedEmpty
    rw [HasParent, segments_refine isEitherSep_of_pathIsSep path] at parent
    obtain ⟨segment, member, inside⟩ := List.mem_flatMap.mp parent
    have segment_eq : segment = [dot] := by simpa using resolvedEmpty segment member
    rw [segment_eq] at inside
    exact absurd inside (by decide)
  · have noParent : dotdot ∉ pathSegments path := fun member =>
      parent (dotdot_mem_of_pathSegments member)
    have allDots : ∀ segment ∈ pathSegments path, segment = [dot] := by
      rw [lexicalSegments, resolved, resolve_of_no_parent _ noParent,
        List.filter_eq_nil_iff] at resolvedEmpty
      exact fun segment member => by simpa using resolvedEmpty segment member
    rw [keptSegments, if_neg parent, or_iff_right noParent]
    constructor
    · intro none
      simp [none]
    · intro noDot
      by_contra some
      obtain ⟨first, rest, segs⟩ := List.exists_cons_of_ne_nil some
      have member : first ∈ pathSegments path := segs ▸ List.mem_cons_self
      exact noDot (allDots first member ▸ member)

def tmpParent : List UInt8 :=
  [slash, 0x74, 0x6D, 0x70, slash, dot, dot]

theorem removeAll_refuses_tmpParent :
    (ucbFsRemoveAll .posix 0 tmpParent).run = .ret (.error rootRefused) :=
  (removeAll_refuses_iff rfl 0 (by decide) ⟨by decide, by decide⟩).mpr (.inl (by decide))

/-- `/.` is the root, but the platform is asked about it. -/
theorem removeAll_slashDot :
    NormalizesToRoot [slash, dot] ∧
      (ucbFsRemoveAll .posix 1 [slash, dot]).run ≠ .ret (.error rootRefused) ∧
      ∃ next, (ucbFsRemoveAll .posix 1 [slash, dot]).run =
        .call (.kind [slash, dot] true) next := by
  have canon : ucbFsCanon .posix [slash, dot] = [slash, dot] := by
    rw [ucbFsCanon_eq rfl (by decide)]
    decide
  have first : ∃ next, (ucbFsRemoveAll .posix 1 [slash, dot]).run =
      .call (.kind [slash, dot] true) next := by
    rw [removeAll_eq .posix 1 (by decide), canon]
    exact ⟨_, rfl⟩
  refine ⟨⟨by decide, by decide⟩, ?_, first⟩
  obtain ⟨next, starts⟩ := first
  rw [starts]
  intro same
  cases same

/-! ## The nesting check -/

/-- A component list continues another inside its last component, where a
backslash ends that component or begins what continues it. -/
def BackslashExtends (front segs : List (List UInt8)) : Prop :=
  ∃ before last more back, front = before ++ [last] ∧ segs = before ++ (last ++ more) :: back ∧
    more ≠ [] ∧ (more.head? = some backslash ∨ last.getLast? = some backslash)

theorem isWithin_iff {child parent : List UInt8} (nonempty : parent ≠ []) :
    fsIsWithin child parent = true ↔
      ∃ tail, child = parent ++ tail ∧
        (tail = [] ∨ parent.getLast?.any isEitherSep = true ∨
          tail.head?.any isEitherSep = true) := by
  constructor
  · intro within
    unfold fsIsWithin at within
    split at within
    · cases within
    · split at within
      · cases within
      · rename_i notShort same
        have split : child = parent ++ child.drop parent.length := by
          conv_lhs => rw [← List.take_append_drop parent.length child, not_not.mp same]
        refine ⟨child.drop parent.length, split, ?_⟩
        split at within
        · rename_i ends
          exact .inl (List.drop_eq_nil_of_le (List.getElem?_eq_none_iff.mp ends))
        · rename_i next found
          rw [Bool.or_eq_true] at within
          rw [List.head?_drop, found]
          exact .inr within
  · rintro ⟨tail, rfl, boundary⟩
    have notShort : ¬ (parent = [] ∨ (parent ++ tail).length < parent.length) := by
      rw [not_or]
      exact ⟨nonempty, by simp⟩
    rw [fsIsWithin, if_neg notShort, List.take_left, if_neg (not_not_intro rfl)]
    cases tail with
    | nil => simp
    | cons next tail =>
        have found : (parent ++ next :: tail)[parent.length]? = some next := by simp
        rw [found]
        rcases boundary with ends | before | behind
        · cases ends
        · simp [before]
        · simpa using .inr behind

theorem isEitherSep_inside {c : UInt8} (notSep : pathIsSep c = false) :
    isEitherSep c = true ↔ c = backslash := by
  have other : ¬ c = slash := by
    intro same
    rw [(pathIsSep_iff c).mpr same] at notSep
    cases notSep
  simp [isEitherSep, other]

theorem any_isEitherSep {item : Option UInt8} (notSep : ∀ c ∈ item, pathIsSep c = false) :
    item.any isEitherSep = true ↔ item = some backslash := by
  cases item with
  | none => simp
  | some c => simpa using isEitherSep_inside (notSep c rfl)

/-- A separator behind a component list, or a backslash at the edge of its last
component, makes the check answer yes. -/
theorem isWithin_segments_iff {front segs : List (List UInt8)} (proper : Proper segs)
    (properFront : Proper front) (nonempty : front ≠ []) (lead : List UInt8) :
    fsIsWithin (lead ++ joined segs) (lead ++ joined front) = true ↔
      front <+: segs ∨ BackslashExtends front segs := by
  obtain ⟨notEmpty, -⟩ := joined_getLast properFront nonempty
  have parentNonempty : lead ++ joined front ≠ [] := by simp [notEmpty]
  have cancelled (tail : List UInt8) : lead ++ joined segs = lead ++ joined front ++ tail ↔
      joined segs = joined front ++ tail := by
    rw [List.append_assoc, List.append_cancel_left_eq]
  have split (tail : List UInt8) := (cancelled tail).trans
    (intercalate_eq_append_iff pathIsSep_iff proper properFront nonempty tail)
  -- inside a component only a backslash is taken for a boundary
  have inside {before : List (List UInt8)} {last more : List UInt8} {back : List (List UInt8)}
      (front_eq : front = before ++ [last]) (segs_eq : segs = before ++ (last ++ more) :: back)
      (some : more ≠ []) :
      (more ++ back.flatMap (slash :: ·) = [] ∨
          (lead ++ joined front).getLast?.any isEitherSep = true ∨
          (more ++ back.flatMap (slash :: ·)).head?.any isEitherSep = true) ↔
        more.head? = .some backslash ∨ last.getLast? = .some backslash := by
    have lastSegment := properFront last (by simp [front_eq])
    have whole := proper (last ++ more) (by simp [segs_eq])
    obtain ⟨text, ends⟩ := joined_ends before last
    have last_eq : (lead ++ joined front).getLast? = last.getLast? := by
      rw [front_eq, ends, ← List.append_assoc, List.getLast?_append_of_ne_nil _ lastSegment.1]
    have head_eq : (more ++ back.flatMap (slash :: ·)).head? = more.head? := by
      rw [List.head?_append_of_ne_nil _ some]
    rw [last_eq, head_eq,
      any_isEitherSep fun c found => lastSegment.2 c (List.mem_of_getLast? found),
      any_isEitherSep fun c found => whole.2 c (List.mem_append_right _ (List.mem_of_head? found)),
      or_comm (a := last.getLast? = _)]
    simp [some]
  rw [isWithin_iff parentNonempty]
  simp only [split]
  constructor
  · rintro ⟨tail, ⟨back, rfl, -⟩ | ⟨before, last, more, back, front_eq, some, segs_eq, rfl⟩,
      boundary⟩
    · exact .inl (List.prefix_append front back)
    · exact .inr ⟨before, last, more, back, front_eq, segs_eq, some,
        (inside front_eq segs_eq some).mp boundary⟩
  · rintro (⟨back, rfl⟩ | ⟨before, last, more, back, front_eq, segs_eq, some, boundary⟩)
    · refine ⟨back.flatMap (slash :: ·), .inl ⟨back, rfl, rfl⟩, ?_⟩
      cases back with
      | nil => exact .inl rfl
      | cons next back => exact .inr (.inr rfl)
    · exact ⟨more ++ back.flatMap (slash :: ·),
        .inr ⟨before, last, more, back, front_eq, some, segs_eq, rfl⟩,
        (inside front_eq segs_eq some).mpr boundary⟩

/-- The check on two composed paths. Only `/` itself contains paths that start
with another number of separators. -/
theorem isWithin_composed_iff {count count' : Nat} {front segs : List (List UInt8)}
    (atMostTwo : count ≤ 2) (atMostTwo' : count' ≤ 2) (bothRooted : count = 0 ↔ count' = 0)
    (proper : Proper segs) (properFront : Proper front)
    (nonempty : List.replicate count slash ++ joined front ≠ []) :
    fsIsWithin (List.replicate count' slash ++ joined segs)
        (List.replicate count slash ++ joined front) = true ↔
      (count = count' ∧ (front <+: segs ∨ BackslashExtends front segs)) ∨
        (count = 1 ∧ front = []) := by
  have childLead := leadCount_replicate (joined_head proper) count'
  by_cases empty : front = []
  · subst empty
    have positive : count ≠ 0 := by
      rintro rfl
      exact nonempty rfl
    have noText : joined [] = [] := rfl
    rw [isWithin_iff nonempty, noText, List.append_nil]
    constructor
    · rintro ⟨tail, split, -⟩
      rw [split, leadCount_replicate_append] at childLead
      by_cases same : count = count'
      · exact .inl ⟨same, .inl (List.nil_prefix)⟩
      · exact .inr ⟨by omega, rfl⟩
    · intro contains
      have fewer : count ≤ count' := by
        rcases contains with ⟨same, -⟩ | ⟨one, -⟩
        · omega
        · have rooted : count' ≠ 0 := fun none => positive (bothRooted.mpr none)
          omega
      refine ⟨List.replicate (count' - count) slash ++ joined segs, ?_, .inr (.inl ?_)⟩
      · rw [← List.append_assoc, List.replicate_append_replicate, Nat.add_sub_cancel' fewer]
      · rw [List.getLast?_replicate, if_neg positive]
        rfl
  · by_cases same : count = count'
    · subst same
      rw [isWithin_segments_iff proper properFront empty]
      simp [empty]
    · have otherLead : ¬ fsIsWithin (List.replicate count' slash ++ joined segs)
          (List.replicate count slash ++ joined front) = true := by
        rw [isWithin_iff nonempty]
        rintro ⟨tail, split, -⟩
        obtain ⟨notEmpty, -⟩ := joined_getLast properFront empty
        have noLead : leadCount (joined front ++ tail) = 0 := by
          rw [leadCount, List.takeWhile_append, joined_head properFront, if_neg]
          · rfl
          · simpa using fun none => notEmpty (List.eq_nil_of_length_eq_zero none.symm)
        rw [split, List.append_assoc, leadCount_replicate_append, noLead] at childLead
        exact same childLead
      simp [otherLead, same, empty]

def nestingRefused : UcbError :=
  ⟨.invalidArg, "ucb_fs_copy_tree: destination is inside the source"⟩

/-- The check comes before every platform call. -/
theorem copyTree_refuses_iff_within (conf : UcbPathStyle) (fuel : Nat) (flags : UcbFsFlags)
    {src dst : List UInt8} (nonempty : src ≠ []) (nonempty' : dst ≠ []) :
    (ucbFsCopyTree conf fuel src dst flags).run = .ret (.error nestingRefused) ↔
      fsIsWithin (ucbFsCanon conf dst) (ucbFsCanon conf src) = true := by
  simp only [ucbFsCopyTree, fsCheckPath, nonempty, nonempty', if_false]
  by_cases within : fsIsWithin (ucbFsCanon conf dst) (ucbFsCanon conf src) = true
  · simp only [within, if_true, iff_true]
    rfl
  · simp only [within, Bool.false_eq_true, if_false, iff_false]
    intro same
    cases same

/-- The components canonicalization leaves of the source, `.` included, begin
those of the destination behind the same leading separators; or the source is
`/` itself. -/
def LiterallyNested (src dst : List UInt8) : Prop :=
  (pathLead src = pathLead dst ∧ keptSegments src <+: keptSegments dst) ∨
    (pathLead src = [slash] ∧ keptSegments src = [])

/-- The destination goes on inside the source's last component, at a backslash. -/
def BackslashNested (src dst : List UInt8) : Prop :=
  pathLead src = pathLead dst ∧ BackslashExtends (keptSegments src) (keptSegments dst)

/-- When the nesting check is right: a nested destination is written so that it
shows, and another one does not go on at a backslash. -/
def NestingMeets (src dst : List UInt8) : Prop :=
  if lexicalSegments src <+: lexicalSegments dst then
    LiterallyNested src dst ∨ BackslashNested src dst
  else ¬ BackslashNested src dst

theorem within_canon_iff {conf : UcbPathStyle} (posix : pathSepOf conf .default = slash)
    {src dst : List UInt8} (nonempty : src ≠ []) (nonempty' : dst ≠ [])
    (sameAnchor : isRooted src = isRooted dst) :
    fsIsWithin (ucbFsCanon conf dst) (ucbFsCanon conf src) = true ↔
      LiterallyNested src dst ∨ BackslashNested src dst := by
  obtain ⟨count, atMostTwo, lead, rooted⟩ := pathLead_replicate src
  obtain ⟨count', atMostTwo', lead', rooted'⟩ := pathLead_replicate dst
  have bothRooted : count = 0 ↔ count' = 0 := by
    rw [← rooted, ← rooted', decide_eq_decide] at sameAnchor
    exact not_iff_not.mp sameAnchor
  have parentNonempty := canon_ne_nil posix nonempty
  have leads : pathLead src = pathLead dst ↔ count = count' := by
    rw [lead, lead', List.replicate_left_inj]
  have one : pathLead src = [slash] ↔ count = 1 := by
    rw [lead]
    exact List.replicate_left_inj (m := 1)
  rw [ucbFsCanon_eq posix nonempty, lead] at parentNonempty
  rw [ucbFsCanon_eq posix nonempty, ucbFsCanon_eq posix nonempty', lead, lead',
    isWithin_composed_iff atMostTwo atMostTwo' bothRooted (proper_keptSegments dst)
      (proper_keptSegments src) parentNonempty, LiterallyNested, BackslashNested, leads, one,
    and_or_left, or_right_comm]

theorem LiterallyNested.lexical {src dst : List UInt8} (nested : LiterallyNested src dst) :
    lexicalSegments src <+: lexicalSegments dst := by
  rw [lexicalSegments_eq, lexicalSegments_eq]
  rcases nested with ⟨-, begins⟩ | ⟨-, none⟩
  · exact begins.filter _
  · rw [none]
    exact List.nil_prefix

/-- Exactly when the nesting check agrees with the lexical normal forms. -/
theorem copyTree_nesting_iff {conf : UcbPathStyle} (posix : pathSepOf conf .default = slash)
    (fuel : Nat) (flags : UcbFsFlags) {src dst : List UInt8} (nonempty : src ≠ [])
    (nonempty' : dst ≠ []) (sameAnchor : isRooted src = isRooted dst) :
    ((ucbFsCopyTree conf fuel src dst flags).run = .ret (.error nestingRefused) ↔
        lexicalSegments src <+: lexicalSegments dst) ↔ NestingMeets src dst := by
  rw [copyTree_refuses_iff_within conf fuel flags nonempty nonempty',
    within_canon_iff posix nonempty nonempty' sameAnchor]
  unfold NestingMeets
  split
  · rename_i nested
    simp only [nested, iff_true]
  · rename_i apart
    have notLiteral : ¬ LiterallyNested src dst := fun literal => apart literal.lexical
    simp only [apart, notLiteral, false_or, iff_false]

/-- `a` and `a/b`. -/
theorem copyTree_nesting_child :
    (ucbFsCopyTree .posix 0 [0x61] [0x61, slash, 0x62] ⟨false, false⟩).run =
        .ret (.error nestingRefused) ↔
      lexicalSegments [0x61] <+: lexicalSegments [0x61, slash, 0x62] := by
  refine (copyTree_nesting_iff rfl 0 _ (by decide) (by decide) (by decide)).mpr ?_
  rw [NestingMeets, if_pos (by decide)]
  exact .inl (.inl ⟨by decide, by decide⟩)

/-- `./a/b` is inside `a` and not refused; `a\b` is a sibling of `a` and refused. -/
theorem copyTree_nesting_misses :
    (lexicalSegments [0x61] <+: lexicalSegments [dot, slash, 0x61, slash, 0x62] ∧
      (ucbFsCopyTree .posix 1 [0x61] [dot, slash, 0x61, slash, 0x62] ⟨false, false⟩).run ≠
        .ret (.error nestingRefused)) ∧
    (¬ lexicalSegments [0x61] <+: lexicalSegments [0x61, backslash, 0x62] ∧
      (ucbFsCopyTree .posix 1 [0x61] [0x61, backslash, 0x62] ⟨false, false⟩).run =
        .ret (.error nestingRefused)) := by
  have src : ucbFsCanon .posix [0x61] = [0x61] := by
    rw [ucbFsCanon_eq rfl (by decide)]
    decide
  have inner : ucbFsCanon .posix [dot, slash, 0x61, slash, 0x62] =
      [dot, slash, 0x61, slash, 0x62] := by
    rw [ucbFsCanon_eq rfl (by decide)]
    decide
  have sibling : ucbFsCanon .posix [0x61, backslash, 0x62] = [0x61, backslash, 0x62] := by
    rw [ucbFsCanon_eq rfl (by decide)]
    decide
  refine ⟨⟨by decide, ?_⟩, by decide, ?_⟩
  · rw [ne_eq, copyTree_refuses_iff_within .posix 1 _ (by decide) (by decide), src, inner]
    decide
  · rw [copyTree_refuses_iff_within .posix 1 _ (by decide) (by decide), src, sibling]
    decide

end Ucb.Fs
