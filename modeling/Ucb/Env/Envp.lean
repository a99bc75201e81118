import Ucb.Env.EnvmapRefinement

/-!
Contract: the environment that a child process is given, against the map it is
made from.

Owns:
- `ucb_envmap_to_envp`, and splitting what it gives as the importer splits;
- which names come into a map, for every operation;
- that the environment carries the maps of a sequence of operations faithfully
  exactly when every name that comes in is neither empty nor has an `=`.

Unlike the maps of distinct names, these may have two entries of one name, as
names are not looked up when an environment is imported.
-/

namespace Ucb.Env

open Ucb.Lib Ucb.Str Ucb.Unicode

variable (allocator : Allocator)

/-! ## Making an environment -/

def pointerSize : Nat := 8

def envpString (entry : UcbEnvmapEntry) : Exec (Option (List UInt8)) := do
  let name ← entry.name.data.load
  let value ← entry.value.data.load
  let nameLen ← strlen name
  let valueLen ← strlen value
  let total := nameLen + 1 + valueLen + 1
  if allocator.grants .malloc total then
    pure (some (name.take nameLen ++ 61 :: value.take valueLen ++ [0]))
  else pure none

/-- The loop of `ucb_envmap_to_envp`. -/
def envpLoop (envp : List (List UInt8)) : List UcbEnvmapEntry → Exec (Option (List (List UInt8)))
  | [] => pure (some envp)
  | entry :: entries => do
      match ← envpString allocator entry with
      | none => pure none
      | some nv => envpLoop (envp ++ [nv]) entries

/-- `ucb_envmap_to_envp`, without the null pointer behind the strings. -/
def ucbEnvmapToEnvp (map : UcbEnvmap) : Exec (Option (List (List UInt8))) :=
  if allocator.grants .calloc ((map.list.length + 1) * pointerSize) then
    envpLoop allocator [] map.list
  else pure none

/-- Split every string as the importer does. -/
def splitAll : List (List UInt8) → Exec (List (Option UcbEnvmapEntry))
  | [] => pure []
  | nv :: envp => do
      let entry ← envmapEntryFromNv allocator nv
      let entries ← splitAll envp
      pure (entry :: entries)

/-- The environment made from a map is split into exactly the entries of the map, in order. -/
def Faithful (map : UcbEnvmap) : Prop :=
  ∃ envp entries, ucbEnvmapToEnvp allocator map = .ok (some envp) ∧
    splitAll allocator envp = .ok entries ∧
    entries.map (Option.map entryTexts) = map.list.map fun entry => some (entryTexts entry)

/-- A name that is read up to the first `=`. -/
def PlainName (name : List UInt8) : Prop :=
  name ≠ [] ∧ 61 ∉ name

instance (name : List UInt8) : Decidable (PlainName name) := by
  unfold PlainName
  infer_instance

/-! ## Joining and splitting -/

/-- A name and a value with a `=` between them. -/
def joinNv (texts : List UInt8 × List UInt8) : List UInt8 :=
  texts.1 ++ 61 :: texts.2

/-- Splitting at the first `=` takes a name and a value apart exactly where the name is plain. -/
theorem splitNv_join (texts : List UInt8 × List UInt8) :
    splitNv (joinNv texts) = some texts ↔ PlainName texts.1 := by
  obtain ⟨name, value⟩ := texts
  have has : 61 ∈ joinNv (name, value) := by simp [joinNv]
  by_cases inside : 61 ∈ name
  · have early : (joinNv (name, value)).idxOf 61 = name.idxOf 61 := List.idxOf_append_of_mem inside
    have short : name.idxOf 61 < name.length := List.idxOf_lt_length_iff.mpr inside
    refine iff_of_false ?_ (fun plain => plain.2 inside)
    intro same
    rw [splitNv, early] at same
    split at same
    · have cut := congrArg List.length (Prod.mk.inj (Option.some.inj same)).1
      rw [joinNv, List.take_append_of_le_length (Nat.le_of_lt short),
        List.length_take_of_le (Nat.le_of_lt short)] at cut
      omega
    · cases same
  · have place : (joinNv (name, value)).idxOf 61 = name.length := by
      rw [joinNv, List.idxOf_append_of_notMem inside, List.idxOf_cons_self, Nat.add_zero]
    have taken : (joinNv (name, value)).take name.length = name := List.take_left
    have dropped : (joinNv (name, value)).drop (name.length + 1) = value := by
      simp [joinNv, List.drop_append]
    rw [splitNv, place, taken, dropped]
    by_cases empty : name = []
    · subst empty
      simp [PlainName]
    · rw [if_pos ⟨has, by simp [empty]⟩]
      exact iff_of_true rfl ⟨empty, inside⟩

theorem isText_joinNv {entry : UcbEnvmapEntry} (exact : ExactEntry entry) :
    IsText (joinNv (entryTexts entry)) := by
  have equals : IsText [61] := ⟨(validate_ok_iff _).mp rfl, by decide⟩
  exact exact.name.valid.isText.append (equals.append exact.value.valid.isText)

section Making

variable {allocator : Allocator} (generous : allocator.Generous)
include generous

theorem envpString_eq {entry : UcbEnvmapEntry} (exact : ExactEntry entry) :
    envpString allocator entry = .ok (some (joinNv (entryTexts entry) ++ [0])) := by
  have loads {str : UcbStr} (valid : RepInv str) :
      ∃ spare, str.data.load = .ok (str.text ++ 0 :: spare) ∧
        strlen (str.text ++ 0 :: spare) = .ok str.text.length := by
    obtain ⟨spare, load⟩ := valid.holds_text.load_terminated valid.terminated
    exact ⟨spare, load, strlen_append _ _ valid.isText.noNul⟩
  obtain ⟨spare, name, nameLen⟩ := loads exact.name.valid
  obtain ⟨spare', value, valueLen⟩ := loads exact.value.valid
  rw [envpString, name, value]
  simp only [Exec.ok_bind, nameLen, valueLen, List.take_left]
  rw [if_pos (generous _ _)]
  rfl

theorem envpLoop_eq (entries : List UcbEnvmapEntry) :
    ∀ envp, (∀ entry ∈ entries, ExactEntry entry) →
      envpLoop allocator envp entries =
        .ok (some (envp ++ entries.map fun entry => joinNv (entryTexts entry) ++ [0])) := by
  induction entries with
  | nil =>
      intro envp _
      rw [List.map_nil, List.append_nil]
      rfl
  | cons entry entries inductionHypothesis =>
      intro envp exact
      have later := inductionHypothesis (envp ++ [joinNv (entryTexts entry) ++ [0]])
        fun other member => exact other (List.mem_cons_of_mem _ member)
      rw [envpLoop, envpString_eq generous (exact entry List.mem_cons_self)]
      simp only [Exec.ok_bind]
      rw [later, List.map_cons, List.append_assoc]
      rfl

/-- Splitting gives back what the joined texts are split into. -/
theorem splitAll_eq (entries : List UcbEnvmapEntry) (exact : ∀ entry ∈ entries, ExactEntry entry) :
    ∃ split, splitAll allocator (entries.map fun entry => joinNv (entryTexts entry) ++ [0]) =
        .ok split ∧
      split.map (Option.map entryTexts) =
        entries.map fun entry => splitNv (joinNv (entryTexts entry)) := by
  induction entries with
  | nil => exact ⟨[], rfl, rfl⟩
  | cons entry entries inductionHypothesis =>
      obtain ⟨made, ran, texts, -⟩ := entryFromNv_exact generous
        (isText_joinNv (exact entry List.mem_cons_self))
      obtain ⟨split, later, same⟩ := inductionHypothesis
        fun other member => exact other (List.mem_cons_of_mem _ member)
      refine ⟨made :: split, ?_, ?_⟩
      · rw [List.map_cons, splitAll, ran, Exec.ok_bind, later]
        rfl
      · rw [List.map_cons, List.map_cons, texts, same]

/-- The environment of a map is faithful exactly where all names are plain. -/
theorem faithful_iff {map : UcbEnvmap} (exact : ∀ entry ∈ map.list, ExactEntry entry) :
    Faithful allocator map ↔ ∀ name ∈ namesOf map.list, PlainName name := by
  obtain ⟨split, splits, texts⟩ := splitAll_eq generous map.list exact
  have made : ucbEnvmapToEnvp allocator map =
      .ok (some (map.list.map fun entry => joinNv (entryTexts entry) ++ [0])) := by
    rw [ucbEnvmapToEnvp, if_pos (generous _ _), envpLoop_eq generous _ _ exact, List.nil_append]
  have names : (∀ name ∈ namesOf map.list, PlainName name) ↔
      ∀ entry ∈ map.list, PlainName (entryTexts entry).1 := by
    rw [namesOf, List.map_map, List.forall_mem_map]
    rfl
  rw [names]
  constructor
  · rintro ⟨envp, entries, made', splits', same⟩ entry member
    obtain rfl := Option.some.inj (Exec.ok.inj (made.symm.trans made'))
    obtain rfl := Exec.ok.inj (splits.symm.trans splits')
    rw [texts] at same
    exact (splitNv_join _).mp (List.map_inj_left.mp same entry member)
  · intro plain
    refine ⟨_, split, made, splits, ?_⟩
    rw [texts]
    exact List.map_inj_left.mpr fun entry member => (splitNv_join _).mpr (plain entry member)

end Making

/-! ## Names that come into a map -/

def isGiven (map : UcbEnvmap) : EnvArg → Bool
  | .text _ => true
  | .got name => decide (name.val.text ∈ namesOf map.list)

/-- The name that an operation adds to a map: one that is assigned a value and has no entry. -/
def addedName (map : UcbEnvmap) (name : List UInt8) (value : EnvArg) : Option (List UInt8) :=
  if isGiven map value ∧ name ∉ namesOf map.list then some name else none

/-- The outcome of an operation on one map: the entries it had, with one more behind them if a
name is added. -/
def Extends (entries : List UcbEnvmapEntry) (added : Option (List UInt8))
    (outcome : Exec (UcbEnvmap × Bool)) : Prop :=
  ∃ changed done list, outcome = .ok (changed, done) ∧ Filled changed list ∧
    namesOf list = namesOf entries ++ added.toList

section Names

variable {allocator : Allocator} (generous : allocator.Generous) {map : UcbEnvmap}
  {entries front back : List UcbEnvmapEntry} {entry : UcbEnvmapEntry} {name : UcbStr}

theorem Filled.replace (filled : Filled map (front ++ entry :: back)) {value : UcbStr}
    (exact : Exact value) (done : Bool) :
    Extends (front ++ entry :: back) none
      (.ok (⟨some ((front ++ entry :: back).set front.length { entry with value := value })⟩,
        done)) := by
  have here := filled.exact entry (List.mem_append_right _ List.mem_cons_self)
  have set : (front ++ entry :: back).set front.length { entry with value := value } =
      front ++ { entry with value := value } :: back := by
    simp
  rw [set]
  refine ⟨_, _, _, rfl, ⟨rfl, ?_⟩, ?_⟩
  · intro other member
    rcases List.mem_append.mp member with early | late
    · exact filled.exact other (List.mem_append_left _ early)
    · rcases List.mem_cons.mp late with rfl | late
      · exact ⟨here.name, exact⟩
      · exact filled.exact other (List.mem_append_right _ (List.mem_cons_of_mem _ late))
  · simp [namesOf, entryTexts]

theorem Filled.unchanged (filled : Filled map entries) (done : Bool) :
    Extends entries none (.ok (map, done)) :=
  ⟨map, done, entries, rfl, filled, by simp⟩

theorem pointer_given (filled : Filled map entries) (arg : EnvArg) :
    ∃ ptr str, arg.pointer map = .ok ptr ∧ Points entries ptr str ∧
      str.isSome = isGiven map arg := by
  obtain ⟨ptr, str, pointer, points, texts⟩ := pointer_points filled arg
  refine ⟨ptr, str, pointer, points, ?_⟩
  rw [← Option.isSome_map (f := UcbStr.text), texts]
  cases arg with
  | text str => rfl
  | got name =>
      rw [argText, isGiven, filled.list_eq, Bool.eq_iff_iff, decide_eq_true_iff, valuesOf_isSome]
      rfl

theorem sepPointer_given (filled : Filled map entries) (arg : Option EnvArg) :
    ∃ ptr str, sepPointer map arg = .ok ptr ∧ Points entries ptr str := by
  obtain ⟨ptr, str, pointer, points, -⟩ := sepPointer_points filled arg
  exact ⟨ptr, str, pointer, points⟩

include generous

/-- `ucb_envmap_set` adds the name unless it has an entry. -/
theorem set_extends (filled : Filled map entries) (valid : RepInv name) {ptr : StrPtr}
    {str : Option UcbStr} (points : Points entries ptr str) :
    Extends entries (if str.isSome ∧ name.text ∉ namesOf entries then some name.text else none)
      (ucbEnvmapSet allocator map name ptr) := by
  rw [ucbEnvmapSet, filled.vector]
  simp only [points.get, Exec.ok_bind]
  cases str with
  | none => simpa using filled.unchanged false
  | some str =>
      have given := points.valid str rfl
      rcases find_cases filled.exact valid with
        ⟨none, absent⟩ | ⟨front, entry, back, rfl, same, place, before⟩
      · obtain ⟨made, ran, exact, texts⟩ := entryNew_exact generous valid given
        have sameName : made.name.text = name.text := (Prod.mk.inj texts).1
        rw [if_pos ⟨rfl, absent⟩]
        refine ⟨⟨some (entries ++ [made])⟩, true, entries ++ [made], ?_, ⟨rfl, ?_⟩, ?_⟩
        · simp only [none, Exec.ok_bind, pushEntry, ran]
          rfl
        · intro other member
          rcases List.mem_append.mp member with early | late
          · exact filled.exact other early
          · obtain rfl := List.mem_singleton.mp late
            exact exact
        · rw [namesOf_append]
          simp [namesOf, entryTexts, sameName]
      · have here := filled.exact entry (List.mem_append_right _ List.mem_cons_self)
        have present : name.text ∈ namesOf (front ++ entry :: back) :=
          mem_namesOf.mpr ⟨entry, by simp, same⟩
        rw [if_neg (fun both => both.2 present)]
        simp only [place, Exec.ok_bind, entryAt_middle]
        by_cases own : ptr = .valueOf front.length
        · rw [StrPtr.argument, if_pos own]
          exact filled.replace here.value true
        · obtain ⟨made, copied, exact, -⟩ := copy_exact generous here.value given
          rw [StrPtr.argument, if_neg own, copied]
          exact filled.replace exact true

theorem append_extends (filled : Filled map (front ++ entry :: back)) {ptr sepPtr : StrPtr}
    {str : UcbStr} {sep : Option UcbStr} (points : Points (front ++ entry :: back) ptr (some str))
    (sepPoints : Points (front ++ entry :: back) sepPtr sep)
    (place : envmapFind (front ++ entry :: back) name = .ok (some front.length)) :
    Extends (front ++ entry :: back) none (ucbEnvmapAppend allocator map name ptr sepPtr) := by
  obtain ⟨changed, appended, exact, -⟩ := append_entry generous filled place points sepPoints
  rw [appended]
  exact filled.replace exact true

theorem prepend_extends (filled : Filled map (front ++ entry :: back)) {ptr sepPtr : StrPtr}
    {str : UcbStr} {sep : Option UcbStr} (points : Points (front ++ entry :: back) ptr (some str))
    (sepPoints : Points (front ++ entry :: back) sepPtr sep)
    (place : envmapFind (front ++ entry :: back) name = .ok (some front.length)) :
    Extends (front ++ entry :: back) none (ucbEnvmapPrepend allocator map name ptr sepPtr) := by
  obtain ⟨changed, prepended, exact, -⟩ := prepend_entry generous filled place points sepPoints
  rw [prepended]
  exact filled.replace exact true

/-- `ucb_envmap_append` and `ucb_envmap_prepend` add the name unless it has an entry. -/
theorem appendPrepend_extends (filled : Filled map entries) (valid : RepInv name)
    {ptr sepPtr : StrPtr} {str sep : Option UcbStr} (points : Points entries ptr str)
    (sepPoints : Points entries sepPtr sep) :
    Extends entries (if str.isSome ∧ name.text ∉ namesOf entries then some name.text else none)
        (ucbEnvmapAppend allocator map name ptr sepPtr) ∧
      Extends entries (if str.isSome ∧ name.text ∉ namesOf entries then some name.text else none)
        (ucbEnvmapPrepend allocator map name ptr sepPtr) := by
  cases str with
  | none =>
      rw [ucbEnvmapAppend, ucbEnvmapPrepend, filled.vector]
      simp only [points.get, Exec.ok_bind]
      exact ⟨by simpa using filled.unchanged false, by simpa using filled.unchanged false⟩
  | some str =>
      rcases find_cases filled.exact valid with
        ⟨none, absent⟩ | ⟨front, entry, back, rfl, same, place, before⟩
      · have set := set_extends generous filled valid points
        rw [ucbEnvmapAppend, ucbEnvmapPrepend, filled.vector]
        simp only [points.get, Exec.ok_bind, none]
        exact ⟨set, set⟩
      · have present : name.text ∈ namesOf (front ++ entry :: back) :=
          mem_namesOf.mpr ⟨entry, by simp, same⟩
        rw [if_neg (fun both => both.2 present)]
        exact ⟨append_extends generous filled points sepPoints place,
          prepend_extends generous filled points sepPoints place⟩

end Names

/-! ## Sequences of operations -/

def AllPlain (maps : Nat → UcbEnvmap) : Prop :=
  ∀ number, ∀ name ∈ namesOf (maps number).list, PlainName name

/-- The operation adds a plain name to a map, or none. -/
def AddsPlain (maps : Nat → UcbEnvmap) : EnvmapOp → Prop
  | .set map name value | .append map name value _ | .prepend map name value _ =>
      ∀ added ∈ addedName (maps map) name.val.text value, PlainName added
  | .unset _ _ | .copy _ _ | .clone _ _ | .initFromCurrent _ _ | .has _ _ | .get _ _ => True

def AllFilled (maps : Nat → UcbEnvmap) : Prop :=
  ∀ number, ∃ entries, Filled (maps number) entries

theorem allFilled_new : AllFilled fun _ => ucbEnvmapNew :=
  fun _ => ⟨[], rfl, fun entry member => by cases member⟩

section Sequences

variable {allocator : Allocator} {maps : Nat → UcbEnvmap}

theorem AllFilled.update (filled : AllFilled maps) (number : Nat) {changed : UcbEnvmap}
    {entries : List UcbEnvmapEntry} (new : Filled changed entries) :
    AllFilled (Function.update maps number changed) := by
  intro other
  by_cases same : other = number
  · subst same
    rw [Function.update_self]
    exact ⟨entries, new⟩
  · rw [Function.update_of_ne same]
    exact filled other

/-- One map is changed, so that plain names stay where the new entries have plain names. -/
theorem allPlain_update (plain : AllPlain maps) (number : Nat) {changed : UcbEnvmap}
    {entries : List UcbEnvmapEntry} (new : Filled changed entries) :
    AllPlain (Function.update maps number changed) ↔
      ∀ name ∈ namesOf entries, PlainName name := by
  constructor
  · intro all
    have here := all number
    rwa [Function.update_self, new.list_eq] at here
  · intro here other
    by_cases same : other = number
    · subst same
      rwa [Function.update_self, new.list_eq]
    · rw [Function.update_of_ne same]
      exact plain other

/-- A performed operation: all maps are filled, and all names are plain if they were and the
operation adds a plain name or none. -/
def Performed (maps : Nat → UcbEnvmap) (op : EnvmapOp)
    (outcome : Exec ((Nat → UcbEnvmap) × EnvmapResult)) : Prop :=
  ∃ after result, outcome = .ok (after, result) ∧ AllFilled after ∧
    (AllPlain maps → (AllPlain after ↔ AddsPlain maps op))

theorem Extends.performed (filled : AllFilled maps) {number : Nat} {entries : List UcbEnvmapEntry}
    (here : Filled (maps number) entries) {added : Option (List UInt8)}
    {outcome : Exec (UcbEnvmap × Bool)} (extends_ : Extends entries added outcome) {op : EnvmapOp}
    (adds : AddsPlain maps op ↔ ∀ name ∈ added, PlainName name) :
    Performed maps op (replaceMap maps number outcome) := by
  obtain ⟨changed, done, list, rfl, new, names⟩ := extends_
  refine ⟨_, _, rfl, filled.update number new, ?_⟩
  intro plain
  have old := plain number
  rw [here.list_eq] at old
  rw [allPlain_update plain number new, names, List.forall_mem_append, and_iff_right old, adds]
  simp

/-- An operation that replaces a map by one whose names are plain if all names were. -/
theorem performed_replaced (filled : AllFilled maps) {number : Nat} {changed : UcbEnvmap}
    {entries : List UcbEnvmapEntry} (new : Filled changed entries)
    (names : AllPlain maps → ∀ name ∈ namesOf entries, PlainName name) (op : EnvmapOp)
    (adds : AddsPlain maps op) (result : EnvmapResult) :
    Performed maps op (.ok (Function.update maps number changed, result)) := by
  refine ⟨_, _, rfl, filled.update number new, ?_⟩
  intro plain
  exact iff_of_true ((allPlain_update plain number new).mpr (names plain)) adds

theorem performed_read (filled : AllFilled maps) (op : EnvmapOp) (adds : AddsPlain maps op)
    (result : EnvmapResult) : Performed maps op (.ok (maps, result)) :=
  ⟨_, _, rfl, filled, fun plain => iff_of_true plain adds⟩

theorem addedName_eq {number : Nat} {entries : List UcbEnvmapEntry}
    (here : Filled (maps number) entries) (name : List UInt8) {value : EnvArg}
    {str : Option UcbStr} (given : str.isSome = isGiven (maps number) value) :
    addedName (maps number) name value =
      if str.isSome ∧ name ∉ namesOf entries then some name else none := by
  rw [addedName, here.list_eq, given]

theorem plain_of_splitNv {nv : List UInt8} {texts : List UInt8 × List UInt8}
    (split : splitNv nv = some texts) : PlainName texts.1 := by
  unfold splitNv at split
  split at split
  next both =>
    obtain ⟨has, named⟩ := both
    have inside : nv.idxOf 61 < nv.length := List.idxOf_lt_length_iff.mpr has
    obtain rfl := Option.some.inj split
    refine ⟨List.ne_nil_of_length_pos ?_, ?_⟩
    · rw [List.length_take_of_le (Nat.le_of_lt inside)]
      omega
    · exact fun member => Nat.lt_irrefl _ (List.mem_take_iff_idxOf_lt has |>.mp member)
  next => cases split

theorem unset_performed (filled : AllFilled maps) (number : Nat) (name : ValidStr) :
    Performed maps (.unset number name) (envmapStep allocator maps (.unset number name)) := by
  obtain ⟨entries, here⟩ := filled number
  rw [envmapStep, ucbEnvmapUnset, here.vector]
  rcases find_cases here.exact name.property with
    ⟨none, -⟩ | ⟨front, entry, back, rfl, -, place, -⟩
  · simp only [none, Exec.ok_bind, replaceMap, Exec.pure_eq_ok, Function.update_eq_self]
    exact performed_read filled (.unset number name) trivial _
  · have found := here.exact entry (List.mem_append_right _ List.mem_cons_self)
    have erased : (front ++ entry :: back).eraseIdx front.length = front ++ back := by
      simp [List.eraseIdx_append]
    simp only [place, Exec.ok_bind, entryAt_middle, envmapEntryFree,
      found.name.valid.holds_text.release, found.value.valid.holds_text.release, replaceMap,
      Exec.pure_eq_ok, erased]
    have subset : front ++ back ⊆ front ++ entry :: back :=
      ((List.sublist_cons_self entry back).append_left front).subset
    refine performed_replaced filled ⟨rfl, ?_⟩ ?_ (.unset number name) trivial _
    · exact fun other member => here.exact other (subset member)
    · intro plain name member
      obtain ⟨other, stays, rfl⟩ := mem_namesOf.mp member
      apply plain number
      rw [here.list_eq]
      exact mem_namesOf.mpr ⟨other, subset stays, rfl⟩

variable (generous : allocator.Generous)
include generous

theorem cloned_filled {source : List UcbEnvmapEntry} (exact : ∀ entry ∈ source, ExactEntry entry) :
    ∃ cloned, cloneAll allocator [] source = .ok cloned ∧ Filled ⟨some cloned⟩ cloned ∧
      namesOf cloned = namesOf source := by
  obtain ⟨cloned, ran, texts, exact⟩ := cloneAll_exact generous source [] exact
  exact ⟨cloned, ran, ⟨rfl, exact⟩, by rw [namesOf, texts]; rfl⟩

theorem copy_performed (filled : AllFilled maps) (dst src : Nat) :
    Performed maps (.copy dst src) (envmapStep allocator maps (.copy dst src)) := by
  obtain ⟨entries, here⟩ := filled src
  obtain ⟨old, there⟩ := filled dst
  have empty : newEntries allocator = some [] := if_pos (generous _ _)
  have freed : freeEntries (maps dst).list = .ok () := by
    rw [there.list_eq]
    exact freeEntries_ok there.exact
  -- the source is read when the destination has been emptied
  obtain ⟨source, exact, plainSource, source_eq⟩ : ∃ source : List UcbEnvmapEntry,
      (∀ entry ∈ source, ExactEntry entry) ∧
      (AllPlain maps → ∀ name ∈ namesOf source, PlainName name) ∧
      (Function.update maps dst ⟨some []⟩ src).list = source := by
    by_cases apart : src = dst
    · subst apart
      refine ⟨[], fun entry member => (by cases member), fun _ name member => (by cases member), ?_⟩
      rw [Function.update_self]
      rfl
    · refine ⟨entries, here.exact, ?_, by rw [Function.update_of_ne apart, here.list_eq]⟩
      intro plain
      have names := plain src
      rwa [here.list_eq] at names
  obtain ⟨cloned, ran, new, names⟩ := cloned_filled generous exact
  rw [envmapStep, ucbEnvmapCopy, here.vector]
  simp only [freed, empty, Exec.ok_bind, source_eq, ran, Exec.pure_eq_ok]
  rw [Function.update_idem]
  refine performed_replaced filled new ?_ (.copy dst src) trivial _
  rw [names]
  exact plainSource

theorem clone_performed (filled : AllFilled maps) (dst src : Nat) :
    Performed maps (.clone dst src) (envmapStep allocator maps (.clone dst src)) := by
  obtain ⟨entries, here⟩ := filled src
  have empty : newEntries allocator = some [] := if_pos (generous _ _)
  obtain ⟨cloned, ran, new, names⟩ := cloned_filled generous here.exact
  rw [envmapStep, ucbEnvmapClone, here.vector, empty]
  simp only [ran, Exec.ok_bind, Exec.pure_eq_ok]
  refine performed_replaced filled new ?_ (.clone dst src) trivial _
  intro plain
  have old := plain src
  rw [here.list_eq] at old
  rwa [names]

theorem init_performed (filled : AllFilled maps) (number : Nat) (environ : Option (List EnvText)) :
    Performed maps (.initFromCurrent number environ)
      (envmapStep allocator maps (.initFromCurrent number environ)) := by
  obtain ⟨entries, here⟩ := filled number
  rw [envmapStep, ucbEnvmapInitFromCurrent, here.vector]
  cases environ with
  | none =>
      simp only [Option.map_none, Exec.pure_eq_ok, Exec.ok_bind, Function.update_eq_self]
      exact performed_read filled (.initFromCurrent number none) trivial _
  | some environ =>
      obtain ⟨added, imported, texts, exact⟩ := importAll_exact generous environ entries
      simp only [Option.map_some, imported, Exec.ok_bind, Exec.pure_eq_ok]
      refine performed_replaced filled ⟨rfl, List.forall_mem_append.mpr ⟨here.exact, exact⟩⟩ ?_
        (.initFromCurrent number (some environ)) trivial _
      intro plain
      have old := plain number
      rw [here.list_eq] at old
      rw [namesOf_append, List.forall_mem_append]
      refine ⟨old, ?_⟩
      rw [namesOf, texts, assignments, List.forall_mem_map]
      intro pair member
      obtain ⟨nv, -, split⟩ := List.mem_filterMap.mp member
      exact plain_of_splitNv split

/-- Every operation can be performed, and keeps the names plain exactly if it adds no other. -/
theorem envmapStep_performed (filled : AllFilled maps) (op : EnvmapOp) :
    Performed maps op (envmapStep allocator maps op) := by
  cases op with
  | set number name value =>
      obtain ⟨entries, here⟩ := filled number
      obtain ⟨ptr, str, pointer, points, given⟩ := pointer_given here value
      rw [envmapStep, pointer, Exec.ok_bind]
      refine (set_extends generous here name.property points).performed filled here ?_
      rw [AddsPlain, addedName_eq here _ given]
  | append number name value sep =>
      obtain ⟨entries, here⟩ := filled number
      obtain ⟨ptr, str, pointer, points, given⟩ := pointer_given here value
      obtain ⟨sepPtr, sepStr, sepPointer, sepPoints⟩ := sepPointer_given here sep
      rw [envmapStep, pointer, Exec.ok_bind, sepPointer, Exec.ok_bind]
      refine ((appendPrepend_extends generous here name.property points sepPoints).1).performed
        filled here ?_
      rw [AddsPlain, addedName_eq here _ given]
  | prepend number name value sep =>
      obtain ⟨entries, here⟩ := filled number
      obtain ⟨ptr, str, pointer, points, given⟩ := pointer_given here value
      obtain ⟨sepPtr, sepStr, sepPointer, sepPoints⟩ := sepPointer_given here sep
      rw [envmapStep, pointer, Exec.ok_bind, sepPointer, Exec.ok_bind]
      refine ((appendPrepend_extends generous here name.property points sepPoints).2).performed
        filled here ?_
      rw [AddsPlain, addedName_eq here _ given]
  | unset number name => exact unset_performed filled number name
  | copy dst src => exact copy_performed generous filled dst src
  | clone dst src => exact clone_performed generous filled dst src
  | initFromCurrent number environ => exact init_performed generous filled number environ
  | has number name =>
      obtain ⟨entries, here⟩ := filled number
      have found : ∃ present, ucbEnvmapHas (maps number) name.val = .ok present := by
        rw [ucbEnvmapHas, here.vector]
        simp only [find_eq here.exact name.property, Exec.ok_bind]
        exact ⟨_, rfl⟩
      obtain ⟨present, found⟩ := found
      rw [envmapStep, found]
      exact performed_read filled (.has number name) trivial _
  | get number name =>
      obtain ⟨entries, here⟩ := filled number
      obtain ⟨ptr, str, pointer, points, -⟩ := pointer_given here (.got name)
      have pointer : ucbEnvmapGet (maps number) name.val = .ok ptr := pointer
      rw [envmapStep, pointer, Exec.ok_bind, here.list_eq, points.get]
      exact performed_read filled (.get number name) trivial _

/-- At every point of a sequence of operations on new maps the environment carries every map
faithfully, exactly when each operation adds a plain name or none. -/
theorem envp_faithful_iff (ops : List EnvmapOp) :
    (∀ front rest, ops = front ++ rest →
      ∀ after ∈ performAll (envmapRun allocator) (fun _ => ucbEnvmapNew) front,
        ∀ number, Faithful allocator (after.1 number)) ↔
      Throughout (envmapRun allocator) AddsPlain (fun _ => ucbEnvmapNew) ops := by
  have faithful {maps : Nat → UcbEnvmap} (filled : AllFilled maps) :
      (∀ number, Faithful allocator (maps number)) ↔ AllPlain maps := by
    apply forall_congr'
    intro number
    obtain ⟨entries, here⟩ := filled number
    exact faithful_iff generous (by rw [here.list_eq]; exact here.exact)
  apply holds_throughout_iff AllFilled fun maps => ∀ number, Faithful allocator (maps number)
  · intro maps op filled
    obtain ⟨after, result, ran, filledAfter, exact⟩ := envmapStep_performed generous filled op
    refine ⟨(after, result), ?_, filledAfter, ?_⟩
    · rw [envmapRun, ran]
      rfl
    · intro plain
      rw [faithful filledAfter]
      exact exact ((faithful filled).mp plain)
  · exact allFilled_new
  · rw [faithful allFilled_new]
    intro number name member
    cases member

end Sequences

/-- A variable is set and imported again. -/
theorem envp_faithful_iff_letterA :
    (∀ front rest, [EnvmapOp.set 0 letterA (.text letterA), .initFromCurrent 0 (some environA)] =
        front ++ rest →
      ∀ after ∈ performAll (envmapRun ⟨fun _ _ => true, fun _ => 0⟩) (fun _ => ucbEnvmapNew) front,
        ∀ number, Faithful ⟨fun _ _ => true, fun _ => 0⟩ (after.1 number)) ↔
      Throughout (envmapRun ⟨fun _ _ => true, fun _ => 0⟩) AddsPlain (fun _ => ucbEnvmapNew)
        [.set 0 letterA (.text letterA), .initFromCurrent 0 (some environA)] :=
  envp_faithful_iff (fun _ _ => rfl) _

def nameWithEquals : ValidStr :=
  ⟨ownedStr [65, 61, 65] [0] 4,
    repInv_owned ⟨(validate_ok_iff _).mp rfl, by decide⟩ [] (by decide) (by decide)⟩

/-- A name with a `=` is set, and comes back as another name. -/
theorem envp_splits_name :
    ∃ maps, performAll (envmapRun ⟨fun _ _ => true, fun _ => 0⟩) (fun _ => ucbEnvmapNew)
        [.set 0 nameWithEquals (.text letterA)] = some (maps, [.flag true]) ∧
      ucbEnvmapToEnvp ⟨fun _ _ => true, fun _ => 0⟩ (maps 0) =
        .ok (some [[65, 61, 65, 61, 65, 0]]) ∧
      ¬ Faithful ⟨fun _ _ => true, fun _ => 0⟩ (maps 0) := by
  refine ⟨_, rfl, rfl, ?_⟩
  rintro ⟨envp, entries, made, split, same⟩
  have envp_eq : envp = [[65, 61, 65, 61, 65, 0]] :=
    (Option.some.inj (Exec.ok.inj made)).symm
  subst envp_eq
  have entries_eq := Exec.ok.inj split
  subst entries_eq
  exact absurd same (by decide)

end Ucb.Env
