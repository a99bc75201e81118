import Ucb.Env.Envp

/-!
Contract: adding to the value of a name with strings that may be that value.

Owns:
- `ucb_envmap_append` and `ucb_envmap_prepend` of strings that are the caller's own or
  borrowed from `ucb_envmap_get`, in any map;
- exactly when both leave what the strings were at the time of the call.

Appending puts the separator into the value first. A value that is borrowed has the
separator when it is read.
-/

namespace Ucb.Env

open Ucb.Lib Ucb.Str

/-- Append a string that the caller passes, with a separator that it passes. -/
def appendPassed (allocator : Allocator) (map : UcbEnvmap) (name : UcbStr) (value : EnvArg)
    (sep : Option EnvArg) : Exec (UcbEnvmap × Bool) := do
  let ptr ← value.pointer map
  let sepPtr ← sepPointer map sep
  ucbEnvmapAppend allocator map name ptr sepPtr

/-- Prepend a string that the caller passes, with a separator that it passes. -/
def prependPassed (allocator : Allocator) (map : UcbEnvmap) (name : UcbStr) (value : EnvArg)
    (sep : Option EnvArg) : Exec (UcbEnvmap × Bool) := do
  let ptr ← value.pointer map
  let sepPtr ← sepPointer map sep
  ucbEnvmapPrepend allocator map name ptr sepPtr

/-- The operation succeeds and leaves a value for the name. All other names keep theirs. -/
def Leaves (map : UcbEnvmap) (name text : List UInt8) (outcome : Exec (UcbEnvmap × Bool)) : Prop :=
  ∃ changed entries, outcome = .ok (changed, true) ∧ Filled changed entries ∧
    changed.values = Function.update map.values name (some text)

section Passed

variable {allocator : Allocator} {map : UcbEnvmap} {front back : List UcbEnvmapEntry}
  {entry : UcbEnvmapEntry} {name text text' : List UInt8} {outcome : Exec (UcbEnvmap × Bool)}

theorem Leaves.text_iff (leaves : Leaves map name text outcome) :
    Leaves map name text' outcome ↔ text' = text := by
  constructor
  · rintro ⟨changed', entries', ran', -, same'⟩
    obtain ⟨changed, entries, ran, -, same⟩ := leaves
    obtain ⟨rfl, -⟩ := Prod.mk.inj (Exec.ok.inj (ran.symm.trans ran'))
    exact Option.some.inj (Function.update_injective map.values name (same'.symm.trans same))
  · rintro rfl
    exact leaves

theorem Filled.leaves (filled : Filled map (front ++ entry :: back)) {value : UcbStr}
    (exact : Exact value) (absent : entry.name.text ∉ namesOf front) :
    Leaves map entry.name.text value.text
      (.ok (⟨some ((front ++ entry :: back).set front.length { entry with value := value })⟩,
        true)) := by
  obtain ⟨changed, done, entries, ran, filled', -⟩ := filled.replace exact true
  obtain ⟨rfl, -⟩ := Prod.mk.inj (Exec.ok.inj ran)
  refine ⟨_, entries, rfl, filled', ?_⟩
  have replaced : (front ++ entry :: back).set front.length { entry with value := value } =
      front ++ { entry with value := value } :: back := by simp
  rw [UcbEnvmap.values, UcbEnvmap.values, filled.list_eq, UcbEnvmap.list, Option.getD_some,
    replaced, texts_middle, texts_middle]
  exact valuesOf_replace absent _ _

/-- In any map, both operations leave what they were given at the time of the call, exactly
when the value that is appended is not the one that has got the separator. -/
theorem append_prepend_leave_iff (generous : allocator.Generous)
    (filled : ∃ entries, Filled map entries) {name : ValidStr} {old added : List UInt8}
    (existing : map.values name.val.text = some old) {value : EnvArg}
    (given : argText map.values value = some added) (sep : Option EnvArg) :
    Leaves map name.val.text (old ++ separation old (sepText map.values sep) ++ added)
        (appendPassed allocator map name.val value sep) ∧
      Leaves map name.val.text (added ++ separation old (sepText map.values sep) ++ old)
        (prependPassed allocator map name.val value sep) ↔
      OwnUnparted map.values name.val.text (sepText map.values sep) value := by
  obtain ⟨entries, filled⟩ := filled
  obtain ⟨ptr, str, pointed, points, texts⟩ := pointer_points filled value
  obtain ⟨sepPtr, sepStr, sepPointed, sepPoints, sepTexts⟩ := sepPointer_points filled sep
  have values : map.values = valuesOf (entries.map entryTexts) := by
    rw [UcbEnvmap.values, filled.list_eq]
  rcases find_cases filled.exact name.property with
    ⟨nowhere, absent⟩ | ⟨front, entry, back, rfl, same, place, before⟩
  · have nothing : valuesOf (entries.map entryTexts) name.val.text = none := valuesOf_eq_none absent
    rw [values, nothing] at existing
    cases existing
  · have absent : entry.name.text ∉ namesOf front := same ▸ before
    have valued : valuesOf ((front ++ entry :: back).map entryTexts) name.val.text =
        some entry.value.text := same ▸ valuesOf_entry absent
    rw [values, valued] at existing
    obtain rfl := Option.some.inj existing
    rw [← values] at texts sepTexts
    rw [given] at texts
    obtain ⟨str, rfl, rfl⟩ := Option.map_eq_some_iff.mp texts
    obtain ⟨appended, ran, exact, text⟩ := append_entry generous filled place points sepPoints
    obtain ⟨prepended, ran', exact', text'⟩ := prepend_entry generous filled place points sepPoints
    rw [sepTexts] at text text'
    have appends := filled.leaves exact absent
    have prepends := filled.leaves exact' absent
    rw [same, text] at appends
    rw [same, text'] at prepends
    rw [appendPassed, prependPassed, pointed, Exec.ok_bind, sepPointed, Exec.ok_bind, Exec.ok_bind,
      Exec.ok_bind, ran, ran', and_iff_left prepends, appends.text_iff,
      List.append_cancel_left_eq]
    have own := pointer_own filled name.property same place pointed
    by_cases itself : ptr = .valueOf front.length
    · obtain ⟨other, rfl, isName⟩ := own.mp itself
      have borrowed : some str.text = some entry.value.text := by
        rw [← valued, ← values, ← isName]
        exact given.symm
      rw [if_pos itself, Option.some.inj borrowed, List.self_eq_append_right, OwnUnparted, values,
        valued]
      simp [isName]
    · rw [if_neg itself]
      refine iff_of_true rfl ?_
      cases value with
      | text str => trivial
      | got other => exact fun isName => absurd (own.mpr ⟨other, rfl, isName⟩) itself

end Passed

def mapA : UcbEnvmap :=
  ⟨some [⟨letterA.val, letterA.val⟩]⟩

theorem filled_mapA : Filled mapA [⟨letterA.val, letterA.val⟩] where
  vector := rfl
  exact entry member := by
    obtain rfl := List.mem_singleton.mp member
    exact ⟨⟨letterA.property, by decide⟩, ⟨letterA.property, by decide⟩⟩

/-- `A` is added to itself, without a separator. -/
theorem append_prepend_leave_iff_itself :
    Leaves mapA [65] [65, 65] (appendPassed ⟨fun _ _ => true, fun _ => 0⟩ mapA letterA.val
        (.got letterA) none) ∧
      Leaves mapA [65] [65, 65] (prependPassed ⟨fun _ _ => true, fun _ => 0⟩ mapA letterA.val
        (.got letterA) none) := by
  have existing : mapA.values letterA.val.text = some [65] := rfl
  have given : argText mapA.values (.got letterA) = some [65] := rfl
  refine (append_prepend_leave_iff (fun _ _ => rfl) ⟨_, filled_mapA⟩ existing given none).mpr ?_
  intro _ old _
  simp [separation, sepText]

/-- `A` is appended to itself behind the separator `A`, and the separator is there twice. -/
theorem append_itself_separated :
    ¬ Leaves mapA [65] [65, 65, 65] (appendPassed ⟨fun _ _ => true, fun _ => 0⟩ mapA letterA.val
      (.got letterA) (some (.text letterA))) := by
  rintro ⟨changed, entries, ran, -, values⟩
  have left : (appendPassed ⟨fun _ _ => true, fun _ => 0⟩ mapA letterA.val (.got letterA)
      (some (.text letterA))).returned.map (fun after => after.1.values [65]) =
        some (some [65, 65, 65, 65]) := rfl
  rw [ran] at left
  have here : changed.values [65] = some [65, 65, 65, 65] := Option.some.inj left
  rw [values] at here
  cases here

end Ucb.Env
