import Ucb.Env.Envmap
import Ucb.Lib.Assoc
import Mathlib.Data.List.Nodup

/-!
Contract: environment maps as finite maps.

Owns:
- `Mapped`, that the entries of a map have distinct names and the values that were
  last assigned to them;
- what each operation does to it;
- exactly when whole sequences of operations keep it.

Three operations do more than they say. Importing the environment never looks for a
name, so that a name may get a second entry behind the one that lookups meet. A map
that is copied onto itself is emptied first. A value that is appended to itself has
the separator already.
-/

namespace Ucb.Env

open Ucb.Lib Ucb.Str Ucb.Unicode

/-! ## Maps of distinct names -/

def entryTexts (entry : UcbEnvmapEntry) : List UInt8 × List UInt8 :=
  (entry.name.text, entry.value.text)

def namesOf (entries : List UcbEnvmapEntry) : List (List UInt8) :=
  (entries.map entryTexts).map Prod.fst

def UcbEnvmap.values (map : UcbEnvmap) : Values :=
  valuesOf (map.list.map entryTexts)

/-- Both strings of an entry are without spare room. -/
structure ExactEntry (entry : UcbEnvmapEntry) : Prop where
  name : Exact entry.name
  value : Exact entry.value

/-- The entries are there; names may occur twice. -/
structure Filled (map : UcbEnvmap) (entries : List UcbEnvmapEntry) : Prop where
  vector : map.entries = some entries
  exact : ∀ entry ∈ entries, ExactEntry entry

structure Distinct (map : UcbEnvmap) (entries : List UcbEnvmapEntry) : Prop where
  vector : map.entries = some entries
  exact : ∀ entry ∈ entries, ExactEntry entry
  names : (namesOf entries).Nodup

/-- The map has one entry for each name that has a value, with that value. -/
def Mapped (map : UcbEnvmap) (values : Values) : Prop :=
  ∃ entries, Distinct map entries ∧ values = valuesOf (entries.map entryTexts)

def MapAll (maps : Nat → UcbEnvmap) (all : Nat → Values) : Prop :=
  ∀ map, Mapped (maps map) (all map)

def ucbEnvmapNew : UcbEnvmap :=
  ⟨some []⟩

theorem mapped_new : Mapped ucbEnvmapNew (fun _ => none) :=
  ⟨[], ⟨rfl, by simp, .nil⟩, rfl⟩

theorem Mapped.values_eq {map : UcbEnvmap} {values : Values} (mapped : Mapped map values) :
    values = map.values := by
  obtain ⟨entries, distinct, rfl⟩ := mapped
  rw [UcbEnvmap.values, UcbEnvmap.list, distinct.vector]
  rfl

theorem Filled.list_eq {map : UcbEnvmap} {entries : List UcbEnvmapEntry}
    (filled : Filled map entries) : map.list = entries := by
  rw [UcbEnvmap.list, filled.vector]
  rfl

theorem Distinct.filled {map : UcbEnvmap} {entries : List UcbEnvmapEntry}
    (distinct : Distinct map entries) : Filled map entries :=
  ⟨distinct.vector, distinct.exact⟩

theorem Distinct.list_eq {map : UcbEnvmap} {entries : List UcbEnvmapEntry}
    (distinct : Distinct map entries) : map.list = entries :=
  distinct.filled.list_eq

variable {allocator : Allocator} {map : UcbEnvmap} {entries front back : List UcbEnvmapEntry}
  {entry : UcbEnvmapEntry} {name value : UcbStr}

theorem namesOf_append (front back : List UcbEnvmapEntry) :
    namesOf (front ++ back) = namesOf front ++ namesOf back := by
  rw [namesOf, List.map_append, List.map_append]
  rfl

/-! ## Finding -/

theorem findFrom_eq (valid : RepInv name) :
    ∀ {entries : List UcbEnvmapEntry} (idx : Nat), (∀ entry ∈ entries, ExactEntry entry) →
      findFrom name idx entries =
        .ok ((entries.findIdx? fun entry =>
          decide (entry.name.text = name.text)).map (· + idx)) := by
  intro entries
  induction entries with
  | nil => exact fun _ _ => rfl
  | cons entry entries inductionHypothesis =>
      intro idx exact
      have here := (exact entry (List.mem_cons_self ..)).name.valid
      rw [findFrom, equal_eq here valid, Exec.ok_bind, List.findIdx?_cons]
      by_cases same : entry.name.text = name.text
      · simp [same]
      · have later := inductionHypothesis (idx + 1)
          fun other member => exact other (List.mem_cons_of_mem _ member)
        simp [same, later, Function.comp_def, Nat.add_comm, Nat.add_left_comm]

theorem find_eq (exact : ∀ entry ∈ entries, ExactEntry entry) (valid : RepInv name) :
    envmapFind entries name =
      .ok (entries.findIdx? fun entry => decide (entry.name.text = name.text)) := by
  rw [envmapFind, findFrom_eq valid 0 exact]
  simp

theorem mem_namesOf {text : List UInt8} :
    text ∈ namesOf entries ↔ ∃ entry ∈ entries, entry.name.text = text := by
  rw [namesOf, List.map_map, List.mem_map]
  rfl

theorem findIdx?_split (holds : UcbEnvmapEntry → Bool) : ∀ entries : List UcbEnvmapEntry,
    (entries.findIdx? holds = none ∧ ∀ entry ∈ entries, holds entry = false) ∨
    ∃ front entry back, entries = front ++ entry :: back ∧ holds entry = true ∧
      entries.findIdx? holds = some front.length ∧ ∀ other ∈ front, holds other = false
  | [] => .inl ⟨rfl, by simp⟩
  | entry :: entries => by
      rw [List.findIdx?_cons]
      cases here : holds entry with
      | true => exact .inr ⟨[], entry, entries, rfl, here, rfl, by simp⟩
      | false =>
          rcases findIdx?_split holds entries with
            ⟨none, all⟩ | ⟨front, found, back, rfl, is, place, before⟩
          · exact .inl ⟨by simp [none], List.forall_mem_cons.mpr ⟨here, all⟩⟩
          · exact .inr ⟨entry :: front, found, back, rfl, is, by simp [place],
              List.forall_mem_cons.mpr ⟨here, before⟩⟩

/-- No entry has the name, or one has that stands behind others. -/
theorem find_cases (exact : ∀ entry ∈ entries, ExactEntry entry) (valid : RepInv name) :
    (envmapFind entries name = .ok none ∧ name.text ∉ namesOf entries) ∨
    ∃ front entry back, entries = front ++ entry :: back ∧ entry.name.text = name.text ∧
      envmapFind entries name = .ok (some front.length) ∧ name.text ∉ namesOf front := by
  rw [find_eq exact valid]
  have absent {part : List UcbEnvmapEntry}
      (none : ∀ entry ∈ part, decide (entry.name.text = name.text) = false) :
      name.text ∉ namesOf part := by
    rw [mem_namesOf]
    rintro ⟨entry, member, same⟩
    exact absurd same (of_decide_eq_false (none entry member))
  rcases findIdx?_split (fun entry => decide (entry.name.text = name.text)) entries with
    ⟨none, all⟩ | ⟨front, entry, back, rfl, is, place, before⟩
  · exact .inl ⟨by rw [none], absent all⟩
  · exact .inr ⟨front, entry, back, rfl, of_decide_eq_true is, by rw [place], absent before⟩

/-! ## Entries -/

theorem entryNew_exact (generous : allocator.Generous) (nameValid : RepInv name)
    (valueValid : RepInv value) :
    ∃ entry, envmapEntryNew allocator name value = .ok (some entry) ∧ ExactEntry entry ∧
      entryTexts entry = (name.text, value.text) := by
  obtain ⟨newName, named, exactName, sameName⟩ := clone_exact generous nameValid
  obtain ⟨newValue, valued, exactValue, sameValue⟩ := clone_exact generous valueValid
  refine ⟨⟨newName, newValue⟩, ?_, ⟨exactName, exactValue⟩, by rw [entryTexts, sameName, sameValue]⟩
  rw [envmapEntryNew, if_pos (generous _ _), named, Exec.ok_bind, valued]
  rfl

theorem splitNv_parts {text : List UInt8} (isText : IsText text) (has : 61 ∈ text) :
    text = text.take (text.idxOf 61) ++ 61 :: text.drop (text.idxOf 61 + 1) ∧
      IsText (text.take (text.idxOf 61)) ∧ IsText (text.drop (text.idxOf 61 + 1)) := by
  have inside : text.idxOf 61 < text.length := List.idxOf_lt_length_iff.mpr has
  have split : text = text.take (text.idxOf 61) ++ 61 :: text.drop (text.idxOf 61 + 1) := by
    have here : text[text.idxOf 61] = 61 := List.getElem_idxOf inside
    conv_lhs => rw [← List.take_append_drop (text.idxOf 61) text, List.drop_eq_getElem_cons inside,
      here]
  refine ⟨split, ?_⟩
  rw [split] at isText
  exact isText.parts (by decide)

/-- Each string of the environment that has a name becomes an entry. -/
theorem entryFromNv_exact (generous : allocator.Generous) {text : List UInt8}
    (isText : IsText text) :
    ∃ entry, envmapEntryFromNv allocator (text ++ [0]) = .ok entry ∧
      entry.map entryTexts = splitNv text ∧ ∀ made ∈ entry, ExactEntry made := by
  have measured : strlen (text ++ [0]) = .ok text.length := strlen_append text [] isText.noNul
  rw [envmapEntryFromNv, measured, Exec.ok_bind]
  simp only [List.take_left]
  by_cases has : 61 ∈ text
  · obtain ⟨split, nameText, valueText⟩ := splitNv_parts isText has
    have inside : text.idxOf 61 < text.length := List.idxOf_lt_length_iff.mpr has
    rw [if_neg (Nat.ne_of_lt inside)]
    by_cases unnamed : text.idxOf 61 = 0
    · rw [if_pos unnamed, splitNv, if_neg (fun both => both.2 unnamed)]
      exact ⟨none, rfl, rfl, by simp⟩
    · have nameLength : (text.take (text.idxOf 61)).length = text.idxOf 61 :=
        List.length_take_of_le (Nat.le_of_lt inside)
      have valueLength :
          (text.drop (text.idxOf 61 + 1)).length = text.length - text.idxOf 61 - 1 := by
        rw [List.length_drop, Nat.sub_sub]
      have nameDenotes : DenotesAt (text ++ [0]) (text.idxOf 61) (text.take (text.idxOf 61)) := by
        have nonempty : text.take (text.idxOf 61) ≠ [] :=
          List.ne_nil_of_length_pos (by omega)
        have counted := DenotesAt.counted (text.take (text.idxOf 61))
          (61 :: text.drop (text.idxOf 61 + 1) ++ [0]) nonempty
        rwa [nameLength, ← List.append_assoc, ← split] at counted
      have valueDenotes : DenotesAt ((text ++ [0]).drop (text.idxOf 61 + 1))
          (text.length - text.idxOf 61 - 1) (text.drop (text.idxOf 61 + 1)) := by
        rw [List.drop_append_of_le_length inside, ← valueLength]
        exact denotes_length _ []
      obtain ⟨name, named, exactName, sameName⟩ :=
        init_exact generous ⟨.null, 0, 0⟩ nameText nameDenotes
      obtain ⟨value, valued, exactValue, sameValue⟩ :=
        init_exact generous ⟨.null, 0, 0⟩ valueText valueDenotes
      rw [if_neg unnamed, if_pos (generous _ _), splitNv, if_pos ⟨has, unnamed⟩, ucbStrInit, named,
        Exec.ok_bind, ucbStrInit, valued]
      refine ⟨some ⟨name, value⟩, rfl, ?_, ?_⟩
      · rw [Option.map_some, entryTexts, sameName, sameValue]
      · rintro made ⟨rfl⟩
        exact ⟨exactName, exactValue⟩
  · have outside : text.idxOf 61 = text.length := List.idxOf_eq_length_iff.mpr has
    rw [if_pos outside, splitNv, if_neg (fun both => has both.1)]
    exact ⟨none, rfl, rfl, by simp⟩

theorem importAll_exact (generous : allocator.Generous) : ∀ (environ : List EnvText)
    (entries : List UcbEnvmapEntry),
      ∃ added, importAll allocator entries (environ.map Subtype.val) = .ok (entries ++ added) ∧
        added.map entryTexts = assignments environ ∧ ∀ entry ∈ added, ExactEntry entry
  | [], entries => ⟨[], by rw [List.append_nil]; rfl, rfl, by simp⟩
  | nv :: environ, entries => by
      obtain ⟨entry, made, texts, exact⟩ := entryFromNv_exact generous nv.property
      obtain ⟨added, imported, same, exact'⟩ :=
        importAll_exact generous environ (entries ++ entry.toList)
      refine ⟨entry.toList ++ added, ?_, ?_, ?_⟩
      · rw [List.map_cons, importAll, made, Exec.ok_bind, imported, List.append_assoc]
      · have step : assignments (nv :: environ) =
            (splitNv nv.val).toList ++ assignments environ := by
          rw [assignments, List.filterMap_cons]
          cases splitNv nv.val <;> rfl
        rw [List.map_append, same, step, ← texts]
        cases entry <;> rfl
      · intro other member
        rcases List.mem_append.mp member with here | later
        · exact exact other (Option.mem_toList.mp here)
        · exact exact' other later

theorem cloneAll_exact (generous : allocator.Generous) : ∀ (source : List UcbEnvmapEntry)
    (entries : List UcbEnvmapEntry), (∀ entry ∈ source, ExactEntry entry) →
      ∃ added, cloneAll allocator entries source = .ok (entries ++ added) ∧
        added.map entryTexts = source.map entryTexts ∧ ∀ entry ∈ added, ExactEntry entry
  | [], entries, _ => ⟨[], by rw [List.append_nil]; rfl, rfl, by simp⟩
  | entry :: source, entries, exact => by
      have here := exact entry (List.mem_cons_self ..)
      obtain ⟨made, cloned, exactMade, texts⟩ :=
        entryNew_exact generous here.name.valid here.value.valid
      obtain ⟨added, rest, same, exact'⟩ := cloneAll_exact generous source (entries ++ [made])
        fun other member => exact other (List.mem_cons_of_mem _ member)
      refine ⟨made :: added, ?_, ?_, List.forall_mem_cons.mpr ⟨exactMade, exact'⟩⟩
      · rw [cloneAll, cloned, Exec.ok_bind, Option.toList_some, rest, List.append_assoc]
        rfl
      · rw [List.map_cons, List.map_cons, same, texts]
        rfl

theorem freeEntries_ok : ∀ {entries : List UcbEnvmapEntry},
    (∀ entry ∈ entries, ExactEntry entry) → freeEntries entries = .ok ()
  | [], _ => rfl
  | entry :: entries, exact => by
      have here := exact entry (List.mem_cons_self ..)
      have rest := freeEntries_ok fun other member => exact other (List.mem_cons_of_mem _ member)
      rw [freeEntries, envmapEntryFree, here.name.valid.holds_text.release, Exec.ok_bind,
        here.value.valid.holds_text.release, Exec.ok_bind, rest]

/-! ## Assigning -/

/-- Names assigned one after the other, none of them again. -/
theorem assignAll_eq : ∀ {pairs assigned : List (List UInt8 × List UInt8)},
    ((pairs ++ assigned).map Prod.fst).Nodup →
      assignAll (valuesOf pairs) assigned = valuesOf (pairs ++ assigned)
  | pairs, [], _ => by
      rw [List.append_nil]
      rfl
  | pairs, pair :: assigned, nodup => by
      have absent : pair.1 ∉ pairs.map Prod.fst := by
        rw [List.map_append] at nodup
        exact fun early => List.disjoint_of_nodup_append nodup early (List.mem_cons_self ..)
      rw [List.append_cons] at nodup ⊢
      rw [← assignAll_eq nodup, valuesOf_push absent]
      rfl

section Changes

variable {front back entries : List UcbEnvmapEntry} {entry : UcbEnvmapEntry} {value : UcbStr}

theorem namesOf_middle (front back : List UcbEnvmapEntry) (entry : UcbEnvmapEntry) :
    namesOf (front ++ entry :: back) = namesOf front ++ entry.name.text :: namesOf back := by
  rw [namesOf_append]
  rfl

theorem texts_middle (front back : List UcbEnvmapEntry) (entry : UcbEnvmapEntry) :
    (front ++ entry :: back).map entryTexts =
      front.map entryTexts ++ (entry.name.text, entry.value.text) :: back.map entryTexts := by
  rw [List.map_append]
  rfl

theorem Distinct.push (distinct : Distinct map entries) (exact : ExactEntry entry)
    (absent : entry.name.text ∉ namesOf entries) :
    Mapped ⟨some (entries ++ [entry])⟩
      (Function.update (valuesOf (entries.map entryTexts)) entry.name.text
        (some entry.value.text)) := by
  refine ⟨entries ++ [entry], ⟨rfl, ?_, ?_⟩, ?_⟩
  · intro other member
    rcases List.mem_append.mp member with early | last
    · exact distinct.exact other early
    · exact List.mem_singleton.mp last ▸ exact
  · rw [namesOf_middle, List.nodup_middle, ← namesOf_append, List.append_nil]
    exact List.nodup_cons.mpr ⟨absent, distinct.names⟩
  · rw [List.map_append]
    exact (valuesOf_push absent _).symm

theorem Distinct.replace (distinct : Distinct map (front ++ entry :: back)) (exact : Exact value)
    (absent : entry.name.text ∉ namesOf front) :
    Mapped ⟨some ((front ++ entry :: back).set front.length { entry with value := value })⟩
      (Function.update (valuesOf ((front ++ entry :: back).map entryTexts)) entry.name.text
        (some value.text)) := by
  have replaced : (front ++ entry :: back).set front.length { entry with value := value } =
      front ++ { entry with value := value } :: back := by simp
  refine ⟨front ++ { entry with value := value } :: back, ⟨by rw [replaced], ?_, ?_⟩, ?_⟩
  · have old := distinct.exact
    simp only [List.mem_append, List.mem_cons] at old ⊢
    rintro other (early | rfl | late)
    · exact old other (.inl early)
    · exact ⟨(old entry (.inr (.inl rfl))).name, exact⟩
    · exact old other (.inr (.inr late))
  · have names := distinct.names
    rw [namesOf_middle] at names ⊢
    exact names
  · rw [texts_middle, texts_middle]
    exact (valuesOf_replace absent _ _).symm

theorem Distinct.remove (distinct : Distinct map (front ++ entry :: back)) :
    Mapped ⟨some ((front ++ entry :: back).eraseIdx front.length)⟩
      (Function.update
        (valuesOf ((front ++ entry :: back).map entryTexts)) entry.name.text none) := by
  have removed : (front ++ entry :: back).eraseIdx front.length = front ++ back := by
    rw [List.eraseIdx_append_of_length_le (Nat.le_refl _), Nat.sub_self]
    rfl
  have names := distinct.names
  rw [namesOf_middle, List.nodup_middle, ← namesOf_append, List.nodup_cons] at names
  refine ⟨front ++ back, ⟨by rw [removed], ?_, names.2⟩, ?_⟩
  · intro other member
    refine distinct.exact other ?_
    rw [List.mem_append] at member ⊢
    exact member.imp_right (List.mem_cons_of_mem _)
  · rw [texts_middle, List.map_append]
    refine (valuesOf_remove ?_ _).symm
    rw [← List.map_append]
    exact names.1

end Changes

/-! ## Arguments -/

section Arguments

variable {values : Values}

structure Points (entries : List UcbEnvmapEntry) (ptr : StrPtr) (str : Option UcbStr) : Prop where
  get : ptr.get entries = .ok str
  valid : ∀ given ∈ str, RepInv given

theorem entryAt_middle (front back : List UcbEnvmapEntry) (entry : UcbEnvmapEntry) :
    entryAt (front ++ entry :: back) front.length = .ok entry := by
  simp [entryAt]

theorem get_points (filled : Filled map entries) (valid : RepInv name) :
    ∃ ptr str, ucbEnvmapGet map name = .ok ptr ∧ Points entries ptr str ∧
      str.map UcbStr.text = valuesOf (entries.map entryTexts) name.text ∧
      ptr = match entries.findIdx? (fun entry => decide (entry.name.text = name.text)) with
        | none => .null
        | some idx => .valueOf idx := by
  have found := find_eq filled.exact valid
  rw [ucbEnvmapGet, filled.vector]
  simp only [found, Exec.ok_bind]
  rcases find_cases filled.exact valid with
    ⟨none, absent⟩ | ⟨front, entry, back, rfl, same, place, before⟩
  · have nowhere := Exec.ok.inj (found.symm.trans none)
    rw [nowhere]
    exact ⟨.null, Option.none, rfl, ⟨rfl, by simp⟩, (valuesOf_eq_none absent).symm, rfl⟩
  · have somewhere := Exec.ok.inj (found.symm.trans place)
    have here := filled.exact entry (List.mem_append_right _ (List.mem_cons_self ..))
    rw [somewhere]
    refine ⟨.valueOf front.length, some entry.value, rfl, ⟨?_, ?_⟩, ?_, rfl⟩
    · rw [StrPtr.get, entryAt_middle]
      rfl
    · rintro given ⟨rfl⟩
      exact here.value.valid
    · rw [texts_middle, ← same, valuesOf_middle (same ▸ before), Function.update_self]
      rfl

theorem pointer_points (filled : Filled map entries) (arg : EnvArg) :
    ∃ ptr str, arg.pointer map = .ok ptr ∧ Points entries ptr str ∧
      str.map UcbStr.text = argText (valuesOf (entries.map entryTexts)) arg := by
  cases arg with
  | text str =>
      refine ⟨.string str.val, some str.val, rfl, ⟨rfl, ?_⟩, rfl⟩
      rintro given ⟨rfl⟩
      exact str.property
  | got name =>
      obtain ⟨ptr, str, got, points, texts, -⟩ := get_points filled name.property
      exact ⟨ptr, str, got, points, texts⟩

/-- An argument is the string that its pointer is to, also when that is the string that is
changed. -/
theorem argument_get {front back : List UcbEnvmapEntry} {entry : UcbEnvmapEntry} {ptr : StrPtr}
    {str : UcbStr} (points : Points (front ++ entry :: back) ptr (some str)) :
    (ptr.argument front.length str).get entry.value = str := by
  by_cases own : ptr = .valueOf front.length
  · have got := points.get
    rw [own, StrPtr.get, entryAt_middle] at got
    rw [StrPtr.argument, if_pos own]
    exact Option.some.inj (Exec.ok.inj got)
  · rw [StrPtr.argument, if_neg own]
    rfl

end Arguments

/-! ## Operations on one map -/

section Operations

theorem push_mapped (generous : allocator.Generous) (distinct : Distinct map entries)
    (nameValid : RepInv name) (valueValid : RepInv value) (absent : name.text ∉ namesOf entries) :
    ∃ changed, pushEntry allocator map entries name value = .ok (changed, true) ∧
      Mapped changed
        (Function.update (valuesOf (entries.map entryTexts)) name.text (some value.text)) := by
  obtain ⟨entry, made, exact, texts⟩ := entryNew_exact generous nameValid valueValid
  obtain ⟨sameName, sameValue⟩ := Prod.mk.inj texts
  refine ⟨⟨some (entries ++ [entry])⟩, by rw [pushEntry, made]; rfl, ?_⟩
  rw [← sameName, ← sameValue]
  exact distinct.push exact (sameName ▸ absent)

theorem set_mapped (generous : allocator.Generous) (distinct : Distinct map entries)
    (valid : RepInv name) {ptr : StrPtr} {str : UcbStr} (points : Points entries ptr (some str)) :
    ∃ changed, ucbEnvmapSet allocator map name ptr = .ok (changed, true) ∧
      Mapped changed
        (Function.update (valuesOf (entries.map entryTexts)) name.text (some str.text)) := by
  have given := points.valid str rfl
  rw [ucbEnvmapSet, distinct.vector]
  simp only [points.get, Exec.ok_bind]
  rcases find_cases distinct.exact valid with
    ⟨none, absent⟩ | ⟨front, entry, back, rfl, same, place, before⟩
  · simp only [none, Exec.ok_bind]
    exact push_mapped generous distinct valid given absent
  · have here := distinct.exact entry (List.mem_append_right _ (List.mem_cons_self ..))
    simp only [place, Exec.ok_bind, entryAt_middle]
    by_cases own : ptr = .valueOf front.length
    · have text := argument_get points
      rw [StrPtr.argument, if_pos own] at text ⊢
      have text : entry.value = str := text
      refine ⟨_, rfl, ?_⟩
      rw [← same, ← text]
      exact distinct.replace here.value (same ▸ before)
    · obtain ⟨made, copied, exact, text⟩ := copy_exact generous here.value given
      rw [StrPtr.argument, if_neg own, copied, Exec.ok_bind]
      refine ⟨_, rfl, ?_⟩
      rw [← same, ← text]
      exact distinct.replace exact (same ▸ before)

/-- Setting a value that is not given. -/
theorem set_null (distinct : Distinct map entries) {ptr : StrPtr}
    (points : Points entries ptr none) :
    ucbEnvmapSet allocator map name ptr = .ok (map, false) := by
  rw [ucbEnvmapSet, distinct.vector]
  simp only [points.get, Exec.ok_bind]
  rfl

theorem unset_mapped (distinct : Distinct map entries) (valid : RepInv name) :
    ∃ changed, ucbEnvmapUnset map name =
        .ok (changed, (valuesOf (entries.map entryTexts) name.text).isSome) ∧
      Mapped changed (Function.update (valuesOf (entries.map entryTexts)) name.text none) := by
  rw [ucbEnvmapUnset, distinct.vector]
  rcases find_cases distinct.exact valid with
    ⟨none, absent⟩ | ⟨front, entry, back, rfl, same, place, before⟩
  · have nothing := valuesOf_eq_none absent
    simp only [none, Exec.ok_bind]
    rw [nothing, Function.update_eq_self_iff.mpr nothing.symm]
    exact ⟨map, rfl, entries, distinct, rfl⟩
  · have here := distinct.exact entry (List.mem_append_right _ (List.mem_cons_self ..))
    have found : (valuesOf ((front ++ entry :: back).map entryTexts) name.text).isSome = true := by
      rw [texts_middle, ← same, valuesOf_middle (same ▸ before), Function.update_self]
      rfl
    rw [found, ← same]
    simp only [place, Exec.ok_bind, entryAt_middle, envmapEntryFree,
      here.name.valid.holds_text.release, here.value.valid.holds_text.release]
    exact ⟨_, rfl, distinct.remove⟩

theorem has_mapped (distinct : Distinct map entries) (valid : RepInv name) :
    ucbEnvmapHas map name = .ok (valuesOf (entries.map entryTexts) name.text).isSome := by
  rw [ucbEnvmapHas, distinct.vector]
  rcases find_cases distinct.exact valid with
    ⟨none, absent⟩ | ⟨front, entry, back, rfl, same, place, before⟩
  · simp only [none, Exec.ok_bind]
    rw [valuesOf_eq_none absent]
    rfl
  · simp only [place, Exec.ok_bind]
    rw [texts_middle, ← same, valuesOf_middle (same ▸ before), Function.update_self]
    rfl

/-- The separator goes behind the string unless the old value is empty. -/
theorem appendSep_exact (generous : allocator.Generous) {str old : UcbStr} (exact : Exact str)
    (oldValid : RepInv old) {sep : Option StrArg} (valid : ∀ given ∈ sep, RepInv (given.get str)) :
    ∃ made, appendSep allocator str old sep = .ok made ∧ Exact made ∧
      made.text = str.text ++
        separation old.text ((sep.map fun given => (given.get str).text).getD []) := by
  rw [separation]
  cases sep with
  | none => exact ⟨str, rfl, exact, by simp⟩
  | some sep =>
      by_cases empty : old.text = []
      · have isEmpty : ucbStrIsEmpty old = true := by rw [isEmpty_eq oldValid, empty]; rfl
        rw [appendSep, isEmpty, if_pos rfl, if_pos empty]
        exact ⟨str, rfl, exact, (List.append_nil _).symm⟩
      · have nonempty : ucbStrIsEmpty old = false := by
          rw [isEmpty_eq oldValid, List.isEmpty_eq_false_iff]
          exact empty
        rw [appendSep, nonempty, if_neg Bool.false_ne_true, if_neg empty]
        exact append_exact generous exact (valid sep rfl)

/-- Appending to a value that is there. When the appended string is that value itself, it
has the separator already. -/
theorem append_entry (generous : allocator.Generous) (filled : Filled map (front ++ entry :: back))
    (place : envmapFind (front ++ entry :: back) name = .ok (some front.length))
    {ptr sepPtr : StrPtr} {str : UcbStr} {sep : Option UcbStr}
    (points : Points (front ++ entry :: back) ptr (some str))
    (sepPoints : Points (front ++ entry :: back) sepPtr sep) :
    ∃ value, ucbEnvmapAppend allocator map name ptr sepPtr =
        .ok (⟨some ((front ++ entry :: back).set front.length { entry with value := value })⟩,
          true) ∧
      Exact value ∧ value.text = entry.value.text ++
        separation entry.value.text ((sep.map UcbStr.text).getD []) ++
        if ptr = .valueOf front.length then
          entry.value.text ++ separation entry.value.text ((sep.map UcbStr.text).getD [])
        else str.text := by
  have here := filled.exact entry (List.mem_append_right _ (List.mem_cons_self ..))
  have sepValid :
      ∀ given ∈ sep.map (sepPtr.argument front.length), RepInv (given.get entry.value) := by
    cases sep with
    | none => simp
    | some sep =>
        rintro given ⟨rfl⟩
        rw [argument_get sepPoints]
        exact sepPoints.valid sep rfl
  have sepTexts : (sep.map (sepPtr.argument front.length)).map
      (fun given => (given.get entry.value).text) = sep.map UcbStr.text := by
    cases sep with
    | none => rfl
    | some sep => simp [argument_get sepPoints]
  obtain ⟨parted, made, exactParted, partedText⟩ :=
    appendSep_exact generous here.value here.value.valid sepValid
  rw [sepTexts] at partedText
  have argument : (ptr.argument front.length str).get parted =
      if ptr = .valueOf front.length then parted else str := by
    rw [StrPtr.argument]
    split <;> rfl
  have valid : RepInv ((ptr.argument front.length str).get parted) := by
    rw [argument]
    split
    · exact exactParted.valid
    · exact points.valid str rfl
  obtain ⟨changed, appended, exactChanged, text⟩ := append_exact generous exactParted valid
  rw [argument, apply_ite UcbStr.text, partedText] at text
  refine ⟨changed, ?_, exactChanged, text⟩
  rw [ucbEnvmapAppend, filled.vector]
  simp only [points.get, sepPoints.get, place, Exec.ok_bind, entryAt_middle, made, appended]
  rfl

theorem prepend_entry (generous : allocator.Generous) (filled : Filled map (front ++ entry :: back))
    (place : envmapFind (front ++ entry :: back) name = .ok (some front.length))
    {ptr sepPtr : StrPtr} {str : UcbStr} {sep : Option UcbStr}
    (points : Points (front ++ entry :: back) ptr (some str))
    (sepPoints : Points (front ++ entry :: back) sepPtr sep) :
    ∃ value, ucbEnvmapPrepend allocator map name ptr sepPtr =
        .ok (⟨some ((front ++ entry :: back).set front.length { entry with value := value })⟩,
          true) ∧
      Exact value ∧ value.text = str.text ++
        separation entry.value.text ((sep.map UcbStr.text).getD []) ++ entry.value.text := by
  have here := filled.exact entry (List.mem_append_right _ (List.mem_cons_self ..))
  obtain ⟨newVal, made, exactNew, newText⟩ := clone_exact generous (points.valid str rfl)
  have sepValid : ∀ given ∈ sep.map StrArg.other, RepInv (given.get newVal) := by
    cases sep with
    | none => simp
    | some sep =>
        rintro given ⟨rfl⟩
        exact sepPoints.valid sep rfl
  have sepTexts : (sep.map StrArg.other).map (fun given => (given.get newVal).text) =
      sep.map UcbStr.text := by
    cases sep <;> rfl
  obtain ⟨parted, separated, exactParted, partedText⟩ :=
    appendSep_exact generous exactNew here.value.valid sepValid
  rw [sepTexts, newText] at partedText
  have oldValid : RepInv ((StrArg.other entry.value).get parted) := here.value.valid
  obtain ⟨whole, appended, exactWhole, wholeText⟩ := append_exact generous exactParted oldValid
  obtain ⟨changed, copied, exactChanged, text⟩ := copy_exact generous here.value exactWhole.valid
  have prepended : prependedTo allocator entry.value str sep = .ok (changed, true) := by
    simp only [prependedTo, made, Exec.ok_bind, if_true, separated, appended, copied,
      exactWhole.valid.holds_text.release]
    rfl
  rw [wholeText, partedText] at text
  refine ⟨changed, ?_, exactChanged, text⟩
  rw [ucbEnvmapPrepend, filled.vector]
  simp only [points.get, sepPoints.get, place, Exec.ok_bind, entryAt_middle, prepended]
  rfl

theorem append_mapped (generous : allocator.Generous)
    (distinct : Distinct map (front ++ entry :: back)) (same : entry.name.text = name.text)
    (place : envmapFind (front ++ entry :: back) name = .ok (some front.length))
    (before : name.text ∉ namesOf front) {ptr sepPtr : StrPtr} {str : UcbStr} {sep : Option UcbStr}
    (points : Points (front ++ entry :: back) ptr (some str))
    (sepPoints : Points (front ++ entry :: back) sepPtr sep) :
    ∃ changed, ucbEnvmapAppend allocator map name ptr sepPtr = .ok (changed, true) ∧
      Mapped changed (Function.update (valuesOf ((front ++ entry :: back).map entryTexts)) name.text
        (some (entry.value.text ++
          separation entry.value.text ((sep.map UcbStr.text).getD []) ++
          if ptr = .valueOf front.length then
            entry.value.text ++ separation entry.value.text ((sep.map UcbStr.text).getD [])
          else str.text))) := by
  obtain ⟨changed, appended, exact, text⟩ :=
    append_entry generous distinct.filled place points sepPoints
  refine ⟨_, appended, ?_⟩
  rw [← same, ← text]
  exact distinct.replace exact (same ▸ before)

theorem prepend_mapped (generous : allocator.Generous)
    (distinct : Distinct map (front ++ entry :: back)) (same : entry.name.text = name.text)
    (place : envmapFind (front ++ entry :: back) name = .ok (some front.length))
    (before : name.text ∉ namesOf front) {ptr sepPtr : StrPtr} {str : UcbStr} {sep : Option UcbStr}
    (points : Points (front ++ entry :: back) ptr (some str))
    (sepPoints : Points (front ++ entry :: back) sepPtr sep) :
    ∃ changed, ucbEnvmapPrepend allocator map name ptr sepPtr = .ok (changed, true) ∧
      Mapped changed (Function.update (valuesOf ((front ++ entry :: back).map entryTexts)) name.text
        (some (str.text ++ separation entry.value.text ((sep.map UcbStr.text).getD []) ++
          entry.value.text))) := by
  obtain ⟨changed, prepended, exact, text⟩ :=
    prepend_entry generous distinct.filled place points sepPoints
  refine ⟨_, prepended, ?_⟩
  rw [← same, ← text]
  exact distinct.replace exact (same ▸ before)

/-- Appending or prepending to a name without a value. -/
theorem append_new (generous : allocator.Generous) (distinct : Distinct map entries)
    (valid : RepInv name) {ptr : StrPtr} (sepPtr : StrPtr) {str : UcbStr}
    (points : Points entries ptr (some str)) (absent : envmapFind entries name = .ok none) :
    ∃ changed, ucbEnvmapAppend allocator map name ptr sepPtr = .ok (changed, true) ∧
      ucbEnvmapPrepend allocator map name ptr sepPtr = .ok (changed, true) ∧
      Mapped changed
        (Function.update (valuesOf (entries.map entryTexts)) name.text (some str.text)) := by
  obtain ⟨changed, set, mapped⟩ := set_mapped generous distinct valid points
  refine ⟨changed, ?_, ?_, mapped⟩
  · rw [ucbEnvmapAppend, distinct.vector]
    simp only [points.get, absent, Exec.ok_bind, set]
  · rw [ucbEnvmapPrepend, distinct.vector]
    simp only [points.get, absent, Exec.ok_bind, set]

/-- Nothing is appended or prepended that is not given. -/
theorem append_null (distinct : Distinct map entries) {ptr : StrPtr}
    (points : Points entries ptr none)
    (sepPtr : StrPtr) :
    ucbEnvmapAppend allocator map name ptr sepPtr = .ok (map, false) ∧
      ucbEnvmapPrepend allocator map name ptr sepPtr = .ok (map, false) := by
  constructor
  · rw [ucbEnvmapAppend, distinct.vector]
    simp only [points.get, Exec.ok_bind]
    rfl
  · rw [ucbEnvmapPrepend, distinct.vector]
    simp only [points.get, Exec.ok_bind]
    rfl

end Operations

/-! ## Sequences of operations -/

section Sequences

variable {maps : Nat → UcbEnvmap} {all : Nat → Values}

theorem MapAll.update (mapped : MapAll maps all) (number : Nat) {changed : UcbEnvmap}
    {values : Values} (new : Mapped changed values) :
    MapAll (Function.update maps number changed) (Function.update all number values) := by
  intro other
  by_cases same : other = number
  · subst same
    rw [Function.update_self, Function.update_self]
    exact new
  · rw [Function.update_of_ne same, Function.update_of_ne same]
    exact mapped other

/-- Perform an operation that returns. -/
def envmapRun (allocator : Allocator) (maps : Nat → UcbEnvmap) (op : EnvmapOp) :
    Option ((Nat → UcbEnvmap) × EnvmapResult) :=
  (envmapStep allocator maps op).returned

/-- A value that is appended to itself has nothing put between. -/
def OwnUnparted (values : Values) (name : List UInt8) (sep : List UInt8) : EnvArg → Prop
  | .text _ => True
  | .got other => other.val.text = name → ∀ old ∈ values name, separation old sep = []

/-- What an operation reads is apart from what it changes: the value that is appended from
the one it is appended to, the map that is copied from the one that is replaced, and the
names that are imported from each other and from those in the map. -/
def ReadsApart (maps : Nat → UcbEnvmap) : EnvmapOp → Prop
  | .append map name value sep =>
      OwnUnparted (maps map).values name.val.text (sepText (maps map).values sep) value
  | .copy dst src => dst = src → (maps src).list = []
  | .initFromCurrent map environ =>
      (namesOf (maps map).list ++ (assignments (environ.getD [])).map Prod.fst).Nodup
  | .set _ _ _ | .unset _ _ | .prepend _ _ _ _ | .clone _ _ | .has _ _ | .get _ _ => True

theorem performs_change (mapped : MapAll maps all) {op : EnvmapOp} {number : Nat}
    {outcome : Exec (UcbEnvmap × Bool)} {changed : UcbEnvmap} {done : Bool} {values : Values}
    (step : envmapStep allocator maps op = replaceMap maps number outcome)
    (ran : outcome = .ok (changed, done)) (new : Mapped changed values) :
    Performs (envmapRun allocator) MapAll maps op
      (Function.update all number values, .flag done) := by
  refine ⟨Function.update maps number changed, ?_, mapped.update number new⟩
  rw [envmapRun, step, ran]
  rfl

/-- The values after it are the specified ones, or it is wrong. -/
theorem performs_change_iff (mapped : MapAll maps all) {op : EnvmapOp} {number : Nat}
    {outcome : Exec (UcbEnvmap × Bool)} {changed : UcbEnvmap} {done : Bool}
    {values specified : Values}
    (step : envmapStep allocator maps op = replaceMap maps number outcome)
    (ran : outcome = .ok (changed, done)) (new : Mapped changed values) :
    Performs (envmapRun allocator) MapAll maps op
        (Function.update all number specified, .flag done) ↔ specified = values := by
  constructor
  · rintro ⟨state, performed, mapped'⟩
    rw [envmapRun, step, ran] at performed
    obtain ⟨rfl, -⟩ := Prod.mk.inj (Option.some.inj performed)
    have here := mapped' number
    dsimp only at here
    rw [Function.update_self, Function.update_self] at here
    rw [here.values_eq, new.values_eq]
  · rintro rfl
    exact performs_change mapped step ran new

/-- An operation that is given no value changes nothing. -/
theorem performs_null (mapped : MapAll maps all) {op : EnvmapOp} {number : Nat}
    {outcome : Exec (UcbEnvmap × Bool)}
    (step : envmapStep allocator maps op = replaceMap maps number outcome)
    (ran : outcome = .ok (maps number, false)) (name : List UInt8) :
    Performs (envmapRun allocator) MapAll maps op (assignGiven all number name none) := by
  refine ⟨maps, ?_, mapped⟩
  rw [envmapRun, step, ran, replaceMap, Exec.ok_bind]
  dsimp only
  rw [Function.update_eq_self]
  rfl

theorem set_performs (generous : allocator.Generous) (mapped : MapAll maps all) (number : Nat)
    (name : ValidStr) (value : EnvArg) :
    Performs (envmapRun allocator) MapAll maps (.set number name value)
      (assignGiven all number name.val.text (argText (all number) value)) := by
  obtain ⟨entries, distinct, same⟩ := mapped number
  obtain ⟨ptr, str, pointed, points, texts⟩ := pointer_points distinct.filled value
  rw [same, ← texts]
  cases str with
  | none =>
      refine performs_null mapped rfl ?_ _
      rw [pointed, Exec.ok_bind, set_null distinct points]
  | some str =>
      obtain ⟨changed, set, new⟩ := set_mapped generous distinct name.property points
      rw [Option.map_some, assignGiven, same]
      refine performs_change mapped rfl ?_ new
      rw [pointed, Exec.ok_bind, set]

theorem sepPointer_points {entries : List UcbEnvmapEntry} (filled : Filled map entries)
    (sep : Option EnvArg) :
    ∃ ptr str, sepPointer map sep = .ok ptr ∧ Points entries ptr str ∧
      (str.map UcbStr.text).getD [] = sepText (valuesOf (entries.map entryTexts)) sep := by
  cases sep with
  | none => exact ⟨.null, none, rfl, ⟨rfl, by simp⟩, rfl⟩
  | some sep =>
      obtain ⟨ptr, str, pointed, points, texts⟩ := pointer_points filled sep
      exact ⟨ptr, str, pointed, points, by rw [texts]; rfl⟩

/-- An argument points to the value of a name when it was looked up by that name. -/
theorem pointer_own {front back : List UcbEnvmapEntry} {entry : UcbEnvmapEntry}
    (filled : Filled map (front ++ entry :: back)) (valid : RepInv name)
    (same : entry.name.text = name.text)
    (place : envmapFind (front ++ entry :: back) name = .ok (some front.length)) {arg : EnvArg}
    {ptr : StrPtr} (pointed : arg.pointer map = .ok ptr) :
    ptr = .valueOf front.length ↔ ∃ other, arg = .got other ∧ other.val.text = name.text := by
  rw [find_eq filled.exact valid] at place
  have place := Exec.ok.inj place
  cases arg with
  | text str =>
      obtain rfl := Exec.ok.inj pointed
      exact iff_of_false (by simp) (by simp)
  | got other =>
      obtain ⟨ptr', -, got, -, -, index⟩ := get_points filled other.property
      obtain rfl := Exec.ok.inj (got.symm.trans pointed)
      have found := find_eq filled.exact other.property
      constructor
      · intro own
        rcases find_cases filled.exact other.property with
          ⟨none, -⟩ | ⟨front', entry', back', split, is, place', -⟩
        · rw [index, Exec.ok.inj (found.symm.trans none)] at own
          cases own
        · rw [index, Exec.ok.inj (found.symm.trans place')] at own
          have length : front.length = front'.length := (StrPtr.valueOf.inj own).symm
          obtain ⟨-, tail⟩ := List.append_inj split length
          obtain ⟨rfl, -⟩ := List.cons.inj tail
          exact ⟨other, rfl, is.symm.trans same⟩
      · rintro ⟨other', given, text⟩
        obtain rfl := EnvArg.got.inj given
        rw [index, text, place]

theorem valuesOf_entry {front back : List UcbEnvmapEntry} {entry : UcbEnvmapEntry}
    (absent : entry.name.text ∉ namesOf front) :
    valuesOf ((front ++ entry :: back).map entryTexts) entry.name.text = some entry.value.text := by
  rw [texts_middle, valuesOf_middle absent, Function.update_self]

/-- Appending is right exactly when the value is not appended to itself behind a separator. -/
theorem append_performs_iff (generous : allocator.Generous) (mapped : MapAll maps all)
    (number : Nat)
    (name : ValidStr) (value : EnvArg) (sep : Option EnvArg)
    {after : (Nat → Values) × EnvmapResult}
    (effect : valuesStep all (.append number name value sep) = some after) :
    Performs (envmapRun allocator) MapAll maps (.append number name value sep) after ↔
      OwnUnparted (all number) name.val.text (sepText (all number) sep) value := by
  obtain rfl := Option.some.inj effect
  obtain ⟨entries, distinct, same⟩ := mapped number
  obtain ⟨ptr, str, pointed, points, texts⟩ := pointer_points distinct.filled value
  obtain ⟨sepPtr, sepStr, sepPointed, sepPoints, sepTexts⟩ := sepPointer_points distinct.filled sep
  cases str with
  | none =>
      rw [same, ← texts]
      refine iff_of_true (performs_null mapped rfl ?_ _) ?_
      · rw [pointed, Exec.ok_bind, sepPointed, Exec.ok_bind, (append_null distinct points sepPtr).1]
      · cases value with
        | text str => trivial
        | got other =>
            intro text old valued
            rw [← text] at valued
            have nothing : valuesOf (entries.map entryTexts) other.val.text = none := texts.symm
            rw [nothing] at valued
            cases valued
  | some str =>
      rcases find_cases distinct.exact name.property with
        ⟨nowhere, absent⟩ | ⟨front, entry, back, rfl, is, place, before⟩
      · obtain ⟨changed, appended, -, new⟩ :=
          append_new generous distinct name.property sepPtr points nowhere
        have nothing : valuesOf (entries.map entryTexts) name.val.text = none :=
          valuesOf_eq_none absent
        rw [same, ← texts, nothing, Option.map_some, Option.map_some, assignGiven, same]
        refine iff_of_true (performs_change mapped rfl ?_ new) ?_
        · rw [pointed, Exec.ok_bind, sepPointed, Exec.ok_bind, appended]
        · cases value with
          | text str => trivial
          | got other =>
              intro text old valued
              rw [nothing] at valued
              cases valued
      · obtain ⟨changed, appended, new⟩ :=
          append_mapped generous distinct is place before points sepPoints
        have absent : entry.name.text ∉ namesOf front := is ▸ before
        have old : valuesOf ((front ++ entry :: back).map entryTexts) name.val.text =
            some entry.value.text := is ▸ valuesOf_entry absent
        have ran : (do
            let ptr ← value.pointer (maps number)
            let sepPtr ← sepPointer (maps number) sep
            ucbEnvmapAppend allocator (maps number) name.val ptr sepPtr) = .ok (changed, true) := by
          rw [pointed, Exec.ok_bind, sepPointed, Exec.ok_bind, appended]
        have own := pointer_own distinct.filled name.property is place pointed
        rw [same, ← texts, ← sepTexts, old, Option.map_some, Option.map_some, assignGiven, same]
        refine (performs_change_iff mapped rfl ran new).trans ?_
        rw [(Function.update_injective _ _).eq_iff, Option.some_inj, List.append_cancel_left_eq]
        by_cases itself : ptr = .valueOf front.length
        · obtain ⟨other, rfl, text⟩ := own.mp itself
          have valued : some str.text = some entry.value.text := by
            rw [← old, ← text]
            exact texts
          rw [if_pos itself, Option.some.inj valued, List.self_eq_append_right, OwnUnparted, old]
          simp [text]
        · rw [if_neg itself]
          refine iff_of_true rfl ?_
          cases value with
          | text str => trivial
          | got other => exact fun text => absurd (own.mpr ⟨other, rfl, text⟩) itself

theorem prepend_performs (generous : allocator.Generous) (mapped : MapAll maps all) (number : Nat)
    (name : ValidStr) (value : EnvArg) (sep : Option EnvArg)
    {after : (Nat → Values) × EnvmapResult}
    (effect : valuesStep all (.prepend number name value sep) = some after) :
    Performs (envmapRun allocator) MapAll maps (.prepend number name value sep) after := by
  obtain rfl := Option.some.inj effect
  obtain ⟨entries, distinct, same⟩ := mapped number
  obtain ⟨ptr, str, pointed, points, texts⟩ := pointer_points distinct.filled value
  obtain ⟨sepPtr, sepStr, sepPointed, sepPoints, sepTexts⟩ := sepPointer_points distinct.filled sep
  cases str with
  | none =>
      rw [same, ← texts]
      refine performs_null mapped rfl ?_ _
      rw [pointed, Exec.ok_bind, sepPointed, Exec.ok_bind, (append_null distinct points sepPtr).2]
  | some str =>
      rcases find_cases distinct.exact name.property with
        ⟨nowhere, absent⟩ | ⟨front, entry, back, rfl, is, place, before⟩
      · obtain ⟨changed, -, prepended, new⟩ :=
          append_new generous distinct name.property sepPtr points nowhere
        have nothing : valuesOf (entries.map entryTexts) name.val.text = none :=
          valuesOf_eq_none absent
        rw [same, ← texts, nothing, Option.map_some, Option.map_some, assignGiven, same]
        refine performs_change mapped rfl ?_ new
        rw [pointed, Exec.ok_bind, sepPointed, Exec.ok_bind, prepended]
      · obtain ⟨changed, prepended, new⟩ :=
          prepend_mapped generous distinct is place before points sepPoints
        have absent : entry.name.text ∉ namesOf front := is ▸ before
        have old : valuesOf ((front ++ entry :: back).map entryTexts) name.val.text =
            some entry.value.text := is ▸ valuesOf_entry absent
        rw [same, ← texts, ← sepTexts, old, Option.map_some, Option.map_some, assignGiven, same]
        refine performs_change mapped rfl ?_ new
        rw [pointed, Exec.ok_bind, sepPointed, Exec.ok_bind, prepended]

theorem cloned_mapped (generous : allocator.Generous) {source : UcbEnvmap}
    {entries : List UcbEnvmapEntry} (distinct : Distinct source entries) :
    ∃ cloned, cloneAll allocator [] entries = .ok cloned ∧
      Mapped ⟨some cloned⟩ (valuesOf (entries.map entryTexts)) := by
  obtain ⟨added, cloned, texts, exact⟩ := cloneAll_exact generous entries [] distinct.exact
  refine ⟨added, cloned, added, ⟨rfl, exact, ?_⟩, by rw [texts]⟩
  rw [namesOf, texts]
  exact distinct.names

theorem clone_performs (generous : allocator.Generous) (mapped : MapAll maps all) (dst src : Nat) :
    Performs (envmapRun allocator) MapAll maps (.clone dst src)
      (Function.update all dst (all src), .nothing) := by
  obtain ⟨entries, distinct, same⟩ := mapped src
  obtain ⟨cloned, ran, new⟩ := cloned_mapped generous distinct
  refine ⟨Function.update maps dst ⟨some cloned⟩, ?_, mapped.update dst (same ▸ new)⟩
  have empty : newEntries allocator = some [] := if_pos (generous _ _)
  rw [envmapRun, envmapStep, ucbEnvmapClone, distinct.vector, empty]
  simp only [ran, Exec.ok_bind]
  rfl

/-- A map without entries gives no name a value. -/
theorem mapped_empty : Mapped ⟨some []⟩ (fun _ => none) :=
  mapped_new

/-- Copying is right exactly when it is not from a map with entries onto itself. -/
theorem copy_performs_iff (generous : allocator.Generous) (mapped : MapAll maps all)
    (dst src : Nat) :
    Performs (envmapRun allocator) MapAll maps (.copy dst src)
        (Function.update all dst (all src), .nothing) ↔
      (dst = src → (maps src).list = []) := by
  obtain ⟨entries, distinct, same⟩ := mapped src
  obtain ⟨old, distinct', -⟩ := mapped dst
  have empty : newEntries allocator = some [] := if_pos (generous _ _)
  have freed : freeEntries (maps dst).list = .ok () := by
    rw [distinct'.list_eq]
    exact freeEntries_ok distinct'.exact
  have list := distinct.list_eq
  have step : envmapRun allocator maps (.copy dst src) =
      ((cloneAll allocator [] (Function.update maps dst ⟨some []⟩ src).list).returned.map
        fun cloned => (Function.update maps dst ⟨some cloned⟩, .nothing)) := by
    rw [envmapRun, envmapStep, ucbEnvmapCopy, distinct.vector]
    simp only [freed, empty, Exec.ok_bind]
    cases cloneAll allocator [] (Function.update maps dst ⟨some []⟩ src).list with
    | ok cloned => simp [Exec.returned]
    | abort code => rfl
    | undefined => rfl
  by_cases apart : dst = src
  · subst apart
    have emptied : envmapRun allocator maps (.copy dst dst) =
        some (Function.update maps dst ⟨some []⟩, .nothing) := by
      rw [step, Function.update_self]
      rfl
    rw [list]
    refine Iff.trans ?_ (forall_prop_of_true rfl).symm
    constructor
    · rintro ⟨state, ran, mapped'⟩
      rw [emptied] at ran
      obtain ⟨rfl, -⟩ := Prod.mk.inj (Option.some.inj ran)
      have here := mapped' dst
      dsimp only at here
      rw [Function.update_self, Function.update_self] at here
      have nothing : all dst = fun _ => none := here.values_eq.trans mapped_empty.values_eq.symm
      cases entries with
      | nil => rfl
      | cons entry entries =>
          have absent : entry.name.text ∉ namesOf [] := List.not_mem_nil
          have valued : valuesOf ((entry :: entries).map entryTexts) entry.name.text =
              some entry.value.text := valuesOf_entry absent
          rw [← same, nothing] at valued
          cases valued
    · rintro rfl
      refine ⟨_, emptied, mapped.update dst ?_⟩
      rw [same]
      exact mapped_empty
  · refine iff_of_true ?_ (fun itself => absurd itself apart)
    obtain ⟨cloned, ran, new⟩ := cloned_mapped generous distinct
    refine ⟨Function.update maps dst ⟨some cloned⟩, ?_, mapped.update dst (same ▸ new)⟩
    rw [step, Function.update_of_ne (Ne.symm apart), list, ran]
    rfl

/-- Importing is right exactly when it assigns no name twice and none that has an entry. -/
theorem init_performs_iff (generous : allocator.Generous) (mapped : MapAll maps all) (number : Nat)
    (environ : Option (List EnvText)) :
    Performs (envmapRun allocator) MapAll maps (.initFromCurrent number environ)
        (Function.update all number
          (assignAll (all number) (assignments (environ.getD []))), .nothing) ↔
      (namesOf (maps number).list ++ (assignments (environ.getD [])).map Prod.fst).Nodup := by
  obtain ⟨entries, distinct, same⟩ := mapped number
  rw [distinct.list_eq]
  cases environ with
  | none =>
      refine iff_of_true ⟨maps, ?_, ?_⟩ ?_
      · have unchanged :
            ucbEnvmapInitFromCurrent allocator (maps number) none = .ok (maps number) := by
          rw [ucbEnvmapInitFromCurrent, distinct.vector]
          rfl
        rw [envmapRun, envmapStep, Option.map_none, unchanged, Exec.ok_bind,
          Function.update_eq_self]
        rfl
      · have unassigned :
            assignAll (all number) (assignments ([] : List EnvText)) = all number := rfl
        dsimp only [Option.getD_none]
        rw [unassigned, Function.update_eq_self]
        exact mapped
      · simpa [assignments] using distinct.names
  | some environ =>
      obtain ⟨added, imported, texts, exact⟩ := importAll_exact generous environ entries
      have step : envmapRun allocator maps (.initFromCurrent number (some environ)) =
          some (Function.update maps number ⟨some (entries ++ added)⟩, .nothing) := by
        rw [envmapRun, envmapStep, Option.map_some, ucbEnvmapInitFromCurrent, distinct.vector]
        simp only [imported, Exec.ok_bind]
        rfl
      have names : namesOf (entries ++ added) =
          namesOf entries ++ (assignments environ).map Prod.fst := by
        rw [namesOf_append, ← texts]
        rfl
      rw [Option.getD_some, ← names]
      constructor
      · rintro ⟨state, ran, mapped'⟩
        rw [step] at ran
        obtain ⟨rfl, -⟩ := Prod.mk.inj (Option.some.inj ran)
        have here := mapped' number
        rw [Function.update_self] at here
        obtain ⟨entries', distinct', -⟩ := here
        obtain rfl := Option.some.inj distinct'.vector
        exact distinct'.names
      · intro nodup
        refine ⟨_, step, mapped.update number ⟨entries ++ added, ⟨rfl, ?_, nodup⟩, ?_⟩⟩
        · intro entry member
          rcases List.mem_append.mp member with early | late
          · exact distinct.exact entry early
          · exact exact entry late
        · rw [namesOf, List.map_append, texts] at nodup
          rw [same, assignAll_eq nodup, List.map_append, texts]

/-- Exactly the operations that read apart from what they change are right. -/
theorem envmap_performs_iff (generous : allocator.Generous) (mapped : MapAll maps all)
    (op : EnvmapOp) {after : (Nat → Values) × EnvmapResult}
    (effect : valuesStep all op = some after) :
    Performs (envmapRun allocator) MapAll maps op after ↔ ReadsApart maps op := by
  cases op with
  | append number name value sep =>
      rw [append_performs_iff generous mapped number name value sep effect, ReadsApart,
        ← (mapped number).values_eq]
  | copy dst src =>
      obtain rfl := Option.some.inj effect
      exact copy_performs_iff generous mapped dst src
  | initFromCurrent number environ =>
      obtain rfl := Option.some.inj effect
      exact init_performs_iff generous mapped number environ
  | set number name value =>
      obtain rfl := Option.some.inj effect
      exact iff_of_true (set_performs generous mapped number name value) trivial
  | prepend number name value sep =>
      exact iff_of_true (prepend_performs generous mapped number name value sep effect) trivial
  | clone dst src =>
      obtain rfl := Option.some.inj effect
      exact iff_of_true (clone_performs generous mapped dst src) trivial
  | unset number name =>
      obtain rfl := Option.some.inj effect
      obtain ⟨entries, distinct, same⟩ := mapped number
      obtain ⟨changed, ran, new⟩ := unset_mapped distinct name.property
      rw [same]
      exact iff_of_true (performs_change mapped rfl ran new) trivial
  | has number name =>
      obtain rfl := Option.some.inj effect
      obtain ⟨entries, distinct, same⟩ := mapped number
      refine iff_of_true ⟨maps, ?_, mapped⟩ trivial
      rw [envmapRun, envmapStep, has_mapped distinct name.property, same]
      rfl
  | get number name =>
      obtain rfl := Option.some.inj effect
      obtain ⟨entries, distinct, same⟩ := mapped number
      obtain ⟨ptr, str, got, points, texts, -⟩ := get_points distinct.filled name.property
      refine iff_of_true ⟨maps, ?_, mapped⟩ trivial
      rw [envmapRun, envmapStep, got, Exec.ok_bind, distinct.list_eq, points.get, Exec.ok_bind,
        same, ← texts]
      rfl

/-- In every sequence of operations on new maps the names are distinct and have the values
last assigned to them, exactly when each operation reads apart from what it changes. -/
theorem envmap_refines_iff (generous : allocator.Generous) (ops : List EnvmapOp) :
    RefinesOn (envmapRun allocator) valuesStep MapAll (fun _ => ucbEnvmapNew)
      (fun _ _ => none) ops ↔
      Throughout (envmapRun allocator) ReadsApart (fun _ => ucbEnvmapNew) ops := by
  refine refinesOn_iff (fun _ _ op _ mapped effect => envmap_performs_iff generous mapped op effect)
    (fun _ => mapped_new) (performAll_isSome ?_ ops _)
  intro all op
  cases op <;> rfl

end Sequences

def letterA : ValidStr :=
  ⟨ownedStr [65] [0] 2,
    repInv_owned ⟨(validate_ok_iff _).mp rfl, by decide⟩ [] (by decide) (by decide)⟩

def environA : List EnvText :=
  [⟨[65, 61, 49], (validate_ok_iff _).mp rfl, by decide⟩]

/-- The environment is imported, and its variable is changed and taken out. -/
theorem envmap_refines_iff_once :
    RefinesOn (envmapRun ⟨fun _ _ => true, fun _ => 0⟩) valuesStep MapAll (fun _ => ucbEnvmapNew)
        (fun _ _ => none)
        [.initFromCurrent 0 (some environA), .append 0 letterA (.text letterA) none,
          .unset 0 letterA] ↔
      Throughout (envmapRun ⟨fun _ _ => true, fun _ => 0⟩) ReadsApart (fun _ => ucbEnvmapNew)
        [.initFromCurrent 0 (some environA), .append 0 letterA (.text letterA) none,
          .unset 0 letterA] :=
  envmap_refines_iff (fun _ _ => rfl) _

/-- A variable that is set before the environment is imported: the import is not seen, and
behind the entry that is taken out there is another. -/
theorem has_after_unset :
    (performAll (envmapRun ⟨fun _ _ => true, fun _ => 0⟩) (fun _ => ucbEnvmapNew)
        [.set 0 letterA (.text letterA), .initFromCurrent 0 (some environA), .get 0 letterA,
          .unset 0 letterA, .has 0 letterA]).map Prod.snd =
      some [.flag true, .nothing, .text (some [65]), .flag true, .flag true] ∧
    (performAll valuesStep (fun _ _ => none)
        [.set 0 letterA (.text letterA), .initFromCurrent 0 (some environA), .get 0 letterA,
          .unset 0 letterA, .has 0 letterA]).map Prod.snd =
      some [.flag true, .nothing, .text (some [49]), .flag true, .flag false] ∧
    ¬ RefinesOn (envmapRun ⟨fun _ _ => true, fun _ => 0⟩) valuesStep MapAll (fun _ => ucbEnvmapNew)
        (fun _ _ => none)
        [.set 0 letterA (.text letterA), .initFromCurrent 0 (some environA), .get 0 letterA,
          .unset 0 letterA, .has 0 letterA] := by
  have ran : (performAll (envmapRun ⟨fun _ _ => true, fun _ => 0⟩) (fun _ => ucbEnvmapNew)
        [.set 0 letterA (.text letterA), .initFromCurrent 0 (some environA), .get 0 letterA,
          .unset 0 letterA, .has 0 letterA]).map Prod.snd =
      some [.flag true, .nothing, .text (some [65]), .flag true, .flag true] := rfl
  refine ⟨ran, rfl, ?_⟩
  intro refines
  obtain ⟨state, performed, -⟩ := refines _ [] (List.append_nil _).symm _ rfl
  rw [performed] at ran
  cases ran

end Ucb.Env
