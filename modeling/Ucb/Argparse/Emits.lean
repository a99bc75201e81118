import Ucb.Argparse.HelpText
import Ucb.Str.Exact

/-!
Contract: what the functions that build a text append to it.

Owns:
- `Emits`, that a function appends one text whatever is there, or always aborts;
- what `append_field` and the functions under it append.
-/

namespace Ucb.Argparse

open Ucb.Str

/-- Whatever is there, the function appends the text; without one, it aborts. -/
structure Emits (append : List UInt8 → Exec (List UInt8)) (text : Option (List UInt8)) : Prop where
  appends : ∀ out, append out = text.elim (.abort .invalidArg) fun more => .ok (out ++ more)
  isText : ∀ more ∈ text, IsText more

/-- One text behind another, if there are both. -/
def glue (first second : Option (List UInt8)) : Option (List UInt8) :=
  first.bind fun front => second.map (front ++ ·)

section Glue

variable {first second third : Option (List UInt8)} {text more : List UInt8}

@[simp] theorem glue_some : glue (some text) (some more) = some (text ++ more) := rfl

@[simp] theorem glue_none : glue none second = none := rfl

@[simp] theorem glue_none_right : glue first none = none := by
  cases first <;> rfl

@[simp] theorem glue_nil : glue (some []) second = second := by
  cases second <;> rfl

theorem glue_cons (c : UInt8) :
    glue (some (c :: text)) second = glue (some [c]) (glue (some text) second) := by
  cases second <;> rfl

@[simp] theorem glue_isSome : (glue first second).isSome = (first.isSome && second.isSome) := by
  cases first <;> cases second <;> rfl

theorem glue_isText (firstText : ∀ text ∈ first, IsText text)
    (secondText : ∀ text ∈ second, IsText text) : ∀ text ∈ glue first second, IsText text := by
  intro whole glued
  cases first with
  | none => cases glued
  | some front =>
      cases second with
      | none => cases glued
      | some back =>
          obtain rfl := Option.some.inj glued
          exact (firstText front rfl).append (secondText back rfl)

end Glue

theorem drop_length_takeWhile {α : Type} (p : α → Bool) (l : List α) :
    l.drop (l.takeWhile p).length = l.dropWhile p := by
  have split := congrArg (List.drop (l.takeWhile p).length)
    (List.takeWhile_append_dropWhile (p := p) (l := l))
  rw [List.drop_left] at split
  exact split.symm

section Appending

variable {append next : List UInt8 → Exec (List UInt8)} {first second : Option (List UInt8)}
  {mem text : List UInt8} {len : Nat}

theorem emits_nothing : Emits pure (some []) where
  appends out := by simp [Exec.pure_eq_ok]
  isText more empty := by
    obtain rfl := Option.some.inj empty
    exact isText_nil

theorem Emits.congr (emits : Emits append first) (same : ∀ out, next out = append out) :
    Emits next first where
  appends out := (same out).trans (emits.appends out)
  isText := emits.isText

theorem Emits.bind (before : Emits append first) (behind : Emits next second) :
    Emits (fun out => append out >>= next) (glue first second) where
  appends out := by
    simp only [before.appends out]
    cases first with
    | none => rfl
    | some front =>
        simp only [Option.elim_some, Exec.ok_bind, behind.appends (out ++ front)]
        cases second <;> simp [glue]
  isText := glue_isText before.isText behind.isText

theorem emits_ite {condition : Prop} [Decidable condition]
    (holds : condition → Emits append first) (fails : ¬condition → Emits next second) :
    Emits (fun out => if condition then append out else next out)
      (if condition then first else second) := by
  by_cases decided : condition
  · simpa only [if_pos decided] using holds decided
  · simpa only [if_neg decided] using fails decided

/-- What is there is a text, as far as it is verified. -/
theorem appendCstr_emits (isText : IsText text) (denotes : DenotesAt mem len text) :
    Emits (appendCstr · mem len) (some text) where
  appends out := by
    have measured := denotes.cstrLen isText.noNul
    have verified := verifyCstr_denotes isText denotes
    obtain ⟨rest, rfl⟩ := denotes.prefix
    by_cases empty : text = []
    · subst empty
      simp only [appendCstr, measured, Exec.ok_bind, List.length_nil, ↓reduceIte]
      simp [Exec.pure_eq_ok]
    · simp [appendCstr, measured, verified, slice_text, empty, Exec.pure_eq_ok]
  isText more same := by
    obtain rfl := Option.some.inj same
    exact isText

theorem appendC_emits (isText : IsText text) : Emits (appendC · text) (some text) :=
  appendCstr_emits isText (denotes_length text [])

theorem appendFront_emits (isText : IsText text) (nonempty : text ≠ []) (rest : List UInt8) :
    Emits (appendCstr · (text ++ rest) text.length) (some text) :=
  appendCstr_emits isText (.counted text rest nonempty)

/-- A byte that stands alone is appended exactly if it is ASCII. -/
theorem appendByte_emits {c : UInt8} (nonzero : c ≠ 0) :
    Emits (appendCstr · [c] 1) (if c.toNat < 0x80 then some [c] else none) := by
  by_cases ascii : c.toNat < 0x80
  · rw [if_pos ascii]
    exact appendCstr_emits (isText_one nonzero ascii) (.counted [c] [] (List.cons_ne_nil c []))
  · rw [if_neg ascii]
    refine ⟨fun out => ?_, fun more absent => by cases absent⟩
    simp [appendCstr, cstrLen, verifyCstr_one nonzero ascii]

theorem appendEach_emits {texts : List (List UInt8)} (areTexts : ∀ text ∈ texts, IsText text) :
    Emits (appendEach · texts) (some texts.flatten) := by
  induction texts with
  | nil => exact emits_nothing
  | cons text texts inductionHypothesis =>
      have first := appendC_emits (areTexts text List.mem_cons_self)
      have later := inductionHypothesis fun other member =>
        areTexts other (List.mem_cons_of_mem _ member)
      exact first.bind later

end Appending

/-! ## Fields of an option -/

structure OptTexts (o : UcbArgOptImpl) : Prop where
  name : IsText o.name
  longName : IsText o.longName
  default : ∀ text ∈ o.default, IsText text
  metavar : IsText o.metavar
  help : IsText o.help
  choices : ∀ choice ∈ o.choices, IsText choice

def isAscii (text : List UInt8) : Bool :=
  text.all (·.toNat < 0x80)

theorem isText_behind (front : List UInt8) {back : List UInt8} (isText : IsText (front ++ back))
    (ascii : isAscii front = true) : IsText back := by
  induction front with
  | nil => exact isText
  | cons c front inductionHypothesis =>
      simp only [isAscii, List.all_cons, Bool.and_eq_true, decide_eq_true_eq] at ascii
      have split : IsText ([] ++ c :: (front ++ back)) := isText
      exact inductionHypothesis (split.parts ascii.1).2 ascii.2

/-- What `append_metavar` appends. -/
def metavarText (o : UcbArgOptImpl) : Option (List UInt8) :=
  if o.metavar ≠ [] then some o.metavar
  else if isAscii o.name then some (o.name.map capital)
  else none

/-- What `append_default` appends. -/
def defaultText (o : UcbArgOptImpl) : List UInt8 :=
  o.default.getD (missingDefault o.action)

def shortText (shortName : UInt8) : Option (List UInt8) :=
  if shortName = 0 then some []
  else if shortName.toNat < 0x80 then some [dash, shortName]
  else none

def choicesText : List (List UInt8) → List UInt8
  | [] => []
  | choice :: rest => choice ++ rest.flatMap fun choice => ascii ", " ++ choice

def unknownText (field : List UInt8) : List UInt8 :=
  ascii "%(" ++ field ++ ascii ")s"

/-- What `append_field` appends for a field of an option. -/
def optFieldText (o : UcbArgOptImpl) (field : List UInt8) : Option (List UInt8) :=
  if field = ascii "name" then some o.name
  else if field = ascii "type" then some (ascii (typeName o.type))
  else if field = ascii "metavar" then metavarText o
  else if field = ascii "choices" then some (choicesText o.choices)
  else if field = ascii "default" then some (defaultText o)
  else if field = ascii "action" then some (ascii (actionName o.action))
  else if field = ascii "short" then shortText o.shortName
  else if field = ascii "long" then
    some (if o.longName ≠ [] then ascii "--" ++ o.longName else [])
  else some (unknownText field)

section Fields

variable {o : UcbArgOptImpl} {field rest : List UInt8}

theorem isText_ascii (literal : String)
    (plain : (ascii literal).all (fun c => c ≠ 0 && c.toNat < 0x80) = true) :
    IsText (ascii literal) := by
  refine isText_of_ascii fun c member => ?_
  have small := List.all_eq_true.mp plain c member
  simpa using small

theorem isText_typeName (type : UcbArgType) : IsText (ascii (typeName type)) := by
  cases type <;> exact isText_ascii _ (by decide)

theorem isText_actionName (action : UcbArgAction) : IsText (ascii (actionName action)) := by
  cases action <;> exact isText_ascii _ (by decide)

theorem capital_ascii (c : UInt8) : (capital c).toNat < 0x80 ↔ c.toNat < 0x80 := by
  unfold capital
  split
  next letter =>
    obtain ⟨low, high⟩ := letter
    rw [UInt8.le_iff_toNat_le] at low high
    have : (0x61 : UInt8).toNat = 0x61 := rfl
    have : (0x7A : UInt8).toNat = 0x7A := rfl
    have below : (0x61 : UInt8) ≤ c := UInt8.le_iff_toNat_le.mpr low
    rw [UInt8.toNat_add, UInt8.toNat_sub_of_le _ _ below]
    have : (0x41 : UInt8).toNat = 0x41 := rfl
    omega
  next => rfl

theorem capital_nonzero {c : UInt8} (nonzero : c ≠ 0) : capital c ≠ 0 := by
  unfold capital
  split
  next letter =>
    obtain ⟨low, high⟩ := letter
    intro zero
    have toNat_zero := congrArg UInt8.toNat zero
    rw [UInt8.toNat_add, UInt8.toNat_sub_of_le _ _ low] at toNat_zero
    rw [UInt8.le_iff_toNat_le] at low high
    have : (0x61 : UInt8).toNat = 0x61 := rfl
    have : (0x7A : UInt8).toNat = 0x7A := rfl
    have : (0x41 : UInt8).toNat = 0x41 := rfl
    have : (0 : UInt8).toNat = 0 := rfl
    omega
  next => exact nonzero

theorem appendCapitals_emits {name : List UInt8} (noNul : 0 ∉ name) :
    Emits (appendCapitals · name) (if isAscii name then some (name.map capital) else none) := by
  induction name with
  | nil => exact emits_nothing
  | cons c name inductionHypothesis =>
      obtain ⟨first, later⟩ := not_or.mp (List.mem_cons.not.mp noNul)
      have emitted : Emits (appendCapitals · (c :: name)) (glue _ _) :=
        (appendByte_emits (capital_nonzero (Ne.symm first))).bind (inductionHypothesis later)
      have whole : isAscii (c :: name) = (decide (c.toNat < 0x80) && isAscii name) := rfl
      simp only [capital_ascii] at emitted
      rw [whole]
      by_cases small : c.toNat < 0x80
      · by_cases rest : isAscii name = true
        · simpa [small, rest] using emitted
        · simpa [small, rest] using emitted
      · simpa [small] using emitted

theorem appendMetavar_emits (texts : OptTexts o) : Emits (appendMetavar · o) (metavarText o) :=
  emits_ite (fun _ => appendC_emits texts.metavar)
    fun _ => appendCapitals_emits texts.name.noNul

theorem isText_defaultText (texts : OptTexts o) : IsText (defaultText o) := by
  unfold defaultText
  cases given : o.default with
  | some text => exact texts.default text given
  | none => cases o.action <;> exact isText_of_ascii (by simp [missingDefault, ascii])

theorem appendDefault_emits (texts : OptTexts o) :
    Emits (appendDefault · o) (some (defaultText o)) :=
  appendC_emits (isText_defaultText texts)

theorem appendChoices_emits (texts : OptTexts o) :
    Emits (appendChoices · o.choices) (some (choicesText o.choices)) := by
  have areTexts := texts.choices
  generalize o.choices = choices at areTexts
  cases choices with
  | nil => exact emits_nothing
  | cons choice rest =>
      have later : ∀ text ∈ rest.flatMap fun choice => [ascii ", ", choice], IsText text := by
        intro text member
        simp only [List.mem_flatMap, List.mem_cons, List.not_mem_nil, or_false] at member
        obtain ⟨other, inside, rfl | rfl⟩ := member
        · exact isText_ascii _ (by decide)
        · exact areTexts text (List.mem_cons_of_mem _ inside)
      have flat : (rest.flatMap fun choice => [ascii ", ", choice]).flatten =
          rest.flatMap fun choice => ascii ", " ++ choice := by
        simp [List.flatMap, List.flatten_flatten, List.map_map, Function.comp_def]
      have emitted := (appendC_emits (areTexts choice List.mem_cons_self)).bind
        (appendEach_emits later)
      rw [flat] at emitted
      exact emitted

theorem appendShort_emits {shortName : UInt8} (named : shortName ≠ 0) :
    Emits (appendShort · shortName) (shortText shortName) := by
  have emitted := (appendC_emits (isText_ascii "-" (by decide))).bind
    (appendByte_emits named)
  simp only [shortText, named, ↓reduceIte]
  by_cases small : shortName.toNat < 0x80
  · simp only [small, ↓reduceIte] at emitted ⊢
    exact emitted
  · simp only [small, ↓reduceIte] at emitted ⊢
    exact emitted

theorem appendUnknown_emits (isText : IsText field) :
    Emits (appendUnknown · (field ++ rest) field.length) (some (unknownText field)) := by
  have front := appendC_emits (isText_ascii "%(" (by decide))
  have back := appendC_emits (isText_ascii ")s" (by decide))
  by_cases empty : field = []
  · subst empty
    exact front.bind back
  · have nonzero : field.length ≠ 0 := by simp [empty]
    have whole := front.bind ((appendFront_emits isText empty rest).bind back)
    simpa only [appendUnknown, if_pos nonzero, unknownText, glue_some, List.append_assoc]
      using whole

end Fields

end Ucb.Argparse
