import Ucb.Argparse.Declared
import Ucb.Str.Content

/-!
Contract: what the destinations hold before the first token is looked at.

Owns:
- the type of the destination that an option needs, and memories that have one of
  that type for each option;
- what an option leaves in its destination by default, apart from where that is;
- that `init_default` leaves exactly that, over any memory.
-/

namespace Ucb.Argparse

open Ucb.Str Ucb.Unicode

/-! ## Statuses -/

def statusOf {α : Type} (outcome : Exec (UcbArgStatus × α)) : Exec UcbArgStatus :=
  Prod.fst <$> outcome

@[simp] theorem statusOf_ok {α : Type} (status : UcbArgStatus) (value : α) :
    statusOf (.ok (status, value)) = .ok status := rfl

@[simp] theorem statusOf_abort {α : Type} (code : UcbEcode) :
    statusOf (Exec.abort code : Exec (UcbArgStatus × α)) = .abort code := rfl

/-- Validation of a terminated text gives one of the three verdicts. -/
theorem validateCstr_defined (cstr : List UInt8) :
    ∃ etype, ucbStrCstrValidate (cstr ++ [0]) cstr.length = .ok etype := by
  have checked : ∃ result, ucbUcValidate (cstr ++ [0]) (some cstr.length) = .ok result := by
    rw [validate_append]
    obtain ⟨cps, remaining, -, outcome⟩ := validate_scan cstr
    rcases outcome with ⟨-, accepted⟩ | ⟨-, expected, rejected⟩
    · exact ⟨_, accepted⟩
    · exact ⟨_, rejected⟩
  obtain ⟨result, checked⟩ := checked
  have validated (verdict : Except UcbError Unit → Exec UcbStrCstrError)
      (defined : ∀ result, ∃ etype, verdict result = .ok etype) :
      ∃ etype, (ucbUcValidate (cstr ++ [0]) (some cstr.length) >>= verdict) = .ok etype := by
    rw [checked]
    exact defined result
  unfold ucbStrCstrValidate
  by_cases empty : cstr = []
  · subst empty
    have measured : strlen ([] ++ [0]) = .ok 0 := rfl
    simp only [List.length_nil, ↓reduceIte, measured, Exec.ok_bind]
    exact validated _ fun result => by cases result <;> exact ⟨_, rfl⟩
  · rw [if_neg (by simp [empty]), ucbStrContainsNul, List.take_left]
    by_cases hasNul : cstr.contains 0 = true
    · rw [if_pos hasNul]
      exact ⟨_, rfl⟩
    · rw [if_neg hasNul, if_pos (by simp)]
      exact validated _ fun result => by cases result <;> exact ⟨_, rfl⟩

/-- Copying a text gives it back or aborts. -/
theorem ucbStrNewC_cases (cstr : List UInt8) :
    ucbStrNewC cstr = .ok cstr ∨ ucbStrNewC cstr = .abort .invalidArg := by
  obtain ⟨etype, validated⟩ := validateCstr_defined cstr
  rw [ucbStrNewC, ucbStrVerifyCstr, validated]
  cases etype with
  | ok => exact .inl rfl
  | embeddedNul => exact .inr rfl
  | invalidUtf8 => exact .inr rfl

/-! ## Destinations -/

def destType (o : UcbArgOptImpl) : Option UcbArgType :=
  match o.action with
  | .store => some o.type
  | .storeTrue | .storeFalse => some .bool
  | .count => some .int
  | .append => some .none
  | .help | .version => none

/-- An option has a destination of the type it needs, if it needs one. -/
def HasDest (memory : DestMemory) (o : UcbArgOptImpl) : Prop :=
  ∀ type, destType o = some type →
    ∃ ptr, o.dest = some ptr ∧ (memory ptr).map DestCell.type = some type

def Typed (p : UcbArgParser) (memory : DestMemory) : Prop :=
  ∀ o ∈ p.opts, HasDest memory o

/-- No two options have one destination. -/
def Distinct (p : UcbArgParser) : Prop :=
  ∀ (i j : Nat) (o o' : UcbArgOptImpl), p.opts[i]? = some o → p.opts[j]? = some o' →
    (destType o).isSome → (destType o').isSome → o'.dest = o.dest → j = i

def storeCell (memory : DestMemory) (o : UcbArgOptImpl) (cell : DestCell) : DestMemory :=
  match o.dest with
  | some ptr => Function.update memory ptr (some cell)
  | none => memory

theorem writeDest_eq {memory : DestMemory} {o : UcbArgOptImpl} (has : HasDest memory o)
    {cell : DestCell} (needs : destType o = some cell.type) :
    writeDest memory o.dest cell = .ok (storeCell memory o cell) := by
  obtain ⟨ptr, dest, typed⟩ := has _ needs
  unfold writeDest storeCell
  rw [dest]
  exact if_pos typed

/-- Storing a cell of the right type keeps the types of all destinations. -/
theorem HasDest.store {memory : DestMemory} {o other : UcbArgOptImpl} (has : HasDest memory o)
    (hasOther : HasDest memory other) {cell : DestCell} (needs : destType o = some cell.type) :
    HasDest (storeCell memory o cell) other := by
  intro type needsOther
  obtain ⟨ptr, dest, typed⟩ := has _ needs
  obtain ⟨at_, destOther, typedOther⟩ := hasOther _ needsOther
  refine ⟨at_, destOther, ?_⟩
  rw [storeCell, dest]
  by_cases same : at_ = ptr
  · subst same
    dsimp only
    rw [Function.update_self, Option.map_some, ← typed, typedOther]
  · dsimp only
    rw [Function.update_of_ne same, typedOther]

theorem storeCell_self {memory : DestMemory} {o : UcbArgOptImpl} (has : HasDest memory o)
    {cell : DestCell} (needs : destType o = some cell.type) :
    o.dest.bind (storeCell memory o cell) = some cell := by
  obtain ⟨ptr, dest, -⟩ := has _ needs
  simp [storeCell, dest]

theorem storeCell_other (memory : DestMemory) {o other : UcbArgOptImpl} (cell : DestCell)
    (apart : other.dest ≠ o.dest) :
    other.dest.bind (storeCell memory o cell) = other.dest.bind memory := by
  unfold storeCell
  cases there : other.dest with
  | none => rfl
  | some at_ =>
      cases dest : o.dest with
      | none => rfl
      | some ptr =>
          have ne : at_ ≠ ptr := fun same => apart (by rw [there, dest, same])
          simp [Function.update_of_ne ne]

theorem storeCell_twice (memory : DestMemory) (o : UcbArgOptImpl) (first second : DestCell) :
    storeCell (storeCell memory o first) o second = storeCell memory o second := by
  unfold storeCell
  cases o.dest with
  | none => rfl
  | some ptr => exact Function.update_idem _ _ _

/-! ## Defaults -/

def storeDefault (libc : Libc) (o : UcbArgOptImpl) (text : List UInt8) :
    Exec (UcbArgStatus × Option DestCell) := do
  match ← convertCell libc o.type text with
  | some cell => pure (.ok, some cell)
  | none =>
      pure (.error (if o.type = .none then none else some (.invalidValue o.type o.canon text)),
        none)

def flagDefault (o : UcbArgOptImpl) (unset : Bool) : Exec (UcbArgStatus × Option DestCell) :=
  match o.default with
  | none => pure (.ok, some (.bool unset))
  | some text =>
      match parseBoolLit text with
      | none => pure (.error (some (.invalidBoolDefault o.canon text)), none)
      | some b => pure (.ok, some (.bool b))

def countDefault (o : UcbArgOptImpl) : Exec (UcbArgStatus × Option DestCell) :=
  match o.default with
  | none => pure (.ok, some (.int 0))
  | some text =>
      match (parseLl text).filter fun x => ¬ (x < intMin ∨ x > intMax) with
      | none => pure (.error (some (.invalidCountDefault o.canon text)), none)
      | some x => pure (.ok, some (.int x))

/-- What an option without any occurrence leaves: the status of its default, and the content of
its destination. -/
def defaultCell (libc : Libc) (o : UcbArgOptImpl) : Exec (UcbArgStatus × Option DestCell) :=
  match o.action with
  | .store =>
      if o.type = .str then do
        let text ← ucbStrNewC (o.default.getD [])
        pure (.ok, some (.str text))
      else
        match o.default with
        | none => pure (.ok, zeroCell o.type)
        | some text => storeDefault libc o text
  | .storeTrue => flagDefault o false
  | .storeFalse => flagDefault o true
  | .count => countDefault o
  | .append => pure (.ok, some (.strVector []))
  | .help | .version => pure (.ok, none)

/-- The content a default gives, where it gives one. -/
def startCell (libc : Libc) (o : UcbArgOptImpl) : Option DestCell :=
  (defaultCell libc o).returned.bind Prod.snd

/-- An initialized destination: the outcome has the status of the default, and the destination
alone has changed, to the content of the default. -/
structure Initialized (libc : Libc) (o : UcbArgOptImpl) (memory : DestMemory)
    (outcome : Exec (UcbArgStatus × DestMemory)) : Prop where
  status : statusOf outcome = statusOf (defaultCell libc o)
  defined : outcome ≠ .undefined
  memory : ∀ after, outcome = .ok (.ok, after) →
    (destType o = none ∧ after = memory) ∨
      ∃ cell, startCell libc o = some cell ∧ destType o = some cell.type ∧
        after = storeCell memory o cell

section Initialized

variable {libc : Libc} {o : UcbArgOptImpl} {memory : DestMemory}
  {outcome : Exec (UcbArgStatus × DestMemory)}

theorem initialized_fail (thrown : Option ArgError) {after : DestMemory} {cell : Option DestCell}
    (default : defaultCell libc o = .ok (.error thrown, cell))
    (ran : outcome = .ok (.error thrown, after)) : Initialized libc o memory outcome where
  status := by rw [default, ran]; rfl
  defined := by rw [ran]; exact fun same => by cases same
  memory := by
    intro other same
    rw [ran] at same
    cases same

theorem initialized_abort (code : UcbEcode) (default : defaultCell libc o = .abort code)
    (ran : outcome = .abort code) : Initialized libc o memory outcome where
  status := by rw [default, ran]; rfl
  defined := by rw [ran]; exact fun same => by cases same
  memory := by
    intro other same
    rw [ran] at same
    cases same

theorem initialized_cell (cell : DestCell) (default : defaultCell libc o = .ok (.ok, some cell))
    (needs : destType o = some cell.type) (ran : outcome = .ok (.ok, storeCell memory o cell)) :
    Initialized libc o memory outcome where
  status := by rw [default, ran]; rfl
  defined := by rw [ran]; exact fun same => by cases same
  memory := by
    intro other same
    rw [ran] at same
    obtain ⟨-, rfl⟩ := Prod.mk.inj (Exec.ok.inj same)
    have start : startCell libc o = some cell := by rw [startCell, default]; rfl
    exact .inr ⟨cell, start, needs, rfl⟩

end Initialized

theorem convertCell_type (libc : Libc) {type : UcbArgType} {v : List UInt8} {cell : DestCell}
    (converted : convertCell libc type v = .ok (some cell)) : cell.type = type := by
  cases type with
  | str =>
      obtain ⟨text, -, returned⟩ := Exec.bind_eq_ok.mp converted
      obtain rfl := Option.some.inj (Exec.ok.inj returned)
      rfl
  | none => cases converted
  | int =>
      obtain ⟨x, -, made⟩ := Option.bind_eq_some_iff.mp (Exec.ok.inj converted)
      split at made
      · cases made
      · obtain rfl := Option.some.inj made
        rfl
  | uint =>
      obtain ⟨x, -, made⟩ := Option.bind_eq_some_iff.mp (Exec.ok.inj converted)
      split at made
      · cases made
      · obtain rfl := Option.some.inj made
        rfl
  | bool | long | ulong | llong | ullong | size | float | double =>
      obtain ⟨x, -, rfl⟩ := Option.map_eq_some_iff.mp (Exec.ok.inj converted)
      rfl

theorem convertCell_defined (libc : Libc) (type : UcbArgType) (v : List UInt8) :
    convertCell libc type v ≠ .undefined := by
  intro undefined
  cases type with
  | str =>
      have copied := ucbStrNewC_cases v
      unfold convertCell at undefined
      rcases copied with copied | copied
      · rw [copied] at undefined
        cases undefined
      · rw [copied] at undefined
        cases undefined
  | none | int | uint | bool | long | ulong | llong | ullong | size | float | double =>
      cases undefined

theorem zeroCell_type {type : UcbArgType} {cell : DestCell} (zero : zeroCell type = some cell) :
    cell.type = type := by
  cases type with
  | str | none => cases zero
  | bool | int | uint | long | ulong | llong | ullong | size | float | double =>
      obtain rfl := Option.some.inj zero
      rfl

/-- What an option that stores a value needs. -/
theorem destType_store {o : UcbArgOptImpl} (action : o.action = .store) :
    destType o = some o.type := by
  simp [destType, action]

theorem zeroDest_eq {o : UcbArgOptImpl} {memory : DestMemory} (action : o.action = .store)
    (has : HasDest memory o) {cell : DestCell} (zero : zeroCell o.type = some cell) :
    zeroDest o memory = .ok (storeCell memory o cell) := by
  have needs : destType o = some cell.type := by rw [destType_store action, zeroCell_type zero]
  rw [zeroDest, zero]
  exact writeDest_eq has needs

theorem zeroCell_isSome {type : UcbArgType} (typed : type ≠ .none) (notStr : type ≠ .str) :
    ∃ cell, zeroCell type = some cell := by
  cases type with
  | none => exact absurd rfl typed
  | str => exact absurd rfl notStr
  | bool | int | uint | long | ulong | llong | ullong | size | float | double => exact ⟨_, rfl⟩

theorem initStore_initialized (libc : Libc) {o : UcbArgOptImpl} (action : o.action = .store)
    (typed : o.type ≠ .none) {memory : DestMemory} (has : HasDest memory o) :
    Initialized libc o memory (initDefault libc o memory) := by
  by_cases str : o.type = .str
  · have needs : destType o = some (.str (o.default.getD []) : DestCell).type := by
      rw [destType_store action, str]
      rfl
    rcases ucbStrNewC_cases (o.default.getD []) with copied | copied
    · apply initialized_cell (.str (o.default.getD []))
      · simp [defaultCell, action, str, copied]
      · exact needs
      · simp [initDefault, action, str, copied, writeDest_eq has needs]
    · apply initialized_abort .invalidArg
      · simp [defaultCell, action, str, copied]
      · simp [initDefault, action, str, copied]
  · obtain ⟨zero, isZero⟩ := zeroCell_isSome typed str
    have zeroed := zeroDest_eq action has isZero
    have needsZero : destType o = some zero.type := by
      rw [destType_store action, zeroCell_type isZero]
    have hasStill := has.store has needsZero
    cases default : o.default with
    | none =>
        apply initialized_cell zero
        · simp [defaultCell, action, str, default, isZero]
        · exact needsZero
        · simp [initDefault, action, str, default, zeroed]
    | some text =>
        cases converted : convertCell libc o.type text with
        | undefined => exact absurd converted (convertCell_defined libc o.type text)
        | abort code =>
            apply initialized_abort code
            · simp [defaultCell, action, str, default, storeDefault, converted]
            · simp [initDefault, action, str, default, zeroed, convertStore, converted]
        | ok result =>
            cases result with
            | none =>
                apply initialized_fail (some (.invalidValue o.type o.canon text))
                · simp [defaultCell, action, str, default, storeDefault, converted, typed]
                  rfl
                · simp [initDefault, action, str, default, zeroed, convertStore, converted, typed]
                  rfl
            | some cell =>
                have needs : destType o = some cell.type := by
                  rw [destType_store action, convertCell_type libc converted]
                apply initialized_cell cell
                · simp [defaultCell, action, str, default, storeDefault, converted]
                · exact needs
                · simp [initDefault, action, str, default, zeroed, convertStore, converted,
                    writeDest_eq hasStill needs, storeCell_twice]

theorem initFlag_initialized (libc : Libc) {o : UcbArgOptImpl} {unset : Bool}
    {memory : DestMemory} (has : HasDest memory o) (isBool : destType o = some .bool)
    (same : defaultCell libc o = flagDefault o unset) :
    Initialized libc o memory (initFlag o unset memory) := by
  have write (b : Bool) : writeDest memory o.dest (.bool b) = .ok (storeCell memory o (.bool b)) :=
    writeDest_eq has isBool
  cases default : o.default with
  | none =>
      apply initialized_cell (.bool unset)
      · simp [same, flagDefault, default]
      · exact isBool
      · simp [initFlag, default, write]
  | some text =>
      cases literal : parseBoolLit text with
      | none =>
          apply initialized_fail (some (.invalidBoolDefault o.canon text))
          · simp [same, flagDefault, default, literal]
            rfl
          · simp [initFlag, default, literal]
            rfl
      | some b =>
          apply initialized_cell (.bool b)
          · simp [same, flagDefault, default, literal]
          · exact isBool
          · simp [initFlag, default, literal, write]

theorem initCount_initialized (libc : Libc) {o : UcbArgOptImpl} (action : o.action = .count)
    {memory : DestMemory} (has : HasDest memory o) :
    Initialized libc o memory (initCount o memory) := by
  have isInt : destType o = some .int := by simp [destType, action]
  have same : defaultCell libc o = countDefault o := by simp [defaultCell, action]
  have write (x : Int) : writeDest memory o.dest (.int x) = .ok (storeCell memory o (.int x)) :=
    writeDest_eq has isInt
  cases default : o.default with
  | none =>
      apply initialized_cell (.int 0)
      · simp [same, countDefault, default]
      · exact isInt
      · simp [initCount, default, write]
  | some text =>
      cases number : (parseLl text).filter fun x => ¬ (x < intMin ∨ x > intMax) with
      | none =>
          apply initialized_fail (some (.invalidCountDefault o.canon text))
          · simp only [same, countDefault, default, number]
            rfl
          · simp only [initCount, default, number]
            rfl
      | some x =>
          apply initialized_cell (.int x)
          · simp only [same, countDefault, default, number]
            rfl
          · exact isInt
          · simp only [initCount, default, number, write]
            rfl

/-- `init_default` has the status of the default, and stores its content and nothing else. -/
theorem initDefault_initialized (libc : Libc) {o : UcbArgOptImpl} (fits : Fits o)
    {memory : DestMemory} (has : HasDest memory o) :
    Initialized libc o memory (initDefault libc o memory) := by
  unfold Fits at fits
  cases action : o.action with
  | store =>
      rw [action] at fits
      exact initStore_initialized libc action fits.1 has
  | storeTrue =>
      have ran : initDefault libc o memory = initFlag o false memory := by
        simp [initDefault, action]
      rw [ran]
      exact initFlag_initialized libc has (by simp [destType, action])
        (by simp [defaultCell, action])
  | storeFalse =>
      have ran : initDefault libc o memory = initFlag o true memory := by simp [initDefault, action]
      rw [ran]
      exact initFlag_initialized libc has (by simp [destType, action])
        (by simp [defaultCell, action])
  | count =>
      have ran : initDefault libc o memory = initCount o memory := by simp [initDefault, action]
      rw [ran]
      exact initCount_initialized libc action has
  | append =>
      have needs : destType o = some (.strVector [] : DestCell).type := by
        simp [destType, action, DestCell.type]
      apply initialized_cell (.strVector [])
      · simp [defaultCell, action]
      · exact needs
      · simp [initDefault, action, writeDest_eq has needs]
  | help | version =>
      have noDest : destType o = none := by simp [destType, action]
      have default : defaultCell libc o = .ok (.ok, none) := by simp [defaultCell, action]
      have ran : initDefault libc o memory = .ok (.ok, memory) := by simp [initDefault, action]
      constructor
      · rw [default, ran]
        rfl
      · rw [ran]
        exact fun same => by cases same
      · intro after same
        rw [ran] at same
        obtain ⟨-, rfl⟩ := Prod.mk.inj (Exec.ok.inj same)
        exact .inl ⟨noDest, rfl⟩

end Ucb.Argparse
