import Ucb.Argparse.Defaults

/-!
Contract: what a parse leaves, as a function of the parser and the command line.

Owns:
- the occurrences of an option among the events, and the content its destination
  has after them;
- the verdict of an event, which does not depend on the destinations;
- that initializing and each event keep every destination at its content, while no
  counter is at its bound.

A counter is an `int`. Counting beyond `INT_MAX` is undefined.
-/

namespace Ucb.Argparse

open Ucb.Str

/-! ## Contents -/

/-- The values that an option occurs with, in order. -/
def occurrences (index : Nat) (done : List Event) : List (Option (List UInt8)) :=
  done.filterMap fun
    | .apply _ i value => if i = index then some value else none
    | .positional _ | .fail _ => none

def positionalArgs (done : List Event) : List (List UInt8) :=
  done.filterMap fun
    | .positional arg => some arg
    | .apply _ _ _ | .fail _ => none

def storedCell (libc : Libc) (o : UcbArgOptImpl) (value : Option (List UInt8)) : Option DestCell :=
  value.bind fun v => (convertCell libc o.type v).returned.join

/-- A counter some occurrences further. -/
def addCount (count : Nat) : DestCell → DestCell
  | .int start => .int (start + count)
  | cell => cell

/-- What a destination holds after the occurrences of its option: the last value or the default,
all values, the number of occurrences above the default, or the flag. -/
def expectedCell (libc : Libc) (o : UcbArgOptImpl) (values : List (Option (List UInt8))) :
    Option DestCell :=
  match o.action with
  | .store =>
      match values.getLast? with
      | some value => storedCell libc o value
      | none => startCell libc o
  | .storeTrue => if values = [] then startCell libc o else some (.bool true)
  | .storeFalse => if values = [] then startCell libc o else some (.bool false)
  | .count => (startCell libc o).map (addCount values.length)
  | .append => some (.strVector (values.filterMap id))
  | .help | .version => none

/-- After some events an option has the right content in its destination, and is seen if it
occurred. -/
structure Holds (libc : Libc) (done : List Event) (st : ParseState) (o : UcbArgOptImpl)
    (index : Nat) : Prop where
  seen : st.seen index = !(occurrences index done).isEmpty
  dest : ∀ type, destType o = some type →
    ∃ cell, o.dest.bind st.memory = some cell ∧ cell.type = type ∧
      expectedCell libc o (occurrences index done) = some cell

theorem Holds.hasDest {libc : Libc} {done : List Event} {st : ParseState} {o : UcbArgOptImpl}
    {index : Nat} (holds : Holds libc done st o index) : HasDest st.memory o := by
  intro type needs
  obtain ⟨cell, there, typed, -⟩ := holds.dest type needs
  obtain ⟨ptr, dest, loaded⟩ := Option.bind_eq_some_iff.mp there
  exact ⟨ptr, dest, by rw [loaded, Option.map_some, typed]⟩

/-- The state after the options were initialized and some events were carried out. -/
structure After (libc : Libc) (p : UcbArgParser) (given : Option (List (List UInt8)))
    (done : List Event) (st : ParseState) : Prop where
  holds : ∀ (i : Nat) (o : UcbArgOptImpl), p.opts[i]? = some o → Holds libc done st o i
  positionals : st.positionals = given.map (· ++ positionalArgs done)

/-! ## Initializing -/

theorem expectedCell_nil {libc : Libc} {o : UcbArgOptImpl} {cell : DestCell}
    (needs : destType o = some cell.type) (start : startCell libc o = some cell) :
    expectedCell libc o [] = some cell := by
  cases action : o.action with
  | store => simp [expectedCell, action, start]
  | storeTrue => simp [expectedCell, action, start]
  | storeFalse => simp [expectedCell, action, start]
  | count =>
      have same : addCount 0 cell = cell := by
        cases cell with
        | int count => simp [addCount]
        | _ => rfl
      simp [expectedCell, action, start, same]
  | append =>
      have default : startCell libc o = some (.strVector []) := by
        simp [startCell, defaultCell, action, Exec.returned]
      simp [expectedCell, action, ← start, default]
  | help | version => simp [destType, action] at needs

theorem Initialized.holds {libc : Libc} {o : UcbArgOptImpl} {memory after : DestMemory}
    (initialized : Initialized libc o memory (.ok (.ok, after))) (has : HasDest memory o)
    {st : ParseState} (same : st.memory = after) {index : Nat} (unseen : st.seen index = false) :
    Holds libc [] st o index where
  seen := unseen
  dest := by
    intro type needs
    rcases initialized.memory after rfl with ⟨noDest, -⟩ | ⟨cell, start, typed, rfl⟩
    · rw [noDest] at needs
      cases needs
    · refine ⟨cell, ?_, ?_, expectedCell_nil typed start⟩
      · rw [same]
        exact storeCell_self has typed
      · exact Option.some.inj (typed.symm.trans needs)

/-- An option whose destination is apart from the one that changed still holds. -/
theorem Holds.apart {libc : Libc} {done : List Event} {st after : ParseState} {o : UcbArgOptImpl}
    {index : Nat} (holds : Holds libc done st o index)
    (seen : after.seen index = st.seen index)
    (kept : (destType o).isSome → o.dest.bind after.memory = o.dest.bind st.memory) :
    Holds libc done after o index where
  seen := seen.trans holds.seen
  dest := by
    intro type needs
    obtain ⟨cell, there, typed, expected⟩ := holds.dest type needs
    exact ⟨cell, (kept (by simp [needs])).trans there, typed, expected⟩

def defaultVerdicts (libc : Libc) : List UcbArgOptImpl → Exec UcbArgStatus
  | [] => pure .ok
  | o :: rest => do
      let status ← statusOf (defaultCell libc o)
      if status = .ok then defaultVerdicts libc rest else pure status

/-- Two options at different places of the table. -/
theorem zipIdx_apart {α : Type} {items : List α} {front rest : List (α × Nat)} {e : α × Nat}
    (split : items.zipIdx = front ++ e :: rest) {other : α × Nat} (early : other ∈ front) :
    other.2 ≠ e.2 ∧ items[other.2]? = some other.1 ∧ items[e.2]? = some e.1 := by
  have indices : (items.zipIdx.map Prod.snd).Nodup := by
    rw [List.zipIdx_map_snd]
    exact List.nodup_range'
  rw [split, List.map_append, List.map_cons, List.nodup_append] at indices
  have here : e ∈ items.zipIdx := by simp [split]
  have there : other ∈ items.zipIdx := by simp [split, early]
  refine ⟨?_, List.mem_zipIdx_iff_getElem?.mp there, List.mem_zipIdx_iff_getElem?.mp here⟩
  exact indices.2.2 _ (List.mem_map_of_mem early) _ List.mem_cons_self

/-- Distinct destinations of options at different places. -/
theorem Distinct.apart {p : UcbArgParser} (distinct : Distinct p) {i j : Nat}
    {o o' : UcbArgOptImpl} (here : p.opts[i]? = some o) (there : p.opts[j]? = some o')
    (ne : j ≠ i) (needs : (destType o).isSome) (needs' : (destType o').isSome) :
    o'.dest ≠ o.dest :=
  fun same => ne (distinct i j o o' here there needs needs' same)

/-- A stored cell leaves the destinations of the other options alone. -/
theorem Distinct.kept {p : UcbArgParser} (distinct : Distinct p) {i j : Nat}
    {o o' : UcbArgOptImpl} (here : p.opts[i]? = some o) (there : p.opts[j]? = some o')
    (ne : j ≠ i) (memory : DestMemory) {cell : DestCell} (needs : destType o = some cell.type)
    (needs' : (destType o').isSome) :
    o'.dest.bind (storeCell memory o cell) = o'.dest.bind memory :=
  storeCell_other memory cell (distinct.apart here there ne (by simp [needs]) needs')

/-- The options that were initialized hold what they should when the next one was as well. -/
theorem initStep_holds {libc : Libc} {p : UcbArgParser} (distinct : Distinct p)
    {front rest : List (UcbArgOptImpl × Nat)} {o : UcbArgOptImpl} {index : Nat}
    (split : p.opts.zipIdx = front ++ (o, index) :: rest) {st : ParseState} {memory : DestMemory}
    (holds : ∀ e ∈ front, Holds libc [] st e.1 e.2) (has : HasDest st.memory o)
    (initialized : Initialized libc o st.memory (.ok (.ok, memory))) :
    ∀ e ∈ front ++ [(o, index)],
      Holds libc [] { st with memory := memory, seen := Function.update st.seen index false }
        e.1 e.2 := by
  intro e member
  rcases List.mem_append.mp member with early | last
  · obtain ⟨ne, there, here⟩ := zipIdx_apart split early
    apply (holds e early).apart
    · exact Function.update_of_ne ne _ _
    · intro needs
      rcases initialized.memory memory rfl with ⟨-, rfl⟩ | ⟨cell, -, typed, rfl⟩
      · rfl
      · exact distinct.kept here there ne st.memory typed needs
  · obtain rfl := List.mem_singleton.mp last
    exact initialized.holds has rfl (Function.update_self _ _ _)

/-- Destinations stay of the right type when another one is initialized. -/
theorem initStep_hasDest {libc : Libc} {o other : UcbArgOptImpl} {memory after : DestMemory}
    (has : HasDest memory o) (hasOther : HasDest memory other)
    (initialized : Initialized libc o memory (.ok (.ok, after))) : HasDest after other := by
  rcases initialized.memory after rfl with ⟨-, rfl⟩ | ⟨cell, -, typed, rfl⟩
  · exact hasOther
  · exact has.store hasOther typed

/-- Initializing has the status that the defaults give, and the destinations hold the defaults. -/
theorem initLoop_spec (libc : Libc) {p : UcbArgParser} (fits : ∀ o ∈ p.opts, Fits o)
    (distinct : Distinct p) (rest : List (UcbArgOptImpl × Nat)) :
    ∀ (front : List (UcbArgOptImpl × Nat)) (st : ParseState), p.opts.zipIdx = front ++ rest →
      (∀ e ∈ front, Holds libc [] st e.1 e.2) → (∀ e ∈ rest, HasDest st.memory e.1) →
      statusOf (initLoop libc rest st) = defaultVerdicts libc (rest.map Prod.fst) ∧
      initLoop libc rest st ≠ .undefined ∧
      ∀ after, initLoop libc rest st = .ok (.ok, after) →
        after.positionals = st.positionals ∧
        ∀ e ∈ front ++ rest, Holds libc [] after e.1 e.2 := by
  induction rest with
  | nil =>
      intro front st split holds has
      refine ⟨rfl, fun same => (by cases same), ?_⟩
      intro after same
      obtain ⟨-, rfl⟩ := Prod.mk.inj (Exec.ok.inj same)
      rw [List.append_nil]
      exact ⟨rfl, holds⟩
  | cons entry rest inductionHypothesis =>
      obtain ⟨o, index⟩ := entry
      intro front st split holds has
      have member : (o, index) ∈ p.opts.zipIdx := by simp [split]
      have present := List.mem_zipIdx_iff_getElem?.mp member
      have hasHere := has _ List.mem_cons_self
      have initialized := initDefault_initialized libc (fits o (List.mem_of_getElem? present))
        hasHere
      rw [initLoop, List.map_cons, defaultVerdicts, ← initialized.status]
      cases ran : initDefault libc o st.memory with
      | undefined => exact absurd ran initialized.defined
      | abort code =>
          exact ⟨rfl, fun same => (by cases same), fun after same => (by cases same)⟩
      | ok result =>
          obtain ⟨status, memory⟩ := result
          by_cases ok : status = .ok
          · subst ok
            rw [ran] at initialized
            have later := inductionHypothesis (front ++ [(o, index)])
              { st with memory := memory, seen := Function.update st.seen index false }
              (by rw [split, List.append_assoc]; rfl)
              (initStep_holds distinct split holds hasHere initialized)
              (fun e found => initStep_hasDest hasHere (has e (List.mem_cons_of_mem _ found))
                initialized)
            simp only [List.append_assoc, List.singleton_append] at later
            simpa using later
          · simp only [Exec.ok_bind, statusOf_ok, if_neg ok, Exec.pure_eq_ok]
            refine ⟨trivial, fun same => (by cases same), ?_⟩
            intro after same
            exact absurd (Prod.mk.inj (Exec.ok.inj same)).1 ok

theorem initLoop_after (libc : Libc) {p : UcbArgParser} (fits : ∀ o ∈ p.opts, Fits o)
    (distinct : Distinct p) {st : ParseState} (typed : Typed p st.memory) :
    statusOf (initLoop libc p.opts.zipIdx st) = defaultVerdicts libc p.opts ∧
    initLoop libc p.opts.zipIdx st ≠ .undefined ∧
    ∀ after, initLoop libc p.opts.zipIdx st = .ok (.ok, after) →
      After libc p st.positionals [] after := by
  obtain ⟨status, defined, run⟩ := initLoop_spec libc fits distinct p.opts.zipIdx [] st rfl
    (fun e found => by cases found)
    (fun e found => typed e.1 (List.mem_of_getElem? (List.mem_zipIdx_iff_getElem?.mp found)))
  rw [List.zipIdx_map_fst] at status
  refine ⟨status, defined, ?_⟩
  intro after same
  obtain ⟨positionals, holds⟩ := run after same
  constructor
  · intro i o present
    exact holds (o, i) (List.mem_zipIdx_iff_getElem?.mpr present)
  · rw [positionals]
    simp [positionalArgs]

/-! ## Verdicts -/

def storeVerdict (libc : Libc) (o : UcbArgOptImpl) (value : List UInt8) : Exec UcbArgStatus :=
  match checkChoices o value with
  | some err => pure (.error (some err))
  | none => statusOf (storeDefault libc o value)

def appendVerdict (o : UcbArgOptImpl) (value : List UInt8) : Exec UcbArgStatus :=
  match checkChoices o value with
  | some err => pure (.error (some err))
  | none => do
      let _ ← ucbStrNewC value
      pure .ok

/-- How an event goes, whatever the destinations hold. `keep` says that there is a vector for
positional arguments. -/
def verdict (libc : Libc) (p : UcbArgParser) (keep : Bool) : Event → Exec UcbArgStatus
  | .apply o _ value =>
      match o.action with
      | .store => storeVerdict libc o (value.getD [])
      | .append => appendVerdict o (value.getD [])
      | .storeTrue | .storeFalse | .count => pure .ok
      | .help => pure .help
      | .version => do
          ucbVerify (p.version ≠ []) .invalidArg
          pure .version
  | .positional arg =>
      if keep then do
        let _ ← ucbStrNewC arg
        pure .ok
      else pure .ok
  | .fail err => pure (.error (some err))

/-- The verdict of a list of events: that of the first one which ends parsing. -/
def verdicts (libc : Libc) (p : UcbArgParser) (keep : Bool) : List Event → Exec UcbArgStatus
  | [] => pure .ok
  | event :: rest => do
      let status ← verdict libc p keep event
      if status = .ok then verdicts libc p keep rest else pure status

/-- The events in front of the first one that ends parsing. -/
def performed (libc : Libc) (p : UcbArgParser) (keep : Bool) (todo : List Event) : List Event :=
  todo.takeWhile fun event => verdict libc p keep event = .ok .ok

/-- An event that the scanner can give: the option is the one at its index, and has a value if
it takes one. -/
def WellFormed (p : UcbArgParser) : Event → Prop
  | .apply o index value => p.opts[index]? = some o ∧ value.isSome = optTakesValue o
  | .positional _ | .fail _ => True

/-- No counter is beyond its bound after some events. -/
def Counts (libc : Libc) (p : UcbArgParser) (done : List Event) : Prop :=
  ∀ (i : Nat) (o : UcbArgOptImpl) (start : Int), p.opts[i]? = some o → o.action = .count →
    startCell libc o = some (.int start) → start + (occurrences i done).length ≤ intMax

/-! ## Well-formed events -/

theorem findLong_present {p : UcbArgParser} {name : List UInt8} {o : UcbArgOptImpl} {i : Nat}
    (found : findLong p name = some (o, i)) : p.opts[i]? = some o := by
  unfold findLong at found
  split at found
  · cases found
  · exact List.mem_zipIdx_iff_getElem?.mp (List.mem_of_find?_eq_some found)

theorem findShort_present {p : UcbArgParser} {c : UInt8} {o : UcbArgOptImpl} {i : Nat}
    (found : findShort p c = some (o, i)) : p.opts[i]? = some o :=
  List.mem_zipIdx_iff_getElem?.mp (List.mem_of_find?_eq_some found)

theorem longEvent_wellFormed (p : UcbArgParser) (body : List UInt8) (next : Option (List UInt8)) :
    WellFormed p (longEvent p body next).1 := by
  simp only [longEvent]
  cases found : findLong p (body.takeWhile (· ≠ equalsSign)) with
  | none => trivial
  | some entry =>
      obtain ⟨o, index⟩ := entry
      have present := findLong_present found
      by_cases takes : optTakesValue o = true
      · simp only [takes, if_true]
        cases (body.dropWhile (· ≠ equalsSign)).tail? with
        | some value => exact ⟨present, by simp [takes]⟩
        | none =>
            cases next with
            | some value => exact ⟨present, by simp [takes]⟩
            | none => trivial
      · simp only [takes, Bool.false_eq_true, if_false]
        split
        · trivial
        · exact ⟨present, by simp [takes]⟩

theorem shortEvents_wellFormed (p : UcbArgParser) (next : Option (List UInt8))
    (body : List UInt8) : ∀ event ∈ (shortEvents p next body).1, WellFormed p event := by
  induction body with
  | nil => exact fun event member => by cases member
  | cons c more inductionHypothesis =>
      simp only [shortEvents]
      cases found : findShort p c with
      | none => simp [WellFormed]
      | some entry =>
          obtain ⟨o, index⟩ := entry
          have present := findShort_present found
          by_cases takes : optTakesValue o = true
          · simp only [takes, if_true]
            by_cases attached : more = []
            · cases next with
              | some value => simp [attached, WellFormed, present, takes]
              | none => simp [attached, WellFormed]
            · simp [attached, WellFormed, present, takes]
          · simp only [takes, Bool.false_eq_true, if_false]
            intro event member
            rcases List.mem_cons.mp member with rfl | later
            · exact ⟨present, by simp [takes]⟩
            · exact inductionHypothesis event later

theorem events_wellFormed (p : UcbArgParser) (tokens : List (List UInt8)) :
    ∀ skip noMore, ∀ event ∈ events p skip noMore tokens, WellFormed p event := by
  induction tokens with
  | nil =>
      intro skip noMore event member
      cases skip <;> cases member
  | cons arg rest inductionHypothesis =>
      intro skip noMore event member
      cases skip with
      | true => exact inductionHypothesis false noMore event member
      | false =>
          rw [events] at member
          rcases List.mem_append.mp member with here | later
          · unfold tokenEvents at here
            cases kind : tokenKind noMore arg with
            | endOfOptions =>
                rw [kind] at here
                cases here
            | long =>
                rw [kind] at here
                obtain rfl := List.mem_singleton.mp here
                exact longEvent_wellFormed p _ _
            | short =>
                rw [kind] at here
                exact shortEvents_wellFormed p _ _ event here
            | positional =>
                rw [kind] at here
                obtain rfl := List.mem_singleton.mp here
                trivial
          · exact inductionHypothesis _ _ event later

/-! ## Carrying an event out -/

theorem occurrences_apply (done : List Event) (o : UcbArgOptImpl) (index : Nat)
    (value : Option (List UInt8)) :
    occurrences index (done ++ [.apply o index value]) = occurrences index done ++ [value] := by
  simp [occurrences, List.filterMap_append]

theorem occurrences_other (done : List Event) (o : UcbArgOptImpl) {index other : Nat}
    (ne : other ≠ index) (value : Option (List UInt8)) :
    occurrences other (done ++ [.apply o index value]) = occurrences other done := by
  simp [occurrences, List.filterMap_append, ne.symm]

theorem occurrences_positional (done : List Event) (arg : List UInt8) (index : Nat) :
    occurrences index (done ++ [.positional arg]) = occurrences index done := by
  simp [occurrences, List.filterMap_append]

theorem positionalArgs_apply (done : List Event) (o : UcbArgOptImpl) (index : Nat)
    (value : Option (List UInt8)) :
    positionalArgs (done ++ [.apply o index value]) = positionalArgs done := by
  simp [positionalArgs, List.filterMap_append]

theorem positionalArgs_positional (done : List Event) (arg : List UInt8) :
    positionalArgs (done ++ [.positional arg]) = positionalArgs done ++ [arg] := by
  simp [positionalArgs, List.filterMap_append]

/-- An event was carried out: the outcome has the verdict of the event, and where parsing goes
on every destination holds what it should. -/
structure Carried (libc : Libc) (p : UcbArgParser) (given : Option (List (List UInt8)))
    (done : List Event) (event : Event) (outcome : Exec (UcbArgStatus × ParseState)) : Prop where
  status : statusOf outcome = verdict libc p given.isSome event
  defined : outcome ≠ .undefined
  after : ∀ st, outcome = .ok (.ok, st) → After libc p given (done ++ [event]) st

section Carried

variable {libc : Libc} {p : UcbArgParser} {given : Option (List (List UInt8))}
  {done : List Event} {event : Event} {outcome : Exec (UcbArgStatus × ParseState)}

theorem carried_stop (status : UcbArgStatus) {st : ParseState} (stops : status ≠ .ok)
    (decided : verdict libc p given.isSome event = .ok status) (ran : outcome = .ok (status, st)) :
    Carried libc p given done event outcome where
  status := by rw [decided, ran]; rfl
  defined := by rw [ran]; exact fun same => by cases same
  after := by
    intro other same
    rw [ran] at same
    exact absurd (Prod.mk.inj (Exec.ok.inj same)).1 stops

theorem carried_abort (code : UcbEcode) (decided : verdict libc p given.isSome event = .abort code)
    (ran : outcome = .abort code) : Carried libc p given done event outcome where
  status := by rw [decided, ran]; rfl
  defined := by rw [ran]; exact fun same => by cases same
  after := by
    intro other same
    rw [ran] at same
    cases same

theorem carried_on {st : ParseState} (decided : verdict libc p given.isSome event = .ok .ok)
    (ran : outcome = .ok (.ok, st)) (after : After libc p given (done ++ [event]) st) :
    Carried libc p given done event outcome where
  status := by rw [decided, ran]; rfl
  defined := by rw [ran]; exact fun same => by cases same
  after := by
    intro other same
    rw [ran] at same
    obtain ⟨-, rfl⟩ := Prod.mk.inj (Exec.ok.inj same)
    exact after

end Carried

section Apply

variable {libc : Libc} {p : UcbArgParser} (distinct : Distinct p)
  {given : Option (List (List UInt8))} {done : List Event} {st : ParseState}
  (after : After libc p given done st) {o : UcbArgOptImpl} {index : Nat}
  (present : p.opts[index]? = some o)

include distinct after present

/-- Storing the next content of an option's destination is its occurrence. -/
theorem After.apply (value : Option (List UInt8)) {cell : DestCell}
    (needs : destType o = some cell.type)
    (expected : expectedCell libc o (occurrences index done ++ [value]) = some cell) :
    After libc p given (done ++ [.apply o index value])
      ({ st with memory := storeCell st.memory o cell }.see index) := by
  constructor
  · intro i other there
    by_cases same : i = index
    · subst same
      obtain rfl := Option.some.inj (present.symm.trans there)
      constructor
      · rw [occurrences_apply]
        simp [ParseState.see]
      · intro type needsType
        rw [occurrences_apply]
        refine ⟨cell, ?_, ?_, expected⟩
        · exact storeCell_self (after.holds i o present).hasDest needs
        · exact Option.some.inj (needs.symm.trans needsType)
    · have apart : Holds libc done ({ st with memory := storeCell st.memory o cell }.see index)
          other i := by
        apply (after.holds i other there).apart
        · exact Function.update_of_ne same _ _
        · exact distinct.kept present there same st.memory needs
      have unchanged := occurrences_other done o same value
      exact ⟨by rw [unchanged]; exact apart.seen, by rw [unchanged]; exact apart.dest⟩
  · rw [positionalArgs_apply]
    exact after.positionals

theorem applyStore_carried (action : o.action = .store) (value : List UInt8) :
    Carried libc p given done (.apply o index (some value))
      (applyOption libc p o index (some value) st) := by
  have decided : verdict libc p given.isSome (.apply o index (some value)) =
      storeVerdict libc o value := by simp [verdict, action]
  have ran : applyOption libc p o index (some value) st = applyStore libc o index value st := by
    simp [applyOption, action]
  rw [ran]
  cases checked : checkChoices o value with
  | some err =>
      apply carried_stop (.error (some err)) UcbArgStatus.noConfusion
      · rw [decided, storeVerdict, checked]
        rfl
      · rw [applyStore, checked]
        rfl
  | none =>
      cases converted : convertCell libc o.type value with
      | undefined => exact absurd converted (convertCell_defined libc o.type value)
      | abort code =>
          apply carried_abort code
          · simp [decided, storeVerdict, checked, storeDefault, converted]
          · simp [applyStore, checked, convertStore, converted]
      | ok result =>
          cases result with
          | none =>
              apply carried_stop (.error (if o.type = .none then none
                else some (.invalidValue o.type o.canon value))) UcbArgStatus.noConfusion
              · simp [decided, storeVerdict, checked, storeDefault, converted]
              · simp [applyStore, checked, convertStore, converted]
                rfl
          | some cell =>
              have needs : destType o = some cell.type := by
                rw [destType_store action, convertCell_type libc converted]
              have written := writeDest_eq (after.holds index o present).hasDest needs
              apply carried_on
              · simp [decided, storeVerdict, checked, storeDefault, converted]
              · simp [applyStore, checked, convertStore, converted, written]
                rfl
              · apply after.apply distinct present (some value) needs
                simp [expectedCell, action, storedCell, converted, Exec.returned]

theorem applyAppend_carried (action : o.action = .append) (value : List UInt8) :
    Carried libc p given done (.apply o index (some value))
      (applyOption libc p o index (some value) st) := by
  have decided : verdict libc p given.isSome (.apply o index (some value)) =
      appendVerdict o value := by simp [verdict, action]
  have ran : applyOption libc p o index (some value) st = applyAppend o index value st := by
    simp [applyOption, action]
  have holds := after.holds index o present
  obtain ⟨cell, there, -, expected⟩ := holds.dest .none (by simp [destType, action])
  have texts : cell = .strVector ((occurrences index done).filterMap id) := by
    simpa [expectedCell, action] using expected.symm
  have loaded : readDest st.memory o.dest = .ok cell := by rw [readDest, there]; rfl
  have needs (texts : List (List UInt8)) :
      destType o = some (.strVector texts : DestCell).type := by
    simp [destType, action, DestCell.type]
  subst texts
  rw [ran]
  cases checked : checkChoices o value with
  | some err =>
      apply carried_stop (.error (some err)) UcbArgStatus.noConfusion
      · rw [decided, appendVerdict, checked]
        rfl
      · rw [applyAppend, checked]
        rfl
  | none =>
      rcases ucbStrNewC_cases value with copied | copied
      · apply carried_on
        · simp [decided, appendVerdict, checked, copied]
        · simp [applyAppend, checked, copied, loaded, writeDest_eq holds.hasDest (needs _)]
          rfl
        · apply after.apply distinct present (some value) (needs _)
          simp [expectedCell, action, List.filterMap_append]
      · apply carried_abort .invalidArg
        · simp [decided, appendVerdict, checked, copied]
        · simp [applyAppend, checked, copied]

theorem applyFlag_carried (flag : Bool) {value : Option (List UInt8)}
    (isBool : destType o = some .bool)
    (decided : verdict libc p given.isSome (.apply o index value) = .ok .ok)
    (ran : applyOption libc p o index value st = applyFlag o index flag st)
    (expected : expectedCell libc o (occurrences index done ++ [value]) = some (.bool flag)) :
    Carried libc p given done (.apply o index value) (applyOption libc p o index value st) := by
  have needs : destType o = some (.bool flag : DestCell).type := isBool
  apply carried_on decided
  · rw [ran, applyFlag, writeDest_eq (after.holds index o present).hasDest needs]
    rfl
  · exact after.apply distinct present value needs expected

end Apply

theorem count_cell {o : UcbArgOptImpl} {libc : Libc} {done : List Event} {st : ParseState}
    {index : Nat} (action : o.action = .count) (holds : Holds libc done st o index) :
    ∃ start, startCell libc o = some (.int start) ∧
      readDest st.memory o.dest = .ok (.int (start + (occurrences index done).length)) := by
  obtain ⟨cell, there, typed, expected⟩ := holds.dest .int (by simp [destType, action])
  rw [expectedCell, action] at expected
  obtain ⟨first, start, counted⟩ := Option.map_eq_some_iff.mp expected
  cases first with
  | int start' =>
      refine ⟨start', start, ?_⟩
      rw [readDest, there, ← counted]
      rfl
  | _ =>
      rw [← counted] at typed
      cases typed

/-- A counter counts while it is under its bound. -/
theorem applyCount_carried {libc : Libc} {p : UcbArgParser} (distinct : Distinct p)
    {given : Option (List (List UInt8))} {done : List Event} {st : ParseState}
    (after : After libc p given done st) {o : UcbArgOptImpl} {index : Nat}
    (present : p.opts[index]? = some o) (action : o.action = .count)
    {value : Option (List UInt8)} (counts : Counts libc p (done ++ [.apply o index value])) :
    Carried libc p given done (.apply o index value) (applyOption libc p o index value st) := by
  have holds := after.holds index o present
  obtain ⟨start, isStart, loaded⟩ := count_cell action holds
  have bound := counts index o start present action isStart
  rw [occurrences_apply, List.length_append, List.length_singleton] at bound
  have below : start + ((occurrences index done).length : Int) < intMax := by
    push_cast at bound
    omega
  have needs (x : Int) : destType o = some (.int x : DestCell).type := by
    simp [destType, action, DestCell.type]
  have ran : applyOption libc p o index value st = applyCount o index st := by
    simp [applyOption, action]
  apply carried_on
  · simp [verdict, action]
  · rw [ran, applyCount, loaded]
    simp [below, writeDest_eq holds.hasDest (needs _)]
    rfl
  · apply after.apply distinct present value (needs _)
    simp [expectedCell, action, isStart, addCount, add_assoc]

/-- At its bound a counter cannot count. -/
theorem applyCount_undefined {libc : Libc} {p : UcbArgParser}
    {given : Option (List (List UInt8))} {done : List Event} {st : ParseState}
    (after : After libc p given done st) {o : UcbArgOptImpl} {index : Nat}
    (present : p.opts[index]? = some o) (action : o.action = .count)
    {value : Option (List UInt8)} {start : Int} (isStart : startCell libc o = some (.int start))
    (beyond : ¬ start + ((occurrences index (done ++ [.apply o index value])).length : Int) ≤
      intMax) :
    applyOption libc p o index value st = .undefined := by
  obtain ⟨start', isStart', loaded⟩ := count_cell action (after.holds index o present)
  obtain rfl : start' = start := by
    have same := Option.some.inj (isStart'.symm.trans isStart)
    exact DestCell.int.inj same
  rw [occurrences_apply, List.length_append, List.length_singleton] at beyond
  have atBound : ¬ start' + ((occurrences index done).length : Int) < intMax := by
    push_cast at beyond
    omega
  have ran : applyOption libc p o index value st = applyCount o index st := by
    simp [applyOption, action]
  rw [ran, applyCount, loaded]
  simp [atBound]

theorem After.positional {libc : Libc} {p : UcbArgParser} {given : Option (List (List UInt8))}
    {done : List Event} {st : ParseState} (after : After libc p given done st)
    {arg : List UInt8} {texts : Option (List (List UInt8))}
    (kept : texts = given.map (· ++ positionalArgs (done ++ [.positional arg]))) :
    After libc p given (done ++ [.positional arg]) { st with positionals := texts } where
  holds := by
    intro i o present
    have unchanged := occurrences_positional done arg i
    have holds := after.holds i o present
    exact ⟨by rw [unchanged]; exact holds.seen, by rw [unchanged]; exact holds.dest⟩
  positionals := kept

theorem positional_carried {libc : Libc} {p : UcbArgParser} {given : Option (List (List UInt8))}
    {done : List Event} {st : ParseState} (after : After libc p given done st)
    (arg : List UInt8) :
    Carried libc p given done (.positional arg) (runEvent libc p st (.positional arg)) := by
  have positionals := after.positionals
  cases given with
  | none =>
      rw [Option.map_none] at positionals
      apply carried_on
      · rfl
      · simp [runEvent, pushPositional, positionals]
        rfl
      · have same : st = { st with positionals := none } := by rw [← positionals]
        rw [same]
        exact after.positional rfl
  | some texts =>
      rw [Option.map_some] at positionals
      rcases ucbStrNewC_cases arg with copied | copied
      · apply carried_on
        · simp [verdict, copied]
        · simp [runEvent, pushPositional, positionals, copied]
          rfl
        · apply after.positional
          rw [positionalArgs_positional]
          simp
      · apply carried_abort .invalidArg
        · simp [verdict, copied]
        · simp [runEvent, pushPositional, positionals, copied]

/-- Carrying an event out, while no counter is beyond its bound behind it. -/
theorem runEvent_carried {libc : Libc} {p : UcbArgParser} (distinct : Distinct p)
    {given : Option (List (List UInt8))} {done : List Event} {st : ParseState}
    (after : After libc p given done st) {event : Event} (wellFormed : WellFormed p event)
    (counts : Counts libc p (done ++ [event])) :
    Carried libc p given done event (runEvent libc p st event) := by
  cases event with
  | fail err => exact carried_stop (.error (some err)) UcbArgStatus.noConfusion rfl rfl
  | positional arg => exact positional_carried after arg
  | apply o index value =>
      obtain ⟨present, takes⟩ := wellFormed
      rw [runEvent]
      cases action : o.action with
      | store =>
          have hasValue : value.isSome = true := takes.trans (by simp [optTakesValue, action])
          obtain ⟨v, rfl⟩ := Option.isSome_iff_exists.mp hasValue
          exact applyStore_carried distinct after present action v
      | append =>
          have hasValue : value.isSome = true := takes.trans (by simp [optTakesValue, action])
          obtain ⟨v, rfl⟩ := Option.isSome_iff_exists.mp hasValue
          exact applyAppend_carried distinct after present action v
      | storeTrue =>
          exact applyFlag_carried distinct after present true (by simp [destType, action])
            (by simp [verdict, action]) (by simp [applyOption, action])
            (by simp [expectedCell, action])
      | storeFalse =>
          exact applyFlag_carried distinct after present false (by simp [destType, action])
            (by simp [verdict, action]) (by simp [applyOption, action])
            (by simp [expectedCell, action])
      | count => exact applyCount_carried distinct after present action counts
      | help =>
          apply carried_stop .help UcbArgStatus.noConfusion
          · simp [verdict, action]
          · simp [applyOption, action]
            rfl
      | version =>
          by_cases set : p.version = []
          · apply carried_abort .invalidArg
            · simp [verdict, action, set]
            · simp [applyOption, action, set]
          · apply carried_stop .version UcbArgStatus.noConfusion
            · simp [verdict, action, set]
            · simp [applyOption, action, set]
              rfl

/-! ## Runs of events -/

theorem occurrences_append (index : Nat) (front back : List Event) :
    occurrences index (front ++ back) = occurrences index front ++ occurrences index back :=
  List.filterMap_append

theorem Counts.front {libc : Libc} {p : UcbArgParser} {front back : List Event}
    (counts : Counts libc p (front ++ back)) : Counts libc p front := by
  intro i o start present action isStart
  have bound := counts i o start present action isStart
  rw [occurrences_append, List.length_append] at bound
  push_cast at bound
  omega

theorem performed_on {libc : Libc} {p : UcbArgParser} {keep : Bool} {event : Event}
    (goesOn : verdict libc p keep event = .ok .ok) (rest : List Event) :
    performed libc p keep (event :: rest) = event :: performed libc p keep rest := by
  simp [performed, goesOn]

theorem performed_stop {libc : Libc} {p : UcbArgParser} {keep : Bool} {event : Event}
    (stops : verdict libc p keep event ≠ .ok .ok) (rest : List Event) :
    performed libc p keep (event :: rest) = [] := by
  simp [performed, stops]

/-- An event that takes a counter beyond its bound is an occurrence of that counter. -/
theorem Counts.overflow {libc : Libc} {p : UcbArgParser} {done : List Event} {event : Event}
    (counts : Counts libc p done) (beyond : ¬ Counts libc p (done ++ [event])) :
    ∃ o index value start, event = .apply o index value ∧
      ∃ declared, p.opts[index]? = some declared ∧ declared.action = .count ∧
      startCell libc declared = some (.int start) ∧
      ¬ start + ((occurrences index (done ++ [event])).length : Int) ≤ intMax := by
  simp only [Counts, not_forall] at beyond
  obtain ⟨i, declared, start, present, action, isStart, above⟩ := beyond
  have bound := counts i declared start present action isStart
  cases event with
  | fail err =>
      rw [occurrences_append] at above
      exact absurd bound (by simpa [occurrences] using above)
  | positional arg =>
      rw [occurrences_positional] at above
      exact absurd bound above
  | apply o index value =>
      by_cases same : i = index
      · subst same
        exact ⟨o, i, value, start, rfl, declared, present, action, isStart, above⟩
      · rw [occurrences_other done o same] at above
        exact absurd bound above

theorem verdict_count {libc : Libc} {p : UcbArgParser} {keep : Bool} {o : UcbArgOptImpl}
    {index : Nat} {value : Option (List UInt8)} (action : o.action = .count) :
    verdict libc p keep (.apply o index value) = .ok .ok := by
  simp [verdict, action]

section Runs

variable {libc : Libc} {p : UcbArgParser} (distinct : Distinct p)
  {given : Option (List (List UInt8))}

include distinct

/-- While no counter is beyond its bound, a run has the verdict of its events, and leaves every
destination at its content. -/
theorem runEvents_right (todo : List Event) :
    ∀ (done : List Event) (st : ParseState), After libc p given done st →
      (∀ event ∈ todo, WellFormed p event) →
      Counts libc p (done ++ performed libc p given.isSome todo) →
      statusOf (runEvents libc p todo st) = verdicts libc p given.isSome todo ∧
      runEvents libc p todo st ≠ .undefined ∧
      ∀ last, runEvents libc p todo st = .ok (.ok, last) →
        After libc p given (done ++ todo) last := by
  induction todo with
  | nil =>
      intro done st after wellFormed counts
      refine ⟨rfl, fun same => (by cases same), ?_⟩
      intro last same
      obtain ⟨-, rfl⟩ := Prod.mk.inj (Exec.ok.inj same)
      rw [List.append_nil]
      exact after
  | cons event rest inductionHypothesis =>
      intro done st after wellFormed counts
      have here := wellFormed event List.mem_cons_self
      have countsHere : Counts libc p (done ++ [event]) := by
        by_contra beyond
        obtain ⟨o, index, value, start, rfl, declared, present, action, -, above⟩ :=
          counts.front.overflow beyond
        obtain rfl := Option.some.inj (present.symm.trans here.1)
        rw [performed_on (verdict_count action), List.append_cons] at counts
        exact beyond counts.front
      obtain ⟨status, defined, next⟩ := runEvent_carried distinct after here countsHere
      rw [runEvents, verdicts, ← status]
      cases ran : runEvent libc p st event with
      | undefined => exact absurd ran defined
      | abort code => exact ⟨rfl, fun same => (by cases same), fun last same => (by cases same)⟩
      | ok result =>
          obtain ⟨outcome, st'⟩ := result
          by_cases ok : outcome = .ok
          · subst ok
            have goesOn : verdict libc p given.isSome event = .ok .ok := by rw [← status, ran]; rfl
            rw [performed_on goesOn] at counts
            have later := inductionHypothesis (done ++ [event]) st' (next st' ran)
              (fun other member => wellFormed other (List.mem_cons_of_mem _ member))
              (by rw [List.append_assoc]; exact counts)
            rw [List.append_assoc] at later
            exact later
          · simp only [andThen, Exec.ok_bind, statusOf_ok, if_neg ok, Exec.pure_eq_ok]
            refine ⟨trivial, fun same => (by cases same), ?_⟩
            intro last same
            exact absurd (Prod.mk.inj (Exec.ok.inj same)).1 ok

/-- A run that would take a counter beyond its bound is undefined. -/
theorem runEvents_undefined (todo : List Event) :
    ∀ (done : List Event) (st : ParseState), After libc p given done st →
      (∀ event ∈ todo, WellFormed p event) → Counts libc p done →
      ¬ Counts libc p (done ++ performed libc p given.isSome todo) →
      runEvents libc p todo st = .undefined := by
  induction todo with
  | nil =>
      intro done st after wellFormed counts beyond
      rw [performed, List.takeWhile_nil, List.append_nil] at beyond
      exact absurd counts beyond
  | cons event rest inductionHypothesis =>
      intro done st after wellFormed counts beyond
      have here := wellFormed event List.mem_cons_self
      by_cases goesOn : verdict libc p given.isSome event = .ok .ok
      · rw [performed_on goesOn] at beyond
        by_cases countsHere : Counts libc p (done ++ [event])
        · obtain ⟨status, -, next⟩ := runEvent_carried distinct after here countsHere
          rw [goesOn] at status
          obtain ⟨⟨outcome, st'⟩, ran, rfl⟩ := Exec.map_eq_ok status
          rw [runEvents, ran]
          exact inductionHypothesis (done ++ [event]) st' (next st' ran)
            (fun other member => wellFormed other (List.mem_cons_of_mem _ member)) countsHere
            (by rw [List.append_assoc]; exact beyond)
        · obtain ⟨o, index, value, start, rfl, declared, present, action, isStart, above⟩ :=
            counts.overflow countsHere
          obtain rfl := Option.some.inj (present.symm.trans here.1)
          rw [runEvents, runEvent, applyCount_undefined after present action isStart above]
          rfl
      · rw [performed_stop goesOn, List.append_nil] at beyond
        exact absurd counts beyond

end Runs

end Ucb.Argparse
