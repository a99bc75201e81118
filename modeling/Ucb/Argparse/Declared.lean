import Ucb.Argparse.Events

/-!
Contract: the option tables that `ucb_arg_parser_add` can build.

Owns:
- what holds of every option that was added, and of any two;
- looking an option up by a name of its own.
-/

namespace Ucb.Argparse

/-! ## Adding an option -/

theorem ucbStrNewC_eq {cstr text : List UInt8} (copied : ucbStrNewC cstr = .ok text) :
    text = cstr := by
  obtain ⟨_, -, returned⟩ := Exec.bind_eq_ok.mp copied
  exact (Exec.ok.inj returned).symm

theorem copyText_eq {source : Option (List UInt8)} {text : List UInt8}
    (copied : copyText source = .ok text) : text = source.getD [] := by
  cases source with
  | none => exact (Exec.ok.inj copied).symm
  | some cstr => exact ucbStrNewC_eq copied

/-- What is known of an option that was added with a descriptor. -/
structure AddedAs (p : UcbArgParser) (opt : UcbArgOpt) (o : UcbArgOptImpl) : Prop where
  short : o.shortName = opt.shortName
  long : o.longName = opt.longName.getD []
  type : o.type = opt.type
  action : o.action = opt.action
  dest : o.dest = opt.dest
  newShort : o.shortName ≠ 0 → findShort p o.shortName = none
  newLong : findLong p o.longName = none
  fits : actionFits opt = true

theorem add_ok {p after : UcbArgParser} {opt : UcbArgOpt}
    (added : ucbArgParserAdd p opt = .ok after) :
    ∃ o, after = { p with opts := p.opts ++ [o] } ∧ AddedAs p opt o := by
  obtain ⟨_, -, added⟩ := Exec.bind_eq_ok.mp added
  obtain ⟨_, -, added⟩ := Exec.bind_eq_ok.mp added
  obtain ⟨_, newShort, added⟩ := Exec.bind_eq_ok.mp added
  obtain ⟨_, newLong, added⟩ := Exec.bind_eq_ok.mp added
  obtain ⟨_, fits, added⟩ := Exec.bind_eq_ok.mp added
  obtain ⟨_, -, added⟩ := Exec.bind_eq_ok.mp added
  obtain ⟨_, -, added⟩ := Exec.bind_eq_ok.mp added
  obtain ⟨name, -, added⟩ := Exec.bind_eq_ok.mp added
  obtain ⟨long, copied, added⟩ := Exec.bind_eq_ok.mp added
  obtain ⟨default, -, added⟩ := Exec.bind_eq_ok.mp added
  obtain ⟨metavar, -, added⟩ := Exec.bind_eq_ok.mp added
  obtain ⟨help, -, added⟩ := Exec.bind_eq_ok.mp added
  obtain ⟨canon, -, added⟩ := Exec.bind_eq_ok.mp added
  obtain ⟨choices, -, added⟩ := Exec.bind_eq_ok.mp added
  have long_eq := copyText_eq copied
  subst long_eq
  refine ⟨_, (Exec.ok.inj added).symm, rfl, rfl, rfl, rfl, rfl, ?_, ?_, ucbVerify_ok fits⟩
  · intro named
    have fresh := of_decide_eq_true (ucbVerify_ok newShort)
    exact Option.isNone_iff_eq_none.mp (fresh.resolve_left named)
  · have fresh := ucbVerify_ok newLong
    cases found : opt.longName with
    | none => rfl
    | some long =>
        rw [found, Option.all_some] at fresh
        exact Option.isNone_iff_eq_none.mp fresh

/-! ## Tables of options -/

/-- A parser that successful calls of `ucb_arg_parser_add` have built. -/
def Built (p : UcbArgParser) : Prop :=
  ∃ version opts, ucbArgParserAddOptions (ucbArgParserNew version) opts = .ok p

/-- The action of an option has the type and the destination it needs. -/
def Fits (o : UcbArgOptImpl) : Prop :=
  match o.action with
  | .store => o.type ≠ .none ∧ o.dest.isSome
  | .storeTrue | .storeFalse | .count | .append => o.dest.isSome
  | .help | .version => True

/-- What holds of every parser that was built. -/
structure Declared (p : UcbArgParser) : Prop where
  short : ∀ (i j : Nat) (o o' : UcbArgOptImpl), p.opts[i]? = some o → p.opts[j]? = some o' →
    o.shortName ≠ 0 →
    o'.shortName = o.shortName → j = i
  long : ∀ (i j : Nat) (o o' : UcbArgOptImpl), p.opts[i]? = some o → p.opts[j]? = some o' →
    o.longName ≠ [] →
    o'.longName = o.longName → j = i
  fits : ∀ o ∈ p.opts, Fits o

theorem findShort_none {p : UcbArgParser} {c : UInt8} (none : findShort p c = none) {i : Nat}
    {o : UcbArgOptImpl} (present : p.opts[i]? = some o) : o.shortName ≠ c := by
  have member : (o, i) ∈ p.opts.zipIdx := List.mem_zipIdx_iff_getElem?.mpr present
  have other := List.find?_eq_none.mp none _ member
  simpa using other

theorem findLong_none {p : UcbArgParser} {name : List UInt8} (none : findLong p name = none)
    (named : name ≠ []) {i : Nat} {o : UcbArgOptImpl} (present : p.opts[i]? = some o) :
    o.longName ≠ name := by
  rw [findLong, if_neg named] at none
  have member : (o, i) ∈ p.opts.zipIdx := List.mem_zipIdx_iff_getElem?.mpr present
  have other := List.find?_eq_none.mp none _ member
  simpa using other

/-- A new last item that differs from the others keeps a table without two of one name. -/
theorem distinct_concat {α : Type} {items : List α} {item : α} (sameName : α → α → Prop)
    (symm : ∀ a b, sameName a b → sameName b a)
    (distinct : ∀ (i j : Nat) (a b : α), items[i]? = some a → items[j]? = some b →
      sameName a b → j = i)
    (fresh : ∀ (i : Nat) (a : α), items[i]? = some a → ¬ sameName a item) :
    ∀ (i j : Nat) (a b : α), (items ++ [item])[i]? = some a → (items ++ [item])[j]? = some b →
      sameName a b → j = i := by
  have split : ∀ (i : Nat) (a : α), (items ++ [item])[i]? = some a →
      items[i]? = some a ∨ (i = items.length ∧ a = item) := by
    intro i a present
    rw [List.getElem?_append] at present
    split at present
    · exact .inl present
    next outside =>
      rw [List.getElem?_singleton] at present
      split at present
      next last =>
        exact .inr ⟨by omega, (Option.some.inj present).symm⟩
      next => cases present
  intro i j a b here there same
  rcases split i a here with early | ⟨rfl, rfl⟩
  · rcases split j b there with early' | ⟨rfl, rfl⟩
    · exact distinct i j a b early early' same
    · exact absurd same (fresh i a early)
  · rcases split j b there with early' | ⟨rfl, rfl⟩
    · exact absurd (symm _ _ same) (fresh j b early')
    · rfl

theorem Declared.add {p after : UcbArgParser} {opt : UcbArgOpt} (declared : Declared p)
    (added : ucbArgParserAdd p opt = .ok after) : Declared after := by
  obtain ⟨o, rfl, addedAs⟩ := add_ok added
  constructor
  case short =>
    have distinct := distinct_concat
      (fun a b : UcbArgOptImpl => a.shortName ≠ 0 ∧ b.shortName = a.shortName)
      (fun a b same => ⟨same.2 ▸ same.1, same.2.symm⟩)
      (fun i j a b here there same => declared.short i j a b here there same.1 same.2)
      (fun i a here same => findShort_none (addedAs.newShort (same.2 ▸ same.1)) here same.2.symm)
    exact fun i j a b here there named same => distinct i j a b here there ⟨named, same⟩
  case long =>
    have distinct := distinct_concat
      (fun a b : UcbArgOptImpl => a.longName ≠ [] ∧ b.longName = a.longName)
      (fun a b same => ⟨same.2 ▸ same.1, same.2.symm⟩)
      (fun i j a b here there same => declared.long i j a b here there same.1 same.2)
      (fun i a here same =>
        findLong_none addedAs.newLong (same.2 ▸ same.1) here same.2.symm)
    exact fun i j a b here there named same => distinct i j a b here there ⟨named, same⟩
  case fits =>
    intro other member
    rcases List.mem_append.mp member with early | last
    · exact declared.fits other early
    · obtain rfl := List.mem_singleton.mp last
      have fits := addedAs.fits
      unfold actionFits at fits
      unfold Fits
      rw [addedAs.action, addedAs.type, addedAs.dest]
      cases action : opt.action with
      | store => simpa [action] using fits
      | storeTrue => simpa [action] using fits
      | storeFalse => simpa [action] using fits
      | count => simpa [action] using fits
      | append =>
          rw [action] at fits
          exact (of_decide_eq_true fits).1
      | help => trivial
      | version => trivial

theorem Built.declared {p : UcbArgParser} (built : Built p) : Declared p := by
  obtain ⟨version, opts, added⟩ := built
  have run : ∀ (opts : List UcbArgOpt) (first : UcbArgParser), Declared first →
      ucbArgParserAddOptions first opts = .ok p → Declared p := by
    intro opts
    induction opts with
    | nil =>
        intro first declared added
        obtain rfl := Exec.ok.inj added
        exact declared
    | cons opt rest inductionHypothesis =>
        intro first declared added
        obtain ⟨next, here, later⟩ := Exec.bind_eq_ok.mp added
        exact inductionHypothesis next (declared.add here) later
  refine run opts _ ⟨?_, ?_, ?_⟩ added
  · intro i j o o' present
    simp [ucbArgParserNew] at present
  · intro i j o o' present
    simp [ucbArgParserNew] at present
  · intro o member
    cases member

/-! ## Looking options up -/

theorem find_zipIdx {α : Type} {items : List α} {test : α × Nat → Bool} {item : α} {i : Nat}
    (present : items[i]? = some item) (passes : test (item, i) = true)
    (only : ∀ (j : Nat) (other : α), items[j]? = some other → test (other, j) = true → j = i) :
    items.zipIdx.find? test = some (item, i) := by
  have member : (item, i) ∈ items.zipIdx := List.mem_zipIdx_iff_getElem?.mpr present
  have found : (items.zipIdx.find? test).isSome := List.find?_isSome.mpr ⟨_, member, passes⟩
  obtain ⟨⟨other, j⟩, first⟩ := Option.isSome_iff_exists.mp found
  have there := List.mem_zipIdx_iff_getElem?.mp (List.mem_of_find?_eq_some first)
  obtain rfl := only j other there (List.find?_some first)
  rw [first, Option.some.inj (present.symm.trans there)]

theorem Declared.findShort {p : UcbArgParser} (declared : Declared p) {i : Nat}
    {o : UcbArgOptImpl} (present : p.opts[i]? = some o) (named : o.shortName ≠ 0) :
    Argparse.findShort p o.shortName = some (o, i) := by
  refine find_zipIdx present (beq_self_eq_true _) ?_
  intro j other there same
  exact declared.short i j o other present there named (eq_of_beq same)

theorem Declared.findLong {p : UcbArgParser} (declared : Declared p) {i : Nat}
    {o : UcbArgOptImpl} (present : p.opts[i]? = some o) (named : o.longName ≠ []) :
    Argparse.findLong p o.longName = some (o, i) := by
  rw [Argparse.findLong, if_neg named]
  refine find_zipIdx present (beq_self_eq_true _) ?_
  intro j other there same
  exact declared.long i j o other present there named (eq_of_beq same)

end Ucb.Argparse
