import Ucb.Lib.LexOrder
import Ucb.Unicode.CaseReference

/-!
Contract: case-insensitive comparison against case folding.

Owns:
- the folding iterator of `unicode.c` and `ucb_uc_icomp`;
- what an iterator has still to yield, and that each call yields the next codepoint of it;
- the comparison is the lexicographic order of what `ucb_uc_casefold` returns.

Two strings of different lengths at one address are not compared: the argument check on the short
way out aborts.
-/

namespace Ucb.Unicode

open Ucb.Lib

/-! ## The iterator -/

/-- `ucb_uc_fold_iter`; `pending` holds the codepoints in front of `pending_len`. -/
structure UcbUcFoldIter where
  pos : Nat
  ctx : CasemapCtx
  pending : List Nat
  pendingPos : Nat
deriving DecidableEq, Repr

def ucbUcFoldIterInit (tables : UcbUcRawCaseTables) : UcbUcFoldIter :=
  ⟨0, ⟨none, tables.noValue⟩, [], 0⟩

/-- `ucb_uc_fold_iter_next`: the codepoint, if there is one, and the iterator after the call. -/
def ucbUcFoldIterNext (tables : UcbUcRawCaseTables) (str : List UInt8) (len : Nat)
    (iter : UcbUcFoldIter) : Exec (Option Nat × UcbUcFoldIter) :=
  if iter.pendingPos < iter.pending.length then do
    let out ← tableAt iter.pending iter.pendingPos
    pure (some out, { iter with pendingPos := iter.pendingPos + 1 })
  else if iter.pos ≥ len then pure (none, iter)
  else do
    let (cp, pos) ← ucbUcNextValid str iter.pos
    let (ctx, values) ← ucbUcCaseMapCp tables .fold iter.ctx cp
    let out ← tableAt values 0
    pure (some out, ⟨pos, ctx, values, 1⟩)

/-! ## The comparison -/

def ucbComp (a b : Nat) : Int :=
  if a > b then 1 else if a < b then -1 else 0

/-- The endless loop of `ucb_uc_icomp`, for as many codepoints as `fuel` says. -/
def icompLoop (tables : UcbUcRawCaseTables) (str1 : List UInt8) (len1 : Nat) (str2 : List UInt8)
    (len2 : Nat) : Nat → UcbUcFoldIter → UcbUcFoldIter → Exec Int
  | 0, _, _ => .undefined
  | fuel + 1, iter1, iter2 => do
      let (c1, iter1) ← ucbUcFoldIterNext tables str1 len1 iter1
      let (c2, iter2) ← ucbUcFoldIterNext tables str2 len2 iter2
      match c1, c2 with
      | none, none => pure 0
      | none, some _ => pure (-1)
      | some _, none => pure 1
      | some c1, some c2 =>
          if c1 ≠ c2 then pure (ucbComp c1 c2)
          else icompLoop tables str1 len1 str2 len2 fuel iter1 iter2

/-- `ucb_uc_icomp`; `sameStart` is `str1 == str2`. No byte folds to more codepoints than a table
entry holds. -/
def ucbUcIcomp (tables : UcbUcRawCaseTables) (sameStart : Bool) (str1 : List UInt8) (len1 : Nat)
    (str2 : List UInt8) (len2 : Nat) : Exec Int :=
  if sameStart then do
    ucbVerify (decide (len1 = len2)) .invalidArg
    pure 0
  else
    icompLoop tables str1 len1 str2 len2 (tables.maxMultiLen * len1 + 1) (ucbUcFoldIterInit tables)
      (ucbUcFoldIterInit tables)

namespace UcbUcCaseTables

variable {tables : UcbUcCaseTables} {str : List UInt8} {len : Nat}

/-! ## What an iterator yields -/

/-- The codepoints that an iterator has still to yield: the pending ones, and what the rest of the
string folds to. -/
structure Yields (tables : UcbUcCaseTables) (str : List UInt8) (len : Nat) (iter : UcbUcFoldIter)
    (out : List Scalar) : Prop where
  rest : ∃ (last : Option Scalar) (before after : List UInt8) (pending cps : List Scalar),
    str = before ++ (encode cps ++ after) ∧ len = (before ++ encode cps).length ∧
      iter.pos = before.length ∧ iter.ctx = tables.ctxOf last ∧
        iter.pending.drop iter.pendingPos = scalarValues pending ∧
          out = pending ++ tables.carriedMap .fold last cps

theorem yields_init (cps : List Scalar) (after : List UInt8) :
    tables.Yields (encode cps ++ after) (encode cps).length
      (ucbUcFoldIterInit tables.toUcbUcRawCaseTables) (tables.carriedMap .fold none cps) :=
  ⟨none, [], after, [], cps, rfl, rfl, rfl, rfl, rfl, rfl⟩

theorem carriedPiece_length (op : UcbUcCaseOp) (last : Option Scalar) (cp : Scalar) :
    0 < (tables.carriedPiece op last cp).length ∧ (tables.carriedPiece op last cp).length ≤ 3 := by
  rw [carriedPiece]
  by_cases nul : cp.val = 0
  · rw [if_pos nul]
    exact ⟨Nat.one_pos, by simp⟩
  · rw [if_neg nul]
    exact tables.mapOne_length op _ cp

theorem carriedMap_length_le (op : UcbUcCaseOp) (cps : List Scalar) :
    ∀ last, (tables.carriedMap op last cps).length ≤ 3 * cps.length := by
  induction cps with
  | nil => exact fun last => Nat.le_refl _
  | cons cp rest inductionHypothesis =>
      intro last
      have piece := (tables.carriedPiece_length op last cp).2
      have later := inductionHypothesis (carried last cp)
      rw [carriedMap, List.length_append, List.length_cons]
      omega

theorem drop_eq_cons {α : Type} {values : List α} {pos : Nat} {first : α} {rest : List α}
    (dropped : values.drop pos = first :: rest) :
    pos < values.length ∧ tableAt values pos = .ok first ∧ values.drop (pos + 1) = rest := by
  have inside : pos < values.length := by
    by_contra outside
    rw [List.drop_eq_nil_of_le (Nat.le_of_not_lt outside)] at dropped
    cases dropped
  rw [List.drop_eq_getElem_cons inside] at dropped
  obtain ⟨rfl, rfl⟩ := List.cons.inj dropped
  refine ⟨inside, ?_, rfl⟩
  rw [tableAt, List.getElem?_eq_getElem inside]

theorem foldIterNext_end {iter : UcbUcFoldIter} (yields : tables.Yields str len iter []) :
    ucbUcFoldIterNext tables.toUcbUcRawCaseTables str len iter = .ok (none, iter) := by
  obtain ⟨last, before, after, pending, cps, rfl, rfl, pos, ctx, dropped, out⟩ := yields.rest
  obtain ⟨rfl, folded⟩ := List.append_eq_nil_iff.mp out.symm
  cases cps with
  | nil =>
      have none : ¬ iter.pendingPos < iter.pending.length :=
        Nat.not_lt.mpr (List.drop_eq_nil_iff.mp dropped)
      have atEnd : iter.pos ≥ (before ++ encode []).length := by
        rw [pos, encode_nil, List.append_nil]
      rw [ucbUcFoldIterNext, if_neg none, if_pos atEnd]
      rfl
  | cons cp rest =>
      have piece := (tables.carriedPiece_length .fold last cp).1
      rw [carriedMap] at folded
      rw [(List.append_eq_nil_iff.mp folded).1] at piece
      exact absurd piece (Nat.lt_irrefl 0)

/-- A call takes the next codepoint. -/
theorem foldIterNext_yields {iter : UcbUcFoldIter} {cp : Scalar} {out : List Scalar}
    (yields : tables.Yields str len iter (cp :: out)) :
    ∃ next, ucbUcFoldIterNext tables.toUcbUcRawCaseTables str len iter =
      .ok (some cp.val, next) ∧ tables.Yields str len next out := by
  obtain ⟨last, before, after, pending, cps, rfl, rfl, pos, ctx, dropped, folded⟩ := yields.rest
  rw [ucbUcFoldIterNext]
  cases pending with
  | cons first pending =>
      obtain ⟨rfl, rfl⟩ := List.cons.inj folded
      obtain ⟨inside, loaded, behind⟩ := drop_eq_cons dropped
      refine ⟨{ iter with pendingPos := iter.pendingPos + 1 }, ?_, ?_⟩
      · rw [if_pos inside, loaded]
        rfl
      · exact ⟨last, before, after, pending, cps, rfl, rfl, pos, ctx, behind, rfl⟩
  | nil =>
      have none : ¬ iter.pendingPos < iter.pending.length :=
        Nat.not_lt.mpr (List.drop_eq_nil_iff.mp dropped)
      rw [if_neg none]
      cases cps with
      | nil => cases folded
      | cons read rest =>
          have positive := encodeScalar_length_pos read
          have inside : ¬ iter.pos ≥ (before ++ encode (read :: rest)).length := by
            rw [pos, encode_cons, List.length_append, List.length_append]
            omega
          have decoded := nextValid_at before read (encode rest ++ after)
          have mapped := tables.caseMapCp_eq .fold last read
          rw [List.nil_append, carriedMap] at folded
          cases piece : tables.carriedPiece .fold last read with
          | nil =>
              have nonempty := (tables.carriedPiece_length .fold last read).1
              rw [piece] at nonempty
              exact absurd nonempty (Nat.lt_irrefl 0)
          | cons first pending =>
              rw [piece] at folded mapped
              obtain ⟨rfl, rfl⟩ := List.cons.inj folded
              refine ⟨⟨before.length + (encodeScalar read).length, tables.ctxOf (carried last read),
                scalarValues (cp :: pending), 1⟩, ?_, ?_⟩
              · rw [if_neg inside, pos, ctx, encode_cons, List.append_assoc, decoded, Exec.ok_bind]
                dsimp only
                rw [mapped]
                rfl
              · refine ⟨carried last read, before ++ encodeScalar read, after, pending, rest, ?_,
                  ?_,
                  ?_, rfl, rfl, rfl⟩
                · rw [encode_cons, List.append_assoc, List.append_assoc]
                · rw [encode_cons, List.append_assoc]
                · exact List.length_append.symm

/-! ## The loop -/

def CodepointLt (left right : Scalar) : Prop :=
  left.val < right.val

instance : Std.Irrefl CodepointLt :=
  ⟨fun cp => Nat.lt_irrefl cp.val⟩

instance : IsTrans Scalar CodepointLt :=
  ⟨fun _ _ _ before further => Nat.lt_trans before further⟩

instance : Std.Trichotomous CodepointLt :=
  ⟨fun _ _ notBefore notBehind =>
    Subtype.ext (Nat.le_antisymm (Nat.le_of_not_lt notBehind) (Nat.le_of_not_lt notBefore))⟩

/-- The loop goes on in step until one side is at its end or the codepoints differ. -/
theorem icompLoop_sign {str1 str2 : List UInt8} {len1 len2 : Nat} (left : List Scalar) :
    ∀ right fuel iter1 iter2, tables.Yields str1 len1 iter1 left →
      tables.Yields str2 len2 iter2 right → left.length < fuel →
      ∃ sign, icompLoop tables.toUcbUcRawCaseTables str1 len1 str2 len2 fuel iter1 iter2 =
        .ok sign ∧ SignIsLex CodepointLt left right sign := by
  induction left with
  | nil =>
      intro right fuel iter1 iter2 yields1 yields2 enough
      obtain ⟨fuel, rfl⟩ := Nat.exists_eq_succ_of_ne_zero (Nat.ne_of_gt enough)
      rw [icompLoop, foldIterNext_end yields1, Exec.ok_bind]
      cases right with
      | nil =>
          rw [foldIterNext_end yields2]
          refine ⟨0, rfl, ?_, ?_⟩
          · exact iff_of_false (Int.lt_irrefl 0) (not_lex_self [])
          · exact iff_of_false (Int.lt_irrefl 0) (not_lex_self [])
      | cons cp right =>
          obtain ⟨next, taken, -⟩ := foldIterNext_yields yields2
          rw [taken]
          have before : List.Lex CodepointLt [] (cp :: right) := .nil
          refine ⟨-1, rfl, iff_of_true (by decide) before, ?_⟩
          exact iff_of_false (by decide) (not_lex_swapped before)
  | cons cp left inductionHypothesis =>
      intro right fuel iter1 iter2 yields1 yields2 enough
      obtain ⟨fuel, rfl⟩ := Nat.exists_eq_succ_of_ne_zero (Nat.ne_of_gt (Nat.zero_lt_of_lt enough))
      obtain ⟨next1, taken1, later1⟩ := foldIterNext_yields yields1
      rw [icompLoop, taken1, Exec.ok_bind]
      cases right with
      | nil =>
          rw [foldIterNext_end yields2]
          have behind : List.Lex CodepointLt [] (cp :: left) := .nil
          refine ⟨1, rfl, ?_, iff_of_true (by decide) behind⟩
          exact iff_of_false (by decide) (not_lex_swapped behind)
      | cons other right =>
          obtain ⟨next2, taken2, later2⟩ := foldIterNext_yields yields2
          rw [taken2]
          dsimp only [Exec.ok_bind]
          rcases Nat.lt_trichotomy cp.val other.val with smaller | same | larger
          · have before : List.Lex CodepointLt (cp :: left) (other :: right) := .rel smaller
            refine ⟨-1, ?_, iff_of_true (by decide) before,
              iff_of_false (by decide) (not_lex_swapped before)⟩
            rw [if_pos (Nat.ne_of_lt smaller), ucbComp, if_neg (Nat.lt_asymm smaller),
              if_pos smaller]
            rfl
          · obtain rfl := Subtype.ext same
            obtain ⟨sign, compared, isLex⟩ := inductionHypothesis right fuel next1 next2 later1
              later2 (Nat.lt_of_succ_lt_succ enough)
            refine ⟨sign, ?_, ?_, ?_⟩
            · rw [if_neg (fun differ => differ rfl)]
              exact compared
            · rw [isLex.before, List.lex_cons_iff]
            · rw [isLex.behind, List.lex_cons_iff]
          · have behind : List.Lex CodepointLt (other :: right) (cp :: left) := .rel larger
            refine ⟨1, ?_, iff_of_false (by decide) (not_lex_swapped behind),
              iff_of_true (by decide) behind⟩
            rw [if_pos (Nat.ne_of_gt larger), ucbComp, if_pos larger]
            rfl

/-! ## Against the folded strings -/

/-- Two texts in memory: what lies behind their bytes, and whether they have one address. -/
structure Placed (a b : List Scalar) where
  sameStart : Bool
  after1 : List UInt8
  after2 : List UInt8
  oneMemory : sameStart = true → encode a ++ after1 = encode b ++ after2

/-- Texts at one address have one length. -/
def Placed.Accepted {a b : List Scalar} (placed : Placed a b) : Prop :=
  placed.sameStart = true → (encode a).length = (encode b).length

/-- The comparison of two texts in memory. -/
def icompOf (tables : UcbUcCaseTables) {a b : List Scalar} (placed : Placed a b) : Exec Int :=
  ucbUcIcomp tables.toUcbUcRawCaseTables placed.sameStart (encode a ++ placed.after1)
    (encode a).length (encode b ++ placed.after2) (encode b).length

theorem Placed.Accepted.eq {a b : List Scalar} {placed : Placed a b} (accepted : placed.Accepted)
    (same : placed.sameStart = true) : a = b :=
  encode_injective (List.append_inj (placed.oneMemory same) (accepted same)).1

/-- The sign of a comparison is the order of the folded texts. -/
theorem icompOf_sign {a b : List Scalar} {placed : Placed a b} (accepted : placed.Accepted) :
    ∃ sign, tables.icompOf placed = .ok sign ∧ SignIsLex CodepointLt
      (tables.carriedMap .fold none a) (tables.carriedMap .fold none b) sign := by
  rw [icompOf, ucbUcIcomp]
  by_cases same : placed.sameStart = true
  · obtain rfl := accepted.eq same
    rw [if_pos same, ucbVerify, decide_eq_true rfl]
    refine ⟨0, rfl, ?_, ?_⟩
    · exact iff_of_false (Int.lt_irrefl 0) (not_lex_self _)
    · exact iff_of_false (Int.lt_irrefl 0) (not_lex_self _)
  · rw [if_neg same]
    have entries := tables.carriedMap_length_le .fold a none
    have bytes := length_le_encode_length a
    have larger := Nat.mul_le_mul tables.multiLen bytes
    exact icompLoop_sign _ _ _ _ _ (yields_init a placed.after1) (yields_init b placed.after2)
      (by omega)

/-- The comparison of accepted texts agrees with case folding, and it is a total preorder. -/
structure AgreesWithCasefold (tables : UcbUcCaseTables) : Prop where
  sign : ∀ {a b : List Scalar} (placed : Placed a b), placed.Accepted →
    ∃ foldA foldB result, tables.Maps .fold a foldA ∧ tables.Maps .fold b foldB ∧
      tables.icompOf placed = .ok result ∧ SignIsLex CodepointLt foldA foldB result
  zero : ∀ {a b : List Scalar} (placed : Placed a b), placed.Accepted →
    ∀ foldA foldB, tables.Maps .fold a foldA → tables.Maps .fold b foldB →
      (tables.icompOf placed = .ok 0 ↔ foldA = foldB)
  reflexive : ∀ {a : List Scalar} (placed : Placed a a), tables.icompOf placed = .ok 0
  total : ∀ {a b : List Scalar} (placed : Placed a b) (swapped : Placed b a), placed.Accepted →
    swapped.Accepted → ∀ x y, tables.icompOf placed = .ok x → tables.icompOf swapped = .ok y →
      (x < 0 ↔ 0 < y) ∧ (0 < x ↔ y < 0)
  transitive : ∀ {a b c : List Scalar} (first : Placed a b) (later : Placed b c)
    (whole : Placed a c), first.Accepted → later.Accepted → whole.Accepted → ∀ x y z,
      tables.icompOf first = .ok x → tables.icompOf later = .ok y →
        tables.icompOf whole = .ok z → x ≤ 0 → y ≤ 0 → z ≤ 0
  refused : ∀ {a b : List Scalar} (placed : Placed a b), ¬ placed.Accepted →
    tables.icompOf placed = .abort .invalidArg

theorem icomp_casefold (tables : UcbUcCaseTables) : tables.AgreesWithCasefold := by
  have sign {a b : List Scalar} {placed : Placed a b} {result : Int} (accepted : placed.Accepted)
      (compared : tables.icompOf placed = .ok result) : SignIsLex CodepointLt
        (tables.carriedMap .fold none a) (tables.carriedMap .fold none b) result := by
    obtain ⟨found, compared', isLex⟩ := tables.icompOf_sign accepted
    rw [compared] at compared'
    rwa [Exec.ok.inj compared']
  constructor
  case sign =>
    intro a b placed accepted
    obtain ⟨result, compared, isLex⟩ := tables.icompOf_sign accepted
    exact ⟨_, _, result, maps_iff.mpr rfl, maps_iff.mpr rfl, compared, isLex⟩
  case zero =>
    intro a b placed accepted foldA foldB mapsA mapsB
    obtain ⟨result, compared, isLex⟩ := tables.icompOf_sign accepted
    rw [compared, Exec.ok.injEq, isLex.zero_iff, maps_iff.mp mapsA, maps_iff.mp mapsB]
  case reflexive =>
    intro a placed
    have accepted : placed.Accepted := fun _ => rfl
    obtain ⟨result, compared, isLex⟩ := tables.icompOf_sign accepted
    rw [compared, isLex.zero_iff.mpr rfl]
  case total =>
    intro a b placed swapped accepted accepted' x y forward backward
    exact (sign accepted forward).swap (sign accepted' backward)
  case transitive =>
    intro a b c first later whole accepted1 accepted2 accepted3 x y z compared1 compared2 compared3
    exact (sign accepted1 compared1).trans (sign accepted2 compared2) (sign accepted3 compared3)
  case refused =>
    intro a b placed refused
    obtain ⟨same, differ⟩ := Classical.not_imp.mp refused
    rw [icompOf, ucbUcIcomp, if_pos same, ucbVerify, decide_eq_false differ]
    rfl

theorem isScalar_a : IsScalar 0x61 := by
  decide

theorem isScalar_b : IsScalar 0x62 := by
  decide

/-- A text and a longer one that begins at the same address. -/
def letterInFront : Placed [⟨0x61, isScalar_a⟩] [⟨0x61, isScalar_a⟩, ⟨0x62, isScalar_b⟩] where
  sameStart := true
  after1 := [0x62]
  after2 := []
  oneMemory := fun _ => rfl

/-- They are not compared. -/
theorem icomp_one_address :
    letterTables.icompOf letterInFront = .abort .invalidArg ∧
      ¬ ∀ (tables : UcbUcCaseTables) (a b : List Scalar) (placed : Placed a b),
        ∃ sign, tables.icompOf placed = .ok sign := by
  have aborts : letterTables.icompOf letterInFront = .abort .invalidArg := rfl
  refine ⟨aborts, fun compares => ?_⟩
  obtain ⟨sign, compared⟩ := compares letterTables _ _ letterInFront
  cases aborts.symm.trans compared

end UcbUcCaseTables

end Ucb.Unicode
