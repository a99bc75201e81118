import Ucb.Path.Canonical

/-!
Contract: a file name in its stem and its extension.

Owns:
- the rule `path.h` gives for the split;
- the scan for the dot, and exactly which names it splits by that rule.

The scan skips a dot at the end of the name, and takes the dot in front of it
if there is one.
-/

namespace Ucb.Path

/-- The rule of `path.h`: a leading run of dots is in the stem, the extension starts
at the last dot behind it, and a dot at the end starts none. -/
structure FollowsRule (name stem ext : List UInt8) : Prop where
  whole : stem ++ ext = name
  shape : ext = [] ∨ ∃ rest, ext = dot :: rest ∧ rest ≠ [] ∧ dot ∉ rest
  leading : name.takeWhile (· == dot) <+: stem
  trailing : name.getLast? = some dot → ext = []
  last : ∀ front rest, name = front ++ dot :: rest → dot ∉ rest → rest ≠ [] →
    (∃ c ∈ front, c ≠ dot) → ext = dot :: rest

/-- No dot but the leading ones is in front of a dot at the end. -/
def LastDotAlone (name : List UInt8) : Prop :=
  ∀ front rest, name = front ++ dot :: (rest ++ [dot]) → ∀ c ∈ front, c = dot

section Scan

variable {cstr front rest : List UInt8} {start i : Nat}

theorem filenameDot_some {found : Nat} (scan : filenameDot cstr start i = some found) :
    found < i ∧ start ≤ found ∧ cstr[found]? = some dot ∧
      ∀ k, found < k → k < i → cstr[k]? ≠ some dot := by
  induction i with
  | zero => simp [filenameDot] at scan
  | succ i inductionHypothesis =>
      simp only [filenameDot] at scan
      split at scan
      next => cases scan
      next behind =>
        split at scan
        next => cases scan
        next =>
          split at scan
          next here =>
            obtain rfl := Option.some.inj scan
            exact ⟨by omega, by omega, here, fun k above below => by omega⟩
          next other =>
            obtain ⟨inside, inName, isDot, none⟩ := inductionHypothesis scan
            refine ⟨by omega, inName, isDot, fun k above below => ?_⟩
            by_cases last : k = i
            · exact last ▸ other
            · exact none k above (by omega)

/-- What a scan without result has passed. -/
theorem filenameDot_none (scan : filenameDot cstr start i = none) :
    ∀ k, start ≤ k → 0 < k → k < i → cstr[k]? ≠ some dot := by
  induction i with
  | zero => exact fun k _ _ below => absurd below (Nat.not_lt_zero k)
  | succ i inductionHypothesis =>
      simp only [filenameDot] at scan
      intro k inName positive below
      split at scan
      next => omega
      next =>
        split at scan
        next => omega
        next =>
          split at scan
          next => cases scan
          next other =>
            by_cases last : k = i
            · exact last ▸ other
            · exact inductionHypothesis scan k inName positive (by omega)

/-- A dot is behind the leading run exactly if something else is in front of it. -/
theorem leading_le_iff :
    ((front ++ dot :: rest).takeWhile (· == dot)).length ≤ front.length ↔
      ∃ c ∈ front, c ≠ dot := by
  by_cases dots : ∀ c ∈ front, c = dot
  · have whole : front.takeWhile (· == dot) = front :=
      List.takeWhile_eq_self_iff.mpr fun c member => beq_iff_eq.mpr (dots c member)
    have more : (front ++ dot :: rest).takeWhile (· == dot) =
        front ++ dot :: rest.takeWhile (· == dot) := by
      rw [List.takeWhile_append, whole, if_pos rfl]
      simp
    refine iff_of_false ?_ fun ⟨c, member, other⟩ => other (dots c member)
    rw [more, List.length_append, List.length_cons]
    omega
  · have some : ∃ c ∈ front, c ≠ dot := by
      by_contra none
      exact dots fun c member => by_contra fun other => none ⟨c, member, other⟩
    have broken : front.takeWhile (· == dot) ≠ front := fun same =>
      dots fun c member => beq_iff_eq.mp (List.takeWhile_eq_self_iff.mp same c member)
    have short : (front.takeWhile (· == dot)).length ≠ front.length := fun same =>
      broken ((List.takeWhile_prefix _).eq_of_length same)
    refine iff_of_true ?_ some
    rw [List.takeWhile_append, if_neg short]
    exact (List.takeWhile_prefix _).length_le

end Scan

/-- A name is not split, or at a dot with something else in front of it and something
behind it, of which only the end may be a dot. -/
theorem parseFilename_cases (name : List UInt8) :
    (pathParseFilename name = (name, []) ∧
        ∀ front rest, name = front ++ dot :: rest → rest ≠ [] → ∀ c ∈ front, c = dot) ∨
      ∃ front rest, name = front ++ dot :: rest ∧
        pathParseFilename name = (front, dot :: rest) ∧ (∃ c ∈ front, c ≠ dot) ∧ rest ≠ [] ∧
        dot ∉ rest.dropLast := by
  rw [pathParseFilename]
  generalize scanned : (if name.length ≥ 2 then
    filenameDot name (name.takeWhile (· == dot)).length (name.length - 1) else none) = result
  cases result with
  | none =>
      refine .inl ⟨rfl, fun front rest split nonempty => ?_⟩
      by_contra other
      obtain ⟨c, member, different⟩ : ∃ c ∈ front, c ≠ dot := by simpa using other
      have positive : 0 < front.length := List.length_pos_of_mem member
      have more : 0 < rest.length := List.length_pos_iff.mpr nonempty
      have total : name.length = front.length + 1 + rest.length := by
        rw [split, List.length_append, List.length_cons]
        omega
      rw [if_pos (by omega)] at scanned
      refine filenameDot_none scanned front.length ?_ positive (by omega) (by simp [split])
      rw [split]
      exact leading_le_iff.mpr ⟨c, member, different⟩
  | some found =>
      have atLeastTwo : name.length ≥ 2 := by
        by_contra short
        rw [if_neg short] at scanned
        cases scanned
      rw [if_pos atLeastTwo] at scanned
      obtain ⟨inside, behind, isDot, none⟩ := filenameDot_some scanned
      have within : found < name.length := by omega
      have split : name = name.take found ++ dot :: name.drop (found + 1) := by
        have item : name[found] = dot := by
          rw [List.getElem?_eq_getElem within] at isDot
          exact Option.some.inj isDot
        rw [← item, List.cons_getElem_drop_succ, List.take_append_drop]
      have long : (name.take found).length = found := by
        rw [List.length_take]
        omega
      refine .inr ⟨name.take found, name.drop (found + 1), split, ?_, ?_, ?_, ?_⟩
      · have tail : name.drop found = dot :: name.drop (found + 1) := by
          conv_lhs => rw [split]
          rw [List.drop_append_of_le_length (by omega), List.drop_of_length_le (by omega),
            List.nil_append]
        show (name.take found, name.drop found) = _
        rw [tail]
      · have reached : ((name.take found ++ dot :: name.drop (found + 1)).takeWhile
            (· == dot)).length ≤ (name.take found).length := by
          rw [← split, long]
          exact behind
        exact leading_le_iff.mp reached
      · intro empty
        have lengths := congrArg List.length empty
        rw [List.length_drop, List.length_nil] at lengths
        omega
      · intro member
        obtain ⟨k, below, item⟩ := List.getElem_of_mem member
        rw [List.length_dropLast, List.length_drop] at below
        refine none (found + 1 + k) (by omega) (by omega) ?_
        rw [List.getElem_dropLast, List.getElem_drop] at item
        rw [List.getElem?_eq_getElem (by omega), item]

/-- A dot at the end that starts no extension is behind the leading run only. -/
theorem lastDotAlone_of_split {name front rest : List UInt8} (split : name = front ++ dot :: rest)
    (something : ∃ c ∈ front, c ≠ dot) (nonempty : rest ≠ []) (alone : LastDotAlone name) :
    rest.getLast? ≠ some dot := by
  intro ends
  obtain ⟨before, rfl⟩ := List.getLast?_eq_some_iff.mp ends
  obtain ⟨c, member, other⟩ := something
  exact other (alone front before split c member)

/-- A name is split by the rule exactly if a dot at its end is the only one behind the
leading run. -/
theorem filename_follows_rule_iff (name : List UInt8) :
    FollowsRule name (pathParseFilename name).1 (pathParseFilename name).2 ↔ LastDotAlone name := by
  rcases parseFilename_cases name with
    ⟨parsed, unsplit⟩ | ⟨front, rest, split, parsed, something, nonempty, noDot⟩
  · rw [parsed]
    refine iff_of_true ⟨List.append_nil name, .inl rfl, List.takeWhile_prefix _, fun _ => rfl, ?_⟩
      fun front rest split => unsplit front (rest ++ [dot]) split (by simp)
    intro front rest split _ nonempty something
    obtain ⟨c, member, other⟩ := something
    exact absurd (unsplit front rest split nonempty c member) other
  · rw [parsed]
    have ends : name.getLast? = rest.getLast? := by
      rw [split, List.getLast?_append_of_ne_nil _ (List.cons_ne_nil dot rest),
        List.getLast?_cons_of_ne_nil nonempty]
    constructor
    · rintro rule before middle whole
      have isLast : name.getLast? = some dot := by
        rw [whole, ← List.cons_append, ← List.append_assoc, List.getLast?_concat]
      exact absurd (rule.trailing isLast) (List.cons_ne_nil dot rest)
    · intro alone
      have lastOther := lastDotAlone_of_split split something nonempty alone
      have clean : dot ∉ rest := by
        intro member
        rw [← List.dropLast_append_getLast nonempty, List.mem_append] at member
        rcases member with inside | last
        · exact noDot inside
        · rw [List.mem_singleton] at last
          exact lastOther (by rw [List.getLast?_eq_some_getLast nonempty, ← last])
      refine ⟨split.symm, .inr ⟨rest, rfl, nonempty, clean⟩, ?_, ?_, ?_⟩
      · rw [split]
        exact List.prefix_of_prefix_length_le (List.takeWhile_prefix _)
          (List.prefix_append front _) (leading_le_iff.mpr something)
      · intro isLast
        exact absurd (ends ▸ isLast) lastOther
      · intro before after whole noDotAfter _ _
        have same : front ++ dot :: rest = before ++ dot :: after := split.symm.trans whole
        rcases List.append_eq_append_iff.mp same with ⟨more, rfl, tail⟩ | ⟨more, rfl, tail⟩
        · cases more with
          | nil => exact tail
          | cons c more =>
              obtain ⟨-, rfl⟩ := List.cons_eq_cons.mp tail
              exact absurd (by simp) clean
        · cases more with
          | nil => exact tail.symm
          | cons c more =>
              obtain ⟨-, rfl⟩ := List.cons_eq_cons.mp tail
              exact absurd (by simp) noDotAfter

/-- `a..` gets the extension `..`. -/
theorem filename_twoDots :
    ¬ FollowsRule [0x61, dot, dot] (pathParseFilename [0x61, dot, dot]).1
      (pathParseFilename [0x61, dot, dot]).2 := by
  intro rule
  have none : (pathParseFilename [0x61, dot, dot]).2 = [] := rule.trailing rfl
  cases none

end Ucb.Path
