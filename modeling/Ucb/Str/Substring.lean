import Ucb.Str.Exact

/-!
Contract: `ucb_str_substr` in terms of contents.

Owns:
- codepoint boundaries, and that the bytes between two of them are text;
- that a range that is not empty, or is at the end, becomes exactly its bytes;
- what becomes of the other empty ranges, for which the constructor measures.
-/

namespace Ucb.Str

open Ucb.Unicode

/-! ## Boundaries -/

/-- A byte position between codepoints. -/
structure CodepointBoundary (text : List UInt8) (pos : Nat) : Prop where
  inside : pos ≤ text.length
  front : ValidUtf8 (text.take pos)
  back : ValidUtf8 (text.drop pos)

/-- What follows a valid beginning of a valid text is valid. -/
theorem validUtf8_rest {front rest : List UInt8} (before : ValidUtf8 front)
    (whole : ValidUtf8 (front ++ rest)) : ValidUtf8 rest := by
  obtain ⟨beforeCps, rfl⟩ := before
  obtain ⟨cps, split⟩ := whole
  obtain ⟨restCps, rfl⟩ : beforeCps <+: cps :=
    utf8.prefix_of_encodeAll_prefix ⟨rest, split⟩
  rw [encode_append] at split
  exact ⟨restCps, List.append_cancel_left split⟩

def bytesBetween (text : List UInt8) (start stop : Nat) : List UInt8 :=
  (text.drop start).take (stop - start)

/-- `substr` is asked for a range between codepoint boundaries; no `stop` is the end. -/
structure SubstrRange (str : UcbStr) (start : Nat) (stop : Option Nat) : Prop where
  ordered : start ≤ stop.getD str.size
  start : CodepointBoundary str.text start
  stop : CodepointBoundary str.text (stop.getD str.size)

theorem isText_bytesBetween {text : List UInt8} {start stop : Nat} (isText : IsText text)
    (ordered : start ≤ stop) (first : CodepointBoundary text start)
    (last : CodepointBoundary text stop) : IsText (bytesBetween text start stop) := by
  constructor
  · have split : text.take stop = text.take start ++ bytesBetween text start stop := by
      calc text.take stop
          = (text.take stop).take start ++ (text.take stop).drop start :=
            (List.take_append_drop _ _).symm
        _ = text.take start ++ bytesBetween text start stop := by
            rw [List.take_take, Nat.min_eq_left ordered, bytesBetween, List.drop_take]
    exact validUtf8_rest first.front (split ▸ last.front)
  · intro member
    exact isText.noNul (List.mem_of_mem_drop (List.mem_of_mem_take member))

/-! ## The new string -/

/-- The text the constructor takes: for an empty range everything from `start` on. -/
def substrText (str : UcbStr) (start stop : Nat) : List UInt8 :=
  if start < stop then bytesBetween str.text start stop else str.text.drop start

variable {str : UcbStr} {start : Nat} {stop : Option Nat}

/-- It is the bytes of the range exactly if the range is not empty or at the end. -/
theorem substrText_eq_iff {stop : Nat} (ordered : start ≤ stop)
    (inside : start ≤ str.text.length) :
    substrText str start stop = bytesBetween str.text start stop ↔
      start < stop ∨ start = str.text.length := by
  rw [substrText]
  by_cases nonempty : start < stop
  · simp [nonempty]
  · obtain rfl : start = stop := by omega
    rw [if_neg nonempty, bytesBetween, Nat.sub_self, List.take_zero, List.drop_eq_nil_iff]
    omega

theorem bytesBetween_length {text : List UInt8} {stop : Nat} (inside : stop ≤ text.length) :
    (bytesBetween text start stop).length = stop - start := by
  rw [bytesBetween, List.length_take, List.length_drop]
  omega

theorem substrText_isText (valid : RepInv str) (range : SubstrRange str start stop) :
    IsText (substrText str start (stop.getD str.size)) := by
  rw [substrText]
  split
  · exact isText_bytesBetween valid.isText range.ordered range.start range.stop
  · exact ⟨range.start.back, fun member => valid.isText.noNul (List.mem_of_mem_drop member)⟩

/-- Past its checks `substr` hands the constructor the data from `start` on. -/
theorem substr_eq (allocator : Allocator) (ordered : start ≤ stop.getD str.size)
    (inside : stop.getD str.size ≤ str.size) {mem : List UInt8} (load : str.data.load = .ok mem) :
    ucbStrSubstr allocator str start stop =
      ucbStrInit allocator (some (mem.drop start)) (stop.getD str.size - start) := by
  have accepted : (stop.all fun stop => decide (start ≤ stop ∧ stop ≤ str.size)) = true := by
    cases stop with
    | none => rfl
    | some stop => exact decide_eq_true ⟨ordered, inside⟩
  have verified : ucbVerify (stop.all fun stop => decide (start ≤ stop ∧ stop ≤ str.size))
      .invalidArg = .ok () := by
    rw [accepted]
    rfl
  rw [ucbStrSubstr, verified, Exec.ok_bind]
  simp only [Nat.not_lt.mpr ordered, if_false, load, Exec.ok_bind]

/-- The memory and the size handed over denote that text. -/
theorem substr_denotes (valid : RepInv str) (range : SubstrRange str start stop) :
    ∃ mem, str.data.load = .ok mem ∧ DenotesAt (mem.drop start) (stop.getD str.size - start)
      (substrText str start (stop.getD str.size)) := by
  obtain ⟨spare, load⟩ := valid.holds_text.load_terminated valid.terminated
  have inside := range.stop.inside
  have ordered := range.ordered
  generalize stop.getD str.size = stop at inside ordered ⊢
  refine ⟨_, load, ?_⟩
  rw [List.drop_append_of_le_length range.start.inside, substrText]
  by_cases nonempty : start < stop
  · have length : (bytesBetween str.text start stop).length = stop - start :=
      bytesBetween_length inside
    have split : str.text.drop start = bytesBetween str.text start stop ++
        (str.text.drop start).drop (stop - start) := (List.take_append_drop _ _).symm
    have notNil : bytesBetween str.text start stop ≠ [] := by
      rw [ne_eq, ← List.length_eq_zero_iff, length]
      omega
    rw [if_pos nonempty, split, List.append_assoc, ← length]
    exact .counted _ _ notNil
  · have zero : stop - start = 0 := by omega
    rw [if_neg nonempty, zero]
    exact .measured _ _

/-- What `substr` returns: the text the constructor takes, or nothing if its memory is
refused. -/
theorem substr_cases (valid : RepInv str) (range : SubstrRange str start stop)
    (allocator : Allocator) : ∃ made done,
      ucbStrSubstr allocator str start stop = .ok (made, done) ∧
      (done = true → RepInv made ∧ made.text = substrText str start (stop.getD str.size)) ∧
      done = allocator.grants .malloc ((substrText str start (stop.getD str.size)).length + 1) := by
  obtain ⟨mem, load, denotes⟩ := substr_denotes valid range
  have isText := substrText_isText valid range
  have inside : stop.getD str.size ≤ str.size := by
    have stopInside := range.stop.inside
    rwa [← valid.holds_text.size_eq] at stopInside
  rw [substr_eq allocator range.ordered inside load]
  by_cases granted :
      allocator.grants .malloc ((substrText str start (stop.getD str.size)).length + 1) = true
  · obtain ⟨made, ran, exact_, text⟩ := init_granted ⟨.null, 0, 0⟩ granted isText denotes
    exact ⟨made, true, ran, fun _ => ⟨exact_.valid, text⟩, granted.symm⟩
  · have ran := init_refused ⟨.null, 0, 0⟩ granted isText denotes
    have refused := Bool.eq_false_of_not_eq_true granted
    exact ⟨_, false, ran, fun impossible => absurd impossible Bool.false_ne_true, refused.symm⟩

/-! ## Ranges and parts -/

/-- A new string of exactly the bytes of the range, or none if its memory is refused. -/
def SubstrMeets (allocator : Allocator) (str : UcbStr) (start : Nat) (stop : Option Nat) : Prop :=
  ∃ made done, ucbStrSubstr allocator str start stop = .ok (made, done) ∧
    (done = true → RepInv made ∧ made.text = bytesBetween str.text start (stop.getD str.size)) ∧
    (done = false → allocator.grants .malloc (stop.getD str.size - start + 1) = false)

def willing : Allocator :=
  ⟨fun _ _ => true, fun _ => 0⟩

theorem substr_meets_iff (valid : RepInv str) (range : SubstrRange str start stop) :
    (∀ allocator, SubstrMeets allocator str start stop) ↔
      start < stop.getD str.size ∨ start = str.size := by
  have startInside := range.start.inside
  have length : (bytesBetween str.text start (stop.getD str.size)).length =
      stop.getD str.size - start := bytesBetween_length range.stop.inside
  have taken := substrText_eq_iff range.ordered startInside
  rw [← valid.holds_text.size_eq] at taken
  rw [← taken]
  constructor
  · intro meets
    obtain ⟨made, done, ran, exactly, -⟩ := meets willing
    obtain ⟨made', done', ran', holds, granted⟩ := substr_cases valid range willing
    rw [ran] at ran'
    obtain ⟨rfl, rfl⟩ := Prod.mk.inj (Exec.ok.inj ran')
    have success : done = true := granted
    rw [← (holds success).2, (exactly success).2]
  · intro same allocator
    obtain ⟨made, done, ran, holds, granted⟩ := substr_cases valid range allocator
    rw [same, length] at granted
    rw [same] at holds
    exact ⟨made, done, ran, holds, fun failed => granted.symm.trans failed⟩

/-- The two parts of the string at `k` make up the string. -/
def Reassembles (str : UcbStr) (k : Nat) : Prop :=
  ∀ allocator front back, ucbStrSubstr allocator str 0 (some k) = .ok (front, true) →
    ucbStrSubstr allocator str k (some str.size) = .ok (back, true) →
      front.text ++ back.text = str.text

theorem boundary_zero (valid : RepInv str) : CodepointBoundary str.text 0 :=
  ⟨Nat.zero_le _, isText_nil.valid, valid.isText.valid⟩

theorem boundary_size (valid : RepInv str) : CodepointBoundary str.text str.size := by
  rw [valid.holds_text.size_eq]
  refine ⟨Nat.le_refl _, ?_, ?_⟩
  · rw [List.take_length]
    exact valid.isText.valid
  · rw [List.drop_length]
    exact isText_nil.valid

/-- The parts of a string that is not empty make it up, except at the front. -/
theorem reassembles_iff (valid : RepInv str) {k : Nat} (boundary : CodepointBoundary str.text k) :
    Reassembles str k ↔ 0 < k ∨ str.size = 0 := by
  have size := valid.holds_text.size_eq
  have inside : k ≤ str.size := size ▸ boundary.inside
  have frontRange : SubstrRange str 0 (some k) :=
    ⟨Nat.zero_le k, boundary_zero valid, boundary⟩
  have backRange : SubstrRange str k (some str.size) := ⟨inside, boundary, boundary_size valid⟩
  have front_eq : substrText str 0 k = if 0 < k then str.text.take k else str.text := by
    simp [substrText, bytesBetween]
  have back_eq : substrText str k str.size = str.text.drop k := by
    rw [substrText, bytesBetween, List.take_of_length_le, ite_self]
    rw [List.length_drop, size]
  constructor
  · intro reassembles
    obtain ⟨front, frontDone, frontRan, frontHolds, frontGranted⟩ :=
      substr_cases valid frontRange willing
    obtain ⟨back, backDone, backRan, backHolds, backGranted⟩ :=
      substr_cases valid backRange willing
    obtain rfl : frontDone = true := frontGranted
    obtain rfl : backDone = true := backGranted
    have whole := reassembles willing front back frontRan backRan
    rw [(frontHolds rfl).2, (backHolds rfl).2, Option.getD_some, Option.getD_some, front_eq,
      back_eq] at whole
    have lengths := congrArg List.length whole
    split at lengths
    · rename_i positive
      exact .inl positive
    · rw [List.length_append, List.length_drop, ← size] at lengths
      omega
  · intro condition allocator front back frontRan backRan
    obtain ⟨front', done, ran, frontHolds, -⟩ := substr_cases valid frontRange allocator
    rw [frontRan] at ran
    obtain ⟨rfl, rfl⟩ := Prod.mk.inj (Exec.ok.inj ran)
    obtain ⟨back', done, ran, backHolds, -⟩ := substr_cases valid backRange allocator
    rw [backRan] at ran
    obtain ⟨rfl, rfl⟩ := Prod.mk.inj (Exec.ok.inj ran)
    rw [(frontHolds rfl).2, (backHolds rfl).2, Option.getD_some, Option.getD_some, front_eq,
      back_eq]
    split
    · exact List.take_append_drop k str.text
    · have empty : str.text = [] := by
        rw [← List.length_eq_zero_iff, ← size]
        omega
      rw [empty, List.drop_nil]
      rfl

/-- `substr` is exact on the ranges that are not empty and on the empty one at the end, and on
no other; so the parts of a string make it up except at the front of one that is not empty. -/
theorem substr_exact_iff (valid : RepInv str) :
    (∀ start stop, SubstrRange str start stop →
      ((∀ allocator, SubstrMeets allocator str start stop) ↔
        start < stop.getD str.size ∨ start = str.size)) ∧
    (∀ k, CodepointBoundary str.text k → (Reassembles str k ↔ 0 < k ∨ str.size = 0)) :=
  ⟨fun _ _ range => substr_meets_iff valid range, fun _ boundary => reassembles_iff valid boundary⟩

/-- The letters `ab`. -/
def ab : List UInt8 :=
  [97, 98]

theorem isText_ab : IsText ab :=
  isText_of_ascii (by simp [ab])

theorem substr_exact_iff_ab : (∀ allocator, SubstrMeets allocator (madeOf ab) 2 none) ∧
    Reassembles (madeOf ab) 2 := by
  have valid := madeOf_repInv isText_ab
  have boundary := boundary_size valid
  exact ⟨((substr_exact_iff valid).1 2 none ⟨Nat.le_refl 2, boundary, boundary⟩).mpr (.inr rfl),
    ((substr_exact_iff valid).2 2 boundary).mpr (.inl Nat.two_pos)⟩

/-- The empty range at the front of `ab` becomes `ab`. -/
theorem substr_measures : RepInv (madeOf ab) ∧ SubstrRange (madeOf ab) 0 (some 0) ∧
    ucbStrSubstr willing (madeOf ab) 0 (some 0) = .ok (madeOf ab, true) ∧
    ¬ SubstrMeets willing (madeOf ab) 0 (some 0) ∧ ¬ Reassembles (madeOf ab) 0 := by
  have valid := madeOf_repInv isText_ab
  have boundary := boundary_zero valid
  have ran : ucbStrSubstr willing (madeOf ab) 0 (some 0) = .ok (madeOf ab, true) := rfl
  refine ⟨valid, ⟨Nat.le_refl 0, boundary, boundary⟩, ran, ?_, ?_⟩
  · rintro ⟨made, done, ran', exactly, -⟩
    rw [ran] at ran'
    obtain ⟨rfl, rfl⟩ := Prod.mk.inj (Exec.ok.inj ran')
    exact absurd (exactly rfl).2 (by decide)
  · intro reassembles
    have whole := reassembles willing (madeOf ab) (madeOf ab) ran rfl
    exact absurd whole (by decide)

end Ucb.Str
