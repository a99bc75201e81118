import Ucb.Lib.CanonicalOrder

/-!
Contract: composing a sequence, one element at a time, with the last starter
in front of it.

Owns:
- the composition algorithm with its blocking rule, over any partial operation
  that joins two elements;
- what one composition step can do;
- that composition does not change what a sequence expands to, up to order;
- that composition rebuilds elements from their expansions.

As in the ordering library, a sequence being built is kept reversed.
-/

namespace Ucb.Lib

universe u

variable {α : Type u} (cls : α → Nat) (composite : α → α → Option α)

/-- Seek the last starter in a reversed sequence and replace it by its
composite with `c`. A mark whose class is not below that of `c` blocks. -/
def absorb (c : α) : List α → Option (List α)
  | [] => none
  | b :: before =>
      if cls b = 0 then (composite b c).map fun p => p :: before
      else if cls b < cls c then (absorb c before).map fun before => b :: before
      else none

/-- Compose `c` with the last starter, or append it. -/
def composeStep (done : List α) (c : α) : List α :=
  (absorb cls composite c done).getD (c :: done)

def composeRev (done xs : List α) : List α :=
  xs.foldl (composeStep cls composite) done

/-- The composition of a sequence. -/
def composition (xs : List α) : List α :=
  (composeRev cls composite [] xs).reverse

variable {cls composite}

@[simp] theorem composeRev_nil (done : List α) : composeRev cls composite done [] = done := rfl

@[simp] theorem composeRev_cons (done : List α) (c : α) (xs : List α) :
    composeRev cls composite done (c :: xs) =
      composeRev cls composite (composeStep cls composite done c) xs := rfl

theorem composeRev_append (done xs ys : List α) :
    composeRev cls composite done (xs ++ ys) =
      composeRev cls composite (composeRev cls composite done xs) ys :=
  List.foldl_append

/-! ## One step -/

/-- `c` is composed with a starter when only marks of smaller, positive class
stand in between and the two have a composite. -/
theorem absorb_eq_some_iff {c : α} {done done' : List α} :
    absorb cls composite c done = some done' ↔
      ∃ between starter before p, done = between ++ starter :: before ∧ cls starter = 0 ∧
        (∀ b ∈ between, 0 < cls b ∧ cls b < cls c) ∧ composite starter c = some p ∧
        done' = between ++ p :: before := by
  induction done generalizing done' with
  | nil => simp [absorb]
  | cons b before inductionHypothesis =>
      rw [absorb]
      constructor
      · intro absorbed
        by_cases starter : cls b = 0
        · rw [if_pos starter] at absorbed
          obtain ⟨p, joined, rfl⟩ := Option.map_eq_some_iff.mp absorbed
          exact ⟨[], b, before, p, rfl, starter, by simp, joined, rfl⟩
        · rw [if_neg starter] at absorbed
          by_cases below : cls b < cls c
          · rw [if_pos below] at absorbed
            obtain ⟨before', inner, rfl⟩ := Option.map_eq_some_iff.mp absorbed
            obtain ⟨between, s, front, p, rfl, isStarter, lower, joined, rfl⟩ :=
              inductionHypothesis.mp inner
            refine ⟨b :: between, s, front, p, rfl, isStarter, ?_, joined, rfl⟩
            exact List.forall_mem_cons.mpr ⟨⟨by omega, below⟩, lower⟩
          · rw [if_neg below] at absorbed
            cases absorbed
      · rintro ⟨between, s, front, p, split, isStarter, lower, joined, rfl⟩
        cases between with
        | nil =>
            obtain ⟨rfl, rfl⟩ := List.cons.inj split
            rw [if_pos isStarter, joined]
            rfl
        | cons m between =>
            obtain ⟨rfl, rest⟩ := List.cons.inj split
            have same : before = between ++ s :: front := rest
            subst same
            obtain ⟨⟨positive, below⟩, lower⟩ := List.forall_mem_cons.mp lower
            have inner : absorb cls composite c (between ++ s :: front) =
                some (between ++ p :: front) :=
              inductionHypothesis.mpr ⟨between, s, front, p, rfl, isStarter, lower, joined, rfl⟩
            rw [if_neg (by omega), if_pos below, inner]
            rfl

/-- A step appends its element or composes it with the last starter. -/
theorem composeStep_cases (cls : α → Nat) (composite : α → α → Option α) (done : List α)
    (c : α) :
    composeStep cls composite done c = c :: done ∨
      ∃ between starter before p, done = between ++ starter :: before ∧ cls starter = 0 ∧
        (∀ b ∈ between, 0 < cls b ∧ cls b < cls c) ∧ composite starter c = some p ∧
        composeStep cls composite done c = between ++ p :: before := by
  cases absorbed : absorb cls composite c done with
  | none => exact .inl (by rw [composeStep, absorbed]; rfl)
  | some done' =>
      obtain ⟨between, starter, before, p, split, isStarter, lower, joined, rfl⟩ :=
        absorb_eq_some_iff.mp absorbed
      refine .inr ⟨between, starter, before, p, split, isStarter, lower, joined, ?_⟩
      rw [composeStep, absorbed]
      rfl

theorem composeStep_composes {c starter p : α} {between before : List α}
    (isStarter : cls starter = 0) (lower : ∀ b ∈ between, 0 < cls b ∧ cls b < cls c)
    (joined : composite starter c = some p) :
    composeStep cls composite (between ++ starter :: before) c = between ++ p :: before := by
  have absorbed : absorb cls composite c (between ++ starter :: before) =
      some (between ++ p :: before) :=
    absorb_eq_some_iff.mpr ⟨between, starter, before, p, rfl, isStarter, lower, joined, rfl⟩
  rw [composeStep, absorbed]
  rfl

/-- What joins nothing in front of it is appended. -/
theorem composeStep_alone {c : α} (alone : ∀ a, composite a c = none) (done : List α) :
    composeStep cls composite done c = c :: done := by
  rcases composeStep_cases cls composite done c with
    appended | ⟨_, starter, _, p, _, _, _, joined, _⟩
  · exact appended
  · rw [alone starter] at joined
    cases joined

theorem composeRev_alone {ms : List α} (alone : ∀ m ∈ ms, ∀ a, composite a m = none) :
    ∀ done : List α, composeRev cls composite done ms = ms.reverse ++ done := by
  induction ms with
  | nil => intro done; rfl
  | cons m ms inductionHypothesis =>
      intro done
      rw [composeRev_cons, composeStep_alone (alone m (List.mem_cons_self ..)),
        inductionHypothesis (fun n member => alone n (List.mem_cons_of_mem m member)),
        List.reverse_cons, List.append_assoc, List.singleton_append]

/-! ## Lengths -/

theorem composeStep_length_le (done : List α) (c : α) :
    (composeStep cls composite done c).length ≤ done.length + 1 := by
  rcases composeStep_cases cls composite done c with
    appended | ⟨between, starter, before, p, rfl, _, _, _, composed⟩
  · rw [appended, List.length_cons]
  · rw [composed]
    simp only [List.length_append, List.length_cons]
    omega

/-! ## Expansion -/

/-- A mark may move in front of marks of smaller class. -/
theorem canonicalOrder_move (front : List α) {between : List α} {c : α} (rest : List α)
    (lower : ∀ b ∈ between, 0 < cls b ∧ cls b < cls c) :
    canonicalOrder cls (front ++ c :: between ++ rest) =
      canonicalOrder cls (front ++ between ++ c :: rest) := by
  induction between generalizing front with
  | nil => simp
  | cons b between inductionHypothesis =>
      obtain ⟨⟨positive, below⟩, lower⟩ := List.forall_mem_cons.mp lower
      have first : Exchange cls (front ++ c :: b :: (between ++ rest))
          (front ++ b :: c :: (between ++ rest)) := ⟨front, c, b, _, ⟨positive, below⟩, rfl, rfl⟩
      have later := inductionHypothesis (front ++ [b]) lower
      simp only [List.append_assoc, List.cons_append, List.nil_append] at later ⊢
      rw [canonicalOrder_exchange first, later]

section Expansion

variable {expand : α → List α}

/-- A step does not change what a sequence expands to. -/
theorem expand_composeStep
    (splits : ∀ a b p, composite a b = some p → expand p = expand a ++ expand b)
    {done : List α} {c : α} (marks : ∀ m ∈ done, 0 < cls m → expand m = [m])
    (markFixed : 0 < cls c → expand c = [c]) (rest : List α) :
    canonicalOrder cls ((composeStep cls composite done c).reverse.flatMap expand ++ rest) =
      canonicalOrder cls (done.reverse.flatMap expand ++ (expand c ++ rest)) := by
  rcases composeStep_cases cls composite done c with
    appended | ⟨between, starter, before, p, rfl, _, lower, joined, composed⟩
  · rw [appended]
    simp
  · rw [composed]
    have fixed : between.reverse.flatMap expand = between.reverse := by
      rw [List.flatMap_congr (g := fun m => [m]), List.flatMap_singleton']
      intro m member
      have inside := List.mem_reverse.mp member
      exact marks m (List.mem_append_left _ inside) (lower m inside).1
    simp only [List.reverse_append, List.reverse_cons, List.flatMap_append, List.flatMap_cons,
      List.flatMap_nil, List.append_nil, List.append_assoc, fixed, splits starter c p joined]
    by_cases empty : between = []
    · simp [empty]
    · -- something stands in between, so `c` is a mark and expands to itself
      obtain ⟨b, inside⟩ := List.exists_mem_of_ne_nil between empty
      have markC : 0 < cls c := by
        have := lower b inside
        omega
      have moved := canonicalOrder_move (before.reverse.flatMap expand ++ expand starter) rest
        (fun m member => lower m (List.mem_reverse.mp member))
      rw [markFixed markC]
      simp only [List.append_assoc, List.cons_append, List.nil_append] at moved ⊢
      exact moved

theorem mem_composeStep {done : List α} {c x : α}
    (starters : ∀ a b p, composite a b = some p → cls p = 0)
    (member : x ∈ composeStep cls composite done c) (mark : 0 < cls x) : x = c ∨ x ∈ done := by
  rcases composeStep_cases cls composite done c with
    appended | ⟨between, starter, before, p, rfl, _, _, joined, composed⟩
  · rw [appended] at member
    exact List.mem_cons.mp member
  · rw [composed] at member
    rcases List.mem_append.mp member with inside | inside
    · exact .inr (List.mem_append_left _ inside)
    · rcases List.mem_cons.mp inside with rfl | inside
      · exact absurd (starters starter c x joined) (by omega)
      · exact .inr (List.mem_append_right _ (List.mem_cons_of_mem starter inside))

/-- Composition does not change what a sequence expands to, up to order. -/
theorem expand_composeRev
    (splits : ∀ a b p, composite a b = some p → expand p = expand a ++ expand b)
    (starters : ∀ a b p, composite a b = some p → cls p = 0) {xs : List α} :
    ∀ {done : List α}, (∀ m ∈ done, 0 < cls m → expand m = [m]) →
      (∀ m ∈ xs, 0 < cls m → expand m = [m]) →
      canonicalOrder cls ((composeRev cls composite done xs).reverse.flatMap expand) =
        canonicalOrder cls (done.reverse.flatMap expand ++ xs.flatMap expand) := by
  induction xs with
  | nil => intro done _ _; simp
  | cons c xs inductionHypothesis =>
      intro done marks later
      obtain ⟨markFixed, later⟩ := List.forall_mem_cons.mp later
      have stepMarks : ∀ m ∈ composeStep cls composite done c, 0 < cls m → expand m = [m] := by
        intro m member mark
        rcases mem_composeStep starters member mark with rfl | inside
        · exact markFixed mark
        · exact marks m inside mark
      rw [composeRev_cons, inductionHypothesis stepMarks later,
        expand_composeStep splits marks markFixed, List.flatMap_cons]

theorem expand_composition
    (splits : ∀ a b p, composite a b = some p → expand p = expand a ++ expand b)
    (starters : ∀ a b p, composite a b = some p → cls p = 0) {xs : List α}
    (marks : ∀ m ∈ xs, 0 < cls m → expand m = [m]) :
    canonicalOrder cls ((composition cls composite xs).flatMap expand) =
      canonicalOrder cls (xs.flatMap expand) :=
  expand_composeRev splits starters (by simp) marks

end Expansion

/-! ## Rebuilding -/

/-- `word` is put together to the starter `c` from left to right, and its first
element joins nothing in front of it. -/
inductive Rebuilds (cls : α → Nat) (composite : α → α → Option α) : List α → α → Prop
  | starter {c : α} (isStarter : cls c = 0) (alone : ∀ a, composite a c = none) :
      Rebuilds cls composite [c] c
  | extend {word : List α} {a b c : α} (front : Rebuilds cls composite word a)
      (joined : composite a b = some c) (isStarter : cls c = 0)
      (ordered : CanonicallyOrdered cls (word ++ [b])) : Rebuilds cls composite (word ++ [b]) c

theorem Rebuilds.isStarter {word : List α} {c : α} (rebuilds : Rebuilds cls composite word c) :
    cls c = 0 := by
  cases rebuilds with
  | starter isStarter _ => exact isStarter
  | extend _ _ isStarter _ => exact isStarter

theorem Rebuilds.first {word : List α} {c : α} (rebuilds : Rebuilds cls composite word c) :
    ∃ starter rest, word = starter :: rest ∧ cls starter = 0 := by
  induction rebuilds with
  | starter isStarter _ => exact ⟨_, [], rfl, isStarter⟩
  | extend _ _ _ _ inductionHypothesis =>
      obtain ⟨starter, rest, rfl, isStarter⟩ := inductionHypothesis
      exact ⟨starter, rest ++ [_], rfl, isStarter⟩

/-- A mark that joins nothing in front of it. -/
def Inert (cls : α → Nat) (composite : α → α → Option α) (m : α) : Prop :=
  0 < cls m ∧ ∀ a, composite a m = none

/-- Composition puts a word together through the inert marks that follow it,
wherever ordering has moved these. -/
theorem composeRev_rebuilds {word : List α} {c : α} (rebuilds : Rebuilds cls composite word c) :
    ∀ {ms : List α}, ms.Pairwise (fun m n => cls m ≤ cls n) →
      (∀ m ∈ ms, Inert cls composite m) → ∀ done : List α,
      composeRev cls composite done (canonicalOrder cls (word ++ ms)) =
      ms.reverse ++ c :: done := by
  induction rebuilds with
  | @starter c isStarter alone =>
      intro ms ascending inert done
      have behind : orderRev cls [c] ms = ms.reverse ++ [c] := by
        apply orderRev_ascending ascending
        intro b first m _
        obtain rfl := Option.some.inj first
        omega
      have ordered : canonicalOrder cls ([c] ++ ms) = c :: ms := by
        rw [canonicalOrder, List.singleton_append, orderRev_cons]
        show (orderRev cls [c] ms).reverse = c :: ms
        rw [behind, List.reverse_append, List.reverse_reverse]
        rfl
      rw [ordered, composeRev_cons, composeStep_alone alone,
        composeRev_alone fun m member => (inert m member).2]
  | @extend word a b c front joined isStarter ordered inductionHypothesis =>
      intro ms ascending inert done
      obtain ⟨lower, upper, rfl, below, divided⟩ :=
        orderRev_divide cls b ascending fun m member => (inert m member).1
      have lowerInert : ∀ m ∈ lower, Inert cls composite m := fun m member =>
        inert m (List.mem_append_left upper member)
      have front' := inductionHypothesis (List.pairwise_append.mp ascending).1 lowerInert done
      have merged : canonicalOrder cls (word ++ [b] ++ (lower ++ upper)) =
          canonicalOrder cls (word ++ lower) ++ b :: upper := by
        have wordOrder := orderRev_of_ordered (List.isChain_append.mp ordered).1
        rw [canonicalOrder, canonicalOrder, orderRev_append, orderRev_of_ordered ordered,
          List.reverse_append, List.reverse_singleton, List.singleton_append, divided,
          orderRev_append [] word lower, wordOrder]
        simp
      have between : ∀ m ∈ lower.reverse, 0 < cls m ∧ cls m < cls b := fun m member =>
        ⟨(lowerInert m (List.mem_reverse.mp member)).1, below m (List.mem_reverse.mp member)⟩
      rw [merged, composeRev_append, front', composeRev_cons,
        composeStep_composes front.isStarter between joined,
        composeRev_alone fun m member => (inert m (List.mem_append_right lower member)).2]
      simp

/-- What composition rebuilds an element from. -/
def Stable (cls : α → Nat) (composite : α → α → Option α) (expand : α → List α) (c : α) : Prop :=
  Rebuilds cls composite (expand c) c ∨ (expand c = [c] ∧ Inert cls composite c)

section Stable

variable {expand : α → List α}

theorem ascending_of_ordered {ms : List α} (ordered : CanonicallyOrdered cls ms)
    (marks : ∀ m ∈ ms, 0 < cls m) : ms.Pairwise fun m n => cls m ≤ cls n := by
  have chain : ms.IsChain fun m n => cls m ≤ cls n := by
    apply List.IsChain.imp_of_mem_imp _ ordered
    intro m n _ right keeps
    by_contra above
    exact keeps ⟨marks n right, by omega⟩
  exact List.isChain_iff_pairwise.mp chain

theorem expand_inert {ms : List α} (stable : ∀ m ∈ ms, Stable cls composite expand m)
    (marks : ∀ m ∈ ms, 0 < cls m) :
    ms.flatMap expand = ms ∧ ∀ m ∈ ms, Inert cls composite m := by
  have each : ∀ m ∈ ms, expand m = [m] ∧ Inert cls composite m := by
    intro m member
    rcases stable m member with rebuilds | inert
    · have starter := rebuilds.isStarter
      have mark := marks m member
      omega
    · exact inert
  constructor
  · rw [List.flatMap_congr (g := fun m => [m]) (fun m member => (each m member).1),
      List.flatMap_singleton']
  · exact fun m member => (each m member).2

theorem expand_starts {xs : List α} (stable : ∀ x ∈ xs, Stable cls composite expand x)
    (starts : ∀ c ∈ xs.head?, cls c = 0) : ∀ c ∈ (xs.flatMap expand).head?, cls c = 0 := by
  cases xs with
  | nil => simp
  | cons x xs =>
      have isStarter : cls x = 0 := starts x rfl
      rcases stable x (List.mem_cons_self ..) with rebuilds | ⟨_, mark, _⟩
      · obtain ⟨starter, rest, word, first⟩ := rebuilds.first
        intro c isFirst
        rw [List.flatMap_cons, word, List.cons_append] at isFirst
        obtain rfl := Option.some.inj isFirst
        exact first
      · omega

/-- Composition rebuilds a sequence that begins with a starter, behind any
other sequence. -/
theorem composeRev_stable (count : Nat) :
    ∀ {xs : List α}, xs.length ≤ count → (∀ x ∈ xs, Stable cls composite expand x) →
      CanonicallyOrdered cls xs → (∀ c ∈ xs.head?, cls c = 0) → ∀ done : List α,
      composeRev cls composite done (canonicalOrder cls (xs.flatMap expand)) =
        xs.reverse ++ done := by
  induction count with
  | zero =>
      intro xs short _ _ _ done
      obtain rfl := List.eq_nil_of_length_eq_zero (Nat.le_zero.mp short)
      rfl
  | succ count inductionHypothesis =>
      intro xs short stable ordered starts done
      cases xs with
      | nil => rfl
      | cons c xs =>
          obtain ⟨ms, tail, rfl, marks, tailStarts⟩ := exists_marks_split cls xs
          have isStarter : cls c = 0 := starts c rfl
          obtain ⟨stableC, stable⟩ := List.forall_mem_cons.mp stable
          have stableMs : ∀ m ∈ ms, Stable cls composite expand m := fun m member =>
            stable m (List.mem_append_left tail member)
          have stableTail : ∀ x ∈ tail, Stable cls composite expand x := fun x member =>
            stable x (List.mem_append_right ms member)
          have parts := List.isChain_append.mp (List.IsChain.tail ordered)
          obtain ⟨expandMs, inert⟩ := expand_inert stableMs marks
          have segments : canonicalOrder cls ((c :: (ms ++ tail)).flatMap expand) =
              canonicalOrder cls (expand c ++ ms) ++ canonicalOrder cls (tail.flatMap expand) := by
            rw [List.flatMap_cons, List.flatMap_append, expandMs, ← List.append_assoc,
              canonicalOrder_append _ (expand_starts stableTail tailStarts)]
          have later := inductionHypothesis
            (show tail.length ≤ count by
              simp only [List.length_cons, List.length_append] at short; omega)
            stableTail parts.2.1 tailStarts (ms.reverse ++ c :: done)
          rcases stableC with rebuilds | ⟨_, mark, _⟩
          · have first := composeRev_rebuilds rebuilds
              (ascending_of_ordered parts.1 marks) inert done
            rw [segments, composeRev_append, first, later]
            simp
          · omega

/-- Composing the ordered expansion of an ordered sequence of stable elements
gives the sequence back. -/
theorem composition_stable {xs : List α} (stable : ∀ x ∈ xs, Stable cls composite expand x)
    (ordered : CanonicallyOrdered cls xs) :
    composition cls composite (canonicalOrder cls (xs.flatMap expand)) = xs := by
  obtain ⟨ms, tail, rfl, marks, starts⟩ := exists_marks_split cls xs
  have stableTail : ∀ x ∈ tail, Stable cls composite expand x := fun x member =>
    stable x (List.mem_append_right ms member)
  have parts := List.isChain_append.mp ordered
  obtain ⟨expandMs, inert⟩ := expand_inert
    (fun m member => stable m (List.mem_append_left tail member)) marks
  have front : canonicalOrder cls ((ms ++ tail).flatMap expand) =
      ms ++ canonicalOrder cls (tail.flatMap expand) := by
    rw [List.flatMap_append, expandMs, canonicalOrder_append _ (expand_starts stableTail starts),
      canonicalOrder_of_ordered parts.1]
  rw [composition, front, composeRev_append,
    composeRev_alone (fun m member => (inert m member).2),
    composeRev_stable tail.length (Nat.le_refl _) stableTail parts.2.1 starts]
  simp

end Stable

end Ucb.Lib
