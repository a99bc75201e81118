import Mathlib.Data.List.Chain
import Mathlib.Data.List.Perm.Basic
import Mathlib.Logic.Relation

/-!
Contract: ordering a sequence by class between fixed points.

Elements carry a class. Those of class zero (starters) stay where they are; the
others (marks) are ordered stably by class within each run of marks.

Owns:
- insertion of one element at its place from the right end, and the order it
  builds up;
- exchanges of neighbours that are out of order, and that the order is the one
  sequence without such neighbours that exchanges lead to;
- how the order splits at starters and absorbs exchanges anywhere.

Sequences that are being built are kept reversed, last element first.
-/

namespace Ucb.Lib

universe u

variable {α : Type u} (cls : α → Nat)

/-- Two neighbours that are out of order. -/
def Reorderable (left right : α) : Prop :=
  0 < cls right ∧ cls right < cls left

instance (left right : α) : Decidable (Reorderable cls left right) := by
  unfold Reorderable
  infer_instance

/-- No neighbours are out of order. -/
def CanonicallyOrdered (xs : List α) : Prop :=
  xs.IsChain fun left right => ¬ Reorderable cls left right

/-- One exchange of neighbours that are out of order. -/
def Exchange (xs ys : List α) : Prop :=
  ∃ front left right rest, Reorderable cls left right ∧
    xs = front ++ left :: right :: rest ∧ ys = front ++ right :: left :: rest

/-- Append `c` to a reversed sequence and move it in front of the marks of
greater class. -/
def insertRev (c : α) : List α → List α
  | [] => [c]
  | b :: before => if Reorderable cls b c then b :: insertRev c before else c :: b :: before

/-- Insert one element after the other into a reversed sequence. -/
def orderRev (done : List α) (xs : List α) : List α :=
  xs.foldl (fun done c => insertRev cls c done) done

/-- The canonical order of a sequence. -/
def canonicalOrder (xs : List α) : List α :=
  (orderRev cls [] xs).reverse

variable {cls}

@[simp] theorem orderRev_nil (done : List α) : orderRev cls done [] = done := rfl

@[simp] theorem orderRev_cons (done : List α) (c : α) (xs : List α) :
    orderRev cls done (c :: xs) = orderRev cls (insertRev cls c done) xs := rfl

theorem orderRev_append (done xs ys : List α) :
    orderRev cls done (xs ++ ys) = orderRev cls (orderRev cls done xs) ys :=
  List.foldl_append

@[simp] theorem canonicalOrder_nil : canonicalOrder cls ([] : List α) = [] := rfl

/-! ## Insertion -/

theorem not_reorderable_starter {c : α} (starter : cls c = 0) (b : α) :
    ¬ Reorderable cls b c := by
  intro out
  exact absurd out.1 (by omega)

theorem insertRev_starter {c : α} (starter : cls c = 0) (done : List α) :
    insertRev cls c done = c :: done := by
  cases done with
  | nil => rfl
  | cons b before => rw [insertRev, if_neg (not_reorderable_starter starter b)]

theorem insertRev_perm (cls : α → Nat) (c : α) (done : List α) : (insertRev cls c done).Perm
    (c :: done) := by
  induction done with
  | nil => exact List.Perm.refl _
  | cons b before inductionHypothesis =>
      rw [insertRev]
      split
      · exact (inductionHypothesis.cons b).trans (List.Perm.swap c b before)
      · exact List.Perm.refl _

theorem mem_insertRev {c x : α} {done : List α} :
    x ∈ insertRev cls c done ↔ x = c ∨ x ∈ done := by
  rw [(insertRev_perm cls c done).mem_iff, List.mem_cons]

theorem orderRev_perm (cls : α → Nat) (xs : List α) :
    ∀ done : List α, (orderRev cls done xs).Perm (xs ++ done) := by
  induction xs with
  | nil => intro done; exact List.Perm.refl _
  | cons c xs inductionHypothesis =>
      intro done
      have first := inductionHypothesis (insertRev cls c done)
      have second := (insertRev_perm cls c done).append_left xs
      exact (first.trans second).trans List.perm_middle

theorem canonicalOrder_perm (xs : List α) : (canonicalOrder cls xs).Perm xs := by
  have built := orderRev_perm cls xs []
  rw [List.append_nil] at built
  exact (List.reverse_perm _).trans built

theorem mem_canonicalOrder {x : α} {xs : List α} : x ∈ canonicalOrder cls xs ↔ x ∈ xs :=
  (canonicalOrder_perm xs).mem_iff

/-! ## Windows

A mark never moves past a starter, so insertion can work on the part behind the
last starter. -/

/-- The elements after `done` need not be moved into it. -/
def Sealed (cls : α → Nat) (window done : List α) : Prop :=
  (∃ starter ∈ window, cls starter = 0) ∨ ∀ last ∈ done.head?, cls last = 0

theorem insertRev_append {window done : List α} (isSealed : Sealed cls window done) (c : α) :
    insertRev cls c (window ++ done) = insertRev cls c window ++ done := by
  induction window with
  | nil =>
      rcases isSealed with ⟨starter, member, -⟩ | isStarter
      · cases member
      · cases done with
        | nil => rfl
        | cons b before =>
            have fixed : cls b = 0 := isStarter b rfl
            have stays : ¬ Reorderable cls b c := fun out => absurd out.2 (by omega)
            show insertRev cls c (b :: before) = c :: b :: before
            rw [insertRev, if_neg stays]
  | cons b window inductionHypothesis =>
      rw [List.cons_append, insertRev, insertRev]
      by_cases out : Reorderable cls b c
      · have rest : Sealed cls window done := by
          rcases isSealed with ⟨starter, member, isStarter⟩ | isStarter
          · rcases List.mem_cons.mp member with rfl | later
            · exact absurd out.2 (by omega)
            · exact .inl ⟨starter, later, isStarter⟩
          · exact .inr isStarter
        rw [if_pos out, if_pos out, inductionHypothesis rest, List.cons_append]
      · rw [if_neg out, if_neg out]
        rfl

theorem sealed_insertRev {window done : List α} (isSealed : Sealed cls window done) (c : α) :
    Sealed cls (insertRev cls c window) done := by
  rcases isSealed with ⟨starter, member, isStarter⟩ | isStarter
  · exact .inl ⟨starter, mem_insertRev.mpr (.inr member), isStarter⟩
  · exact .inr isStarter

theorem orderRev_window (xs : List α) :
    ∀ {window done : List α}, Sealed cls window done →
      orderRev cls (window ++ done) xs = orderRev cls window xs ++ done := by
  induction xs with
  | nil => intro window done _; rfl
  | cons c xs inductionHypothesis =>
      intro window done isSealed
      rw [orderRev_cons, orderRev_cons, insertRev_append isSealed,
        inductionHypothesis (sealed_insertRev isSealed c)]

/-- The order splits in front of a starter. -/
theorem canonicalOrder_append_starter (xs : List α) {c : α} (starter : cls c = 0) (ys : List α) :
    canonicalOrder cls (xs ++ c :: ys) =
      canonicalOrder cls xs ++ canonicalOrder cls (c :: ys) := by
  have isSealed : Sealed cls [c] (orderRev cls [] xs) :=
    .inl ⟨c, List.mem_singleton_self c, starter⟩
  have window := orderRev_window ys isSealed
  rw [canonicalOrder, orderRev_append, orderRev_cons, insertRev_starter starter]
  rw [List.singleton_append] at window
  rw [window, List.reverse_append]
  rfl

theorem canonicalOrder_append (xs : List α) {ys : List α}
    (starts : ∀ c ∈ ys.head?, cls c = 0) :
    canonicalOrder cls (xs ++ ys) = canonicalOrder cls xs ++ canonicalOrder cls ys := by
  cases ys with
  | nil => simp
  | cons c ys => exact canonicalOrder_append_starter xs (starts c rfl) ys

/-- A sequence begins with marks, and what follows them begins with a starter. -/
theorem exists_marks_split (cls : α → Nat) (xs : List α) :
    ∃ ms tail, xs = ms ++ tail ∧ (∀ m ∈ ms, 0 < cls m) ∧ ∀ c ∈ tail.head?, cls c = 0 := by
  induction xs with
  | nil => exact ⟨[], [], rfl, by simp, by simp⟩
  | cons c xs inductionHypothesis =>
      by_cases mark : 0 < cls c
      · obtain ⟨ms, tail, rfl, marks, starts⟩ := inductionHypothesis
        exact ⟨c :: ms, tail, rfl, List.forall_mem_cons.mpr ⟨mark, marks⟩, starts⟩
      · refine ⟨[], c :: xs, rfl, by simp, ?_⟩
        intro first isFirst
        obtain rfl := Option.some.inj isFirst
        omega

/-! ## Exchanges -/

/-- Marks of different classes may be inserted in either sequence. -/
theorem insertRev_comm {a b : α} (out : Reorderable cls a b) (done : List α) :
    insertRev cls b (insertRev cls a done) = insertRev cls a (insertRev cls b done) := by
  have positive := out.1
  have less := out.2
  have keeps : ¬ Reorderable cls b a := fun other => absurd other.2 (by omega)
  induction done with
  | nil => simp [insertRev, out, keeps]
  | cons d before inductionHypothesis =>
      by_cases aMoves : Reorderable cls d a
      · have bMoves : Reorderable cls d b := ⟨positive, less.trans aMoves.2⟩
        simp [insertRev, aMoves, bMoves, inductionHypothesis]
      · by_cases bMoves : Reorderable cls d b
        · simp [insertRev, aMoves, bMoves, out]
        · simp [insertRev, aMoves, bMoves, out, keeps]

theorem canonicalOrder_exchange {xs ys : List α} (step : Exchange cls xs ys) :
    canonicalOrder cls xs = canonicalOrder cls ys := by
  obtain ⟨front, left, right, rest, out, rfl, rfl⟩ := step
  rw [canonicalOrder, canonicalOrder, orderRev_append, orderRev_append, orderRev_cons,
    orderRev_cons, orderRev_cons, orderRev_cons, insertRev_comm out]

theorem exchanges_insertRev (c : α) (done : List α) :
    ∀ rest : List α, Relation.ReflTransGen (Exchange cls) (done.reverse ++ c :: rest)
      ((insertRev cls c done).reverse ++ rest) := by
  induction done with
  | nil => intro rest; exact .refl
  | cons b before inductionHypothesis =>
      intro rest
      rw [insertRev]
      by_cases out : Reorderable cls b c
      · rw [if_pos out]
        have first : Exchange cls (before.reverse ++ b :: c :: rest)
            (before.reverse ++ c :: b :: rest) := ⟨before.reverse, b, c, rest, out, rfl, rfl⟩
        have later := inductionHypothesis (b :: rest)
        rw [List.reverse_cons, List.append_assoc, List.singleton_append, List.reverse_cons,
          List.append_assoc, List.singleton_append]
        exact .head first later
      · rw [if_neg out]
        have same : (b :: before).reverse ++ c :: rest = (c :: b :: before).reverse ++ rest := by
          simp
        rw [same]

theorem exchanges_orderRev (xs : List α) :
    ∀ done : List α, Relation.ReflTransGen (Exchange cls) (done.reverse ++ xs)
      (orderRev cls done xs).reverse := by
  induction xs with
  | nil => intro done; rw [List.append_nil]; exact .refl
  | cons c xs inductionHypothesis =>
      intro done
      exact (exchanges_insertRev c done xs).trans (inductionHypothesis _)

/-- Exchanges lead to the canonical order. -/
theorem exchanges_canonicalOrder (cls : α → Nat) (xs : List α) :
    Relation.ReflTransGen (Exchange cls) xs (canonicalOrder cls xs) :=
  exchanges_orderRev xs []

/-! ## Ordered sequences -/

theorem insertRev_ordered {c : α} {done : List α}
    (ordered : done.IsChain fun right left => ¬ Reorderable cls left right) :
    (insertRev cls c done).IsChain fun right left => ¬ Reorderable cls left right := by
  induction done with
  | nil => exact .singleton c
  | cons b before inductionHypothesis =>
      rw [insertRev]
      by_cases out : Reorderable cls b c
      · rw [if_pos out]
        have later := inductionHypothesis ordered.tail
        have keeps : ¬ Reorderable cls c b := fun other => absurd other.2 (by have := out.2; omega)
        cases before with
        | nil => exact .cons_cons keeps (.singleton c)
        | cons d before =>
            rw [insertRev] at later ⊢
            by_cases further : Reorderable cls d c
            · rw [if_pos further] at later ⊢
              exact .cons_cons (List.isChain_cons_cons.mp ordered).1 later
            · rw [if_neg further] at later ⊢
              exact .cons_cons keeps later
      · rw [if_neg out]
        exact .cons_cons out ordered

theorem orderRev_ordered (xs : List α) :
    ∀ {done : List α}, (done.IsChain fun right left => ¬ Reorderable cls left right) →
      (orderRev cls done xs).IsChain fun right left => ¬ Reorderable cls left right := by
  induction xs with
  | nil => intro done ordered; exact ordered
  | cons c xs inductionHypothesis =>
      intro done ordered
      exact inductionHypothesis (insertRev_ordered ordered)

theorem canonicalOrder_ordered (xs : List α) :
    CanonicallyOrdered cls (canonicalOrder cls xs) := by
  rw [CanonicallyOrdered, canonicalOrder, List.isChain_reverse]
  exact orderRev_ordered xs .nil

theorem orderRev_of_ordered {xs : List α} (ordered : CanonicallyOrdered cls xs) :
    orderRev cls [] xs = xs.reverse := by
  induction xs using List.reverseRecOn with
  | nil => rfl
  | append_singleton xs c inductionHypothesis =>
      have front : CanonicallyOrdered cls xs := (List.isChain_append.mp ordered).1
      rw [orderRev_append, inductionHypothesis front, orderRev_cons, orderRev_nil,
        List.reverse_append]
      cases reversed : xs.reverse with
      | nil => rfl
      | cons b before =>
          have last : xs.getLast? = some b := by rw [← List.head?_reverse, reversed]; rfl
          have stays : ¬ Reorderable cls b c :=
            (List.isChain_append.mp ordered).2.2 b last c rfl
          rw [insertRev, if_neg stays]
          rfl

/-- An ordered sequence is its own canonical order. -/
theorem canonicalOrder_of_ordered {xs : List α} (ordered : CanonicallyOrdered cls xs) :
    canonicalOrder cls xs = xs := by
  rw [canonicalOrder, orderRev_of_ordered ordered, List.reverse_reverse]

/-! ## Ascending marks -/

/-- Ascending elements, none below the last one inserted, stay behind it. -/
theorem orderRev_ascending {ms : List α} :
    ∀ {done : List α}, ms.Pairwise (fun m n => cls m ≤ cls n) →
      (∀ b ∈ done.head?, ∀ m ∈ ms, cls b ≤ cls m) →
      orderRev cls done ms = ms.reverse ++ done := by
  induction ms with
  | nil => intro done _ _; rfl
  | cons m ms inductionHypothesis =>
      intro done ascending above
      obtain ⟨least, ascending⟩ := List.pairwise_cons.mp ascending
      have placed : insertRev cls m done = m :: done := by
        cases done with
        | nil => rfl
        | cons b before =>
            have notBelow := above b rfl m (List.mem_cons_self ..)
            rw [insertRev, if_neg (fun out : Reorderable cls b m => absurd out.2 (by omega))]
      have behind : ∀ b ∈ (m :: done).head?, ∀ n ∈ ms, cls b ≤ cls n := by
        intro b first
        obtain rfl := Option.some.inj first
        exact least
      rw [orderRev_cons, placed, inductionHypothesis ascending behind, List.reverse_cons,
        List.append_assoc, List.singleton_append]

/-- Ascending marks divide around the last element inserted: a lower part moves
below it and the rest stays behind it. -/
theorem orderRev_divide (cls : α → Nat) (b : α) {ms : List α} :
    ∀ {done : List α}, ms.Pairwise (fun m n => cls m ≤ cls n) → (∀ m ∈ ms, 0 < cls m) →
      ∃ lower upper, ms = lower ++ upper ∧ (∀ m ∈ lower, cls m < cls b) ∧
        orderRev cls (b :: done) ms = upper.reverse ++ b :: orderRev cls done lower := by
  induction ms with
  | nil => intro done _ _; exact ⟨[], [], rfl, by simp, rfl⟩
  | cons m ms inductionHypothesis =>
      intro done ascending marks
      by_cases below : cls m < cls b
      · have out : Reorderable cls b m := ⟨marks m (List.mem_cons_self ..), below⟩
        obtain ⟨lower, upper, rfl, less, divided⟩ :=
          inductionHypothesis (List.pairwise_cons.mp ascending).2
            (fun n member => marks n (List.mem_cons_of_mem m member))
        refine ⟨m :: lower, upper, rfl, ?_, ?_⟩
        · exact List.forall_mem_cons.mpr ⟨below, less⟩
        · rw [orderRev_cons, insertRev, if_pos out, divided, orderRev_cons]
      · refine ⟨[], m :: ms, rfl, by simp, ?_⟩
        apply orderRev_ascending ascending
        intro last first n member
        obtain rfl := Option.some.inj first
        rcases List.mem_cons.mp member with rfl | later
        · omega
        · have := (List.pairwise_cons.mp ascending).1 n later
          omega

/-! ## Replacing elements -/

/-- A replacement that leaves the marks alone may come before or after ordering. -/
theorem canonicalOrder_flatMap {expand : α → List α} {xs : List α}
    (marks : ∀ m ∈ xs, 0 < cls m → expand m = [m]) :
    canonicalOrder cls ((canonicalOrder cls xs).flatMap expand) =
      canonicalOrder cls (xs.flatMap expand) := by
  have steps := exchanges_canonicalOrder cls xs
  have kept : ∀ ys, Relation.ReflTransGen (Exchange cls) xs ys →
      (∀ m ∈ ys, 0 < cls m → expand m = [m]) ∧
        canonicalOrder cls (ys.flatMap expand) = canonicalOrder cls (xs.flatMap expand) := by
    intro ys steps
    induction steps with
    | refl => exact ⟨marks, rfl⟩
    | tail _ step inductionHypothesis =>
        obtain ⟨fixed, same⟩ := inductionHypothesis
        obtain ⟨front, left, right, rest, out, rfl, rfl⟩ := step
        have leftFixed := fixed left (by simp) (by have := out.2; omega)
        have rightFixed := fixed right (by simp) out.1
        refine ⟨fun m member => fixed m ?_, ?_⟩
        · simp only [List.mem_append, List.mem_cons] at member ⊢
          tauto
        · rw [← same]
          refine (canonicalOrder_exchange ⟨front.flatMap expand, left, right,
            rest.flatMap expand, out, ?_, ?_⟩).symm
          · simp [leftFixed, rightFixed]
          · simp [leftFixed, rightFixed]
  exact (kept _ steps).2

end Ucb.Lib
