import Mathlib.Data.List.Nodup
import Mathlib.Logic.Function.Basic

/-!
Contract: singly linked lists in a memory of cells.

Owns:
- `Segment`, that cells follow each other from one address to another;
- splitting and joining segments, and the frame rule;
- linking a cell behind the last one;
- `Follows`, lists over a memory where every node can be read, putting a node in
  front and taking one out.

`Ucb.Lib.LinkedList` has the lists that are linked both ways.
-/

namespace Ucb.Lib

universe u v

variable {Address : Type u} {Item : Type v}

/-- A cell of a list. -/
structure Cell (Address : Type u) (Item : Type v) where
  next : Option Address
  data : Item
deriving DecidableEq, Repr

/-- From `start` on, these items are in cells at these addresses, the last of which
goes on to `stop`. -/
def Segment (memory : Address → Option (Cell Address Item)) :
    Option Address → List (Address × Item) → Option Address → Prop
  | start, [], stop => start = stop
  | start, (address, data) :: rest, stop =>
      start = some address ∧
        ∃ next, memory address = some ⟨next, data⟩ ∧ Segment memory next rest stop

variable {memory others : Address → Option (Cell Address Item)} {start stop : Option Address}
  {cells front back : List (Address × Item)}

theorem segment_append : Segment memory start (front ++ back) stop ↔
    ∃ between, Segment memory start front between ∧ Segment memory between back stop := by
  induction front generalizing start with
  | nil => simp [Segment]
  | cons cell front inductionHypothesis =>
      simp only [List.cons_append, Segment, inductionHypothesis]
      constructor
      · rintro ⟨here, next, found, between, before, after⟩
        exact ⟨between, ⟨here, next, found, before⟩, after⟩
      · rintro ⟨between, ⟨here, next, found, before⟩, after⟩
        exact ⟨here, next, found, between, before, after⟩

/-- A segment depends only on the cells at its own addresses. -/
theorem Segment.congr (same : ∀ address ∈ cells.map Prod.fst, others address = memory address)
    (segment : Segment memory start cells stop) : Segment others start cells stop := by
  induction cells generalizing start with
  | nil => exact segment
  | cons cell cells inductionHypothesis =>
      obtain ⟨here, next, found, rest⟩ := segment
      refine ⟨here, next, ?_, inductionHypothesis ?_ rest⟩
      · rw [same cell.1 (List.mem_cons_self ..), found]
      · exact fun address member => same address (List.mem_cons_of_mem _ member)

/-- A list begins at its first cell. -/
theorem Segment.start_eq (segment : Segment memory start cells none) :
    start = cells.head?.map Prod.fst := by
  cases cells with
  | nil => exact segment
  | cons cell cells => exact segment.1

variable [DecidableEq Address]

/-- Cells elsewhere may change. -/
theorem Segment.update {address : Address} (segment : Segment memory start cells stop)
    (elsewhere : address ∉ cells.map Prod.fst) (cell : Option (Cell Address Item)) :
    Segment (Function.update memory address cell) start cells stop :=
  segment.congr fun _ member =>
    Function.update_of_ne (ne_of_mem_of_not_mem member elsewhere) _ _

theorem Segment.link {last address : Address} {item data : Item}
    (segment : Segment memory start (cells ++ [(last, item)]) none)
    (apart : last ∉ cells.map Prod.fst) (new : address ∉ (cells ++ [(last, item)]).map Prod.fst)
    (found : memory address = some ⟨none, data⟩) :
    Segment (Function.update memory last (some ⟨some address, item⟩)) start
      (cells ++ [(last, item)] ++ [(address, data)]) none := by
  obtain ⟨between, before, here, next, -, -⟩ := segment_append.mp segment
  have differs : address ≠ last := by
    rintro rfl
    exact new (by simp)
  rw [List.append_assoc]
  refine segment_append.mpr ⟨between, before.update apart _, here, some address, ?_, rfl, none, ?_,
    rfl⟩
  · exact Function.update_self ..
  · rw [Function.update_of_ne differs, found]

/-! ## Where every node can be read -/

/-- From `start` on, the links lead through exactly these nodes. -/
def Follows {Node : Type u} (next : Node → Option Node) : Option Node → List Node → Prop
  | start, [] => start = none
  | start, node :: rest => start = some node ∧ Follows next (next node) rest

section Follows

variable {Node : Type u} {next others : Node → Option Node} {first : Option Node}
  {nodes before after : List Node} {node : Node}

theorem Follows.start_eq (follows : Follows next first nodes) : first = nodes.head? := by
  cases nodes with
  | nil => exact follows
  | cons node rest => exact follows.1

/-- Only the links of the nodes of the list matter. -/
theorem Follows.congr (follows : Follows next first nodes)
    (same : ∀ node ∈ nodes, others node = next node) : Follows others first nodes := by
  induction nodes generalizing first with
  | nil => exact follows
  | cons node rest inductionHypothesis =>
      refine ⟨follows.1, ?_⟩
      rw [same node (List.mem_cons_self ..)]
      exact inductionHypothesis follows.2 fun other member =>
        same other (List.mem_cons_of_mem _ member)

/-- What comes after a node of the list. -/
theorem Follows.rest (follows : Follows next first (before ++ node :: after)) :
    Follows next (next node) after := by
  induction before generalizing first with
  | nil => exact follows.2
  | cons other before inductionHypothesis => exact inductionHypothesis follows.2

/-- A list that goes on to other nodes after its last one. -/
theorem Follows.redirect (follows : Follows next first (before ++ [node] ++ nodes))
    (tail : Follows others (others node) after)
    (same : ∀ other ∈ before, others other = next other) :
    Follows others first (before ++ [node] ++ after) := by
  induction before generalizing first with
  | nil => exact ⟨follows.1, tail⟩
  | cons other before inductionHypothesis =>
      refine ⟨follows.1, ?_⟩
      rw [same other (List.mem_cons_self ..)]
      exact inductionHypothesis follows.2 fun later member =>
        same later (List.mem_cons_of_mem _ member)

end Follows

end Ucb.Lib
