import Mathlib.Data.List.Nodup
import Mathlib.Data.Finset.Card
import Mathlib.Logic.Function.Basic

/-!
Contract: doubly linked lists in a memory of nodes.

Owns:
- `Chain`, that the nodes of a list name their neighbours in it;
- the frame rule, putting a node in front and taking one out;
- walking a chain from its first node.

The memory is a partial function from nodes to their two links. What a program
does to it is stated with `setPrev` and `setNext`.
-/

namespace Ucb.Lib

universe u

structure Link (Node : Type u) where
  prev : Option Node
  next : Option Node
deriving DecidableEq, Repr

variable {Node : Type u}

/-- The nodes are in memory, each linked to the one before and the one after. -/
structure Chain (links : Node → Option (Link Node)) (nodes : List Node) : Prop where
  nodup : nodes.Nodup
  linked : ∀ before node after, nodes = before ++ node :: after →
    links node = some ⟨before.getLast?, after.head?⟩

variable {links : Node → Option (Link Node)} {nodes : List Node}

theorem Chain.nil : Chain links [] where
  nodup := List.nodup_nil
  linked := fun before node after split => by simp at split

/-- A chain depends only on the links of its own nodes. -/
theorem Chain.congr {others : Node → Option (Link Node)} (chain : Chain links nodes)
    (same : ∀ node ∈ nodes, others node = links node) : Chain others nodes where
  nodup := chain.nodup
  linked := fun before node after split => by
    rw [same node (by simp [split])]
    exact chain.linked before node after split

theorem Chain.mem_isSome {node : Node} (chain : Chain links nodes) (member : node ∈ nodes) :
    (links node).isSome := by
  obtain ⟨before, after, split⟩ := List.append_of_mem member
  rw [chain.linked before node after split]
  rfl

theorem Chain.neighbour_mem {node other : Node} {link : Link Node} (chain : Chain links nodes)
    (member : node ∈ nodes) (here : links node = some link)
    (next : link.prev = some other ∨ link.next = some other) : other ∈ nodes := by
  obtain ⟨before, after, rfl⟩ := List.append_of_mem member
  obtain rfl := Option.some.inj ((chain.linked before node after rfl).symm.trans here)
  rcases next with isLast | isFirst
  · exact List.mem_append_left _ (List.mem_of_getLast? isLast)
  · exact List.mem_append_right _ (List.mem_cons_of_mem _ (List.mem_of_mem_head? isFirst))

/-- A node is no neighbour of itself. -/
theorem Chain.neighbour_ne {node other : Node} {link : Link Node} (chain : Chain links nodes)
    (member : node ∈ nodes) (here : links node = some link)
    (next : link.prev = some other ∨ link.next = some other) : other ≠ node := by
  rintro rfl
  obtain ⟨before, after, rfl⟩ := List.append_of_mem member
  obtain rfl := Option.some.inj ((chain.linked before other after rfl).symm.trans here)
  have nodup := List.nodup_append.mp chain.nodup
  rcases next with isLast | isFirst
  · exact nodup.2.2 other (List.mem_of_getLast? isLast) other (by simp) rfl
  · exact (List.nodup_cons.mp nodup.2.1).1 (List.mem_of_mem_head? isFirst)

theorem Chain.notMem_after {before after : List Node} {node other : Node}
    (chain : Chain links (before ++ node :: after)) (early : other ∈ before) : other ∉ after :=
  fun late => List.disjoint_of_nodup_append chain.nodup early (List.mem_cons_of_mem _ late)

/-! ## Walking -/

/-- The nodes met on the way from `first` along the links forward, at most
`fuel` of them. -/
def walk (links : Node → Option (Link Node)) : Nat → Option Node → List Node
  | _, none => []
  | 0, some _ => []
  | fuel + 1, some node =>
      match links node with
      | some link => node :: walk links fuel link.next
      | none => []

/-- Walking a chain meets exactly its nodes. -/
theorem Chain.walk {fuel : Nat} (chain : Chain links nodes) (enough : nodes.length ≤ fuel) :
    walk links fuel nodes.head? = nodes := by
  have rest : ∀ after before fuel, nodes = before ++ after → after.length ≤ fuel →
      Lib.walk links fuel after.head? = after := by
    intro after
    induction after with
    | nil => intro before fuel _ _; cases fuel <;> rfl
    | cons node after inductionHypothesis =>
        intro before fuel split enough
        obtain ⟨fuel, rfl⟩ : ∃ less, fuel = less + 1 :=
          ⟨fuel - 1, by simp only [List.length_cons] at enough; omega⟩
        simp only [List.head?_cons, Lib.walk, chain.linked before node after split]
        rw [inductionHypothesis (before ++ [node]) fuel (by simpa using split)
          (by simpa using enough)]
  exact rest nodes [] fuel rfl enough

/-- The nodes of a chain are in the memory, so that there are not more of them. -/
theorem Chain.length_le_card {memory : Finset Node} (chain : Chain links nodes)
    (inside : ∀ node, (links node).isSome → node ∈ memory) : nodes.length ≤ memory.card := by
  classical
  rw [← List.toFinset_card_of_nodup chain.nodup]
  apply Finset.card_le_card
  intro node member
  exact inside node (chain.mem_isSome (List.mem_toFinset.mp member))

/-! ## Without a node -/

/-- The first node of a chain when a node with these links has been taken out. -/
def headWithout (link : Link Node) (head : Option Node) : Option Node :=
  match link.prev with
  | some _ => head
  | none => link.next

/-- The last node of a chain when a node with these links has been taken out. -/
def tailWithout (link : Link Node) (tail : Option Node) : Option Node :=
  match link.next with
  | some _ => tail
  | none => link.prev

theorem headWithout_split {before after : List Node} {node : Node} :
    headWithout ⟨before.getLast?, after.head?⟩ (before ++ node :: after).head? =
      (before ++ after).head? := by
  cases before with
  | nil => rfl
  | cons first before => simp [headWithout, List.getLast?_cons]

theorem tailWithout_split {before after : List Node} {node : Node} :
    tailWithout ⟨before.getLast?, after.head?⟩ (before ++ node :: after).getLast? =
      (before ++ after).getLast? := by
  cases after with
  | nil => simp [tailWithout]
  | cons first after => simp [tailWithout, List.getLast?_cons]

/-! ## Changing links -/

section Change

variable [DecidableEq Node]

/-- Change the link back of a node; nothing without a node. -/
def setPrev (links : Node → Option (Link Node)) (target prev : Option Node) :
    Node → Option (Link Node) := fun node =>
  if target = some node then (links node).map fun link => { link with prev := prev }
  else links node

/-- Change the link forward of a node; nothing without a node. -/
def setNext (links : Node → Option (Link Node)) (target next : Option Node) :
    Node → Option (Link Node) := fun node =>
  if target = some node then (links node).map fun link => { link with next := next }
  else links node

@[simp]
theorem setPrev_self {node : Node} {prev : Option Node} :
    setPrev links (some node) prev node =
      (links node).map fun link => { link with prev := prev } :=
  if_pos rfl

theorem setPrev_of_ne {node : Node} {target prev : Option Node} (elsewhere : target ≠ some node) :
    setPrev links target prev node = links node :=
  if_neg elsewhere

@[simp]
theorem setNext_self {node : Node} {next : Option Node} :
    setNext links (some node) next node =
      (links node).map fun link => { link with next := next } :=
  if_pos rfl

theorem setNext_of_ne {node : Node} {target next : Option Node} (elsewhere : target ≠ some node) :
    setNext links target next node = links node :=
  if_neg elsewhere

/-- Link a node in front of `head`. -/
def linkFront (links : Node → Option (Link Node)) (node : Node) (head : Option Node) :
    Node → Option (Link Node) :=
  setPrev (Function.update links node (some ⟨none, head⟩)) head (some node)

theorem linkFront_of_notMem {node other : Node} (notNode : other ≠ node)
    (notFirst : nodes.head? ≠ some other) :
    linkFront links node nodes.head? other = links other := by
  rw [linkFront, setPrev_of_ne notFirst, Function.update_of_ne notNode]

theorem Chain.push {node : Node} (chain : Chain links nodes) (fresh : node ∉ nodes) :
    Chain (linkFront links node nodes.head?) (node :: nodes) where
  nodup := List.nodup_cons.mpr ⟨fresh, chain.nodup⟩
  linked := fun before other after split => by
    cases before with
    | nil =>
        obtain ⟨rfl, rfl⟩ := List.cons.inj split
        have notFirst : nodes.head? ≠ some node := fun first =>
          fresh (List.mem_of_mem_head? first)
        rw [linkFront, setPrev_of_ne notFirst, Function.update_self]
        rfl
    | cons first before =>
        obtain ⟨rfl, rfl⟩ := List.cons.inj split
        have notNode : other ≠ node := fun same => fresh (by simp [same])
        have old := chain.linked before other after rfl
        cases before with
        | nil => simp [linkFront, notNode, old]
        | cons next before =>
            have notFirst : other ≠ next := by
              rintro rfl
              exact (List.nodup_cons.mp chain.nodup).1 (by simp)
            rw [linkFront_of_notMem notNode (by simpa using notFirst.symm), old,
              List.getLast?_cons_cons]

/-- Link the neighbours of a node to each other. -/
def unlink (links : Node → Option (Link Node)) (link : Link Node) : Node → Option (Link Node) :=
  setPrev (setNext links link.prev link.next) link.next link.prev

theorem unlink_of_ne {node : Node} {link : Link Node} (notPrev : link.prev ≠ some node)
    (notNext : link.next ≠ some node) : unlink links link node = links node := by
  rw [unlink, setPrev_of_ne notNext, setNext_of_ne notPrev]

/-- A node taken out of a chain leaves a chain. -/
theorem Chain.unlink_split {before after : List Node} {node : Node}
    (chain : Chain links (before ++ node :: after)) :
    Chain (unlink links ⟨before.getLast?, after.head?⟩) (before ++ after) where
  nodup := chain.nodup.sublist (List.Sublist.append_left (List.sublist_cons_self node after) before)
  linked := fun front other back split => by
    rcases List.append_eq_append_iff.mp split with ⟨between, rfl, rfl⟩ | ⟨between, rfl, tail⟩
    · -- The other node comes after the one taken out.
      have late : ∀ early ∈ before, early ≠ other := by
        rintro early member rfl
        exact chain.notMem_after member (by simp)
      have notPrev : before.getLast? ≠ some other := fun last =>
        late other (List.mem_of_getLast? last) rfl
      have old := chain.linked (before ++ node :: between) other back (by simp)
      cases between with
      | nil => simp [unlink, setNext_of_ne notPrev, old]
      | cons first between =>
          have notNext : some first ≠ some other := by
            rintro ⟨⟩
            have nodup := (List.nodup_append.mp chain.nodup).2.1
            simp at nodup
          rw [unlink_of_ne notPrev (by simpa using notNext), old]
          simp [List.getLast?_append, List.getLast?_cons]
    · cases between with
      | nil =>
          -- It is the first one after it.
          obtain rfl : after = other :: back := by simpa using tail.symm
          rw [List.append_nil] at chain ⊢
          have notPrev : front.getLast? ≠ some other := fun last =>
            chain.notMem_after (List.mem_of_getLast? last) (by simp)
          have old := chain.linked (front ++ [node]) other back (by simp)
          simp [unlink, setNext_of_ne notPrev, old]
      | cons same between =>
          -- It comes before the one taken out.
          obtain ⟨rfl, rfl⟩ := List.cons.inj tail
          have notNext : after.head? ≠ some other := fun first =>
            chain.notMem_after (by simp) (List.mem_of_mem_head? first)
          have old := chain.linked front other (between ++ node :: after) (by simp)
          cases between with
          | nil => simp [unlink, setPrev_of_ne notNext, old]
          | cons next between =>
              have notPrev : (front ++ other :: next :: between).getLast? ≠ some other := by
                have nodup := (List.nodup_append.mp (List.nodup_append.mp chain.nodup).1).2.1
                have skip : (front ++ other :: next :: between).getLast? =
                    (next :: between).getLast? := by
                  simp [List.getLast?_append, List.getLast?_cons]
                intro last
                exact (List.nodup_cons.mp nodup).1 (List.mem_of_getLast? (skip ▸ last))
              rw [unlink_of_ne notPrev notNext, old]
              simp

theorem Chain.unlink {node : Node} {link : Link Node} (chain : Chain links nodes)
    (member : node ∈ nodes) (here : links node = some link) :
    Chain (unlink links link) (nodes.erase node) ∧
      (nodes.erase node).head? = headWithout link nodes.head? := by
  obtain ⟨before, after, rfl⟩ := List.append_of_mem member
  obtain rfl : _ = link := Option.some.inj ((chain.linked before node after rfl).symm.trans here)
  have notBefore : node ∉ before := fun early =>
    List.disjoint_of_nodup_append chain.nodup early (by simp)
  rw [List.erase_append_right _ notBefore, List.erase_cons_head]
  exact ⟨chain.unlink_split, headWithout_split.symm⟩

end Change

/-! ## Half linked lists -/

/-- The nodes are in memory, each linked forward to the one after. -/
def Forward (links : Node → Option (Link Node)) : List Node → Prop
  | [] => True
  | node :: rest => (∃ prev, links node = some ⟨prev, rest.head?⟩) ∧ Forward links rest

theorem Forward.congr {others : Node → Option (Link Node)} :
    ∀ {nodes : List Node}, Forward links nodes → (∀ node ∈ nodes, others node = links node) →
      Forward others nodes
  | [], _, _ => trivial
  | node :: rest, ⟨⟨prev, here⟩, later⟩, same =>
      ⟨⟨prev, (same node (by simp)).trans here⟩,
        later.congr fun other member => same other (List.mem_cons_of_mem _ member)⟩

theorem Chain.forward (chain : Chain links nodes) : Forward links nodes := by
  have rest : ∀ after before, nodes = before ++ after → Forward links after := by
    intro after
    induction after with
    | nil => intro before _; trivial
    | cons node after inductionHypothesis =>
        intro before split
        exact ⟨⟨_, chain.linked before node after split⟩,
          inductionHypothesis (before ++ [node]) (by simpa using split)⟩
  exact rest nodes [] rfl

end Ucb.Lib
