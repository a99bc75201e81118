import Ucb.Container.Pqueue
import Mathlib.Data.List.Dedup
import Mathlib.Data.List.Nodup
import Mathlib.Data.List.Perm.Subperm

/-!
Contract: the priority queue against the entries pushed to it.

Owns:
- `Queued`, that the buckets are in strictly descending order, none empty, each with
  the count, the first and the last node of its chain, and that the chains hold the
  entries in the order in which they are to come out;
- that every operation keeps it and returns what it is to return;
- exactly when whole sequences of operations do.

The search for a bucket counts in `int`. It cannot search 2^31 buckets, and it cannot
answer that a bucket belongs behind 2^31 - 1 others.
-/

namespace Ucb.Container

open Ucb.Lib

variable {α : Type}

/-! ## Queues that hold entries -/

/-- The items of one priority, with the addresses of their nodes. -/
abbrev Level (α : Type) := Int × List (Nat × α)

def bucketOf (level : Level α) : UcbPqueueBucket where
  priority := level.1
  first := level.2.head?.map Prod.fst
  last := level.2.getLast?.map Prod.fst
  numItems := level.2.length

def levelEntries (level : Level α) : List (Int × α) :=
  level.2.map fun cell => (level.1, cell.2)

def entriesOf (levels : List (Level α)) : List (Int × α) :=
  levels.flatMap levelEntries

def addresses (levels : List (Level α)) : List Nat :=
  levels.flatMap fun level => level.2.map Prod.fst

def cellsOf (levels : List (Level α)) : List (Option UcbPqueueBucket) :=
  (levels.map bucketOf).map some

/-- The array begins with the buckets of the levels. -/
structure Held (pq : UcbPqueue) (levels : List (Level α)) : Prop where
  count : pq.numBuckets = levels.length
  array : ∃ spare, pq.buckets = .heap (cellsOf levels ++ spare) ∧
    levels.length + spare.length = pq.allocBuckets
  room : 0 < pq.allocBuckets
  small : pq.allocBuckets ≤ 2 ^ 32

/-- The levels are in descending order, and their items are in chains of nodes. -/
structure Linked (nodes : Nat → Option (UcbFwdlistNode α)) (unused : Nat)
    (levels : List (Level α)) : Prop where
  descending : (levels.map Prod.fst).Pairwise fun before after => after < before
  nonempty : ∀ level ∈ levels, level.2 ≠ []
  chained : ∀ level ∈ levels, Segment nodes (bucketOf level).first level.2 none
  apart : (addresses levels).Nodup
  allocated : ∀ address ∈ addresses levels, address < unused

/-- The queue holds the entries that have been pushed to it, in the order in which they
are to come out. -/
structure Queued (args : UcbPqueueArgs) (state : QueueState α) (entries : List (Int × α)) :
    Prop where
  clone : state.pq.dataClone = args.dataClone
  free : state.pq.dataFree = args.dataFree
  countable : state.pq.numBuckets ≤ 2 ^ 31
  levels : ∃ levels, Held state.pq levels ∧ Linked state.nodes state.unused levels ∧
    StableQueue.Sorted (entriesOf levels) entries

def newQueue (pq : UcbPqueue) : QueueState α :=
  ⟨pq, fun _ => none, 0⟩

theorem queued_new {allocator : Allocator} {args : UcbPqueueArgs} {pq : UcbPqueue}
    (made : ucbPqueueInitCommon allocator args = .ok (some pq)) :
    Queued args (newQueue pq : QueueState α) [] := by
  obtain ⟨_, -, made⟩ := Exec.bind_eq_ok.mp made
  split at made
  next granted =>
    obtain rfl := Option.some.inj (Exec.ok.inj made)
    refine ⟨rfl, rfl, Nat.zero_le _, [], ⟨rfl, ⟨_, rfl, rfl⟩, ?_, ?_⟩, ?_, .nil⟩
    · exact (by decide : 0 < pqueueInitialNumBuckets)
    · exact (by decide : pqueueInitialNumBuckets ≤ 2 ^ 32)
    · exact ⟨.nil, by simp, by simp, .nil, by simp [addresses]⟩
  next refused => cases Exec.ok.inj made

/-! ## Levels -/

section Levels

variable {front back levels : List (Level α)} {level : Level α}

theorem entriesOf_cons (level : Level α) (levels : List (Level α)) :
    entriesOf (level :: levels) = levelEntries level ++ entriesOf levels :=
  List.flatMap_cons

theorem entriesOf_append (front back : List (Level α)) :
    entriesOf (front ++ back) = entriesOf front ++ entriesOf back :=
  List.flatMap_append

theorem addresses_cons (level : Level α) (levels : List (Level α)) :
    addresses (level :: levels) = level.2.map Prod.fst ++ addresses levels :=
  List.flatMap_cons

theorem addresses_append (front back : List (Level α)) :
    addresses (front ++ back) = addresses front ++ addresses back :=
  List.flatMap_append

theorem addresses_middle (front back : List (Level α)) (level : Level α) :
    (addresses (front ++ level :: back)).Perm
      (level.2.map Prod.fst ++ addresses (front ++ back)) := by
  rw [addresses_append, addresses_cons, addresses_append]
  exact List.perm_append_comm_assoc _ _ _

theorem mem_middle {other : Level α} (member : other ∈ front ++ level :: back) :
    other = level ∨ other ∈ front ++ back := by
  simp only [List.mem_append, List.mem_cons] at member ⊢
  tauto

theorem mem_addresses {address : Nat} (member : level ∈ levels)
    (here : address ∈ level.2.map Prod.fst) : address ∈ addresses levels :=
  List.mem_flatMap.mpr ⟨level, member, here⟩

theorem fst_of_mem_levelEntries {entry : Int × α} (member : entry ∈ levelEntries level) :
    entry.1 = level.1 := by
  obtain ⟨cell, -, rfl⟩ := List.mem_map.mp member
  rfl

theorem fst_of_mem_entriesOf {entry : Int × α} (member : entry ∈ entriesOf levels) :
    ∃ level ∈ levels, entry.1 = level.1 := by
  obtain ⟨level, among, member⟩ := List.mem_flatMap.mp member
  exact ⟨level, among, fst_of_mem_levelEntries member⟩

end Levels

/-! ## Searching -/

theorem intResult_eq {value : Int} (above : -2 ^ 31 ≤ value) (below : value < 2 ^ 31) :
    intResult value = .ok value :=
  if_pos ⟨above, below⟩

theorem intResult_undefined {value : Int} (outside : 2 ^ 31 ≤ value ∨ value < -2 ^ 31) :
    intResult value = .undefined :=
  if_neg (by omega)

/-- The answer that a bucket belongs at `index`. -/
def insertAt (index : Nat) : Exec Int := do
  let next ← intResult (index + 1)
  intResult (-next)

/-- Where a priority stands tells how it compares. -/
theorem getElem?_split {priorities front here back : List Int} {prio priority : Int} {index : Nat}
    (split : priorities = front ++ (here ++ back)) (only : ∀ other ∈ here, other = prio)
    (before : ∀ other ∈ front, prio < other) (behind : ∀ other ∈ back, other < prio)
    (at_index : priorities[index]? = some priority) :
    (index < front.length ∧ prio < priority) ∨
      (front.length ≤ index ∧ index < front.length + here.length ∧ priority = prio) ∨
      (front.length + here.length ≤ index ∧ priority < prio) := by
  subst split
  by_cases early : index < front.length
  · rw [List.getElem?_append_left early] at at_index
    exact .inl ⟨early, before _ (List.mem_of_getElem? at_index)⟩
  · rw [List.getElem?_append_right (Nat.not_lt.mp early)] at at_index
    by_cases inside : index - front.length < here.length
    · rw [List.getElem?_append_left inside] at at_index
      exact .inr (.inl ⟨Nat.not_lt.mp early, by omega, only _ (List.mem_of_getElem? at_index)⟩)
    · rw [List.getElem?_append_right (Nat.not_lt.mp inside)] at at_index
      exact .inr (.inr ⟨by omega, behind _ (List.mem_of_getElem? at_index)⟩)

/-- A search among descending priorities meets the one it is for, if it is there, and else
the place where it belongs. -/
theorem searchBuckets_eq {buckets : Storage UcbPqueueBucket} {priorities front here back : List Int}
    {prio : Int}
    (loads : ∀ index priority, priorities[index]? = some priority →
      ∃ bucket, buckets.load index = .ok bucket ∧ bucket.priority = priority)
    (split : priorities = front ++ (here ++ back)) (only : ∀ other ∈ here, other = prio)
    (single : here.length ≤ 1) (before : ∀ other ∈ front, prio < other)
    (behind : ∀ other ∈ back, other < prio) (countable : priorities.length < 2 ^ 31) :
    ∀ {fuel low stop : Nat}, low ≤ front.length → front.length + here.length ≤ stop →
      stop ≤ priorities.length → stop - low < fuel →
      searchBuckets buckets prio fuel low ((stop : Int) - 1) =
        if here = [] then insertAt front.length else .ok front.length := by
  intro fuel
  induction fuel with
  | zero =>
      intro low stop _ _ _ enough
      exact absurd enough (Nat.not_lt_zero _)
  | succ fuel inductionHypothesis =>
      intro low stop lowest highest inside enough
      rw [searchBuckets]
      by_cases more : (low : Int) ≤ (stop : Int) - 1
      · obtain ⟨mid, halfway⟩ : ∃ mid, mid = low + (stop - 1 - low) / 2 := ⟨_, rfl⟩
        have within : low ≤ mid ∧ mid < stop := by omega
        have distance : intResult ((stop : Int) - 1 - low) = .ok ((stop : Int) - 1 - low) :=
          intResult_eq (by omega) (by omega)
        have middle : (low : Int) + ((stop : Int) - 1 - low).tdiv 2 = (mid : Int) := by
          rw [Int.tdiv_eq_ediv_of_nonneg (by omega)]
          omega
        have is_int : intResult (mid : Int) = .ok (mid : Int) :=
          intResult_eq (by omega) (by omega)
        have here_at : priorities[mid]? = some priorities[mid] :=
          List.getElem?_eq_getElem (by omega)
        obtain ⟨bucket, loaded, priority⟩ := loads mid _ here_at
        rw [if_pos more, distance, Exec.ok_bind, middle, is_int, Exec.ok_bind, Int.toNat_natCast,
          loaded, Exec.ok_bind, priority]
        rcases getElem?_split split only before behind here_at with
          ⟨early, higher⟩ | ⟨from_front, inside_here, same⟩ | ⟨late, lower⟩
        · have up : intResult ((mid : Int) + 1) = .ok ((mid + 1 : Nat) : Int) :=
            intResult_eq (by omega) (by omega)
          rw [if_neg (by omega), if_pos (by omega), up, Exec.ok_bind]
          exact inductionHypothesis (by omega) highest inside (by omega)
        · have place : mid = front.length := by omega
          have nonempty : here ≠ [] := List.ne_nil_of_length_pos (by omega)
          rw [if_pos same, if_neg nonempty, place]
          rfl
        · have down : intResult ((mid : Int) - 1) = .ok ((mid : Int) - 1) :=
            intResult_eq (by omega) (by omega)
          rw [if_neg (by omega), if_neg (by omega), down, Exec.ok_bind]
          exact inductionHypothesis lowest (by omega) (by omega) (by omega)
      · have empty : here = [] := List.eq_nil_of_length_eq_zero (by omega)
        have place : low = front.length := by omega
        rw [if_neg more, if_pos empty, insertAt, place]

section Held

variable {pq : UcbPqueue} {levels front here back : List (Level α)} {level : Level α} {prio : Int}

theorem cellsOf_append (front back : List (Level α)) :
    cellsOf (front ++ back) = cellsOf front ++ cellsOf back := by
  rw [cellsOf, List.map_append, List.map_append]
  rfl

@[simp] theorem cellsOf_length (levels : List (Level α)) :
    (cellsOf levels).length = levels.length := by
  rw [cellsOf, List.length_map, List.length_map]

theorem Held.load (held : Held pq levels) {index : Nat} (present : levels[index]? = some level) :
    pq.buckets.load index = .ok (bucketOf level) := by
  obtain ⟨spare, array, -⟩ := held.array
  rw [array]
  refine load_filled ⟨spare, rfl⟩ ?_
  rw [List.getElem?_map, present]
  rfl

theorem search_eq (held : Held pq (front ++ (here ++ back)))
    (only : ∀ other ∈ here, other.1 = prio) (single : here.length ≤ 1)
    (before : ∀ other ∈ front, prio < other.1) (behind : ∀ other ∈ back, other.1 < prio)
    (countable : pq.numBuckets < 2 ^ 31) :
    ucbPqueueSearchBucket pq prio =
      if here = [] then insertAt front.length else .ok front.length := by
  have count := held.count
  have wraps : Int.bmod pq.numBuckets (2 ^ 32) = pq.numBuckets :=
    Int.bmod_eq_of_le (by omega) (by omega)
  have last : intResult ((pq.numBuckets : Int) - 1) = .ok ((pq.numBuckets : Int) - 1) :=
    intResult_eq (by omega) (by omega)
  have loads : ∀ index priority,
      ((front ++ (here ++ back)).map Prod.fst)[index]? = some priority →
        ∃ bucket, pq.buckets.load index = .ok bucket ∧ bucket.priority = priority := by
    intro index priority present
    rw [List.getElem?_map] at present
    obtain ⟨level, found, rfl⟩ := Option.map_eq_some_iff.mp present
    exact ⟨bucketOf level, held.load found, rfl⟩
  have in_map {part : List (Level α)} {holds : Int → Prop} (each : ∀ other ∈ part, holds other.1) :
      ∀ priority ∈ part.map Prod.fst, holds priority := by
    intro priority member
    obtain ⟨other, among, rfl⟩ := List.mem_map.mp member
    exact each other among
  have length : ((front ++ (here ++ back)).map Prod.fst).length = pq.numBuckets := by
    rw [List.length_map, count]
  have split : (front ++ (here ++ back)).map Prod.fst =
      front.map Prod.fst ++ (here.map Prod.fst ++ back.map Prod.fst) := by
    rw [List.map_append, List.map_append]
  have inside : front.length + here.length ≤ pq.numBuckets := by
    rw [count, List.length_append, List.length_append]
    omega
  have search := searchBuckets_eq loads split (in_map only) (by rwa [List.length_map])
    (in_map before) (in_map behind) (by rwa [length]) (Nat.zero_le _)
    (by rwa [List.length_map, List.length_map]) (Nat.le_of_eq length.symm)
    (Nat.lt_succ_self (pq.numBuckets - 0))
  rw [List.length_map] at search
  rw [ucbPqueueSearchBucket, wraps, last, Exec.ok_bind]
  simpa using search

theorem search_undefined (many : pq.numBuckets = 2 ^ 31) :
    ucbPqueueSearchBucket pq prio = .undefined := by
  rw [ucbPqueueSearchBucket, many]
  rfl

/-! ## The array of buckets -/

theorem itemsBefore_eq (held : Held pq levels) {count : Nat} (inside : count ≤ levels.length) :
    itemsBefore pq.buckets count = .ok (entriesOf (levels.take count)).length := by
  induction count with
  | zero => rfl
  | succ count inductionHypothesis =>
      have present : levels[count]? = some levels[count] := List.getElem?_eq_getElem inside
      have last : (entriesOf (levels.take (count + 1))).length =
          levels[count].2.length + (entriesOf (levels.take count)).length := by
        rw [List.take_add_one, present, entriesOf_append, List.length_append, Nat.add_comm]
        simp [entriesOf, levelEntries]
      rw [itemsBefore, held.load present, Exec.ok_bind, inductionHypothesis (Nat.le_of_lt inside),
        last]
      rfl

/-- The last item of a level comes out behind the others of its level and of those before. -/
theorem insertedPosition_eq (held : Held pq (front ++ level :: back)) :
    insertedPosition pq.buckets front.length =
      .ok (level.2.length - 1 + (entriesOf front).length) := by
  have present : (front ++ level :: back)[front.length]? = some level := by simp
  have inside : front.length ≤ (front ++ level :: back).length := by simp
  have before := itemsBefore_eq held inside
  rw [List.take_left] at before
  rw [insertedPosition, held.load present, Exec.ok_bind, before]
  rfl

theorem store_bucket (front back : List (Level α)) (cell : Option UcbPqueueBucket)
    (spare : List (Option UcbPqueueBucket)) (level : Level α) :
    (Storage.heap (cellsOf front ++ cell :: (cellsOf back ++ spare))).store front.length
        (bucketOf level) =
      .ok (.heap (cellsOf (front ++ level :: back) ++ spare)) := by
  have stored := store_cells (front.map bucketOf) cell (cellsOf back ++ spare) (bucketOf level)
  rw [List.length_map] at stored
  rw [cellsOf_append, List.append_assoc]
  refine stored.trans ?_
  rw [List.map_append, List.append_assoc]
  rfl

theorem Held.store (front : List (Level α)) (level' : Level α)
    (held : Held pq (front ++ level :: back)) :
    ∃ buckets, pq.buckets.store front.length (bucketOf level') = .ok buckets ∧
      Held { pq with buckets := buckets } (front ++ level' :: back) := by
  obtain ⟨spare, array, length⟩ := held.array
  rw [cellsOf_append, List.append_assoc] at array
  refine ⟨.heap (cellsOf (front ++ level' :: back) ++ spare), ?_, ?_, ⟨spare, rfl, ?_⟩, held.room,
    held.small⟩
  · rw [array]
    exact store_bucket front back (some (bucketOf level)) spare level'
  · rw [held.count, List.length_append, List.length_append]
    rfl
  · rw [← length, List.length_append, List.length_append]
    rfl

variable {allocator : Allocator}

/-- How many buckets there is room for after growing. -/
def grownCapacity (pq : UcbPqueue) : Nat :=
  if pq.numBuckets = pq.allocBuckets then pq.allocBuckets * pqueueBucketsGrowFactor
  else pq.allocBuckets

/-- The array of buckets may grow if it is full. -/
def GrowthGranted (allocator : Allocator) (pq : UcbPqueue) : Prop :=
  pq.numBuckets = pq.allocBuckets →
    allocator.grants .realloc (pq.allocBuckets * pqueueBucketsGrowFactor * bucketSize) = true

/-- How many buckets there is room for after fitting. -/
def fittedCapacity (pq : UcbPqueue) : Nat :=
  if pq.numBuckets > pqueueInitialNumBuckets ∧ pq.numBuckets < pq.allocBuckets then pq.numBuckets
  else pq.allocBuckets

/-- The array of buckets may be cut to the buckets there are. -/
def FitGranted (allocator : Allocator) (pq : UcbPqueue) : Prop :=
  pqueueInitialNumBuckets < pq.numBuckets → pq.numBuckets < pq.allocBuckets →
    allocator.grants .realloc (pq.numBuckets * bucketSize) = true

theorem grow_held (granted : GrowthGranted allocator pq) (held : Held pq levels)
    (countable : pq.numBuckets < 2 ^ 31) :
    ∃ buckets,
      growBuckets allocator pq =
        .ok ({ pq with buckets := buckets, allocBuckets := grownCapacity pq }, true) ∧
      Held { pq with buckets := buckets, allocBuckets := grownCapacity pq } levels ∧
      pq.numBuckets < grownCapacity pq := by
  obtain ⟨spare, array, length⟩ := held.array
  have count := held.count
  have room := held.room
  by_cases full : pq.numBuckets = pq.allocBuckets
  · have wraps : pq.allocBuckets * pqueueBucketsGrowFactor % 2 ^ 64 = pq.allocBuckets * 2 :=
      Nat.mod_eq_of_lt (by rw [pqueueBucketsGrowFactor]; omega)
    have grown : grownCapacity pq = pq.allocBuckets * 2 := if_pos full
    have asked := realloc_heap (granted full)
      (cellsOf levels ++ spare) (by decide) (Nat.mul_pos room (by decide))
      (by rw [pqueueBucketsGrowFactor, bucketSize]; omega)
    rw [pqueueBucketsGrowFactor] at asked
    have whole : (cellsOf levels ++ spare).length = pq.allocBuckets := by
      rw [List.length_append, cellsOf_length, length]
    rw [List.take_of_length_le (by omega), whole, List.append_assoc] at asked
    rw [grown]
    refine ⟨.heap (cellsOf levels ++
      (spare ++ List.replicate (pq.allocBuckets * 2 - pq.allocBuckets) none)),
      ?_, ⟨count, ⟨_, rfl, ?_⟩, ?_, ?_⟩, ?_⟩
    · rw [growBuckets, if_pos full, array, wraps]
      simp only [asked, Exec.ok_bind]
      rfl
    · rw [List.length_append, List.length_replicate]
      show levels.length + (spare.length + (pq.allocBuckets * 2 - pq.allocBuckets)) =
        pq.allocBuckets * 2
      omega
    · exact Nat.mul_pos room Nat.two_pos
    · show pq.allocBuckets * 2 ≤ 2 ^ 32
      omega
    · omega
  · have same : grownCapacity pq = pq.allocBuckets := if_neg full
    rw [same]
    refine ⟨pq.buckets, if_neg full, held, ?_⟩
    omega

/-- An array that may not grow is gone. -/
theorem grow_refused (held : Held pq levels) (refused : ¬ GrowthGranted allocator pq) :
    growBuckets allocator pq = .ok ({ pq with buckets := .dangling }, false) := by
  obtain ⟨spare, array, length⟩ := held.array
  have small := held.small
  rw [GrowthGranted, Classical.not_imp] at refused
  obtain ⟨full, refused⟩ := refused
  have wraps : pq.allocBuckets * pqueueBucketsGrowFactor % 2 ^ 64 =
      pq.allocBuckets * pqueueBucketsGrowFactor :=
    Nat.mod_eq_of_lt (by rw [pqueueBucketsGrowFactor]; omega)
  have bytes : pq.allocBuckets * pqueueBucketsGrowFactor * bucketSize % 2 ^ 64 =
      pq.allocBuckets * pqueueBucketsGrowFactor * bucketSize :=
    Nat.mod_eq_of_lt (by rw [pqueueBucketsGrowFactor, bucketSize]; omega)
  rw [← bytes] at refused
  rw [growBuckets, if_pos full, wraps]
  simp only [realloc_refused refused (array ▸ rfl : pq.buckets.freed = .ok .dangling),
    Exec.ok_bind]
  rfl

/-- Moving the buckets behind a place leaves a cell for one in it. -/
theorem shift_held (held : Held pq (front ++ back)) (room : pq.numBuckets < pq.allocBuckets) :
    ∃ cell spare, shiftBuckets pq front.length =
        .ok (.heap (cellsOf front ++ cell :: (cellsOf back ++ spare))) ∧
      (front ++ back).length + (spare.length + 1) = pq.allocBuckets := by
  obtain ⟨spare, array, length⟩ := held.array
  have count := held.count
  rw [List.length_append] at count
  cases spare with
  | nil =>
      rw [List.length_nil, Nat.add_zero, ← held.count] at length
      exact absurd length (Nat.ne_of_lt room)
  | cons cell spare =>
      rw [cellsOf_append, List.append_assoc] at array
      by_cases last : front.length = pq.numBuckets
      · obtain rfl : back = [] := List.eq_nil_of_length_eq_zero (by omega)
        exact ⟨cell, spare, by rw [shiftBuckets, if_pos last, array]; rfl, length⟩
      · obtain ⟨left, single, moved⟩ :=
          move_up (front.map bucketOf) (back.map bucketOf) [cell] spare
        obtain ⟨cell', rfl⟩ := List.length_eq_one_iff.mp single
        have behind : pq.numBuckets - front.length = back.length := by omega
        rw [List.length_map, List.length_map] at moved
        refine ⟨cell', spare, ?_, length⟩
        rw [shiftBuckets, if_neg last, behind, array]
        exact moved

theorem insert_held (held : Held pq (front ++ back)) (room : pq.numBuckets < pq.allocBuckets)
    (level : Level α) :
    ∃ shifted buckets, shiftBuckets pq front.length = .ok shifted ∧
      shifted.store front.length (bucketOf level) = .ok buckets ∧
      Held { pq with buckets := buckets, numBuckets := pq.numBuckets + 1 }
        (front ++ level :: back) := by
  obtain ⟨cell, spare, shifted, length⟩ := shift_held held room
  have more : (front ++ level :: back).length = (front ++ back).length + 1 := by
    rw [List.length_append, List.length_append]
    rfl
  refine ⟨_, _, shifted, store_bucket front back cell spare level, ?_, ⟨spare, rfl, ?_⟩,
    held.room, held.small⟩
  · rw [held.count, more]
  · rw [more, ← length, Nat.add_assoc, Nat.add_comm 1]

/-- The first bucket is dropped when its last item has been taken out. -/
theorem drop_held (held : Held pq (level :: back)) {bucket : UcbPqueueBucket}
    (none : bucket.numItems = 0) :
    ∃ stored buckets, pq.buckets.store 0 bucket = .ok stored ∧
      dropFirstIfEmpty { pq with buckets := stored } bucket =
        .ok { pq with buckets := buckets, numBuckets := pq.numBuckets - 1 } ∧
      Held { pq with buckets := buckets, numBuckets := pq.numBuckets - 1 } back := by
  obtain ⟨spare, array, length⟩ := held.array
  have count := held.count
  rw [List.length_cons] at count length
  have fewer : pq.numBuckets - 1 = back.length := by omega
  refine ⟨.heap (some bucket :: (cellsOf back ++ spare)), ?_⟩
  have stored :
      pq.buckets.store 0 bucket = .ok (.heap (some bucket :: (cellsOf back ++ spare))) := by
    rw [array]
    exact store_cells [] (some (bucketOf level)) (cellsOf back ++ spare) bucket
  by_cases more : pq.numBuckets > 1
  · obtain ⟨left, single, moved⟩ := move_down [] (back.map bucketOf) [some bucket] spare
    rw [List.length_map] at moved
    refine ⟨_, stored, ?_, fewer, ⟨left ++ spare, rfl, ?_⟩, held.room, held.small⟩
    · rw [dropFirstIfEmpty, if_pos none, if_pos more, fewer]
      exact congrArg (· >>= _) moved
    · simp only [List.length_append, single, ← length, List.length_cons, List.length_nil]
      omega
  · obtain rfl : back = [] := List.eq_nil_of_length_eq_zero (by omega)
    refine ⟨_, stored, ?_, fewer, ⟨some bucket :: spare, rfl, ?_⟩, held.room, held.small⟩
    · rw [dropFirstIfEmpty, if_pos none, if_neg more]
      rfl
    · rw [← length, List.length_cons, Nat.add_assoc, Nat.add_comm 1]

theorem fit_held {state : QueueState α} (granted : FitGranted allocator state.pq)
    (held : Held state.pq levels) :
    ∃ buckets, ucbPqueueFit allocator state =
        .ok { state with
          pq := { state.pq with buckets := buckets, allocBuckets := fittedCapacity state.pq } } ∧
      Held { state.pq with buckets := buckets, allocBuckets := fittedCapacity state.pq }
        levels := by
  obtain ⟨spare, array, length⟩ := held.array
  have count := held.count
  have small := held.small
  by_cases spacious : state.pq.numBuckets > pqueueInitialNumBuckets ∧
      state.pq.numBuckets < state.pq.allocBuckets
  · have positive : 0 < state.pq.numBuckets := Nat.zero_lt_of_lt spacious.1
    have fitted : fittedCapacity state.pq = state.pq.numBuckets := if_pos spacious
    have asked := realloc_heap (granted spacious.1 spacious.2)
      (cellsOf levels ++ spare) (by decide) positive (by rw [bucketSize]; omega)
    have exact : (cellsOf levels ++ spare).take state.pq.numBuckets = cellsOf levels := by
      rw [count, ← cellsOf_length levels, List.take_left]
    have enough : state.pq.numBuckets - (cellsOf levels ++ spare).length = 0 := by
      rw [List.length_append, cellsOf_length]
      omega
    rw [exact, enough] at asked
    rw [fitted]
    refine ⟨.heap (cellsOf levels ++ []), ?_, count, ⟨[], rfl, count.symm⟩, positive, ?_⟩
    · rw [ucbPqueueFit, if_pos spacious, array, asked]
      rfl
    · exact Nat.le_trans (Nat.le_of_lt spacious.2) small
  · have same : fittedCapacity state.pq = state.pq.allocBuckets := if_neg spacious
    rw [same]
    exact ⟨state.pq.buckets, if_neg spacious, held⟩

end Held

/-! ## The chains of nodes -/

section Linked

variable {nodes : Nat → Option (UcbFwdlistNode α)} {unused : Nat}
  {front back levels : List (Level α)} {level : Level α} {prio : Int}

/-- Chains that share no node with the address do not change with it. -/
theorem chained_update {address : Nat} (elsewhere : address ∉ level.2.map Prod.fst)
    (chained : Segment nodes (bucketOf level).first level.2 none)
    (cell : Option (UcbFwdlistNode α)) :
    Segment (Function.update nodes address cell) (bucketOf level).first level.2 none :=
  chained.update elsewhere cell

theorem Linked.unused_notMem (linked : Linked nodes unused levels) (member : level ∈ levels) :
    unused ∉ level.2.map Prod.fst :=
  fun here => Nat.lt_irrefl _ (linked.allocated unused (mem_addresses member here))

/-- A priority in its place among the others. -/
theorem descending_insert {front back : List Int} {prio : Int}
    (descending : (front ++ back).Pairwise fun before after => after < before)
    (before : ∀ other ∈ front, prio < other) (behind : ∀ other ∈ back, other < prio) :
    (front ++ prio :: back).Pairwise fun before after => after < before := by
  obtain ⟨inFront, inBack, across⟩ := List.pairwise_append.mp descending
  refine List.pairwise_append.mpr ⟨inFront, List.pairwise_cons.mpr ⟨behind, inBack⟩, ?_⟩
  intro other member later isLater
  rcases List.mem_cons.mp isLater with rfl | isLater
  · exact before other member
  · exact across other member later isLater

/-- A node of its own for a priority without a level. -/
theorem Linked.insert (linked : Linked nodes unused (front ++ back))
    (before : ∀ other ∈ front, prio < other.1) (behind : ∀ other ∈ back, other.1 < prio)
    (item : α) :
    Linked (Function.update nodes unused (some ⟨none, item⟩)) (unused + 1)
      (front ++ (prio, [(unused, item)]) :: back) where
  descending := by
    have descending := linked.descending
    rw [List.map_append] at descending ⊢
    exact descending_insert descending (List.forall_mem_map.mpr before)
      (List.forall_mem_map.mpr behind)
  nonempty := by
    intro level member
    rcases mem_middle member with rfl | member
    · exact List.cons_ne_nil _ _
    · exact linked.nonempty level member
  chained := by
    intro level member
    rcases mem_middle member with rfl | member
    · exact ⟨rfl, none, Function.update_self .., rfl⟩
    · exact chained_update (linked.unused_notMem member) (linked.chained level member) _
  apart := by
    refine (addresses_middle front back _).nodup_iff.mpr (List.nodup_cons.mpr ⟨?_, linked.apart⟩)
    exact fun here => Nat.lt_irrefl _ (linked.allocated unused here)
  allocated := by
    intro address member
    rcases List.mem_cons.mp ((addresses_middle front back _).mem_iff.mp member) with rfl | member
    · exact Nat.lt_succ_self _
    · exact Nat.lt_succ_of_lt (linked.allocated address member)

theorem Linked.notMem_other (linked : Linked nodes unused (front ++ level :: back)) {address : Nat}
    (here : address ∈ level.2.map Prod.fst) {other : Level α} (member : other ∈ front ++ back) :
    address ∉ other.2.map Prod.fst := by
  have apart := (addresses_middle front back level).nodup_iff.mp linked.apart
  exact fun there => List.disjoint_of_nodup_append apart here (mem_addresses member there)

theorem Linked.append {cells : List (Nat × α)} {last : Nat} {item item' : α}
    (linked : Linked nodes unused (front ++ (prio, cells ++ [(last, item')]) :: back)) :
    Linked (Function.update (Function.update nodes unused (some ⟨none, item⟩)) last
        (some ⟨some unused, item'⟩)) (unused + 1)
      (front ++ (prio, cells ++ [(last, item')] ++ [(unused, item)]) :: back) := by
  have middle : (prio, cells ++ [(last, item')]) ∈
      front ++ (prio, cells ++ [(last, item')]) :: back := by simp
  have here : last ∈ (cells ++ [(last, item')]).map Prod.fst := by simp
  have nodup := (List.nodup_append.mp
    ((addresses_middle front back _).nodup_iff.mp linked.apart)).1
  have outside : last ∉ cells.map Prod.fst := by
    rw [List.map_append] at nodup
    exact fun early => List.disjoint_of_nodup_append nodup early (List.mem_singleton_self _)
  have among {level : Level α} (member : level ∈ front ++ back) :
      level ∈ front ++ (prio, cells ++ [(last, item')]) :: back := by
    rw [List.mem_append] at member ⊢
    exact member.imp_right (List.mem_cons_of_mem _)
  refine ⟨?_, ?_, ?_, ?_, ?_⟩
  · have descending := linked.descending
    rw [List.map_append] at descending ⊢
    exact descending
  · intro level member
    rcases mem_middle member with rfl | member
    · exact List.append_ne_nil_of_right_ne_nil _ (List.cons_ne_nil _ _)
    · exact linked.nonempty level (among member)
  · intro level member
    rcases mem_middle member with rfl | member
    · have new := linked.unused_notMem middle
      have chained := chained_update new (linked.chained _ middle) (some ⟨none, item⟩)
      have linked' := chained.link outside new (Function.update_self ..)
      have start : (bucketOf (prio, cells ++ [(last, item')] ++ [(unused, item)])).first =
          (bucketOf (prio, cells ++ [(last, item')])).first := by
        cases cells <;> rfl
      rw [start]
      exact linked'
    · have old := chained_update (linked.unused_notMem (among member))
        (linked.chained level (among member)) (some ⟨none, item⟩)
      exact chained_update (linked.notMem_other here member) old _
  · refine (addresses_middle front back _).nodup_iff.mpr ?_
    have apart := (addresses_middle front back _).nodup_iff.mp linked.apart
    have new : unused ∉ addresses (front ++ (prio, cells ++ [(last, item')]) :: back) :=
      fun there => Nat.lt_irrefl _ (linked.allocated unused there)
    rw [(addresses_middle front back _).mem_iff] at new
    rw [List.map_append, List.append_assoc]
    exact List.nodup_middle.mpr (List.nodup_cons.mpr ⟨new, apart⟩)
  · intro address member
    rw [(addresses_middle front back _).mem_iff, List.map_append, List.append_assoc,
      List.mem_append, List.mem_append, List.map_singleton, List.mem_singleton] at member
    have old {address : Nat} (there : address ∈ (cells ++ [(last, item')]).map Prod.fst ∨
        address ∈ addresses (front ++ back)) : address < unused :=
      linked.allocated address
        ((addresses_middle front back _).mem_iff.mpr (List.mem_append.mpr there))
    rcases member with early | rfl | late
    · exact Nat.lt_succ_of_lt (old (.inl early))
    · exact Nat.lt_succ_self _
    · exact Nat.lt_succ_of_lt (old (.inr late))

theorem Linked.update (linked : Linked nodes unused levels) {address : Nat}
    (elsewhere : address ∉ addresses levels) (cell : Option (UcbFwdlistNode α)) :
    Linked (Function.update nodes address cell) unused levels :=
  { linked with
    chained :=
      fun level member => chained_update (fun here => elsewhere (mem_addresses member here))
      (linked.chained level member) cell }

theorem Linked.tail (linked : Linked nodes unused (level :: back)) : Linked nodes unused back where
  descending := (List.pairwise_cons.mp linked.descending).2
  nonempty := fun other member => linked.nonempty other (List.mem_cons_of_mem _ member)
  chained := fun other member => linked.chained other (List.mem_cons_of_mem _ member)
  apart := by
    have apart := linked.apart
    rw [addresses_cons] at apart
    exact (List.nodup_append.mp apart).2.1
  allocated := fun address member => linked.allocated address (by
    rw [addresses_cons]
    exact List.mem_append_right _ member)

/-- A level without its first node, when it has others. -/
theorem Linked.dropFirst {cells : List (Nat × α)} {address : Nat} {item : α}
    (linked : Linked nodes unused ((prio, (address, item) :: cells) :: back)) (more : cells ≠ []) :
    Linked nodes unused ((prio, cells) :: back) where
  descending := linked.descending
  nonempty := by
    intro level member
    rcases List.mem_cons.mp member with rfl | later
    · exact more
    · exact linked.nonempty level (List.mem_cons_of_mem _ later)
  chained := by
    intro level member
    rcases List.mem_cons.mp member with rfl | later
    · obtain ⟨-, next, -, rest⟩ := linked.chained _ (List.mem_cons_self ..)
      have start : next = (bucketOf (prio, cells)).first := rest.start_eq
      exact start ▸ rest
    · exact linked.chained level (List.mem_cons_of_mem _ later)
  apart := (List.nodup_cons.mp linked.apart).2
  allocated := fun other member => linked.allocated other (List.mem_cons_of_mem _ member)

/-- The node at the head of the first chain is in memory. -/
theorem Linked.first_node {cells : List (Nat × α)} {address : Nat} {item : α}
    (linked : Linked nodes unused ((prio, (address, item) :: cells) :: back)) :
    nodes address = some ⟨cells.head?.map Prod.fst, item⟩ ∧
      address ∉ addresses ((prio, cells) :: back) := by
  obtain ⟨-, next, found, rest⟩ := linked.chained _ (List.mem_cons_self ..)
  exact ⟨rest.start_eq ▸ found, (List.nodup_cons.mp linked.apart).1⟩

end Linked

/-! ## Pushing -/

section Pushing

variable {allocator : Allocator} {pq : UcbPqueue} {nodes : Nat → Option (UcbFwdlistNode α)}
  {unused : Nat} {front back levels : List (Level α)} {prio : Int} {entries : List (Int × α)}

theorem levels_split (prio : Int) : ∀ {levels : List (Level α)},
    (levels.map Prod.fst).Pairwise (fun before after => after < before) →
      ∃ front here back, levels = front ++ (here ++ back) ∧ (∀ other ∈ here, other.1 = prio) ∧
        here.length ≤ 1 ∧ (∀ other ∈ front, prio < other.1) ∧ ∀ other ∈ back, other.1 < prio
  | [], _ => ⟨[], [], [], rfl, by simp, Nat.zero_le _, by simp, by simp⟩
  | level :: levels, descending => by
      obtain ⟨below, rest⟩ := List.pairwise_cons.mp descending
      have below : ∀ other ∈ levels, other.1 < level.1 :=
        fun other member => below other.1 (List.mem_map_of_mem member)
      by_cases higher : prio < level.1
      · obtain ⟨front, here, back, rfl, only, single, before, behind⟩ := levels_split prio rest
        exact ⟨level :: front, here, back, rfl, only, single, List.forall_mem_cons.mpr
          ⟨higher, before⟩, behind⟩
      · by_cases same : level.1 = prio
        · exact ⟨[], [level], levels, rfl, by simpa using same, Nat.le_refl _, by simp,
            fun other member => same ▸ below other member⟩
        · have lower : level.1 < prio := by omega
          refine ⟨[], [], level :: levels, rfl, by simp, Nat.zero_le _, by simp,
            List.forall_mem_cons.mpr ⟨lower, ?_⟩⟩
          exact fun other member => lt_trans (below other member) lower

/-- Entries of levels on one side of a priority are on that side. -/
theorem forall_entries (holds : Int → Prop) (each : ∀ other ∈ levels, holds other.1) :
    ∀ entry ∈ entriesOf levels, holds entry.1 := by
  intro entry member
  obtain ⟨level, among, same⟩ := fst_of_mem_entriesOf member
  exact same ▸ each level among

theorem mem_priorities (linked : Linked nodes unused levels) :
    prio ∈ (entriesOf levels).map Prod.fst ↔ prio ∈ levels.map Prod.fst := by
  rw [List.mem_map, List.mem_map]
  constructor
  · rintro ⟨entry, member, rfl⟩
    obtain ⟨level, among, same⟩ := fst_of_mem_entriesOf member
    exact ⟨level, among, same.symm⟩
  · rintro ⟨level, among, rfl⟩
    obtain ⟨cell, member⟩ := List.exists_mem_of_ne_nil _ (linked.nonempty level among)
    exact ⟨(level.1, cell.2), List.mem_flatMap.mpr ⟨level, among,
      List.mem_map_of_mem member⟩, rfl⟩

/-- Some entry has a priority if there is a level between those above and those below. -/
theorem mem_entries_iff {here : List (Level α)}
    (linked : Linked nodes unused (front ++ (here ++ back)))
    (sorted : StableQueue.Sorted (entriesOf (front ++ (here ++ back))) entries)
    (only : ∀ other ∈ here, other.1 = prio) (before : ∀ other ∈ front, prio < other.1)
    (behind : ∀ other ∈ back, other.1 < prio) :
    prio ∈ entries.map Prod.fst ↔ here ≠ [] := by
  rw [← (sorted.perm.map Prod.fst).mem_iff, mem_priorities linked]
  constructor
  · rintro member rfl
    obtain ⟨level, among, same⟩ := List.mem_map.mp member
    rcases List.mem_append.mp among with early | late
    · exact absurd same (ne_of_gt (before level early))
    · exact absurd same (ne_of_lt (behind level late))
  · intro nonempty
    obtain ⟨level, among⟩ := List.exists_mem_of_ne_nil _ nonempty
    exact List.mem_map.mpr ⟨level, by simp [among], only level among⟩

/-- An item behind those of its priority is put in its place. -/
theorem sorted_append {cells : List (Nat × α)} (node : Nat × α)
    (sorted : StableQueue.Sorted (entriesOf (front ++ (prio, cells) :: back)) entries)
    (before : ∀ other ∈ front, prio < other.1) (behind : ∀ other ∈ back, other.1 < prio) :
    StableQueue.Sorted (entriesOf (front ++ (prio, cells ++ [node]) :: back))
        (entries ++ [(prio, node.2)]) ∧
      StableQueue.position entries prio = cells.length + (entriesOf front).length := by
  have split : entriesOf (front ++ (prio, cells) :: back) =
      (entriesOf front ++ levelEntries (prio, cells)) ++ entriesOf back := by
    rw [entriesOf_append, entriesOf_cons, List.append_assoc]
  have put : entriesOf (front ++ (prio, cells ++ [node]) :: back) =
      (entriesOf front ++ levelEntries (prio, cells)) ++ (prio, node.2) :: entriesOf back := by
    rw [entriesOf_append, entriesOf_cons, levelEntries, List.map_append]
    simp [levelEntries]
  have high : ∀ entry ∈ entriesOf front ++ levelEntries (prio, cells), prio ≤ entry.1 := by
    intro entry member
    rcases List.mem_append.mp member with early | late
    · exact le_of_lt (forall_entries (prio < ·) before entry early)
    · exact le_of_eq (fst_of_mem_levelEntries late).symm
  have low : ∀ entry ∈ entriesOf back, entry.1 < prio := forall_entries (· < prio) behind
  rw [split] at sorted
  refine ⟨put ▸ sorted.put high low, ?_⟩
  rw [sorted.position_eq high low, List.length_append, Nat.add_comm, levelEntries, List.length_map]

theorem appendToBucket_eq {cells : List (Nat × α)} {last : Nat} {item' : α} (item : α)
    (held : Held pq (front ++ (prio, cells ++ [(last, item')]) :: back))
    (linked : Linked nodes unused (front ++ (prio, cells ++ [(last, item')]) :: back)) :
    ∃ buckets nodes',
      appendToBucket ⟨pq, Function.update nodes unused (some ⟨none, item⟩), unused + 1⟩
          front.length prio unused =
        .ok ⟨{ pq with buckets := buckets }, nodes', unused + 1⟩ ∧
      Held { pq with buckets := buckets }
        (front ++ (prio, cells ++ [(last, item')] ++ [(unused, item)]) :: back) ∧
      Linked nodes' (unused + 1)
        (front ++ (prio, cells ++ [(last, item')] ++ [(unused, item)]) :: back) := by
  have present : (front ++ (prio, cells ++ [(last, item')]) :: back)[front.length]? =
      some (prio, cells ++ [(last, item')]) := by simp
  have middle : (prio, cells ++ [(last, item')]) ∈
      front ++ (prio, cells ++ [(last, item')]) :: back := by simp
  obtain ⟨buckets, stored, held'⟩ :=
    held.store front (prio, cells ++ [(last, item')] ++ [(unused, item)])
  obtain ⟨between, -, here, next, found, ended⟩ :=
    segment_append.mp (linked.chained _ middle)
  obtain rfl : next = none := ended
  have apart : last ≠ unused := by
    rintro rfl
    exact linked.unused_notMem middle (by simp)
  have linkedTo : setNodeNext (Function.update nodes unused (some ⟨none, item⟩)) (some last)
      (some unused) = .ok (Function.update (Function.update nodes unused (some ⟨none, item⟩)) last
        (some ⟨some unused, item'⟩)) := by
    have at_last : Function.update nodes unused (some ⟨none, item⟩) last = some ⟨none, item'⟩ := by
      rw [Function.update_of_ne apart, found]
    simp only [setNodeNext, nodeAt, at_last]
    rfl
  refine ⟨buckets, _, ?_, held', linked.append⟩
  have bucket : bucketOf (prio, cells ++ [(last, item')]) =
      ⟨prio, (bucketOf (prio, cells ++ [(last, item')])).first, some last, cells.length + 1⟩ := by
    simp [bucketOf]
  have bucket' : bucketOf (prio, cells ++ [(last, item')] ++ [(unused, item)]) =
      ⟨prio, (bucketOf (prio, cells ++ [(last, item')])).first, some unused,
        cells.length + 1 + 1⟩ := by
    have first : (bucketOf (prio, cells ++ [(last, item')] ++ [(unused, item)])).first =
        (bucketOf (prio, cells ++ [(last, item')])).first := by
      cases cells <;> rfl
    rw [← first]
    simp [bucketOf]
  rw [bucket'] at stored
  rw [appendToBucket, held.load present, Exec.ok_bind, bucket]
  simp only [decide_true, ucbVerify_true, Exec.ok_bind, gt_iff_lt, Nat.succ_pos, linkedTo, stored]
  rfl

/-- The place of a priority among the buckets can be told in `int`: there are fewer than
2^31 buckets, and they do not take up all indices before the place. -/
def SearchFits (pq : UcbPqueue) (prio : Int) : Prop :=
  pq.numBuckets < 2 ^ 31 ∧
    (pq.numBuckets = 2 ^ 31 - 1 → ∃ idx bucket, idx < pq.numBuckets ∧
      pq.buckets.load idx = .ok bucket ∧ bucket.priority ≤ prio)

/-- The place of a bucket that is to be made is before the last index. -/
theorem place_fits (held : Held pq (front ++ back)) (before : ∀ other ∈ front, prio < other.1)
    (fits : SearchFits pq prio) : front.length < 2 ^ 31 - 1 := by
  have count := held.count
  rw [List.length_append] at count
  have countable := fits.1
  by_contra outside
  have full : pq.numBuckets = 2 ^ 31 - 1 := by omega
  obtain ⟨idx, bucket, present, loaded, low⟩ := fits.2 full
  have early : idx < front.length := by omega
  have level : (front ++ back)[idx]? = some front[idx] := by
    rw [List.getElem?_append_left early, List.getElem?_eq_getElem early]
  rw [held.load level] at loaded
  obtain rfl := Exec.ok.inj loaded
  exact absurd (before _ (List.getElem_mem early)) (not_lt.mpr low)

section Place

variable {here : List (Level α)} (held : Held pq (front ++ (here ++ back)))
  (only : ∀ other ∈ here, other.1 = prio) (single : here.length ≤ 1)
  (before : ∀ other ∈ front, prio < other.1) (behind : ∀ other ∈ back, other.1 < prio)
include held only single before behind

theorem search_fits (fits : SearchFits pq prio) :
    ucbPqueueSearchBucket pq prio =
      .ok (if here = [] then -((front.length : Int) + 1) else front.length) := by
  rw [search_eq held only single before behind fits.1]
  by_cases none : here = []
  · have inside := place_fits held before fits
    rw [if_pos none, if_pos none, insertAt, intResult_eq (by omega) (by omega), Exec.ok_bind,
      intResult_eq (by omega) (by omega)]
  · rw [if_neg none, if_neg none]

theorem search_unfit (countable : pq.numBuckets ≤ 2 ^ 31) (unfit : ¬ SearchFits pq prio) :
    ucbPqueueSearchBucket pq prio = .undefined := by
  by_cases many : pq.numBuckets = 2 ^ 31
  · exact search_undefined many
  · have fewer : pq.numBuckets < 2 ^ 31 := by omega
    have full : pq.numBuckets = 2 ^ 31 - 1 := by
      by_contra differs
      exact unfit ⟨fewer, fun same => absurd same differs⟩
    have high {level : Level α} {idx : Nat}
        (present : (front ++ (here ++ back))[idx]? = some level) :
        prio < level.1 := by
      by_contra low
      have inside : idx < pq.numBuckets := by
        rw [held.count]
        exact (List.getElem?_eq_some_iff.mp present).1
      exact unfit ⟨fewer, fun _ => ⟨idx, _, inside, held.load present, not_lt.mp low⟩⟩
    have none : here ++ back = [] := by
      refine List.eq_nil_iff_forall_not_mem.mpr fun level member => ?_
      obtain ⟨idx, present⟩ := List.mem_iff_getElem?.mp (List.mem_append_right front member)
      have above := high present
      rcases List.mem_append.mp member with isHere | isBehind
      · exact absurd (only level isHere) (ne_of_gt above)
      · exact absurd (behind level isBehind) (lt_asymm above)
    have count := held.count
    rw [none, List.append_nil] at count
    rw [search_eq held only single before behind fewer,
      if_pos (List.append_eq_nil_iff.mp none).1, insertAt, intResult_undefined (by omega)]
    rfl

end Place

variable {args : UcbPqueueArgs} {state : QueueState α}

def withNode (state : QueueState α) (item : α) : QueueState α :=
  { state with
    nodes := Function.update state.nodes state.unused (some ⟨none, item⟩)
    unused := state.unused + 1 }

theorem pushNode_insert (granted : GrowthGranted allocator state.pq)
    (held : Held state.pq (front ++ back))
    (linked : Linked state.nodes state.unused (front ++ back))
    (before : ∀ other ∈ front, prio < other.1) (behind : ∀ other ∈ back, other.1 < prio)
    (item : α) (countable : state.pq.numBuckets < 2 ^ 31) (inside : front.length < 2 ^ 31 - 1)
    (search : ucbPqueueSearchBucket state.pq prio = .ok (-((front.length : Int) + 1))) :
    ∃ after, ucbPqueuePushNode allocator (withNode state item) prio state.unused =
        .ok (after, some (entriesOf front).length) ∧
      after.pq.dataClone = state.pq.dataClone ∧ after.pq.dataFree = state.pq.dataFree ∧
      after.pq.numBuckets = state.pq.numBuckets + 1 ∧
      after.pq.allocBuckets = grownCapacity state.pq ∧
      Held after.pq (front ++ (prio, [(state.unused, item)]) :: back) ∧
      Linked after.nodes after.unused (front ++ (prio, [(state.unused, item)]) :: back) := by
  have count := held.count
  rw [List.length_append] at count
  obtain ⟨buckets, grew, grown, room⟩ := grow_held granted held countable
  obtain ⟨shifted, buckets', shift, stored, held'⟩ :=
    insert_held grown room (prio, [(state.unused, item)])
  have negated : intResult (-(-((front.length : Int) + 1))) = .ok ((front.length : Int) + 1) := by
    rw [Int.neg_neg]
    exact intResult_eq (by omega) (by omega)
  have place : intResult ((front.length : Int) + 1 - 1) = .ok (front.length : Int) := by
    rw [Int.add_sub_cancel]
    exact intResult_eq (by omega) (by omega)
  have inserted : insertBucket
      { withNode state item with
        pq := { state.pq with buckets := buckets, allocBuckets := grownCapacity state.pq } }
      front.length prio state.unused =
      .ok ⟨{ state.pq with
          buckets := buckets'
          allocBuckets := grownCapacity state.pq
          numBuckets := state.pq.numBuckets + 1 }, (withNode state item).nodes,
        state.unused + 1⟩ := by
    have unlinked : setNodeNext (withNode state item).nodes (some state.unused) none =
        .ok (withNode state item).nodes := by
      have at_unused : (withNode state item).nodes state.unused = some ⟨none, item⟩ :=
        Function.update_self ..
      simp only [setNodeNext, nodeAt, at_unused]
      exact congrArg Exec.ok (Function.update_eq_self_iff.mpr at_unused.symm)
    have stored : shifted.store front.length ⟨prio, some state.unused, some state.unused, 1⟩ =
        .ok buckets' := stored
    rw [insertBucket, shift, Exec.ok_bind, stored, Exec.ok_bind, unlinked]
    rfl
  refine ⟨⟨{ state.pq with
      buckets := buckets'
      allocBuckets := grownCapacity state.pq
      numBuckets := state.pq.numBuckets + 1 }, (withNode state item).nodes, state.unused + 1⟩,
    ?_, rfl, rfl, rfl, rfl, held', linked.insert before behind item⟩
  have unlocked : (withNode state item).pq = state.pq := rfl
  have position := insertedPosition_eq held'
  rw [ucbPqueuePushNode, unlocked, search, Exec.ok_bind, if_neg (by omega), negated, Exec.ok_bind,
    place, Exec.ok_bind, grew, Exec.ok_bind]
  dsimp only
  rw [if_pos rfl, Int.toNat_natCast, inserted, Exec.ok_bind]
  dsimp only
  dsimp only at position
  rw [position]
  simp

theorem pushNode_append {cells : List (Nat × α)}
    (held : Held state.pq (front ++ (prio, cells) :: back))
    (linked : Linked state.nodes state.unused (front ++ (prio, cells) :: back)) (item : α)
    (search : ucbPqueueSearchBucket state.pq prio = .ok (front.length : Int)) :
    ∃ after, ucbPqueuePushNode allocator (withNode state item) prio state.unused =
        .ok (after, some (cells.length + (entriesOf front).length)) ∧
      after.pq.dataClone = state.pq.dataClone ∧ after.pq.dataFree = state.pq.dataFree ∧
      after.pq.numBuckets = state.pq.numBuckets ∧
      after.pq.allocBuckets = state.pq.allocBuckets ∧
      Held after.pq (front ++ (prio, cells ++ [(state.unused, item)]) :: back) ∧
      Linked after.nodes after.unused
        (front ++ (prio, cells ++ [(state.unused, item)]) :: back) := by
  have nonempty := linked.nonempty (prio, cells) (by simp)
  obtain ⟨init, ⟨last, item'⟩, rfl⟩ := (List.eq_nil_or_concat' cells).resolve_left nonempty
  obtain ⟨buckets, nodes', appended, held', linked'⟩ := appendToBucket_eq item held linked
  refine ⟨⟨{ state.pq with buckets := buckets }, nodes', state.unused + 1⟩, ?_, rfl, rfl, rfl,
    rfl, held', linked'⟩
  have unlocked : (withNode state item).pq = state.pq := rfl
  have position := insertedPosition_eq held'
  dsimp only at position
  rw [ucbPqueuePushNode, unlocked, search, Exec.ok_bind, if_pos (by omega), Int.toNat_natCast]
  rw [withNode, appended, Exec.ok_bind]
  dsimp only
  rw [position]
  simp

/-- A push whose search fits puts the item in its place, unless an array that has to grow may
not. -/
theorem pushNode_queued (queued : Queued args state entries) (item : α)
    (fits : SearchFits state.pq prio)
    (granted : prio ∉ entries.map Prod.fst → GrowthGranted allocator state.pq) :
    ∃ after, ucbPqueuePushNode allocator (withNode state item) prio state.unused =
        .ok (after, some (StableQueue.position entries prio)) ∧
      Queued args after (entries ++ [(prio, item)]) ∧
      after.pq.allocBuckets =
        if prio ∈ entries.map Prod.fst then state.pq.allocBuckets else grownCapacity state.pq := by
  obtain ⟨levels, held, linked, sorted⟩ := queued.levels
  obtain ⟨front, here, back, rfl, only, single, before, behind⟩ :=
    levels_split prio linked.descending
  have search := search_fits held only single before behind fits
  have present := mem_entries_iff linked sorted only before behind
  have countable := fits.1
  cases here with
  | nil =>
      have isNew : prio ∉ entries.map Prod.fst := fun member => present.mp member rfl
      have inside := place_fits held before fits
      obtain ⟨after, pushed, clone, free, count, capacity, held', linked'⟩ := pushNode_insert
        (granted isNew) held linked before behind item countable inside search
      have empty : entriesOf (front ++ (prio, ([] : List (Nat × α))) :: back) =
          entriesOf (front ++ back) := by
        rw [entriesOf_append, entriesOf_append, entriesOf_cons]
        rfl
      rw [List.nil_append, ← empty] at sorted
      obtain ⟨sorted', position⟩ := sorted_append (state.unused, item) sorted before behind
      rw [List.length_nil, Nat.zero_add] at position
      rw [position, if_neg isNew]
      exact ⟨after, pushed, ⟨clone.trans queued.clone, free.trans queued.free,
        by omega, _, held', linked', sorted'⟩, capacity⟩
  | cons level more =>
      obtain rfl : more = [] := List.eq_nil_of_length_eq_zero (by simpa using single)
      obtain ⟨prio', cells⟩ := level
      obtain rfl : prio' = prio := only _ (List.mem_singleton_self _)
      obtain ⟨after, pushed, clone, free, count, capacity, held', linked'⟩ :=
        pushNode_append held linked item search
      obtain ⟨sorted', position⟩ := sorted_append (state.unused, item) sorted before behind
      rw [position, if_pos (present.mpr (List.cons_ne_nil _ _))]
      exact ⟨after, pushed, ⟨clone.trans queued.clone, free.trans queued.free,
        by omega, _, held', linked', sorted'⟩, capacity⟩

/-- A push for which the array would have to grow and may not has lost the array. -/
theorem pushNode_refused (queued : Queued args state entries) (item : α)
    (fits : SearchFits state.pq prio) (isNew : prio ∉ entries.map Prod.fst)
    (refused : ¬ GrowthGranted allocator state.pq) :
    ucbPqueuePushNode allocator (withNode state item) prio state.unused =
      .ok ({ withNode state item with pq := { state.pq with buckets := .dangling } }, none) := by
  obtain ⟨levels, held, linked, sorted⟩ := queued.levels
  obtain ⟨front, here, back, rfl, only, single, before, behind⟩ :=
    levels_split prio linked.descending
  have search := search_fits held only single before behind fits
  obtain rfl : here = [] := by
    by_contra nonempty
    exact isNew ((mem_entries_iff linked sorted only before behind).mpr nonempty)
  have inside := place_fits held before fits
  have negated : intResult (-(-((front.length : Int) + 1))) = .ok ((front.length : Int) + 1) := by
    rw [Int.neg_neg]
    exact intResult_eq (by omega) (by omega)
  have place : intResult ((front.length : Int) + 1 - 1) = .ok (front.length : Int) := by
    rw [Int.add_sub_cancel]
    exact intResult_eq (by omega) (by omega)
  have unlocked : (withNode state item).pq = state.pq := rfl
  rw [ucbPqueuePushNode, unlocked, search, if_pos rfl, Exec.ok_bind, if_neg (by omega), negated,
    Exec.ok_bind, place, Exec.ok_bind, grow_refused held refused, Exec.ok_bind]
  rfl

theorem pushNode_unfit (queued : Queued args state entries) (item : α)
    (unfit : ¬ SearchFits state.pq prio) :
    ucbPqueuePushNode allocator (withNode state item) prio state.unused = .undefined := by
  obtain ⟨levels, held, linked, -⟩ := queued.levels
  obtain ⟨front, here, back, rfl, only, single, before, behind⟩ :=
    levels_split prio linked.descending
  have unlocked : (withNode state item).pq = state.pq := rfl
  rw [ucbPqueuePushNode, unlocked,
    search_unfit held only single before behind queued.countable unfit]
  rfl

end Pushing

/-! ## The other operations -/

section Others

variable {allocator : Allocator} {args : UcbPqueueArgs} {state : QueueState α}
  {entries : List (Int × α)}

/-- A queue has no buckets and no entries, or its first entry is at the head of the first
chain. -/
theorem Queued.cases (queued : Queued args state entries) :
    (state.pq.numBuckets = 0 ∧ entries = []) ∨
    ∃ prio address item cells back, state.pq.numBuckets = List.length back + 1 ∧
      Held state.pq ((prio, (address, item) :: cells) :: back) ∧
      Linked state.nodes state.unused ((prio, (address, item) :: cells) :: back) ∧
      StableQueue.Sorted ((prio, item) :: entriesOf ((prio, cells) :: back)) entries := by
  obtain ⟨levels, held, linked, sorted⟩ := queued.levels
  cases levels with
  | nil => exact .inl ⟨held.count, sorted.entries_nil⟩
  | cons level back =>
      obtain ⟨prio, cells⟩ := level
      cases cells with
      | nil => exact absurd rfl (linked.nonempty _ (List.mem_cons_self ..))
      | cons cell cells =>
          exact .inr ⟨prio, cell.1, cell.2, cells, back, held.count, held, linked, sorted⟩

theorem firstNode_eq {prio : Int} {address : Nat} {item : α} {cells : List (Nat × α)}
    {back : List (Level α)}
    (linked : Linked state.nodes state.unused ((prio, (address, item) :: cells) :: back)) :
    nodeAt state.nodes (bucketOf (prio, (address, item) :: cells)).first =
      .ok (address, ⟨cells.head?.map Prod.fst, item⟩) := by
  have start : (bucketOf (prio, (address, item) :: cells)).first = some address := rfl
  rw [start, nodeAt]
  simp only [linked.first_node.1]
  rfl

theorem peek_queued (queued : Queued args state entries) :
    ucbPqueuePeek state = .ok ((StableQueue.first entries).map Prod.snd) := by
  rcases queued.cases with
    ⟨none, rfl⟩ | ⟨prio, address, item, cells, back, some, held, linked, sorted⟩
  · rw [ucbPqueuePeek, if_neg (not_not.mpr none)]
    rfl
  · have nonzero : state.pq.numBuckets ≠ 0 := by omega
    rw [ucbPqueuePeek, if_pos nonzero, held.load List.getElem?_cons_zero, Exec.ok_bind,
      firstNode_eq linked, sorted.first_eq]
    rfl

/-- Taking the first node out. -/
theorem popNode_eq {prio : Int} {address : Nat} {item : α} {cells : List (Nat × α)}
    {back : List (Level α)} (held : Held state.pq ((prio, (address, item) :: cells) :: back))
    (linked : Linked state.nodes state.unused ((prio, (address, item) :: cells) :: back)) :
    ∃ pq levels, ucbPqueuePopNode state =
        .ok (⟨pq, Function.update state.nodes address (some ⟨none, item⟩), state.unused⟩,
          some address) ∧
      pq.dataClone = state.pq.dataClone ∧ pq.dataFree = state.pq.dataFree ∧
      pq.numBuckets ≤ state.pq.numBuckets ∧ pq.allocBuckets = state.pq.allocBuckets ∧
      Held pq levels ∧
      Linked state.nodes state.unused levels ∧ address ∉ addresses levels ∧
      entriesOf levels = entriesOf ((prio, cells) :: back) := by
  have nonzero : state.pq.numBuckets ≠ 0 := by
    rw [held.count, List.length_cons]
    exact Nat.succ_ne_zero _
  obtain ⟨found, outside⟩ := linked.first_node
  have unlinked : setNodeNext state.nodes (some address) none =
      .ok (Function.update state.nodes address (some ⟨none, item⟩)) := by
    simp only [setNodeNext, nodeAt, found]
    rfl
  cases cells with
  | nil =>
      have emptied : (⟨prio, none, some address, 0⟩ : UcbPqueueBucket).numItems = 0 := rfl
      obtain ⟨stored, buckets, store, dropped, held'⟩ := drop_held held emptied
      refine ⟨{ state.pq with buckets := buckets, numBuckets := state.pq.numBuckets - 1 }, back, ?_,
        rfl, rfl, Nat.sub_le _ _, rfl, held', linked.tail, ?_, rfl⟩
      · rw [ucbPqueuePopNode, if_pos nonzero, held.load List.getElem?_cons_zero, Exec.ok_bind,
          firstNode_eq linked, Exec.ok_bind]
        have raw : (⟨(bucketOf (prio, [(address, item)])).priority,
            (([] : List (Nat × α)).head?).map Prod.fst, (bucketOf (prio, [(address, item)])).last,
            (bucketOf (prio, [(address, item)])).numItems - 1⟩ : UcbPqueueBucket) =
              ⟨prio, none, some address, 0⟩ := rfl
        simp only [unlinked, Exec.ok_bind, raw, store, dropped]
        rfl
      · rwa [addresses_cons] at outside
  | cons cell cells =>
      obtain ⟨buckets, store, held'⟩ := held.store [] (prio, cell :: cells)
      refine ⟨{ state.pq with buckets := buckets }, _, ?_, rfl, rfl, Nat.le_refl _, rfl, held',
        linked.dropFirst (List.cons_ne_nil _ _), outside, rfl⟩
      have last : (bucketOf (prio, (address, item) :: cell :: cells)).last =
          (bucketOf (prio, cell :: cells)).last := by
        rw [bucketOf, bucketOf, List.getLast?_cons_cons]
      rw [ucbPqueuePopNode, if_pos nonzero, held.load List.getElem?_cons_zero, Exec.ok_bind,
        firstNode_eq linked, Exec.ok_bind]
      simp only [unlinked, Exec.ok_bind, last]
      have kept : dropFirstIfEmpty { state.pq with buckets := buckets }
          (bucketOf (prio, cell :: cells)) = .ok { state.pq with buckets := buckets } :=
        if_neg (Nat.succ_ne_zero _)
      have store : state.pq.buckets.store 0 (bucketOf (prio, cell :: cells)) = .ok buckets := store
      have raw : (⟨(bucketOf (prio, (address, item) :: cell :: cells)).priority,
          (cell :: cells).head?.map Prod.fst, (bucketOf (prio, cell :: cells)).last,
          (bucketOf (prio, (address, item) :: cell :: cells)).numItems - 1⟩ : UcbPqueueBucket) =
            bucketOf (prio, cell :: cells) := rfl
      simp only [raw, store, kept, Exec.ok_bind]
      rfl

/-- Taking out an item. -/
theorem pop_queued (queued : Queued args state entries) :
    ∃ after, ucbPqueuePop state =
        .ok (after, (StableQueue.first entries).map Prod.snd) ∧
      Queued args after (StableQueue.others entries) ∧
      after.pq.allocBuckets = state.pq.allocBuckets := by
  rcases queued.cases with
    ⟨none, rfl⟩ | ⟨prio, address, item, cells, back, some, held, linked, sorted⟩
  · refine ⟨state, ?_, queued, rfl⟩
    rw [ucbPqueuePop, ucbPqueuePopNode, if_neg (not_not.mpr none)]
    rfl
  · obtain ⟨pq, levels, popped, clone, free, count, capacity, held', linked', apart, same⟩ :=
      popNode_eq held linked
    refine ⟨⟨pq, Function.update state.nodes address none, state.unused⟩, ?_,
      ⟨clone.trans queued.clone, free.trans queued.free, Nat.le_trans count queued.countable,
        levels, held', linked'.update apart none, same ▸ sorted.tail⟩, capacity⟩
    rw [ucbPqueuePop, popped, sorted.first_eq]
    simp [nodeAt]

theorem size_queued (queued : Queued args state entries) :
    ucbPqueueSize state = .ok entries.length := by
  obtain ⟨levels, held, linked, sorted⟩ := queued.levels
  have all := itemsBefore_eq held (Nat.le_refl _)
  rw [List.take_length, sorted.perm.length_eq, ← held.count] at all
  exact all

theorem empty_queued (queued : Queued args state entries) :
    ucbPqueueEmpty state = entries.isEmpty := by
  rcases queued.cases with ⟨none, rfl⟩ | ⟨prio, address, item, cells, back, some, -, -, sorted⟩
  · rw [ucbPqueueEmpty, none]
    rfl
  · have nonempty : entries ≠ [] := by
      rintro rfl
      cases sorted.perm.length_eq
    rw [ucbPqueueEmpty, some, List.isEmpty_eq_false_iff.mpr nonempty]
    rfl

theorem fit_queued (granted : FitGranted allocator state.pq) (queued : Queued args state entries) :
    ∃ after, ucbPqueueFit allocator state = .ok after ∧ Queued args after entries ∧
      after.pq.allocBuckets = fittedCapacity state.pq := by
  obtain ⟨levels, held, linked, sorted⟩ := queued.levels
  obtain ⟨buckets, fitted, held'⟩ := fit_held granted held
  exact ⟨_, fitted, ⟨queued.clone, queued.free, queued.countable, levels, held', linked, sorted⟩,
    rfl⟩

theorem freeChain_eq {fuel : Nat} {cells : List (Nat × α)} :
    ∀ {nodes : Nat → Option (UcbFwdlistNode α)}
    {first : Option Nat}, Segment nodes first cells none → (cells.map Prod.fst).Nodup →
      cells.length ≤ fuel → ∃ left, freeChain fuel nodes first = .ok (left, cells.map Prod.snd) ∧
        ∀ address, address ∉ cells.map Prod.fst → left address = nodes address := by
  induction cells generalizing fuel with
  | nil =>
      intro nodes first segment _ _
      obtain rfl : first = none := segment
      exact ⟨nodes, by cases fuel <;> rfl, fun _ _ => rfl⟩
  | cons cell cells inductionHypothesis =>
      intro nodes first segment nodup enough
      obtain ⟨rfl, next, found, rest⟩ := segment
      obtain ⟨outside, nodup⟩ := List.nodup_cons.mp nodup
      cases fuel with
      | zero => exact absurd enough (Nat.not_succ_le_zero _)
      | succ fuel =>
          obtain ⟨left, freed, same⟩ := inductionHypothesis (rest.update outside none) nodup
            (Nat.le_of_succ_le_succ enough)
          refine ⟨left, ?_, ?_⟩
          · simp only [freeChain, nodeAt, found, Exec.pure_eq_ok, Exec.ok_bind, freed]
            rfl
          · intro address elsewhere
            obtain ⟨differs, elsewhere⟩ := not_or.mp (List.mem_cons.not.mp elsewhere)
            rw [same address elsewhere, Function.update_of_ne differs]

theorem freeBuckets_eq {buckets : Storage UcbPqueueBucket} {fuel : Nat} {back : List (Level α)} :
    ∀ (index : Nat) {nodes : Nat → Option (UcbFwdlistNode α)},
      (∀ place level, back[place]? = some level →
        buckets.load (index + place) = .ok (bucketOf level)) →
      (∀ level ∈ back, Segment nodes (bucketOf level).first level.2 none) →
      (addresses back).Nodup → (addresses back).length ≤ fuel →
      ∃ left, freeBuckets buckets fuel index back.length nodes =
        .ok (left, (entriesOf back).map Prod.snd) := by
  induction back with
  | nil => exact fun _ _ _ _ _ _ => ⟨_, rfl⟩
  | cons level back inductionHypothesis =>
      intro index nodes loads chained nodup enough
      rw [addresses_cons] at nodup enough
      rw [List.length_append, List.length_map] at enough
      obtain ⟨own, others, apart⟩ := List.nodup_append'.mp nodup
      obtain ⟨left, freed, same⟩ := freeChain_eq (chained level (List.mem_cons_self ..)) own
        (Nat.le_trans (Nat.le_add_right _ _) enough)
      have chained' : ∀ other ∈ back, Segment left (bucketOf other).first other.2 none := by
        intro other member
        refine (chained other (List.mem_cons_of_mem _ member)).congr fun address here => ?_
        exact same address fun there => apart there (mem_addresses member here)
      have loads' : ∀ place other, back[place]? = some other →
          buckets.load (index + 1 + place) = .ok (bucketOf other) := by
        intro place other present
        rw [Nat.add_assoc, Nat.add_comm 1]
        exact loads (place + 1) other present
      obtain ⟨left', rest⟩ := inductionHypothesis (index + 1) loads' chained' others
        (Nat.le_trans (Nat.le_add_left _ _) enough)
      have load : buckets.load index = .ok (bucketOf level) := loads 0 level rfl
      refine ⟨left', ?_⟩
      rw [List.length_cons, freeBuckets, load, Exec.ok_bind, freed, Exec.ok_bind]
      dsimp only
      rw [rest, entriesOf_cons, List.map_append]
      simp [levelEntries]

/-- Freeing all nodes and passing on their data in the order in which they would have come
out. -/
theorem clear_queued (queued : Queued args state entries) :
    ∃ after, ucbPqueueClear state =
        .ok (after, if args.dataFree then (StableQueue.popOrder entries).map Prod.snd else []) ∧
      Queued args after [] ∧ after.pq.allocBuckets = state.pq.allocBuckets := by
  obtain ⟨levels, held, linked, sorted⟩ := queued.levels
  have enough : (addresses levels).length ≤ state.unused := by
    have within : addresses levels ⊆ List.range state.unused :=
      fun address member => List.mem_range.mpr (linked.allocated address member)
    simpa using (linked.apart.subperm within).length_le
  obtain ⟨left, freed⟩ := freeBuckets_eq 0
    (fun place level present => by rw [Nat.zero_add]; exact held.load present)
    linked.chained linked.apart enough
  obtain ⟨spare, array, length⟩ := held.array
  refine ⟨⟨{ state.pq with numBuckets := 0 }, left, state.unused⟩, ?_,
    ⟨queued.clone, queued.free, Nat.zero_le _, [],
      ⟨rfl, ⟨cellsOf levels ++ spare, array, ?_⟩, held.room, held.small⟩, ?_, .nil⟩, rfl⟩
  · rw [ucbPqueueClear, held.count, freed, sorted.popOrder_eq, ← queued.free]
    rfl
  · rw [← length]
    simp
  · exact ⟨.nil, by simp, by simp, .nil, by simp [addresses]⟩

end Others

/-! ## Sequences of operations -/

section Sequences

variable {allocator : Allocator} {args : UcbPqueueArgs} {state : QueueState α}
  {entries : List (Int × α)}

/-- Perform an operation that returns. -/
def pqueueRun (allocator : Allocator) (state : QueueState α) (op : PqueueOp α) :
    Option (QueueState α × PqueueResult α) :=
  (pqueueStep allocator state op).returned

/-- A push whose search fits, or another operation. -/
def PlaceFits (state : QueueState α) : PqueueOp α → Prop
  | .push _ _ prio => SearchFits state.pq prio
  | .pop | .peek | .size | .empty | .fit | .clear => True

theorem push_eq (granted : allocator.grants .malloc nodeSize = true)
    (queued : Queued args state entries)
    {data copy : Option α} {item : α} (given : data.isSome = true)
    (cloned : (if args.dataClone then copy else data) = some item) (prio : Int) :
    ucbPqueuePush allocator state data copy prio =
      (ucbPqueuePushNode allocator (withNode state item) prio state.unused >>= fun pushed =>
        match pushed.2 with
        | none => pure ({ pushed.1 with
            nodes := Function.update pushed.1.nodes state.unused none }, none)
        | some insPos => pure (pushed.1, some insPos)) := by
  have chosen : (if state.pq.dataClone then copy else data) = some item := by
    rw [queued.clone, cloned]
  rw [ucbPqueuePush, given, ucbVerify_true, Exec.ok_bind, if_pos granted, chosen]
  rfl

theorem push_unfit (generous : allocator.Generous) (queued : Queued args state entries)
    {data copy : Option α} {prio : Int} {item : α} (given : data.isSome = true)
    (cloned : (if args.dataClone then copy else data) = some item)
    (unfit : ¬ SearchFits state.pq prio) :
    pqueueRun allocator state (.push data copy prio) = none := by
  rw [pqueueRun, pqueueStep, push_eq (generous _ _) queued given cloned prio,
    pushNode_unfit queued item unfit]
  rfl

/-- A push is right exactly when its search fits. -/
theorem push_performs_iff (generous : allocator.Generous) (queued : Queued args state entries)
    {data copy : Option α} {prio : Int} {item : α} (given : data.isSome = true)
    (cloned : (if args.dataClone then copy else data) = some item) :
    Performs (pqueueRun allocator) (Queued args) state (.push data copy prio)
        (entries ++ [(prio, item)], .position (some (StableQueue.position entries prio))) ↔
      SearchFits state.pq prio := by
  by_cases fits : SearchFits state.pq prio
  · obtain ⟨after, pushed, queued', -⟩ :=
      pushNode_queued queued item fits fun _ _ => generous _ _
    refine iff_of_true ⟨after, ?_, queued'⟩ fits
    rw [pqueueRun, pqueueStep, push_eq (generous _ _) queued given cloned prio, pushed]
    rfl
  · refine iff_of_false ?_ fits
    rintro ⟨after, ran, -⟩
    rw [push_unfit generous queued given cloned fits] at ran
    cases ran

/-- How many buckets there is room for after an operation other than a push. -/
def capacityAfter (pq : UcbPqueue) : PqueueOp α → Nat
  | .fit => fittedCapacity pq
  | .push .. | .pop | .peek | .size | .empty | .clear => pq.allocBuckets

/-- Every operation but a push is right, provided that a queue that is fitted may be cut. -/
theorem other_queued (queued : Queued args state entries) {op : PqueueOp α}
    (other : ∀ data copy prio, op ≠ .push data copy prio)
    (granted : op = .fit → FitGranted allocator state.pq)
    {after : List (Int × α) × PqueueResult α} (effect : entriesStep args entries op = some after) :
    ∃ next, pqueueStep allocator state op = .ok (next, after.2) ∧ Queued args next after.1 ∧
      next.pq.allocBuckets = capacityAfter state.pq op := by
  cases op with
  | push data copy prio => exact absurd rfl (other data copy prio)
  | pop =>
      obtain rfl := Option.some.inj effect
      obtain ⟨next, popped, queued', capacity⟩ := pop_queued queued
      exact ⟨next, by rw [pqueueStep, popped]; rfl, queued', capacity⟩
  | peek =>
      obtain rfl := Option.some.inj effect
      exact ⟨state, by rw [pqueueStep, peek_queued queued]; rfl, queued, rfl⟩
  | size =>
      obtain rfl := Option.some.inj effect
      exact ⟨state, by rw [pqueueStep, size_queued queued]; rfl, queued, rfl⟩
  | empty =>
      obtain rfl := Option.some.inj effect
      exact ⟨state, by rw [pqueueStep, empty_queued queued]; rfl, queued, rfl⟩
  | fit =>
      obtain rfl := Option.some.inj effect
      obtain ⟨next, fitted, queued', capacity⟩ := fit_queued (granted rfl) queued
      exact ⟨next, by rw [pqueueStep, fitted]; rfl, queued', capacity⟩
  | clear =>
      obtain rfl := Option.some.inj effect
      obtain ⟨next, cleared, queued', capacity⟩ := clear_queued queued
      exact ⟨next, by rw [pqueueStep, cleared]; rfl, queued', capacity⟩

/-- Exactly the operations whose search fits are right. -/
theorem pqueue_performs_iff (generous : allocator.Generous) (queued : Queued args state entries)
    (op : PqueueOp α) {after : List (Int × α) × PqueueResult α}
    (effect : entriesStep args entries op = some after) :
    Performs (pqueueRun allocator) (Queued args) state op after ↔ PlaceFits state op := by
  by_cases isPush : ∃ data copy prio, op = .push data copy prio
  · obtain ⟨data, copy, prio, rfl⟩ := isPush
    rw [entriesStep] at effect
    split at effect
    next given =>
      obtain ⟨item, cloned, rfl⟩ := Option.map_eq_some_iff.mp effect
      exact push_performs_iff generous queued given cloned
    next => cases effect
  · have other : ∀ data copy prio, op ≠ .push data copy prio :=
      fun data copy prio same => isPush ⟨data, copy, prio, same⟩
    obtain ⟨next, ran, queued', -⟩ := other_queued queued other (fun _ _ _ => generous _ _) effect
    refine iff_of_true ⟨next, ?_, queued'⟩ ?_
    · rw [pqueueRun, ran]
      rfl
    · cases op with
      | push data copy prio => exact absurd rfl (other data copy prio)
      | pop | peek | size | empty | fit | clear => trivial

/-- A new queue gives out the earliest entries of the highest priority, tells their places and
keeps its buckets in order, in every sequence of operations in which the places fit in
`int` and in no other. -/
theorem pqueue_refines_iff (generous : allocator.Generous) {pq : UcbPqueue}
    (made : ucbPqueueInitCommon allocator args = .ok (some pq)) {ops : List (PqueueOp α)}
    (inContract : (performAll (entriesStep args) [] ops).isSome) :
    RefinesOn (pqueueRun allocator) (entriesStep args) (Queued args) (newQueue pq) [] ops ↔
      Throughout (pqueueRun allocator) PlaceFits (newQueue pq) ops :=
  refinesOn_iff (fun _ _ op _ queued effect => pqueue_performs_iff generous queued op effect)
    (queued_new made) inContract

end Sequences

/-- Two items of one priority and one of a higher. -/
theorem pqueue_refines_iff_three :
    RefinesOn (pqueueRun ⟨fun _ _ => true, fun _ => 0⟩) (entriesStep ⟨false, false⟩)
        (Queued ⟨false, false⟩) (newQueue ⟨.heap (List.replicate 16 none), 0, 16, false, false⟩) []
        [.push (some 'a') none 3, .push (some 'b') none 3, .push (some 'c') none 5, .pop] ↔
      Throughout (pqueueRun ⟨fun _ _ => true, fun _ => 0⟩) PlaceFits
        (newQueue ⟨.heap (List.replicate 16 none), 0, 16, false, false⟩)
        [.push (some 'a') none 3, .push (some 'b') none 3, .push (some 'c') none 5, .pop] :=
  pqueue_refines_iff (fun _ _ => rfl) rfl rfl

/-! ## Too many priorities -/

section Many

variable {args : UcbPqueueArgs} {state : QueueState α} {entries : List (Int × α)} {prio : Int}

theorem count_queued (queued : Queued args state entries) :
    state.pq.numBuckets = (entries.map Prod.fst).dedup.length := by
  obtain ⟨levels, held, linked, sorted⟩ := queued.levels
  have apart : (levels.map Prod.fst).Nodup := linked.descending.imp fun less => ne_of_gt less
  have same : (levels.map Prod.fst).Perm (entries.map Prod.fst).dedup := by
    refine (List.perm_ext_iff_of_nodup apart (List.nodup_dedup _)).mpr fun priority => ?_
    rw [List.mem_dedup, ← (sorted.perm.map Prod.fst).mem_iff, mem_priorities linked]
  rw [held.count, ← List.length_map (f := Prod.fst), same.length_eq]

theorem unfit_of_lower (queued : Queued args state entries)
    (full : state.pq.numBuckets = 2 ^ 31 - 1)
    (low : ∀ entry ∈ entries, prio < entry.1) : ¬ SearchFits state.pq prio := by
  obtain ⟨levels, held, linked, sorted⟩ := queued.levels
  intro fits
  obtain ⟨idx, bucket, inside, loaded, below⟩ := fits.2 full
  rw [held.count] at inside
  rw [held.load (List.getElem?_eq_getElem inside)] at loaded
  obtain rfl := Exec.ok.inj loaded
  have among : levels[idx].1 ∈ (entriesOf levels).map Prod.fst :=
    (mem_priorities linked).mpr (List.mem_map_of_mem (List.getElem_mem inside))
  rw [(sorted.perm.map Prod.fst).mem_iff, List.mem_map] at among
  obtain ⟨entry, member, same⟩ := among
  exact absurd (low entry member) (not_lt.mpr (same ▸ below))

end Many

/-- Pushes of an item with lower and lower priorities. -/
def descendingPushes (count : Nat) : List (PqueueOp Char) :=
  (List.range count).map fun (index : Nat) => .push (some 'a') none (-(index : Int))

theorem perform_descending (count : Nat) :
    ∃ results, performAll (entriesStep ⟨false, false⟩) [] (descendingPushes count) =
      some ((List.range count).map (fun (index : Nat) => (-(index : Int), 'a')), results) := by
  induction count with
  | zero => exact ⟨[], rfl⟩
  | succ count inductionHypothesis =>
      obtain ⟨results, performed⟩ := inductionHypothesis
      rw [descendingPushes, List.range_succ, List.map_append, List.map_append,
        ← descendingPushes, performAll_append performed]
      exact ⟨_, rfl⟩

/-- The push of the 2^31st priority is not answered when it is the lowest. -/
theorem not_refines_descending {pq : UcbPqueue} {allocator : Allocator}
    (generous : allocator.Generous) {count : Nat} (many : 2 ^ 31 - 1 < count) :
    ¬ RefinesOn (pqueueRun allocator) (entriesStep ⟨false, false⟩) (Queued ⟨false, false⟩)
        (newQueue pq) [] (descendingPushes count) := by
  intro refines
  obtain ⟨full, isFull⟩ : ∃ full, full = 2 ^ 31 - 1 := ⟨_, rfl⟩
  have last : descendingPushes (full + 1) =
      descendingPushes full ++ [.push (some 'a') none (-(full : Int))] := by
    rw [descendingPushes, List.range_succ, List.map_append]
    rfl
  have first : descendingPushes count = descendingPushes (full + 1) ++
      (descendingPushes count).drop (full + 1) := by
    have taken : (descendingPushes count).take (full + 1) = descendingPushes (full + 1) := by
      rw [descendingPushes, ← List.map_take, List.take_range, Nat.min_eq_left (by omega)]
      rfl
    rw [← taken, List.take_append_drop]
  obtain ⟨results, effect⟩ := perform_descending full
  obtain ⟨results', effect'⟩ := perform_descending (full + 1)
  obtain ⟨state, ran, queued⟩ := refines _ _ (by rw [first, last, List.append_assoc]) _ effect
  obtain ⟨state', ran', -⟩ := refines _ _ first _ effect'
  have distinct :
      (((List.range full).map fun (index : Nat) => (-(index : Int), 'a')).map Prod.fst).Nodup := by
    rw [List.map_map]
    exact List.nodup_range.map fun one other same => Int.ofNat.inj (Int.neg_inj.mp same)
  have buckets : state.pq.numBuckets = 2 ^ 31 - 1 := by
    rw [count_queued queued, List.Nodup.dedup distinct, List.length_map, List.length_map,
      List.length_range, isFull]
  have unfit : ¬ SearchFits state.pq (-(full : Int)) := by
    refine unfit_of_lower queued buckets ?_
    intro entry member
    obtain ⟨index, among, rfl⟩ := List.mem_map.mp member
    have less := List.mem_range.mp among
    show -(full : Int) < -(index : Int)
    omega
  have stuck : pqueueRun allocator state (.push (some 'a') none (-(full : Int))) = none :=
    push_unfit generous queued rfl rfl unfit
  rw [last, performAll_append ran, performAll, stuck] at ran'
  cases ran'

/-- 2^31 pushes of descending priorities to a new queue, which are all to be answered. -/
theorem too_many_priorities :
    ucbPqueueInitCommon ⟨fun _ _ => true, fun _ => 0⟩ ⟨false, false⟩ =
        .ok (some ⟨.heap (List.replicate 16 none), 0, 16, false, false⟩) ∧
    (performAll (entriesStep ⟨false, false⟩) [] (descendingPushes (2 ^ 31))).isSome ∧
    ¬ RefinesOn (pqueueRun ⟨fun _ _ => true, fun _ => 0⟩) (entriesStep ⟨false, false⟩)
        (Queued ⟨false, false⟩) (newQueue ⟨.heap (List.replicate 16 none), 0, 16, false, false⟩) []
        (descendingPushes (2 ^ 31)) := by
  refine ⟨rfl, ?_, not_refines_descending (fun _ _ => rfl) (by decide)⟩
  obtain ⟨results, performed⟩ := perform_descending (2 ^ 31)
  rw [performed]
  rfl

end Ucb.Container
