import Mathlib.Data.Fintype.Card
import Mathlib.Data.List.Count
import Ucb.Lib.ForwardList
import Ucb.Memdbg.FreeTable

/-!
Contract: the three lists the nodes of the free log are linked into.

Owns:
- `Linked`, that the slot list, the buckets and the age list are linked as they
  should be, and `Indexed`, that every node is in one of them besides;
- finding a node, taking it out of the log, and putting it into the slots or into
  the log.
-/

namespace Ucb.Memdbg.FreeTable

open Ucb.Lib

variable {capacity : Nat} {t : FreeTable capacity} {node slot : Fin capacity}
  {slots log before after : List (Fin capacity)} {record : FreeMeta} {ptr : Ptr}

/-! ## The linked lists -/

def age (t : FreeTable capacity) (node : Fin capacity) : Option (Link (Fin capacity)) :=
  some (t.nodes node).toLink

def hash (t : FreeTable capacity) (node : Fin capacity) : Nat :=
  freeHash capacity (t.nodes node).ptr

def inBucket (t : FreeTable capacity) (log : List (Fin capacity)) (bucket : Nat) :
    List (Fin capacity) :=
  log.filter fun node => t.hash node = bucket

def records (t : FreeTable capacity) (log : List (Fin capacity)) : List FreeMeta :=
  log.map fun node => (t.nodes node).toFreeMeta

/-- The links lead through the slots, through the log by age, and through what each
bucket has of the log. -/
structure Linked (t : FreeTable capacity) (slots log : List (Fin capacity)) : Prop where
  pool : t.pool = true
  slotList : Follows (fun node => (t.nodes node).poolNext) t.slots slots
  bucketList : ∀ bucket,
    Follows (fun node => (t.nodes node).hashNext) (t.buckets bucket) (t.inBucket log bucket)
  ageList : Chain t.age log
  newest : t.newest = log.head?
  oldest : t.oldest = log.getLast?
  apart : (slots ++ log).Nodup
  distinct : Distinct (t.records log)

/-- Every node is in the slots or in the log, and only there. -/
structure Indexed (t : FreeTable capacity) (slots log : List (Fin capacity)) : Prop
    extends Linked t slots log where
  once : ∀ node, (slots ++ log).count node = 1

theorem mem_inBucket {bucket : Nat} :
    node ∈ t.inBucket log bucket ↔ node ∈ log ∧ t.hash node = bucket := by
  simp [inBucket]

theorem inBucket_congr {t' : FreeTable capacity} {bucket : Nat}
    (same : ∀ node ∈ log, (t'.nodes node).toFreeMeta = (t.nodes node).toFreeMeta) :
    t'.inBucket log bucket = t.inBucket log bucket :=
  List.filter_congr fun node member =>
    decide_eq_decide.mpr (by rw [hash, hash, same node member])

theorem records_congr {t' : FreeTable capacity}
    (same : ∀ node ∈ log, (t'.nodes node).toFreeMeta = (t.nodes node).toFreeMeta) :
    t'.records log = t.records log :=
  List.map_congr_left same

section Modify

variable {change : FreeNode capacity → FreeNode capacity} {other : Fin capacity}

theorem modify_self : (t.modify node change).nodes node = change (t.nodes node) :=
  Function.update_self ..

theorem modify_of_ne (elsewhere : other ≠ node) :
    (t.modify node change).nodes other = t.nodes other :=
  Function.update_of_ne elsewhere ..

theorem modify_keeps {Part : Type} (part : FreeNode capacity → Part)
    (keeps : ∀ old, part (change old) = part old) :
    part ((t.modify node change).nodes other) = part (t.nodes other) := by
  by_cases same : other = node
  · subst same
    rw [modify_self, keeps]
  · rw [modify_of_ne same]

end Modify

/-! ## Tables with other links -/

def withBuckets (t : FreeTable capacity) (buckets : Nat → Option (Fin capacity))
    (hashNext : Fin capacity → Option (Fin capacity)) : FreeTable capacity :=
  { t with
    buckets := buckets
    nodes := fun node => { t.nodes node with hashNext := hashNext node } }

def withAge (t : FreeTable capacity) (newest oldest : Option (Fin capacity))
    (links : Fin capacity → Link (Fin capacity)) : FreeTable capacity :=
  { t with
    newest := newest
    oldest := oldest
    nodes := fun node => { t.nodes node with toLink := links node } }

theorem relink_bucket {bucket : Nat} {target : Option (Fin capacity)} :
    t.relink target (.bucket bucket) =
      t.withBuckets (Function.update t.buckets bucket target) fun node =>
        (t.nodes node).hashNext :=
  rfl

theorem relink_hashNext {target : Option (Fin capacity)} :
    t.relink target (.hashNext node) =
      t.withBuckets t.buckets
        (Function.update (fun node => (t.nodes node).hashNext) node target) := by
  simp only [relink, modify, withBuckets]
  congr 1
  funext other
  by_cases same : other = node
  · subst same
    simp only [Function.update_self]
  · simp only [Function.update_of_ne same]

theorem setAgeNext_eq (t : FreeTable capacity) (prev next : Option (Fin capacity)) :
    ∃ links, t.setAgeNext prev next =
        t.withAge (headWithout ⟨prev, next⟩ t.newest) t.oldest links ∧
      (fun node => some (links node)) = setNext t.age prev next := by
  cases prev with
  | none => exact ⟨fun node => (t.nodes node).toLink, rfl, rfl⟩
  | some before =>
      refine ⟨Function.update (fun node => (t.nodes node).toLink) before
        { (t.nodes before).toLink with next := next }, ?_, ?_⟩
      · simp only [setAgeNext, modify, withAge, headWithout]
        congr 1
        funext other
        by_cases same : other = before
        · subst same
          simp only [Function.update_self]
        · simp only [Function.update_of_ne same]
      · funext other
        by_cases same : other = before
        · subst same
          rw [setNext_self, Function.update_self]
          rfl
        · rw [setNext_of_ne (by simpa using Ne.symm same), Function.update_of_ne same]
          rfl

theorem setAgePrev_eq (t : FreeTable capacity) (prev next : Option (Fin capacity)) :
    ∃ links, t.setAgePrev next prev =
        t.withAge t.newest (tailWithout ⟨prev, next⟩ t.oldest) links ∧
      (fun node => some (links node)) = setPrev t.age next prev := by
  cases next with
  | none => exact ⟨fun node => (t.nodes node).toLink, rfl, rfl⟩
  | some after =>
      refine ⟨Function.update (fun node => (t.nodes node).toLink) after
        { (t.nodes after).toLink with prev := prev }, ?_, ?_⟩
      · simp only [setAgePrev, modify, withAge, tailWithout]
        congr 1
        funext other
        by_cases same : other = after
        · subst same
          simp only [Function.update_self]
        · simp only [Function.update_of_ne same]
      · funext other
        by_cases same : other = after
        · subst same
          rw [setPrev_self, Function.update_self]
          rfl
        · rw [setPrev_of_ne (by simpa using Ne.symm same), Function.update_of_ne same]
          rfl

/-! ## Finding -/

/-- The loop finds the first node of the pointer. -/
theorem findFrom_eq {start : Option (Fin capacity)} {fuel : Nat}
    (follows : Follows (fun node => (t.nodes node).hashNext) start log)
    (enough : log.length ≤ fuel) :
    t.findFrom ptr fuel start = some (log.find? fun node => (t.nodes node).ptr = ptr) := by
  induction log generalizing start fuel with
  | nil =>
      obtain rfl := follows
      cases fuel <;> rfl
  | cons node rest inductionHypothesis =>
      obtain ⟨less, rfl⟩ : ∃ less, fuel = less + 1 := ⟨fuel - 1, by simp at enough; omega⟩
      obtain ⟨rfl, later⟩ := follows
      by_cases same : (t.nodes node).ptr = ptr
      · simp only [findFrom, same, ↓reduceIte, decide_true, List.find?_cons_of_pos]
      · simp only [findFrom, same, ↓reduceIte, decide_false, Bool.false_eq_true,
          not_false_eq_true, List.find?_cons_of_neg]
        exact inductionHypothesis later (by simpa using enough)

theorem Linked.find (linked : Linked t slots log) :
    t.findLocked ptr = some (log.find? fun node => (t.nodes node).ptr = ptr) := by
  have nodup : (t.inBucket log (freeHash capacity ptr)).Nodup :=
    linked.ageList.nodup.sublist List.filter_sublist
  have enough : (t.inBucket log (freeHash capacity ptr)).length ≤ capacity := by
    simpa using nodup.length_le_card
  rw [findLocked, linked.pool, if_pos rfl, findFrom_eq (linked.bucketList _) enough, inBucket,
    List.find?_filter]
  congr 2
  funext node
  by_cases same : (t.nodes node).ptr = ptr
  · simp [hash, same]
  · simp [same]

/-! ## Detaching -/

/-- The loop changes the place that points to the node. -/
theorem unlinkFrom_eq (link : FreeLink capacity) {fuel : Nat}
    (follows : Follows (fun node => (t.nodes node).hashNext) (t.follow link)
      (before ++ node :: after))
    (first : node ∉ before) (enough : before.length < fuel) :
    t.unlinkFrom node fuel link =
      some (t.relink (t.nodes node).hashNext (before.getLast?.elim link .hashNext)) := by
  induction before generalizing link fuel with
  | nil =>
      obtain ⟨less, rfl⟩ : ∃ less, fuel = less + 1 := ⟨fuel - 1, by simp at enough; omega⟩
      simp only [unlinkFrom, follows.1, ↓reduceIte, List.getLast?_nil, Option.elim_none]
  | cons other before inductionHypothesis =>
      obtain ⟨less, rfl⟩ : ∃ less, fuel = less + 1 := ⟨fuel - 1, by omega⟩
      have differs : other ≠ node := fun same => first (by simp [same])
      simp only [unlinkFrom, follows.1, differs, ↓reduceIte]
      rw [inductionHypothesis (.hashNext other) follows.2
        (fun member => first (List.mem_cons_of_mem _ member)) (by simpa using enough),
        List.getLast?_cons]
      cases before.getLast? <;> rfl

theorem unlink_bucket {bucket : Nat}
    (follows : Follows (fun node => (t.nodes node).hashNext) (t.buckets bucket)
      (before ++ node :: after))
    (nodup : (before ++ node :: after).Nodup) :
    ∃ buckets hashNext,
      t.unlinkFrom node (capacity + 1) (.bucket bucket) = some (t.withBuckets buckets hashNext) ∧
      Follows hashNext (buckets bucket) (before ++ after) ∧
      (∀ other, other ≠ bucket → buckets other = t.buckets other) ∧
      ∀ other, other ∉ before → hashNext other = (t.nodes other).hashNext := by
  have first : node ∉ before := fun early =>
    List.disjoint_of_nodup_append nodup early (List.mem_cons_self ..)
  have enough : before.length < capacity + 1 := by
    have bound := nodup.length_le_card
    simp only [List.length_append, List.length_cons, Fintype.card_fin] at bound
    omega
  rw [unlinkFrom_eq (.bucket bucket) follows first enough]
  rcases List.eq_nil_or_concat before with rfl | ⟨front, last, rfl⟩
  · refine ⟨_, _, congrArg some relink_bucket, ?_, fun other elsewhere => ?_, fun _ _ => rfl⟩
    · rw [Function.update_self]
      exact follows.2
    · exact Function.update_of_ne elsewhere ..
  · rw [List.concat_eq_append] at follows nodup ⊢
    rw [List.getLast?_concat, Option.elim_some]
    refine ⟨_, _, congrArg some relink_hashNext, ?_, fun _ _ => rfl, fun other elsewhere => ?_⟩
    · refine follows.redirect ?_ fun other member => Function.update_of_ne ?_ ..
      · rw [Function.update_self]
        refine follows.rest.congr fun other member => Function.update_of_ne ?_ ..
        rintro rfl
        exact List.disjoint_of_nodup_append nodup (by simp) (List.mem_cons_of_mem _ member)
      · rintro rfl
        exact List.disjoint_of_nodup_append (List.nodup_append.mp nodup).1 member (by simp)
    · exact Function.update_of_ne (fun same => elsewhere (by simp [same])) ..

theorem unlink_age (ageList : Chain t.age (before ++ node :: after)) :
    ∃ links, t.unlinkAge node = t.withAge (headWithout ⟨before.getLast?, after.head?⟩ t.newest)
        (tailWithout ⟨before.getLast?, after.head?⟩ t.oldest) links ∧
      Chain (fun node => some (links node)) (before ++ after) := by
  have here : t.age node = some ⟨before.getLast?, after.head?⟩ :=
    ageList.linked before node after rfl
  have links : (t.nodes node).toLink = ⟨before.getLast?, after.head?⟩ := Option.some.inj here
  obtain ⟨forward, first, forwards⟩ := setAgeNext_eq t before.getLast? after.head?
  have kept : forward node = ⟨before.getLast?, after.head?⟩ := by
    have notPrev : before.getLast? ≠ some node := fun same =>
      ageList.neighbour_ne (by simp) here (.inl same) rfl
    exact Option.some.inj ((congrFun forwards node).trans
      ((setNext_of_ne notPrev).trans here))
  obtain ⟨both, second, backwards⟩ := setAgePrev_eq
    (t.withAge (headWithout ⟨before.getLast?, after.head?⟩ t.newest) t.oldest forward)
    before.getLast? after.head?
  refine ⟨both, ?_, ?_⟩
  · rw [unlinkAge, links, first]
    change (t.withAge _ t.oldest forward).setAgePrev (forward node).next (forward node).prev = _
    rw [kept, second]
    rfl
  · have unlinked : (fun node => some (both node)) =
        unlink t.age ⟨before.getLast?, after.head?⟩ :=
      backwards.trans (congrArg (setPrev · _ _) forwards)
    rw [unlinked]
    exact ageList.unlink_split

theorem clearLinks_toFreeMeta (t : FreeTable capacity) (node other : Fin capacity) :
    ((t.clearLinks node).nodes other).toFreeMeta = (t.nodes other).toFreeMeta :=
  modify_keeps FreeNode.toFreeMeta fun _ => rfl

/-- A node is taken out of the log. -/
theorem Linked.detach (linked : Linked t slots (before ++ node :: after)) :
    ∃ t', t.detachLocked node = some t' ∧ Linked t' slots (before ++ after) ∧
      ∀ other, (t'.nodes other).toFreeMeta = (t.nodes other).toFreeMeta := by
  have inHash : t.inBucket (before ++ node :: after) (t.hash node) =
      t.inBucket before (t.hash node) ++ node :: t.inBucket after (t.hash node) := by
    simp [inBucket]
  have nodup := (List.nodup_append.mp linked.apart).2.1
  have absent : ∀ other ∈ before ++ after, other ≠ node := by
    rintro other member rfl
    rcases List.mem_append.mp member with early | late
    · exact List.disjoint_of_nodup_append nodup early (List.mem_cons_self ..)
    · exact (List.nodup_cons.mp (List.nodup_append.mp nodup).2.1).1 late
  obtain ⟨buckets, hashNext, unlinked, chain, otherBuckets, otherLinks⟩ :=
    unlink_bucket (inHash ▸ linked.bucketList (t.hash node))
      (inHash ▸ nodup.sublist List.filter_sublist)
  obtain ⟨links, aged, ageList⟩ := unlink_age (t := t.withBuckets buckets hashNext) linked.ageList
  have detached : t.detachLocked node =
      some (((t.withBuckets buckets hashNext).unlinkAge node).clearLinks node) := by
    change (t.unlinkFrom node (capacity + 1) (.bucket (t.hash node))).bind _ = _
    rw [unlinked]
    rfl
  rw [aged] at detached
  have recorded := clearLinks_toFreeMeta ((t.withBuckets buckets hashNext).withAge
    (headWithout ⟨before.getLast?, after.head?⟩ (t.withBuckets buckets hashNext).newest)
    (tailWithout ⟨before.getLast?, after.head?⟩ (t.withBuckets buckets hashNext).oldest) links) node
  refine ⟨_, detached, ?_, recorded⟩
  have shorter : (before ++ after).Sublist (before ++ node :: after) :=
    List.Sublist.append_left (List.sublist_cons_self ..) before
  constructor
  · exact linked.pool
  · exact linked.slotList.congr fun other _ => modify_keeps FreeNode.poolNext fun _ => rfl
  · intro bucket
    rw [inBucket_congr fun other _ => recorded other]
    by_cases mine : bucket = t.hash node
    · subst mine
      rw [inBucket, List.filter_append]
      refine chain.congr fun other member => congrArg FreeNode.hashNext (modify_of_ne ?_)
      exact absent other ((List.mem_append.mp member).elim
        (fun early => List.mem_append_left _ (List.mem_of_mem_filter early))
        fun late => List.mem_append_right _ (List.mem_of_mem_filter late))
    · have same : t.inBucket (before ++ node :: after) bucket =
          t.inBucket (before ++ after) bucket := by
        simp [inBucket, Ne.symm mine]
      have old := linked.bucketList bucket
      rw [same, ← otherBuckets bucket mine] at old
      refine old.congr fun other member => ?_
      obtain ⟨inLog, there⟩ := mem_inBucket.mp member
      exact (congrArg FreeNode.hashNext (modify_of_ne (absent other inLog))).trans
        (otherLinks other fun early => mine (there.symm.trans (mem_inBucket.mp early).2))
  · exact ageList.congr fun other member =>
      congrArg (fun old : FreeNode capacity => some old.toLink) (modify_of_ne (absent other member))
  · exact linked.newest ▸ headWithout_split
  · exact linked.oldest ▸ tailWithout_split
  · exact linked.apart.sublist (List.Sublist.append_left shorter slots)
  · rw [records_congr fun other _ => recorded other]
    exact linked.distinct.sublist (shorter.map _)

/-! ## Slots and records -/

theorem slotReturnLocked_toFreeMeta (other : Fin capacity) :
    ((t.slotReturnLocked node).nodes other).toFreeMeta = (t.nodes other).toFreeMeta :=
  modify_keeps FreeNode.toFreeMeta fun _ => rfl

theorem Linked.slotReturn (linked : Linked t slots log) (detached : node ∉ slots ++ log) :
    Linked (t.slotReturnLocked node) (node :: slots) log where
  pool := linked.pool
  slotList := by
    refine ⟨rfl, ?_⟩
    simp only [slotReturnLocked, modify_self]
    exact linked.slotList.congr fun other member => congrArg FreeNode.poolNext (modify_of_ne
      (ne_of_mem_of_not_mem (List.mem_append_left _ member) detached))
  bucketList := fun bucket => by
    rw [inBucket_congr fun other _ => slotReturnLocked_toFreeMeta other]
    exact (linked.bucketList bucket).congr fun other _ =>
      modify_keeps FreeNode.hashNext fun _ => rfl
  ageList := linked.ageList.congr fun other _ =>
    modify_keeps (fun old => some old.toLink) fun _ => rfl
  newest := linked.newest
  oldest := linked.oldest
  apart := List.nodup_cons.mpr ⟨detached, linked.apart⟩
  distinct := by
    rw [records_congr fun other _ => slotReturnLocked_toFreeMeta other]
    exact linked.distinct

theorem Linked.takeSlot (linked : Linked t (slot :: slots) log) :
    Linked { t with slots := (t.nodes slot).poolNext } slots log where
  pool := linked.pool
  slotList := linked.slotList.2
  bucketList := linked.bucketList
  ageList := linked.ageList
  newest := linked.newest
  oldest := linked.oldest
  apart := (List.nodup_cons.mp linked.apart).2
  distinct := linked.distinct

theorem store_self : (t.store slot record).nodes slot = {
    toFreeMeta := record
    hashNext := t.buckets (freeHash capacity record.ptr)
    prev := none
    next := t.newest
    poolNext := none } :=
  Function.update_self ..

theorem store_of_ne (elsewhere : node ≠ slot) :
    (t.store slot record).nodes node = t.nodes node :=
  Function.update_of_ne elsewhere ..

theorem store_age : (t.store slot record).age =
    Function.update t.age slot (some ⟨none, t.newest⟩) := by
  funext node
  by_cases same : node = slot
  · subst same
    rw [age, store_self, Function.update_self]
  · rw [age, store_of_ne same, Function.update_of_ne same, age]

/-- A node that is in no list becomes the newest of the log. -/
theorem Linked.fill (linked : Linked t slots log) (record : FreeMeta)
    (detached : slot ∉ slots ++ log)
    (new : ∀ other ∈ t.records log, record.ptr ≠ other.ptr) :
    Linked (t.fill slot record) slots (slot :: log) ∧
      (t.fill slot record).records (slot :: log) = record :: t.records log := by
  have notSlot : ∀ node ∈ slots, node ≠ slot := fun node member =>
    ne_of_mem_of_not_mem (List.mem_append_left _ member) detached
  have notLogged : ∀ node ∈ log, node ≠ slot := fun node member =>
    ne_of_mem_of_not_mem (List.mem_append_right _ member) detached
  have fresh : slot ∉ log := fun member => notLogged slot member rfl
  obtain ⟨links, aged, backwards⟩ := setAgePrev_eq (t.store slot record)
    (some slot) t.newest
  have filled : t.fill slot record = (t.store slot record).withAge (some slot)
      (tailWithout ⟨some slot, t.newest⟩ t.oldest) links := by
    change { (t.store slot record).setAgePrev t.newest (some slot) with newest := some slot } = _
    rw [aged]
    rfl
  have recorded : ∀ node ∈ log,
      ((t.fill slot record).nodes node).toFreeMeta = (t.nodes node).toFreeMeta := by
    intro node member
    rw [filled]
    exact (congrArg FreeNode.toFreeMeta (store_of_ne (notLogged node member)) :)
  have first : ((t.fill slot record).nodes slot).toFreeMeta = record := by
    rw [filled]
    exact congrArg FreeNode.toFreeMeta store_self
  have records : (t.fill slot record).records (slot :: log) = record :: t.records log := by
    rw [← records_congr recorded, FreeTable.records, List.map_cons, first]
    rfl
  refine ⟨?_, records⟩
  constructor
  · rw [filled]
    exact linked.pool
  · rw [filled]
    exact linked.slotList.congr fun node member =>
      (congrArg FreeNode.poolNext (store_of_ne (notSlot node member)) :)
  · intro bucket
    have others : Follows (fun node => ((t.fill slot record).nodes node).hashNext)
        (t.buckets bucket) ((t.fill slot record).inBucket log bucket) := by
      rw [inBucket_congr recorded, filled]
      exact (linked.bucketList bucket).congr fun node member =>
        (congrArg FreeNode.hashNext (store_of_ne (notLogged node (mem_inBucket.mp member).1)) :)
    have place : (t.fill slot record).hash slot = freeHash capacity record.ptr := by
      rw [hash, first]
    have start : (t.fill slot record).buckets =
        Function.update t.buckets (freeHash capacity record.ptr) (some slot) := by
      rw [filled]
      rfl
    rw [inBucket, List.filter_cons, place, start]
    by_cases mine : freeHash capacity record.ptr = bucket
    · subst mine
      rw [if_pos (by simp), Function.update_self]
      refine ⟨rfl, ?_⟩
      have next : ((t.fill slot record).nodes slot).hashNext =
          t.buckets (freeHash capacity record.ptr) := by
        rw [filled]
        exact congrArg FreeNode.hashNext store_self
      simp only [next]
      exact others
    · rw [if_neg (by simpa using mine), Function.update_of_ne (Ne.symm mine)]
      exact others
  · have pushed := linked.ageList.push fresh
    rw [linkFront, ← linked.newest, ← store_age, ← backwards] at pushed
    rw [filled]
    exact pushed
  · rw [filled]
    rfl
  · rw [filled]
    change tailWithout ⟨some slot, t.newest⟩ t.oldest = _
    rw [linked.newest, linked.oldest]
    cases log with
    | nil => rfl
    | cons first rest => simp [tailWithout, List.getLast?_cons]
  · exact List.nodup_middle.mpr (List.nodup_cons.mpr ⟨detached, linked.apart⟩)
  · rw [records]
    exact List.pairwise_cons.mpr ⟨new, linked.distinct⟩

end Ucb.Memdbg.FreeTable
