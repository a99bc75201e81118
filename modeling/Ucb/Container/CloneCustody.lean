import Mathlib.Algebra.BigOperators.Group.Finset.Basic
import Ucb.Container.CloneFailures

/-!
Contract: what becomes of the clones that a generic vector owns.

Owns:
- the account of the clones made, freed and given to the caller;
- that every list effect accounts for its clones, also when one of them fails;
- exactly when sequences of operations have these effects, with every clone in one list,
  freed or given away, once.
-/

namespace Ucb.Container

open Ucb.Lib

/-! ## Each clone is accounted for -/

/-- What became of the clones so far: `freed` went to `data_free` and `given` to the caller. -/
structure Account where
  made : Multiset (List UInt8)
  freed : Multiset (List UInt8)
  given : Multiset (List UInt8)

/-- Lists, and what became of the clones that were made for them. -/
structure Custody where
  all : Lists
  account : Account

section Custody

variable (cloner : CloneFunc)

/-- The clones that `data_clone` returns in an operation. -/
def clonesOf (all : Lists) : GenericOp → List (List UInt8)
  | .insert number _ data | .pushBack number data | .pushFront number data
  | .set number _ data =>
      (all.lists number).elim [] fun list =>
        list.mode.dropped (cloner.clone all.calls data).toList
  | .copy _ src | .clone _ src =>
      (all.lists src).elim [] fun list =>
        list.mode.dropped (list.mode.copies cloner all.calls list.items).1.1
  | _ => []

/-- The clones that the caller gets, who may get a look at others. -/
def givenAway (all : Lists) (op : GenericOp) (outcome : VectorOutcome) : List (List UInt8) :=
  match op with
  | .remove number _ _ | .popBack number _ | .popFront number _ =>
      (all.lists number).elim [] fun list => list.mode.dropped outcome.out.toList
  | _ => []

def custodyStep (s : Custody) (op : GenericOp) : Option (Custody × VectorOutcome) :=
  (ownedStep cloner s.all op).map fun next =>
    (⟨next.1, ⟨s.account.made + clonesOf cloner s.all op, s.account.freed + next.2.freed,
      s.account.given + givenAway s.all op next.2⟩⟩, next.2)

def noCustody : Custody := ⟨noLists, ⟨0, 0, 0⟩⟩

def ownItems (slot : Option ItemList) : List (List UInt8) :=
  slot.elim [] fun list => list.mode.dropped list.items

def Lists.owned (all : Lists) (numbers : Finset Nat) : Multiset (List UInt8) :=
  ∑ number ∈ numbers, (ownItems (all.lists number) : Multiset (List UInt8))

/-- Every clone is an element of one list, was freed or was given to the caller, once. -/
def Balanced (numbers : Finset Nat) (s : Custody) : Prop :=
  s.account.made = s.all.owned numbers + s.account.freed + s.account.given

def GenericOp.numbers : GenericOp → Finset Nat
  | .clone dst src | .copy dst src | .move dst src => {dst, src}
  | .new number _ | .reserve number _ | .clear number | .fit number | .insert number _ _
  | .remove number _ _ | .pushBack number _ | .pushFront number _ | .popBack number _
  | .popFront number _ | .get number _ | .set number _ _ => {number}

end Custody

section Balance

variable {cloner : CloneFunc} {all : Lists} {numbers : Finset Nat} {number calls : Nat}
  {list after : ItemList} {op : GenericOp} {next : Lists × VectorOutcome} {data : List UInt8}

theorem put_lists_ne {other : Nat} (different : other ≠ number) :
    (all.put number list calls).lists other = all.lists other :=
  Function.update_of_ne different _ _

theorem owned_put (inside : number ∈ numbers) :
    (all.put number list calls).owned numbers + ownItems (all.lists number) =
      all.owned numbers + ownItems (some list) := by
  rw [Lists.owned, Lists.owned, ← Finset.add_sum_erase _ _ inside, ← Finset.add_sum_erase numbers
    (fun number => (ownItems (all.lists number) : Multiset (List UInt8))) inside]
  have others : ∑ other ∈ numbers.erase number,
      (ownItems ((all.put number list calls).lists other) : Multiset (List UInt8)) =
        ∑ other ∈ numbers.erase number, (ownItems (all.lists other) : Multiset (List UInt8)) :=
    Finset.sum_congr rfl fun other member => by
      rw [put_lists_ne (Finset.ne_of_mem_erase member)]
  have here : (all.put number list calls).lists number = some list := Function.update_self _ _ _
  rw [others, here]
  ac_rfl

/-- What an operation may do to the clones: those it makes and those that were there are
afterwards elements, freed or given away. -/
def Exchanges (cloner : CloneFunc) (numbers : Finset Nat) (all : Lists) (op : GenericOp)
    (next : Lists × VectorOutcome) : Prop :=
  all.owned numbers + clonesOf cloner all op =
    next.1.owned numbers + next.2.freed + givenAway all op next.2

/-- An operation that replaces one list accounts for what it had. -/
theorem exchanges_put {outcome : VectorOutcome} (inside : number ∈ numbers)
    (exchange : (ownItems (all.lists number) : Multiset (List UInt8)) + clonesOf cloner all op =
      (ownItems (some after) : Multiset (List UInt8)) + outcome.freed + givenAway all op outcome) :
    Exchanges cloner numbers all op (all.put number after calls, outcome) := by
  have changed : (all.put number after calls).owned numbers + ownItems (all.lists number) =
    all.owned numbers + ownItems (some after) := owned_put inside
  rw [Exchanges]
  apply add_right_cancel (b := (ownItems (all.lists number) : Multiset (List UInt8)))
  calc all.owned numbers + clonesOf cloner all op + ownItems (all.lists number)
      = all.owned numbers + (ownItems (all.lists number) + clonesOf cloner all op) := by ac_rfl
    _ = all.owned numbers + ownItems (some after) + outcome.freed +
        givenAway all op outcome := by rw [exchange]; ac_rfl
    _ = (all.put number after calls).owned numbers + outcome.freed + givenAway all op outcome +
        ownItems (all.lists number) := by rw [← changed]; ac_rfl

/-- The elements of a list behind an operation that keeps its mode. -/
theorem ownItems_eq (same : after.mode = list.mode) :
    ownItems (some after) = list.mode.dropped after.items := by
  rw [← same]
  rfl

/-- Items in some order are as many as in another one. -/
theorem dropped_perm (mode : VectorMode) {items others : List (List UInt8)}
    (perm : items.Perm others) :
    (mode.dropped items : Multiset (List UInt8)) = mode.dropped others := by
  cases mode with
  | owned => exact Multiset.coe_eq_coe.mpr perm
  | _ => rfl

@[simp] theorem dropped_nil (mode : VectorMode) : mode.dropped [] = [] := by
  cases mode <;> rfl

theorem dropped_append (mode : VectorMode) (items others : List (List UInt8)) :
    (mode.dropped (items ++ others) : Multiset (List UInt8)) =
      mode.dropped items + mode.dropped others := by
  cases mode with
  | owned => exact (Multiset.coe_add _ _).symm
  | _ => rfl

theorem dropped_put {mode : VectorMode} {item : List UInt8} {calls' : Nat}
    (put : mode.put cloner calls data = some (item, calls')) :
    mode.dropped (cloner.clone calls data).toList = mode.dropped [item] := by
  cases mode with
  | owned =>
      obtain ⟨copy, cloned, same⟩ := Option.map_eq_some_iff.mp put
      obtain ⟨rfl, -⟩ := Prod.mk.inj same
      rw [cloned]
      rfl
  | _ => rfl

/-- An insertion makes the clone that it adds. -/
theorem exchanges_insert {index : Nat}
    (inside : number ∈ numbers)
    (clones : clonesOf cloner all op = (all.lists number).elim [] fun list =>
      list.mode.dropped (cloner.clone all.calls data).toList)
    (keeps : ∀ outcome, givenAway all op outcome = [])
    (effect : insertItem cloner all number index data = some next) :
    Exchanges cloner numbers all op next := by
  obtain ⟨list, item, calls, after, found, within, -, put, mode, items, rfl⟩ :=
    insertItem_some effect
  apply exchanges_put inside
  have perm : after.items.Perm (list.items ++ [item]) := by
    rw [items]
    refine List.perm_middle.trans ?_
    rw [List.take_append_drop]
    exact (List.perm_append_singleton item list.items).symm
  have made : clonesOf cloner all op = list.mode.dropped [item] := by
    rw [clones, found]
    exact dropped_put put
  rw [ownItems_eq mode, dropped_perm _ perm, dropped_append, made, keeps, found]
  simp [ownItems]

/-- A removal frees the element that it takes out, or gives it away. -/
theorem exchanges_remove {index : Nat} {wanted : Bool} (inside : number ∈ numbers)
    (clones : clonesOf cloner all op = [])
    (gives : ∀ outcome, givenAway all op outcome =
      (all.lists number).elim [] fun list => list.mode.dropped outcome.out.toList)
    (effect : removeItem all number index wanted = some next) :
    Exchanges cloner numbers all op next := by
  obtain ⟨list, item, after, found, here, mode, items, rfl⟩ := removeItem_some effect
  apply exchanges_put inside
  have perm : list.items.Perm (after.items ++ [item]) := by
    conv => lhs; rw [(items_split here).1]
    rw [items]
    exact List.perm_middle.trans (List.perm_append_singleton item _).symm
  rw [ownItems_eq mode, clones, gives, found]
  have split : (ownItems (some list) : Multiset (List UInt8)) =
      list.mode.dropped after.items + list.mode.dropped [item] :=
    (dropped_perm _ perm).trans (dropped_append _ _ _)
  rw [split]
  cases wanted with
  | true => simp [taken]
  | false => simp [taken]

/-- A pop is a removal, or finds nothing. -/
theorem exchanges_pop (index : Nat → Nat) {wanted : Bool} (inside : number ∈ numbers)
    (clones : clonesOf cloner all op = [])
    (gives : ∀ outcome, givenAway all op outcome =
      (all.lists number).elim [] fun list => list.mode.dropped outcome.out.toList)
    (effect : popItem all number index wanted = some next) :
    Exchanges cloner numbers all op next := by
  obtain ⟨list, found, effect⟩ := Option.bind_eq_some_iff.mp effect
  split at effect
  next empty =>
    obtain rfl := Option.some.inj effect
    rw [Exchanges, clones, gives, found]
    simp
  next => exact exchanges_remove inside clones gives effect

theorem exchanges_refused {inRange : ItemList → Bool} (inside : number ∈ numbers)
    (clones : clonesOf cloner all op = (all.lists number).elim [] fun list =>
      list.mode.dropped (cloner.clone all.calls data).toList)
    (keeps : ∀ outcome, givenAway all op outcome = [])
    (effect : refuseItem cloner all number inRange data = some next) :
    Exchanges cloner numbers all op next := by
  obtain ⟨list, found, owned, -, refused, rfl⟩ := refuseItem_some effect
  apply exchanges_put inside
  have none : clonesOf cloner all op = [] := by
    rw [clones, found, refused]
    simp
  rw [none, keeps, found]
  simp

theorem exchanges_copied {dst : Nat} {freed : List (List UInt8)}
    {success : Bool} {items : List (List UInt8)} (inside : dst ∈ numbers)
    (before : ownItems (all.lists dst) = freed)
    (clones : clonesOf cloner all op = list.mode.dropped items)
    (keeps : ∀ outcome, givenAway all op outcome = [])
    (mode : after.mode = list.mode) (content : after.items = items) :
    Exchanges cloner numbers all op (all.put dst after calls, ⟨success, none, freed⟩) := by
  apply exchanges_put inside
  rw [ownItems_eq mode, content, clones, keeps, before]
  simp [add_comm]

/-- A move leaves the elements of the source, and frees those of the target. -/
theorem exchanges_moved {dst src : Nat} {old : ItemList} (apart : dst ≠ src)
    (target : all.lists dst = some old) (found : all.lists src = some list)
    (dstInside : dst ∈ numbers) (srcInside : src ∈ numbers) :
    Exchanges cloner numbers all (.move dst src)
      ((all.put dst list all.calls).put src ⟨list.mode, [], by simp⟩ all.calls,
        ⟨true, none, old.mode.dropped old.items⟩) := by
  have first : (all.put dst list all.calls).owned numbers + ownItems (all.lists dst) =
    all.owned numbers + ownItems (some list) := owned_put dstInside
  have second : ((all.put dst list all.calls).put src (emptyList list.mode) all.calls).owned
      numbers + ownItems ((all.put dst list all.calls).lists src) =
    (all.put dst list all.calls).owned numbers + ownItems (some (emptyList list.mode)) :=
    owned_put srcInside
  rw [put_lists_ne apart.symm, found] at second
  have empty : ownItems (some (emptyList list.mode)) = [] := dropped_nil list.mode
  rw [empty] at second
  rw [target] at first
  apply add_right_cancel (b := (ownItems (some list) : Multiset (List UInt8)))
  change all.owned numbers + 0 + ownItems (some list) =
    ((all.put dst list all.calls).put src (emptyList list.mode) all.calls).owned numbers +
      ownItems (some old) + 0 + ownItems (some list)
  rw [add_zero, ← first, add_zero]
  calc (all.put dst list all.calls).owned numbers + ownItems (some old)
      = (all.put dst list all.calls).owned numbers + ([] : List (List UInt8)) +
          ownItems (some old) := by simp
    _ = _ := by rw [← second]; ac_rfl

/-- Two items change places. -/
theorem perm_exchange (front back : List (List UInt8)) (old item : List UInt8) :
    (front ++ old :: back ++ [item]).Perm (front ++ item :: back ++ [old]) := by
  rw [List.append_assoc, List.append_assoc]
  apply List.Perm.append_left
  exact ((List.perm_append_singleton item _).trans (List.Perm.swap old item back)).trans
    (List.perm_append_singleton old _).symm

/-- The step lemma, for clones that succeed. -/
theorem exchanges_step (free : TakesFreeNumber all op) (inside : op.numbers ⊆ numbers)
    (effect : itemStep cloner all op = some next) : Exchanges cloner numbers all op next := by
  have alone : ∀ {number : Nat}, op.numbers = {number} → number ∈ numbers := by
    intro number same
    rw [same] at inside
    exact Finset.singleton_subset_iff.mp inside
  have still : ∀ {number : Nat} {outcome : VectorOutcome} {list : ItemList},
      number ∈ numbers → all.lists number = some list → clonesOf cloner all op = [] →
      givenAway all op outcome = [] → outcome.freed = [] →
      Exchanges cloner numbers all op (all.put number list all.calls, outcome) := by
    intro number outcome list member found clones keeps nothing
    apply exchanges_put member
    rw [clones, keeps, nothing, found]
    simp
  cases op with
  | new number args =>
      obtain ⟨mode, -, effect⟩ := Option.bind_eq_some_iff.mp effect
      obtain rfl := Option.some.inj effect
      apply exchanges_put (alone rfl)
      have none : all.lists number = none := Option.isNone_iff_eq_none.mp free
      rw [none]
      cases mode <;> simp [ownItems, VectorMode.dropped, clonesOf, givenAway]
  | clone dst src =>
      obtain ⟨list, found, effect⟩ := Option.bind_eq_some_iff.mp effect
      obtain ⟨⟨items, calls⟩, put, effect⟩ := Option.bind_eq_some_iff.mp effect
      obtain ⟨after, replaced, effect⟩ := Option.bind_eq_some_iff.mp effect
      obtain rfl := Option.some.inj effect
      obtain ⟨mode, content⟩ := replace_some replaced
      have none : all.lists dst = none := Option.isNone_iff_eq_none.mp free
      apply exchanges_copied (inside (by simp [GenericOp.numbers])) (by rw [none]; rfl) ?_
        (fun _ => rfl) mode content
      rw [clonesOf, found, Option.elim_some, copies_of_putAll put]
  | copy dst src =>
      obtain ⟨old, target, effect⟩ := Option.bind_eq_some_iff.mp effect
      obtain ⟨list, found, effect⟩ := Option.bind_eq_some_iff.mp effect
      split at effect
      next => cases effect
      next apart =>
        obtain ⟨⟨items, calls⟩, put, effect⟩ := Option.bind_eq_some_iff.mp effect
        obtain ⟨after, replaced, effect⟩ := Option.bind_eq_some_iff.mp effect
        obtain rfl := Option.some.inj effect
        obtain ⟨mode, content⟩ := replace_some replaced
        apply exchanges_copied (inside (by simp [GenericOp.numbers])) (by rw [target]; rfl) ?_
          (fun _ => rfl) mode content
        rw [clonesOf, found, Option.elim_some, copies_of_putAll put]
  | move dst src =>
      obtain ⟨old, target, effect⟩ := Option.bind_eq_some_iff.mp effect
      obtain ⟨list, found, effect⟩ := Option.bind_eq_some_iff.mp effect
      split at effect
      next => cases effect
      next apart =>
        obtain rfl := Option.some.inj effect
        exact exchanges_moved apart target found (inside (by simp [GenericOp.numbers]))
          (inside (by simp [GenericOp.numbers]))
  | reserve number newCapacity =>
      obtain ⟨list, found, effect⟩ := Option.bind_eq_some_iff.mp effect
      obtain rfl := Option.some.inj effect
      exact still (alone rfl) found rfl rfl rfl
  | clear number =>
      obtain ⟨list, found, effect⟩ := Option.bind_eq_some_iff.mp effect
      obtain rfl := Option.some.inj effect
      apply exchanges_put (alone rfl)
      rw [found]
      simp [ownItems, clonesOf, givenAway]
  | fit number =>
      obtain ⟨list, found, effect⟩ := Option.bind_eq_some_iff.mp effect
      obtain rfl := Option.some.inj effect
      exact still (alone rfl) found rfl rfl rfl
  | insert number index data =>
      exact exchanges_insert (alone rfl) rfl (fun _ => rfl) effect
  | remove number index wanted =>
      exact exchanges_remove (alone rfl) rfl (fun _ => rfl) effect
  | pushBack number data =>
      obtain ⟨list, found, effect⟩ := Option.bind_eq_some_iff.mp effect
      exact exchanges_insert (alone rfl) rfl (fun _ => rfl) effect
  | pushFront number data =>
      exact exchanges_insert (alone rfl) rfl (fun _ => rfl) effect
  | popBack number wanted => exact exchanges_pop (· - 1) (alone rfl) rfl (fun _ => rfl) effect
  | popFront number wanted =>
      exact exchanges_pop (fun _ => 0) (alone rfl) rfl (fun _ => rfl) effect
  | get number index =>
      obtain ⟨list, found, effect⟩ := Option.bind_eq_some_iff.mp effect
      obtain ⟨item, there, effect⟩ := Option.bind_eq_some_iff.mp effect
      obtain rfl := Option.some.inj effect
      exact still (alone rfl) found rfl rfl rfl
  | set number index data =>
      obtain ⟨list, found, effect⟩ := Option.bind_eq_some_iff.mp effect
      obtain ⟨old, there, effect⟩ := Option.bind_eq_some_iff.mp effect
      split at effect
      next =>
        obtain ⟨⟨item, calls⟩, put, effect⟩ := Option.bind_eq_some_iff.mp effect
        obtain ⟨after, replaced, effect⟩ := Option.bind_eq_some_iff.mp effect
        obtain rfl := Option.some.inj effect
        obtain ⟨mode, content⟩ := replace_some replaced
        have perm : (list.items ++ [item]).Perm (after.items ++ [old]) := by
          obtain ⟨within, -⟩ := List.getElem?_eq_some_iff.mp there
          rw [content, List.set_eq_take_append_cons_drop, if_pos within]
          conv => lhs; rw [(items_split there).1]
          exact perm_exchange _ _ _ _
        have made : clonesOf cloner all (.set number index data) = list.mode.dropped [item] := by
          rw [clonesOf, found]
          exact dropped_put put
        apply exchanges_put (alone rfl)
        have split := dropped_perm list.mode perm
        rw [dropped_append, dropped_append] at split
        rw [ownItems_eq mode, made, found]
        simpa [ownItems, givenAway] using split
      next => cases effect

/-- The step lemma, for a clone that fails. -/
theorem exchanges_refusedStep (inside : op.numbers ⊆ numbers)
    (effect : refusedStep cloner all op = some next) : Exchanges cloner numbers all op next := by
  have alone : ∀ {number : Nat}, op.numbers = {number} → number ∈ numbers := by
    intro number same
    rw [same] at inside
    exact Finset.singleton_subset_iff.mp inside
  cases op with
  | insert number index data => exact exchanges_refused (alone rfl) rfl (fun _ => rfl) effect
  | pushBack number data => exact exchanges_refused (alone rfl) rfl (fun _ => rfl) effect
  | pushFront number data => exact exchanges_refused (alone rfl) rfl (fun _ => rfl) effect
  | set number index data => exact exchanges_refused (alone rfl) rfl (fun _ => rfl) effect
  | copy dst src =>
      obtain ⟨old, target, effect⟩ := Option.bind_eq_some_iff.mp effect
      obtain ⟨list, found, effect⟩ := Option.bind_eq_some_iff.mp effect
      simp only at effect
      split at effect
      next => cases effect
      next =>
        obtain ⟨after, replaced, effect⟩ := Option.bind_eq_some_iff.mp effect
        obtain rfl := Option.some.inj effect
        obtain ⟨mode, content⟩ := replace_some replaced
        apply exchanges_copied (inside (by simp [GenericOp.numbers])) (by rw [target]; rfl) ?_
          (fun _ => rfl) mode content
        rw [clonesOf, found, Option.elim_some]
  | clone dst src =>
      obtain ⟨list, found, effect⟩ := Option.bind_eq_some_iff.mp effect
      simp only at effect
      split at effect
      next => cases effect
      next =>
        obtain rfl := Option.some.inj effect
        rw [Exchanges, clonesOf, found, Option.elim_some]
        exact (add_zero _).symm
  | _ => cases effect

/-- Each operation accounts for its clones. -/
theorem Balanced.step {s : Custody} {after : Custody × VectorOutcome}
    (balanced : Balanced numbers s) (inside : op.numbers ⊆ numbers)
    (effect : custodyStep cloner s op = some after) : Balanced numbers after.1 := by
  obtain ⟨next, performed, rfl⟩ := Option.map_eq_some_iff.mp effect
  obtain ⟨free, either⟩ := Option.ite_none_right_eq_some.mp performed
  have exchange : Exchanges cloner numbers s.all op next := by
    cases succeeds : itemStep cloner s.all op with
    | some made =>
        rw [succeeds] at either
        obtain rfl := Option.some.inj either
        exact exchanges_step free inside succeeds
    | none =>
        rw [succeeds] at either
        exact exchanges_refusedStep inside either
  rw [Balanced] at balanced ⊢
  simp only [balanced]
  rw [Exchanges] at exchange
  calc s.all.owned numbers + s.account.freed + s.account.given + clonesOf cloner s.all op
      = s.all.owned numbers + clonesOf cloner s.all op + s.account.freed + s.account.given := by
        ac_rfl
    _ = _ := by rw [exchange]; ac_rfl

end Balance

/-! ## Sequences of operations -/

/-- The vectors keep the lists, and every clone is accounted for. -/
def KeepsCustody (numbers : Finset Nat) (vectors : Vectors) (s : Custody) : Prop :=
  KeepAll vectors s.all ∧ Balanced numbers s

section Sequences

variable {allocator : Allocator} {cloner : CloneFunc} {numbers : Finset Nat}

theorem keepsCustody_none : KeepsCustody numbers noVectors noCustody := by
  refine ⟨keepAll_none, ?_⟩
  have none : noCustody.all.owned numbers = 0 := Finset.sum_eq_zero fun _ _ => rfl
  rw [Balanced, none]
  rfl

theorem custody_performs_iff (generous : allocator.Generous) {vectors : Vectors} {s : Custody}
    {op : GenericOp} {after : Custody × VectorOutcome} (inside : op.numbers ⊆ numbers)
    (keeps : KeepsCustody numbers vectors s) (effect : custodyStep cloner s op = some after) :
    Lib.Performs (genericRun allocator cloner) (KeepsCustody numbers) vectors op after ↔
      SafeWhenRefused cloner vectors op := by
  have balanced := keeps.2.step inside effect
  obtain ⟨next, performed, rfl⟩ := Option.map_eq_some_iff.mp effect
  rw [← owned_performs_iff generous keeps.1 performed]
  constructor
  · rintro ⟨state, ran, kept, -⟩
    exact ⟨state, ran, kept⟩
  · rintro ⟨state, ran, kept⟩
    exact ⟨state, ran, kept, balanced⟩

/-- Sequences of operations whose clones succeed or fail, from no vectors on, have the list
effects, with every clone in one list, freed or given away, once, at every point, exactly
when each operation is safe. -/
theorem failedClones_refine_iff (generous : allocator.Generous) {ops : List GenericOp}
    (named : ∀ op ∈ ops, op.numbers ⊆ numbers)
    (inContract : (performAll (custodyStep cloner) noCustody ops).isSome) :
    RefinesOn (genericRun allocator cloner) (custodyStep cloner) (KeepsCustody numbers) noVectors
        noCustody ops ↔
      Throughout (genericRun allocator cloner) (SafeWhenRefused cloner) noVectors ops := by
  refine refinesOn_iff_of_mem ?_ keepsCustody_none inContract
  intro op member before specified after keeps effect
  exact custody_performs_iff generous (named op member) keeps effect

end Sequences

/-- Clones as `numberedClone` makes them, but not in these calls. -/
def failingClone (fails : List Nat) : CloneFunc where
  clone call item := if call ∈ fails then none else numberedClone.clone call item
  pointer := by
    intro call item copy answer
    split at answer
    next => cases answer
    next => exact numberedClone.pointer call item copy answer

/-- Two elements, an insertion before the last one and a copy that both fail, and the end of both
vectors. -/
def safeFailures : List GenericOp :=
  [.new 0 ⟨true, true, 0, 1⟩, .pushBack 0 [1, 0, 0, 0, 0, 0, 0, 0],
    .pushBack 0 [2, 0, 0, 0, 0, 0, 0, 0], .insert 0 1 [3, 0, 0, 0, 0, 0, 0, 0],
    .new 1 ⟨true, true, 0, 1⟩, .copy 1 0, .clear 0, .clear 1]

theorem failedClones_refine_iff_safe :
    RefinesOn (genericRun ⟨fun _ _ => true, fun _ => 0⟩ (failingClone [2, 4]))
        (custodyStep (failingClone [2, 4])) (KeepsCustody {0, 1}) noVectors noCustody safeFailures ↔
      Throughout (genericRun ⟨fun _ _ => true, fun _ => 0⟩ (failingClone [2, 4]))
        (SafeWhenRefused (failingClone [2, 4])) noVectors safeFailures :=
  failedClones_refine_iff (fun _ _ => rfl) (by decide) (by decide)

/-- Two elements, and a third one that cannot be cloned. -/
def twoElements (last : GenericOp) : List GenericOp :=
  [.new 0 ⟨true, true, 0, 1⟩, .pushBack 0 [1, 0, 0, 0, 0, 0, 0, 0],
    .pushBack 0 [2, 0, 0, 0, 0, 0, 0, 0], last, .clear 0]

/-- An insertion in front that fails leaves the first element twice, which is freed twice, and a
replacement that fails leaves an element that it has freed. -/
theorem failedClones_free_twice :
    ¬ RefinesOn (genericRun ⟨fun _ _ => true, fun _ => 0⟩ (failingClone [2]))
        (custodyStep (failingClone [2])) (KeepsCustody {0}) noVectors noCustody
        (twoElements (.insert 0 0 [3, 0, 0, 0, 0, 0, 0, 0])) ∧
      ¬ RefinesOn (genericRun ⟨fun _ _ => true, fun _ => 0⟩ (failingClone [2]))
        (custodyStep (failingClone [2])) (KeepsCustody {0}) noVectors noCustody
        (twoElements (.set 0 0 [3, 0, 0, 0, 0, 0, 0, 0])) := by
  -- The results of the vectors and of the lists differ.
  have differ : ∀ ops, RefinesOn (genericRun ⟨fun _ _ => true, fun _ => 0⟩ (failingClone [2]))
      (custodyStep (failingClone [2])) (KeepsCustody {0}) noVectors noCustody ops →
      (performAll (custodyStep (failingClone [2])) noCustody ops).isSome →
      (performAll (genericRun ⟨fun _ _ => true, fun _ => 0⟩ (failingClone [2])) noVectors ops).map
          Prod.snd =
        (performAll (custodyStep (failingClone [2])) noCustody ops).map Prod.snd := by
    intro ops refines inContract
    obtain ⟨last, specified⟩ := Option.isSome_iff_exists.mp inContract
    obtain ⟨state, ran, -⟩ := refines ops [] (List.append_nil _).symm last specified
    rw [ran, specified]
    rfl
  exact ⟨fun refines => absurd (differ _ refines (by decide)) (by decide +kernel),
    fun refines => absurd (differ _ refines (by decide)) (by decide +kernel)⟩

end Ucb.Container
