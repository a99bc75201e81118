import Ucb.Container.CloneFailures
import Ucb.Lib.Refusal

/-!
Contract: the generic vector when the allocator refuses a request.

Owns:
- what each operation does when the array it needs is refused;
- exactly which sequences leave the vectors as they were at each refusal.

Nobody looks at the answer to the request of `ucb_vector_copy`: it goes on with the array it
does not have.
-/

namespace Ucb.Container

open Ucb.Lib

def genericVectors (cloner : CloneFunc) :
    Component Allocator Vectors GenericOp VectorOutcome (Nat → Option ItemList) where
  step allocator := genericRun allocator cloner
  granting := Allocator.granting
  holds vectors lists := ∀ number, SlotKeeps (vectors.vecs number) (lists number)

/-- What `ucb_vector_reserve` asks for, if anything, is not refused. -/
def BytesGranted (allocator : Allocator) (vec : UcbVector) (newCapacity : Nat) : Prop :=
  vec.capacity < newCapacity →
    allocator.grants .realloc (newCapacity * vec.esize % 2 ^ 64) = true

/-- What `ucb_vector_insert` asks for, if anything, is not refused. -/
def GrowBytesGranted (allocator : Allocator) (vec : UcbVector) : Prop :=
  vec.size = vec.capacity → BytesGranted allocator vec (vec.capacity * 2 % 2 ^ 64)

/-- What `ucb_vector_fit` asks for, if anything, is not refused. -/
def FitBytesGranted (allocator : Allocator) (vec : UcbVector) : Prop :=
  vec.size < vec.capacity → allocator.grants .realloc (vec.size * vec.esize % 2 ^ 64) = true

def SameKind (dst src : UcbVector) : Prop :=
  dst.esize = src.esize ∧ dst.isPointer = src.isPointer ∧ dst.dataClone = src.dataClone ∧
    dst.dataFree = src.dataFree

/-- There is nothing to copy, or the first element cannot be cloned. -/
def CopiesNothing (cloner : CloneFunc) (calls : Nat) (src : UcbVector) : Prop :=
  src.size = 0 ∨ ∃ item, pointerAt src.data 0 = .ok item ∧ Refuses cloner calls src item

/-- What `ucb_vector_copy` asks for, if anything, is not refused, or nothing is copied into a
vector of the same mode that has no array. -/
def CopySpared (allocator : Allocator) (cloner : CloneFunc) (calls : Nat) (dst src : UcbVector) :
    Prop :=
  BytesGranted allocator { dst with esize := src.esize } src.capacity ∨
    (dst.capacity = 0 ∧ SameKind dst src ∧ CopiesNothing cloner calls src)

/-- No vector that has an array is refused what it asks for, and no copy. -/
def BlocksGranted (cloner : CloneFunc) (vectors : Vectors) (call : Allocator × GenericOp) : Prop :=
  match call.2 with
  | .reserve number newCapacity =>
      ∀ vec ∈ vectors.vecs number, 0 < vec.capacity → BytesGranted call.1 vec newCapacity
  | .fit number =>
      ∀ vec ∈ vectors.vecs number, 0 < vec.capacity → FitBytesGranted call.1 vec
  | .insert number _ _ | .pushBack number _ | .pushFront number _ =>
      ∀ vec ∈ vectors.vecs number, 0 < vec.capacity → GrowBytesGranted call.1 vec
  | .copy dst src =>
      ∀ target ∈ vectors.vecs dst, ∀ vec ∈ vectors.vecs src,
        CopySpared call.1 cloner vectors.calls target vec
  | _ => True

/-- The operation has a list effect, whether its clones succeed or not, and is safe when no
refusal of the allocator shows. -/
def ProperGenericCall (cloner : CloneFunc) (vectors : Vectors) (call : Allocator × GenericOp) :
    Prop :=
  (∃ all, KeepAll vectors all ∧ (ownedStep cloner all call.2).isSome) ∧
    ((genericVectors cloner).Unhindered vectors call → SafeWhenRefused cloner vectors call.2)

/-! ## Requests for arrays -/

/-- A vector that has been refused an array. It has lost the one it had. -/
def deniedVector (vec : UcbVector) : UcbVector :=
  { vec with data := if vec.capacity = 0 then vec.data else .dangling }

theorem deniedVector_of_none {vec : UcbVector} (noArray : vec.capacity = 0) :
    deniedVector vec = vec := by
  rw [deniedVector, if_pos noArray]

section Requests

variable {allocator : Allocator} {cloner : CloneFunc} {vec : UcbVector} {newCapacity calls : Nat}
  {list : ItemList}

/-- A wrapped number of bytes is asked for as it is. -/
theorem bytes_once (count : Nat) : count % 2 ^ 64 * 1 % 2 ^ 64 = count % 2 ^ 64 := by
  rw [Nat.mul_one, Nat.mod_mod]

/-- The array behind a data pointer is there exactly when the vector has capacity. -/
def Live (vec : UcbVector) : Prop :=
  vec.data.freed = .ok (if vec.capacity = 0 then vec.data else .dangling)

theorem Keeps.live (keeps : Keeps vec list) : Live vec := by
  rcases keeps.array with ⟨null, noRoom, -⟩ | ⟨room, spare, same, -⟩
  · rw [Live, if_pos noRoom, null]
    rfl
  · rw [Live, if_neg (Nat.ne_of_gt room), same]
    rfl

/-- `ucb_vector_reserve` with the request it makes granted, or with none. -/
theorem vectorReserve_granting (granted : BytesGranted allocator vec newCapacity) :
    ucbVectorReserve allocator vec newCapacity =
      ucbVectorReserve allocator.granting vec newCapacity := by
  by_cases enough : newCapacity ≤ vec.capacity
  · rw [reserve_enough_bytes allocator enough, reserve_enough_bytes _ enough]
  · have more := Nat.not_le.mp enough
    have answer := granted more
    rw [← bytes_once] at answer
    rw [reserve_asks_bytes allocator more, reserve_asks_bytes _ more, realloc_granting answer]

/-- `ucb_vector_reserve` with its request refused. -/
theorem vectorReserve_denied (live : Live vec)
    (refused : ¬ BytesGranted allocator vec newCapacity) :
    ucbVectorReserve allocator vec newCapacity = .ok (deniedVector vec, false) := by
  obtain ⟨more, refused⟩ := Classical.not_imp.mp refused
  rw [← bytes_once] at refused
  rw [reserve_asks_bytes allocator more, realloc_refused refused live]
  rfl

theorem vectorFit_granting (granted : FitBytesGranted allocator vec) :
    ucbVectorFit allocator vec = ucbVectorFit allocator.granting vec := by
  by_cases loose : vec.size < vec.capacity
  · have answer := granted loose
    rw [← bytes_once] at answer
    rw [fit_asks_bytes allocator loose, fit_asks_bytes _ loose, realloc_granting answer]
  · rw [ucbVectorFit, ucbVectorFit, if_neg loose, if_neg loose]

theorem vectorFit_denied (live : Live vec) (refused : ¬ FitBytesGranted allocator vec) :
    ucbVectorFit allocator vec = .ok (deniedVector vec) := by
  obtain ⟨loose, refused⟩ := Classical.not_imp.mp refused
  rw [← bytes_once] at refused
  rw [fit_asks_bytes allocator loose, realloc_refused refused live]
  rfl

theorem growFull_granting (granted : GrowBytesGranted allocator vec) :
    growFull allocator vec = growFull allocator.granting vec := by
  by_cases full : vec.size = vec.capacity
  · rw [growFull, growFull, vectorReserve_granting (granted full)]
  · rw [growFull, growFull, if_neg full, if_neg full]

theorem vectorInsert_granting (granted : GrowBytesGranted allocator vec) (index : Nat)
    (data : List UInt8) :
    ucbVectorInsert allocator cloner calls vec index data =
      ucbVectorInsert allocator.granting cloner calls vec index data := by
  rw [ucbVectorInsert, ucbVectorInsert, growFull_granting granted]

/-- `ucb_vector_insert` with its request refused. -/
theorem vectorInsert_denied (live : Live vec) (refused : ¬ GrowBytesGranted allocator vec)
    {index : Nat} (inside : index ≤ vec.size) (data : List UInt8) :
    ucbVectorInsert allocator cloner calls vec index data = .ok (deniedVector vec, calls) := by
  obtain ⟨full, refused⟩ := Classical.not_imp.mp refused
  rw [ucbVectorInsert, decide_eq_true inside, ucbVerify_true, Exec.ok_bind, growFull,
    if_pos full, vectorReserve_denied live refused]
  rfl

/-- A vector with capacity that points at freed memory keeps nothing. -/
theorem not_keeps_denied (array : 0 < vec.capacity) : ¬ Keeps (deniedVector vec) list := by
  intro keeps
  obtain ⟨spare, heap, -⟩ := keeps.array.heap array
  rw [deniedVector, if_neg (Nat.ne_of_gt array)] at heap
  cases heap

end Requests

/-! ## Copies -/

section Copies

variable {allocator : Allocator} {cloner : CloneFunc} {dst src target : UcbVector} {calls : Nat}
  {list old : ItemList}

/-- A vector that takes over the mode of another and has no elements. -/
def emptied (dst src : UcbVector) : UcbVector :=
  ⟨dst.data, src.esize, 0, dst.capacity, src.dataClone, src.dataFree, src.isPointer⟩

/-- A copy is clearing, asking for room and copying elements. -/
theorem vectorCopy_eq (held : Keeps dst old) :
    ucbVectorCopy allocator cloner calls dst src =
      (ucbVectorReserve allocator (emptied dst src) src.capacity >>= fun reserved =>
        copyElements cloner calls reserved.1 src >>= fun copied =>
        pure ((copied.1, old.mode.dropped old.items), copied.2)) := by
  obtain ⟨data, capacity, rfl, inside, array⟩ := held.elim
  have asked : copyTarget allocator (old.mode.vector data 0 capacity) src =
      (ucbVectorReserve allocator
          (emptied (old.mode.vector data old.items.length capacity) src) src.capacity >>=
        fun reserved => pure reserved.1) := rfl
  rw [ucbVectorCopy, clear_vector inside array, Exec.ok_bind]
  dsimp only
  rw [asked, bind_assoc]
  rfl

theorem clear_capacity {cleared : UcbVector} {freed : List (List UInt8)}
    (ran : ucbVectorClear dst = .ok (cleared, freed)) : cleared.capacity = dst.capacity := by
  rw [ucbVectorClear] at ran
  split at ran
  next frees =>
    obtain ⟨items, -, same⟩ := Exec.bind_eq_ok.mp ran
    rw [← (Prod.mk.inj (Exec.ok.inj same)).1]
  next => rw [← (Prod.mk.inj (Exec.ok.inj ran)).1]

theorem vectorCopy_granting
    (granted : BytesGranted allocator { dst with esize := src.esize } src.capacity) :
    ucbVectorCopy allocator cloner calls dst src =
      ucbVectorCopy allocator.granting cloner calls dst src := by
  rw [ucbVectorCopy, ucbVectorCopy]
  cases clearing : ucbVectorClear dst with
  | ok outcome =>
      have capacity := clear_capacity clearing
      have target : copyTarget allocator outcome.1 src =
          copyTarget allocator.granting outcome.1 src := by
        rw [copyTarget, copyTarget, vectorReserve_granting]
        intro more
        exact granted (capacity ▸ more)
      simp only [Exec.ok_bind, target]
  | abort code => rfl
  | undefined => rfl

/-- A copy whose request is refused goes on. -/
theorem vectorCopy_denied (held : Keeps dst old)
    (refused : ¬ BytesGranted allocator { dst with esize := src.esize } src.capacity) :
    ucbVectorCopy allocator cloner calls dst src =
      (copyElements cloner calls (deniedVector (emptied dst src)) src >>= fun copied =>
        pure ((copied.1, old.mode.dropped old.items), copied.2)) := by
  have refused : ¬ BytesGranted allocator (emptied dst src) src.capacity := refused
  have live : Live (emptied dst src) := held.live
  rw [vectorCopy_eq held, vectorReserve_denied live refused]
  rfl

theorem copyElements_nothing (dst : UcbVector) (kept : Keeps src list)
    (nothing : CopiesNothing cloner calls src) :
    ∃ whole calls', copyElements cloner calls (deniedVector (emptied dst src)) src =
      .ok ((deniedVector (emptied dst src), whole), calls') := by
  rcases nothing with none | ⟨item, first, clones, refused⟩
  · by_cases owned : src.isPointer && src.dataClone
    · exact ⟨true, calls, by rw [copyElements, if_pos (by exact owned), none]; rfl⟩
    · refine ⟨true, calls, ?_⟩
      rw [copyElements, if_neg (by exact owned), none, Nat.zero_mul]
      rfl
  · have pointer : src.isPointer = true := by
      rw [kept.fields] at clones ⊢
      exact VectorMode.owns_pointer clones
    cases size : src.size with
    | zero =>
        exact ⟨true, calls,
          by rw [copyElements, if_pos (by rw [deniedVector, emptied, pointer, clones]; rfl), size]
             rfl⟩
    | succ count =>
        refine ⟨false, calls + 1, ?_⟩
        rw [copyElements, if_pos (by rw [deniedVector, emptied, pointer, clones]; rfl), size,
          copyItems, first, Exec.ok_bind, refused]
        rfl

theorem copyElements_something (kept : Keeps src list)
    (nowhere : target.data.cells = .undefined) (esize : target.esize = src.esize)
    (clone : target.dataClone = src.dataClone)
    (something : ¬ CopiesNothing cloner calls src)
    (outcome : (UcbVector × Bool) × Nat) : copyElements cloner calls target src ≠ .ok outcome := by
  obtain ⟨some, clones⟩ := not_or.mp something
  have nowhere_blit : ∀ (index : Nat) (values : List (Option UInt8)), values ≠ [] →
      target.data.blit index values = .undefined := by
    intro index values nonempty
    rw [Storage.blit, if_neg nonempty, nowhere]
    rfl
  intro ran
  rw [copyElements] at ran
  split at ran
  next owned =>
    obtain ⟨count, size⟩ := Nat.exists_eq_succ_of_ne_zero some
    rw [size, copyItems] at ran
    obtain ⟨item, first, ran⟩ := Exec.bind_eq_ok.mp ran
    split at ran
    next refused =>
      rw [Bool.and_eq_true] at owned
      exact clones ⟨item, first, clone ▸ owned.2, refused⟩
    next copy cloned =>
      have nonempty : copy.map Option.some ≠ [] := by
        have length := cloner.pointer _ _ _ cloned
        rintro none
        rw [List.map_eq_nil_iff] at none
        rw [none] at length
        cases length
      rw [nowhere_blit _ _ nonempty] at ran
      cases ran
  next unowned =>
    obtain ⟨bytes, read, ran⟩ := Exec.bind_eq_ok.mp ran
    obtain ⟨data, capacity, rfl, inside, array⟩ := kept.elim
    rw [esize, vector_size, vector_esize, vector_data, slice_elements inside array] at read
    obtain rfl := Exec.ok.inj read
    have nonempty : list.items.flatten.map Option.some ≠ [] := by
      intro none
      have length := flatten_length list.sized
      rw [List.map_eq_nil_iff.mp none] at length
      rcases Nat.mul_eq_zero.mp length.symm with none | narrow
      · exact some none
      · exact absurd list.mode.wide (Nat.not_lt.mpr (Nat.le_of_eq narrow))
    rw [nowhere_blit _ _ nonempty] at ran
    cases ran

end Copies

/-! ## Operations -/

section Operations

variable {allocator : Allocator} {cloner : CloneFunc} {vectors : Vectors} {op : GenericOp}
  {number : Nat} {vec : UcbVector}

/-- Putting a vector where it is changes no slot. -/
theorem put_same (here : vectors.vecs number = some vec) (calls : Nat) :
    (vectors.put number vec calls).vecs = vectors.vecs := by
  rw [Vectors.put, ← here]
  exact Function.update_eq_self number vectors.vecs

/-- A vector that keeps nothing makes the state unsound. -/
theorem not_sound_put {calls : Nat} (lost : ∀ list, ¬ Keeps vec list) :
    ¬ (genericVectors cloner).Sound (vectors.put number vec calls) := by
  rintro ⟨lists, slots⟩
  have slot : SlotKeeps (Function.update vectors.vecs number (some vec) number) (lists number) :=
    slots number
  rw [Function.update_self] at slot
  cases found : lists number with
  | none =>
      rw [found] at slot
      exact slot
  | some list =>
      rw [found] at slot
      exact lost list slot

/-- An operation in which no refusal shows leaves lists in all vectors. -/
theorem genericWithstands_granted (proper : ProperGenericCall cloner vectors (allocator, op))
    (unhindered : (genericVectors cloner).Unhindered vectors (allocator, op)) :
    (genericVectors cloner).Withstands vectors (allocator, op) := by
  apply Component.withstands_of_unhindered unhindered
  intro after ran
  obtain ⟨⟨all, keeps, inContract⟩, safe⟩ := proper
  obtain ⟨next, effect⟩ := Option.isSome_iff_exists.mp inContract
  obtain ⟨state, ran', related⟩ :=
    (owned_performs_iff allocator.granting_generous keeps effect).mpr (safe unhindered)
  obtain rfl := Option.some.inj (ran'.symm.trans (unhindered.symm.trans ran))
  exact ⟨next.1.lists, related.slots⟩

theorem granted_returns (proper : ProperGenericCall cloner vectors (allocator, op))
    (unhindered : (genericVectors cloner).Unhindered vectors (allocator, op)) :
    (genericVectors cloner).run vectors (allocator, op) ≠ none := by
  intro none
  obtain ⟨⟨all, keeps, inContract⟩, safe⟩ := proper
  obtain ⟨next, effect⟩ := Option.isSome_iff_exists.mp inContract
  obtain ⟨state, ran, -⟩ :=
    (owned_performs_iff allocator.granting_generous keeps effect).mpr (safe unhindered)
  cases none.symm.trans (unhindered.trans ran)

/-- An operation that asks for the array of one vector. -/
theorem genericWithstands_iff (proper : ProperGenericCall cloner vectors (allocator, op))
    (here : vectors.vecs number = some vec) {granted : Prop}
    (same : granted → genericStep allocator cloner vectors op =
      genericStep allocator.granting cloner vectors op)
    (refusal : ¬ granted → ∃ outcome, genericStep allocator cloner vectors op =
      .ok (vectors.put number (deniedVector vec) vectors.calls, outcome)) :
    (genericVectors cloner).Withstands vectors (allocator, op) ↔
      (0 < vec.capacity → granted) := by
  by_cases met : granted
  · refine iff_of_true (genericWithstands_granted proper ?_) fun _ => met
    exact congrArg Exec.returned (same met)
  · obtain ⟨outcome, stepped⟩ := refusal met
    have ran : (genericVectors cloner).run vectors (allocator, op) =
        some (vectors.put number (deniedVector vec) vectors.calls, outcome) :=
      congrArg Exec.returned stepped
    by_cases noArray : vec.capacity = 0
    · rw [deniedVector_of_none noArray] at ran
      obtain ⟨all, keeps, -⟩ := proper.1
      refine iff_of_true (Component.withstands_of_survives ran ⟨all.lists, keeps.slots⟩ ?_)
        fun some => absurd noArray (Nat.ne_of_gt some)
      intro lists slots other
      have slots : ∀ other, SlotKeeps (vectors.vecs other) (lists other) := slots
      have same := put_same here vectors.calls
      show SlotKeeps ((vectors.put number vec vectors.calls).vecs other) (lists other)
      rw [same]
      exact slots other
    · have array := Nat.pos_of_ne_zero noArray
      refine iff_of_false (Component.not_withstands ran ?_) fun all => met (all array)
      exact not_sound_put fun list => not_keeps_denied array

/-- A vector without an array that takes over its own mode stays as it is. -/
theorem emptied_of_sameKind {dst src : UcbVector} {old : ItemList} (held : Keeps dst old)
    (noArray : dst.capacity = 0) (kind : SameKind dst src) : emptied dst src = dst := by
  obtain ⟨esize, pointer, clone, free⟩ := kind
  have inside := held.inside
  have size : dst.size = old.items.length := congrArg UcbVector.size held.fields
  have empty : dst.size = 0 := by omega
  rw [emptied, ← esize, ← pointer, ← clone, ← free, ← empty]

/-- A copy that is granted its array has the capacity of the source. -/
theorem vectorCopy_capacity {dst src : UcbVector} {old list : ItemList} {calls : Nat}
    (generous : allocator.Generous) (held : Keeps dst old) (kept : Keeps src list)
    (fits : CopyFits dst src) {outcome : ((UcbVector × Bool) × List (List UInt8)) × Nat}
    (ran : ucbVectorCopy allocator cloner calls dst src = .ok outcome) :
    src.capacity ≤ outcome.1.1.1.capacity := by
  obtain ⟨data, capacity, rfl, inside, array⟩ := held.elim
  obtain ⟨data', capacity', reserved, room, more⟩ :=
    copyTarget_vector generous kept array.clear fits old.mode
  obtain ⟨data'', copied, -⟩ := copyElements_vector kept room more
    (rfl : list.mode.copies cloner calls list.items = _)
  rw [ucbVectorCopy, clear_vector inside array, Exec.ok_bind] at ran
  dsimp only at ran
  rw [reserved, Exec.ok_bind, copied] at ran
  obtain rfl := Exec.ok.inj ran
  exact more

/-- A copy withstands refusals exactly when its array is not refused, or nothing is copied into a
vector of the same mode that has none. -/
theorem copy_withstands_iff {dst src : Nat} {target : UcbVector} {all : Lists}
    {old list : ItemList} (proper : ProperGenericCall cloner vectors (allocator, .copy dst src))
    (apart : dst ≠ src) (keeps : KeepAll vectors all) (here : vectors.vecs dst = some target)
    (there : vectors.vecs src = some vec) (found : all.lists dst = some old)
    (held : Keeps target old) (kept : Keeps vec list) :
    (genericVectors cloner).Withstands vectors (allocator, .copy dst src) ↔
      CopySpared allocator cloner vectors.calls target vec := by
  have step := @step_copy allocator cloner vectors dst src target vec apart here there
  have stepGranting :=
    @step_copy allocator.granting cloner vectors dst src target vec apart here there
  by_cases granted : BytesGranted allocator { target with esize := vec.esize } vec.capacity
  · refine iff_of_true (genericWithstands_granted proper ?_) (.inl granted)
    rw [← vectorCopy_granting granted, ← step] at stepGranting
    exact congrArg Exec.returned stepGranting.symm
  · have more : target.capacity < vec.capacity := (Classical.not_imp.mp granted).1
    rw [vectorCopy_denied held granted] at step
    by_cases nothing : CopiesNothing cloner vectors.calls vec
    · obtain ⟨whole, calls', copied⟩ := copyElements_nothing target kept nothing
      rw [copied] at step
      have ran : (genericVectors cloner).run vectors (allocator, .copy dst src) =
          some (vectors.put dst (deniedVector (emptied target vec)) calls',
            ⟨whole, none, old.mode.dropped old.items⟩) := congrArg Exec.returned step
      by_cases noArray : target.capacity = 0
      · have same : deniedVector (emptied target vec) = emptied target vec :=
          deniedVector_of_none noArray
        rw [same] at ran
        by_cases kind : SameKind target vec
        · rw [emptied_of_sameKind held noArray kind] at ran
          refine iff_of_true ?_ (.inr ⟨noArray, kind, nothing⟩)
          refine Component.withstands_of_survives ran ⟨all.lists, keeps.slots⟩ ?_
          intro lists slots number
          show SlotKeeps ((vectors.put dst target calls').vecs number) (lists number)
          rw [put_same here calls']
          exact slots number
        · refine iff_of_false ?_ ?_
          · intro withstands
            by_cases unhindered : (genericVectors cloner).Unhindered vectors
                (allocator, .copy dst src)
            · -- the array that is granted shows
              have fits : CopyFits target vec := proper.2 unhindered target here vec there
              have granting : genericStep allocator.granting cloner vectors (.copy dst src) =
                  .ok (vectors.put dst (emptied target vec) calls',
                    ⟨whole, none, old.mode.dropped old.items⟩) :=
                Exec.returned_eq_some.mp (unhindered.symm.trans ran)
              rw [stepGranting] at granting
              obtain ⟨outcome, copy, same⟩ := Exec.bind_eq_ok.mp granting
              have capacity := vectorCopy_capacity allocator.granting_generous held kept fits copy
              have state := congrArg (fun vectors => Vectors.vecs vectors dst)
                (Prod.mk.inj (Exec.ok.inj same)).1
              have changed : outcome.1.1.1 = emptied target vec := by
                simpa [Vectors.put] using state
              rw [changed] at capacity
              exact absurd capacity (Nat.not_le.mpr more)
            · -- the target is of the source's mode now
              obtain ⟨after, ran', kept'⟩ := withstands.1 unhindered
              obtain rfl := Option.some.inj (ran.symm.trans ran')
              have slot : SlotKeeps
                  (Function.update vectors.vecs dst (some (emptied target vec)) dst)
                  (all.lists dst) := kept' all.lists keeps.slots dst
              rw [Function.update_self, found] at slot
              have fields := slot.fields
              apply kind
              rw [SameKind, held.fields]
              rw [emptied, UcbVector.mk.injEq] at fields
              exact ⟨fields.2.1.symm, fields.2.2.2.2.2.2.symm, fields.2.2.2.2.1.symm,
                fields.2.2.2.2.2.1.symm⟩
          · rintro (met | ⟨-, kind', -⟩)
            · exact granted met
            · exact kind kind'
      · refine iff_of_false (Component.not_withstands ran ?_) ?_
        · exact not_sound_put fun list =>
            @not_keeps_denied (emptied target vec) list (Nat.pos_of_ne_zero noArray)
        · rintro (met | ⟨noArray', -⟩)
          · exact granted met
          · exact noArray noArray'
    · refine iff_of_false ?_ ?_
      · have nowhere : (deniedVector (emptied target vec)).data.cells = .undefined := by
          rw [deniedVector]
          split
          next noArray =>
            rcases held.array with ⟨null, -⟩ | ⟨array, -⟩
            · exact congrArg Storage.cells null
            · exact absurd noArray (Nat.ne_of_gt array)
          next => rfl
        have none : (genericVectors cloner).run vectors (allocator, .copy dst src) = none := by
          have lost := copyElements_something kept nowhere rfl rfl nothing
          cases copied :
              copyElements cloner vectors.calls (deniedVector (emptied target vec)) vec with
          | ok outcome => exact absurd copied (lost outcome)
          | abort code =>
              rw [copied] at step
              exact congrArg Exec.returned step
          | undefined =>
              rw [copied] at step
              exact congrArg Exec.returned step
        intro withstands
        by_cases unhindered : (genericVectors cloner).Unhindered vectors
            (allocator, .copy dst src)
        · exact granted_returns proper unhindered none
        · obtain ⟨after, ran, -⟩ := withstands.1 unhindered
          cases none.symm.trans ran
      · rintro (met | ⟨-, -, nothing'⟩)
        · exact granted met
        · exact nothing nothing'

/-! ## What the operations work on -/

variable {all : Lists} {index : Nat} {data : List UInt8}

theorem forall_vec (here : vectors.vecs number = some vec) {holds : UcbVector → Prop} :
    (∀ other ∈ vectors.vecs number, holds other) ↔ holds vec := by
  rw [here]
  simp

/-- An operation of the contract has the effect with clones that succeed or with one that
fails. -/
theorem contract_cases (inContract : (ownedStep cloner all op).isSome) :
    (∃ next, itemStep cloner all op = some next) ∨
      ∃ next, refusedStep cloner all op = some next := by
  obtain ⟨next, effect⟩ := Option.isSome_iff_exists.mp inContract
  obtain ⟨-, effect⟩ := Option.ite_none_right_eq_some.mp effect
  cases succeeds : itemStep cloner all op with
  | some made => exact .inl ⟨made, rfl⟩
  | none =>
      rw [succeeds] at effect
      exact .inr ⟨next, effect⟩

theorem contract_insert
    (inContract : (ownedStep cloner all (.insert number index data)).isSome) :
    ∃ list, all.lists number = some list ∧ index ≤ list.items.length := by
  rcases contract_cases inContract with ⟨next, effect⟩ | ⟨next, effect⟩
  · obtain ⟨list, item, calls, after, found, inside, -⟩ := insertItem_some effect
    exact ⟨list, found, inside⟩
  · obtain ⟨list, found, -, range, -⟩ := refuseItem_some effect
    exact ⟨list, found, of_decide_eq_true range⟩

theorem contract_push
    (inContract : (ownedStep cloner all op).isSome)
    (push : op = .pushBack number data ∨ op = .pushFront number data) :
    ∃ list, all.lists number = some list := by
  rcases push with rfl | rfl
  · rcases contract_cases inContract with ⟨next, effect⟩ | ⟨next, effect⟩
    · obtain ⟨list, found, -⟩ := Option.bind_eq_some_iff.mp effect
      exact ⟨list, found⟩
    · obtain ⟨list, found, -⟩ := refuseItem_some effect
      exact ⟨list, found⟩
  · rcases contract_cases inContract with ⟨next, effect⟩ | ⟨next, effect⟩
    · obtain ⟨list, item, calls, after, found, -⟩ := insertItem_some effect
      exact ⟨list, found⟩
    · obtain ⟨list, found, -⟩ := refuseItem_some effect
      exact ⟨list, found⟩

theorem contract_copy {dst src : Nat}
    (inContract : (ownedStep cloner all (.copy dst src)).isSome) :
    dst ≠ src ∧ ∃ old list, all.lists dst = some old ∧ all.lists src = some list := by
  rcases contract_cases inContract with ⟨next, effect⟩ | ⟨next, effect⟩
  · obtain ⟨old, target, effect⟩ := Option.bind_eq_some_iff.mp effect
    obtain ⟨list, found, effect⟩ := Option.bind_eq_some_iff.mp effect
    split at effect
    next => cases effect
    next apart => exact ⟨apart, old, list, target, found⟩
  · obtain ⟨old, target, effect⟩ := Option.bind_eq_some_iff.mp effect
    obtain ⟨list, found, effect⟩ := Option.bind_eq_some_iff.mp effect
    dsimp only at effect
    split at effect
    next => cases effect
    next valid => exact ⟨fun same => valid (.inl same), old, list, target, found⟩

theorem contract_clone {dst src : Nat}
    (inContract : (ownedStep cloner all (.clone dst src)).isSome) :
    ∃ list, all.lists src = some list := by
  rcases contract_cases inContract with ⟨next, effect⟩ | ⟨next, effect⟩
  · obtain ⟨list, found, -⟩ := Option.bind_eq_some_iff.mp effect
    exact ⟨list, found⟩
  · obtain ⟨list, found, -⟩ := Option.bind_eq_some_iff.mp effect
    exact ⟨list, found⟩

theorem contract_new {args : UcbVectorArgs}
    (inContract : (ownedStep cloner all (.new number args)).isSome) :
    ∃ mode, args.mode = some mode := by
  rcases contract_cases inContract with ⟨next, effect⟩ | ⟨next, effect⟩
  · obtain ⟨mode, valid, -⟩ := Option.bind_eq_some_iff.mp effect
    exact ⟨mode, valid⟩
  · cases effect

theorem contract_sized (newCapacity : Nat)
    (inContract : (ownedStep cloner all op).isSome)
    (sizes : op = .reserve number newCapacity ∨ op = .fit number) :
    ∃ list, all.lists number = some list := by
  rcases sizes with rfl | rfl
  · rcases contract_cases inContract with ⟨next, effect⟩ | ⟨next, effect⟩
    · obtain ⟨list, found, -⟩ := Option.bind_eq_some_iff.mp effect
      exact ⟨list, found⟩
    · cases effect
  · rcases contract_cases inContract with ⟨next, effect⟩ | ⟨next, effect⟩
    · obtain ⟨list, found, -⟩ := Option.bind_eq_some_iff.mp effect
      exact ⟨list, found⟩
    · cases effect

/-! ## Every operation -/

theorem new_capacity {args : UcbVectorArgs} {mode : VectorMode} (valid : args.mode = some mode)
    (made : ucbVectorNew allocator args = .ok (some vec)) :
    vec.capacity = firstCapacity args.initialCapacity := by
  rw [new_eq valid, reserve_asks_bytes allocator (firstCapacity_pos _)] at made
  obtain ⟨⟨reserved, success⟩, asked, made⟩ := Exec.bind_eq_ok.mp made
  obtain ⟨⟨freed, answer⟩, -, asked⟩ := Exec.bind_eq_ok.mp asked
  cases answer with
  | none =>
      obtain ⟨rfl, rfl⟩ := Prod.mk.inj (Exec.ok.inj asked)
      cases made
  | some array =>
      obtain ⟨rfl, rfl⟩ := Prod.mk.inj (Exec.ok.inj asked)
      rw [← Option.some.inj (Exec.ok.inj made)]

/-- Only the request for the new array can be refused to a clone. -/
theorem vectorClone_granting {list : ItemList} {calls : Nat} (kept : Keeps vec list)
    (granted : BytesGranted allocator (list.mode.vector .null 0 0) (firstCapacity vec.capacity)) :
    ucbVectorClone allocator cloner calls vec =
      ucbVectorClone allocator.granting cloner calls vec := by
  have valid := kept.clone_mode
  have same := vectorReserve_granting granted
  rw [clone_eq, clone_eq]
  rw [new_eq valid, new_eq valid, ← same, ← new_eq valid]
  cases new : ucbVectorNew allocator ⟨vec.dataClone, vec.dataFree,
      if vec.isPointer then 0 else vec.esize, vec.capacity⟩ with
  | ok made =>
      cases made with
      | none => rfl
      | some newVec =>
          have capacity : newVec.capacity = firstCapacity vec.capacity := new_capacity valid new
          have enough : vec.capacity ≤ newVec.capacity := by
            rw [capacity, firstCapacity]
            split
            next none => rw [none]; exact Nat.zero_le _
            next some => exact Nat.le_refl _
          have copies : ucbVectorCopy allocator cloner calls newVec vec =
              ucbVectorCopy allocator.granting cloner calls newVec vec :=
            vectorCopy_granting fun more => absurd more (Nat.not_lt.mpr enough)
          simp only [Exec.ok_bind, copies]
  | abort code => rfl
  | undefined => rfl

/-- An insertion withstands refusals exactly when it is not refused a larger array. -/
theorem insert_withstands_iff (proper : ProperGenericCall cloner vectors (allocator, op))
    (here : vectors.vecs number = some vec) {list : ItemList} (kept : Keeps vec list)
    (inside : index ≤ vec.size) (data : List UInt8)
    (step : ∀ allocator, genericStep allocator cloner vectors op =
      (ucbVectorInsert allocator cloner vectors.calls vec index data >>= fun value =>
        pure (vectors.put number value.1 value.2, ⟨true, none, []⟩))) :
    (genericVectors cloner).Withstands vectors (allocator, op) ↔
      ∀ vec ∈ vectors.vecs number, 0 < vec.capacity → GrowBytesGranted allocator vec := by
  rw [forall_vec here]
  refine genericWithstands_iff proper here (fun granted => ?_) fun refused => ?_
  · rw [step, step, vectorInsert_granting granted]
  · rw [step, vectorInsert_denied kept.live refused inside]
    exact ⟨_, rfl⟩

/-- An operation that leaves the vectors alone when it is refused what it asks for. -/
theorem withstands_of_refused (proper : ProperGenericCall cloner vectors (allocator, op))
    (granted : Prop)
    (same : granted → genericStep allocator cloner vectors op =
      genericStep allocator.granting cloner vectors op)
    (refusal : ¬ granted → ∃ outcome,
      genericStep allocator cloner vectors op = .ok (vectors, outcome)) :
    (genericVectors cloner).Withstands vectors (allocator, op) := by
  by_cases met : granted
  · exact genericWithstands_granted proper (congrArg Exec.returned (same met))
  · obtain ⟨outcome, stepped⟩ := refusal met
    have ran : (genericVectors cloner).run vectors (allocator, op) = some (vectors, outcome) :=
      congrArg Exec.returned stepped
    obtain ⟨all, keeps, -⟩ := proper.1
    exact Component.withstands_of_survives ran ⟨all.lists, keeps.slots⟩ fun _ held => held

/-- The vectors withstand the refusals of an operation exactly when no vector that has an array
is refused what it asks for, and no copy is that copies something. -/
theorem genericVectors_sparedBy (cloner : CloneFunc) :
    (genericVectors cloner).SparedBy (ProperGenericCall cloner) (BlocksGranted cloner) := by
  rintro vectors ⟨allocator, op⟩ - proper
  have free (same : genericStep allocator cloner vectors op =
      genericStep allocator.granting cloner vectors op) :
      (genericVectors cloner).Withstands vectors (allocator, op) :=
    genericWithstands_granted proper (congrArg Exec.returned same)
  obtain ⟨all, keeps, inContract⟩ := proper.1
  cases op with
  | new number args =>
      obtain ⟨mode, valid⟩ := contract_new inContract
      refine iff_of_true (withstands_of_refused proper
        (BytesGranted allocator (mode.vector .null 0 0) (firstCapacity args.initialCapacity))
        (fun granted => ?_) fun refused => ?_) trivial
      · rw [genericStep, genericStep, new_eq valid, new_eq valid, vectorReserve_granting granted]
      · refine ⟨⟨false, none, []⟩, ?_⟩
        have live : Live (mode.vector .null 0 0) := rfl
        rw [genericStep, new_eq valid, vectorReserve_denied live refused]
        rfl
  | clone dst src =>
      obtain ⟨list, found⟩ := contract_clone inContract
      obtain ⟨vec, here, kept⟩ := keeps.vector found
      refine iff_of_true (withstands_of_refused proper
        (BytesGranted allocator (list.mode.vector .null 0 0) (firstCapacity vec.capacity))
        (fun granted => ?_) fun refused => ?_) trivial
      · rw [step_clone here, step_clone here, vectorClone_granting kept granted]
      · refine ⟨⟨false, none, []⟩, ?_⟩
        have live : Live (list.mode.vector .null 0 0) := rfl
        rw [step_clone here, clone_eq, new_eq kept.clone_mode, vectorReserve_denied live refused]
        rfl
  | copy dst src =>
      obtain ⟨apart, old, list, target, found⟩ := contract_copy inContract
      obtain ⟨to', here, held⟩ := keeps.vector target
      obtain ⟨vec, there, kept⟩ := keeps.vector found
      rw [copy_withstands_iff proper apart keeps here there target held kept, BlocksGranted]
      dsimp only
      rw [forall_vec here, forall_vec there]
  | reserve number newCapacity =>
      obtain ⟨list, found⟩ := contract_sized newCapacity inContract (.inl rfl)
      obtain ⟨vec, here, kept⟩ := keeps.vector found
      rw [BlocksGranted]
      dsimp only
      rw [forall_vec here]
      refine genericWithstands_iff proper here (fun granted => ?_) fun refused => ?_
      · simp only [genericStep, takeFromVector, Vectors.find, here, Exec.pure_eq_ok, Exec.ok_bind,
          vectorReserve_granting granted]
      · simp only [genericStep, takeFromVector, Vectors.find, here, Exec.pure_eq_ok, Exec.ok_bind,
          vectorReserve_denied kept.live refused]
        exact ⟨_, rfl⟩
  | fit number =>
      obtain ⟨list, found⟩ := contract_sized 0 inContract (.inr rfl)
      obtain ⟨vec, here, kept⟩ := keeps.vector found
      rw [BlocksGranted]
      dsimp only
      rw [forall_vec here]
      refine genericWithstands_iff proper here (fun granted => ?_) fun refused => ?_
      · simp only [genericStep, takeFromVector, Vectors.find, here, Exec.pure_eq_ok, Exec.ok_bind,
          vectorFit_granting granted]
      · simp only [genericStep, takeFromVector, Vectors.find, here, Exec.pure_eq_ok, Exec.ok_bind,
          vectorFit_denied kept.live refused]
        exact ⟨_, rfl⟩
  | insert number index data =>
      obtain ⟨list, found, inside⟩ := contract_insert inContract
      obtain ⟨vec, here, kept⟩ := keeps.vector found
      have size : vec.size = list.items.length := congrArg UcbVector.size kept.fields
      refine insert_withstands_iff proper here kept (size ▸ inside) data fun allocator => ?_
      rw [genericStep, changeVector, Vectors.find, here]
      rfl
  | pushBack number data =>
      obtain ⟨list, found⟩ := contract_push inContract (.inl rfl)
      obtain ⟨vec, here, kept⟩ := keeps.vector found
      refine insert_withstands_iff proper here kept (Nat.le_refl _) data fun allocator => ?_
      rw [genericStep, changeVector, Vectors.find, here]
      simp only [pushBack_eq_insert]
      rfl
  | pushFront number data =>
      obtain ⟨list, found⟩ := contract_push inContract (.inr rfl)
      obtain ⟨vec, here, kept⟩ := keeps.vector found
      refine insert_withstands_iff proper here kept (Nat.zero_le _) data fun allocator => ?_
      rw [genericStep, changeVector, Vectors.find, here]
      rfl
  | clear number | move dst src | remove number index wanted | popBack number wanted
  | popFront number wanted | get number index | set number index data =>
      exact iff_of_true (free rfl) trivial

end Operations

end Ucb.Container
