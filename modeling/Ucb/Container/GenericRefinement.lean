import Ucb.Container.GenericArray

/-!
Contract: the generic vector against lists of elements.

Owns:
- the list effect of making, copying, cloning and moving whole vectors;
- exactly when a sequence of operations refines lists.

`ucb_vector_copy` changes the element size of the target before it compares
capacities, which count elements.
-/

namespace Ucb.Container

open Ucb.Lib

/-! ## Whole vectors -/

/-- Copying keeps room for the capacity of the target: the source's capacity is larger, or
the target's array has the bytes for as many elements of the source. -/
def CopyFits (dst src : UcbVector) : Prop :=
  dst.capacity < src.capacity ∨ dst.capacity * src.esize ≤ dst.data.room

section Copy

variable {allocator : Allocator} {cloner : CloneFunc} {mode : VectorMode}
  {items : List (List UInt8)} {calls calls' capacity : Nat} {list old after : ItemList}
  {dst src : UcbVector}

/-- What is copied of items is clones of the first ones. -/
theorem cloneSome_spec {given : List (List UInt8)} {whole : Bool}
    (cloned : cloneSome cloner calls given = ((items, whole), calls')) :
    items.length ≤ given.length ∧ ∀ item ∈ items, item.length = pointerSize := by
  induction given generalizing items whole calls calls' with
  | nil =>
      obtain ⟨rfl, -⟩ := Prod.mk.inj (Prod.mk.inj cloned).1
      exact ⟨Nat.le_refl _, by simp⟩
  | cons item rest inductionHypothesis =>
      rw [cloneSome] at cloned
      split at cloned
      next refused =>
        obtain ⟨rfl, -⟩ := Prod.mk.inj (Prod.mk.inj cloned).1
        exact ⟨Nat.zero_le _, by simp⟩
      next copy answer =>
        generalize behind : cloneSome cloner (calls + 1) rest = result at cloned
        obtain ⟨⟨copies, all⟩, last⟩ := result
        obtain ⟨rfl, -⟩ := Prod.mk.inj (Prod.mk.inj cloned).1
        obtain ⟨shorter, sized⟩ := inductionHypothesis behind
        refine ⟨Nat.succ_le_succ shorter, ?_⟩
        intro other inside
        rcases List.mem_cons.mp inside with rfl | behind
        · exact cloner.pointer _ _ _ answer
        · exact sized other behind

/-- What is copied when no clone fails. -/
theorem copies_of_putAll {given : List (List UInt8)}
    (put : mode.putAll cloner calls given = some (items, calls')) :
    mode.copies cloner calls given = ((items, true), calls') := by
  induction given generalizing items calls calls' with
  | nil =>
      obtain ⟨rfl, rfl⟩ := Prod.mk.inj (Option.some.inj put)
      cases mode <;> rfl
  | cons item rest inductionHypothesis =>
      obtain ⟨⟨first, next⟩, cloned, put⟩ := Option.bind_eq_some_iff.mp put
      obtain ⟨⟨others, last⟩, tail, same⟩ := Option.bind_eq_some_iff.mp put
      obtain ⟨rfl, rfl⟩ := Prod.mk.inj (Option.some.inj same)
      have behind := inductionHypothesis tail
      cases mode with
      | owned =>
          obtain ⟨copy, answer, same⟩ := Option.map_eq_some_iff.mp cloned
          obtain ⟨rfl, rfl⟩ := Prod.mk.inj same
          have behind : cloneSome cloner (calls + 1) rest = ((others, true), last) := behind
          simp only [VectorMode.copies, cloneSome, answer, behind]
      | _ =>
          obtain ⟨rfl, rfl⟩ := Prod.mk.inj (Option.some.inj cloned)
          obtain ⟨rest', rfl⟩ := Prod.mk.inj behind
          obtain ⟨rfl, -⟩ := Prod.mk.inj rest'
          rfl

/-- The loop of `ucb_vector_copy` clones the elements it has not copied yet behind those
it has, up to the first that cannot be cloned. -/
theorem copyItems_vector (capacity : Nat) {array : Storage UInt8} {given : List (List UInt8)} :
    ∀ (done : List (List UInt8)) (spare : List (Option UInt8)) {items : List (List UInt8)}
      {whole : Bool} {calls : Nat},
      (∀ item ∈ done, item.length = pointerSize) →
      pointersFrom array done.length given.length = .ok given →
      cloneSome cloner calls given = ((items, whole), calls') →
      given.length * pointerSize ≤ spare.length →
      copyItems cloner (VectorMode.owned.vector (.heap (done.flatten.map some ++ spare)) done.length
          capacity) array calls done.length given.length =
        .ok ((VectorMode.owned.vector (.heap ((done ++ items).flatten.map some ++
          spare.drop (items.length * pointerSize))) (done ++ items).length capacity, whole),
          calls') := by
  induction given with
  | nil =>
      intro done spare items whole calls sized read cloned fits
      obtain ⟨inner, rfl⟩ := Prod.mk.inj cloned
      obtain ⟨rfl, rfl⟩ := Prod.mk.inj inner
      simp [copyItems]
  | cons item rest inductionHypothesis =>
      intro done spare items whole calls sized read cloned fits
      obtain ⟨first, here, read⟩ := Exec.bind_eq_ok.mp read
      obtain ⟨others, there, same⟩ := Exec.bind_eq_ok.mp read
      obtain ⟨rfl, rfl⟩ := List.cons.inj (Exec.ok.inj same)
      rw [List.length_cons, copyItems, here, Exec.ok_bind]
      rw [cloneSome] at cloned
      split at cloned
      next refused =>
        obtain ⟨inner, rfl⟩ := Prod.mk.inj cloned
        obtain ⟨rfl, rfl⟩ := Prod.mk.inj inner
        simp
      next copy answer =>
        generalize behind : cloneSome cloner (calls + 1) others = result at cloned
        obtain ⟨⟨copies, all'⟩, last⟩ := result
        obtain ⟨inner, rfl⟩ := Prod.mk.inj cloned
        obtain ⟨rfl, rfl⟩ := Prod.mk.inj inner
        have width : copy.length = pointerSize := cloner.pointer _ _ _ answer
        rw [List.length_cons, Nat.succ_mul] at fits
        have gapped : (spare.take pointerSize).length = VectorMode.owned.esize := by
          rw [List.length_take]
          exact Nat.min_eq_left (Nat.le_trans (Nat.le_add_left _ _) fits)
        have sizedOwned : ∀ item ∈ done, item.length = VectorMode.owned.esize := sized
        have written := blit_item sizedOwned gapped width (spare.drop pointerSize)
        rw [List.take_append_drop] at written
        have sized' : ∀ item ∈ done ++ [copy], item.length = pointerSize := by
          intro other inside
          rcases List.mem_append.mp inside with before | final
          · exact sized other before
          · obtain rfl := List.mem_singleton.mp final
            exact width
        have length : (done ++ [copy]).length = done.length + 1 := by simp
        have onward := inductionHypothesis (done ++ [copy]) (spare.drop pointerSize) sized'
          (by rw [length]; exact there) behind (by rw [List.length_drop]; omega)
        have cells : done.flatten.map some ++ (copy.map some ++ spare.drop pointerSize) =
            (done ++ [copy]).flatten.map some ++ spare.drop pointerSize := by
          simp
        have all : done ++ [copy] ++ copies = done ++ copy :: copies := by simp
        have left : (spare.drop pointerSize).drop (copies.length * pointerSize) =
            spare.drop ((copy :: copies).length * pointerSize) := by
          rw [List.drop_drop, List.length_cons, Nat.succ_mul, Nat.add_comm]
        rw [length, all, left] at onward
        show ((Storage.heap _).blit (done.length * pointerSize) (copy.map some) >>= _) = _
        have written : (Storage.heap (done.flatten.map some ++ spare)).blit
            (done.length * pointerSize) (copy.map some) = _ := written
        rw [written, Exec.ok_bind, cells]
        exact onward

/-- The target has room for the source when copying fits. -/
theorem copyTarget_vector (generous : allocator.Generous) (keeps : Keeps src list)
    {data : Storage UInt8} {esize : Nat} (array : Room data capacity esize [])
    (fits : capacity < src.capacity ∨ capacity * src.esize ≤ data.room) (target : VectorMode) :
    ∃ data' capacity', copyTarget allocator (target.vector data 0 capacity) src =
        .ok (list.mode.vector data' 0 capacity') ∧
      Room data' capacity' list.mode.esize [] ∧ src.capacity ≤ capacity' := by
  obtain ⟨from', room, rfl, inside, source⟩ := keeps.elim
  rw [vector_capacity, vector_esize] at fits
  have asked : copyTarget allocator (target.vector data 0 capacity)
      (list.mode.vector from' list.items.length room) =
        (ucbVectorReserve allocator (list.mode.vector data 0 capacity) room >>= fun reserved =>
          pure reserved.1) := rfl
  rw [asked, vector_capacity]
  by_cases more : capacity < room
  · obtain ⟨data', reserved, array'⟩ :=
      reserve_grows generous 0 array more source.bytes_lt (Nat.zero_le _)
    exact ⟨data', room, by rw [reserved]; rfl, array', Nat.le_refl _⟩
  · have enough := Nat.not_lt.mp more
    refine ⟨data, capacity, by rw [reserve_enough_bytes allocator enough]; rfl, ?_, enough⟩
    rcases array with ⟨null, none, -⟩ | ⟨some, spare, rfl, -, small⟩
    · exact .inl ⟨null, none, rfl⟩
    · refine .inr ⟨some, spare, rfl, ?_, small⟩
      have bytes := fits.resolve_left more
      simpa [Storage.room] using bytes

/-- What is copied is items of the same size, as many when no clone fails. -/
theorem copies_length {whole : Bool} (sized : ∀ item ∈ list.items, item.length = list.mode.esize)
    (copied : list.mode.copies cloner calls list.items = ((items, whole), calls')) :
    items.length ≤ list.items.length ∧ ∀ item ∈ items, item.length = list.mode.esize := by
  cases owner : list.mode with
  | owned =>
      rw [owner] at copied
      obtain ⟨shorter, width⟩ := cloneSome_spec copied
      exact ⟨shorter, width⟩
  | _ =>
      rw [owner] at copied
      obtain ⟨rfl, -⟩ := Prod.mk.inj (Prod.mk.inj copied).1
      rw [owner] at sized
      exact ⟨Nat.le_refl _, sized⟩

theorem slice_elements {source : Storage UInt8} {capacity : Nat}
    (inside : list.items.length ≤ capacity)
    (room : Room source capacity list.mode.esize list.items.flatten) :
    source.slice 0 (list.items.length * list.mode.esize) = .ok (list.items.flatten.map some) := by
  rcases room with ⟨-, rfl, -⟩ | ⟨-, spare, rfl, -⟩
  · rw [List.eq_nil_of_length_eq_zero (Nat.le_zero.mp inside)]
    simp [Storage.slice]
  · rw [← flatten_length list.sized]
    exact slice_cells [] list.items.flatten spare

/-- Bytes written into an array with room. -/
theorem blit_elements {data : Storage UInt8} {esize : Nat} (room : Room data capacity esize [])
    (fits : items.flatten.length ≤ capacity * esize) :
    ∃ data', data.blit 0 (items.flatten.map some) = .ok data' ∧
      Room data' capacity esize items.flatten := by
  rcases room with ⟨rfl, rfl, -⟩ | ⟨some, spare, rfl, enough, small⟩
  · have none : items.flatten = [] := by
      apply List.eq_nil_of_length_eq_zero
      omega
    rw [none]
    exact ⟨.null, rfl, .inl ⟨rfl, rfl, rfl⟩⟩
  · rw [List.length_nil, Nat.zero_add] at enough small
    have written := blit_cells [] (spare.take items.flatten.length) (items.flatten.map Option.some)
      (spare.drop items.flatten.length) (by rw [List.length_take, List.length_map]; omega)
    rw [List.take_append_drop] at written
    refine ⟨_, written, .inr ⟨some, spare.drop items.flatten.length, rfl, ?_, ?_⟩⟩
    · rw [List.length_drop]
      omega
    · rw [List.length_drop]
      omega

/-- A target with room gets the elements, or clones of them up to the first that fails. -/
theorem copyElements_vector {whole : Bool} (keeps : Keeps src list) {data : Storage UInt8}
    (room : Room data capacity list.mode.esize []) (more : src.capacity ≤ capacity)
    (put : list.mode.copies cloner calls list.items = ((items, whole), calls')) :
    ∃ data', copyElements cloner calls (list.mode.vector data 0 capacity) src =
        .ok ((list.mode.vector data' items.length capacity, whole), calls') ∧
      Room data' capacity list.mode.esize items.flatten := by
  obtain ⟨length, sized⟩ := copies_length list.sized put
  obtain ⟨source, capacity', rfl, inside, origin⟩ := keeps.elim
  rw [vector_capacity] at more
  have bytes : items.flatten.length = items.length * list.mode.esize := flatten_length sized
  have fits : list.items.length * list.mode.esize ≤ capacity * list.mode.esize :=
    Nat.mul_le_mul_right _ (by omega)
  cases owner : list.mode.owns with
  | false =>
      have same : ((items, whole), calls') = ((list.items, true), calls) := by
        rw [← put]
        cases mode : list.mode with
        | owned => rw [mode] at owner; cases owner
        | _ => rfl
      obtain ⟨inner, rfl⟩ := Prod.mk.inj same
      obtain ⟨rfl, rfl⟩ := Prod.mk.inj inner
      obtain ⟨data', written, room'⟩ := blit_elements room (by rw [bytes]; exact fits)
      refine ⟨data', ?_, room'⟩
      simp only [copyElements, vector_pointer, vector_clone, owner, Bool.and_false,
        Bool.false_eq_true, if_false, vector_data, vector_size, vector_esize,
        slice_elements inside origin, Exec.ok_bind, written]
      rw [← owner]
      rfl
  | true =>
      have read := Room.pointers list inside origin (VectorMode.owns_pointer owner)
      have pointers : copyElements cloner calls (list.mode.vector data 0 capacity)
          (list.mode.vector source list.items.length capacity') =
          copyItems cloner (list.mode.vector data 0 capacity) source calls 0
            list.items.length := by
        simp only [copyElements, vector_pointer, vector_clone, owner,
          VectorMode.owns_pointer owner, Bool.and_self, if_true, vector_data, vector_size]
      rw [pointers]
      generalize list.mode = mode at put owner room fits sized bytes
      generalize list.items = given at put read length inside more fits
      cases mode with
      | value esize wide => cases owner
      | borrowed => cases owner
      | owned =>
          rcases room with ⟨rfl, rfl, -⟩ | ⟨some, spare, rfl, enough, small⟩
          · -- nothing is copied into no array
            obtain rfl : given = [] := List.eq_nil_of_length_eq_zero (by omega)
            obtain ⟨inner, rfl⟩ := Prod.mk.inj put
            obtain ⟨rfl, rfl⟩ := Prod.mk.inj inner
            exact ⟨.null, rfl, .inl ⟨rfl, rfl, rfl⟩⟩
          · rw [List.length_nil, Nat.zero_add] at enough small
            have room : given.length * pointerSize ≤ spare.length := Nat.le_trans fits enough
            have copied := copyItems_vector capacity [] spare (by simp) read put room
            have count : items.flatten.length = items.length * pointerSize := bytes
            have used : items.length * pointerSize ≤ spare.length :=
              Nat.le_trans (Nat.mul_le_mul_right _ length) room
            refine ⟨_, copied, .inr ⟨some, _, rfl, ?_, ?_⟩⟩
            · rw [List.length_drop, count, Nat.add_sub_of_le used]
              exact enough
            · rw [List.length_drop, count, Nat.add_sub_of_le used]
              exact small

/-- A copy that fits has the elements, or clones of them up to the first that fails. -/
theorem copy_keeps {whole : Bool} (generous : allocator.Generous) (held : Keeps dst old)
    (keeps : Keeps src list) (fits : CopyFits dst src)
    (put : list.mode.copies cloner calls list.items = ((items, whole), calls'))
    (same : after.mode = list.mode) (content : after.items = items) :
    ∃ changed, ucbVectorCopy allocator cloner calls dst src =
      .ok (((changed, whole), old.mode.dropped old.items), calls') ∧ Keeps changed after := by
  obtain ⟨data, capacity, rfl, inside, array⟩ := held.elim
  obtain ⟨data', capacity', target, room, more⟩ :=
    copyTarget_vector generous keeps array.clear fits old.mode
  obtain ⟨data'', copied, room'⟩ := copyElements_vector keeps room more put
  refine ⟨list.mode.vector data'' items.length capacity', ?_, ?_⟩
  · simp only [ucbVectorCopy, clear_vector inside array, Exec.ok_bind, target, copied]
    rfl
  · rw [← content] at room' ⊢
    rw [← same] at room' ⊢
    refine ⟨rfl, ?_, room'⟩
    rw [vector_capacity, content]
    exact Nat.le_trans (copies_length list.sized put).1 (Nat.le_trans keeps.inside more)

/-- The cloning loop keeps the capacity and the number of cells. -/
theorem copyItems_room {array : Storage UInt8} {count : Nat} :
    ∀ {target : UcbVector} {calls index : Nat} {cells : List (Option UInt8)}
      {outcome : (UcbVector × Bool) × Nat},
    target.data = .heap cells →
    copyItems cloner target array calls index count = .ok outcome →
      outcome.1.1.capacity = target.capacity ∧ outcome.1.1.data.room = cells.length := by
  induction count with
  | zero =>
      intro target calls index cells outcome start ran
      obtain rfl := Exec.ok.inj ran
      exact ⟨rfl, by rw [start]; rfl⟩
  | succ count inductionHypothesis =>
      intro target calls index cells outcome start ran
      obtain ⟨pointer, -, ran⟩ := Exec.bind_eq_ok.mp ran
      split at ran
      next refused =>
        obtain rfl := Exec.ok.inj ran
        exact ⟨rfl, by rw [start]; rfl⟩
      next item cloned =>
        obtain ⟨stored, written, ran⟩ := Exec.bind_eq_ok.mp ran
        rw [start] at written
        obtain ⟨cells', rfl, kept⟩ := blit_room written
        obtain ⟨capacity, room⟩ := inductionHypothesis rfl ran
        exact ⟨capacity, room.trans kept⟩

theorem copyElements_room {target : UcbVector} {cells : List (Option UInt8)}
    {outcome : (UcbVector × Bool) × Nat} (start : target.data = .heap cells)
    (ran : copyElements cloner calls target src = .ok outcome) :
    outcome.1.1.capacity = target.capacity ∧ outcome.1.1.data.room = cells.length := by
  rw [copyElements] at ran
  split at ran
  next owned => exact copyItems_room start ran
  next unowned =>
    obtain ⟨bytes, -, ran⟩ := Exec.bind_eq_ok.mp ran
    obtain ⟨stored, written, ran⟩ := Exec.bind_eq_ok.mp ran
    obtain rfl := Exec.ok.inj ran
    rw [start] at written
    obtain ⟨cells', rfl, kept⟩ := blit_room written
    exact ⟨rfl, kept⟩

/-- Without a larger capacity of the source the target keeps its array and its capacity,
which now counts elements of another size. -/
theorem copy_room {target : UcbVector} {cells : List (Option UInt8)}
    {outcome : ((UcbVector × Bool) × List (List UInt8)) × Nat} (start : target.data = .heap cells)
    (less : src.capacity ≤ target.capacity)
    (ran : ucbVectorCopy allocator cloner calls target src = .ok outcome) :
    outcome.1.1.1.capacity = target.capacity ∧ outcome.1.1.1.data.room = cells.length := by
  rw [ucbVectorCopy] at ran
  obtain ⟨⟨cleared, freed⟩, clearing, ran⟩ := Exec.bind_eq_ok.mp ran
  obtain ⟨reserved, asked, ran⟩ := Exec.bind_eq_ok.mp ran
  obtain ⟨⟨copied, made⟩, elements, ran⟩ := Exec.bind_eq_ok.mp ran
  obtain rfl := Exec.ok.inj ran
  have same : cleared = { target with size := 0 } := by
    rw [ucbVectorClear] at clearing
    split at clearing
    next frees =>
      obtain ⟨items, -, done⟩ := Exec.bind_eq_ok.mp clearing
      exact (Prod.mk.inj (Exec.ok.inj done)).1.symm
    next keeps => exact (Prod.mk.inj (Exec.ok.inj clearing)).1.symm
  subst same
  rw [copyTarget, reserve_enough_bytes allocator (by exact less)] at asked
  obtain rfl := Exec.ok.inj asked
  exact copyElements_room (by exact start) elements

theorem copy_keeps_iff {whole : Bool} (generous : allocator.Generous) (held : Keeps dst old)
    (keeps : Keeps src list)
    (put : list.mode.copies cloner calls list.items = ((items, whole), calls'))
    (same : after.mode = list.mode) (content : after.items = items) :
    (∃ changed, ucbVectorCopy allocator cloner calls dst src =
      .ok (((changed, whole), old.mode.dropped old.items), calls') ∧ Keeps changed after) ↔
      CopyFits dst src := by
  constructor
  · rintro ⟨changed, copied, keeps'⟩
    by_contra short
    rw [CopyFits, not_or, Nat.not_lt, Nat.not_le] at short
    obtain ⟨data, capacity, rfl, inside, array⟩ := held.elim
    obtain ⟨less, short⟩ := short
    have positive : 0 < capacity := by
      rcases Nat.eq_zero_or_pos capacity with rfl | positive
      · rw [vector_capacity, Nat.zero_mul] at short
        exact absurd short (Nat.not_lt_zero _)
      · exact positive
    obtain ⟨spare, rfl, -⟩ := array.heap positive
    obtain ⟨kept, room⟩ := copy_room rfl less copied
    have esize : src.esize = after.mode.esize := by
      rw [keeps.fields, same]
      rfl
    have enough := keeps'.array.le_room
    rw [kept, room, ← esize] at enough
    exact absurd enough (Nat.not_le.mpr short)
  · exact fun fits => copy_keeps generous held keeps fits put same content

theorem move_keeps (held : Keeps dst old) (src : UcbVector) :
    ucbVectorMove dst src =
      .ok ((src, { src with data := .null, size := 0, capacity := 0 }),
        old.mode.dropped old.items) := by
  obtain ⟨data, capacity, rfl, inside, array⟩ := held.elim
  rw [ucbVectorMove, clear_vector inside array, Exec.ok_bind]
  rcases array with ⟨rfl, -⟩ | ⟨-, spare, rfl, -⟩
  · rfl
  · rfl

/-- A vector that was moved from keeps the empty list. -/
theorem moved_keeps (keeps : Keeps src list) :
    Keeps { src with data := .null, size := 0, capacity := 0 } (emptyList list.mode) := by
  obtain ⟨data, capacity, rfl, -, -⟩ := keeps.elim
  exact ⟨rfl, Nat.le_refl _, .inl ⟨rfl, rfl, rfl⟩⟩

end Copy

section New

variable {allocator : Allocator} {cloner : CloneFunc} {mode : VectorMode} {args : UcbVectorArgs}

/-- The capacity that a new vector asks for. -/
def firstCapacity (initialCapacity : Nat) : Nat :=
  if initialCapacity = 0 then 4 else initialCapacity

theorem firstCapacity_pos (initialCapacity : Nat) : 0 < firstCapacity initialCapacity := by
  rw [firstCapacity]
  split
  next none => decide
  next some => exact Nat.pos_of_ne_zero some

/-- Arguments that ask for a mode pass the checks, and the vector is of the mode. -/
theorem new_eq (valid : args.mode = some mode) :
    ucbVectorNew allocator args =
      ucbVectorReserve allocator (mode.vector .null 0 0) (firstCapacity args.initialCapacity) >>=
        fun reserved => pure (if reserved.2 then some reserved.1 else none) := by
  obtain ⟨dataClone, dataFree, elementSize, initialCapacity⟩ := args
  simp only [UcbVectorArgs.mode] at valid
  split at valid
  next wide =>
    have value : elementSize ≠ 0 := Nat.ne_of_gt wide
    cases dataClone with
    | true => cases valid
    | false =>
        cases dataFree with
        | true => cases valid
        | false =>
            obtain rfl := Option.some.inj valid
            simp [ucbVectorNew, value, firstCapacity, VectorMode.vector, VectorMode.esize,
              VectorMode.owns, VectorMode.isPointer]
  next narrow =>
    obtain rfl : elementSize = 0 := Nat.eq_zero_of_not_pos narrow
    cases dataClone with
    | true =>
        cases dataFree with
        | true =>
            obtain rfl := Option.some.inj valid
            rfl
        | false => cases valid
    | false =>
        cases dataFree with
        | true => cases valid
        | false =>
            obtain rfl := Option.some.inj valid
            rfl

/-- A new vector below 2^64 bytes keeps the empty list. -/
theorem new_keeps (generous : allocator.Generous) (valid : args.mode = some mode)
    (fits : firstCapacity args.initialCapacity * mode.esize < 2 ^ 64) :
    ∃ data, ucbVectorNew allocator args =
        .ok (some (mode.vector data 0 (firstCapacity args.initialCapacity))) ∧
      Room data (firstCapacity args.initialCapacity) mode.esize [] := by
  obtain ⟨data, reserved, array⟩ :=
    reserve_grows generous 0 (.inl ⟨rfl, rfl, rfl⟩ : Room .null 0 mode.esize [])
      (firstCapacity_pos args.initialCapacity) fits (Nat.zero_le _)
  refine ⟨data, ?_, array⟩
  rw [new_eq valid, reserved]
  rfl

/-- A larger one that is made has too small an array. -/
theorem new_wrapped (valid : args.mode = some mode)
    (wraps : 2 ^ 64 ≤ firstCapacity args.initialCapacity * mode.esize) {vec : UcbVector}
    (made : ucbVectorNew allocator args = .ok (some vec)) :
    ∃ cells, vec = mode.vector (.heap cells) 0 (firstCapacity args.initialCapacity) ∧
      cells.length < firstCapacity args.initialCapacity * mode.esize := by
  rw [new_eq valid] at made
  obtain ⟨⟨reserved, success⟩, asked, made⟩ := Exec.bind_eq_ok.mp made
  rcases reserve_vector_wrapped (firstCapacity_pos _) wraps asked with
    ⟨rfl, -⟩ | ⟨rfl, cells, rfl, short⟩
  · cases made
  · obtain rfl := Option.some.inj (Exec.ok.inj made)
    exact ⟨cells, rfl, short⟩

/-- Exactly the new vectors below 2^64 bytes keep the empty list. -/
theorem new_keeps_iff (generous : allocator.Generous) (valid : args.mode = some mode) :
    (∃ vec, ucbVectorNew allocator args = .ok (some vec) ∧ Keeps vec (emptyList mode)) ↔
      firstCapacity args.initialCapacity * mode.esize < 2 ^ 64 := by
  constructor
  · rintro ⟨vec, made, keeps⟩
    by_contra wraps
    obtain ⟨cells, rfl, short⟩ := new_wrapped valid (Nat.not_lt.mp wraps) made
    exact absurd keeps.array.le_room (Nat.not_le.mpr short)
  · intro fits
    obtain ⟨data, made, array⟩ := new_keeps generous valid fits
    exact ⟨_, made, rfl, Nat.zero_le _, array⟩

/-- The arguments that `ucb_vector_clone` passes ask for the mode of the vector. -/
theorem clone_args (mode : VectorMode) (capacity : Nat) :
    UcbVectorArgs.mode ⟨mode.owns, mode.owns, if mode.isPointer then 0 else mode.esize,
      capacity⟩ = some mode := by
  cases mode with
  | value esize wide => simp [UcbVectorArgs.mode, VectorMode.owns, VectorMode.isPointer,
      VectorMode.esize, wide]
  | borrowed => rfl
  | owned => rfl

/-- Cloning keeps room for the capacity: there is one, or four elements fit. -/
def CloneFits (vec : UcbVector) : Prop :=
  vec.capacity = 0 → 4 * vec.esize < 2 ^ 64

/-- The arguments that a vector is cloned with ask for its own mode. -/
theorem Keeps.clone_mode {vec : UcbVector} {list : ItemList} (keeps : Keeps vec list) :
    UcbVectorArgs.mode ⟨vec.dataClone, vec.dataFree, if vec.isPointer then 0 else vec.esize,
      vec.capacity⟩ = some list.mode := by
  obtain ⟨data, capacity, rfl, -, -⟩ := keeps.elim
  exact clone_args list.mode capacity

theorem clone_eq (allocator : Allocator) (cloner : CloneFunc) (calls : Nat) (vec : UcbVector) :
    ucbVectorClone allocator cloner calls vec =
      ucbVectorNew allocator ⟨vec.dataClone, vec.dataFree,
        if vec.isPointer then 0 else vec.esize, vec.capacity⟩ >>= fun newVec =>
      match newVec with
      | none => pure ((none, []), calls)
      | some newVec => ucbVectorCopy allocator cloner calls newVec vec >>= fun copied =>
          if copied.1.1.2 then pure ((some copied.1.1.1, []), copied.2)
          else ucbVectorClear copied.1.1.1 >>= fun cleared =>
            cleared.1.data.freed >>= fun _ => pure ((none, cleared.2), copied.2) :=
  rfl

theorem firstCapacity_fits_iff {vec : UcbVector} {list : ItemList} (keeps : Keeps vec list) :
    firstCapacity vec.capacity * list.mode.esize < 2 ^ 64 ↔ CloneFits vec := by
  have esize : vec.esize = list.mode.esize := by
    rw [keeps.fields]
    rfl
  rw [CloneFits, esize, firstCapacity]
  split
  next none => exact ⟨fun fits _ => fits, fun fits => fits none⟩
  next some => exact iff_of_true keeps.array.bytes_lt fun none => absurd none some

/-- A clone that fits is a copy, up to the first element that cannot be cloned. -/
theorem clone_copies (generous : allocator.Generous) {vec : UcbVector} {list after : ItemList}
    {items : List (List UInt8)} {whole : Bool} {calls calls' : Nat} (keeps : Keeps vec list)
    (fits : CloneFits vec)
    (put : list.mode.copies cloner calls list.items = ((items, whole), calls'))
    (same : after.mode = list.mode) (content : after.items = items) :
    ∃ changed, ucbVectorClone allocator cloner calls vec =
        (if whole then pure ((some changed, []), calls')
        else ucbVectorClear changed >>= fun cleared =>
          cleared.1.data.freed >>= fun _ => pure ((none, cleared.2), calls')) ∧
      Keeps changed after := by
  obtain ⟨data, new, array⟩ :=
    new_keeps generous keeps.clone_mode ((firstCapacity_fits_iff keeps).mpr fits)
  have held : Keeps (list.mode.vector data 0 (firstCapacity vec.capacity))
      (emptyList list.mode) := ⟨rfl, Nat.zero_le _, array⟩
  have room : CopyFits (list.mode.vector data 0 (firstCapacity vec.capacity)) vec := by
    have esize : vec.esize = list.mode.esize := by
      rw [keeps.fields]
      rfl
    refine .inr ?_
    rw [esize]
    exact array.le_room
  obtain ⟨changed, copied, keeps'⟩ := copy_keeps generous held keeps room put same content
  refine ⟨changed, ?_, keeps'⟩
  rw [clone_eq, new, Exec.ok_bind]
  dsimp only
  rw [copied]
  rfl

/-- Exactly the clones that fit keep the elements, or clones of them. -/
theorem clone_keeps_iff (generous : allocator.Generous) {vec : UcbVector} {list after : ItemList}
    {items : List (List UInt8)} {calls calls' : Nat} (keeps : Keeps vec list)
    (put : list.mode.putAll cloner calls list.items = some (items, calls'))
    (same : after.mode = list.mode) (content : after.items = items) :
    (∃ cloned, ucbVectorClone allocator cloner calls vec = .ok ((some cloned, []), calls') ∧
      Keeps cloned after) ↔ CloneFits vec := by
  constructor
  · rintro ⟨cloned, ran, keeps'⟩
    by_contra wraps
    rw [← firstCapacity_fits_iff keeps] at wraps
    have less : vec.capacity ≤ firstCapacity vec.capacity := by
      rw [firstCapacity]
      split
      next none => rw [none]; exact Nat.zero_le _
      next some => exact Nat.le_refl _
    rw [clone_eq] at ran
    obtain ⟨newVec, new, ran⟩ := Exec.bind_eq_ok.mp ran
    cases newVec with
    | none => cases ran
    | some newVec =>
        obtain ⟨cells, rfl, short⟩ := new_wrapped keeps.clone_mode (Nat.not_lt.mp wraps) new
        obtain ⟨outcome, copied, ran⟩ := Exec.bind_eq_ok.mp ran
        obtain ⟨kept, room⟩ := copy_room rfl less copied
        split at ran
        next success =>
          obtain rfl := Option.some.inj (Prod.mk.inj (Prod.mk.inj (Exec.ok.inj ran)).1).1
          have enough := keeps'.array.le_room
          rw [kept, room, same] at enough
          exact absurd enough (Nat.not_le.mpr short)
        next failure =>
          obtain ⟨cleared, -, ran⟩ := Exec.bind_eq_ok.mp ran
          obtain ⟨left, -, ran⟩ := Exec.bind_eq_ok.mp ran
          cases (Prod.mk.inj (Prod.mk.inj (Exec.ok.inj ran)).1).1
  · intro fits
    obtain ⟨changed, cloned, keeps'⟩ :=
      clone_copies generous keeps fits (copies_of_putAll put) same content
    exact ⟨changed, cloned, keeps'⟩

end New

/-! ## Sequences of operations -/

def SlotKeeps : Option UcbVector → Option ItemList → Prop
  | some vec, some list => Keeps vec list
  | none, none => True
  | some _, none | none, some _ => False

structure KeepAll (vectors : Vectors) (all : Lists) : Prop where
  calls : vectors.calls = all.calls
  slots : ∀ number, SlotKeeps (vectors.vecs number) (all.lists number)

/-- The storage an operation asks for has its elements. -/
def StorageFits (vectors : Vectors) : GenericOp → Prop
  | .new _ args =>
      firstCapacity args.initialCapacity *
        (if args.elementSize = 0 then pointerSize else args.elementSize) < 2 ^ 64
  | .clone _ src => ∀ vec ∈ vectors.vecs src, CloneFits vec
  | .copy dst src =>
      ∀ target ∈ vectors.vecs dst, ∀ vec ∈ vectors.vecs src, CopyFits target vec
  | .reserve number newCapacity =>
      ∀ vec ∈ vectors.vecs number,
        newCapacity ≤ vec.capacity ∨ newCapacity * vec.esize < 2 ^ 64
  | .fit number => ∀ vec ∈ vectors.vecs number, vec.size ≠ 0 ∨ vec.capacity = 0
  | .insert number _ _ | .pushBack number _ | .pushFront number _ =>
      ∀ vec ∈ vectors.vecs number, RoomToGrow vec
  | _ => True

/-- The operation as long as it keeps to its contract and memory. -/
def genericRun (allocator : Allocator) (cloner : CloneFunc) (vectors : Vectors)
    (op : GenericOp) : Option (Vectors × VectorOutcome) :=
  (genericStep allocator cloner vectors op).returned

section Sequences

variable {allocator : Allocator} {cloner : CloneFunc} {vectors : Vectors} {all : Lists}
  {number : Nat} {list after : ItemList} {calls : Nat} {outcome : VectorOutcome} {op : GenericOp}

theorem keepAll_none : KeepAll noVectors noLists :=
  ⟨rfl, fun _ => trivial⟩

theorem KeepAll.vector (keeps : KeepAll vectors all) (found : all.lists number = some list) :
    ∃ vec, vectors.vecs number = some vec ∧ Keeps vec list := by
  have slot := keeps.slots number
  rw [found] at slot
  cases here : vectors.vecs number with
  | some vec =>
      rw [here] at slot
      exact ⟨vec, rfl, slot⟩
  | none =>
      rw [here] at slot
      exact slot.elim

theorem KeepAll.put (keeps : KeepAll vectors all) (number : Nat) {vec : UcbVector}
    (new : Keeps vec list) (calls : Nat) :
    KeepAll (vectors.put number vec calls) (all.put number list calls) := by
  refine ⟨rfl, ?_⟩
  intro other
  by_cases same : other = number
  · subst same
    simpa [Vectors.put, Lists.put, SlotKeeps] using new
  · simpa [Vectors.put, Lists.put, same] using keeps.slots other

theorem KeepAll.of_put {vec : UcbVector} {made : Nat}
    (related : KeepAll (vectors.put number vec made) (all.put number list calls)) :
    Keeps vec list := by
  simpa [Vectors.put, Lists.put, SlotKeeps] using related.slots number

/-- An operation that leaves a changed vector in one slot performs a list effect exactly
when that vector keeps the list. -/
theorem performs_put {Value : Type} {run : Exec Value} {vec : Value → UcbVector}
    {made : Value → Nat} {result : Value → VectorOutcome} (keeps : KeepAll vectors all)
    (step : genericStep allocator cloner vectors op =
      (run >>= fun value =>
        pure (vectors.put number (vec value) (made value), result value))) :
    Lib.Performs (genericRun allocator cloner) KeepAll vectors op
        (all.put number after calls, outcome) ↔
      ∃ value, run = .ok value ∧ made value = calls ∧ result value = outcome ∧
        Keeps (vec value) after := by
  rw [Lib.Performs, genericRun, step]
  constructor
  · rintro ⟨state, ran, related⟩
    rw [Exec.returned_eq_some] at ran
    obtain ⟨value, done, ran⟩ := Exec.bind_eq_ok.mp ran
    obtain ⟨rfl, rfl⟩ := Prod.mk.inj (Exec.ok.inj ran)
    exact ⟨value, done, related.calls, rfl, related.of_put⟩
  · rintro ⟨value, rfl, rfl, rfl, new⟩
    exact ⟨_, rfl, keeps.put number new _⟩

/-- An operation on one vector that has no outcome of its own. -/
theorem performs_changed {vec : UcbVector} {change : UcbVector → Exec (UcbVector × Nat)}
    (keeps : KeepAll vectors all) (found : vectors.vecs number = some vec)
    (step : genericStep allocator cloner vectors op = changeVector vectors number change) :
    Lib.Performs (genericRun allocator cloner) KeepAll vectors op
        (all.put number after calls, ⟨true, none, []⟩) ↔ Leaves (change vec) after calls := by
  have step' : genericStep allocator cloner vectors op =
      (change vec >>= fun value =>
        pure (vectors.put number value.1 value.2, ⟨true, none, []⟩)) := by
    rw [step, changeVector, Vectors.find, found]
    rfl
  rw [performs_put keeps step']
  constructor
  · rintro ⟨⟨changed, made⟩, ran, rfl, -, new⟩
    exact ⟨changed, ran, new⟩
  · rintro ⟨changed, ran, new⟩
    exact ⟨(changed, calls), ran, rfl, rfl, new⟩

theorem performs_taken {vec : UcbVector} {change : UcbVector → Exec (UcbVector × VectorOutcome)}
    (keeps : KeepAll vectors all) (found : vectors.vecs number = some vec)
    (step : genericStep allocator cloner vectors op = takeFromVector vectors number change) :
    Lib.Performs (genericRun allocator cloner) KeepAll vectors op
        (all.put number after all.calls, outcome) ↔ Leaves (change vec) after outcome := by
  have step' : genericStep allocator cloner vectors op =
      (change vec >>= fun value => pure (vectors.put number value.1 vectors.calls, value.2)) := by
    rw [step, takeFromVector, Vectors.find, found]
    rfl
  rw [performs_put keeps step']
  constructor
  · rintro ⟨⟨changed, result⟩, ran, -, rfl, new⟩
    exact ⟨changed, ran, new⟩
  · rintro ⟨changed, ran, new⟩
    exact ⟨(changed, outcome), ran, keeps.calls, rfl, new⟩

theorem replace_some {items : List (List UInt8)} (replaced : list.replace items = some after) :
    after.mode = list.mode ∧ after.items = items := by
  rw [ItemList.replace] at replaced
  split at replaced
  next sized =>
    obtain rfl := Option.some.inj replaced
    exact ⟨rfl, rfl⟩
  next => cases replaced

theorem insertItem_some {index : Nat} {data : List UInt8} {next : Lists × VectorOutcome}
    (effect : insertItem cloner all number index data = some next) :
    ∃ list item calls after, all.lists number = some list ∧ index ≤ list.items.length ∧
      data.length = list.mode.esize ∧ list.mode.put cloner all.calls data = some (item, calls) ∧
      after.mode = list.mode ∧
      after.items = list.items.take index ++ item :: list.items.drop index ∧
      next = (all.put number after calls, ⟨true, none, []⟩) := by
  obtain ⟨list, found, effect⟩ := Option.bind_eq_some_iff.mp effect
  split at effect
  next valid =>
    obtain ⟨⟨item, calls⟩, put, effect⟩ := Option.bind_eq_some_iff.mp effect
    obtain ⟨after, replaced, effect⟩ := Option.bind_eq_some_iff.mp effect
    obtain ⟨mode, items⟩ := replace_some replaced
    exact ⟨list, item, calls, after, found, valid.1, valid.2, put, mode, items,
      (Option.some.inj effect).symm⟩
  next => cases effect

theorem removeItem_some {index : Nat} {wanted : Bool} {next : Lists × VectorOutcome}
    (effect : removeItem all number index wanted = some next) :
    ∃ list item after, all.lists number = some list ∧ list.items[index]? = some item ∧
      after.mode = list.mode ∧
      after.items = list.items.take index ++ list.items.drop (index + 1) ∧
      next = (all.put number after all.calls, taken list.mode item wanted) := by
  obtain ⟨list, found, effect⟩ := Option.bind_eq_some_iff.mp effect
  obtain ⟨item, here, effect⟩ := Option.bind_eq_some_iff.mp effect
  obtain ⟨after, replaced, effect⟩ := Option.bind_eq_some_iff.mp effect
  obtain ⟨mode, items⟩ := replace_some replaced
  exact ⟨list, item, after, found, here, mode, items, (Option.some.inj effect).symm⟩

/-- An insertion performs its list effect exactly when the vector can grow. -/
theorem performs_insert (generous : allocator.Generous) (keeps : KeepAll vectors all)
    {index : Nat} {data : List UInt8} {next : Lists × VectorOutcome}
    {change : UcbVector → Exec (UcbVector × Nat)}
    (step : genericStep allocator cloner vectors op = changeVector vectors number change)
    (inserts : ∀ vec list, vectors.vecs number = some vec → all.lists number = some list →
      Keeps vec list →
        change vec = ucbVectorInsert allocator cloner vectors.calls vec index data)
    (effect : insertItem cloner all number index data = some next) :
    Lib.Performs (genericRun allocator cloner) KeepAll vectors op next ↔
      ∀ vec ∈ vectors.vecs number, RoomToGrow vec := by
  obtain ⟨list, item, calls, after, found, inside, length, put, mode, items, rfl⟩ :=
    insertItem_some effect
  obtain ⟨vec, here, kept⟩ := keeps.vector found
  rw [← keeps.calls] at put
  rw [performs_changed keeps here step, inserts vec list here found kept,
    insert_leaves_iff generous kept inside length put mode items, here]
  simp

theorem performs_remove (keeps : KeepAll vectors all) {index : Nat} {wanted : Bool}
    {next : Lists × VectorOutcome} {change : UcbVector → Exec (UcbVector × VectorOutcome)}
    (step : genericStep allocator cloner vectors op = takeFromVector vectors number change)
    (removes : ∀ vec list, vectors.vecs number = some vec → all.lists number = some list →
      Keeps vec list → change vec = ucbVectorRemove vec index wanted)
    (effect : removeItem all number index wanted = some next) :
    Lib.Performs (genericRun allocator cloner) KeepAll vectors op next := by
  obtain ⟨list, item, after, found, there, mode, items, rfl⟩ := removeItem_some effect
  obtain ⟨vec, here, kept⟩ := keeps.vector found
  rw [performs_taken keeps here step, removes vec list here found kept]
  exact remove_leaves kept there wanted mode items

theorem performs_pop (index : Nat → Nat) (keeps : KeepAll vectors all) {wanted : Bool}
    {next : Lists × VectorOutcome} {change : UcbVector → Exec (UcbVector × VectorOutcome)}
    (step : genericStep allocator cloner vectors op = takeFromVector vectors number change)
    (pops : ∀ vec, change vec =
      if vec.size = 0 then pure (vec, ⟨false, none, []⟩)
      else ucbVectorRemove vec (index vec.size) wanted)
    (effect : popItem all number index wanted = some next) :
    Lib.Performs (genericRun allocator cloner) KeepAll vectors op next := by
  obtain ⟨list, found, effect⟩ := Option.bind_eq_some_iff.mp effect
  obtain ⟨vec, here, kept⟩ := keeps.vector found
  have size : vec.size = list.items.length := by
    rw [kept.fields]
    rfl
  split at effect
  next empty =>
    obtain rfl := Option.some.inj effect
    have none : vec.size = 0 := by rw [size, empty]; rfl
    have same : vectors.put number vec vectors.calls = vectors := by
      rw [Vectors.put, ← here, Function.update_eq_self]
    refine ⟨vectors, ?_, keeps⟩
    rw [genericRun, step, takeFromVector, Vectors.find, here]
    show (change vec >>= fun value => _).returned = _
    rw [pops, if_pos none, Exec.pure_eq_ok, Exec.ok_bind, same]
    rfl
  next some =>
    refine performs_remove keeps step ?_ effect
    intro other list' here' found' kept'
    obtain rfl := Option.some.inj (here.symm.trans here')
    obtain rfl := Option.some.inj (found.symm.trans found')
    have more : vec.size ≠ 0 := by
      rw [size]
      exact fun none => some (List.eq_nil_of_length_eq_zero none)
    rw [pops, if_neg more, size]

theorem args_esize {args : UcbVectorArgs} {mode : VectorMode} (valid : args.mode = some mode) :
    (if args.elementSize = 0 then pointerSize else args.elementSize) = mode.esize := by
  obtain ⟨dataClone, dataFree, elementSize, initialCapacity⟩ := args
  simp only [UcbVectorArgs.mode] at valid
  split at valid
  next wide =>
    split at valid
    next => cases valid
    next =>
      obtain rfl := Option.some.inj valid
      exact if_neg (Nat.ne_of_gt wide)
  next narrow =>
    obtain rfl : elementSize = 0 := Nat.eq_zero_of_not_pos narrow
    split at valid
    next => obtain rfl := Option.some.inj valid; rfl
    next => obtain rfl := Option.some.inj valid; rfl
    next => cases valid

theorem step_copy {dst src : Nat} {target vec : UcbVector} (apart : dst ≠ src)
    (here : vectors.vecs dst = some target) (there : vectors.vecs src = some vec) :
    genericStep allocator cloner vectors (.copy dst src) =
      (ucbVectorCopy allocator cloner vectors.calls target vec >>= fun value =>
        pure (vectors.put dst value.1.1.1 value.2, ⟨value.1.1.2, none, value.1.2⟩)) := by
  rw [genericStep, decide_eq_true apart, Vectors.find, here, Vectors.find, there]
  rfl

theorem step_clone {dst src : Nat} {vec : UcbVector} (here : vectors.vecs src = some vec) :
    genericStep allocator cloner vectors (.clone dst src) =
      (ucbVectorClone allocator cloner vectors.calls vec >>= fun value =>
        match value.1.1 with
        | none => pure ({ vectors with calls := value.2 }, ⟨false, none, value.1.2⟩)
        | some vec => pure (vectors.put dst vec value.2, ⟨true, none, value.1.2⟩)) := by
  rw [genericStep, Vectors.find, here]
  rfl

/-- Each operation by itself has the list effect exactly when the storage it asks for
has its elements. -/
theorem generic_performs_iff (generous : allocator.Generous) (keeps : KeepAll vectors all)
    (op : GenericOp) (next : Lists × VectorOutcome)
    (effect : itemStep cloner all op = some next) :
    Lib.Performs (genericRun allocator cloner) KeepAll vectors op next ↔
      StorageFits vectors op := by
  cases op with
  | new number args =>
      obtain ⟨mode, valid, effect⟩ := Option.bind_eq_some_iff.mp effect
      obtain rfl := Option.some.inj effect
      rw [StorageFits, args_esize valid, ← new_keeps_iff generous valid, Lib.Performs, genericRun,
        genericStep]
      constructor
      · rintro ⟨state, ran, related⟩
        rw [Exec.returned_eq_some] at ran
        obtain ⟨created, made, ran⟩ := Exec.bind_eq_ok.mp ran
        cases created with
        | none =>
            obtain ⟨-, flag⟩ := Prod.mk.inj (Exec.ok.inj ran)
            cases flag
        | some vec =>
            obtain ⟨rfl, -⟩ := Prod.mk.inj (Exec.ok.inj ran)
            exact ⟨vec, made, related.of_put⟩
      · rintro ⟨vec, made, new⟩
        rw [made, ← keeps.calls]
        exact ⟨_, rfl, keeps.put number new _⟩
  | clone dst src =>
      obtain ⟨list, found, effect⟩ := Option.bind_eq_some_iff.mp effect
      obtain ⟨⟨items, calls⟩, put, effect⟩ := Option.bind_eq_some_iff.mp effect
      obtain ⟨after, replaced, effect⟩ := Option.bind_eq_some_iff.mp effect
      obtain rfl := Option.some.inj effect
      obtain ⟨mode, content⟩ := replace_some replaced
      obtain ⟨vec, here, kept⟩ := keeps.vector found
      rw [← keeps.calls] at put
      have fits : StorageFits vectors (.clone dst src) ↔ CloneFits vec := by
        rw [StorageFits, here]
        simp
      rw [fits, ← clone_keeps_iff generous kept put mode content, Lib.Performs, genericRun,
        step_clone here]
      constructor
      · rintro ⟨state, ran, related⟩
        rw [Exec.returned_eq_some] at ran
        obtain ⟨⟨⟨cloned, freed⟩, made⟩, clone, ran⟩ := Exec.bind_eq_ok.mp ran
        cases cloned with
        | none =>
            obtain ⟨-, flag⟩ := Prod.mk.inj (Exec.ok.inj ran)
            cases flag
        | some vec' =>
            obtain ⟨rfl, same⟩ := Prod.mk.inj (Exec.ok.inj ran)
            obtain ⟨-, -, rfl⟩ := VectorOutcome.mk.inj same
            obtain rfl : made = calls := related.calls
            exact ⟨vec', clone, related.of_put⟩
      · rintro ⟨vec', clone, new⟩
        rw [clone]
        exact ⟨_, rfl, keeps.put dst new calls⟩
  | copy dst src =>
      obtain ⟨old, target, effect⟩ := Option.bind_eq_some_iff.mp effect
      obtain ⟨list, found, effect⟩ := Option.bind_eq_some_iff.mp effect
      split at effect
      next => cases effect
      next apart =>
        obtain ⟨⟨items, calls⟩, put, effect⟩ := Option.bind_eq_some_iff.mp effect
        obtain ⟨after, replaced, effect⟩ := Option.bind_eq_some_iff.mp effect
        obtain rfl := Option.some.inj effect
        obtain ⟨mode, content⟩ := replace_some replaced
        obtain ⟨to', here, held⟩ := keeps.vector target
        obtain ⟨vec, there, kept⟩ := keeps.vector found
        rw [← keeps.calls] at put
        have fits : StorageFits vectors (.copy dst src) ↔ CopyFits to' vec := by
          rw [StorageFits, here, there]
          simp
        rw [fits, ← copy_keeps_iff generous held kept (copies_of_putAll put) mode content,
          performs_put keeps (step_copy apart here there)]
        constructor
        · rintro ⟨⟨⟨⟨changed, success⟩, freed⟩, made⟩, copied, rfl, same, new⟩
          obtain ⟨rfl, -, rfl⟩ := VectorOutcome.mk.inj same
          exact ⟨changed, copied, new⟩
        · rintro ⟨changed, copied, new⟩
          exact ⟨_, copied, rfl, rfl, new⟩
  | move dst src =>
      obtain ⟨old, target, effect⟩ := Option.bind_eq_some_iff.mp effect
      obtain ⟨list, found, effect⟩ := Option.bind_eq_some_iff.mp effect
      split at effect
      next => cases effect
      next apart =>
        obtain rfl := Option.some.inj effect
        obtain ⟨to', here, held⟩ := keeps.vector target
        obtain ⟨vec, there, kept⟩ := keeps.vector found
        refine iff_of_true ⟨_, ?_, (keeps.put dst kept all.calls).put src (moved_keeps kept)
          all.calls⟩ trivial
        rw [genericRun, genericStep, decide_eq_true apart, Vectors.find, here, Vectors.find, there]
        show (ucbVectorMove to' vec >>= _).returned = _
        rw [move_keeps held, keeps.calls]
        rfl
  | reserve number newCapacity =>
      obtain ⟨list, found, effect⟩ := Option.bind_eq_some_iff.mp effect
      obtain rfl := Option.some.inj effect
      obtain ⟨vec, here, kept⟩ := keeps.vector found
      have exact := reserve_leaves_iff generous kept newCapacity
      rw [performs_taken keeps here rfl, StorageFits, here]
      simp only [Option.mem_def, Option.some.injEq, forall_eq']
      rw [← exact]
      constructor
      · rintro ⟨changed, ran, new⟩
        obtain ⟨⟨changed', reserved⟩, asked, ran⟩ := Exec.bind_eq_ok.mp ran
        obtain ⟨rfl, same⟩ := Prod.mk.inj (Exec.ok.inj ran)
        obtain ⟨rfl, -⟩ := VectorOutcome.mk.inj same
        exact ⟨changed', asked, new⟩
      · rintro ⟨changed, asked, new⟩
        exact ⟨changed, by rw [asked]; rfl, new⟩
  | clear number =>
      obtain ⟨list, found, effect⟩ := Option.bind_eq_some_iff.mp effect
      obtain rfl := Option.some.inj effect
      obtain ⟨vec, here, kept⟩ := keeps.vector found
      obtain ⟨data, capacity, rfl, inside, array⟩ := kept.elim
      refine iff_of_true ((performs_taken keeps here rfl).mpr ⟨_, ?_, clear_keeps array⟩) trivial
      rw [clear_vector inside array]
      rfl
  | fit number =>
      obtain ⟨list, found, effect⟩ := Option.bind_eq_some_iff.mp effect
      obtain rfl := Option.some.inj effect
      obtain ⟨vec, here, kept⟩ := keeps.vector found
      rw [performs_taken keeps here rfl, StorageFits, here]
      simp only [Option.mem_def, Option.some.injEq, forall_eq']
      rw [← fit_leaves_iff generous kept]
      constructor
      · rintro ⟨changed, ran, new⟩
        obtain ⟨changed', fitted, ran⟩ := Exec.bind_eq_ok.mp ran
        obtain ⟨rfl, -⟩ := Prod.mk.inj (Exec.ok.inj ran)
        exact ⟨changed', fitted, new⟩
      · rintro ⟨changed, fitted, new⟩
        exact ⟨changed, by rw [fitted]; rfl, new⟩
  | insert number index data =>
      exact performs_insert generous keeps rfl (fun _ _ _ _ _ => rfl) effect
  | remove number index wanted =>
      exact iff_of_true (performs_remove keeps rfl (fun _ _ _ _ _ => rfl) effect) trivial
  | pushBack number data =>
      obtain ⟨list, found, effect⟩ := Option.bind_eq_some_iff.mp effect
      refine performs_insert generous keeps rfl ?_ effect
      intro vec list' here found' kept
      obtain rfl := Option.some.inj (found.symm.trans found')
      have size : vec.size = list.items.length := by
        rw [kept.fields]
        rfl
      rw [pushBack_eq_insert, size]
  | pushFront number data =>
      exact performs_insert generous keeps rfl (fun _ _ _ _ _ => rfl) effect
  | popBack number wanted =>
      exact iff_of_true (performs_pop (· - 1) keeps rfl (fun _ => rfl) effect) trivial
  | popFront number wanted =>
      exact iff_of_true (performs_pop (fun _ => 0) keeps rfl (fun _ => rfl) effect) trivial
  | get number index =>
      obtain ⟨list, found, effect⟩ := Option.bind_eq_some_iff.mp effect
      obtain ⟨item, there, effect⟩ := Option.bind_eq_some_iff.mp effect
      obtain rfl := Option.some.inj effect
      obtain ⟨vec, here, kept⟩ := keeps.vector found
      refine iff_of_true ((performs_taken keeps here rfl).mpr ⟨vec, ?_, kept⟩) trivial
      rw [get_vector kept there]
      rfl
  | set number index data =>
      obtain ⟨list, found, effect⟩ := Option.bind_eq_some_iff.mp effect
      obtain ⟨old, there, effect⟩ := Option.bind_eq_some_iff.mp effect
      split at effect
      next length =>
        obtain ⟨⟨item, calls⟩, put, effect⟩ := Option.bind_eq_some_iff.mp effect
        obtain ⟨after, replaced, effect⟩ := Option.bind_eq_some_iff.mp effect
        obtain rfl := Option.some.inj effect
        obtain ⟨mode, content⟩ := replace_some replaced
        obtain ⟨vec, here, kept⟩ := keeps.vector found
        rw [← keeps.calls] at put
        obtain ⟨changed, ran, new⟩ := set_leaves kept there length put mode content
        refine iff_of_true ⟨_, ?_, keeps.put number new calls⟩ trivial
        rw [genericRun, genericStep, Vectors.find, here]
        show (ucbVectorSet cloner vectors.calls vec index data >>= _).returned = _
        rw [ran]
        rfl
      next => cases effect

/-- Sequences of operations, from no vectors on, refine lists, with every array live and
large enough, exactly when the storage that each operation asks for has its elements. -/
theorem genericVectors_refine_iff (generous : allocator.Generous) {ops : List GenericOp}
    (inContract : (performAll (itemStep cloner) noLists ops).isSome) :
    RefinesOn (genericRun allocator cloner) (itemStep cloner) KeepAll noVectors noLists ops ↔
      Throughout (genericRun allocator cloner) StorageFits noVectors ops := by
  have exact : ∀ vectors all op next, KeepAll vectors all → itemStep cloner all op = some next →
      (Lib.Performs (genericRun allocator cloner) KeepAll vectors op next ↔
        StorageFits vectors op) :=
    fun vectors all op next keeps effect => generic_performs_iff generous keeps op next effect
  exact refinesOn_iff exact keepAll_none inContract

end Sequences

/-- Each call gives a pointer of its own. -/
def numberedClone : CloneFunc where
  clone call _ := some [UInt8.ofNat call, 0, 0, 0, 0, 0, 0, 1]
  pointer := by
    intro call item copy answer
    obtain rfl := Option.some.inj answer
    rfl

/-- A vector that owns its elements, and a copy of it. -/
theorem genericVectors_refine_iff_copy :
    RefinesOn (genericRun ⟨fun _ _ => true, fun _ => 0⟩ numberedClone) (itemStep numberedClone)
        KeepAll noVectors noLists
        [.new 0 ⟨true, true, 0, 1⟩, .pushBack 0 [1, 0, 0, 0, 0, 0, 0, 0], .clone 1 0,
          .popBack 0 true] ↔
      Throughout (genericRun ⟨fun _ _ => true, fun _ => 0⟩ numberedClone) StorageFits noVectors
        [.new 0 ⟨true, true, 0, 1⟩, .pushBack 0 [1, 0, 0, 0, 0, 0, 0, 0], .clone 1 0,
          .popBack 0 true] :=
  genericVectors_refine_iff (fun _ _ => rfl) rfl

/-- Three sequences that leave the array: `fit` of an empty vector, insertion into a vector
that was moved from, and a copy of wider elements into as many narrower ones. -/
theorem vectors_without_room :
    ¬ RefinesOn (genericRun ⟨fun _ _ => true, fun _ => 0⟩ numberedClone) (itemStep numberedClone)
        KeepAll noVectors noLists
        [.new 0 ⟨false, false, 1, 1⟩, .fit 0, .pushBack 0 [7]] ∧
    ¬ RefinesOn (genericRun ⟨fun _ _ => true, fun _ => 0⟩ numberedClone) (itemStep numberedClone)
        KeepAll noVectors noLists
        [.new 0 ⟨false, false, 1, 1⟩, .new 1 ⟨false, false, 1, 1⟩, .move 1 0, .pushBack 0 [7]] ∧
    ¬ RefinesOn (genericRun ⟨fun _ _ => true, fun _ => 0⟩ numberedClone) (itemStep numberedClone)
        KeepAll noVectors noLists
        [.new 0 ⟨false, false, 1, 1⟩, .new 1 ⟨false, false, 2, 1⟩, .pushBack 1 [7, 8],
          .copy 0 1] := by
  refine ⟨?_, ?_, ?_⟩
  · intro refines
    obtain ⟨state, ran, -⟩ := refines _ [] (List.append_nil _).symm _ rfl
    cases ran
  · intro refines
    obtain ⟨state, ran, -⟩ := refines _ [] (List.append_nil _).symm _ rfl
    cases ran
  · intro refines
    obtain ⟨state, ran, -⟩ := refines _ [] (List.append_nil _).symm _ rfl
    cases ran

end Ucb.Container
