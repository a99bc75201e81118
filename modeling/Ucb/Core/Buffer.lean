import Ucb.Core.Memory

/-!
Contract: the byte buffers of `buffer.c`.

Owns:
- static buffers over borrowed memory and heap buffers that may grow;
- pushing bytes, and what a push leaves in the buffer;
- clearing a buffer and fitting its block to the content.

`alloc` is the length of the block, so it cannot disagree with it.
-/

namespace Ucb

/-- `_impl_resize` and `grow_func`: whether and how a buffer grows. -/
inductive BufferGrowth where
  | fixed
  | exact
  | double
deriving DecidableEq, Repr

structure UcbBuffer where
  data : List UInt8
  size : Nat
  growth : BufferGrowth
deriving DecidableEq, Repr

def UcbBuffer.content (buf : UcbBuffer) : List UInt8 :=
  buf.data.take buf.size

/-- `ucb_buffer_init_static` over a non-null pointer. -/
def ucbBufferInitStatic (data : List UInt8) : Exec UcbBuffer := do
  ucbVerify (decide (data.length > 0)) .invalidArg
  pure ⟨data, 0, .fixed⟩

/-- `ucb_buffer_init_heap`. After a refused request the zeroed buffer has no
memory and no resize function. -/
def ucbBufferInitHeap (allocator : Allocator) (initialCapacity : Nat) :
    Exec (UcbBuffer × Bool) := do
  ucbVerify (decide (initialCapacity > 0)) .invalidArg
  match ucbCalloc allocator initialCapacity with
  | some block => pure (⟨block, 0, .exact⟩, true)
  | none => pure (⟨[], 0, .fixed⟩, false)

/-- The loop of `ucb_buffer_grow_double`: double until `sizeNeeded` more bytes fit.
Doubling a positive capacity `sizeNeeded` times is always enough. -/
def growDoubleLoop (alloc sizeNeeded : Nat) : Nat → Nat → Nat
  | 0, cap => cap
  | fuel + 1, cap =>
      if sizeNeeded > cap - alloc then growDoubleLoop alloc sizeNeeded fuel (cap * 2) else cap

def ucbBufferGrowDouble (alloc sizeNeeded : Nat) : Nat :=
  growDoubleLoop alloc sizeNeeded sizeNeeded (if alloc = 0 then 1 else alloc * 2)

/-- `ucb_buffer_grow`; false when the allocator refuses, with the buffer
unchanged. -/
def ucbBufferGrow (allocator : Allocator) (buf : UcbBuffer) (incCapacity : Nat) :
    Exec (UcbBuffer × Bool) :=
  let resize (newCapacity : Nat) : Exec (UcbBuffer × Bool) :=
    if buf.data.length = newCapacity then pure (buf, true)
    else
      match ucbRealloc allocator buf.data newCapacity with
      | some block => pure ({ buf with data := block }, true)
      | none => pure (buf, false)
  match buf.growth with
  | .fixed => .abort .buffer
  | .exact => resize (buf.data.length + incCapacity)
  | .double => resize (max (ucbBufferGrowDouble buf.data.length incCapacity) buf.data.length)

def ucbBufferPush (allocator : Allocator) (buf : UcbBuffer) (data : List UInt8) :
    Exec (UcbBuffer × Bool) :=
  if data.length > 0 then do
    let spare := buf.data.length - buf.size
    let (buf, grown) ←
      if data.length > spare then ucbBufferGrow allocator buf (data.length - spare)
      else pure (buf, true)
    if grown then do
      let block ← blit buf.data buf.size data
      pure ({ buf with data := block, size := buf.size + data.length }, true)
    else pure (buf, false)
  else pure (buf, true)

def ucbBufferClear (buf : UcbBuffer) : UcbBuffer :=
  { buf with size := 0 }

/-- `ucb_buffer_resize` of a heap buffer to a positive capacity; false when the
allocator refuses, with the buffer unchanged. -/
def ucbBufferResize (allocator : Allocator) (buf : UcbBuffer) (newCapacity : Nat) :
    Exec (UcbBuffer × Bool) := do
  ucbVerify (decide (buf.growth ≠ .fixed)) .buffer
  if buf.data.length = newCapacity then pure (buf, true)
  else
    match ucbRealloc allocator buf.data newCapacity with
    | some block => pure ({ buf with data := block, size := min buf.size newCapacity }, true)
    | none => pure (buf, false)

def ucbBufferFit (allocator : Allocator) (buf : UcbBuffer) : Exec (UcbBuffer × Bool) :=
  if buf.size = buf.data.length then pure (buf, true) else ucbBufferResize allocator buf buf.size

/-! ## Pushing -/

/-- A push that fits writes behind the content and nowhere else. -/
theorem bufferPush_fits (allocator : Allocator) (used spare : List UInt8) (growth : BufferGrowth)
    {data : List UInt8} (room : data.length ≤ spare.length) :
    ucbBufferPush allocator ⟨used ++ spare, used.length, growth⟩ data =
      .ok (⟨used ++ data ++ spare.drop data.length, (used ++ data).length, growth⟩, true) := by
  by_cases nonempty : data.length > 0
  · have free : ¬ data.length > used.length + spare.length - used.length := by omega
    simp only [ucbBufferPush, if_pos nonempty, List.length_append, if_neg free, Exec.pure_eq_ok,
      Exec.ok_bind, if_true, blit_spare used spare room]
  · have empty : data = [] := List.eq_nil_of_length_eq_zero (by omega)
    subst empty
    simp [ucbBufferPush]

/-- Doubling goes on until the bytes fit. -/
theorem growDoubleLoop_fits {alloc sizeNeeded : Nat} :
    ∀ {fuel cap : Nat}, 0 < cap → alloc ≤ cap → sizeNeeded ≤ fuel + (cap - alloc) →
      sizeNeeded ≤ growDoubleLoop alloc sizeNeeded fuel cap - alloc := by
  intro fuel
  induction fuel with
  | zero => intro cap _ _ enough; simpa [growDoubleLoop] using enough
  | succ fuel inductionHypothesis =>
      intro cap positive inside enough
      rw [growDoubleLoop]
      split
      · exact inductionHypothesis (by omega) (by omega) (by omega)
      · omega

theorem growDouble_fits (alloc sizeNeeded : Nat) :
    alloc + sizeNeeded ≤ max (ucbBufferGrowDouble alloc sizeNeeded) alloc := by
  have positive : 0 < if alloc = 0 then 1 else alloc * 2 := by split <;> omega
  have inside : alloc ≤ if alloc = 0 then 1 else alloc * 2 := by split <;> omega
  have fits : sizeNeeded ≤ ucbBufferGrowDouble alloc sizeNeeded - alloc :=
    growDoubleLoop_fits positive inside (by omega)
  omega

/-- A generous allocator lets a doubling buffer take every push. -/
theorem bufferPush_double {allocator : Allocator} (generous : allocator.Generous)
    (used spare data : List UInt8) :
    ∃ spare', ucbBufferPush allocator ⟨used ++ spare, used.length, .double⟩ data =
      .ok (⟨used ++ data ++ spare', (used ++ data).length, .double⟩, true) := by
  by_cases room : data.length ≤ spare.length
  · exact ⟨_, bufferPush_fits allocator used spare .double room⟩
  · have free : data.length > (used ++ spare).length - used.length := by
      rw [List.length_append]
      omega
    have needed := growDouble_fits (used ++ spare).length
      (data.length - ((used ++ spare).length - used.length))
    generalize grown : max (ucbBufferGrowDouble (used ++ spare).length
      (data.length - ((used ++ spare).length - used.length))) (used ++ spare).length = capacity
      at needed
    have larger : (used ++ spare).length ≠ capacity := by omega
    have inside : (used ++ spare).length ≤ capacity := by omega
    have block := realloc_granted (used ++ spare) (generous .realloc capacity) (by omega)
    rw [List.take_of_length_le inside, List.append_assoc] at block
    have written := blit_spare used
      (spare ++ allocator.freshBlock (capacity - (used ++ spare).length))
      (show data.length ≤ _ by
        rw [List.length_append, Allocator.freshBlock_length]
        rw [List.length_append] at needed ⊢
        omega)
    have size : (used ++ data).length = used.length + data.length := List.length_append
    refine ⟨(spare ++ allocator.freshBlock (capacity - (used ++ spare).length)).drop
      data.length, ?_⟩
    simp only [ucbBufferPush, if_pos (show data.length > 0 by omega), if_pos free, ucbBufferGrow,
      grown, if_neg larger, block, Exec.pure_eq_ok, Exec.ok_bind, if_true, written, size]

/-- Fitting keeps the content. -/
theorem bufferFit_double {allocator : Allocator} (generous : allocator.Generous)
    {used : List UInt8} (nonempty : used ≠ []) (spare : List UInt8) :
    ucbBufferFit allocator ⟨used ++ spare, used.length, .double⟩ =
      .ok (⟨used, used.length, .double⟩, true) := by
  by_cases full : spare = []
  · subst full
    simp [ucbBufferFit]
  · have longer : ¬ used.length = (used ++ spare).length := by
      have := List.length_pos_iff.mpr full
      rw [List.length_append]
      omega
    have differs : ¬ (used ++ spare).length = used.length := fun same => longer same.symm
    have block := realloc_granted (used ++ spare) (generous .realloc used.length)
      (List.length_pos_iff.mpr nonempty)
    have noMore : used.length - (used ++ spare).length = 0 := by
      rw [List.length_append]
      omega
    rw [List.take_left, noMore] at block
    simp [ucbBufferFit, ucbBufferResize, full, block, Allocator.freshBlock]

end Ucb
