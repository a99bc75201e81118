import Ucb.Container.ByteBufferRefinement

/-!
Contract: the sizes of a buffer that grows, in the arithmetic of `size_t`.

Owns:
- `ucb_buffer_grow_double` and the growing part of `buffer.c` on 64-bit sizes that wrap;
- that doubling without a bound, cut off at `SIZE_MAX`, is what the doubling computes;
- that what can be ensured never overflows and has room once the resize succeeds;
- that the buffers with memory have these sizes.

Does not own: what is stored.
-/

namespace Ucb.Container.GrowthArithmetic

/-! ## Doubling -/

def sizeMax : UInt64 :=
  .ofNat Container.sizeMax

theorem sizeMax_toNat : sizeMax.toNat = 2 ^ 64 - 1 :=
  rfl

theorem le_sizeMax (size : UInt64) : size.toNat ≤ sizeMax.toNat := by
  have below := size.toNat_lt
  rw [sizeMax_toNat]
  omega

theorem half_toNat : (sizeMax / 2).toNat = 2 ^ 63 - 1 :=
  rfl

/-- Up to half of `SIZE_MAX` doubling does not wrap. -/
theorem twice_toNat {cap : UInt64} (small : ¬ cap > sizeMax / 2) :
    (cap * 2).toNat = cap.toNat * 2 := by
  have inside := UInt64.not_lt.mp small
  rw [UInt64.le_iff_toNat_le, half_toNat] at inside
  rw [UInt64.toNat_mul]
  exact Nat.mod_eq_of_lt (by simpa using by omega)

/-- The loop of `ucb_buffer_grow_double`. A capacity of zero would be doubled forever. -/
def growDoubleLoop (alloc sizeNeeded cap : UInt64) (positive : 0 < cap.toNat) : UInt64 :=
  if sizeNeeded > cap - alloc then
    if large : cap > sizeMax / 2 then sizeMax
    else growDoubleLoop alloc sizeNeeded (cap * 2) (by rw [twice_toNat large]; omega)
  else cap
termination_by 2 ^ 64 - cap.toNat
decreasing_by
  have bound := cap.toNat_lt
  rw [twice_toNat large]
  omega

def firstCapacity (alloc : UInt64) : UInt64 :=
  if alloc = 0 then 1 else if alloc ≤ sizeMax / 2 then alloc * 2 else sizeMax

theorem firstCapacity_cases (alloc : UInt64) :
    (alloc.toNat = 0 ∧ (firstCapacity alloc).toNat = 1) ∨
    (0 < alloc.toNat ∧ alloc.toNat < 2 ^ 63 ∧ (firstCapacity alloc).toNat = alloc.toNat * 2) ∨
    (2 ^ 63 ≤ alloc.toNat ∧ firstCapacity alloc = sizeMax) := by
  rw [firstCapacity]
  by_cases zero : alloc = 0
  · subst zero
    exact .inl ⟨rfl, rfl⟩
  · have positive : alloc.toNat ≠ 0 := fun none => zero (UInt64.toNat_inj.mp none)
    rw [if_neg zero]
    by_cases small : alloc ≤ sizeMax / 2
    · rw [if_pos small, twice_toNat (UInt64.not_lt.mpr small)]
      rw [UInt64.le_iff_toNat_le, half_toNat] at small
      exact .inr (.inl ⟨by omega, by omega, rfl⟩)
    · rw [if_neg small]
      rw [UInt64.le_iff_toNat_le, half_toNat] at small
      exact .inr (.inr ⟨by omega, rfl⟩)

theorem firstCapacity_pos (alloc : UInt64) : 0 < (firstCapacity alloc).toNat := by
  rcases firstCapacity_cases alloc with ⟨-, one⟩ | ⟨positive, -, twice⟩ | ⟨-, most⟩
  · omega
  · omega
  · rw [most, sizeMax_toNat]
    omega

def ucbBufferGrowDouble (alloc sizeNeeded : UInt64) : UInt64 :=
  growDoubleLoop alloc sizeNeeded (firstCapacity alloc) (firstCapacity_pos alloc)

/-- The loop without a bound on capacities only grows them. -/
theorem le_growDoubleLoop (alloc sizeNeeded fuel : Nat) :
    ∀ cap, cap ≤ Ucb.growDoubleLoop alloc sizeNeeded fuel cap := by
  induction fuel with
  | zero => exact fun cap => Nat.le_refl cap
  | succ fuel inductionHypothesis =>
      intro cap
      rw [Ucb.growDoubleLoop]
      split
      · have later := inductionHypothesis (cap * 2)
        omega
      · exact Nat.le_refl cap

/-- The loop is the one without a bound, cut off at `SIZE_MAX`. -/
theorem growDoubleLoop_toNat (alloc sizeNeeded cap : UInt64) (positive : 0 < cap.toNat)
    (inside : alloc.toNat ≤ cap.toNat) :
    ∀ fuel, sizeNeeded.toNat ≤ fuel + (cap.toNat - alloc.toNat) →
      (growDoubleLoop alloc sizeNeeded cap positive).toNat =
        min (Ucb.growDoubleLoop alloc.toNat sizeNeeded.toNat fuel cap.toNat) sizeMax.toNat := by
  induction cap, positive using growDoubleLoop.induct alloc sizeNeeded with
  | case1 cap positive more large =>
      intro fuel enough
      rw [growDoubleLoop, if_pos more, dif_pos large]
      rw [gt_iff_lt, UInt64.lt_iff_toNat_lt, UInt64.toNat_sub_of_le _ _
        (UInt64.le_iff_toNat_le.mpr inside)] at more
      rw [gt_iff_lt, UInt64.lt_iff_toNat_lt, half_toNat] at large
      cases fuel with
      | zero => omega
      | succ fuel =>
          have twice := le_growDoubleLoop alloc.toNat sizeNeeded.toNat fuel (cap.toNat * 2)
          rw [Ucb.growDoubleLoop, if_pos more, Nat.min_eq_right]
          rw [sizeMax_toNat]
          omega
  | case2 cap positive more large inductionHypothesis =>
      intro fuel enough
      rw [growDoubleLoop, if_pos more, dif_neg large]
      rw [gt_iff_lt, UInt64.lt_iff_toNat_lt, UInt64.toNat_sub_of_le _ _
        (UInt64.le_iff_toNat_le.mpr inside)] at more
      have twice := twice_toNat large
      cases fuel with
      | zero => omega
      | succ fuel =>
          rw [inductionHypothesis (by omega) fuel (by omega), twice,
            Ucb.growDoubleLoop.eq_def alloc.toNat _ (fuel + 1)]
          simp only [more, if_true]
  | case3 cap positive enough =>
      intro fuel _
      have below := le_sizeMax cap
      rw [growDoubleLoop, if_neg enough]
      rw [gt_iff_lt, UInt64.lt_iff_toNat_lt, UInt64.toNat_sub_of_le _ _
        (UInt64.le_iff_toNat_le.mpr inside)] at enough
      cases fuel with
      | zero => rw [Ucb.growDoubleLoop, Nat.min_eq_left below]
      | succ fuel => rw [Ucb.growDoubleLoop, if_neg enough, Nat.min_eq_left below]

/-- `ucb_buffer_grow_double` is doubling without a bound, cut off at `SIZE_MAX`. -/
theorem growDouble_toNat (alloc sizeNeeded : UInt64) :
    (ucbBufferGrowDouble alloc sizeNeeded).toNat =
      min (Ucb.ucbBufferGrowDouble alloc.toNat sizeNeeded.toNat) sizeMax.toNat := by
  rw [ucbBufferGrowDouble, Ucb.ucbBufferGrowDouble]
  rcases firstCapacity_cases alloc with ⟨zero, one⟩ | ⟨positive, -, twice⟩ | ⟨large, most⟩
  · rw [growDoubleLoop_toNat _ _ _ _ (by omega) sizeNeeded.toNat (by omega), one, if_pos zero]
  · rw [growDoubleLoop_toNat _ _ _ _ (by omega) sizeNeeded.toNat (by omega), twice,
      if_neg (by omega)]
  · have above := le_growDoubleLoop alloc.toNat sizeNeeded.toNat sizeNeeded.toNat (alloc.toNat * 2)
    have saturated : growDoubleLoop alloc sizeNeeded (firstCapacity alloc)
        (firstCapacity_pos alloc) = sizeMax := by
      have full : firstCapacity alloc > sizeMax / 2 := by
        rw [most]
        decide
      rw [growDoubleLoop, dif_pos full, most, ite_self]
    rw [saturated, if_neg (by omega), Nat.min_eq_right]
    rw [sizeMax_toNat]
    omega

/-- What the answer is good for: the old capacity, the bytes asked for where they can be
represented, and `SIZE_MAX` elsewhere. -/
theorem growDouble_spec (alloc sizeNeeded : UInt64) :
    alloc ≤ ucbBufferGrowDouble alloc sizeNeeded ∧
    (alloc.toNat + sizeNeeded.toNat ≤ sizeMax.toNat →
      alloc.toNat + sizeNeeded.toNat ≤ (ucbBufferGrowDouble alloc sizeNeeded).toNat) ∧
    (sizeMax.toNat < alloc.toNat + sizeNeeded.toNat →
      ucbBufferGrowDouble alloc sizeNeeded = sizeMax) := by
  have fits := growDouble_fits alloc.toNat sizeNeeded.toNat
  have above : alloc.toNat ≤ Ucb.ucbBufferGrowDouble alloc.toNat sizeNeeded.toNat := by
    have start := le_growDoubleLoop alloc.toNat sizeNeeded.toNat sizeNeeded.toNat
      (if alloc.toNat = 0 then 1 else alloc.toNat * 2)
    rw [Ucb.ucbBufferGrowDouble]
    split at start <;> split <;> omega
  have answer := growDouble_toNat alloc sizeNeeded
  have bound := le_sizeMax alloc
  rw [Nat.max_eq_left above] at fits
  refine ⟨UInt64.le_iff_toNat_le.mpr (by omega), fun _ => by omega, fun beyond => ?_⟩
  exact UInt64.toNat_inj.mp (by omega)

/-! ## Sizes of a buffer -/

/-- The sizes of a `ucb_buffer`, whether `_impl_resize` is set, and whether `grow_func` is
`ucb_buffer_grow_double` or `UCB_NULL`. -/
structure BufferSizes where
  size : UInt64
  alloc : UInt64
  resizable : Bool
  doubles : Bool
deriving DecidableEq, Repr

def ucbBufferCanEnsure (buf : BufferSizes) (size : UInt64) : Bool :=
  let spare := buf.alloc - buf.size
  if size ≤ spare then true
  else if !buf.resizable then false
  else decide (size ≤ sizeMax - buf.size)

variable (grants : UInt64 → Bool)

def ucbBufferResize (buf : BufferSizes) (newCapacity : UInt64) : Exec (BufferSizes × Bool) := do
  ucbVerify buf.resizable .buffer
  if buf.alloc = newCapacity ∨ newCapacity = 0 ∨ grants newCapacity = true then
    let size := if buf.size > newCapacity then newCapacity else buf.size
    pure ({ buf with alloc := newCapacity, size := size }, true)
  else pure (buf, false)

def ucbBufferGrow (buf : BufferSizes) (incCapacity : UInt64) : Exec (BufferSizes × Bool) :=
  if buf.doubles then
    let newCapacity := ucbBufferGrowDouble buf.alloc incCapacity
    ucbBufferResize grants buf (if newCapacity < buf.alloc then buf.alloc else newCapacity)
  else do
    ucbVerify (decide (incCapacity ≤ sizeMax - buf.alloc)) .invalidArg
    ucbBufferResize grants buf (buf.alloc + incCapacity)

def ucbBufferEnsure (buf : BufferSizes) (size : UInt64) : Exec (BufferSizes × Bool) :=
  let spare := buf.alloc - buf.size
  if size ≤ spare then pure (buf, true) else ucbBufferGrow grants buf (size - spare)

/-- `ucb_buffer_push` of `size` bytes. The room is made as by `ucb_buffer_ensure`; `memcpy`
needs it. -/
def ucbBufferPush (buf : BufferSizes) (size : UInt64) : Exec (BufferSizes × Bool) :=
  if size > 0 then do
    let (grown, success) ← ucbBufferEnsure grants buf size
    if success then
      if grown.size.toNat + size.toNat ≤ grown.alloc.toNat then
        pure ({ grown with size := grown.size + size }, true)
      else .undefined
    else pure (grown, false)
  else pure (buf, true)

/-- The room for `size` more bytes behind what `before` holds, if the resize succeeded. -/
def HasRoom (before : BufferSizes) (size : UInt64) (outcome : BufferSizes × Bool) : Prop :=
  outcome.2 = true → outcome.1.size = before.size ∧
    before.size.toNat + size.toNat ≤ outcome.1.alloc.toNat

/-- The capacity that `ucb_buffer_ensure` asks for where the room is short. -/
def grownCapacity (buf : BufferSizes) (size : UInt64) : UInt64 :=
  let incCapacity := size - (buf.alloc - buf.size)
  if buf.doubles then
    let newCapacity := ucbBufferGrowDouble buf.alloc incCapacity
    if newCapacity < buf.alloc then buf.alloc else newCapacity
  else buf.alloc + incCapacity

def RoomGranted (buf : BufferSizes) (size : UInt64) : Prop :=
  size ≤ buf.alloc - buf.size ∨ grants (grownCapacity buf size) = true

variable {grants} {buf : BufferSizes} {size : UInt64}

theorem resize_hasRoom (resizable : buf.resizable = true) {newCapacity : UInt64}
    (more : buf.alloc.toNat < buf.size.toNat + size.toNat)
    (enough : buf.size.toNat + size.toNat ≤ newCapacity.toNat) :
    ∃ after, ucbBufferResize grants buf newCapacity = .ok (after, grants newCapacity) ∧
      HasRoom buf size (after, grants newCapacity) := by
  have kept : ¬ buf.size > newCapacity := by
    rw [gt_iff_lt, UInt64.lt_iff_toNat_lt]
    omega
  have other : buf.alloc ≠ newCapacity := by
    rintro rfl
    omega
  have positive : newCapacity ≠ 0 := by
    rintro rfl
    rw [UInt64.toNat_zero] at enough
    omega
  rw [ucbBufferResize, resizable, ucbVerify_true, Exec.ok_bind]
  simp only [if_neg kept, other, positive, false_or]
  cases granted : grants newCapacity with
  | true => exact ⟨_, rfl, fun _ => ⟨rfl, enough⟩⟩
  | false => exact ⟨_, rfl, fun impossible => absurd impossible Bool.false_ne_true⟩

/-- What can be ensured does not overflow, and has room if the resize succeeds. It succeeds where
the room is there or the allocator gives it. -/
theorem ensure_hasRoom (inside : buf.size ≤ buf.alloc) (resizable : buf.resizable = true)
    (can : ucbBufferCanEnsure buf size = true) :
    ∃ outcome, ucbBufferEnsure grants buf size = .ok outcome ∧ HasRoom buf size outcome ∧
      (outcome.2 = true ↔ RoomGranted grants buf size) := by
  have spare := UInt64.toNat_sub_of_le _ _ inside
  rw [UInt64.le_iff_toNat_le] at inside
  by_cases fits : size ≤ buf.alloc - buf.size
  · refine ⟨(buf, true), if_pos fits, fun _ => ⟨rfl, ?_⟩, iff_of_true rfl (.inl fits)⟩
    rw [UInt64.le_iff_toNat_le] at fits
    dsimp only
    omega
  · have representable : size ≤ sizeMax - buf.size := by
      rw [ucbBufferCanEnsure, if_neg fits, resizable] at can
      exact of_decide_eq_true can
    have below := UInt64.le_iff_toNat_le.mpr (le_sizeMax buf.size)
    have allocBelow := UInt64.le_iff_toNat_le.mpr (le_sizeMax buf.alloc)
    rw [UInt64.le_iff_toNat_le, UInt64.toNat_sub_of_le _ _ below] at representable
    have most := le_sizeMax buf.size
    have more := fits
    rw [UInt64.le_iff_toNat_le] at more
    have short : buf.alloc.toNat < buf.size.toNat + size.toNat := by omega
    -- what is missing
    have missing := UInt64.toNat_sub_of_le size (buf.alloc - buf.size)
      (UInt64.le_iff_toNat_le.mpr (by omega))
    have grows : ucbBufferEnsure grants buf size =
        ucbBufferGrow grants buf (size - (buf.alloc - buf.size)) := if_neg fits
    have asked : RoomGranted grants buf size ↔ grants (grownCapacity buf size) = true := by
      rw [RoomGranted, or_iff_right fits]
    rw [grownCapacity] at asked
    generalize size - (buf.alloc - buf.size) = incCapacity at missing grows asked
    rw [grows, asked, ucbBufferGrow]
    split
    · obtain ⟨above, sum, -⟩ := growDouble_spec buf.alloc incCapacity
      rw [UInt64.le_iff_toNat_le] at above
      have sum := sum (by omega)
      have enough : buf.size.toNat + size.toNat ≤
          (ucbBufferGrowDouble buf.alloc incCapacity).toNat := by omega
      have large : ¬ ucbBufferGrowDouble buf.alloc incCapacity < buf.alloc := by
        rw [UInt64.lt_iff_toNat_lt]
        omega
      dsimp only
      rw [if_neg large]
      obtain ⟨after, resized, room⟩ := resize_hasRoom resizable short enough
      exact ⟨_, resized, room, Iff.rfl⟩
    · have accepted : incCapacity ≤ sizeMax - buf.alloc := by
        rw [UInt64.le_iff_toNat_le, UInt64.toNat_sub_of_le _ _ allocBelow]
        omega
      have total : (buf.alloc + incCapacity).toNat = buf.alloc.toNat + incCapacity.toNat := by
        rw [UInt64.toNat_add, Nat.mod_eq_of_lt]
        rw [sizeMax_toNat] at representable most
        omega
      have enough : buf.size.toNat + size.toNat ≤ (buf.alloc + incCapacity).toNat := by omega
      rw [decide_eq_true accepted, ucbVerify_true, Exec.ok_bind]
      obtain ⟨after, resized, room⟩ := resize_hasRoom resizable short enough
      exact ⟨_, resized, room, Iff.rfl⟩

theorem push_hasRoom (inside : buf.size ≤ buf.alloc) (resizable : buf.resizable = true)
    (can : ucbBufferCanEnsure buf size = true) :
    ∃ after done, ucbBufferPush grants buf size = .ok (after, done) ∧
      (done = true → after.size.toNat = buf.size.toNat + size.toNat ∧
        after.size ≤ after.alloc) ∧ (done = true ↔ RoomGranted grants buf size) := by
  by_cases nonempty : size > 0
  · obtain ⟨⟨grown, success⟩, ensured, room, granted⟩ := ensure_hasRoom inside resizable can
    rw [ucbBufferPush, if_pos nonempty, ensured, Exec.ok_bind]
    cases success with
    | true =>
        obtain ⟨kept, fits⟩ := room rfl
        dsimp only at kept fits ⊢
        rw [← kept] at fits ⊢
        have bound := grown.alloc.toNat_lt
        have total : (grown.size + size).toNat = grown.size.toNat + size.toNat := by
          rw [UInt64.toNat_add, Nat.mod_eq_of_lt (by omega)]
        rw [if_pos rfl, if_pos fits]
        refine ⟨_, true, rfl, fun _ => ⟨total, ?_⟩, granted⟩
        rw [UInt64.le_iff_toNat_le, total]
        exact fits
    | false =>
        exact ⟨grown, false, rfl, fun impossible => absurd impossible Bool.false_ne_true, granted⟩
  · have zero : size.toNat = 0 := by
      rw [gt_iff_lt, UInt64.lt_iff_toNat_lt] at nonempty
      exact Nat.eq_zero_of_not_pos nonempty
    have fits : size ≤ buf.alloc - buf.size := by
      rw [UInt64.le_iff_toNat_le, zero]
      exact Nat.zero_le _
    exact ⟨buf, true, if_neg nonempty, fun _ => ⟨by omega, inside⟩, iff_of_true rfl (.inl fits)⟩

/-! ## Buffers with memory -/

def sizesOf (doubles : Bool) (buf : ByteBuffer) : BufferSizes :=
  ⟨.ofNat buf.size, .ofNat buf.alloc, buf.resizable, doubles⟩

/-- What making room for `size` bytes meets: `ucb_buffer_grow_double` or no grow function, and
the allocator. -/
def surroundings (allocator : Allocator) (doubles : Bool) (buf : ByteBuffer) (size : UInt64) :
    Surroundings where
  growFunc :=
    let sizes := sizesOf doubles buf
    if doubles then some (ucbBufferGrowDouble sizes.alloc (size - (sizes.alloc - sizes.size)))
    else none
  allocator := allocator

def sizesOutcome (doubles : Bool) (outcome : ByteBuffer × Bool) : BufferSizes × Bool :=
  (sizesOf doubles outcome.1, outcome.2)

variable {buffer after : ByteBuffer} {content : List UInt8}

theorem resize_resizable {env : Surroundings} {newCapacity : Nat} {done : Bool}
    (ran : Container.ucbBufferResize env buffer newCapacity = .ok (after, done)) :
    after.resizable = buffer.resizable := by
  obtain ⟨_, -, ran⟩ := Exec.bind_eq_ok.mp ran
  obtain ⟨⟨resized, success⟩, resizedRan, ran⟩ := Exec.bind_eq_ok.mp ran
  have kept : resized.resizable = buffer.resizable := by
    rw [resizeUnlessSame] at resizedRan
    split at resizedRan
    · rw [← (Prod.mk.inj (Exec.ok.inj resizedRan)).1]
    · rw [ucbBufferResizeHeap] at resizedRan
      split at resizedRan
      · obtain ⟨_, -, resizedRan⟩ := Exec.bind_eq_ok.mp resizedRan
        rw [← (Prod.mk.inj (Exec.ok.inj resizedRan)).1]
      · obtain ⟨⟨_, tmp⟩, -, resizedRan⟩ := Exec.bind_eq_ok.mp resizedRan
        cases tmp with
        | none => rw [← (Prod.mk.inj (Exec.ok.inj resizedRan)).1]
        | some tmp => rw [← (Prod.mk.inj (Exec.ok.inj resizedRan)).1]
  rw [← kept]
  cases success with
  | false => rw [← (Prod.mk.inj (Exec.ok.inj ran)).1]
  | true =>
      rw [← (Prod.mk.inj (Exec.ok.inj ran)).1]
      split <;> rfl

theorem sizesOf_toNat (doubles : Bool) (stores : Stores buffer content) :
    (sizesOf doubles buffer).size.toNat = buffer.size ∧
      (sizesOf doubles buffer).alloc.toNat = buffer.alloc :=
  ⟨UInt64.toNat_ofNat_of_lt' (Nat.lt_of_le_of_lt stores.inside stores.small),
    UInt64.toNat_ofNat_of_lt' stores.small⟩

theorem resize_sizes (env : Surroundings) (doubles : Bool) (stores : Stores buffer content)
    (newCapacity : UInt64) :
    sizesOutcome doubles <$> Container.ucbBufferResize env buffer newCapacity.toNat =
      ucbBufferResize (fun capacity => env.allocator.grants .realloc capacity.toNat)
        (sizesOf doubles buffer) newCapacity := by
  obtain ⟨sizeNat, allocNat⟩ := sizesOf_toNat doubles stores
  have flag : (sizesOf doubles buffer).resizable = buffer.resizable := rfl
  rw [ucbBufferResize, flag]
  cases resizable : buffer.resizable with
  | false =>
      rw [Container.ucbBufferResize, resizable]
      rfl
  | true =>
      have granted_iff : ((sizesOf doubles buffer).alloc = newCapacity ∨ newCapacity = 0 ∨
            env.allocator.grants .realloc newCapacity.toNat = true) ↔
          (buffer.alloc = newCapacity.toNat ∨ newCapacity.toNat = 0 ∨
            env.allocator.grants .realloc newCapacity.toNat = true) := by
        rw [← UInt64.toNat_inj, allocNat, ← UInt64.toNat_inj, UInt64.toNat_zero]
      rw [ucbVerify_true, Exec.ok_bind]
      by_cases granted : buffer.alloc = newCapacity.toNat ∨ newCapacity.toNat = 0 ∨
          env.allocator.grants .realloc newCapacity.toNat = true
      · obtain ⟨after, resized, stores', alloc⟩ :=
          resize_stores env stores resizable newCapacity.toNat_lt granted
        have size : after.size = min newCapacity.toNat buffer.size := by
          rw [stores'.size, List.length_take, stores.size]
        have cut_iff : (sizesOf doubles buffer).size > newCapacity ↔
            newCapacity.toNat < buffer.size := by
          rw [gt_iff_lt, UInt64.lt_iff_toNat_lt, sizeNat]
        rw [resized, if_pos (granted_iff.mpr granted), Exec.ok_map, sizesOutcome]
        refine congrArg (fun sizes => Exec.ok (sizes, true)) ?_
        rw [sizesOf, resize_resizable resized, resizable, alloc, UInt64.ofNat_toNat, size]
        by_cases cut : newCapacity.toNat < buffer.size
        · rw [if_pos (cut_iff.mpr cut), Nat.min_eq_left (Nat.le_of_lt cut), UInt64.ofNat_toNat]
          rfl
        · rw [if_neg (mt cut_iff.mp cut), Nat.min_eq_right (Nat.not_lt.mp cut)]
          rfl
      · rw [if_neg (mt granted_iff.mp granted)]
        rw [not_or, not_or] at granted
        rw [resize_refused stores resizable newCapacity.toNat_lt granted.1 granted.2.1 granted.2.2]
        rfl

/-- Making room in a buffer makes the room in its sizes. -/
theorem ensure_sizes (allocator : Allocator) (doubles : Bool) (stores : Stores buffer content)
    (size : UInt64) :
    sizesOutcome doubles <$>
        Container.ucbBufferEnsure (surroundings allocator doubles buffer size) buffer size.toNat =
      ucbBufferEnsure (fun capacity => allocator.grants .realloc capacity.toNat)
        (sizesOf doubles buffer) size := by
  obtain ⟨sizeNat, allocNat⟩ := sizesOf_toNat doubles stores
  have inside := stores.inside
  have small := stores.small
  have most : Container.sizeMax = 2 ^ 64 - 1 := rfl
  generalize given : surroundings allocator doubles buffer size = env
  have answers : env.allocator = allocator := by rw [← given]; rfl
  have grows : env.growFunc = if doubles then
      some (ucbBufferGrowDouble (sizesOf doubles buffer).alloc
        (size - ((sizesOf doubles buffer).alloc - (sizesOf doubles buffer).size))) else none := by
    rw [← given]
    rfl
  have flag : (sizesOf doubles buffer).doubles = doubles := rfl
  have resized := resize_sizes env doubles stores
  rw [answers] at resized
  rw [ucbBufferEnsure, Container.ucbBufferEnsure]
  have kept : sizesOutcome doubles (buffer, true) = (sizesOf doubles buffer, true) := rfl
  generalize sizesOf doubles buffer = sizes at *
  have spare : (sizes.alloc - sizes.size).toNat = buffer.alloc - buffer.size := by
    rw [UInt64.toNat_sub_of_le _ _ (UInt64.le_iff_toNat_le.mpr (by omega)), sizeNat, allocNat]
  have fits_iff : size ≤ sizes.alloc - sizes.size ↔ size.toNat ≤ buffer.alloc - buffer.size := by
    rw [UInt64.le_iff_toNat_le, spare]
  by_cases fits : size.toNat ≤ buffer.alloc - buffer.size
  · rw [if_pos fits, if_pos (fits_iff.mpr fits), Exec.pure_eq_ok, Exec.ok_map, kept]
    rfl
  · have missing : (size - (sizes.alloc - sizes.size)).toNat =
        size.toNat - (buffer.alloc - buffer.size) := by
      rw [UInt64.toNat_sub_of_le _ _ (UInt64.le_iff_toNat_le.mpr (by omega)), spare]
    rw [if_neg fits, if_neg (mt fits_iff.mp fits), ← missing]
    generalize size - (sizes.alloc - sizes.size) = incCapacity at grows
    rw [Container.ucbBufferGrow, ucbBufferGrow, grows, flag]
    cases doubles with
    | true =>
        generalize ucbBufferGrowDouble sizes.alloc incCapacity = answer
        have less_iff : answer < sizes.alloc ↔ answer.toNat < buffer.alloc := by
          rw [UInt64.lt_iff_toNat_lt, allocNat]
        rw [if_pos rfl, if_pos rfl]
        dsimp only
        by_cases less : answer.toNat < buffer.alloc
        · rw [if_pos (less_iff.mpr less), ← resized, allocNat, if_pos less]
        · rw [if_neg (mt less_iff.mp less), ← resized, if_neg less]
    | false =>
        have room : (sizeMax - sizes.alloc).toNat = Container.sizeMax - buffer.alloc := by
          rw [UInt64.toNat_sub_of_le _ _ (UInt64.le_iff_toNat_le.mpr (le_sizeMax _)), allocNat]
          rfl
        have passes_iff : incCapacity ≤ sizeMax - sizes.alloc ↔
            incCapacity.toNat ≤ Container.sizeMax - buffer.alloc := by
          rw [UInt64.le_iff_toNat_le, room]
        rw [if_neg Bool.false_ne_true, if_neg Bool.false_ne_true]
        by_cases passes : incCapacity.toNat ≤ Container.sizeMax - buffer.alloc
        · have sum : (sizes.alloc + incCapacity).toNat = buffer.alloc + incCapacity.toNat := by
            rw [UInt64.toNat_add, allocNat, Nat.mod_eq_of_lt (by omega)]
          rw [decide_eq_true (passes_iff.mpr passes), ucbVerify_true, Exec.ok_bind, ← resized, sum]
          dsimp only
          rw [decide_eq_true passes, ucbVerify_true, Exec.ok_bind]
        · rw [decide_eq_false (mt passes_iff.mp passes)]
          dsimp only
          rw [decide_eq_false passes]
          rfl

/-- Growing never wraps: doubling answers at least the capacity and what is asked for, or
`SIZE_MAX`, and what can be ensured makes the room without tripping the check of the capacity,
exactly where it is there or the resize is granted. -/
theorem growth_never_wraps :
    (∀ alloc sizeNeeded : UInt64, alloc ≤ ucbBufferGrowDouble alloc sizeNeeded ∧
      (alloc.toNat + sizeNeeded.toNat ≤ sizeMax.toNat →
        alloc.toNat + sizeNeeded.toNat ≤ (ucbBufferGrowDouble alloc sizeNeeded).toNat) ∧
      (sizeMax.toNat < alloc.toNat + sizeNeeded.toNat →
        ucbBufferGrowDouble alloc sizeNeeded = sizeMax)) ∧
    (∀ (grants : UInt64 → Bool) (buf : BufferSizes) (size : UInt64), buf.size ≤ buf.alloc →
      buf.resizable = true → ucbBufferCanEnsure buf size = true →
        (∃ after done, ucbBufferEnsure grants buf size = .ok (after, done) ∧
          (done = true → buf.size.toNat + size.toNat ≤ after.alloc.toNat) ∧
          (done = true ↔ RoomGranted grants buf size)) ∧
        (∃ after done, ucbBufferPush grants buf size = .ok (after, done) ∧
          (done = true → after.size.toNat = buf.size.toNat + size.toNat ∧
            after.size ≤ after.alloc) ∧
          (done = true ↔ RoomGranted grants buf size))) := by
  refine ⟨growDouble_spec, fun grants buf size inside resizable can => ⟨?_, ?_⟩⟩
  · obtain ⟨⟨after, done⟩, ensured, room, granted⟩ := ensure_hasRoom inside resizable can
    exact ⟨after, done, ensured, fun success => (room success).2, granted⟩
  · exact push_hasRoom inside resizable can

/-- A full buffer of nearly `SIZE_MAX` bytes that doubles, and five more bytes. -/
theorem growth_never_wraps_large :
    (∃ after done, ucbBufferEnsure (fun _ => true) ⟨sizeMax - 7, sizeMax - 7, true, true⟩ 5 =
        .ok (after, done) ∧
      (done = true → (sizeMax - 7).toNat + (5 : UInt64).toNat ≤ after.alloc.toNat) ∧
      (done = true ↔ RoomGranted (fun _ => true) ⟨sizeMax - 7, sizeMax - 7, true, true⟩ 5)) :=
  (growth_never_wraps.2 (fun _ => true) ⟨sizeMax - 7, sizeMax - 7, true, true⟩ 5 (by decide) rfl
    (by decide)).1

end Ucb.Container.GrowthArithmetic
