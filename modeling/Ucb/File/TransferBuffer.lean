import Ucb.File.TransferExact
import Ucb.Unicode.EncodeChunks

/-!
Contract: `ucb_file_read_buffer` appends exactly the bytes.

Owns:
- the bytes from the position to the end are appended in order: all of them when it succeeds, a
  beginning of them when it fails;
- the grow function is left as it was;
- the loop ends, and it returns where the buffer can grow.
-/

namespace Ucb.File

open Ucb.Container

variable {σ : Type} {platform : FilePlatform σ} {stored : σ → List UInt8 → List UInt8}
  {inode : UcbFile → Nat} {view : σ → UcbFile → FileView}

section Behaves

variable (behaves : Behaves platform stored inode view)

include behaves

/-! ## Reading into a buffer -/

omit behaves in
/-- A push appends, keeps what is stored when it fails, and never changes the grow function. -/
theorem growingPush_stores {allocators : Nat → Allocator} {buf after : GrowingBuffer}
    {content data : List UInt8} {pushed : Bool} (stores : Stores buf.buffer content)
    (ran : growingPush allocators buf data = .ok (after, pushed)) :
    Stores after.buffer (if pushed then content ++ data else content) ∧
      after.growFunc = buf.growFunc := by
  obtain ⟨⟨buffer, pushedThere⟩, pushes, ran⟩ := Exec.bind_eq_ok.mp ran
  obtain ⟨rfl, rfl⟩ := Prod.mk.inj (Exec.ok.inj ran)
  exact ⟨Unicode.push_stores stores pushes, rfl⟩

/-- A round of the loop fails, finds the end, or pushes the next bytes. -/
theorem readBufferLoop_cases (allocators : Nat → Allocator) (file : UcbFile) (fuel : Nat)
    (out : GrowingBuffer) (sys : σ) :
    (∃ error next, readBufferLoop platform allocators file (fuel + 1) out sys =
      .ok (some ((out, .error error), next))) ∨
    ((view sys file).ahead = [] ∧ ∃ next,
      readBufferLoop platform allocators file (fuel + 1) out sys =
        .ok (some ((out, .ok ()), next))) ∨
    ∃ bytes next, 0 < bytes.length ∧ bytes ++ (view next file).ahead = (view sys file).ahead ∧
      readBufferLoop platform allocators file (fuel + 1) out sys =
        (growingPush allocators out bytes >>= fun pushed =>
          if pushed.2 then readBufferLoop platform allocators file fuel pushed.1 next
          else .ok (some ((pushed.1, .error readBufferGrowFailure), next))) := by
  rw [readBufferLoop]
  generalize reads : ucbFileRead platform file ucbFileReadChunk sys = read
  obtain ⟨got, next⟩ := read
  cases got with
  | error failure => exact .inl ⟨failure, next, rfl⟩
  | ok bytes =>
      obtain ⟨whole, ended⟩ := read_ahead behaves (show 0 < ucbFileReadChunk by decide) reads
      by_cases empty : bytes.length = 0
      · exact .inr (.inl ⟨ended empty, next, if_pos empty⟩)
      · exact .inr (.inr ⟨bytes, next, Nat.pos_of_ne_zero empty, whole, if_neg empty⟩)

/-- The loop appends the bytes ahead in order, or a beginning of them. -/
theorem readBufferLoop_stores (allocators : Nat → Allocator) (file : UcbFile) (fuel : Nat) :
    ∀ {out : GrowingBuffer} {content : List UInt8} {sys : σ} {after report sys'},
      Stores out.buffer content →
      readBufferLoop platform allocators file fuel out sys =
        .ok (some ((after, report), sys')) →
      ∃ moved, moved <+: (view sys file).ahead ∧ Stores after.buffer (content ++ moved) ∧
        (report = .ok () → moved = (view sys file).ahead) := by
  induction fuel with
  | zero => exact fun _ ran => by cases Exec.ok.inj ran
  | succ fuel inductionHypothesis =>
      intro out content sys after report sys' stores ran
      rcases readBufferLoop_cases behaves allocators file fuel out sys with
        ⟨error, next, round⟩ | ⟨ended, next, round⟩ | ⟨bytes, next, -, whole, round⟩
      · obtain ⟨outcome, -⟩ := Prod.mk.inj (Option.some.inj (Exec.ok.inj (round.symm.trans ran)))
        obtain ⟨rfl, rfl⟩ := Prod.mk.inj outcome
        exact ⟨[], List.nil_prefix, by rwa [List.append_nil], fun impossible => by cases impossible⟩
      · obtain ⟨outcome, -⟩ := Prod.mk.inj (Option.some.inj (Exec.ok.inj (round.symm.trans ran)))
        obtain ⟨rfl, rfl⟩ := Prod.mk.inj outcome
        exact ⟨[], List.nil_prefix, by rwa [List.append_nil], fun _ => ended.symm⟩
      · obtain ⟨⟨grown, pushed⟩, pushes, later⟩ := Exec.bind_eq_ok.mp (round.symm.trans ran)
        obtain ⟨stores', -⟩ := growingPush_stores stores pushes
        cases pushed with
        | false =>
            obtain ⟨outcome, -⟩ := Prod.mk.inj (Option.some.inj (Exec.ok.inj later))
            obtain ⟨rfl, rfl⟩ := Prod.mk.inj outcome
            refine ⟨[], List.nil_prefix, ?_, fun impossible => by cases impossible⟩
            rw [List.append_nil]
            exact stores'
        | true =>
            obtain ⟨moved, isPrefix, stored, complete⟩ := inductionHypothesis stores' later
            refine ⟨bytes ++ moved, ?_, ?_, fun done => ?_⟩
            · rw [← whole]
              exact (List.prefix_append_right_inj _).mpr isPrefix
            · rwa [← List.append_assoc]
            · rw [complete done, whole]

/-- The loop is not still running after one round more than there are bytes ahead. -/
theorem readBufferLoop_ends (allocators : Nat → Allocator) (file : UcbFile) (fuel : Nat) :
    ∀ {out : GrowingBuffer} {sys : σ}, (view sys file).ahead.length < fuel →
      readBufferLoop platform allocators file fuel out sys ≠ .ok none := by
  induction fuel with
  | zero => exact fun short => absurd short (Nat.not_lt_zero _)
  | succ fuel inductionHypothesis =>
      intro out sys enough ran
      rcases readBufferLoop_cases behaves allocators file fuel out sys with
        ⟨error, next, round⟩ | ⟨-, next, round⟩ | ⟨bytes, next, nonempty, whole, round⟩
      · cases Exec.ok.inj (round.symm.trans ran)
      · cases Exec.ok.inj (round.symm.trans ran)
      · obtain ⟨⟨grown, pushed⟩, -, later⟩ := Exec.bind_eq_ok.mp (round.symm.trans ran)
        cases pushed with
        | false => cases Exec.ok.inj later
        | true =>
            have lengths := congrArg List.length whole
            rw [List.length_append] at lengths
            exact inductionHypothesis (by omega) later

/-! ### The runs that end -/

/-- A grow function that answers with the room it is asked for, where that can be represented. -/
def GrowFunc.Suffices (grow : GrowFunc) : Prop :=
  ∀ n buf needed, buf.alloc + needed.toNat < 2 ^ 64 →
    buf.alloc + needed.toNat ≤ (grow n buf needed).toNat

omit behaves in
/-- `ucb_buffer_grow_double` does. -/
theorem growDouble_suffices : growDouble.Suffices := by
  intro n buf needed fits
  have alloc : (UInt64.ofNat buf.alloc).toNat = buf.alloc :=
    UInt64.toNat_ofNat_of_lt' (Nat.lt_of_le_of_lt (Nat.le_add_right _ _) fits)
  obtain ⟨-, room, -⟩ := GrowthArithmetic.growDouble_spec (.ofNat buf.alloc) needed
  rw [alloc, GrowthArithmetic.sizeMax_toNat] at room
  exact room (by omega)

omit behaves in
/-- A push does not change whether the buffer can be resized. -/
theorem push_resizable {env : Surroundings} {buf after : ByteBuffer} {data : List UInt8}
    {pushed : Bool} (ran : Container.ucbBufferPush env buf data = .ok (after, pushed)) :
    after.resizable = buf.resizable := by
  have grown_keeps : ∀ {incCapacity grown done},
      Container.ucbBufferGrow env buf incCapacity = .ok (grown, done) →
        grown.resizable = buf.resizable := by
    intro incCapacity grown done grew
    rw [Container.ucbBufferGrow] at grew
    split at grew
    · exact GrowthArithmetic.resize_resizable grew
    · obtain ⟨_, -, grew⟩ := Exec.bind_eq_ok.mp grew
      exact GrowthArithmetic.resize_resizable grew
  rw [Container.ucbBufferPush] at ran
  split at ran
  · obtain ⟨⟨grown, success⟩, ensured, ran⟩ := Exec.bind_eq_ok.mp ran
    have kept : grown.resizable = buf.resizable := by
      rw [Container.ucbBufferEnsure] at ensured
      split at ensured
      · rw [← (Prod.mk.inj (Exec.ok.inj ensured)).1]
      · exact grown_keeps ensured
    cases success with
    | true =>
        obtain ⟨written, -, ran⟩ := Exec.bind_eq_ok.mp ran
        rw [← (Prod.mk.inj (Exec.ok.inj ran)).1]
        exact kept
    | false =>
        rw [← (Prod.mk.inj (Exec.ok.inj ran)).1]
        exact kept
  · rw [← (Prod.mk.inj (Exec.ok.inj ran)).1]

/-- A buffer that can be resized and has a grow function that suffices. -/
structure Grows (buf : GrowingBuffer) : Prop where
  resizable : buf.buffer.resizable = true
  roomy : ∃ grow, buf.growFunc = some grow ∧ grow.Suffices

omit behaves in
/-- Such a buffer takes or refuses what can be represented. -/
theorem growingPush_returns (allocators : Nat → Allocator) {buf : GrowingBuffer}
    {content data : List UInt8} (stores : Stores buf.buffer content) (grows : Grows buf)
    (fits : content.length + data.length < 2 ^ 64) :
    ∃ after pushed, growingPush allocators buf data = .ok (after, pushed) ∧ Grows after := by
  obtain ⟨grow, set, roomy⟩ := grows.roomy
  have inside := stores.inside
  have size := stores.size
  have room : RoomFor (buf.meets allocators data) buf.buffer data.length := by
    intro more _ answer given
    rw [GrowingBuffer.meets, set] at given
    obtain rfl := Option.some.inj given
    have needed : (UInt64.ofNat (data.length - (buf.buffer.alloc - buf.buffer.size))).toNat =
        data.length - (buf.buffer.alloc - buf.buffer.size) :=
      UInt64.toNat_ofNat_of_lt'
        (Nat.lt_of_le_of_lt (Nat.sub_le _ _) (Nat.lt_of_le_of_lt (Nat.le_add_left _ _) fits))
    have answered := roomy buf.pushes buf.buffer
      (.ofNat (data.length - (buf.buffer.alloc - buf.buffer.size))) (by omega)
    dsimp only
    exact .inl (by omega)
  have permitted : ucbBufferCanEnsure buf.buffer data.length = true := by
    have most : Container.sizeMax = 2 ^ 64 - 1 := rfl
    rw [ucbBufferCanEnsure, grows.resizable]
    split
    · rfl
    · exact decide_eq_true (by omega)
  have right := (right_push stores (buf.meets allocators data) data).mpr room
  rw [Right, bufferStep] at right
  dsimp only at right
  generalize ran : Container.ucbBufferPush (buf.meets allocators data) buf.buffer data = outcome
    at right
  cases outcome with
  | ok outcome =>
      refine ⟨⟨outcome.1, buf.growFunc, buf.pushes + 1⟩, outcome.2, ?_, ?_, grow, set, roomy⟩
      · rw [growingPush, ran]
        rfl
      · exact (push_resizable ran).trans grows.resizable
  | abort code => exact absurd permitted right
  | undefined => exact right.elim

theorem readBufferLoop_returns (allocators : Nat → Allocator) (file : UcbFile) (fuel : Nat) :
    ∀ {out : GrowingBuffer} {content : List UInt8} {sys : σ}, Stores out.buffer content →
      Grows out → content.length + (view sys file).ahead.length < 2 ^ 64 →
      (view sys file).ahead.length < fuel →
      ∃ ended, readBufferLoop platform allocators file fuel out sys = .ok (some ended) := by
  induction fuel with
  | zero => exact fun _ _ _ short => absurd short (Nat.not_lt_zero _)
  | succ fuel inductionHypothesis =>
      intro out content sys stores grows fits enough
      rcases readBufferLoop_cases behaves allocators file fuel out sys with
        ⟨error, next, round⟩ | ⟨-, next, round⟩ | ⟨bytes, next, nonempty, whole, round⟩
      · exact ⟨_, round⟩
      · exact ⟨_, round⟩
      · have lengths := congrArg List.length whole
        rw [List.length_append] at lengths
        obtain ⟨grown, pushed, pushes, grows'⟩ := growingPush_returns allocators stores grows
          (show content.length + bytes.length < 2 ^ 64 by omega)
        obtain ⟨stores', -⟩ := growingPush_stores stores pushes
        rw [round, pushes]
        cases pushed with
        | false => exact ⟨_, rfl⟩
        | true =>
            refine inductionHypothesis stores' grows' ?_ (by omega)
            rw [if_pos rfl, List.length_append]
            omega

/-- `ucb_file_read_buffer` appends all bytes ahead in order, or a beginning of them when it fails,
and leaves the grow function as it was. -/
theorem readBuffer_stores {allocators : Nat → Allocator} {file : UcbFile} {fuel : Nat}
    {out after : GrowingBuffer} {content : List UInt8} {sys sys' : σ}
    {report : Except UcbError Unit} (stores : Stores out.buffer content)
    (ran : ucbFileReadBuffer platform allocators file fuel out sys =
      .ok (some ((after, report), sys'))) :
    after.growFunc = out.growFunc ∧
      ∃ moved, moved <+: (view sys file).ahead ∧ Stores after.buffer (content ++ moved) ∧
        (report = .ok () → moved = (view sys file).ahead) := by
  obtain ⟨ended, loops, ran⟩ := Exec.bind_eq_ok.mp ran
  obtain ⟨⟨⟨left, reported⟩, last⟩, rfl, outcome⟩ := Option.map_eq_some_iff.mp (Exec.ok.inj ran)
  obtain ⟨results, rfl⟩ := Prod.mk.inj outcome
  obtain ⟨rfl, rfl⟩ := Prod.mk.inj results
  have begun : Stores (if out.growFunc.isNone then { out with growFunc := some growDouble }
      else out).buffer content := by
    split
    · exact stores
    · exact stores
  obtain ⟨moved, isPrefix, stored, complete⟩ :=
    readBufferLoop_stores behaves allocators file fuel begun loops
  exact ⟨rfl, moved, isPrefix, stored, complete⟩

/-- `ucb_file_read_buffer` does not run forever. -/
theorem readBuffer_ends (allocators : Nat → Allocator) {file : UcbFile} {fuel : Nat}
    (out : GrowingBuffer) {sys : σ} (enough : (view sys file).ahead.length < fuel) :
    ucbFileReadBuffer platform allocators file fuel out sys ≠ .ok none := by
  intro ran
  obtain ⟨ended, loops, ran⟩ := Exec.bind_eq_ok.mp ran
  rw [Option.map_eq_none_iff.mp (Exec.ok.inj ran)] at loops
  exact readBufferLoop_ends behaves allocators file fuel enough loops

/-- `ucb_file_read_buffer` returns when the buffer can be resized, the caller has set no grow
function that answers with too little, and all bytes together can be counted. -/
theorem readBuffer_returns (allocators : Nat → Allocator) {file : UcbFile} {fuel : Nat}
    {out : GrowingBuffer} {content : List UInt8} {sys : σ} (stores : Stores out.buffer content)
    (resizable : out.buffer.resizable = true)
    (roomy : ∀ grow, out.growFunc = some grow → grow.Suffices)
    (fits : content.length + (view sys file).ahead.length < 2 ^ 64)
    (enough : (view sys file).ahead.length < fuel) :
    ∃ ended, ucbFileReadBuffer platform allocators file fuel out sys = .ok (some ended) := by
  rw [ucbFileReadBuffer]
  cases set : out.growFunc with
  | none =>
      have begun : Grows { out with growFunc := some growDouble } :=
        ⟨resizable, growDouble, rfl, growDouble_suffices⟩
      obtain ⟨ended, loops⟩ :=
        readBufferLoop_returns behaves allocators file fuel
          (show Stores ({ out with growFunc := some growDouble } : GrowingBuffer).buffer content
            from stores) begun fits enough
      dsimp only [Option.isNone]
      rw [if_pos rfl, loops]
      exact ⟨_, rfl⟩
  | some grow =>
      obtain ⟨ended, loops⟩ := readBufferLoop_returns behaves allocators file fuel stores
        ⟨resizable, grow, set, roomy grow set⟩ fits enough
      dsimp only [Option.isNone]
      rw [if_neg Bool.false_ne_true, loops]
      exact ⟨_, rfl⟩

end Behaves

end Ucb.File
