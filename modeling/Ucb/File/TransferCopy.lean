import Ucb.File.TransferBuffer

/-!
Contract: `fs_stream_copy` writes exactly the bytes, and with it all bulk transfers.

Owns:
- the bytes of the source are written in order: all of them when the copy succeeds, a beginning of
  them when it fails;
- the loop ends;
- what holds of all bulk transfers together.
-/

namespace Ucb.File

open Ucb.Container

variable {σ : Type} {platform : FilePlatform σ} {stored : σ → List UInt8 → List UInt8}
  {inode : UcbFile → Nat} {view : σ → UcbFile → FileView}

section Behaves

variable (behaves : Behaves platform stored inode view)

include behaves

/-! ## Copying a stream -/

/-- A round of the loop fails to read, finds the end, fails to write the next bytes, or writes
them. -/
theorem streamCopyLoop_cases {input output : UcbFile} (differ : inode input ≠ inode output)
    (fuel : Nat) (sys : σ) :
    (∃ error next, view next output = view sys output ∧
      streamCopyLoop platform input output (fuel + 1) sys = some (.error error, next)) ∨
    ((view sys input).ahead = [] ∧ ∃ next, view next output = view sys output ∧
      streamCopyLoop platform input output (fuel + 1) sys = some (.ok (), next)) ∨
    (∃ error taken next, taken <+: (view sys input).ahead ∧
      (view next output).sent = (view sys output).sent ++ taken ∧
      streamCopyLoop platform input output (fuel + 1) sys = some (.error error, next)) ∨
    ∃ bytes next, 0 < bytes.length ∧ bytes ++ (view next input).ahead = (view sys input).ahead ∧
      (view next output).sent = (view sys output).sent ++ bytes ∧
      streamCopyLoop platform input output (fuel + 1) sys =
        streamCopyLoop platform input output fuel next := by
  rw [streamCopyLoop]
  generalize reads : ucbFileRead platform input ucbFsCopyChunk sys = read
  obtain ⟨got, next⟩ := read
  have outputKept := read_frame behaves differ.symm reads
  cases got with
  | error failure => exact .inl ⟨failure, next, outputKept, rfl⟩
  | ok bytes =>
      obtain ⟨whole, ended⟩ := read_ahead behaves (show 0 < ucbFsCopyChunk by decide) reads
      dsimp only
      by_cases empty : bytes.length = 0
      · exact .inr (.inl ⟨ended empty, next, outputKept, if_pos empty⟩)
      · rw [if_neg empty]
        generalize writes : ucbFileWriteFull platform output bytes next = wrote
        obtain ⟨written, later⟩ := wrote
        obtain ⟨taken, isTaken, sent, complete, frame⟩ := writeFull_sent behaves writes
        rw [outputKept] at sent
        cases written with
        | error failure =>
            refine .inr (.inr (.inl ⟨failure, taken, later, ?_, sent, rfl⟩))
            rw [← whole]
            exact isTaken.trans (List.prefix_append _ _)
        | ok done =>
            obtain rfl := complete rfl
            refine .inr (.inr (.inr ⟨taken, later, Nat.pos_of_ne_zero empty, ?_, sent, rfl⟩))
            rw [frame input differ, whole]

/-- The loop writes the bytes ahead of the input in order, or a beginning of them. -/
theorem streamCopyLoop_sent {input output : UcbFile} (differ : inode input ≠ inode output)
    (fuel : Nat) :
    ∀ {sys : σ} {report after},
      streamCopyLoop platform input output fuel sys = some (report, after) →
      ∃ moved, moved <+: (view sys input).ahead ∧
        (view after output).sent = (view sys output).sent ++ moved ∧
        (report = .ok () → moved = (view sys input).ahead) := by
  induction fuel with
  | zero => exact fun ran => by cases ran
  | succ fuel inductionHypothesis =>
      intro sys report after ran
      rcases streamCopyLoop_cases behaves differ fuel sys with
        ⟨error, next, kept, round⟩ | ⟨ended, next, kept, round⟩ |
          ⟨error, taken, next, isTaken, sent, round⟩ | ⟨bytes, next, -, whole, sent, round⟩
      · obtain ⟨rfl, rfl⟩ := Prod.mk.inj (Option.some.inj (round.symm.trans ran))
        refine ⟨[], List.nil_prefix, ?_, fun impossible => by cases impossible⟩
        rw [kept, List.append_nil]
      · obtain ⟨rfl, rfl⟩ := Prod.mk.inj (Option.some.inj (round.symm.trans ran))
        refine ⟨[], List.nil_prefix, ?_, fun _ => ended.symm⟩
        rw [kept, List.append_nil]
      · obtain ⟨rfl, rfl⟩ := Prod.mk.inj (Option.some.inj (round.symm.trans ran))
        exact ⟨taken, isTaken, sent, fun impossible => by cases impossible⟩
      · obtain ⟨moved, isPrefix, later, complete⟩ := inductionHypothesis (round.symm.trans ran)
        refine ⟨bytes ++ moved, ?_, ?_, fun done => ?_⟩
        · rw [← whole]
          exact (List.prefix_append_right_inj _).mpr isPrefix
        · rw [later, sent, List.append_assoc]
        · rw [complete done, whole]

/-- The loop is not still running after one round more than there are bytes ahead of the input. -/
theorem streamCopyLoop_ends {input output : UcbFile} (differ : inode input ≠ inode output)
    (fuel : Nat) :
    ∀ {sys : σ}, (view sys input).ahead.length < fuel →
      streamCopyLoop platform input output fuel sys ≠ none := by
  induction fuel with
  | zero => exact fun short => absurd short (Nat.not_lt_zero _)
  | succ fuel inductionHypothesis =>
      intro sys enough ran
      rcases streamCopyLoop_cases behaves differ fuel sys with
        ⟨error, next, -, round⟩ | ⟨-, next, -, round⟩ | ⟨error, taken, next, -, -, round⟩ |
          ⟨bytes, next, nonempty, whole, -, round⟩
      · cases round.symm.trans ran
      · cases round.symm.trans ran
      · cases round.symm.trans ran
      · have lengths := congrArg List.length whole
        rw [List.length_append] at lengths
        exact inductionHypothesis (by omega) (round.symm.trans ran)

/-- Whatever `fs_stream_copy` opens are different files, as its callers see to. -/
def OpensApart (platform : FilePlatform σ) (inode : UcbFile → Nat) (src dst : List UInt8)
    (openFlags : OpenFlags) (sys : σ) : Prop :=
  ∀ input opened output begun, platform.openFile src .read sys = (.ok input, opened) →
    platform.openFile dst openFlags opened = (.ok output, begun) → inode input ≠ inode output

/-- With both files open the copy has written all bytes of the source in order, or a beginning of
them when it failed. -/
theorem streamCopy_sent {fuel : Nat} {src dst : List UInt8} {openFlags : OpenFlags}
    {sys opened begun after : σ} {input output : UcbFile} {report : Except UcbError Unit}
    (apart : OpensApart platform inode src dst openFlags sys)
    (openInput : platform.openFile src .read sys = (.ok input, opened))
    (openOutput : platform.openFile dst openFlags opened = (.ok output, begun))
    (ran : fsStreamCopy platform fuel src dst openFlags sys = some (report, after)) :
    (view after output).sent <+: stored sys src ∧
      (report = .ok () → (view after output).sent = stored sys src) := by
  have differ := apart input opened output begun openInput openOutput
  rw [fsStreamCopy, openInput] at ran
  dsimp only at ran
  rw [openOutput] at ran
  obtain ⟨⟨reported, last⟩, loops, outcome⟩ := Option.map_eq_some_iff.mp ran
  obtain ⟨rfl, rfl⟩ := Prod.mk.inj outcome
  obtain ⟨moved, isPrefix, sent, complete⟩ := streamCopyLoop_sent behaves differ fuel loops
  obtain ⟨content, start⟩ := behaves.openRead openInput
  have ahead : (view begun input).ahead = stored sys src := by
    rw [behaves.openFrame openOutput differ, FileView.ahead, start, content, List.drop_zero]
  rw [behaves.openFresh openOutput, List.nil_append] at sent
  rw [ahead] at isPrefix complete
  rw [behaves.freeKeeps, behaves.freeKeeps, sent]
  exact ⟨isPrefix, complete⟩

omit behaves in
/-- The copy succeeds only with both files open. -/
theorem streamCopy_opens {fuel : Nat} {src dst : List UInt8} {openFlags : OpenFlags}
    {sys after : σ}
    (ran : fsStreamCopy platform fuel src dst openFlags sys = some (.ok (), after)) :
    ∃ input opened output begun, platform.openFile src .read sys = (.ok input, opened) ∧
      platform.openFile dst openFlags opened = (.ok output, begun) := by
  rw [fsStreamCopy] at ran
  split at ran
  · cases Option.some.inj ran
  next input opened openInput =>
    split at ran
    · cases Option.some.inj ran
    next output begun openOutput => exact ⟨input, opened, output, begun, openInput, openOutput⟩

theorem streamCopy_ends {fuel : Nat} {src dst : List UInt8} {openFlags : OpenFlags} {sys : σ}
    (apart : OpensApart platform inode src dst openFlags sys)
    (enough : (stored sys src).length < fuel) :
    fsStreamCopy platform fuel src dst openFlags sys ≠ none := by
  intro ran
  rw [fsStreamCopy] at ran
  split at ran
  · cases ran
  next input opened openInput =>
    split at ran
    · cases ran
    next output begun openOutput =>
      have differ := apart input opened output begun openInput openOutput
      obtain ⟨content, start⟩ := behaves.openRead openInput
      refine streamCopyLoop_ends behaves differ fuel ?_ (Option.map_eq_none_iff.mp ran)
      rw [behaves.openFrame openOutput differ, FileView.ahead, start, content, List.drop_zero]
      exact enough

end Behaves

/-! ## All transfers -/

/-- The bulk transfers move exactly the bytes. -/
structure TransfersExactly (platform : FilePlatform σ) (stored : σ → List UInt8 → List UInt8)
    (inode : UcbFile → Nat) (view : σ → UcbFile → FileView) : Prop where
  /-- `ucb_file_write_full` writes its bytes in order: all of them if it succeeds. -/
  writeFull : ∀ {file data sys report after},
    ucbFileWriteFull platform file data sys = (report, after) →
      ∃ moved, moved <+: data ∧ (view after file).sent = (view sys file).sent ++ moved ∧
        (report = .ok () → moved = data)
  /-- `ucb_file_read_full` gets the bytes from the position to the end, all of them if it
  succeeds. -/
  readFull : ∀ {file capacity outSize sys result after},
    ucbFileReadFull platform file capacity outSize sys = (result, after) →
      result.bytes <+: (view sys file).ahead ∧
        (result.report = .ok () → result.bytes = (view sys file).ahead ∧
          result.outSize = (view sys file).ahead.length)
  /-- It succeeds when its calls to tell, seek and read do not fail and the capacity is enough. -/
  readFullSucceeds : ∀ {file capacity outSize sys result after cur last back},
    ucbFileReadFull platform file capacity outSize sys = (result, after) →
      Measured platform file sys cur last back → KeepsReading platform file back →
        (view sys file).ahead.length ≤ capacity →
          result = ⟨(view sys file).ahead, (view sys file).ahead.length, .ok ()⟩
  /-- A capacity that is too small is reported with the size that is needed, and the position is
  the old one. -/
  readFullSmall : ∀ {file capacity outSize sys result after cur last back},
    ucbFileReadFull platform file capacity outSize sys = (result, after) →
      Measured platform file sys cur last back → capacity < (view sys file).ahead.length →
        result = ⟨[], (view sys file).ahead.length,
          .error (readFullTooSmall (view sys file).ahead.length)⟩ ∧
          view after file = view sys file
  /-- `ucb_file_read_buffer` appends the bytes from the position to the end, all of them if it
  succeeds, and always leaves the grow function as it was. -/
  readBuffer : ∀ {allocators file fuel out content sys after report sys'},
    Stores out.buffer content →
      ucbFileReadBuffer platform allocators file fuel out sys =
        .ok (some ((after, report), sys')) →
      after.growFunc = out.growFunc ∧
        ∃ moved, moved <+: (view sys file).ahead ∧ Stores after.buffer (content ++ moved) ∧
          (report = .ok () → moved = (view sys file).ahead)
  /-- Its loop ends. -/
  readBufferEnds : ∀ {file fuel sys} allocators out, (view sys file).ahead.length < fuel →
    ucbFileReadBuffer platform allocators file fuel out sys ≠ .ok none
  /-- It returns where the buffer can grow. -/
  readBufferReturns : ∀ {file fuel out content sys} allocators, Stores out.buffer content →
    out.buffer.resizable = true →
      (∀ grow, out.growFunc = some grow → grow.Suffices) →
        content.length + (view sys file).ahead.length < 2 ^ 64 →
          (view sys file).ahead.length < fuel →
            ∃ ended, ucbFileReadBuffer platform allocators file fuel out sys = .ok (some ended)
  /-- `fs_stream_copy` writes the bytes of the source in order, all of them if it succeeds. -/
  streamCopy : ∀ {fuel src dst openFlags sys report after},
    OpensApart platform inode src dst openFlags sys →
      fsStreamCopy platform fuel src dst openFlags sys = some (report, after) →
        (∀ {input opened output begun}, platform.openFile src .read sys = (.ok input, opened) →
          platform.openFile dst openFlags opened = (.ok output, begun) →
            (view after output).sent <+: stored sys src) ∧
        (report = .ok () → ∃ input opened output begun,
          platform.openFile src .read sys = (.ok input, opened) ∧
            platform.openFile dst openFlags opened = (.ok output, begun) ∧
              (view after output).sent = stored sys src)
  /-- Its loop ends. -/
  streamCopyEnds : ∀ {fuel src dst openFlags sys}, OpensApart platform inode src dst openFlags sys →
    (stored sys src).length < fuel → fsStreamCopy platform fuel src dst openFlags sys ≠ none

/-- On every platform, however short its transfers and wherever they fail. -/
theorem transfers_exactly (behaves : Behaves platform stored inode view) :
    TransfersExactly platform stored inode view where
  writeFull ran := by
    obtain ⟨moved, isPrefix, sent, complete, -⟩ := writeFull_sent behaves ran
    exact ⟨moved, isPrefix, sent, complete⟩
  readFull ran := by
    obtain ⟨isPrefix, complete, -⟩ := readFull_got behaves ran
    exact ⟨isPrefix, complete⟩
  readFullSucceeds ran measured reading roomy := by
    have succeeds := readFull_succeeds behaves measured roomy reading ran
    obtain ⟨bytes, outSize⟩ := (readFull_got behaves ran).2.1 succeeds
    rw [← outSize, ← bytes, ← succeeds]
  readFullSmall ran measured small := (readFull_got behaves ran).2.2 _ _ _ measured small
  readBuffer stores ran := readBuffer_stores behaves stores ran
  readBufferEnds allocators out enough := readBuffer_ends behaves allocators out enough
  readBufferReturns allocators stores resizable roomy fits enough :=
    readBuffer_returns behaves allocators stores resizable roomy fits enough
  streamCopy apart ran := by
    refine ⟨fun openInput openOutput => ?_, fun done => ?_⟩
    · exact (streamCopy_sent behaves apart openInput openOutput ran).1
    · subst done
      obtain ⟨input, opened, output, begun, openInput, openOutput⟩ := streamCopy_opens ran
      have whole := (streamCopy_sent behaves apart openInput openOutput ran).2 rfl
      exact ⟨input, opened, output, begun, openInput, openOutput, whole⟩
  streamCopyEnds apart enough := streamCopy_ends behaves apart enough

/-! ### A platform with short transfers -/

/-- The handle to the file of a path. The files have the lengths of their paths as numbers. -/
def slowFile (path : List UInt8) : UcbFile :=
  ⟨.regular, ⟨true, true, true, false⟩, path.length⟩

/-- Reads of at most three bytes and writes of at most two. -/
def slowPlatform : FilePlatform (Nat → FileView) where
  openFile path flags sys :=
    let content := if flags = .read then (sys path.length).content else []
    (.ok (slowFile path), Function.update sys path.length ⟨content, 0, []⟩)
  freeFile _ sys := sys
  read file size sys :=
    let view := sys file.fd.toNat
    let bytes := view.ahead.take (min size 3)
    (.ok bytes, Function.update sys file.fd.toNat { view with pos := view.pos + bytes.length })
  write file data sys :=
    let view := sys file.fd.toNat
    let taken := data.take 2
    let content := view.content.take view.pos ++ taken ++
      view.content.drop (view.pos + taken.length)
    (.ok taken.length, Function.update sys file.fd.toNat
      ⟨content, view.pos + taken.length, view.sent ++ taken⟩)
  seek file offset whence sys :=
    let view := sys file.fd.toNat
    let target := view.origin whence + offset
    if target < 0 then (.error ⟨.invalidArg, "seek"⟩, sys)
    else (.ok (), Function.update sys file.fd.toNat { view with pos := target.toNat })
  tell file sys := (.ok (sys file.fd.toNat).pos, sys)

theorem slowPlatform_behaves :
    Behaves slowPlatform (fun sys path => (sys path.length).content) (fun file => file.fd.toNat)
      fun sys file => sys file.fd.toNat where
  readOk := by
    intro file size sys bytes after ran
    obtain ⟨outcome, rfl⟩ := Prod.mk.inj ran
    obtain rfl := Except.ok.inj outcome
    refine ⟨?_, List.take_prefix _ _, fun positive empty => ?_, Function.update_self ..⟩
    · rw [List.length_take]
      omega
    · have lengths := congrArg List.length empty
      rw [List.length_take, List.length_nil] at lengths
      exact List.eq_nil_of_length_eq_zero (by omega)
  readFrame := by
    intro file size sys report after other ran differ
    rw [← (Prod.mk.inj ran).2]
    exact Function.update_of_ne differ _ _
  writeOk := by
    intro file data sys n after ran
    obtain ⟨outcome, rfl⟩ := Prod.mk.inj ran
    obtain rfl := Except.ok.inj outcome
    refine ⟨List.length_take_le' _ _, ?_⟩
    rw [Function.update_self]
    exact congrArg _ (List.prefix_iff_eq_take.mp (List.take_prefix 2 data))
  writeFailed := by
    intro file data sys error after ran
    cases (Prod.mk.inj ran).1
  writeFrame := by
    intro file data sys report after other ran differ
    rw [← (Prod.mk.inj ran).2]
    exact Function.update_of_ne differ _ _
  seekOk := by
    intro file offset whence sys after ran
    rw [slowPlatform] at ran
    dsimp only at ran
    split at ran
    · cases (Prod.mk.inj ran).1
    · rw [← (Prod.mk.inj ran).2, Function.update_self]
      exact ⟨_, Int.toNat_of_nonneg (by omega), rfl⟩
  tellOk := by
    intro file sys pos after ran
    obtain ⟨outcome, rfl⟩ := Prod.mk.inj ran
    exact ⟨(Except.ok.inj outcome).symm, rfl⟩
  openRead := by
    intro path sys file after ran
    obtain ⟨outcome, rfl⟩ := Prod.mk.inj ran
    obtain rfl := Except.ok.inj outcome
    rw [slowFile, Int.toNat_natCast, Function.update_self]
    exact ⟨rfl, rfl⟩
  openFresh := by
    intro path flags sys file after ran
    obtain ⟨outcome, rfl⟩ := Prod.mk.inj ran
    obtain rfl := Except.ok.inj outcome
    rw [slowFile, Int.toNat_natCast, Function.update_self]
  openFrame := by
    intro path flags sys file after other ran differ
    obtain ⟨outcome, rfl⟩ := Prod.mk.inj ran
    obtain rfl := Except.ok.inj outcome
    exact Function.update_of_ne differ _ _
  freeKeeps _ _ := rfl

theorem transfers_exactly_slow :
    TransfersExactly slowPlatform (fun sys path => (sys path.length).content)
      (fun file => file.fd.toNat) fun sys file => sys file.fd.toNat :=
  transfers_exactly slowPlatform_behaves

end Ucb.File
