import Mathlib.Logic.Relation
import Ucb.File.Transfer

/-!
Contract: what the platform's files do, and the transfers of known size.

Owns:
- what the platform's files look like through a handle, and what its calls do to that, however short
  the transfers and wherever they fail;
- `ucb_file_write_full` writes its bytes in order: all of them when it succeeds, a beginning of them
  when it fails;
- `ucb_file_read_full` gets the bytes from the position to the end, all of them if no call fails,
  and reports how many there are when they do not fit.

A write is only known to have taken the bytes it reports. A failed read may leave the position
anywhere, and a failed write may have taken some of its bytes.
-/

namespace Ucb.File

/-! ## The platform -/

/-- What a handle shows: the bytes of its file, the position, and the bytes that were written
through it. -/
structure FileView where
  content : List UInt8
  pos : Nat
  sent : List UInt8

/-- The bytes from the position to the end. -/
def FileView.ahead (view : FileView) : List UInt8 :=
  view.content.drop view.pos

def FileView.origin (view : FileView) : UcbFileWhence → Int
  | .set => 0
  | .cur => view.pos
  | .fromEnd => view.content.length

variable {σ : Type} {platform : FilePlatform σ} {stored : σ → List UInt8 → List UInt8}
  {inode : UcbFile → Nat} {view : σ → UcbFile → FileView}

/-- The platform's calls. A read gives a beginning of what is ahead, and nothing only at the end; a
write takes a beginning of what it is given; both may be short, and any call may fail. Calls on one
file do not touch the others. -/
structure Behaves (platform : FilePlatform σ) (stored : σ → List UInt8 → List UInt8)
    (inode : UcbFile → Nat) (view : σ → UcbFile → FileView) : Prop where
  readOk : ∀ {file size sys bytes after}, platform.read file size sys = (.ok bytes, after) →
    bytes.length ≤ size ∧ bytes <+: (view sys file).ahead ∧
      (0 < size → bytes = [] → (view sys file).ahead = []) ∧
        view after file = { view sys file with pos := (view sys file).pos + bytes.length }
  readFrame : ∀ {file size sys report after other}, platform.read file size sys = (report, after) →
    inode other ≠ inode file → view after other = view sys other
  writeOk : ∀ {file data sys n after}, platform.write file data sys = (.ok n, after) →
    n ≤ data.length ∧ (view after file).sent = (view sys file).sent ++ data.take n
  writeFailed : ∀ {file data sys error after},
    platform.write file data sys = (.error error, after) →
      ∃ n, (view after file).sent = (view sys file).sent ++ data.take n
  writeFrame : ∀ {file data sys report after other},
    platform.write file data sys = (report, after) → inode other ≠ inode file →
      view after other = view sys other
  seekOk : ∀ {file offset whence sys after},
    platform.seek file offset whence sys = (.ok (), after) →
      ∃ pos : Nat, (pos : Int) = (view sys file).origin whence + offset ∧
        view after file = { view sys file with pos := pos }
  tellOk : ∀ {file sys pos after}, platform.tell file sys = (.ok pos, after) →
    pos = (view sys file).pos ∧ view after file = view sys file
  openRead : ∀ {path sys file after}, platform.openFile path .read sys = (.ok file, after) →
    (view after file).content = stored sys path ∧ (view after file).pos = 0
  openFresh : ∀ {path flags sys file after}, platform.openFile path flags sys = (.ok file, after) →
    (view after file).sent = []
  openFrame : ∀ {path flags sys file after other},
    platform.openFile path flags sys = (.ok file, after) → inode other ≠ inode file →
      view after other = view sys other
  freeKeeps : ∀ file sys, view (platform.freeFile file sys) = view sys

def ReadStep (platform : FilePlatform σ) (file : UcbFile) (before after : σ) : Prop :=
  ∃ size bytes, platform.read file size before = (.ok bytes, after)

/-- No read of the file fails from here on. -/
def KeepsReading (platform : FilePlatform σ) (file : UcbFile) (sys : σ) : Prop :=
  ∀ mid, Relation.ReflTransGen (ReadStep platform file) sys mid →
    ∀ size error, (platform.read file size mid).1 ≠ .error error

theorem KeepsReading.next {file : UcbFile} {size : Nat} {bytes : List UInt8} {sys after : σ}
    (reading : KeepsReading platform file sys)
    (read : platform.read file size sys = (.ok bytes, after)) :
    KeepsReading platform file after :=
  fun mid reached => reading mid (reached.head ⟨size, bytes, read⟩)

section Behaves

variable (behaves : Behaves platform stored inode view)

/-! ## Single calls -/

include behaves

omit behaves in
/-- A read that does not reach the platform leaves the system alone, and gets nothing. -/
theorem read_cases {file : UcbFile} {size : Nat} {sys after : σ}
    {report : Except UcbError (List UInt8)}
    (ran : ucbFileRead platform file size sys = (report, after)) :
    (after = sys ∧ ((size = 0 ∧ report = .ok []) ∨ ∃ error, report = .error error)) ∨
      platform.read file size sys = (report, after) := by
  rw [ucbFileRead] at ran
  split at ran
  next empty =>
    obtain ⟨rfl, rfl⟩ := Prod.mk.inj ran
    exact .inl ⟨rfl, .inl ⟨empty, rfl⟩⟩
  next =>
    split at ran
    · obtain ⟨rfl, rfl⟩ := Prod.mk.inj ran
      exact .inl ⟨rfl, .inr ⟨_, rfl⟩⟩
    · split at ran
      · obtain ⟨rfl, rfl⟩ := Prod.mk.inj ran
        exact .inl ⟨rfl, .inr ⟨_, rfl⟩⟩
      · exact .inr ran

omit behaves in
/-- A write that does not reach the platform leaves the system alone, and takes nothing. -/
theorem write_cases {file : UcbFile} {data : List UInt8} {sys after : σ}
    {report : Except UcbError Nat} (ran : ucbFileWrite platform file data sys = (report, after)) :
    (after = sys ∧ (report = .ok 0 ∨ ∃ error, report = .error error)) ∨
      platform.write file data sys = (report, after) := by
  rw [ucbFileWrite] at ran
  split at ran
  · obtain ⟨rfl, rfl⟩ := Prod.mk.inj ran
    exact .inl ⟨rfl, .inl rfl⟩
  · split at ran
    · obtain ⟨rfl, rfl⟩ := Prod.mk.inj ran
      exact .inl ⟨rfl, .inr ⟨_, rfl⟩⟩
    · split at ran
      · obtain ⟨rfl, rfl⟩ := Prod.mk.inj ran
        exact .inl ⟨rfl, .inr ⟨_, rfl⟩⟩
      · exact .inr ran

/-- A read takes the next bytes, and none only at the end. -/
theorem read_ahead {file : UcbFile} {size : Nat} {sys after : σ} {bytes : List UInt8}
    (positive : 0 < size) (ran : ucbFileRead platform file size sys = (.ok bytes, after)) :
    bytes ++ (view after file).ahead = (view sys file).ahead ∧
      (bytes.length = 0 → (view sys file).ahead = []) := by
  rcases read_cases ran with ⟨-, ⟨zero, -⟩ | ⟨error, impossible⟩⟩ | reads
  · exact absurd zero (Nat.ne_of_gt positive)
  · cases impossible
  · obtain ⟨-, isPrefix, ended, moved⟩ := behaves.readOk reads
    refine ⟨?_, fun empty => ended positive (List.eq_nil_of_length_eq_zero empty)⟩
    have whole := List.prefix_iff_eq_append.mp isPrefix
    rw [FileView.ahead, List.drop_drop] at whole
    rw [moved]
    exact whole

theorem read_frame {file other : UcbFile} {size : Nat} {sys after : σ}
    {report : Except UcbError (List UInt8)} (differ : inode other ≠ inode file)
    (ran : ucbFileRead platform file size sys = (report, after)) :
    view after other = view sys other := by
  rcases read_cases ran with ⟨rfl, -⟩ | reads
  · rfl
  · exact behaves.readFrame reads differ

/-- A write takes a beginning of the bytes: as many as it reports if it succeeds. -/
theorem write_sent {file : UcbFile} {data : List UInt8} {sys after : σ}
    {report : Except UcbError Nat} (ran : ucbFileWrite platform file data sys = (report, after)) :
    ∃ n, (view after file).sent = (view sys file).sent ++ data.take n ∧
      ∀ m, report = .ok m → m = n ∧ n ≤ data.length := by
  rcases write_cases ran with ⟨rfl, rfl | ⟨error, rfl⟩⟩ | writes
  · refine ⟨0, (List.append_nil _).symm, fun m same => ?_⟩
    exact ⟨(Except.ok.inj same).symm, Nat.zero_le _⟩
  · exact ⟨0, (List.append_nil _).symm, fun m impossible => by cases impossible⟩
  · cases report with
    | error failure =>
        obtain ⟨n, sent⟩ := behaves.writeFailed writes
        exact ⟨n, sent, fun m impossible => by cases impossible⟩
    | ok n =>
        obtain ⟨inside, sent⟩ := behaves.writeOk writes
        exact ⟨n, sent, fun m same => ⟨(Except.ok.inj same).symm, inside⟩⟩

theorem write_frame {file other : UcbFile} {data : List UInt8} {sys after : σ}
    {report : Except UcbError Nat} (differ : inode other ≠ inode file)
    (ran : ucbFileWrite platform file data sys = (report, after)) :
    view after other = view sys other := by
  rcases write_cases ran with ⟨rfl, -⟩ | writes
  · rfl
  · exact behaves.writeFrame writes differ

theorem seek_view {file : UcbFile} {offset : Int} {whence : UcbFileWhence} {sys after : σ}
    (ran : ucbFileSeek platform file offset whence sys = (.ok (), after)) :
    ∃ pos : Nat, (pos : Int) = (view sys file).origin whence + offset ∧
      view after file = { view sys file with pos := pos } := by
  rw [ucbFileSeek] at ran
  split at ran
  · cases ran
  · split at ran
    · cases ran
    · exact behaves.seekOk ran

theorem tell_view {file : UcbFile} {sys after : σ} {pos : Int}
    (ran : ucbFileTell platform file sys = (.ok pos, after)) :
    pos = (view sys file).pos ∧ view after file = view sys file := by
  rw [ucbFileTell] at ran
  split at ran
  · cases ran
  · split at ran
    · cases ran
    · exact behaves.tellOk ran

/-! ## Writing everything -/

/-- The loop takes the rest of the bytes, or a beginning of it. -/
theorem writeFullLoop_sent (file : UcbFile) (data : List UInt8) (written : Nat) (sys : σ) :
    ∀ {report after}, writeFullLoop platform file data written sys = (report, after) →
      ∃ more, more <+: data.drop written ∧
        (view after file).sent = (view sys file).sent ++ more ∧
        (report = .ok () → more = data.drop written) ∧
        ∀ other, inode other ≠ inode file → view after other = view sys other := by
  induction written, sys using writeFullLoop.induct platform file data with
  | case1 written sys inside error next wrote =>
      intro report after ran
      rw [writeFullLoop, if_pos inside, wrote] at ran
      obtain ⟨rfl, rfl⟩ := Prod.mk.inj ran
      obtain ⟨n, sent, -⟩ := write_sent behaves wrote
      exact ⟨_, List.take_prefix n _, sent, fun impossible => (by cases impossible),
        fun other differ => write_frame behaves differ wrote⟩
  | case2 written sys inside next wrote =>
      intro report after ran
      rw [writeFullLoop, if_pos inside, wrote] at ran
      dsimp only at ran
      rw [if_pos rfl] at ran
      obtain ⟨rfl, rfl⟩ := Prod.mk.inj ran
      obtain ⟨n, sent, -⟩ := write_sent behaves wrote
      exact ⟨_, List.take_prefix n _, sent, fun impossible => (by cases impossible),
        fun other differ => write_frame behaves differ wrote⟩
  | case3 written sys inside n next wrote nonzero inductionHypothesis =>
      intro report after ran
      rw [writeFullLoop, if_pos inside, wrote] at ran
      dsimp only at ran
      rw [if_neg nonzero] at ran
      obtain ⟨taken, sent, counted⟩ := write_sent behaves wrote
      obtain ⟨rfl, -⟩ := counted n rfl
      obtain ⟨more, isPrefix, later, complete, frame⟩ := inductionHypothesis ran
      have whole := List.take_append_drop n (data.drop written)
      rw [List.drop_drop] at whole
      refine ⟨(data.drop written).take n ++ more, ?_, ?_, fun done => ?_, fun other differ => ?_⟩
      · rw [← whole, List.take_left' (by rw [List.length_take, Nat.min_eq_left (counted n rfl).2])]
        exact (List.prefix_append_right_inj _).mpr isPrefix
      · rw [later, sent, List.append_assoc]
      · rw [complete done, whole]
      · rw [frame other differ, write_frame behaves differ wrote]
  | case4 written sys outside =>
      intro report after ran
      rw [writeFullLoop, if_neg outside] at ran
      obtain ⟨rfl, rfl⟩ := Prod.mk.inj ran
      refine ⟨[], List.nil_prefix, (List.append_nil _).symm, fun _ => ?_, fun other differ => rfl⟩
      exact (List.drop_eq_nil_of_le (Nat.le_of_not_lt outside)).symm

/-- `ucb_file_write_full` takes all bytes in order, or a beginning of them when it fails. -/
theorem writeFull_sent {file : UcbFile} {data : List UInt8} {sys after : σ}
    {report : Except UcbError Unit}
    (ran : ucbFileWriteFull platform file data sys = (report, after)) :
    ∃ moved, moved <+: data ∧ (view after file).sent = (view sys file).sent ++ moved ∧
      (report = .ok () → moved = data) ∧
      ∀ other, inode other ≠ inode file → view after other = view sys other := by
  rw [ucbFileWriteFull] at ran
  split at ran
  next empty =>
    obtain ⟨rfl, rfl⟩ := Prod.mk.inj ran
    obtain rfl := List.eq_nil_of_length_eq_zero empty
    exact ⟨[], List.nil_prefix, (List.append_nil _).symm, fun _ => rfl, fun _ _ => rfl⟩
  next =>
    have moved := writeFullLoop_sent behaves file data 0 sys ran
    rwa [List.drop_zero] at moved

/-! ## Reading to a measured end -/

/-- The loop gets the next bytes. If as many as measured are ahead, it gets all of them unless a
read fails. -/
theorem readFullLoop_got (file : UcbFile) (remaining : Nat) (got : List UInt8) (sys : σ) :
    ∀ {out report after},
      readFullLoop platform file remaining got sys = ((out, report), after) →
      ∃ more, out = got ++ more ∧ more <+: (view sys file).ahead ∧
        (report = .ok () → got.length + (view sys file).ahead.length = remaining →
          more = (view sys file).ahead) := by
  induction got, sys using readFullLoop.induct platform file remaining with
  | case1 got sys inside error next read =>
      intro out report after ran
      rw [readFullLoop, if_pos inside, read] at ran
      obtain ⟨outcome, rfl⟩ := Prod.mk.inj ran
      obtain ⟨rfl, rfl⟩ := Prod.mk.inj outcome
      exact ⟨[], (List.append_nil _).symm, List.nil_prefix, fun impossible => by cases impossible⟩
  | case2 got sys inside bytes next read ended =>
      intro out report after ran
      rw [readFullLoop, if_pos inside, read] at ran
      dsimp only at ran
      rw [dif_pos ended] at ran
      obtain ⟨outcome, rfl⟩ := Prod.mk.inj ran
      obtain ⟨rfl, rfl⟩ := Prod.mk.inj outcome
      obtain ⟨-, atEnd⟩ := read_ahead behaves (Nat.sub_pos_of_lt inside) read
      refine ⟨[], (List.append_nil _).symm, List.nil_prefix, fun _ _ => (atEnd ended).symm⟩
  | case3 got sys inside bytes next read nonempty inductionHypothesis =>
      intro out report after ran
      rw [readFullLoop, if_pos inside, read] at ran
      dsimp only at ran
      rw [dif_neg nonempty] at ran
      obtain ⟨whole, -⟩ := read_ahead behaves (Nat.sub_pos_of_lt inside) read
      obtain ⟨more, rfl, isPrefix, complete⟩ := inductionHypothesis ran
      refine ⟨bytes ++ more, List.append_assoc _ _ _, ?_, fun done measured => ?_⟩
      · rw [← whole]
        exact (List.prefix_append_right_inj _).mpr isPrefix
      · rw [← whole, List.length_append] at measured
        rw [complete done (by rw [List.length_append]; omega), whole]
  | case4 got sys outside =>
      intro out report after ran
      rw [readFullLoop, if_neg outside] at ran
      obtain ⟨outcome, rfl⟩ := Prod.mk.inj ran
      obtain ⟨rfl, rfl⟩ := Prod.mk.inj outcome
      refine ⟨[], (List.append_nil _).symm, List.nil_prefix, fun _ measured => ?_⟩
      exact (List.eq_nil_of_length_eq_zero (by omega)).symm

omit behaves in
theorem read_platform {file : UcbFile} {size : Nat} {sys : σ} (positive : 0 < size)
    (valid : ucbFileIsValid file = true) (readable : file.caps.read = true) :
    ucbFileRead platform file size sys = platform.read file size sys := by
  rw [ucbFileRead, if_neg (Nat.ne_of_gt positive), valid, readable]
  rfl

omit behaves in
theorem readFullLoop_succeeds (file : UcbFile) (remaining : Nat) (got : List UInt8) (sys : σ)
    (valid : ucbFileIsValid file = true) (readable : file.caps.read = true) :
    ∀ {out report after}, KeepsReading platform file sys →
      readFullLoop platform file remaining got sys = ((out, report), after) → report = .ok () := by
  induction got, sys using readFullLoop.induct platform file remaining with
  | case1 got sys inside error next read =>
      intro out report after reading
      rw [read_platform (Nat.sub_pos_of_lt inside) valid readable] at read
      exact absurd (congrArg Prod.fst read) (reading sys .refl _ error)
  | case2 got sys inside bytes next read ended =>
      intro out report after _ ran
      rw [readFullLoop, if_pos inside, read] at ran
      dsimp only at ran
      rw [dif_pos ended] at ran
      exact (Prod.mk.inj (Prod.mk.inj ran).1).2.symm
  | case3 got sys inside bytes next read nonempty inductionHypothesis =>
      intro out report after reading ran
      rw [readFullLoop, if_pos inside, read] at ran
      dsimp only at ran
      rw [dif_neg nonempty] at ran
      rw [read_platform (Nat.sub_pos_of_lt inside) valid readable] at read
      exact inductionHypothesis (reading.next read) ran
  | case4 got sys outside =>
      intro out report after _ ran
      rw [readFullLoop, if_neg outside] at ran
      exact (Prod.mk.inj (Prod.mk.inj ran).1).2.symm

/-- The calls with which `ucb_file_read_full` measures what is ahead all succeed, and lead from
`sys` to `back`. -/
structure Measured (platform : FilePlatform σ) (file : UcbFile) (sys : σ) (cur last : Int)
    (back : σ) : Prop where
  readable : ucbFileIsValid file = true ∧ file.caps.read = true ∧ file.caps.seek = true
  calls : ∃ told moved ended, ucbFileTell platform file sys = (.ok cur, told) ∧
    ucbFileSeek platform file 0 .fromEnd told = (.ok (), moved) ∧
    ucbFileTell platform file moved = (.ok last, ended) ∧
    ucbFileSeek platform file cur .set ended = (.ok (), back)

/-- Measuring ends where it began, and finds how much is ahead. -/
theorem measured_view {file : UcbFile} {sys back : σ} {cur last : Int}
    (measured : Measured platform file sys cur last back) :
    view back file = view sys file ∧
      ((if last < cur then cur else last) - cur).toNat = (view sys file).ahead.length := by
  obtain ⟨told, moved, ended, tell, seek, tellEnd, seekBack⟩ := measured.calls
  obtain ⟨curEq, toldView⟩ := tell_view behaves tell
  obtain ⟨endPos, endEq, movedView⟩ := seek_view behaves seek
  obtain ⟨lastEq, endedView⟩ := tell_view behaves tellEnd
  obtain ⟨backPos, backEq, backView⟩ := seek_view behaves seekBack
  rw [movedView, toldView] at endedView lastEq
  rw [toldView, FileView.origin] at endEq
  rw [FileView.origin] at backEq
  dsimp only at lastEq
  have same : backPos = (view sys file).pos := by omega
  refine ⟨?_, ?_⟩
  · rw [backView, endedView, same]
  · rw [FileView.ahead, List.length_drop]
    split <;> omega

omit behaves in
/-- Without a failing call `ucb_file_read_full` is its measured part. -/
theorem readFull_measured {file : UcbFile} {sys back : σ} {cur last : Int}
    (measured : Measured platform file sys cur last back) (capacity outSize : Nat) :
    ucbFileReadFull platform file capacity outSize sys =
      readFullMeasured platform file capacity outSize cur last back := by
  obtain ⟨valid, read, seekable⟩ := measured.readable
  obtain ⟨told, moved, ended, tell, seek, tellEnd, seekBack⟩ := measured.calls
  rw [ucbFileReadFull, valid, read, seekable, tell]
  dsimp only
  rw [seek]
  dsimp only
  rw [tellEnd]
  dsimp only
  rw [seekBack]
  rfl

omit behaves in
/-- With a failing call nothing is read. -/
theorem readFull_unmeasured {file : UcbFile} {sys : σ}
    (unmeasured : ¬ ∃ cur last back, Measured platform file sys cur last back)
    (capacity outSize : Nat) :
    ∃ error, (ucbFileReadFull platform file capacity outSize sys).1 =
      ⟨[], outSize, .error error⟩ := by
  rw [ucbFileReadFull]
  split
  · exact ⟨_, rfl⟩
  next valid =>
    split
    · exact ⟨_, rfl⟩
    next read =>
      split
      · exact ⟨_, rfl⟩
      next seekable =>
        split
        · exact ⟨_, rfl⟩
        next cur told tell =>
          split
          · exact ⟨_, rfl⟩
          next moved seek =>
            split
            · exact ⟨_, rfl⟩
            next last ended tellEnd =>
              split
              · exact ⟨_, rfl⟩
              next back seekBack =>
                refine absurd ⟨cur, last, back, ⟨?_, ?_, ?_⟩, told, moved, ended, tell, seek,
                  tellEnd, seekBack⟩ unmeasured
                · simpa using valid
                · simpa using read
                · simpa using seekable

/-- What `ucb_file_read_full` has read, and what it reports when the capacity is too small. -/
theorem readFull_got {file : UcbFile} {capacity outSize : Nat} {sys after : σ} {result : ReadFull}
    (ran : ucbFileReadFull platform file capacity outSize sys = (result, after)) :
    result.bytes <+: (view sys file).ahead ∧
      (result.report = .ok () → result.bytes = (view sys file).ahead ∧
        result.outSize = (view sys file).ahead.length) ∧
      ∀ cur last back, Measured platform file sys cur last back →
        capacity < (view sys file).ahead.length →
          result = ⟨[], (view sys file).ahead.length,
            .error (readFullTooSmall (view sys file).ahead.length)⟩ ∧
            view after file = view sys file := by
  by_cases measurable : ∃ cur last back, Measured platform file sys cur last back
  · obtain ⟨cur, last, back, measured⟩ := measurable
    obtain ⟨sameView, remaining⟩ := measured_view behaves measured
    rw [readFull_measured measured, readFullMeasured] at ran
    rw [remaining] at ran
    by_cases small : capacity < (view sys file).ahead.length
    · rw [if_pos small] at ran
      obtain ⟨rfl, rfl⟩ := Prod.mk.inj ran
      exact ⟨List.nil_prefix, fun impossible => (by cases impossible),
        fun _ _ _ _ _ => ⟨rfl, sameView⟩⟩
    · rw [if_neg small] at ran
      refine ⟨?_, ?_, fun _ _ _ _ tooSmall => absurd tooSmall small⟩
      all_goals
        generalize loops : readFullLoop platform file (view sys file).ahead.length [] back = ended
          at ran
        obtain ⟨⟨got, report⟩, next⟩ := ended
        obtain ⟨more, rfl, isPrefix, complete⟩ :=
          readFullLoop_got behaves file (view sys file).ahead.length [] back loops
        rw [sameView] at isPrefix complete
        cases report with
        | error failure =>
            obtain ⟨rfl, rfl⟩ := Prod.mk.inj ran
            first
            | exact isPrefix
            | exact fun impossible => by cases impossible
        | ok done =>
            obtain ⟨rfl, rfl⟩ := Prod.mk.inj ran
            have all := complete rfl (Nat.zero_add _)
            first
            | exact isPrefix
            | exact fun _ => ⟨all, congrArg List.length all⟩
  · obtain ⟨error, failed⟩ := readFull_unmeasured measurable capacity outSize
    rw [ran] at failed
    dsimp only at failed
    subst failed
    exact ⟨List.nil_prefix, fun impossible => (by cases impossible),
      fun cur last back measured => absurd ⟨cur, last, back, measured⟩ measurable⟩

/-- `ucb_file_read_full` succeeds when no call fails and the capacity is enough. -/
theorem readFull_succeeds {file : UcbFile} {capacity outSize : Nat} {sys back after : σ}
    {cur last : Int} {result : ReadFull} (measured : Measured platform file sys cur last back)
    (roomy : (view sys file).ahead.length ≤ capacity) (reading : KeepsReading platform file back)
    (ran : ucbFileReadFull platform file capacity outSize sys = (result, after)) :
    result.report = .ok () := by
  obtain ⟨-, remaining⟩ := measured_view behaves measured
  rw [readFull_measured measured, readFullMeasured] at ran
  rw [remaining, if_neg (Nat.not_lt.mpr roomy)] at ran
  generalize loops : readFullLoop platform file (view sys file).ahead.length [] back = ended at ran
  obtain ⟨⟨got, report⟩, next⟩ := ended
  obtain ⟨valid, readable, -⟩ := measured.readable
  obtain rfl := readFullLoop_succeeds file _ [] back valid readable reading loops
  obtain ⟨rfl, rfl⟩ := Prod.mk.inj ran
  rfl

end Behaves

end Ucb.File
