import Ucb.Fs.Effects

/-!
Contract: what copying a file leaves.

Owns:
- the loop of `fs_stream_copy`, which copies every byte of a regular file;
- `fs_copy_meta`, `fs_copy_link` and `fs_copy_payload`;
- `ucb_fs_copy_file` where there is nothing at the destination.

Everything is said of every pattern of failures. On a reliable system a regular file or a
link is copied.
-/

namespace Ucb.Fs

open Ucb.Lib Ucb.Path

/-! ## Files that are open -/

/-- What a process has opened before stays open. -/
structure Quiet (system after : System) : Prop where
  opened : system.opened ≤ after.opened
  dirs : ∀ dir, dir < system.opened → after.dirs dir = system.dirs dir

theorem Quiet.refl (system : System) : Quiet system system := ⟨Nat.le_refl _, fun _ _ => rfl⟩

theorem Quiet.trans {system mid after : System} (first : Quiet system mid)
    (second : Quiet mid after) : Quiet system after :=
  ⟨first.opened.trans second.opened, fun dir open_ =>
    (second.dirs dir (open_.trans_le first.opened)).trans (first.dirs dir open_)⟩

theorem quiet_on (system : System) (disk : Disk) : Quiet system (system.on disk) :=
  ⟨Nat.le_refl _, fun _ _ => rfl⟩

theorem quiet_openFile (system : System) (loc : Loc) : Quiet system (system.openFile loc) :=
  ⟨Nat.le_succ _, fun _ _ => rfl⟩

theorem quiet_seek (system : System) (file pos : Nat) : Quiet system (system.seek file pos) :=
  ⟨Nat.le_refl _, fun _ _ => rfl⟩

theorem quiet_wrote (system : System) (file : Nat) (chunk : List UInt8) (time : Int) :
    Quiet system (system.wrote file chunk time) :=
  ⟨Nat.le_refl _, fun _ _ => rfl⟩

def HasBytes (disk : Disk) (loc : Loc) (bytes : List UInt8) : Prop :=
  ∃ attrs, disk.entry loc = some (.file bytes attrs)

theorem HasBytes.not_dir {disk : Disk} {loc : Loc} {bytes : List UInt8}
    (has : HasBytes disk loc bytes) : ¬ IsDir (disk.entry loc) := by
  obtain ⟨attrs, found⟩ := has
  rintro ⟨attrs', dir⟩
  rw [found] at dir
  cases dir

theorem HasBytes.not_link {disk : Disk} {loc : Loc} {bytes : List UInt8}
    (has : HasBytes disk loc bytes) (target : List UInt8) :
    disk.entry loc ≠ some (.link target) := by
  obtain ⟨attrs, found⟩ := has
  rw [found]
  intro absent
  cases absent

theorem HasBytes.ne_none {disk : Disk} {loc : Loc} {bytes : List UInt8}
    (has : HasBytes disk loc bytes) : disk.entry loc ≠ none := by
  obtain ⟨attrs, found⟩ := has
  rw [found]
  exact Option.some_ne_none _

/-! ## The loop of `fs_stream_copy` -/

/-- What is written behind the end of a file is added to it. -/
theorem hasBytes_wrote {system : System} {file : Nat} {loc : Loc} {bytes : List UInt8}
    (position : system.files file = (loc, bytes.length)) (has : HasBytes system.disk loc bytes)
    (chunk : List UInt8) (time : Int) :
    JustAt loc system.disk (system.wrote file chunk time).disk ∧
      HasBytes (system.wrote file chunk time).disk loc (bytes ++ chunk) ∧
      (system.wrote file chunk time).files file = (loc, (bytes ++ chunk).length) := by
  obtain ⟨attrs, found⟩ := has
  have at_ : (system.files file).1 = loc := by rw [position]
  refine ⟨?_, ⟨{ attrs with mtime := time }, ?_⟩, ?_⟩
  · rw [← at_]
    exact adjust_justAt _ _ _ (Entry.node_write _ chunk time)
  · show (if loc = (system.files file).1 then (system.disk.entry loc).map
      (.write (system.files file).2 chunk time) else system.disk.entry loc) = _
    rw [if_pos at_.symm, found, position]
    show some (Entry.file (bytes.take bytes.length ++ chunk ++ _) _) = _
    rw [List.take_length, List.drop_eq_nil_of_le (Nat.le_add_right _ _), List.append_nil]
  · show (if file = file then ((system.files file).1, (system.files file).2 + chunk.length)
      else system.files file) = _
    rw [if_pos rfl, position, List.length_append]

/-- The files of a copy that is under way: so many bytes of the source are written. -/
structure Copying (system : System) (input output : Nat) (src dst : Loc)
    (content : List UInt8) : Prop where
  different : input ≠ output
  apart : src ≠ dst
  reads : (system.files input).1 = src
  writes : system.files output = (dst, content.length)
  written : HasBytes system.disk dst content
  copied : ∀ bytes, HasBytes system.disk src bytes →
    content = bytes.take (system.files input).2 ∧ (system.files input).2 ≤ bytes.length

section Stream

variable {host : Host} {inv : Disk → Prop} {system : System} {input output : Nat} {src dst : Loc}
  {content : List UInt8}

theorem Copying.step (copying : Copying system input output src dst content) {chunk : List UInt8}
    (inside : ∀ bytes, HasBytes system.disk src bytes →
      chunk <+: bytes.drop (system.files input).2) (time : Int) :
    let read := system.seek input ((system.files input).2 + chunk.length)
    Copying (read.wrote output chunk time) input output src dst (content ++ chunk) ∧
      JustAt dst system.disk (read.wrote output chunk time).disk ∧
      ∀ bytes, HasBytes system.disk src bytes →
        HasBytes (read.wrote output chunk time).disk src bytes := by
  intro read
  have position : read.files output = (dst, content.length) := by
    show (if output = input then _ else _) = _
    rw [if_neg (Ne.symm copying.different), copying.writes]
  obtain ⟨just, written, behind⟩ := hasBytes_wrote position copying.written chunk time
  have same : (read.wrote output chunk time).disk.entry src = system.disk.entry src :=
    just.entry copying.apart
  have at_ : (read.wrote output chunk time).files input =
      (src, (system.files input).2 + chunk.length) := by
    show (if input = output then _ else if input = input then _ else _) = _
    rw [if_neg copying.different, if_pos rfl, copying.reads]
  refine ⟨⟨copying.different, copying.apart, ?_, behind, written, ?_⟩, just, ?_⟩
  · rw [at_]
  · intro bytes has
    rw [HasBytes, same] at has
    obtain ⟨taken, few⟩ := copying.copied bytes has
    have part := inside bytes has
    have more := part.length_le
    rw [List.length_drop] at more
    rw [at_]
    refine ⟨?_, by dsimp only; omega⟩
    rw [taken, List.take_add, List.prefix_iff_eq_take.mp part, List.length_take, List.length_drop]
    congr 1
    rw [List.prefix_iff_eq_take.mp part, List.length_take, List.length_drop]
    congr 1
    omega
  · intro bytes has
    rw [HasBytes, same]
    exact has

/-- The loop copies what is left of a regular file. The induction is on the fuel, and on a
reliable system every chunk leaves less of the file. -/
theorem ensured_streamLoop {fuel : Nat} {base : Disk}
    (copying : Copying system input output src dst content) (just : JustAt dst base system.disk)
    (keeps : ∀ disk, JustAt dst base disk → (∃ bytes, HasBytes disk dst bytes) → inv disk)
    (enough : host.reliable = true → ∃ bytes, HasBytes system.disk src bytes ∧
      bytes.length - (system.files input).2 < fuel) :
    Ensured host inv (streamLoop fuel input output) system
      (fun _ after => Quiet system after ∧ JustAt dst base after.disk ∧
        ∃ content, HasBytes after.disk dst content ∧
          ∀ bytes, HasBytes system.disk src bytes → content = bytes)
      (fun _ after => host.reliable = false ∧ Quiet system after ∧ JustAt dst base after.disk ∧
        ∃ content, HasBytes after.disk dst content) := by
  induction fuel generalizing system content with
  | zero =>
      refine ensured_exhausted ?_
      by_contra reliable
      obtain ⟨bytes, -, absent⟩ := enough (by simpa using reliable)
      exact absurd absent (Nat.not_lt_zero _)
  | succ fuel inductionHypothesis =>
      have here : inv system.disk := keeps _ just ⟨_, copying.written⟩
      rw [streamLoop]
      refine ensured_bind (ensured_platform (fun _ _ reply => reply) here ?_ ?_)
      · rintro chunk after ⟨-, read, rfl⟩
        refine ⟨here, ?_⟩
        have inside (bytes : List UInt8) (has : HasBytes system.disk src bytes) :
            chunk <+: bytes.drop (system.files input).2 ∧
              (chunk = [] → bytes.drop (system.files input).2 = []) := by
          obtain ⟨attrs, found⟩ := has
          exact read bytes attrs (by rw [copying.reads]; exact found)
        split
        next ended =>
          refine ensured_pure ⟨quiet_seek _ _ _, just, content, copying.written, ?_⟩
          intro bytes has
          rw [(copying.copied bytes has).1]
          refine List.take_of_length_le ?_
          have none := (inside bytes has).2 ended
          rwa [List.drop_eq_nil_iff] at none
        next some =>
          obtain step := copying.step (fun bytes has => (inside bytes has).1)
          refine ensured_bind ⟨False.elim, fun answer after answered => ?_⟩
          cases answer with
          | ok value =>
              obtain ⟨time, rfl⟩ := answered
              obtain ⟨copying', just', same⟩ := step time
              have just'' := just.trans just'
              refine ⟨keeps _ just'' ⟨_, copying'.written⟩, ?_⟩
              refine (inductionHypothesis copying' just'' fun reliable => ?_).mono ?_ ?_
              · obtain ⟨bytes, has, few⟩ := enough reliable
                refine ⟨bytes, same bytes has, ?_⟩
                have at_ : ((system.seek input ((system.files input).2 + chunk.length)).wrote
                    output chunk time).files input =
                      (src, (system.files input).2 + chunk.length) := by
                  show (if input = output then _ else if input = input then _ else _) = _
                  rw [if_neg copying.different, if_pos rfl, copying.reads]
                have positive := List.length_pos_of_ne_nil some
                have part := (inside bytes has).1.length_le
                rw [List.length_drop] at part
                rw [at_]
                dsimp only
                omega
              · rintro - after ⟨quiet, just, content, has, all⟩
                exact ⟨(quiet_seek _ _ _).trans ((quiet_wrote _ _ _ _).trans quiet), just, content,
                  has, fun bytes source => all bytes (same bytes source)⟩
              · rintro - after ⟨unreliable, quiet, rest⟩
                exact ⟨unreliable, (quiet_seek _ _ _).trans ((quiet_wrote _ _ _ _).trans quiet),
                  rest⟩
          | error error =>
              obtain ⟨unreliable, -, part, time, inChunk, rfl⟩ := answered
              have position : (system.seek input ((system.files input).2 + chunk.length)).files
                  output = (dst, content.length) := by
                show (if output = input then _ else _) = _
                rw [if_neg (Ne.symm copying.different), copying.writes]
              obtain ⟨just', written, -⟩ := hasBytes_wrote position copying.written part
                time
              have just'' := just.trans just'
              exact ⟨keeps _ just'' ⟨_, written⟩, unreliable,
                (quiet_seek _ _ _).trans (quiet_wrote _ _ _ _), just'', _, written⟩
      · intro error truthful unable
        have unreliable : host.reliable = false := by
          by_contra reliable
          have reliable : host.reliable = true := by simpa using reliable
          obtain ⟨bytes, has, -⟩ := enough reliable
          refine unable reliable ((bytes.drop (system.files input).2).take ucbFsCopyChunk) _
            ⟨List.length_take_le _ _, fun bytes' attrs found => ?_, rfl⟩
          obtain ⟨attrs', found'⟩ := has
          rw [copying.reads, found'] at found
          obtain ⟨rfl, -⟩ := Entry.file.inj (Option.some.inj found)
          refine ⟨List.take_prefix _ _, fun none => ?_⟩
          rw [List.take_eq_nil_iff] at none
          exact none.resolve_left (by decide)
        exact ⟨unreliable, .refl _, just, content, copying.written⟩

end Stream

/-! ## Copying bytes -/

/-- What a copy to a path with nothing at it may leave: one new entry there. -/
def Attempt (host : Host) (path : List UInt8) (disk disk' : Disk) : Prop :=
  disk' = disk ∨ ∃ loc, host.vacant disk path = .ok loc ∧ OnlyAt loc disk disk' ∧
    ¬ IsDir (disk'.entry loc)

section Create

variable {host : Host} {inv : Disk → Prop} {system : System} {path : List UInt8} {mode : OpenMode}

def Creates (host : Host) (disk : Disk) (path : List UInt8) (mode : OpenMode) : Prop :=
  mode = .createExclusive ∨
    (mode = .createTruncate ∧ host.finds disk path = .error .missing)

theorem ensured_create {ok : Nat → System → Prop} {failed : UcbError → System → Prop}
    (creates : Creates host system.disk path mode) (here : inv system.disk)
    (done : ∀ loc disk, host.vacant system.disk path = .ok loc → OnlyAt loc system.disk disk →
      HasBytes disk loc [] → inv disk ∧ ok system.opened ((system.on disk).openFile loc))
    (refused : ∀ error, (host.reliable = true → ∀ loc, host.vacant system.disk path ≠ .ok loc) →
      failed error system) :
    Ensured host inv (platform (.fileOpen path mode) rfl) system ok failed := by
  rcases creates with rfl | ⟨rfl, missing⟩
  · refine ensured_platform (fun _ _ reply => reply) here ?_ ?_
    · rintro file after ⟨loc, attrs, time, fits, vacant, rfl, rfl⟩
      exact done loc _ vacant change_onlyAt ⟨attrs, change_here⟩
    · intro error truthful unable
      refine refused error fun reliable loc vacant => ?_
      exact unable reliable _ _ ⟨loc, ⟨0, 0⟩, 0, fits_new vacant _, vacant, rfl, rfl⟩
  · refine ensured_platform (fun _ _ reply => reply) here ?_ ?_
    · rintro file after ⟨loc, final, rfl, ⟨-, attrs, time, fits, rfl⟩ | ⟨some, -⟩⟩
      · exact done loc _ (Host.vacant_of_final missing final) change_onlyAt ⟨attrs, change_here⟩
      · exact absurd (Host.vacant_iff.mp (Host.vacant_of_final missing final)).2 some
    · intro error truthful unable
      refine refused error fun reliable loc vacant => ?_
      obtain ⟨slot, none⟩ := Host.vacant_iff.mp vacant
      have final : host.final system.disk path = .ok loc :=
        Host.final_of_slot slot fun target link => by
          rw [none] at link
          cases link
      exact unable reliable _ _ ⟨loc, final, rfl, .inl ⟨none, ⟨0, 0⟩, 0, fits_new vacant _, rfl⟩⟩

end Create

section Copy

variable {host : Host} {inv : Disk → Prop} {system : System} {src dst : List UInt8}
  {mode : OpenMode} {fuel : Nat}

/-- `fs_stream_copy` copies every byte of a regular file. -/
theorem ensured_streamCopy (creates : Creates host system.disk dst mode)
    (keeps : ∀ disk, Attempt host dst system.disk disk → inv disk)
    (ready : host.reliable = true → ∃ origin bytes loc, host.reaches system.disk src = .ok origin ∧
      HasBytes system.disk origin bytes ∧ bytes.length < fuel ∧
      host.vacant system.disk dst = .ok loc) :
    Ensured host inv (fsStreamCopy fuel src dst mode) system
      (fun _ after => Quiet system after ∧ ∃ origin loc content,
        host.reaches system.disk src = .ok origin ∧ host.vacant system.disk dst = .ok loc ∧
        OnlyAt loc system.disk after.disk ∧ HasBytes after.disk loc content ∧
        ∀ bytes, HasBytes system.disk origin bytes → content = bytes)
      (fun _ after => host.reliable = false ∧ Quiet system after ∧
        Attempt host dst system.disk after.disk) := by
  have here : inv system.disk := keeps _ (.inl rfl)
  rw [fsStreamCopy]
  refine ensured_bind (ensured_platform (fun _ _ reply => reply) here ?_ ?_)
  · rintro input after ⟨origin, reaches, notDir, rfl, rfl⟩
    refine ⟨here, ensured_bind (ensured_outcome (ensured_create creates here ?_ ?_))⟩
    · intro loc disk vacant only created
      have none := (Host.vacant_iff.mp vacant).2
      have apart : origin ≠ loc := fun same =>
        (Host.final_of_reaches reaches).2 (same ▸ none)
      have source (bytes : List UInt8) : HasBytes disk origin bytes ↔
          HasBytes system.disk origin bytes := by
        rw [HasBytes, HasBytes, only.outside apart notDir]
        exact Iff.rfl
      have attempt {disk' : Disk} (just : JustAt loc disk disk')
          (written : ∃ bytes, HasBytes disk' loc bytes) : Attempt host dst system.disk disk' :=
        .inr ⟨loc, vacant, only.trans just.onlyAt, written.choose_spec.not_dir⟩
      refine ⟨attempt (.refl _ _) ⟨_, created⟩ |> keeps _, ?_⟩
      have copying : Copying (((system.openFile origin).on disk).openFile loc) system.opened
          (system.openFile origin).opened origin loc [] := by
        refine ⟨Nat.ne_of_lt (Nat.lt_succ_self _), apart, ?_, ?_, created, ?_⟩
        · show (if system.opened = system.opened + 1 then _ else
            if system.opened = system.opened then _ else _ : Loc × Nat).1 = _
          rw [if_neg (Nat.ne_of_lt (Nat.lt_succ_self _)), if_pos rfl]
        · show (if system.opened + 1 = system.opened + 1 then _ else _ : Loc × Nat) = _
          rw [if_pos rfl]
          rfl
        · intro bytes has
          have start : ((((system.openFile origin).on disk).openFile loc).files
              system.opened).2 = 0 := by
            show (if system.opened = system.opened + 1 then _ else
              if system.opened = system.opened then _ else _ : Loc × Nat).2 = _
            rw [if_neg (Nat.ne_of_lt (Nat.lt_succ_self _)), if_pos rfl]
          rw [start]
          exact ⟨rfl, Nat.zero_le _⟩
      have quiet : Quiet system (((system.openFile origin).on disk).openFile loc) :=
        (quiet_openFile _ _).trans ((quiet_on _ _).trans (quiet_openFile _ _))
      refine ensured_bind (ensured_outcome ((ensured_streamLoop copying (.refl _ _)
        (fun _ just written => keeps _ (attempt just written)) ?_).mono ?_ ?_))
      · intro reliable
        obtain ⟨from', bytes, -, reaches', has, few, -⟩ := ready reliable
        rw [reaches] at reaches'
        obtain rfl := Except.ok.inj reaches'
        exact ⟨bytes, (source bytes).mpr has, (Nat.sub_le _ _).trans_lt few⟩
      · rintro - after ⟨quiet', just, content, has, all⟩
        have inside := keeps _ (attempt just ⟨_, has⟩)
        refine ensured_bind (ensured_perform fun _ _ freed => ?_)
        obtain rfl : _ = after := freed
        refine ⟨inside, ensured_bind (ensured_perform fun _ _ freed => ?_)⟩
        obtain rfl : _ = _ := freed
        refine ⟨inside, ensured_lift ⟨quiet.trans quiet', origin, loc, content, reaches, vacant,
          only.trans just.onlyAt, has, fun bytes source' => all bytes ((source bytes).mpr source')⟩⟩
      · rintro error after ⟨unreliable, quiet', just, content, has⟩
        have inside := attempt just ⟨_, has⟩
        refine ensured_bind (ensured_perform fun _ _ freed => ?_)
        obtain rfl : _ = after := freed
        refine ⟨keeps _ inside, ensured_bind (ensured_perform fun _ _ freed => ?_)⟩
        obtain rfl : _ = _ := freed
        exact ⟨keeps _ inside, ensured_lift ⟨unreliable, quiet.trans quiet', inside⟩⟩
    · intro error unable
      have unreliable : host.reliable = false := by
        by_contra reliable
        obtain ⟨-, -, loc, -, -, -, vacant⟩ := ready (by simpa using reliable)
        exact unable (by simpa using reliable) loc vacant
      refine ensured_bind (ensured_perform fun _ _ freed => ?_)
      obtain rfl : _ = system.openFile origin := freed
      exact ⟨here, ensured_throw ⟨unreliable, quiet_openFile _ _, .inl rfl⟩⟩
  · intro error truthful unable
    have unreliable : host.reliable = false := by
      by_contra reliable
      obtain ⟨origin, bytes, -, reaches, has, -, -⟩ := ready (by simpa using reliable)
      exact unable (by simpa using reliable) _ _ ⟨origin, reaches, has.not_dir, rfl, rfl⟩
    exact ⟨unreliable, .refl _, .inl rfl⟩

end Copy

/-! ## Copying attributes and links -/

section Meta

variable {host : Host} {inv : Disk → Prop} {system : System} {src dst : List UInt8}

/-- `fs_copy_meta` sets the attributes of what the destination reaches, and nothing else. -/
theorem ensured_copyMeta (here : inv system.disk)
    (keeps : ∀ loc disk change, host.reaches system.disk dst = .ok loc →
      JustAt loc system.disk disk →
      disk.entry loc = (system.disk.entry loc).map (.setAttrs change) → inv disk)
    (ready : host.reliable = true → (∃ origin entry attrs,
      host.reaches system.disk src = .ok origin ∧ system.disk.entry origin = some entry ∧
        entry.attrs = some attrs) ∧ ∃ loc, host.reaches system.disk dst = .ok loc) :
    Ensured host inv (fsCopyMeta src dst) system
      (fun _ after => Quiet system after ∧ ∃ origin entry attrs loc,
        host.reaches system.disk src = .ok origin ∧ system.disk.entry origin = some entry ∧
        entry.attrs = some attrs ∧ host.reaches system.disk dst = .ok loc ∧
        JustAt loc system.disk after.disk ∧
        after.disk.entry loc = (system.disk.entry loc).map (.setAttrs fun _ => attrs))
      (fun _ after => host.reliable = false ∧ Quiet system after ∧
        (after.disk = system.disk ∨ ∃ loc change, host.reaches system.disk dst = .ok loc ∧
          JustAt loc system.disk after.disk ∧
          after.disk.entry loc = (system.disk.entry loc).map (.setAttrs change))) := by
  rw [fsCopyMeta]
  refine ensured_bind (ensured_platform (fun _ _ reply => reply) here ?_ ?_)
  · rintro stat after ⟨rfl, origin, entry, attrs, reachesSrc, there, has, rfl⟩
    refine ⟨here, ensured_bind (ensured_platform (fun _ _ reply => reply) here ?_ ?_)⟩
    · rintro value after' ⟨loc, reachesDst, rfl⟩
      have just := setAttrs_justAt after.disk loc fun old => { old with mode := attrs.mode }
      have changed := setAttrs_here after.disk loc fun old => { old with mode := attrs.mode }
      have between := keeps loc _ _ reachesDst just changed
      have stays : host.reaches
          (after.disk.setAttrs loc fun old => { old with mode := attrs.mode }) dst = .ok loc :=
        (setAttrs_samePaths _ _ _).reaches.trans reachesDst
      refine ⟨between, ensured_platform (fun _ _ reply => reply) between ?_ ?_⟩
      · rintro value after'' ⟨loc', reachesDst', rfl⟩
        obtain rfl : loc = loc' := Except.ok.inj (stays.symm.trans reachesDst')
        have just' :=
          just.trans (setAttrs_justAt _ loc fun old => { old with mtime := attrs.mtime })
        have whole : ((after.disk.setAttrs loc fun old => { old with mode := attrs.mode }).setAttrs
            loc fun old => { old with mtime := attrs.mtime }).entry loc =
              (after.disk.entry loc).map (.setAttrs fun _ => attrs) := by
          rw [setAttrs_here, setAttrs_here, Option.map_map]
          congr 1
          funext entry
          cases entry <;> rfl
        exact ⟨keeps loc _ _ reachesDst just' whole, (quiet_on _ _).trans (quiet_on _ _), origin,
          entry, attrs, loc, reachesSrc, there, has, reachesDst, just', whole⟩
      · intro error truthful unable
        refine ⟨?_, quiet_on _ _, .inr ⟨loc, _, reachesDst, just, changed⟩⟩
        by_contra reliable
        exact unable (by simpa using reliable) () _ ⟨loc, stays, rfl⟩
    · intro error truthful unable
      refine ⟨?_, .refl _, .inl rfl⟩
      by_contra reliable
      obtain ⟨-, loc, reachesDst⟩ := ready (by simpa using reliable)
      exact unable (by simpa using reliable) () _ ⟨loc, reachesDst, rfl⟩
  · intro error truthful unable
    refine ⟨?_, .refl _, .inl rfl⟩
    by_contra reliable
    obtain ⟨⟨origin, entry, attrs, reachesSrc, there, has⟩, -⟩ := ready (by simpa using reliable)
    exact unable (by simpa using reliable) _ _ ⟨rfl, origin, entry, attrs, reachesSrc, there, has,
      rfl⟩

/-- `fs_copy_link` makes a link with the same target. -/
theorem ensured_copyLink (here : inv system.disk)
    (keeps : ∀ disk, Attempt host dst system.disk disk → inv disk)
    (ready : host.reliable = true → (∃ origin target, host.finds system.disk src = .ok origin ∧
      system.disk.entry origin = some (.link target)) ∧
      ∃ loc, host.vacant system.disk dst = .ok loc) :
    Ensured host inv (fsCopyLink src dst) system
      (fun _ after => Quiet system after ∧ ∃ origin target loc,
        host.finds system.disk src = .ok origin ∧
        system.disk.entry origin = some (.link target) ∧
        host.vacant system.disk dst = .ok loc ∧ OnlyAt loc system.disk after.disk ∧
        after.disk.entry loc = some (.link target))
      (fun _ after => host.reliable = false ∧ after = system) := by
  rw [fsCopyLink]
  refine ensured_bind (ensured_platform (fun _ _ reply => reply) here ?_ ?_)
  · rintro target after ⟨rfl, origin, finds, there⟩
    refine ⟨here, ensured_platform (fun _ _ reply => reply) here ?_ ?_⟩
    · rintro value after' ⟨loc, time, fits, vacant, rfl⟩
      refine ⟨keeps _ (.inr ⟨loc, vacant, change_onlyAt, ?_⟩), quiet_on _ _, origin, target, loc,
        finds, there, vacant, change_onlyAt, change_here⟩
      rintro ⟨attrs, absent⟩
      cases change_here.symm.trans absent
    · intro error truthful unable
      refine ⟨?_, rfl⟩
      by_contra reliable
      obtain ⟨-, loc, vacant⟩ := ready (by simpa using reliable)
      exact unable (by simpa using reliable) () _ ⟨loc, 0, fits_new vacant _, vacant, rfl⟩
  · intro error truthful unable
    refine ⟨?_, rfl⟩
    by_contra reliable
    obtain ⟨⟨origin, target, finds, there⟩, -⟩ := ready (by simpa using reliable)
    exact unable (by simpa using reliable) _ _ ⟨rfl, origin, finds, there⟩

end Meta

/-! ## Copying an entry -/

/-- A copy of an entry that is no directory. Of a special file a regular file is made. -/
def Copies (entry : Entry) (new : Option Entry) : Prop :=
  ¬ IsDir new ∧ ((∀ attrs, entry ≠ .other attrs) → new = some entry)

section Payload

variable {host : Host} {inv : Disk → Prop} {system : System} {src dst : List UInt8} {origin : Loc}
  {entry : Entry} {flags : UcbFsFlags} {fuel : Nat}

theorem kind_symlink_iff (entry : Entry) :
    entry.kind = .symlink ↔ ∃ target, entry = .link target := by
  cases entry <;> simp [Entry.kind, Entry.node, nodeKind]

theorem kind_dir_iff (entry : Entry) : entry.kind = .dir ↔ IsDir (some entry) := by
  cases entry <;> simp [Entry.kind, Entry.node, nodeKind, IsDir]

theorem setAttrs_not_dir {item : Option Entry} (notDir : ¬ IsDir item) (change : Attrs → Attrs) :
    ¬ IsDir (item.map (.setAttrs change)) := by
  rwa [Disk.isDir_map (Entry.node_setAttrs change)]

/-- A path that names a regular file reaches it. -/
theorem reaches_of_hasBytes {disk : Disk} {path bytes : List UInt8} {loc : Loc}
    (slot : host.spot disk path = .ok (.slot loc)) (has : HasBytes disk loc bytes) :
    host.reaches disk path = .ok loc :=
  Host.reaches_of_final (Host.final_of_slot slot has.not_link) has.ne_none

/-- What the source of a copy is, and what a reliable system needs. -/
structure Copyable (host : Host) (disk : Disk) (fuel : Nat) (src dst : List UInt8) (origin : Loc)
    (entry : Entry) : Prop where
  finds : host.finds disk src = .ok origin
  there : disk.entry origin = some entry
  notDir : ¬ IsDir (some entry)
  missing : host.finds disk dst = .error .missing
  ready : host.reliable = true → (∀ attrs, entry ≠ .other attrs) ∧
    (∀ bytes attrs, entry = .file bytes attrs → bytes.length < fuel) ∧
    ∃ loc, host.vacant disk dst = .ok loc

/-- A file that is streamed gets the attributes of the source. -/
theorem ensured_streamed (copyable : Copyable host system.disk fuel src dst origin entry)
    (notLink : ∀ target, entry ≠ .link target) {mode : OpenMode}
    (creates : Creates host system.disk dst mode)
    (keeps : ∀ disk, Attempt host dst system.disk disk → inv disk) :
    Ensured host inv (do fsStreamCopy fuel src dst mode; fsCopyMeta src dst) system
      (fun _ after => Quiet system after ∧ ∃ loc, host.vacant system.disk dst = .ok loc ∧
        OnlyAt loc system.disk after.disk ∧ Copies entry (after.disk.entry loc))
      (fun _ after => host.reliable = false ∧ Quiet system after ∧
        Attempt host dst system.disk after.disk) := by
  obtain ⟨finds, there, notDir, missing, ready⟩ := copyable
  have reached : host.reaches system.disk src = .ok origin :=
    Host.reaches_of_finds finds fun target link => by
      rw [there] at link
      exact notLink target (Option.some.inj link)
  refine ensured_bind ((ensured_streamCopy creates keeps ?_).mono ?_ fun _ _ fails => fails)
  · intro reliable
    obtain ⟨notOther, few, loc, vacant⟩ := ready reliable
    cases entry with
    | dir attrs => exact absurd ⟨attrs, rfl⟩ notDir
    | file bytes attrs =>
        exact ⟨origin, bytes, loc, reached, ⟨attrs, there⟩, few bytes attrs rfl, vacant⟩
    | link target => exact absurd rfl (notLink target)
    | other attrs => exact absurd rfl (notOther attrs)
  · rintro - mid ⟨quiet, origin', loc, content, reached', vacant, only, has, all⟩
    obtain rfl : origin = origin' := Except.ok.inj (reached.symm.trans reached')
    obtain ⟨slot, none⟩ := Host.vacant_iff.mp vacant
    have more := (only.kept none).extends_
    have apart : origin ≠ loc := fun same => by
      rw [same, none] at there
      cases there
    have there' : mid.disk.entry origin = some entry := by
      rw [only.outside apart (by rw [there]; exact notDir), there]
    have reachedSrc : host.reaches mid.disk src = .ok origin :=
      Host.reaches_of_finds (more.finds finds) fun target link => by
        rw [there'] at link
        exact notLink target (Option.some.inj link)
    have reachedDst : host.reaches mid.disk dst = .ok loc :=
      reaches_of_hasBytes (more.spot slot) has
    have attempt {disk : Disk} {change : Attrs → Attrs} (just : JustAt loc mid.disk disk)
        (changed : disk.entry loc = (mid.disk.entry loc).map (.setAttrs change)) :
        Attempt host dst system.disk disk := by
      refine .inr ⟨loc, vacant, only.trans just.onlyAt, ?_⟩
      rw [changed]
      exact setAttrs_not_dir has.not_dir change
    have between : Attempt host dst system.disk mid.disk := .inr ⟨loc, vacant, only, has.not_dir⟩
    refine (ensured_copyMeta (keeps _ between) ?_ ?_).mono ?_ ?_
    · intro loc' disk change reached just changed
      obtain rfl : loc = loc' := Except.ok.inj (reachedDst.symm.trans reached)
      exact keeps _ (attempt just changed)
    · intro reliable
      refine ⟨?_, loc, reachedDst⟩
      cases entry with
      | dir attrs => exact absurd ⟨attrs, rfl⟩ notDir
      | file bytes attrs => exact ⟨origin, _, attrs, reachedSrc, there', rfl⟩
      | link target => exact absurd rfl (notLink target)
      | other attrs => exact ⟨origin, _, attrs, reachedSrc, there', rfl⟩
    · rintro - after ⟨quiet', origin', entry', attrs, loc', reached, found, same, reached', just,
        changed⟩
      obtain rfl : loc = loc' := Except.ok.inj (reachedDst.symm.trans reached')
      obtain rfl : origin = origin' := Except.ok.inj (reachedSrc.symm.trans reached)
      obtain rfl : entry = entry' := Option.some.inj (there'.symm.trans found)
      refine ⟨quiet.trans quiet', loc, vacant, only.trans just.onlyAt, ?_, fun notOther => ?_⟩
      · rw [changed]
        exact setAttrs_not_dir has.not_dir _
      · obtain ⟨attrs', written⟩ := has
        rw [changed, written]
        cases entry with
        | dir attrs => exact absurd ⟨attrs, rfl⟩ notDir
        | file bytes attrs =>
            obtain rfl := Option.some.inj same
            rw [all bytes ⟨_, there⟩]
            rfl
        | link target => exact absurd rfl (notLink target)
        | other attrs => exact absurd rfl (notOther attrs)
    · rintro - after ⟨unreliable, quiet', same | ⟨loc', change, reached, just, changed⟩⟩
      · exact ⟨unreliable, quiet.trans quiet', by rw [same]; exact between⟩
      · obtain rfl : loc = loc' := Except.ok.inj (reachedDst.symm.trans reached)
        exact ⟨unreliable, quiet.trans quiet', attempt just changed⟩

/-- `fs_copy_payload` copies what is no directory to where there is nothing. -/
theorem ensured_copyPayload (copyable : Copyable host system.disk fuel src dst origin entry)
    (noFollow : flags.follow = false) (exclusive : Bool)
    (keeps : ∀ disk, Attempt host dst system.disk disk → inv disk) :
    Ensured host inv (fsCopyPayload fuel src entry.kind flags dst exclusive) system
      (fun _ after => Quiet system after ∧ ∃ loc, host.vacant system.disk dst = .ok loc ∧
        OnlyAt loc system.disk after.disk ∧ Copies entry (after.disk.entry loc))
      (fun _ after => host.reliable = false ∧ Quiet system after ∧
        Attempt host dst system.disk after.disk) := by
  rw [fsCopyPayload]
  by_cases isLink : entry.kind = .symlink
  · rw [if_pos ⟨isLink, noFollow⟩]
    obtain ⟨target, rfl⟩ := (kind_symlink_iff entry).mp isLink
    refine (ensured_copyLink (keeps _ (.inl rfl)) keeps fun reliable =>
      ⟨⟨origin, target, copyable.finds, copyable.there⟩, (copyable.ready reliable).2.2⟩).mono ?_ ?_
    · rintro - after ⟨quiet, origin', target', loc, finds, there, vacant, only, made⟩
      obtain rfl : origin = origin' := Except.ok.inj (copyable.finds.symm.trans finds)
      obtain rfl : target = target' := by
        rw [copyable.there] at there
        exact Entry.link.inj (Option.some.inj there)
      refine ⟨quiet, loc, vacant, only, ?_, fun _ => made⟩
      rw [made]
      exact copyable.notDir
    · rintro - after ⟨unreliable, rfl⟩
      exact ⟨unreliable, .refl _, .inl rfl⟩
  · rw [if_neg fun both => isLink both.1]
    have notLink (target : List UInt8) : entry ≠ .link target := fun same =>
      isLink ((kind_symlink_iff entry).mpr ⟨target, same⟩)
    cases exclusive with
    | true => exact ensured_streamed copyable notLink (.inl rfl) keeps
    | false => exact ensured_streamed copyable notLink (.inr ⟨rfl, copyable.missing⟩) keeps

/-- A copy that has failed is removed again. -/
theorem ensured_copyFresh (copyable : Copyable host system.disk fuel src dst origin entry)
    (noFollow : flags.follow = false)
    (keeps : ∀ disk, Attempt host dst system.disk disk → inv disk) :
    Ensured host inv (copyChecked fuel src entry.kind flags dst false) system
      (fun _ after => Quiet system after ∧ ∃ loc, host.vacant system.disk dst = .ok loc ∧
        OnlyAt loc system.disk after.disk ∧ Copies entry (after.disk.entry loc))
      (fun _ after => host.reliable = false ∧ Quiet system after ∧
        Attempt host dst system.disk after.disk) := by
  rw [copyChecked, if_neg Bool.false_ne_true]
  refine ensured_bind (ensured_outcome
    ((ensured_copyPayload copyable noFollow false keeps).mono ?_ ?_))
  · rintro - after done
    exact ensured_pure done
  · rintro error mid ⟨unreliable, quiet, attempt⟩
    refine ensured_bind (ensured_outcome (ensured_removeFile (keeps _ attempt) ?_ ?_))
    · intro loc disk slot some notDir only gone
      have removed : Attempt host dst system.disk disk := by
        rcases attempt with same | ⟨loc', vacant, only', -⟩
        · -- nothing has been made, so there is nothing to remove
          rw [same] at slot some
          have found : host.finds system.disk dst = .ok loc :=
            Host.finds_iff.mpr (.inr ⟨slot, some⟩)
          rw [copyable.missing] at found
          cases found
        · obtain ⟨slot', none⟩ := Host.vacant_iff.mp vacant
          have same := ((only'.kept none).extends_.spot slot').symm.trans slot
          obtain rfl : loc' = loc := Spot.slot.inj (Except.ok.inj same)
          refine .inr ⟨loc', vacant, only'.trans only, ?_⟩
          rw [gone]
          rintro ⟨attrs, absent⟩
          cases absent
      exact ⟨keeps _ removed, ensured_throw ⟨unreliable, quiet.trans (quiet_on _ _), removed⟩⟩
    · intro error' truthful
      exact ensured_throw ⟨unreliable, quiet, attempt⟩

end Payload

end Ucb.Fs
