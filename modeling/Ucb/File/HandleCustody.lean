import Mathlib.Algebra.BigOperators.Group.List.Basic
import Mathlib.Data.List.Perm.Basic
import Ucb.File.HandleSpecs
import Ucb.File.HandleThread
import Ucb.Lib.System

/-!
Contract: every descriptor that a thread holds is answered for once.

Owns:
- what a caller answers for, and what each call makes of it;
- the invariant of a run, and when exactly it is kept.
-/

namespace Ucb.File.Handles

open Ucb.Lib

/-! ## Callers' accounts -/

def Store.owes (store : Store) : Multiset Int :=
  (store.files.map UcbFileHandle.owes).sum + store.raws.val

/-- What the thread holds is what its caller answers for, counted. -/
structure Exact (store : Store) (held : Multiset Int) : Prop where
  sound : ∀ file ∈ store.files, file.Sound
  held : held = store.owes

section Accounts

variable {store : Store} {held : Multiset Int} {file file' : UcbFileHandle} {place : Nat}

theorem Exact.cons (exact : Exact store held) (sound : file.Sound) :
    Exact { store with files := file :: store.files } (file.owes + held) := by
  refine ⟨List.forall_mem_cons.mpr ⟨sound, exact.sound⟩, ?_⟩
  rw [exact.held, Store.owes, Store.owes, List.map_cons, List.sum_cons, add_assoc]

theorem Exact.add {result : Except Thrown UcbFileHandle} {after : Multiset Int}
    (exact : Exact store held) (opens : Opens held result after) :
    Exact (store.add result) after := by
  cases result with
  | ok file =>
      obtain ⟨owner, rfl⟩ := opens
      exact exact.cons fun _ => owner
  | error thrown =>
      obtain rfl : after = held := opens
      exact exact

theorem Exact.addBoth {result : Except Thrown (UcbFileHandle × UcbFileHandle)}
    {after : Multiset Int} (exact : Exact store held) (opens : OpensBoth held result after) :
    Exact (store.addBoth result) after := by
  cases result with
  | ok files =>
      obtain ⟨⟨first, second⟩, rfl⟩ := opens
      exact (exact.cons fun _ => second).cons fun _ => first
  | error thrown =>
      obtain rfl : after = held := opens
      exact exact

theorem Exact.soundAt (exact : Exact store held) (here : store.files[place]? = some file) :
    file.Sound :=
  exact.sound file (List.mem_of_getElem? here)

/-- A handle is taken out of what the caller answers for. -/
theorem Exact.split (exact : Exact store held) (here : store.files[place]? = some file) :
    held = file.owes + (store.drop place).owes := by
  obtain ⟨below, rfl⟩ := List.getElem?_eq_some_iff.mp here
  have perm := (List.getElem_cons_eraseIdx_perm below).map UcbFileHandle.owes
  rw [exact.held, Store.owes, ← perm.sum_eq, List.map_cons, List.sum_cons, add_assoc]
  rfl

theorem Exact.drop (exact : Exact store held) (place : Nat) :
    Exact (store.drop place) (store.drop place).owes :=
  ⟨fun file member => exact.sound file (List.mem_of_mem_eraseIdx member), rfl⟩

/-- A handle is put back, and answers for something else. -/
theorem Exact.put (exact : Exact store held) (here : store.files[place]? = some file)
    (sound : file'.Sound) :
    Exact (store.put place file') (file'.owes + (store.drop place).owes) := by
  obtain ⟨below, rfl⟩ := List.getElem?_eq_some_iff.mp here
  have perm := List.set_perm_cons_eraseIdx below file'
  constructor
  case sound =>
    intro file member
    rcases List.mem_or_eq_of_mem_set member with old | rfl
    · exact exact.sound file old
    · exact sound
  case held =>
    have sum := (perm.map UcbFileHandle.owes).sum_eq
    rw [List.map_cons, List.sum_cons] at sum
    rw [Store.owes, ← add_assoc]
    exact congrArg (· + store.raws.val) sum.symm

theorem Exact.openRaw {fd : Int} (exact : Exact store held) (absent : fd ∉ held) :
    Exact { store with raws := insert fd store.raws } (fd ::ₘ held) := by
  have vacant : fd ∉ store.raws := by
    intro raw
    rw [exact.held] at absent
    exact absent (Multiset.mem_add.mpr (.inr raw))
  refine ⟨exact.sound, ?_⟩
  rw [exact.held, Store.owes, Store.owes, Finset.insert_val_of_notMem vacant, Multiset.add_cons]

theorem Exact.closeRaw {fd : Int} (exact : Exact store held) (raw : fd ∈ store.raws) :
    Exact { store with raws := store.raws.erase fd } (held.erase fd) := by
  refine ⟨exact.sound, ?_⟩
  rw [exact.held, Store.owes, Store.owes, Finset.erase_val, Multiset.erase_add_right_pos _ raw]

/-- A call leaves the caller with what it answers for. -/
theorem call_keeps {call : Call} {program : FdProg Store} (exact : Exact store held)
    (begun : call.program store = some program) :
    program.Keeps (terms call.isClose) held Exact := by
  cases call with
  | openMode path flags mode =>
      obtain rfl := Option.some.inj begun
      apply openMode_keeps.andThen
      exact fun _ _ opens => keeps_pure (exact.add opens)
  | close place =>
      obtain ⟨file, here, rfl⟩ := Option.map_eq_some_iff.mp begun
      rw [exact.split here]
      apply (close_keeps (exact.soundAt here)).andThen
      rintro ⟨_, file'⟩ _ ⟨sound, rfl⟩
      exact keeps_pure (exact.put here sound)
  | free place =>
      obtain ⟨file, here, rfl⟩ := Option.map_eq_some_iff.mp begun
      by_cases std : file.std = true
      · rw [ucbFileFree, if_pos std, if_pos std]
        exact keeps_pure exact
      · rw [exact.split here, if_neg std]
        apply (free_keeps (exact.soundAt here)).andThen
        rintro _ _ rfl
        exact keeps_pure (exact.drop place)
  | fromFd fd own =>
      simp only [Call.program, Option.ite_none_right_eq_some, Option.some.injEq] at begun
      obtain ⟨isRaw, rfl⟩ := begun
      apply fileFromFd_keeps.andThen
      rintro (thrown | file) after here
      · obtain rfl : after = held := here
        refine keeps_pure ?_
        cases own <;> exact exact
      · obtain ⟨same, valid, built⟩ := here
        rw [same]
        refine keeps_pure ?_
        cases own with
        | false =>
            have sound : file.Sound := fun own => absurd own (by simp [built.own])
            have borrowed := exact.cons sound
            rw [owes_of_other built.own, zero_add] at borrowed
            exact borrowed
        | true =>
            refine ⟨List.forall_mem_cons.mpr ⟨fun _ => built.owner valid, exact.sound⟩, ?_⟩
            show held = (List.map _ (file :: store.files)).sum + (store.raws.erase fd).val
            rw [List.map_cons, List.sum_cons, add_assoc, built.owes, exact.held, Store.owes,
              Finset.erase_val, ← Multiset.add_cons, Multiset.cons_erase (isRaw rfl)]
  | dup place =>
      obtain ⟨file, here, rfl⟩ := Option.map_eq_some_iff.mp begun
      apply dup_keeps.andThen
      exact fun _ _ opens => keeps_pure (exact.add opens)
  | setInherit place inherit =>
      obtain ⟨file, here, rfl⟩ := Option.map_eq_some_iff.mp begun
      apply (setInherit_keeps inherit (exact.soundAt here)).andThen
      rintro ⟨_, file'⟩ after ⟨sound, owes, rfl⟩
      rw [exact.split here, ← owes]
      exact keeps_pure (exact.put here sound)
  | pipeCreate flags =>
      obtain rfl := Option.some.inj begun
      apply pipe_keeps.andThen
      exact fun _ _ opens => keeps_pure (exact.addBoth opens)

end Accounts

/-! ## Custody -/

/-- The thread has not gone astray, and between calls everything it holds is answered for once. -/
structure InCustody (world : World) : Prop where
  whole : world.astray = false
  exact : ∀ store, world.thread = .idle store → Exact store world.table.ours.val

def Thread.program : Thread → FdProg Store
  | .idle store => .ret store
  | .running _ _ program => program

def Thread.closing : Thread → Bool
  | .idle _ => false
  | .running call _ _ => call.isClose

/-- The thread keeps to its terms. A call of `ucb_file_close` is before its only call of the
system. -/
structure Sound (world : World) : Prop where
  keeps : world.thread.program.Keeps (terms world.thread.closing) world.table.ours.val Exact
  whole : world.astray = false
  closing : ∀ place store program, world.thread = .running (.close place) store program →
    (Call.close place).program store = some program

section Runs

variable {world after : World} {table table' : Table} {kept : Bool} {store : Store} {call : Call}
  {program : FdProg Store} {held : Multiset Int} {first last : World} {actions : List Action}

theorem insert_ours {fd : Int} (vacant : table.Vacant fd) :
    (insert fd table.ours).val = fd ::ₘ table.ours.val :=
  Finset.insert_val_of_notMem vacant.2.1

theorem make_gives (kept : Bool) {chance : Chance} {answer : Except Ucb.Process.Errno Int}
    (made : table.make chance = some (answer, table')) :
    (terms kept).gives table.ours.val (.dupfdCloexec 0) answer table'.ours.val := by
  unfold Table.make at made
  split at made
  next =>
    cases made
    rfl
  next =>
    split at made
    next vacant =>
      cases made
      exact ⟨vacant.1, insert_ours vacant⟩
    next => cases made

/-- The system answers within the terms, if a failing `close` does what they say. -/
theorem serve_gives {ask : Ask} {chance : Chance} {answer : ask.Answer}
    (served : serve table ask chance = some (answer, table'))
    (needs : (terms kept).needs table.ours.val ask)
    (released : ∀ fd, ask = .close fd → chance.fault ≠ none → chance.released = !kept) :
    (terms kept).gives table.ours.val ask answer table'.ours.val := by
  cases ask with
  | openPath path flags mode =>
      cases answer <;> exact make_gives kept served
  | dupfdCloexec fd =>
      cases answer <;> exact make_gives kept served
  | pipe nonblock cloexec =>
      simp only [serve] at served
      split at served
      next =>
        cases served
        rfl
      next =>
        split at served
        next vacant =>
          cases served
          obtain ⟨first, second, different⟩ := vacant
          refine ⟨first.1, second.1, ?_⟩
          rw [Multiset.cons_swap, ← insert_ours first]
          apply Finset.insert_val_of_notMem
          simpa [different.symm] using second.2.1
        next => cases served
  | close fd =>
      simp only [serve, if_pos (Finset.mem_union_left _ needs), Option.some.injEq] at served
      obtain ⟨rfl, rfl⟩ := served
      unfold Chance.unless
      cases fault : chance.fault with
      | none => exact Finset.erase_val table.ours fd
      | some errno =>
          have same := released fd rfl (by simp [fault])
          cases kept with
          | false =>
              rw [if_pos (.inr same)]
              exact Finset.erase_val table.ours fd
          | true =>
              rw [if_neg (by simp [same])]
              rfl
  | _ =>
      cases served
      rfl

theorem stray_of_needs {ask : Ask} (needs : (terms kept).needs table.ours.val ask) :
    table.stray ask = false := by
  cases ask with
  | close fd => exact decide_eq_false (not_not.mpr needs)
  | _ => rfl

theorem settle_keeps (keeps : program.Keeps (terms call.isClose) held Exact) :
    (Thread.settle call store program).program.Keeps
      (terms (Thread.settle call store program).closing) held Exact := by
  cases program with
  | ret value => exact keeps
  | ask question next => exact keeps

theorem Sound.custody (sound : Sound world) : InCustody world := by
  refine ⟨sound.whole, fun store idle => ?_⟩
  have keeps := sound.keeps
  rw [idle] at keeps
  exact keeps

theorem Sound.idles {after : World} (exact : Exact store after.table.ours.val)
    (idle : after.thread = .idle store) (whole : after.astray = false) : Sound after := by
  refine ⟨?_, whole, fun place store' program running => ?_⟩
  · rw [idle]
    exact exact
  · rw [idle] at running
    cases running

theorem World.Initial.sound (initial : world.Initial) : Sound world := by
  obtain ⟨files, idle, others⟩ := initial.idle
  have nothing : (files.map UcbFileHandle.owes).sum = 0 := by
    apply List.sum_eq_zero
    intro owes member
    obtain ⟨file, isFile, rfl⟩ := List.mem_map.mp member
    exact owes_of_other (others file isFile)
  refine .idles ⟨fun file member own => absurd own (by simp [others file member]), ?_⟩ idle
    initial.whole
  rw [initial.nothing]
  exact (congrArg (· + (∅ : Finset Int).val) nothing).symm

/-- A call of `ucb_file_close` asks the system once at most. -/
theorem close_returns {place : Nat} {question : Ask} {next : question.Answer → FdProg Store}
    (begun : (Call.close place).program store = some (.ask question next))
    (answer : question.Answer) : ∃ after, next answer = .ret after := by
  obtain ⟨file, -, same⟩ := Option.map_eq_some_iff.mp begun
  unfold ucbFileClose at same
  split at same
  next => cases same
  next =>
    split at same
    next =>
      cases same
      rcases answer with errno | ⟨⟩
      · exact ⟨_, rfl⟩
      · exact ⟨_, rfl⟩
    next => cases same

theorem Sound.begins (sound : Sound world) (idle : world.thread = .idle store)
    (begun : call.program store = some program) :
    Sound { world with thread := .settle call store program } := by
  refine ⟨settle_keeps (call_keeps (sound.custody.exact store idle) begun), sound.whole, ?_⟩
  intro place store' program' running
  cases program with
  | ret value => cases running
  | ask question next =>
      cases running
      exact begun

theorem Sound.proceeds {chance : Chance} {question : Ask} {next : question.Answer → FdProg Store}
    {answer : question.Answer} (sound : Sound world)
    (here : world.thread = .running call store (.ask question next))
    (served : serve world.table question chance = some (answer, table'))
    (released : ∀ fd, question = .close fd → chance.fault ≠ none →
      chance.released = !call.isClose) :
    Sound ⟨table', .settle call store (next answer),
      world.astray || world.table.stray question⟩ := by
  have keeps := sound.keeps
  rw [here] at keeps
  refine ⟨settle_keeps (keeps.2 answer _ (serve_gives served keeps.1 released)), ?_, ?_⟩
  · show (world.astray || world.table.stray question) = false
    rw [sound.whole, stray_of_needs keeps.1]
    rfl
  · intro place store' program' running
    cases rest : next answer with
    | ret value =>
        rw [rest] at running
        cases running
    | ask question' next' =>
        rw [rest] at running
        cases running
        obtain ⟨after, returns⟩ := close_returns (sound.closing place store _ here) answer
        rw [returns] at rest
        cases rest

theorem Sound.step {action : Action} (sound : Sound world)
    (ran : Handles.step world action = some after) (keeps : KeepsInClose world action)
    (releases : ReleasesElsewhere world action) : Sound after := by
  unfold Handles.step at ran
  split at ran
  next call store idle =>
    obtain ⟨program, begun, rfl⟩ := Option.map_eq_some_iff.mp ran
    exact sound.begins idle begun
  next chance call store question next here =>
    obtain ⟨⟨answer, table⟩, served, rfl⟩ := Option.map_eq_some_iff.mp ran
    apply sound.proceeds here served
    rintro fd rfl fault
    have held := sound.keeps
    rw [here] at held
    have found : failedClose world (.proceed chance) = some (call.isClose, chance.released) := by
      simp only [failedClose, here]
      exact if_pos ⟨fault, held.1⟩
    rw [KeepsInClose, found] at keeps
    rw [ReleasesElsewhere, found] at releases
    cases isClose : call.isClose with
    | true =>
        rw [isClose] at keeps
        exact Bool.eq_false_iff.mpr fun released => keeps (by rw [released])
    | false =>
        rw [isClose] at releases
        cases released : chance.released with
        | true => rfl
        | false => exact absurd (by rw [released]) releases
  next fd store idle =>
    split at ran
    next vacant =>
      obtain rfl := Option.some.inj ran
      have exact := sound.custody.exact store idle
      refine .idles ?_ rfl sound.whole
      rw [insert_ours vacant]
      exact exact.openRaw vacant.2.1
    next => cases ran
  next fd store idle =>
    split at ran
    next raw =>
      obtain rfl := Option.some.inj ran
      have exact := sound.custody.exact store idle
      refine .idles ?_ rfl sound.whole
      rw [Finset.erase_val]
      exact exact.closeRaw raw
    next => cases ran
  next others =>
    split at ran
    next =>
      obtain rfl := Option.some.inj ran
      exact ⟨sound.keeps, sound.whole, sound.closing⟩
    next => cases ran
  next => cases ran

/-- A `close` in `ucb_file_close` that fails and has released the descriptor leaves its handle. -/
theorem Sound.betrayed {action : Action} (sound : Sound world)
    (ran : Handles.step world action = some after) (failed : ¬ KeepsInClose world action) :
    ¬ InCustody after := by
  intro custody
  replace failed : failedClose world action = some (true, true) := not_not.mp failed
  unfold failedClose at failed
  split at failed
  next chance call store fd next here =>
    split at failed
    next both =>
      obtain ⟨fault, held⟩ := both
      obtain ⟨isClose, released⟩ := Prod.mk.inj (Option.some.inj failed)
      have keeps := sound.keeps
      rw [here] at keeps
      cases call with
      | close place =>
          obtain ⟨errno, isErrno⟩ := Option.ne_none_iff_exists'.mp fault
          -- the handle goes on to answer for what has been held before
          obtain ⟨store', returns⟩ :=
            close_returns (sound.closing place store _ here) (.error errno)
          have answersFor := keeps.2 (.error errno) _ rfl
          rw [returns] at answersFor
          simp only [Handles.step, here, serve, Chance.unless, isErrno, released,
            Finset.mem_union_left _ held, if_true, or_true, Option.map_some,
            Option.some.injEq] at ran
          subst ran
          have idle := custody.exact store' (by rw [returns]; rfl)
          have less : (world.table.drop fd).ours.val = world.table.ours.val :=
            idle.held.trans answersFor.held.symm
          exact Finset.notMem_erase fd _ (Finset.val_inj.mp less ▸ held)
      | _ => cases isClose
    next => cases failed
  next => cases failed

/-- A failing `close` that is not that of `ucb_file_close` releases the descriptor. Then in every
state of a run the thread has closed nothing but what it held, and between calls every descriptor
that it holds is answered for once, by a handle or by its caller, if and only if each failing
`close` of `ucb_file_close` keeps the descriptor. -/
theorem descriptors_in_custody (initial : first.Initial)
    (replayed : replay Handles.step first actions = some last)
    (releases : MeetsAll Handles.step ReleasesElsewhere first actions) :
    (∀ front rest, actions = front ++ rest →
        ∀ world ∈ replay Handles.step first front, InCustody world) ↔
      MeetsAll Handles.step KeepsInClose first actions := by
  refine good_throughout_iff (fun world => InCustody world → Sound world) InCustody
    (fun before action after invariant good assumed ran => ?_) (fun _ => initial.sound)
    initial.sound.custody replayed releases
  have sound := invariant good
  by_cases keeps : KeepsInClose before action
  · have sound' := sound.step ran keeps assumed
    exact ⟨fun _ => sound', iff_of_true sound'.custody keeps⟩
  · have betrayed := sound.betrayed ran keeps
    exact ⟨fun good => absurd good betrayed, iff_of_false betrayed keeps⟩

end Runs

/-! ## A run -/

def nothingHeld : World :=
  ⟨⟨∅, ∅⟩, .idle ⟨[], ∅⟩, false⟩

theorem nothingHeld_initial : nothingHeld.Initial :=
  ⟨rfl, rfl, [], rfl, by simp⟩

/-- Every call of the system succeeds. -/
def succeeds : Chance :=
  ⟨none, (3, 4), true, true, ⟨.readWrite, false, false⟩, .regular⟩

/-- A file is opened and closed, which fails with `EIO` and releases the descriptor. -/
def closeFails : List Action :=
  .call (.openMode [0x2F] { write := true } 0) ::
    List.replicate 6 (.proceed succeeds) ++
      [.call (.close 0), .proceed { succeeds with fault := some ⟨5, by decide⟩ }]

theorem descriptors_in_custody_closeFails : ¬ ∀ front rest, closeFails = front ++ rest →
    ∀ world ∈ replay Handles.step nothingHeld front, InCustody world := by
  cases replayed : replay Handles.step nothingHeld closeFails with
  | none => cases replayed
  | some last =>
      rw [descriptors_in_custody nothingHeld_initial replayed (by decide)]
      decide

end Ucb.File.Handles
