import Ucb.Container.CloneCustody
import Ucb.Container.GenericRefusals
import Ucb.Container.PqueueRefusals
import Ucb.Container.VectorRefusals
import Ucb.Str.Refusals

/-!
Contract: sequences of operations on any container whose allocator may refuse requests.

Owns:
- for strings, typed vectors, generic vectors and queues of one thread or of several, exactly
  which sequences leave the container as it was at each refusal;
- a string that cannot be released after a refusal.
-/

namespace Ucb.Container

open Ucb.Lib

theorem genericVectors_sound (cloner : CloneFunc) : (genericVectors cloner).Sound noVectors :=
  ⟨fun _ => none, fun _ => trivial⟩

/-- From a new container on, every refusal is withstood exactly when no refused request is one
that the container has to have granted. -/
theorem refusals_spared (tables : Unicode.UcbUcTables) (Thread α : Type) [DecidableEq Thread]
    (cloner : CloneFunc) (width : Nat) (wide : 0 < width)
    (narrow : ucbVectorTDefaultCapacity * width < 2 ^ 64) :
    (Str.strings tables).SparedFrom (Str.ProperStrCall tables) (Str.TextGranted tables) .zeroed ∧
      (typedVectors α width).SparedFrom (ProperVectorCall width) (ArraysGranted width)
        (fun _ => ucbVectorTNew) ∧
      (genericVectors cloner).SparedFrom (ProperGenericCall cloner) (BlocksGranted cloner)
        noVectors ∧
      ∀ args allocator pq, ucbPqueueInitCommon allocator args = .ok (some pq) →
        (pqueues α args).SparedFrom (ProperQueueCall args) BucketsGranted (newQueue pq) ∧
          (sharedPqueues Thread α args).SparedFrom (ProperSharedCall args) SharedBucketsGranted
            ⟨newQueue pq, none⟩ := by
  refine ⟨?_, ?_, ?_, ?_⟩
  · exact (Str.strings_sparedBy tables).sparedFrom Str.sound_zeroed
  · exact (typedVectors_sparedBy wide narrow).sparedFrom (typedVectors_sound α width)
  · exact (genericVectors_sparedBy cloner).sparedFrom (genericVectors_sound cloner)
  · intro args allocator pq made
    have queued : Queued args (newQueue pq : QueueState α) [] := queued_new made
    constructor
    · exact (pqueues_sparedBy α args).sparedFrom ⟨[], queued⟩
    · exact (sharedPqueues_sparedBy Thread α args).sparedFrom ⟨[], rfl, queued⟩

def meanAllocator : Allocator :=
  ⟨fun _ _ => false, fun _ => 0⟩

/-- A string without own memory that is refused all it asks for. -/
def refusedRequests : List (Allocator × Str.StrCall) :=
  [(meanAllocator, .init none 0), (meanAllocator, .op (.reserve 5)),
    (meanAllocator, .op (.appendCstr (.mem [97, 0]) 0)), (meanAllocator, .release)]

theorem refusals_spared_empty :
    Throughout (Str.strings Unicode.flagTables).run (Str.strings Unicode.flagTables).Withstands
      .zeroed refusedRequests := by
  have spared := refusals_spared Unicode.flagTables Bool Nat (failingClone []) 4
    (by decide) (by decide)
  refine (spared.1 refusedRequests ?_).mpr ?_
  · refine ⟨rfl, fun after ran => ?_⟩
    obtain rfl := Option.some.inj ran
    refine ⟨rfl, fun after ran => ?_⟩
    obtain rfl := Option.some.inj ran
    refine ⟨rfl, fun after ran => ?_⟩
    obtain rfl := Option.some.inj ran
    exact ⟨rfl, fun _ _ => trivial⟩
  · refine ⟨trivial, fun after ran => ?_⟩
    obtain rfl := Option.some.inj ran
    refine ⟨⟨fun _ _ owned => absurd rfl owned, trivial⟩, fun after ran => ?_⟩
    obtain rfl := Option.some.inj ran
    refine ⟨⟨fun _ _ _ _ => .inr (.inr fun _ owned => absurd rfl owned), trivial⟩,
      fun after ran => ?_⟩
    obtain rfl := Option.some.inj ran
    exact ⟨trivial, fun _ _ => trivial⟩

/-- The string `"a"`, and the same string after a refused `ucb_str_reserve`. -/
def letterStr : Str.UcbStr :=
  ⟨.heap [97, 0], 1, 2⟩

def danglingStr : Str.UcbStr :=
  ⟨.dangling, 1, 2⟩

theorem refusedReserve_dangles :
    (Str.strings Unicode.flagTables).run .zeroed (Str.zeroAllocator, .init (some [97, 0]) 0) =
        some (.live letterStr, true) ∧
      (Str.strings Unicode.flagTables).run (.live letterStr) (meanAllocator, .op (.reserve 5)) =
        some (.live danglingStr, false) ∧
      Str.strCall Unicode.flagTables Str.zeroAllocator (.live danglingStr) .release =
        .undefined ∧
      ¬ (Str.strings Unicode.flagTables).Withstands (.live letterStr)
        (meanAllocator, .op (.reserve 5)) := by
  have ran : (Str.strings Unicode.flagTables).run (.live letterStr)
      (meanAllocator, .op (.reserve 5)) = some (.live danglingStr, false) := rfl
  refine ⟨rfl, ran, rfl, Component.not_withstands ran fun sound => ?_⟩
  obtain ⟨content, holds, -⟩ := Str.holdsText_of_sound sound
  exact Str.not_holds_lost (.inr rfl) holds

end Ucb.Container
