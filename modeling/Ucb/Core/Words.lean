import Ucb.Core.Exec

/-!
Contract: arrays of 32-bit words in a block of bytes.

Owns:
- the bytes of a word, least significant first, and loading a word by its index;
- that a load sees the array it was stored as, and only what no one has
  written over.
-/

namespace Ucb

/-- The bytes of a `uint32_t`. -/
def wordBytes (value : Nat) : List UInt8 :=
  [UInt8.ofNat value, UInt8.ofNat (value / 0x100), UInt8.ofNat (value / 0x10000),
    UInt8.ofNat (value / 0x1000000)]

def wordsBytes (values : List Nat) : List UInt8 :=
  values.flatMap wordBytes

def wordAt (mem : List UInt8) (index : Nat) : Exec Nat := do
  let b0 ← byteAt mem (4 * index)
  let b1 ← byteAt mem (4 * index + 1)
  let b2 ← byteAt mem (4 * index + 2)
  let b3 ← byteAt mem (4 * index + 3)
  pure (b0 + 0x100 * b1 + 0x10000 * b2 + 0x1000000 * b3)

/-- The loads of `count` array elements from `index` on. -/
def wordsAt (mem : List UInt8) (index : Nat) : Nat → Exec (List Nat)
  | 0 => pure []
  | count + 1 => do
      let first ← wordAt mem index
      let rest ← wordsAt mem (index + 1) count
      pure (first :: rest)

@[simp] theorem wordsBytes_nil : wordsBytes [] = [] := rfl

@[simp] theorem wordsBytes_cons (value : Nat) (rest : List Nat) :
    wordsBytes (value :: rest) = wordBytes value ++ wordsBytes rest := rfl

@[simp] theorem wordsBytes_append (left right : List Nat) :
    wordsBytes (left ++ right) = wordsBytes left ++ wordsBytes right :=
  List.flatMap_append

@[simp] theorem wordsBytes_length (values : List Nat) :
    (wordsBytes values).length = 4 * values.length := by
  induction values with
  | nil => rfl
  | cons value rest inductionHypothesis =>
      rw [wordsBytes_cons, List.length_append, inductionHypothesis, List.length_cons]
      show 4 + 4 * rest.length = 4 * (rest.length + 1)
      omega

/-- A load sees the word stored at its index. -/
theorem wordAt_stored (front : List Nat) {value : Nat} (small : value < 2 ^ 32)
    (rest : List UInt8) :
    wordAt (wordsBytes front ++ (wordBytes value ++ rest)) front.length = .ok value := by
  have place : 4 * front.length = (wordsBytes front).length := (wordsBytes_length front).symm
  have at' : ∀ offset, byteAt (wordsBytes front ++ (wordBytes value ++ rest))
      (4 * front.length + offset) = byteAt (wordBytes value ++ rest) offset := by
    intro offset
    rw [place, ← byteAt_drop, List.drop_left]
  have first := at' 0
  rw [Nat.add_zero] at first
  rw [wordAt, first, at', at', at']
  simp only [wordBytes, List.cons_append, byteAt_cons_zero, byteAt_cons_succ, Exec.ok_bind,
    Exec.pure_eq_ok, UInt8.toNat_ofNat']
  congr 1
  omega

theorem wordsAt_stored (after : List UInt8) (values : List Nat) :
    ∀ front : List Nat, (∀ value ∈ values, value < 2 ^ 32) →
      wordsAt (wordsBytes front ++ (wordsBytes values ++ after)) front.length values.length =
        .ok values := by
  induction values with
  | nil => intro front _; rfl
  | cons value rest inductionHypothesis =>
      intro front small
      obtain ⟨first, later⟩ := List.forall_mem_cons.mp small
      have tail := inductionHypothesis (front ++ [value]) later
      have head := wordAt_stored front first (wordsBytes rest ++ after)
      simp only [wordsBytes_append, wordsBytes_cons, wordsBytes_nil, List.append_nil,
        List.append_assoc, List.length_append, List.length_cons, List.length_nil,
        Nat.zero_add] at tail
      rw [wordsBytes_cons, List.append_assoc, List.length_cons, wordsAt, head, Exec.ok_bind, tail]
      rfl

/-- A load behind bytes that were written over the front of a block. -/
theorem byteAt_behind (written mem : List UInt8) {index : Nat} (behind : written.length ≤ index) :
    byteAt (written ++ mem.drop written.length) index = byteAt mem index := by
  obtain ⟨offset, rfl⟩ := Nat.exists_eq_add_of_le behind
  rw [← byteAt_drop, List.drop_left, byteAt_drop]

theorem wordAt_behind (written mem : List UInt8) {index : Nat}
    (behind : written.length ≤ 4 * index) :
    wordAt (written ++ mem.drop written.length) index = wordAt mem index := by
  simp only [wordAt, byteAt_behind written mem behind,
    byteAt_behind written mem (Nat.le_add_right_of_le behind)]

end Ucb
