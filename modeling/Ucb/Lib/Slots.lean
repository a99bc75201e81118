import Mathlib.Data.List.Basic

/-!
Contract: lists whose positions are slots, and replacing the element of one.

Owns: what `List.set` does to membership and to counts, in terms of the element
that was replaced.
-/

namespace Ucb.Lib

universe u

variable {α : Type u} {slots : List α} {index : Nat} {old : α}

theorem lt_of_getElem? (here : slots[index]? = some old) : index < slots.length :=
  (List.getElem?_eq_some_iff.mp here).1

theorem getElem?_set_same (here : slots[index]? = some old) (new : α) :
    (slots.set index new)[index]? = some new :=
  List.getElem?_set_self (lt_of_getElem? here)

theorem mem_set_same (here : slots[index]? = some old) (new : α) : new ∈ slots.set index new :=
  List.mem_set (lt_of_getElem? here) new

/-- Counts before and after, both sides with what the other one lost. -/
theorem countP_set_add (here : slots[index]? = some old) (p : α → Bool) (new : α) :
    (slots.set index new).countP p + (if p old then 1 else 0) =
      slots.countP p + (if p new then 1 else 0) := by
  obtain ⟨inside, rfl⟩ := List.getElem?_eq_some_iff.mp here
  rw [List.countP_set inside]
  by_cases counted : p slots[index] = true
  · have positive : 0 < slots.countP p :=
      List.countP_pos_iff.mpr ⟨slots[index], List.getElem_mem inside, counted⟩
    rw [if_pos counted]
    omega
  · rw [if_neg counted]
    omega

/-- An element that is neither the old nor the new one stays. -/
theorem mem_set_iff_of_ne {x new : α} (here : slots[index]? = some old) (notOld : x ≠ old)
    (notNew : x ≠ new) : x ∈ slots.set index new ↔ x ∈ slots := by
  constructor
  · intro member
    rcases List.mem_or_eq_of_mem_set member with inside | same
    · exact inside
    · exact absurd same notNew
  · intro member
    obtain ⟨position, found⟩ := List.getElem?_of_mem member
    have elsewhere : index ≠ position := by
      rintro rfl
      exact notOld (Option.some.inj (found.symm.trans here))
    apply List.mem_of_getElem? (i := position)
    rw [List.getElem?_set_ne elsewhere, found]

/-- An entry after a replacement is the new one or an old one elsewhere. -/
theorem getElem?_set_cases {x new : α} {position : Nat}
    (found : (slots.set index new)[position]? = some x) :
    (position = index ∧ x = new) ∨ (position ≠ index ∧ slots[position]? = some x) := by
  by_cases same : index = position
  · subst same
    have inside : index < (slots.set index new).length := lt_of_getElem? found
    rw [List.length_set] at inside
    rw [List.getElem?_set_self inside] at found
    exact .inl ⟨rfl, (Option.some.inj found).symm⟩
  · rw [List.getElem?_set_ne same] at found
    exact .inr ⟨Ne.symm same, found⟩

/-- An entry of a list with one more element is the last or an old one. -/
theorem getElem?_append_cases {x last : α} {position : Nat}
    (found : (slots ++ [last])[position]? = some x) :
    (position = slots.length ∧ x = last) ∨ slots[position]? = some x := by
  rcases Nat.lt_trichotomy position slots.length with below | same | above
  · rw [List.getElem?_append_left below] at found
    exact .inr found
  · subst same
    simp at found
    exact .inl ⟨rfl, found.symm⟩
  · rw [List.getElem?_eq_none (by rw [List.length_append, List.length_singleton]; omega)] at found
    cases found

end Ucb.Lib
