import Mathlib.Tactic.Common

namespace Dspc.Cpp

/-- An array of `n` elements; `none` is an element with an indeterminate value. -/
abbrev Cells (α : Type*) (n : Nat) := Vector (Option α) n

namespace Cells

variable {α : Type*} {n : Nat}

def uninit (n : Nat) : Cells α n := .replicate n none

/-- Reading out of bounds or an indeterminate element is undefined behaviour. -/
def read (v : Cells α n) (i : Nat) : Option α := v[i]?.join

def write (v : Cells α n) (i : Nat) (x : α) : Option (Cells α n) :=
  if inside : i < n then some (v.set i (some x)) else none

theorem read_uninit (i : Nat) : (uninit n : Cells α n).read i = none := by
  by_cases inside : i < n
  · simp [read, uninit, inside]
  · simp [read, inside]

theorem write_eq (v : Cells α n) {i : Nat} (x : α) (inside : i < n) :
    ∃ next, v.write i x = some next ∧ next.read i = some x ∧ ∀ j, j ≠ i → next.read j = v.read j := by
  refine ⟨v.set i (some x), by rw [write, dif_pos inside], ?_, fun j other => ?_⟩
  · simp [read, inside]
  · simp only [read]
    rw [Vector.getElem?_set_ne inside (Ne.symm other)]

/-- The array `v` once the values of `g` are written below `t` over the array `old`. -/
structure FilledTo (v old : Cells α n) (g : Nat → α) (t : Nat) : Prop where
  done : ∀ i < t, v.read i = some (g i)
  rest : ∀ i, t ≤ i → v.read i = old.read i

variable {v old : Cells α n} {g : Nat → α} {t : Nat}

theorem FilledTo.start (v : Cells α n) (g : Nat → α) : FilledTo v v g 0 :=
  ⟨fun _ before => by omega, fun _ _ => rfl⟩

theorem FilledTo.write (filled : FilledTo v old g t) (inside : t < n) :
    ∃ next, v.write t (g t) = some next ∧ FilledTo next old g (t + 1) := by
  obtain ⟨next, written, here, elsewhere⟩ := write_eq v (g t) inside
  refine ⟨next, written, fun i before => ?_, fun i after => ?_⟩
  · by_cases last : i = t
    · rw [last, here]
    · rw [elsewhere i last, filled.done i (by omega)]
  · rw [elsewhere i (by omega), filled.rest i (by omega)]

theorem FilledTo.scratch (filled : FilledTo v old g t) (inside : t < n) (x : α) :
    ∃ next, v.write t x = some next ∧ next.read t = some x ∧
      ∃ last, next.write t (g t) = some last ∧ FilledTo last old g (t + 1) := by
  obtain ⟨next, written, here, elsewhere⟩ := write_eq v x inside
  obtain ⟨last, rewritten, top, below⟩ := write_eq next (g t) inside
  refine ⟨next, written, here, last, rewritten, fun i before => ?_, fun i after => ?_⟩
  · by_cases new : i = t
    · rw [new, top]
    · rw [below i new, elsewhere i new, filled.done i (by omega)]
  · rw [below i (by omega), elsewhere i (by omega), filled.rest i (by omega)]

end Cells

end Dspc.Cpp
