import Mathlib.Tactic.Common

namespace Dspc.Vhdl

/-- The subtype `integer range lo to hi`, for natural bounds. -/
abbrev IntegerRange (lo hi : Nat) := {i : Nat // lo ≤ i ∧ i ≤ hi}

def IntegerRange.check (lo hi i : Nat) : Option (IntegerRange lo hi) :=
  if within : lo ≤ i ∧ i ≤ hi then some ⟨i, within⟩ else none

def assign {α : Type*} {n : Nat} (v : Vector α n) (i : Nat) (x : α) : Option (Vector α n) :=
  if within : i < n then some (v.set i x) else none

theorem IntegerRange.check_eq {lo hi i : Nat} (within : lo ≤ i ∧ i ≤ hi) :
    check lo hi i = some ⟨i, within⟩ := by
  rw [check, dif_pos within]

theorem assign_eq {α : Type*} {n : Nat} (v : Vector α n) {i : Nat} (x : α) (within : i < n) :
    assign v i x = some (v.set i x) := by
  rw [assign, dif_pos within]

end Dspc.Vhdl
