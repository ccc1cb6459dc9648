import Mathlib.Algebra.GroupWithZero.Nat
import Mathlib.Data.Fin.Basic
import Mathlib.Tactic.Common

namespace Dspc.CircularBuffer

/-! A ring of `N` slots. One of them is kept free, to tell a full ring from an empty one. -/

variable {α : Type*} {N start finish : Nat}

def succ (N i : Nat) : Nat := (i + 1) % N

def size (N start finish : Nat) : Nat := if start ≤ finish then finish - start else finish + N - start

def slot [NeZero N] (v : Vector α N) (i : Nat) : α := v.get (Fin.ofNat N i)

def contents [NeZero N] (v : Vector α N) (start finish : Nat) : List α :=
  (List.range (size N start finish)).map fun i => slot v (start + i)

section Indices

variable (inside : start < N) (within : finish < N)
include within

theorem succ_eq : succ N finish = if finish + 1 = N then 0 else finish + 1 := by
  unfold succ
  split
  · rename_i last
    rw [last, Nat.mod_self]
  · exact Nat.mod_eq_of_lt (by omega)

include inside

theorem size_lt : size N start finish < N := by
  unfold size
  split <;> omega

omit within in
theorem size_eq_zero : size N start finish = 0 ↔ start = finish := by
  unfold size
  split <;> omega

theorem size_full : succ N finish = start ↔ size N start finish + 1 = N := by
  rw [succ_eq within]
  unfold size
  split <;> split <;> omega

theorem size_succ (room : succ N finish ≠ start) : size N start (succ N finish) = size N start finish + 1 := by
  rw [succ_eq within] at room ⊢
  unfold size
  split_ifs at room ⊢ <;> omega

theorem succ_inj (same : succ N start = succ N finish) : start = finish := by
  rw [succ_eq inside, succ_eq within] at same
  split_ifs at same <;> omega

theorem size_of_ne (some : start ≠ finish) : size N start finish = size N (succ N start) finish + 1 := by
  rw [succ_eq inside]
  unfold size
  split <;> split <;> split <;> omega

theorem add_size : (start + size N start finish) % N = finish := by
  unfold size
  split
  · rw [Nat.add_sub_cancel' ‹_›, Nat.mod_eq_of_lt within]
  · rw [show start + (finish + N - start) = finish + N by omega, Nat.add_mod_right, Nat.mod_eq_of_lt within]

/-- The used slots are not the one at the end. -/
theorem offset_ne {i : Nat} (used : i < size N start finish) : (start + i) % N ≠ finish := by
  have bound := size_lt inside within
  have last := add_size inside within
  intro same
  rw [← last] at same
  by_cases wraps : start + i < N
  · rw [Nat.mod_eq_of_lt wraps] at same
    by_cases beyond : start + size N start finish < N
    · rw [Nat.mod_eq_of_lt beyond] at same
      omega
    · rw [Nat.mod_eq_sub_mod (by omega), Nat.mod_eq_of_lt (by omega)] at same
      omega
  · rw [Nat.mod_eq_sub_mod (by omega), Nat.mod_eq_of_lt (by omega), Nat.mod_eq_sub_mod (by omega),
      Nat.mod_eq_of_lt (by omega)] at same
    omega

end Indices

section Contents

variable [NeZero N] {v : Vector α N} {x : α} (inside : start < N) (within : finish < N)

theorem slot_eq (v : Vector α N) (inside : start < N) : slot v start = v[start] := by
  unfold slot
  congr 1
  exact Fin.ext (Nat.mod_eq_of_lt inside)

theorem slot_set_of_ne {i : Nat} (other : i % N ≠ finish) : slot (v.set finish x) i = slot v i := by
  have place : (Fin.ofNat N i).val = i % N := rfl
  unfold slot
  change (v.set finish x)[(Fin.ofNat N i).val] = v[(Fin.ofNat N i).val]
  rw [Vector.getElem_set_ne _ _ (by omega)]

theorem length_contents : (contents v start finish).length = size N start finish := by
  rw [contents, List.length_map, List.length_range]

include inside

theorem contents_eq_nil : contents v start finish = [] ↔ start = finish := by
  rw [← List.length_eq_zero_iff, length_contents, size_eq_zero inside]

include within

/-- Writing to the free slot at the end does not show until the end is moved. -/
theorem contents_set : contents (v.set finish x) start finish = contents v start finish := by
  apply List.map_congr_left
  intro i member
  exact slot_set_of_ne within (offset_ne inside within (List.mem_range.mp member))

theorem contents_push (room : succ N finish ≠ start) :
    contents (v.set finish x) start (succ N finish) = contents v start finish ++ [x] := by
  have last : slot (v.set finish x) (start + size N start finish) = x := by
    unfold slot
    change (v.set finish x)[(Fin.ofNat N (start + size N start finish)).val] = x
    simp only [Fin.ofNat, add_size inside within, Vector.getElem_set_self]
  have before := contents_set (x := x) (v := v) inside within
  rw [contents] at before
  rw [contents, size_succ inside within room, List.range_succ, List.map_append, before, List.map_singleton, last]

theorem contents_advance (room : succ N finish ≠ start) :
    contents v start (succ N finish) = contents v start finish ++ [v[finish]] := by
  have push := contents_push (x := v[finish]) (v := v) inside within room
  rwa [Vector.set_getElem_self] at push

theorem contents_pop (some : start ≠ finish) :
    contents v start finish = v[start] :: contents v (succ N start) finish := by
  have shift (i : Nat) : slot v (start + (i + 1)) = slot v (succ N start + i) := by
    unfold slot succ
    congr 1
    apply Fin.ext
    change (start + (i + 1)) % N = ((start + 1) % N + i) % N
    rw [Nat.mod_add_mod, Nat.add_assoc, Nat.add_comm 1 i]
  rw [contents, size_of_ne inside within some, List.range_succ_eq_map, List.map_cons, List.map_map, Nat.add_zero,
    slot_eq v inside, contents]
  congr 1
  apply List.map_congr_left
  intro i _
  exact shift i

end Contents

end Dspc.CircularBuffer
