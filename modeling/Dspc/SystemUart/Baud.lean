import Mathlib.Data.BitVec
import Mathlib.Data.List.GetD
import Mathlib.Tactic.Common

namespace Dspc.SystemUart

section Ticks

variable {divisor counter : BitVec 9} {enable : Bool} {wait : Nat}

/-- `baud_clk_en` is '1' again after `wait` cycles, if the counter is not loaded before. -/
def Ticks (divisor counter : BitVec 9) (enable : Bool) (wait : Nat) : Prop :=
  if wait = 0 then enable = true ∧ counter = divisor else enable = false ∧ counter.toNat + 1 = wait

theorem Ticks.enable_iff (ticks : Ticks divisor counter enable wait) : enable = true ↔ wait = 0 := by
  unfold Ticks at ticks
  split at ticks
  · rename_i now
    simp [now, ticks.1]
  · rename_i later
    simp [later, ticks.1]

theorem ticks_load (divisor value : BitVec 9) : Ticks divisor value false (value.toNat + 1) := by
  rw [Ticks, if_neg (Nat.succ_ne_zero _)]
  exact ⟨rfl, rfl⟩

theorem Ticks.next (positive : 0 < divisor.toNat) (ticks : Ticks divisor counter enable wait) :
    Ticks divisor (if counter == 0 then divisor else counter - 1) (counter == 0)
      (if wait = 0 then divisor.toNat else wait - 1) := by
  have running : divisor ≠ 0 := by
    rintro rfl
    exact absurd positive (by decide)
  unfold Ticks at ticks ⊢
  by_cases zero : counter = 0
  · have last : wait = 1 := by
      split at ticks
      · exact absurd (ticks.2.symm.trans zero) running
      · rw [zero] at ticks
        exact ticks.2.symm
    simp [zero, last]
  · have down : (counter - 1).toNat + 1 = counter.toNat := by bv_omega
    have some : counter.toNat ≠ 0 := by bv_omega
    split at ticks
    · rename_i now
      rw [if_pos now, if_neg (by omega)]
      simp only [beq_eq_false_iff_ne.mpr zero, Bool.false_eq_true, if_false, true_and]
      rw [down, ticks.2]
    · rename_i later
      rw [if_neg later, if_neg (by omega)]
      simp only [beq_eq_false_iff_ne.mpr zero, Bool.false_eq_true, if_false, true_and]
      omega

end Ticks

/-- The bits of a word in the order in which they are sent. -/
def lsbFirst {n : Nat} (b : BitVec n) : List Bool := List.ofFn fun k : Fin n => b.getLsbD k

theorem length_lsbFirst {n : Nat} (b : BitVec n) : (lsbFirst b).length = n := List.length_ofFn

theorem lsbFirst_injective {n : Nat} : Function.Injective (lsbFirst (n := n)) := by
  intro a b same
  have bits := List.ofFn_injective same
  apply BitVec.eq_of_getLsbD_eq
  intro k inside
  exact congrFun bits ⟨k, inside⟩

/-- A shift register whose next bits are the given ones, with '0' behind them. -/
def Shifts (register : BitVec 10) (bits : List Bool) : Prop := ∀ k, register.getLsbD k = bits.getD k false

theorem Shifts.shift {register : BitVec 10} {b : Bool} {bits : List Bool} (shifts : Shifts register (b :: bits)) :
    Shifts (register >>> 1) bits := by
  intro k
  rw [BitVec.getLsbD_ushiftRight, shifts, Nat.add_comm, List.getD_cons_succ]

theorem Shifts.eq_zero {register : BitVec 10} (shifts : Shifts register []) : register = 0 := by
  apply BitVec.eq_of_getLsbD_eq
  intro k _
  rw [shifts, List.getD_nil, BitVec.ofNat_eq_ofNat, BitVec.getLsbD_zero]

theorem Shifts.ne_zero {register : BitVec 10} {bits : List Bool} (shifts : Shifts register bits)
    (some : true ∈ bits) : register ≠ 0 := by
  rintro rfl
  obtain ⟨k, inside, high⟩ := List.getElem_of_mem some
  have bit := shifts k
  rw [List.getD_eq_getElem _ _ inside, high, BitVec.ofNat_eq_ofNat, BitVec.getLsbD_zero] at bit
  exact nomatch bit

theorem Shifts.lsbFirst_eq {register : BitVec 10} {bits : List Bool} (shifts : Shifts register bits)
    (length : bits.length = 10) : lsbFirst register = bits := by
  refine List.ext_getElem (by rw [length_lsbFirst, length]) fun k _ inside => ?_
  simp only [lsbFirst]
  rw [List.getElem_ofFn, shifts, List.getD_eq_getElem _ _ inside]

theorem shifts_load (b : BitVec 8) : Shifts (1#1 ++ b ++ 0#1) (false :: (lsbFirst b ++ [true])) := by
  intro k
  have size : (lsbFirst b).length = 8 := length_lsbFirst b
  rcases (by omega : k = 0 ∨ (0 < k ∧ k < 9) ∨ k = 9 ∨ 9 < k) with rfl | ⟨positive, data⟩ | rfl | beyond
  · rw [BitVec.getLsbD_append, if_pos (by decide)]
    rfl
  · obtain ⟨j, rfl⟩ := Nat.exists_eq_add_of_lt positive
    rw [List.getD_eq_getElem _ _ (by simp [size]; omega)]
    simp only [Nat.zero_add, List.getElem_cons_succ]
    rw [List.getElem_append_left (by omega)]
    simp only [lsbFirst, List.getElem_ofFn, BitVec.getLsbD_append]
    rw [if_neg (by omega), if_pos (by omega), Nat.add_sub_cancel]
  · rw [List.getD_cons_succ, List.getD_append_right _ _ _ _ (by omega), size, BitVec.getLsbD_append,
      BitVec.getLsbD_append, if_neg (by decide), if_neg (by decide)]
    rfl
  · rw [BitVec.getLsbD_of_ge _ _ (by omega), List.getD_eq_default _ _ (by simp [size]; omega)]

end Dspc.SystemUart
