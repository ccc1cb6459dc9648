import Mathlib.Data.BitVec
import Mathlib.Tactic.Common

namespace Dspc.Cpp

variable {w : Nat}

def low (x : BitVec w) : BitVec 32 := x.setWidth 32

/-- A 32-bit value in a type of `w` bits: nothing above bit 31 is set. -/
def widen (y : BitVec 32) : BitVec w := y.setWidth w

theorem low_and (x y : BitVec w) : low (x &&& y) = low x &&& low y := BitVec.setWidth_and
theorem low_or (x y : BitVec w) : low (x ||| y) = low x ||| low y := BitVec.setWidth_or
theorem low_xor (x y : BitVec w) : low (x ^^^ y) = low x ^^^ low y := BitVec.setWidth_xor

section Low

variable (wide : 32 ≤ w)
include wide

theorem low_add (x y : BitVec w) : low (x + y) = low x + low y := BitVec.setWidth_add x y wide

theorem low_not (x : BitVec w) : low (~~~x) = ~~~low x := BitVec.setWidth_not wide

theorem low_widen (y : BitVec 32) : low (widen y : BitVec w) = y := by
  rw [low, widen, BitVec.setWidth_setWidth_of_le _ wide, BitVec.setWidth_eq]

theorem widen_toNat (y : BitVec 32) : (widen y : BitVec w).toNat = y.toNat := by
  rw [widen, BitVec.toNat_setWidth, Nat.mod_eq_of_lt]
  exact y.isLt.trans_le (Nat.pow_le_pow_right (by decide) wide)

theorem widen_lt (y : BitVec 32) : (widen y : BitVec w).toNat < 2 ^ 32 := by
  rw [widen_toNat wide]
  exact y.isLt

theorem and_mask (x : BitVec w) : x &&& BitVec.ofNat w 0xFFFFFFFF = widen (low x) := by
  apply BitVec.eq_of_toNat_eq
  have fits : 2 ^ 32 ≤ 2 ^ w := Nat.pow_le_pow_right (by decide) wide
  rw [widen_toNat wide, low, BitVec.toNat_and, BitVec.toNat_ofNat, BitVec.toNat_setWidth,
    Nat.mod_eq_of_lt (show 0xFFFFFFFF < 2 ^ w by omega)]
  exact Nat.and_two_pow_sub_one_eq_mod x.toNat 32

theorem low_shiftLeft (x : BitVec w) (k : Nat) : low (x <<< k) = low x <<< k :=
  BitVec.setWidth_shiftLeft_of_le wide

/-- A right shift agrees with the 32-bit one only on a number without high bits. -/
theorem widen_shiftRight (y : BitVec 32) (k : Nat) : (widen y : BitVec w) >>> k = widen (y >>> k) := by
  apply BitVec.eq_of_toNat_eq
  rw [BitVec.toNat_ushiftRight, widen_toNat wide, widen_toNat wide, BitVec.toNat_ushiftRight]

theorem low_rotate (y : BitVec 32) {k : Nat} (inside : k < 32) :
    low ((widen y : BitVec w) >>> k ||| (widen y : BitVec w) <<< (32 - k)) = y.rotateRight k := by
  rw [low_or, widen_shiftRight wide, low_shiftLeft wide, low_widen wide,
    low_widen wide, BitVec.rotateRight_def, Nat.mod_eq_of_lt inside]

end Low

/-- At 32 bits nothing is widened. -/
theorem map_widen {n : Nat} (v : Vector (BitVec 32) n) : v.map widen = v := by
  apply Vector.ext
  intro i h
  rw [Vector.getElem_map, widen, BitVec.setWidth_eq]

end Dspc.Cpp
