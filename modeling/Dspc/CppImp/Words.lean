import Dspc.Sha256.Message
import Dspc.CppImp.Sha256C

namespace Dspc.CppImp
open Cpp

variable {w : Nat} (wide : 32 ≤ w)
include wide

theorem low_Ch (x y z : BitVec w) : low (Ch x y z) = Sha256.Ch (low x) (low y) (low z) := by
  simp only [Ch, Sha256.Ch, low_xor, low_and, low_not wide]

omit wide in
theorem low_Maj (x y z : BitVec w) : low (Maj x y z) = Sha256.Maj (low x) (low y) (low z) := by
  simp only [Maj, Sha256.Maj, low_xor, low_and]

theorem low_rotright (y : BitVec 32) {k : Nat} (inside : k < 32) :
    low (rotright (widen y : BitVec w) k) = y.rotateRight k := low_rotate wide y inside

theorem low_shfright (y : BitVec 32) (k : Nat) : low (shfright (widen y : BitVec w) k) = y >>> k := by
  rw [shfright, widen_shiftRight wide, low_widen wide]

/-- Rotations leave bits above bit 31 behind, which the exclusive or keeps out of the low word. -/
theorem low_rotations (y : BitVec 32) {i j k : Nat} (first : i < 32) (second : j < 32) (third : k < 32) :
    low (rotright (widen y : BitVec w) i ^^^ rotright (widen y) j ^^^ rotright (widen y) k) =
      y.rotateRight i ^^^ y.rotateRight j ^^^ y.rotateRight k := by
  rw [low_xor, low_xor, low_rotright wide y first, low_rotright wide y second, low_rotright wide y third]

theorem low_rotations_shift (y : BitVec 32) {i j k : Nat} (first : i < 32) (second : j < 32) :
    low (rotright (widen y : BitVec w) i ^^^ rotright (widen y) j ^^^ shfright (widen y) k) =
      y.rotateRight i ^^^ y.rotateRight j ^^^ y >>> k := by
  rw [low_xor, low_xor, low_rotright wide y first, low_rotright wide y second, low_shfright wide]

theorem low_sig0 (y : BitVec 32) : low (sig0 (widen y : BitVec w)) = Sha256.sigma0 y :=
  low_rotations_shift wide y (by decide) (by decide)

theorem low_sig1 (y : BitVec 32) : low (sig1 (widen y : BitVec w)) = Sha256.sigma1 y :=
  low_rotations_shift wide y (by decide) (by decide)

theorem low_ep0 (y : BitVec 32) : low (ep0 (widen y : BitVec w)) = Sha256.bigSigma0 y :=
  low_rotations wide y (by decide) (by decide) (by decide)

theorem low_ep1 (y : BitVec 32) : low (ep1 (widen y : BitVec w)) = Sha256.bigSigma1 y :=
  low_rotations wide y (by decide) (by decide) (by decide)

theorem low_Constant_k (i : Nat) (h : i < 64) : low (Constant_k : Vector (BitVec w) 64)[i] = Sha256.K[i] := by
  have table : (Constant_k : Vector (BitVec w) 64).map low = Sha256.K := by
    simp only [Constant_k, Sha256.K, Vector.map_mk, List.map_toArray, List.map_cons, List.map_nil]
    simp only [low, BitVec.ofNat_eq_ofNat, BitVec.setWidth_ofNat_of_le wide]
  rw [← table, Vector.getElem_map]

theorem H_eq : (H : Vector (BitVec w) 8) = Sha256.initialHash.map widen := by
  have small : ∀ n < 2 ^ 32, (BitVec.ofNat w n) = widen (BitVec.ofNat 32 n) := by
    intro n h
    apply BitVec.eq_of_toNat_eq
    have fits : 2 ^ 32 ≤ 2 ^ w := Nat.pow_le_pow_right (by decide) wide
    rw [widen_toNat wide, BitVec.toNat_ofNat, BitVec.toNat_ofNat, Nat.mod_eq_of_lt (by omega), Nat.mod_eq_of_lt h]
  simp only [H, Sha256.initialHash, Vector.map_mk, List.map_toArray, List.map_cons, List.map_nil]
  simp only [BitVec.ofNat_eq_ofNat]
  simp (disch := decide) only [small]

omit wide in
theorem toBitset32_eq (x : BitVec w) : toBitset32 x = low x := by
  rw [toBitset32, Bitset.ofULL, BitVec.setWidth_setWidth_of_le _ (by decide), low]

theorem pack_bytes (b0 b1 b2 b3 : BitVec 8) :
    toBitset32 (b0.setWidth w <<< 24) ||| toBitset32 (b1.setWidth w <<< 16) |||
      toBitset32 (b2.setWidth w <<< 8) ||| toBitset32 (b3.setWidth w) = b0 ++ b1 ++ b2 ++ b3 := by
  have byte (b : BitVec 8) : low (b.setWidth w) = b.setWidth 32 := BitVec.setWidth_setWidth_of_le b wide
  simp only [toBitset32_eq, low_shiftLeft wide, byte]
  apply BitVec.eq_of_getLsbD_eq
  intro i h
  simp only [BitVec.getLsbD_or, BitVec.getLsbD_shiftLeft, BitVec.getLsbD_setWidth, BitVec.getLsbD_append]
  grind

end Dspc.CppImp
