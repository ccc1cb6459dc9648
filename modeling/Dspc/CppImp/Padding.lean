import Dspc.CppImp.Core

namespace Dspc.CppImp
open Cpp

variable {w : Nat}

def zeroCount (n : Nat) : Nat := ((55 - n : Int).bmod (2 ^ 29)).toNat

/-- Up to 55 bytes the count is the least one, and beyond only when the wrapped `k`
happens to leave it there. -/
theorem zeroCount_exact_iff (n : Nat) :
    zeroCount n = Sha256.zeroBytes n ↔
      n % 2 ^ 29 ≤ 55 ∨ 2 ^ 29 - 8 ≤ n % 2 ^ 29 ∨ n % 2 ^ 29 ≤ 2 ^ 28 + 55 ∧ n % 64 = 55 := by
  unfold zeroCount Sha256.zeroBytes
  simp only [Int.bmod_def]
  omega

theorem pushBytes_eq (charSigned : Bool) {input : List (BitVec 8)} (fits : input.length ≤ intMax) :
    forInt input.length 1 (pushByte charSigned input) 0 [] = some (input.map (·.setWidth w)) := by
  let Inv (i : Nat) (block : List (BitVec w)) : Prop :=
    i ≤ input.length ∧ block = (input.take i).map (·.setWidth w)
  have iterate (i : Nat) (block : List (BitVec w)) (more : (i : Int) < input.length) (inv : Inv i block) :
      ∃ next, pushByte charSigned input i block = some next ∧ Inv (i + 1) next := by
    obtain ⟨_, rfl⟩ := inv
    have inside : i < input.length := by omega
    refine ⟨_, ?_, inside, rfl⟩
    rw [pushByte, List.getElem?_eq_getElem inside, Option.bind_eq_bind, Option.bind_some, Bitset.ofULL,
      charToULL_low, List.take_succ_eq_append_getElem inside, List.map_append]
    rfl
  have first : Inv 0 [] := ⟨Nat.zero_le _, rfl⟩
  obtain ⟨j, last, run, exit, bound, rfl⟩ := forInt_rule iterate first (by omega)
  rw [run, List.take_of_length_le (by omega)]

theorem pushZeros_eq (count : Int) (fits : count ≤ intMax) (block : List (BitVec w)) :
    forInt count 1 pushZero 0 block = some (block ++ List.replicate count.toNat 0) := by
  let Inv (i : Nat) (longer : List (BitVec w)) : Prop := i ≤ count.toNat ∧ longer = block ++ List.replicate i 0
  have iterate (i : Nat) (longer : List (BitVec w)) (more : (i : Int) < count) (inv : Inv i longer) :
      ∃ next, pushZero i longer = some next ∧ Inv (i + 1) next := by
    obtain ⟨_, rfl⟩ := inv
    refine ⟨_, rfl, by omega, ?_⟩
    rw [List.replicate_succ', ← List.append_assoc]
  have first : Inv 0 block := ⟨Nat.zero_le _, (List.append_nil block).symm⟩
  obtain ⟨j, last, run, exit, bound, rfl⟩ := forInt_rule iterate first (by omega)
  have done : j = count.toNat := by omega
  rw [run, done]

theorem pushSlice_eq (n : Nat) (block : List (BitVec w)) {t : Nat} (inside : t < 8) :
    pushSlice (Bitset.toString (BitVec.ofNat 64 (8 * n))) (8 * t)
        (block ++ ((Sha256.lengthBytes n).take t).map (·.setWidth w)) =
      some (block ++ ((Sha256.lengthBytes n).take (t + 1)).map (·.setWidth w)) := by
  have size : (Sha256.lengthBytes n).length = 8 := List.length_ofFn
  have within : t < (Sha256.lengthBytes n).length := by omega
  have byte : (Sha256.lengthBytes n)[t] = (BitVec.ofNat 64 (8 * n)).extractLsb' (56 - 8 * t) 8 := by
    simp only [Sha256.lengthBytes, List.getElem_ofFn]
  rw [pushSlice, Bitset.ofString_substr _ (by omega), Option.bind_eq_bind, Option.bind_some,
    List.take_succ_eq_append_getElem within, List.map_append, List.map_singleton, byte, List.append_assoc]

theorem pushLength_eq (n : Nat) (block : List (BitVec w)) :
    (pushSlice (Bitset.toString (BitVec.ofNat 64 (8 * n))) 0 block).bind
        (forInt 63 8 (pushSlice (Bitset.toString (BitVec.ofNat 64 (8 * n)))) 8) =
      some (block ++ (Sha256.lengthBytes n).map (·.setWidth w)) := by
  let Inv (i : Nat) (longer : List (BitVec w)) : Prop :=
    ∃ t ≤ 8, i = 8 * t ∧ longer = block ++ ((Sha256.lengthBytes n).take t).map (·.setWidth w)
  have iterate (i : Nat) (longer : List (BitVec w)) (more : (i : Int) < 63) (inv : Inv i longer) :
      ∃ next, pushSlice (Bitset.toString (BitVec.ofNat 64 (8 * n))) i longer = some next ∧ Inv (i + 8) next := by
    obtain ⟨t, _, rfl, rfl⟩ := inv
    exact ⟨_, pushSlice_eq n block (by omega), t + 1, by omega, by omega, rfl⟩
  have start : Inv 0 block := ⟨0, by decide, rfl, (List.append_nil block).symm⟩
  obtain ⟨next, slice, first⟩ := iterate 0 block (by decide) start
  obtain ⟨j, last, run, exit, t, bound, rfl, rfl⟩ := forInt_rule iterate first
    (by unfold intMax; omega)
  have size : (Sha256.lengthBytes n).length = 8 := List.length_ofFn
  rw [slice, Option.bind_some, run, List.take_of_length_le (by omega)]

theorem lengthOf_eq {n : Nat} (fits : n ≤ intMax) : lengthOf n = (8 * n : Nat) := by
  have int : intMax = 2 ^ 31 - 1 := rfl
  have inside : ((n * 8 : Nat) : Int).bmod (2 ^ 64) = (n * 8 : Nat) := Int.bmod_eq_of_le (by omega) (by omega)
  unfold lengthOf
  rw [inside]
  omega

/-- In bytes, `k` is reduced modulo `2 ^ 29`: `k -= 7` takes the bits off that are no
whole byte. -/
theorem kOf_eq {n : Nat} (fits : n ≤ intMax) :
    kOf (8 * n : Nat) = some (8 * (55 - n : Int).bmod (2 ^ 29)) := by
  have int : intMax = 2 ^ 31 - 1 := rfl
  have inside : checked 64 (447 - (8 * n : Nat) : Int) = some (447 - (8 * n : Nat) : Int) := by
    rw [checked, if_pos (by omega)]
  have bits : (447 - (8 * n : Nat) : Int).bmod (2 ^ 32) - 7 = 8 * (55 - n : Int).bmod (2 ^ 29) := by
    simp only [Int.bmod_def]
    omega
  have lower := Int.le_bmod (x := 55 - n) (Nat.two_pow_pos 29)
  have upper := Int.bmod_lt (x := 55 - n) (Nat.two_pow_pos 29)
  rw [kOf, inside, Option.bind_eq_bind, Option.bind_some]
  dsimp only
  rw [bits, checked, if_pos (by omega)]

theorem padding_eq (charSigned : Bool) {input : List (BitVec 8)} (fits : input.length ≤ intMax) :
    padding charSigned input = some ((Sha256.padWith input (zeroCount input.length)).map (·.setWidth w)) := by
  have bytes : (8 * (55 - input.length : Int).bmod (2 ^ 29)).tdiv 8 = (55 - input.length : Int).bmod (2 ^ 29) :=
    Int.mul_tdiv_cancel_left _ (by decide)
  have upper := Int.bmod_lt (x := 55 - input.length) (Nat.two_pow_pos 29)
  have int : intMax = 2 ^ 31 - 1 := rfl
  have blob : Bitset.ofULL 64 (BitVec.ofInt 64 (8 * input.length : Nat)) = BitVec.ofNat 64 (8 * input.length) := by
    rw [Bitset.ofULL, BitVec.setWidth_eq, BitVec.ofInt_natCast]
  have marker : (0x80 : BitVec 8).setWidth w = 0x80 := BitVec.eq_of_toNat_eq (by rw [BitVec.toNat_setWidth]; rfl)
  have zero : (0 : BitVec 8).setWidth w = 0 := BitVec.setWidth_zero w 8
  have zeros := pushZeros_eq (w := w) ((55 - input.length : Int).bmod (2 ^ 29)) (by omega)
  rw [padding, pushBytes_eq charSigned fits, Option.bind_eq_bind, Option.bind_some]
  simp only [List.length_map, lengthOf_eq fits, kOf_eq fits, Option.bind_eq_bind, Option.bind_some, bytes, zeros]
  rw [blob, pushLength_eq]
  simp only [Sha256.padWith, List.map_append, List.map_cons, List.append_assoc, List.map_replicate, zeroCount,
    marker, zero]
  rfl

/-- From `2 ^ 31` bytes on, the counter of the loop over the message overflows. -/
theorem padding_overflow (charSigned : Bool) {input : List (BitVec 8)} (long : intMax < input.length) :
    (padding charSigned input : Option (List (BitVec w))) = none := by
  rw [padding, forInt_overflow (by omega) (Nat.zero_le _), Option.bind_eq_bind, Option.bind_none]

end Dspc.CppImp
