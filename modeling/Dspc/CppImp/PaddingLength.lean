import Dspc.CppImp.Padding

namespace Dspc.CppImp
open Cpp

variable {w : Nat}

/-- The vector `block` is the padded message: the message, `0x80`, the least number of
zero bytes that fills up a block of 64, and the length in bits. -/
def Padded (input : List (BitVec 8)) (block : List (BitVec w)) : Prop :=
  ∃ z, IsLeast {z | 64 ∣ input.length + 1 + z + 8} z ∧
    block = (input ++ 0x80 :: (List.replicate z 0 ++ Sha256.lengthBytes input.length) : List (BitVec 8)).map
      (·.setWidth w)

/-- Cutting the vector into blocks of 64 loses no byte, and the length field ends the last block. -/
def Whole (input : List (BitVec 8)) (block : List (BitVec w)) : Prop :=
  0 < block.length ∧ 64 ∣ block.length ∧
    block.drop (block.length - 8) = (Sha256.lengthBytes input.length).map (·.setWidth w)

theorem Padded.whole {input : List (BitVec 8)} {block : List (BitVec w)} (padded : Padded input block) :
    Whole input block := by
  obtain ⟨z, least, rfl⟩ := padded
  have divides : 64 ∣ input.length + 1 + z + 8 := least.1
  have length := Sha256.length_padWith input z
  rw [← Sha256.padWith, Whole, List.length_map, length]
  refine ⟨by omega, divides, ?_⟩
  rw [Nat.add_sub_cancel, ← List.map_drop, Sha256.drop_padWith]

def Exact (n : Nat) : Prop :=
  n < 2 ^ 31 ∧ (n % 2 ^ 29 ≤ 55 ∨ 2 ^ 29 - 8 ≤ n % 2 ^ 29 ∨ n % 2 ^ 29 ≤ 2 ^ 28 + 55 ∧ n % 64 = 55)

theorem padded_iff (input : List (BitVec 8)) (z : Nat) :
    Padded input ((Sha256.padWith input z).map (BitVec.setWidth w)) ↔ z = Sha256.zeroBytes input.length := by
  constructor
  · rintro ⟨least, isLeast, same⟩
    have lengths := congrArg List.length same
    rw [← Sha256.padWith, List.length_map, List.length_map, Sha256.length_padWith, Sha256.length_padWith] at lengths
    have count : z = least := by omega
    rw [count]
    exact isLeast.unique (Sha256.zeroBytes_least input.length)
  · intro count
    exact ⟨z, count ▸ Sha256.zeroBytes_least input.length, rfl⟩

/-- The padding section is correct exactly on the lengths that need no reduction of
the zero count modulo 64. -/
theorem padding_exact_iff (charSigned : Bool) (input : List (BitVec 8)) :
    (∃ block : List (BitVec w), padding charSigned input = some block ∧ Padded input block ∧
      Whole input block) ↔ Exact input.length := by
  by_cases fits : input.length ≤ intMax
  · have below : input.length < 2 ^ 31 := by
      unfold intMax at fits
      omega
    rw [padding_eq charSigned fits, Exact, ← zeroCount_exact_iff, ← padded_iff (w := w)]
    constructor
    · rintro ⟨block, same, padded, _⟩
      rw [Option.some.inj same]
      exact ⟨below, padded⟩
    · rintro ⟨_, padded⟩
      exact ⟨_, rfl, padded, padded.whole⟩
  · have above : ¬input.length < 2 ^ 31 := by
      unfold intMax at fits
      omega
    rw [padding_overflow charSigned (by omega)]
    constructor
    · rintro ⟨_, none, _⟩
      exact nomatch none
    · rintro ⟨below, _⟩
      exact absurd below above

theorem padding_counterexample :
    ¬∃ block : List (BitVec 32), padding true (List.replicate 56 0x61) = some block ∧
      Padded (List.replicate 56 0x61) block ∧ Whole (List.replicate 56 0x61) block := by
  rintro ⟨block, run, _, _, whole, _⟩
  have fits : (List.replicate 56 (0x61 : BitVec 8)).length ≤ intMax := by decide
  rw [padding_eq true fits] at run
  have length : block.length = 65 := by
    rw [← Option.some.inj run]
    decide
  omega

end Dspc.CppImp
