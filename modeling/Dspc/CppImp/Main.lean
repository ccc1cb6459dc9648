import Dspc.CppImp.Padding

namespace Dspc.CppImp
open Cpp

theorem main_eq {w : Nat} (wide : 32 ≤ w) (charSigned : Bool) {input : List (BitVec 8)}
    (short : input.length ≤ 55) :
    ∃ W, main w charSigned input = some (W, (Sha256.hash (bytesToBits input)).map widen) := by
  have fits : input.length ≤ intMax := by
    unfold intMax
    omega
  have size : (Sha256.padBytes input).length = 64 := by
    rw [Sha256.padBytes, Sha256.length_padWith]
    unfold Sha256.zeroBytes
    omega
  have least := (zeroCount_exact_iff input.length).mpr (.inl (by omega))
  have padded : padding charSigned input = some ((Sha256.padBytes input).map (·.setWidth w)) := by
    rw [padding_eq charSigned fits, least, Sha256.padBytes]
  have one : (bytesToBits input).length ≤ 447 := by
    rw [length_bytesToBits]
    omega
  obtain ⟨_, _, W, stages⟩ := stages_exist wide size
  refine ⟨W, ?_⟩
  rw [main, padded, Option.bind_eq_bind, Option.bind_some, H_eq wide, stages.core_eq wide, Sha256.hash_single one,
    Sha256.blockOfBytes, Sha256.bytesToBits_padBytes]

/-- The program, with its string replaced by any message of at most 55 bytes, leaves the
digest of that message in `H`. -/
theorem main_correct (charSigned : Bool) (input : List (BitVec 8)) (short : input.length ≤ 55) :
    ∃ W, main 32 charSigned input = some (W, Sha256.hash (bytesToBits input)) := by
  obtain ⟨W, run⟩ := main_eq le_rfl charSigned short
  rw [map_widen] at run
  exact ⟨W, run⟩

theorem main_correct_teamGoFlex :
    ∃ W, main 32 true [0x54, 0x65, 0x61, 0x6d, 0x47, 0x6f, 0x46, 0x6c, 0x65, 0x78] =
      some (W, Sha256.hash (bytesToBits [0x54, 0x65, 0x61, 0x6d, 0x47, 0x6f, 0x46, 0x6c, 0x65, 0x78])) :=
  main_correct true _ (by decide)

end Dspc.CppImp
