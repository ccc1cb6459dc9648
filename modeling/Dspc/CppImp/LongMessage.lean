import Dspc.CppImp.Main

namespace Dspc.CppImp
open Cpp

variable {w : Nat}

/-- The block that the program compresses: the first 64 bytes of what the padding section leaves. -/
def firstBlock (input : List (BitVec 8)) : List (BitVec 8) :=
  (Sha256.padWith input (zeroCount input.length)).take 64

theorem length_firstBlock (input : List (BitVec 8)) : (firstBlock input).length = 64 := by
  have count : input.length ≤ 55 → zeroCount input.length = 55 - input.length := by
    intro short
    rw [(zeroCount_exact_iff input.length).mpr (.inl (by omega)), Sha256.zeroBytes]
    omega
  rw [firstBlock, List.length_take, Sha256.length_padWith]
  omega

/-- Nothing past the first 64 elements of `block` is looked at. -/
theorem resize_take (block : List (BitVec w)) : resize block = resize (block.take 64) := by
  have same (i : Nat) (W_temp : Cells (BitVec w) 16) (more : (i : Int) < (64 : Int)) (whole : 4 ∣ i) :
      resizeStep block i W_temp = resizeStep (block.take 64) i W_temp := by
    simp only [resizeStep, List.getElem?_take_of_lt (show i < 64 by omega),
      List.getElem?_take_of_lt (show i + 1 < 64 by omega), List.getElem?_take_of_lt (show i + 2 < 64 by omega),
      List.getElem?_take_of_lt (show i + 3 < 64 by omega)]
  exact forInt_congr same (fun i whole => by omega) (by decide) _

theorem core_take (H : Vector (BitVec w) 8) (block : List (BitVec w)) : core H block = core H (block.take 64) := by
  rw [core, core, resize_take]

theorem main_overflow (charSigned : Bool) {input : List (BitVec 8)} (long : intMax < input.length) :
    main w charSigned input = none := by
  rw [main, padding_overflow charSigned long, Option.bind_eq_bind, Option.bind_none]

theorem main_fits (charSigned : Bool) {input : List (BitVec 8)} (fits : input.length ≤ intMax) :
    main w charSigned input = core H ((firstBlock input).map (·.setWidth w)) := by
  rw [main, padding_eq charSigned fits, Option.bind_eq_bind, Option.bind_some, core_take, ← List.map_take, firstBlock]

/-- Between 56 and 63 bytes there are no zeros, and the block cuts the length field off. -/
theorem firstBlock_middle {input : List (BitVec 8)} (long : 55 < input.length) (short : input.length < 64) :
    firstBlock input = input ++ 0x80 :: (Sha256.lengthBytes input.length).take (63 - input.length) := by
  have none : zeroCount input.length = 0 := by
    unfold zeroCount
    simp only [Int.bmod_def]
    omega
  have left : 64 - input.length = 63 - input.length + 1 := by omega
  rw [firstBlock, none, Sha256.padWith, List.replicate_zero, List.nil_append, List.take_append,
    List.take_of_length_le (by omega), left, List.take_succ_cons]

theorem firstBlock_long {input : List (BitVec 8)} (long : 64 ≤ input.length) : firstBlock input = input.take 64 := by
  rw [firstBlock, Sha256.padWith, List.take_append_of_le_length long]

/-- The program compresses one block at every length. Beyond 55 bytes it is not a padded
message: the length field is cut off, and from 64 bytes on all that comes after them. -/
theorem main_long {w : Nat} (wide : 32 ≤ w) (charSigned : Bool) (input : List (BitVec 8)) :
    (input.length ≤ intMax → ∃ W, main w charSigned input = some (W, (Sha256.compress Sha256.initialHash
      (Sha256.schedule (Sha256.blockWords (Sha256.blockOfBytes (firstBlock input))))).map widen)) ∧
    (55 < input.length → input.length < 64 →
      firstBlock input = input ++ 0x80 :: (Sha256.lengthBytes input.length).take (63 - input.length)) ∧
    (64 ≤ input.length → firstBlock input = input.take 64) ∧
    (64 ≤ input.length → input.length ≤ intMax → main w charSigned input = main w charSigned (input.take 64)) ∧
    (intMax < input.length → main w charSigned input = none) := by
  refine ⟨fun fits => ?_, firstBlock_middle, firstBlock_long, fun long fits => ?_, main_overflow charSigned⟩
  · obtain ⟨_, _, W, stages⟩ := stages_exist wide (length_firstBlock input)
    have run := stages.core_eq wide Sha256.initialHash
    rw [← H_eq wide] at run
    exact ⟨W, by rw [main_fits charSigned fits, run]⟩
  · have size : (input.take 64).length = 64 := by
      rw [List.length_take]
      omega
    rw [main_fits charSigned fits, main_fits charSigned (by unfold intMax; omega), firstBlock_long long,
      firstBlock_long size.ge, List.take_take, Nat.min_self]

theorem main_long_two :
    main 64 true (List.replicate 64 0x61 ++ [0x62]) = main 64 true (List.replicate 64 0x61 ++ [0x63]) := by
  have first := (main_long (w := 64) (by decide) true (List.replicate 64 0x61 ++ [0x62])).2.2.2.1
  have second := (main_long (w := 64) (by decide) true (List.replicate 64 0x61 ++ [0x63])).2.2.2.1
  exact (first (by decide) (by decide)).trans (second (by decide) (by decide)).symm

end Dspc.CppImp
