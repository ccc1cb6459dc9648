import Dspc.BitList

namespace Dspc.Cpp

/-- The range check of signed arithmetic on `n` bits. `none` is overflow, which is undefined. -/
def checked (n : Nat) (x : Int) : Option Int :=
  if -2 ^ (n - 1) ≤ x ∧ x < 2 ^ (n - 1) then some x else none

def charToULL (charSigned : Bool) (c : BitVec 8) : BitVec 64 :=
  if charSigned then c.signExtend 64 else c.setWidth 64

def substr (s : List Char) (pos len : Nat) : Option (List Char) :=
  if pos ≤ s.length then some ((s.drop pos).take len) else none

namespace Bitset

variable {n : Nat}

def ofULL (n : Nat) (x : BitVec 64) : BitVec n := x.setWidth n

def toChar (b : Bool) : Char := if b then '1' else '0'

def ofChar : Char → Option Bool
  | '0' => some false
  | '1' => some true
  | _ => none

def toString (x : BitVec n) : List Char := (bitsOf x).map toChar

/-- `bitset<n>(const std::string&)`. A character other than '0' and '1' throws. -/
def ofString (n : Nat) (s : List Char) : Option (BitVec n) :=
  (s.mapM ofChar).map fun bits => ofBitList n (bits.take n)

theorem mapM_ofChar (bits : List Bool) : (bits.map toChar).mapM ofChar = some bits := by
  induction bits with
  | nil => rfl
  | cons b bits ih =>
    have head : ofChar (toChar b) = some b := by cases b <;> rfl
    rw [List.map_cons, List.mapM_cons, head, ih]
    rfl

theorem length_toString (x : BitVec n) : (toString x).length = n := by
  rw [toString, List.length_map, length_bitsOf]

theorem ofString_substr (x : BitVec n) {i m : Nat} (inside : i + m ≤ n) :
    (substr (toString x) i m).bind (ofString m) = some (x.extractLsb' (n - m - i) m) := by
  have length := length_toString x
  rw [substr, if_pos (by omega), Option.bind_some, ofString, toString, ← List.map_drop, ← List.map_take,
    mapM_ofChar, Option.map_some, List.take_take, Nat.min_self, ofBitList_window x inside]

end Bitset

theorem charToULL_low (charSigned : Bool) (c : BitVec 8) : (charToULL charSigned c).setWidth 8 = c := by
  unfold charToULL
  split
  · apply BitVec.eq_of_getLsbD_eq
    intro i h
    simp only [BitVec.getLsbD_setWidth, BitVec.getLsbD_signExtend, h, show i < 64 by omega, decide_true,
      Bool.true_and, if_true]
  · rw [BitVec.setWidth_setWidth_of_le _ (by decide), BitVec.setWidth_eq]

end Dspc.Cpp
