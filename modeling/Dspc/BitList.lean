import Mathlib.Data.BitVec
import Mathlib.Data.List.GetD
import Mathlib.Tactic.Common

namespace Dspc

variable {n : Nat}

/-- The bits of a word, most significant first. -/
def bitsOf (x : BitVec n) : List Bool := List.ofFn fun i : Fin n => x.getMsbD i

/-- The word of `n` bits given most significant first. -/
def ofBitList (n : Nat) (bits : List Bool) : BitVec n := (BitVec.ofBoolListBE bits).setWidth n

def bytesToBits (bytes : List (BitVec 8)) : List Bool := bytes.flatMap bitsOf

@[simp] theorem length_bitsOf (x : BitVec n) : (bitsOf x).length = n := List.length_ofFn

theorem getD_bitsOf (x : BitVec n) (k : Nat) : (bitsOf x).getD k false = x.getMsbD k := by
  by_cases within : k < n
  · simp [bitsOf, List.getD_eq_getElem?_getD, within]
  · rw [List.getD_eq_default _ _ (by simpa using within), BitVec.getMsbD_of_ge _ _ (by omega)]

theorem getMsbD_ofBitList {bits : List Bool} (length : bits.length = n) (k : Nat) :
    (ofBitList n bits).getMsbD k = bits.getD k false := by
  subst length
  simp [ofBitList]

theorem getMsbD_mirror (x : BitVec n) {i : Nat} (h : i < n) : x.getMsbD (n - 1 - i) = x[i] := by
  have place : n - 1 - (n - 1 - i) = i := by omega
  rw [BitVec.getMsbD, place, decide_eq_true (by omega), Bool.true_and, BitVec.getLsbD_eq_getElem]

theorem getElem_ofBitList {bits : List Bool} (length : bits.length = n) (i : Nat) (h : i < n) :
    (ofBitList n bits)[i] = bits.getD (n - 1 - i) false := by
  rw [← getMsbD_ofBitList length, getMsbD_mirror _ h]

theorem ofBitList_bitsOf (x : BitVec n) : ofBitList n (bitsOf x) = x := by
  apply BitVec.eq_of_getMsbD_eq
  intro k _
  rw [getMsbD_ofBitList (length_bitsOf x), getD_bitsOf]

theorem bitsOf_ofBitList {bits : List Bool} (length : bits.length = n) : bitsOf (ofBitList n bits) = bits := by
  apply List.ext_getElem (by rw [length_bitsOf, length])
  intro k h1 h2
  have bit := getD_bitsOf (ofBitList n bits) k
  rw [getMsbD_ofBitList length, List.getD_eq_getElem _ _ h1, List.getD_eq_getElem _ _ h2] at bit
  exact bit

theorem ofBitList_injective {u v : List Bool} (lengthU : u.length = n) (lengthV : v.length = n)
    (same : ofBitList n u = ofBitList n v) : u = v := by
  rw [← bitsOf_ofBitList lengthU, same, bitsOf_ofBitList lengthV]

theorem bytesToBits_cons (b : BitVec 8) (bytes : List (BitVec 8)) :
    bytesToBits (b :: bytes) = bitsOf b ++ bytesToBits bytes := List.flatMap_cons

theorem bytesToBits_append (u v : List (BitVec 8)) :
    bytesToBits (u ++ v) = bytesToBits u ++ bytesToBits v := List.flatMap_append

@[simp] theorem length_bytesToBits (bytes : List (BitVec 8)) :
    (bytesToBits bytes).length = 8 * bytes.length := by
  induction bytes with
  | nil => rfl
  | cons b bytes ih => rw [bytesToBits_cons, List.length_append, length_bitsOf, ih, List.length_cons]; omega

theorem getD_bytesToBits (bytes : List (BitVec 8)) (k : Nat) :
    (bytesToBits bytes).getD k false = (bytes.getD (k / 8) 0).getMsbD (k % 8) := by
  induction bytes generalizing k with
  | nil => simp [bytesToBits]
  | cons b bytes ih =>
    rw [bytesToBits_cons]
    by_cases head : k < 8
    · rw [List.getD_append _ _ _ _ (by simpa using head), getD_bitsOf, Nat.div_eq_of_lt head,
        Nat.mod_eq_of_lt head, List.getD_cons_zero]
    · have quotient : k / 8 = (k - 8) / 8 + 1 := by omega
      have remainder : k % 8 = (k - 8) % 8 := by omega
      rw [List.getD_append_right _ _ _ _ (by simpa using head), length_bitsOf, ih, quotient, remainder,
        List.getD_cons_succ]

theorem ofBitList_window (x : BitVec n) {i m : Nat} (inside : i + m ≤ n) :
    ofBitList m (((bitsOf x).drop i).take m) = x.extractLsb' (n - m - i) m := by
  have length : (((bitsOf x).drop i).take m).length = m := by
    rw [List.length_take, List.length_drop, length_bitsOf]
    omega
  apply BitVec.eq_of_getMsbD_eq
  intro k short
  have place := getD_bitsOf x (i + k)
  rw [List.getD_eq_getElem _ _ (by rw [length_bitsOf]; omega)] at place
  rw [getMsbD_ofBitList length, List.getD_eq_getElem _ _ (by omega), List.getElem_take, List.getElem_drop, place]
  simp only [BitVec.getMsbD, BitVec.getLsbD_extractLsb', short, show i + k < n by omega,
    show m - 1 - k < m by omega, decide_true, Bool.true_and]
  congr 1
  omega

end Dspc
