import Mathlib.Algebra.Order.BigOperators.Group.List
import Mathlib.Algebra.Order.Group.Nat
import Mathlib.Data.Nat.Basic
import Mathlib.Tactic.Common

namespace Dspc.Hex

/-- The last `n` hexadecimal digits of `x`, most significant first. -/
def hexDigits : Nat → Nat → List Char
  | 0, _ => []
  | n + 1, x => hexDigits n (x / 16) ++ [Nat.digitChar (x % 16)]

def digitValue (c : Char) : Nat := if c.isDigit then c.toNat - '0'.toNat else c.toNat - 'a'.toNat + 10

def value (digits : List Char) : Nat := digits.foldl (fun x c => 16 * x + digitValue c) 0

theorem digitValue_digitChar : ∀ d < 16, digitValue (Nat.digitChar d) = d := by decide

theorem length_hexDigits (n x : Nat) : (hexDigits n x).length = n := by
  induction n generalizing x with
  | zero => rfl
  | succ n ih => rw [hexDigits, List.length_append, ih, List.length_singleton]

theorem value_hexDigits (n x : Nat) : value (hexDigits n x) = x % 16 ^ n := by
  induction n generalizing x with
  | zero =>
    rw [Nat.pow_zero, Nat.mod_one]
    rfl
  | succ n ih =>
    have digit := digitValue_digitChar (x % 16) (Nat.mod_lt _ (by decide))
    have higher := ih (x / 16)
    rw [value] at higher ⊢
    rw [hexDigits, List.foldl_append, higher, List.foldl_cons, List.foldl_nil, digit, Nat.pow_succ',
      Nat.mod_mul, Nat.add_comm]

theorem hexDigits_add (m n x : Nat) : hexDigits (m + n) x = hexDigits m (x / 16 ^ n) ++ hexDigits n x := by
  induction n generalizing x with
  | zero => rw [Nat.pow_zero, Nat.div_one, hexDigits, List.append_nil, Nat.add_zero]
  | succ n ih =>
    rw [← Nat.add_assoc, hexDigits, ih, Nat.div_div_eq_div_mul, ← Nat.pow_succ', hexDigits, List.append_assoc]

/-- Digits of weight `16 ^ n` and above are not among the last `n`. -/
theorem hexDigits_mul_add (n q r : Nat) : hexDigits n (q * 16 ^ n + r) = hexDigits n r := by
  induction n generalizing r with
  | zero => rfl
  | succ n ih =>
    have quotient : (q * 16 ^ (n + 1) + r) / 16 = q * 16 ^ n + r / 16 := by
      rw [Nat.pow_succ, ← Nat.mul_assoc, Nat.add_comm, Nat.add_mul_div_right _ _ (by decide), Nat.add_comm]
    have remainder : (q * 16 ^ (n + 1) + r) % 16 = r % 16 := by
      rw [Nat.pow_succ, ← Nat.mul_assoc, Nat.mul_add_mod_self_right]
    rw [hexDigits, hexDigits, quotient, remainder, ih]

/-- A number printed in the digits it needs has no digit more or less when its first one is not zero. -/
theorem toDigits_eq_hexDigits {n x : Nat} (low : 16 ^ n ≤ x) (high : x < 16 ^ (n + 1)) :
    Nat.toDigits 16 x = hexDigits (n + 1) x := by
  induction n generalizing x with
  | zero =>
    have small : x < 16 := by omega
    rw [Nat.toDigits_of_lt_base small, hexDigits, Nat.mod_eq_of_lt small]
    rfl
  | succ n ih =>
    have larger : 16 ≤ x := by
      have := Nat.one_le_pow n 16 (by decide)
      rw [Nat.pow_succ] at low
      omega
    have below : 16 ^ n ≤ x / 16 := by
      rw [Nat.le_div_iff_mul_le (by decide), ← Nat.pow_succ]
      exact low
    have above : x / 16 < 16 ^ (n + 1) := by
      rw [Nat.div_lt_iff_lt_mul (by decide), ← Nat.pow_succ]
      exact high
    rw [Nat.toDigits_of_base_le (by decide) larger, ih below above]
    rfl

theorem length_toDigits_eq_iff {n x : Nat} (positive : 0 < n) :
    (Nat.toDigits 16 x).length = n + 1 ↔ 16 ^ n ≤ x ∧ x < 16 ^ (n + 1) := by
  have atMost := Nat.length_toDigits_le_iff (b := 16) (n := x) (by decide) positive
  have within := Nat.length_toDigits_le_iff (b := 16) (n := x) (k := n + 1) (by decide) (Nat.succ_pos n)
  omega

section Lines

variable {α β : Type*} {f : α → List β} {l : List α} {n : Nat}

/-- A line of fields of equal length can be cut back into them. -/
theorem window_flatMap (length : ∀ x ∈ l, (f x).length = n) {i : Nat} (inside : i < l.length) :
    ((l.flatMap f).drop (n * i)).take n = f l[i] := by
  induction l generalizing i with
  | nil => exact absurd inside (Nat.not_lt_zero i)
  | cons x l ih =>
    have first : (f x).length = n := length x List.mem_cons_self
    rw [List.flatMap_cons]
    cases i with
    | zero => rw [Nat.mul_zero, List.drop_zero, List.take_left' first, List.getElem_cons_zero]
    | succ i =>
      have skip : n * (i + 1) = (f x).length + n * i := by
        rw [first, Nat.mul_succ, Nat.add_comm]
      rw [skip, List.drop_length_add_append, List.getElem_cons_succ]
      exact ih (fun y member => length y (List.mem_cons_of_mem x member)) (by simpa using inside)

theorem length_flatMap_eq_iff (bound : ∀ x ∈ l, (f x).length ≤ n) :
    (l.flatMap f).length = n * l.length ↔ ∀ x ∈ l, (f x).length = n := by
  induction l with
  | nil => simp
  | cons x l ih =>
    have first : (f x).length ≤ n := bound x List.mem_cons_self
    have rest : (l.flatMap f).length ≤ n * l.length := by
      rw [List.length_flatMap, Nat.mul_comm]
      have total := List.sum_le_card_nsmul (l.map fun y => (f y).length) n (by
        intro k member
        obtain ⟨y, inside, rfl⟩ := List.mem_map.mp member
        exact bound y (List.mem_cons_of_mem x inside))
      simpa using total
    have tail := ih fun y member => bound y (List.mem_cons_of_mem x member)
    rw [List.flatMap_cons, List.length_append, List.length_cons, Nat.mul_succ, List.forall_mem_cons, ← tail]
    omega

end Lines

end Dspc.Hex
