import Mathlib.Tactic.IntervalCases
import Dspc.Hex
import Dspc.Sha256.Compression
import Dspc.CppImp.Sha256C

namespace Dspc.CppImp
open Cpp Hex

variable {w : Nat}

/-- The digits of the digest, eight for each word, as the last line of the program. -/
def Prints (H : Vector (BitVec w) 8) (o : Ostream) (line : List Char) : Prop :=
  ∃ out, printDigest H o = some out ∧ out.text = (heading w o).text ++ line ++ ['\n']

/-- Every word is below `2 ^ 32`, as the final addition leaves it. -/
def Words (H : Vector (BitVec w) 8) : Prop := ∀ (i : Nat) (h : i < 8), H[i].toNat < 2 ^ 32

instance (H : Vector (BitVec w) 8) : Decidable (Words H) :=
  inferInstanceAs (Decidable (∀ (i : Nat) (h : i < 8), H[i].toNat < 2 ^ 32))

def decodeLine (line : List Char) : Vector (BitVec 32) 8 :=
  Vector.ofFn fun i => BitVec.ofNat 32 (value ((line.drop (8 * i)).take 8))

/-- The line is the digest in 64 digits, from which the words can be read back, and no
other digest is printed so. -/
structure Faithful (H : Vector (BitVec w) 8) (line : List Char) : Prop where
  digits : line = hexDigits 64 (Sha256.digest (H.map low)).toNat
  length : line.length = 64
  decodes : decodeLine line = H.map low
  unique : ∀ (H' : Vector (BitVec w) 8) (o : Ostream), Words H' → Prints H' o line → H' = H

def digitsOf (H : Vector (BitVec w) 8) : List Char := H.toList.flatMap fun x => Nat.toDigits 16 x.toNat

theorem printWord_eq (H : Vector (BitVec w) 8) {i : Nat} (inside : i < 8) {o : Ostream} (unset : o.width = 0) :
    printWord H i o = some { o with base := .hex, text := o.text ++ Nat.toDigits 16 H[i].toNat } := by
  rw [printWord, Vector.getElem?_eq_getElem inside, Option.bind_eq_bind, Option.bind_some, Ostream.number,
    Ostream.put_eq (o := o.hex) unset]
  rfl

theorem heading_width (w : Nat) (o : Ostream) : (heading w o).width = 0 := rfl

theorem printDigest_eq (H : Vector (BitVec w) 8) (o : Ostream) : Prints H o (digitsOf H) := by
  let Inv (i : Nat) (out : Ostream) : Prop := i ≤ 8 ∧ out.width = 0 ∧
    out.text = (heading w o).text ++ (H.toList.take i).flatMap fun x => Nat.toDigits 16 x.toNat
  have iterate (i : Nat) (out : Ostream) (more : (i : Int) < 8) (inv : Inv i out) :
      ∃ next, printWord H i out = some next ∧ Inv (i + 1) next := by
    obtain ⟨_, unset, text⟩ := inv
    have inside : i < 8 := by omega
    refine ⟨_, printWord_eq H inside unset, by omega, unset, ?_⟩
    have longer : H.toList.take (i + 1) = H.toList.take i ++ [H[i]] := by
      rw [List.take_succ_eq_append_getElem (by simpa using inside), Vector.getElem_toList]
    rw [longer, List.flatMap_append, text, List.append_assoc]
    simp
  have start : Inv 0 (heading w o) := ⟨by decide, heading_width w o, by simp⟩
  obtain ⟨j, last, run, exit, bound, _, text⟩ := forInt_rule iterate start (by decide)
  obtain rfl : j = 8 := by omega
  refine ⟨last.endl, ?_, ?_⟩
  · rw [printDigest, run]
    rfl
  · rw [List.take_of_length_le (by simp)] at text
    rw [Ostream.endl, text, digitsOf]

theorem Prints.eq_digitsOf {H : Vector (BitVec w) 8} {o : Ostream} {line : List Char} (prints : Prints H o line) :
    line = digitsOf H := by
  obtain ⟨out, ran, text⟩ := prints
  obtain ⟨out', ran', text'⟩ := printDigest_eq H o
  cases Option.some.inj (ran.symm.trans ran')
  exact List.append_cancel_left (List.append_cancel_right (text.symm.trans text'))

theorem toList_eight {α : Type*} (v : Vector α 8) :
    v.toList = [v.get 0, v.get 1, v.get 2, v.get 3, v.get 4, v.get 5, v.get 6, v.get 7] := by
  apply List.ext_getElem (by simp)
  intro i h h'
  rw [Vector.getElem_toList]
  have inside : i < 8 := by simpa using h
  interval_cases i <;> rfl

theorem hexDigits_append {n m : Nat} (x : BitVec n) (y : BitVec 32) :
    hexDigits (m + 8) (x ++ y).toNat = hexDigits m x.toNat ++ hexDigits 8 y.toNat := by
  have value : (x ++ y).toNat = x.toNat * 16 ^ 8 + y.toNat := by
    rw [BitVec.toNat_append, ← Nat.shiftLeft_add_eq_or_of_lt y.isLt, Nat.shiftLeft_eq]
    rfl
  have upper : (x.toNat * 16 ^ 8 + y.toNat) / 16 ^ 8 = x.toNat := by
    have := y.isLt
    omega
  rw [value, hexDigits_add, hexDigits_mul_add, upper]

theorem hexDigits_digest (G : Vector (BitVec 32) 8) :
    hexDigits 64 (Sha256.digest G).toNat = G.toList.flatMap fun x => hexDigits 8 x.toNat := by
  rw [Sha256.digest, toList_eight, hexDigits_append (m := 56), hexDigits_append (m := 48), hexDigits_append (m := 40),
    hexDigits_append (m := 32), hexDigits_append (m := 24), hexDigits_append (m := 16), hexDigits_append (m := 8)]
  simp only [List.flatMap_cons, List.flatMap_nil, List.append_nil, List.append_assoc]
  rfl

section Line

variable {H : Vector (BitVec w) 8}

theorem Words.mem (words : Words H) : ∀ x ∈ H.toList, x.toNat < 2 ^ 32 := by
  intro x member
  obtain ⟨i, h, rfl⟩ := List.getElem_of_mem member
  rw [Vector.getElem_toList]
  exact words i (by simpa using h)

theorem low_toNat {x : BitVec w} (small : x.toNat < 2 ^ 32) : (low x).toNat = x.toNat := by
  rw [low, BitVec.toNat_setWidth, Nat.mod_eq_of_lt small]

/-- A word takes eight digits exactly when its leading one is not zero. -/
theorem length_digitsOf_iff (words : Words H) :
    (digitsOf H).length = 64 ↔ ∀ (i : Nat) (h : i < 8), 2 ^ 28 ≤ H[i].toNat := by
  have bound : ∀ x ∈ H.toList, (Nat.toDigits 16 x.toNat).length ≤ 8 := by
    intro x member
    rw [Nat.length_toDigits_le_iff (by decide) (by decide)]
    exact words.mem x member
  have each := length_flatMap_eq_iff bound
  rw [Vector.length_toList] at each
  rw [digitsOf, each]
  constructor
  · intro full i h
    have eight := full H[i] (by simp)
    exact ((length_toDigits_eq_iff (by decide)).mp eight).1
  · intro large x member
    obtain ⟨i, h, rfl⟩ := List.getElem_of_mem member
    rw [length_toDigits_eq_iff (by decide), Vector.getElem_toList]
    have inside : i < 8 := by simpa using h
    exact ⟨large i inside, words i inside⟩

theorem digitsOf_full (words : Words H) (large : ∀ (i : Nat) (h : i < 8), 2 ^ 28 ≤ H[i].toNat) :
    digitsOf H = (H.map low).toList.flatMap fun x => hexDigits 8 x.toNat := by
  rw [digitsOf, Vector.toList_map, List.flatMap_map]
  apply List.flatMap_congr
  intro x member
  obtain ⟨i, h, rfl⟩ := List.getElem_of_mem member
  have inside : i < 8 := by simpa using h
  rw [Vector.getElem_toList, low_toNat (words i inside)]
  exact toDigits_eq_hexDigits (large i inside) (words i inside)

theorem decodeLine_full (G : Vector (BitVec 32) 8) :
    decodeLine (G.toList.flatMap fun x => hexDigits 8 x.toNat) = G := by
  apply Vector.ext
  intro i h
  have field := window_flatMap (f := fun x : BitVec 32 => hexDigits 8 x.toNat) (l := G.toList) (n := 8)
    (fun x _ => length_hexDigits 8 x.toNat) (i := i) (by simpa using h)
  rw [decodeLine, Vector.getElem_ofFn, field, value_hexDigits, Vector.getElem_toList]
  apply BitVec.eq_of_toNat_eq
  have small := G[i].isLt
  rw [BitVec.toNat_ofNat, Nat.mod_mod_of_dvd _ (by decide), Nat.mod_eq_of_lt small]

theorem Words.map_low_injective {H' : Vector (BitVec w) 8} (words : Words H) (words' : Words H')
    (same : H'.map low = H.map low) : H' = H := by
  apply Vector.ext
  intro i h
  have lows := congrArg (fun v : Vector (BitVec 32) 8 => v[i].toNat) same
  simp only [Vector.getElem_map, low_toNat (words i h), low_toNat (words' i h)] at lows
  exact BitVec.eq_of_toNat_eq lows

end Line

/-- Without fill and width the line is the digest exactly when no word begins with a zero digit. -/
theorem line_faithful_iff (H : Vector (BitVec w) 8) (words : Words H) (o : Ostream) :
    (∃ line, Prints H o line ∧ Faithful H line) ↔ ∀ (i : Nat) (h : i < 8), 2 ^ 28 ≤ H[i].toNat := by
  constructor
  · rintro ⟨line, prints, faithful⟩
    rw [← length_digitsOf_iff words, ← prints.eq_digitsOf]
    exact faithful.length
  · intro large
    have full := digitsOf_full words large
    have length := (length_digitsOf_iff words).mpr large
    refine ⟨digitsOf H, printDigest_eq H o, ?_, length, ?_, fun H' o' words' prints => ?_⟩
    · rw [full, hexDigits_digest]
    · rw [full, decodeLine_full]
    · have same := prints.eq_digitsOf
      rw [same] at length
      have full' := digitsOf_full words' ((length_digitsOf_iff words').mp length)
      apply words.map_low_injective words'
      rw [← decodeLine_full (H'.map low), ← full', ← same, full, decodeLine_full]

/-- `std::cout` at the start of the program. -/
def cout : Ostream := { base := .dec, width := 0, fill := ' ', text := [] }

theorem line_faithful_initial : ∃ line, Prints (H (w := 64)) cout line ∧ Faithful (H (w := 64)) line :=
  (line_faithful_iff H (by decide) cout).mpr (by decide)

-- The line does not say where a short word ends.
example : digitsOf (w := 32) #v[0x1, 0x23, 0, 0, 0, 0, 0, 0] = digitsOf (w := 32) #v[0x12, 0x3, 0, 0, 0, 0, 0, 0] := by
  decide

/-- The digest of the string in the program. -/
def teamGoFlex : Vector (BitVec 32) 8 :=
  #v[0x135c6560, 0x432275a7, 0x0eed672f, 0xa5d48081, 0x8a62b4c2, 0xe57bde90, 0x437ce069, 0xa92c2d7f]

theorem line_counterexample :
    Words teamGoFlex ∧ ¬∃ line, Prints teamGoFlex cout line ∧ Faithful teamGoFlex line := by
  refine ⟨by decide, ?_⟩
  rintro ⟨line, prints, faithful⟩
  have length := faithful.length
  rw [prints.eq_digitsOf] at length
  exact absurd length (by decide)

end Dspc.CppImp
