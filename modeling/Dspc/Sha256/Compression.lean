import Mathlib.Data.BitVec
import Mathlib.Tactic.Common

namespace Dspc.Sha256

abbrev Word := BitVec 32

/-! FIPS 180-4, section 4.1.2. -/

def Ch (x y z : Word) : Word := (x &&& y) ^^^ (~~~x &&& z)
def Maj (x y z : Word) : Word := (x &&& y) ^^^ (x &&& z) ^^^ (y &&& z)
def bigSigma0 (x : Word) : Word := x.rotateRight 2 ^^^ x.rotateRight 13 ^^^ x.rotateRight 22
def bigSigma1 (x : Word) : Word := x.rotateRight 6 ^^^ x.rotateRight 11 ^^^ x.rotateRight 25
def sigma0 (x : Word) : Word := x.rotateRight 7 ^^^ x.rotateRight 18 ^^^ x >>> 3
def sigma1 (x : Word) : Word := x.rotateRight 17 ^^^ x.rotateRight 19 ^^^ x >>> 10

def K : Vector Word 64 := #v[
  0x428a2f98, 0x71374491, 0xb5c0fbcf, 0xe9b5dba5, 0x3956c25b, 0x59f111f1, 0x923f82a4, 0xab1c5ed5,
  0xd807aa98, 0x12835b01, 0x243185be, 0x550c7dc3, 0x72be5d74, 0x80deb1fe, 0x9bdc06a7, 0xc19bf174,
  0xe49b69c1, 0xefbe4786, 0x0fc19dc6, 0x240ca1cc, 0x2de92c6f, 0x4a7484aa, 0x5cb0a9dc, 0x76f988da,
  0x983e5152, 0xa831c66d, 0xb00327c8, 0xbf597fc7, 0xc6e00bf3, 0xd5a79147, 0x06ca6351, 0x14292967,
  0x27b70a85, 0x2e1b2138, 0x4d2c6dfc, 0x53380d13, 0x650a7354, 0x766a0abb, 0x81c2c92e, 0x92722c85,
  0xa2bfe8a1, 0xa81a664b, 0xc24b8b70, 0xc76c51a3, 0xd192e819, 0xd6990624, 0xf40e3585, 0x106aa070,
  0x19a4c116, 0x1e376c08, 0x2748774c, 0x34b0bcb5, 0x391c0cb3, 0x4ed8aa4a, 0x5b9cca4f, 0x682e6ff3,
  0x748f82ee, 0x78a5636f, 0x84c87814, 0x8cc70208, 0x90befffa, 0xa4506ceb, 0xbef9a3f7, 0xc67178f2]

def initialHash : Vector Word 8 := #v[
  0x6a09e667, 0xbb67ae85, 0x3c6ef372, 0xa54ff53a, 0x510e527f, 0x9b05688c, 0x1f83d9ab, 0x5be0cd19]

section Expansion

variable {α β : Type*} (s0 s1 : α → α) (add : α → α → α) (M : Vector α 16)

/-- The first `n` words of the message schedule of section 6.2.2, step 1, over any
type of words with two diffusion functions and an addition. -/
def expand : (n : Nat) → Vector α n
  | 0 => #v[]
  | t + 1 =>
    let W := expand t
    W.push (if h : t < 16 then M[t] else add (add (add (s1 W[t - 2]) W[t - 7]) (s0 W[t - 15])) W[t - 16])

def expandWord (t : Nat) : α := (expand s0 s1 add M (t + 1))[t]

theorem getElem_expand {n i : Nat} (within : i < n) :
    (expand s0 s1 add M n)[i] = expandWord s0 s1 add M i := by
  induction n with
  | zero => omega
  | succ n ih =>
    by_cases old : i < n
    · rw [expand, Vector.getElem_push_lt old, ih old]
    · have last : i = n := by omega
      subst last
      rfl

theorem expandWord_block {t : Nat} (early : t < 16) : expandWord s0 s1 add M t = M[t] := by
  simp only [expandWord, expand, Vector.getElem_push_eq, dif_pos early]

theorem expandWord_step {t : Nat} (late : 16 ≤ t) :
    expandWord s0 s1 add M t =
      add (add (add (s1 (expandWord s0 s1 add M (t - 2))) (expandWord s0 s1 add M (t - 7)))
        (s0 (expandWord s0 s1 add M (t - 15)))) (expandWord s0 s1 add M (t - 16)) := by
  have stale : ¬t < 16 := by omega
  conv => lhs; simp only [expandWord, expand, Vector.getElem_push_eq, dif_neg stale]
  rw [getElem_expand s0 s1 add M (by omega), getElem_expand s0 s1 add M (by omega),
    getElem_expand s0 s1 add M (by omega), getElem_expand s0 s1 add M (by omega)]

theorem expandWord_map (f : α → β) {r0 r1 : β → β} {plus : β → β → β}
    (hom0 : ∀ x, f (s0 x) = r0 (f x)) (hom1 : ∀ x, f (s1 x) = r1 (f x))
    (homAdd : ∀ x y, f (add x y) = plus (f x) (f y)) (t : Nat) :
    f (expandWord s0 s1 add M t) = expandWord r0 r1 plus (M.map f) t := by
  induction t using Nat.strong_induction_on with
  | _ t ih =>
    by_cases early : t < 16
    · rw [expandWord_block _ _ _ _ early, expandWord_block _ _ _ _ early, Vector.getElem_map]
    · have late : 16 ≤ t := by omega
      rw [expandWord_step _ _ _ _ late, expandWord_step _ _ _ _ late]
      simp only [homAdd, hom0, hom1]
      rw [ih (t - 2) (by omega), ih (t - 7) (by omega), ih (t - 15) (by omega), ih (t - 16) (by omega)]

end Expansion

def schedule (M : Vector Word 16) : Vector Word 64 := expand sigma0 sigma1 (· + ·) M 64

theorem getElem_schedule (M : Vector Word 16) {t : Nat} (within : t < 64) :
    (schedule M)[t] = expandWord sigma0 sigma1 (· + ·) M t :=
  getElem_expand _ _ _ _ within

/-- The eight working variables of section 6.2.2. -/
@[ext]
structure Working where
  (a b c d e f g h : Word)
  deriving DecidableEq

def Working.ofHash (H : Vector Word 8) : Working :=
  { a := H[0], b := H[1], c := H[2], d := H[3], e := H[4], f := H[5], g := H[6], h := H[7] }

def round (v : Working) (k w : Word) : Working :=
  let T1 := v.h + bigSigma1 v.e + Ch v.e v.f v.g + k + w
  let T2 := bigSigma0 v.a + Maj v.a v.b v.c
  { h := v.g, g := v.f, f := v.e, e := v.d + T1, d := v.c, c := v.b, b := v.a, a := T1 + T2 }

def rounds (v : Working) (W : Vector Word 64) : (n : Nat) → n ≤ 64 → Working
  | 0, _ => v
  | t + 1, within => round (rounds v W t (by omega)) K[t] W[t]

def addWorking (H : Vector Word 8) (v : Working) : Vector Word 8 := #v[
  v.a + H[0], v.b + H[1], v.c + H[2], v.d + H[3], v.e + H[4], v.f + H[5], v.g + H[6], v.h + H[7]]

/-- The compression function, on a block given by its message schedule. -/
def compress (H : Vector Word 8) (W : Vector Word 64) : Vector Word 8 :=
  addWorking H (rounds (.ofHash H) W 64 le_rfl)

def digest (H : Vector Word 8) : BitVec 256 :=
  H[0] ++ H[1] ++ H[2] ++ H[3] ++ H[4] ++ H[5] ++ H[6] ++ H[7]

end Dspc.Sha256
