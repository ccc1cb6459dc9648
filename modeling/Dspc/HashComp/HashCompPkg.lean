import Dspc.Vhdl.Vector
import Dspc.Sha256.Compression

namespace Dspc.HashComp
open Vhdl

abbrev Word := StdLogicVector 32

/-- `StringText`, index `i` being the element written `(i)`. -/
abbrev StringText := Vector Word 64

def x (literal : BitVec 32) : Word := .ofBits literal

def INIT_A : Word := x 0x6a09e667
def INIT_B : Word := x 0xbb67ae85
def INIT_C : Word := x 0x3c6ef372
def INIT_D : Word := x 0xa54ff53a
def INIT_E : Word := x 0x510e527f
def INIT_F : Word := x 0x9b05688c
def INIT_G : Word := x 0x1f83d9ab
def INIT_H : Word := x 0x5be0cd19

/-- `constants : Constant_k`, an array that ascends from 0 to 63. -/
def constants : Vector Word 64 := #v[
  x 0x428a2f98, x 0x71374491, x 0xb5c0fbcf, x 0xe9b5dba5, x 0x3956c25b, x 0x59f111f1, x 0x923f82a4, x 0xab1c5ed5,
  x 0xd807aa98, x 0x12835b01, x 0x243185be, x 0x550c7dc3, x 0x72be5d74, x 0x80deb1fe, x 0x9bdc06a7, x 0xc19bf174,
  x 0xe49b69c1, x 0xefbe4786, x 0x0fc19dc6, x 0x240ca1cc, x 0x2de92c6f, x 0x4a7484aa, x 0x5cb0a9dc, x 0x76f988da,
  x 0x983e5152, x 0xa831c66d, x 0xb00327c8, x 0xbf597fc7, x 0xc6e00bf3, x 0xd5a79147, x 0x06ca6351, x 0x14292967,
  x 0x27b70a85, x 0x2e1b2138, x 0x4d2c6dfc, x 0x53380d13, x 0x650a7354, x 0x766a0abb, x 0x81c2c92e, x 0x92722c85,
  x 0xa2bfe8a1, x 0xa81a664b, x 0xc24b8b70, x 0xc76c51a3, x 0xd192e819, x 0xd6990624, x 0xf40e3585, x 0x106aa070,
  x 0x19a4c116, x 0x1e376c08, x 0x2748774c, x 0x34b0bcb5, x 0x391c0cb3, x 0x4ed8aa4a, x 0x5b9cca4f, x 0x682e6ff3,
  x 0x748f82ee, x 0x78a5636f, x 0x84c87814, x 0x8cc70208, x 0x90befffa, x 0xa4506ceb, x 0xbef9a3f7, x 0xc67178f2]

section Functions

variable {n : Nat}

def ep0 (x : StdLogicVector n) : StdLogicVector n := x.rotateRight 2 ^^^ x.rotateRight 13 ^^^ x.rotateRight 22
def ep1 (x : StdLogicVector n) : StdLogicVector n := x.rotateRight 6 ^^^ x.rotateRight 11 ^^^ x.rotateRight 25
def Ch (x y z : StdLogicVector n) : StdLogicVector n := (x &&& y) ^^^ (~~~x &&& z)
def Maj (x y z : StdLogicVector n) : StdLogicVector n := (x &&& y) ^^^ (x &&& z) ^^^ (y &&& z)

end Functions

@[simp] theorem ep0_ofBits (x : BitVec 32) : ep0 (.ofBits x) = .ofBits (Sha256.bigSigma0 x) := by
  simp only [ep0, Sha256.bigSigma0, StdLogicVector.rotateRight_ofBits, StdLogicVector.xor_ofBits]

@[simp] theorem ep1_ofBits (x : BitVec 32) : ep1 (.ofBits x) = .ofBits (Sha256.bigSigma1 x) := by
  simp only [ep1, Sha256.bigSigma1, StdLogicVector.rotateRight_ofBits, StdLogicVector.xor_ofBits]

@[simp] theorem Ch_ofBits (x y z : BitVec 32) :
    Ch (.ofBits x) (.ofBits y) (.ofBits z) = .ofBits (Sha256.Ch x y z) := by
  simp only [Ch, Sha256.Ch, StdLogicVector.and_ofBits, StdLogicVector.not_ofBits, StdLogicVector.xor_ofBits]

@[simp] theorem Maj_ofBits (x y z : BitVec 32) :
    Maj (.ofBits x) (.ofBits y) (.ofBits z) = .ofBits (Sha256.Maj x y z) := by
  simp only [Maj, Sha256.Maj, StdLogicVector.and_ofBits, StdLogicVector.xor_ofBits]

theorem constants_eq : constants = Sha256.K.map .ofBits := by
  simp only [constants, Sha256.K, Vector.map_mk, List.map_toArray, List.map_cons, List.map_nil, x]

theorem getElem_constants {t : Nat} (within : t < 64) : constants[t] = .ofBits Sha256.K[t] := by
  simp only [constants_eq, Vector.getElem_map]

end Dspc.HashComp
