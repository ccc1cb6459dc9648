import Dspc.Cpp.Loop
import Dspc.Cpp.LowWord
import Dspc.Cpp.Storage
import Dspc.Cpp.Bitset
import Dspc.Cpp.Ostream

namespace Dspc.CppImp
open Cpp

/-! The program over the width `w` of `unsigned long`. -/

variable {w : Nat}

def Constant_k : Vector (BitVec w) 64 := #v[
  0x428a2f98, 0x71374491, 0xb5c0fbcf, 0xe9b5dba5, 0x3956c25b, 0x59f111f1,
  0x923f82a4, 0xab1c5ed5, 0xd807aa98, 0x12835b01, 0x243185be, 0x550c7dc3,
  0x72be5d74, 0x80deb1fe, 0x9bdc06a7, 0xc19bf174, 0xe49b69c1, 0xefbe4786,
  0x0fc19dc6, 0x240ca1cc, 0x2de92c6f, 0x4a7484aa, 0x5cb0a9dc, 0x76f988da,
  0x983e5152, 0xa831c66d, 0xb00327c8, 0xbf597fc7, 0xc6e00bf3, 0xd5a79147,
  0x06ca6351, 0x14292967, 0x27b70a85, 0x2e1b2138, 0x4d2c6dfc, 0x53380d13,
  0x650a7354, 0x766a0abb, 0x81c2c92e, 0x92722c85, 0xa2bfe8a1, 0xa81a664b,
  0xc24b8b70, 0xc76c51a3, 0xd192e819, 0xd6990624, 0xf40e3585, 0x106aa070,
  0x19a4c116, 0x1e376c08, 0x2748774c, 0x34b0bcb5, 0x391c0cb3, 0x4ed8aa4a,
  0x5b9cca4f, 0x682e6ff3, 0x748f82ee, 0x78a5636f, 0x84c87814, 0x8cc70208,
  0x90befffa, 0xa4506ceb, 0xbef9a3f7, 0xc67178f2]

def H : Vector (BitVec w) 8 := #v[
  0x6a09e667, 0xbb67ae85, 0x3c6ef372, 0xa54ff53a, 0x510e527f, 0x9b05688c, 0x1f83d9ab, 0x5be0cd19]

def rotright (num : BitVec w) (shift : Nat) : BitVec w := (num >>> shift) ||| (num <<< (32 - shift))

def shfright (num : BitVec w) (shift : Nat) : BitVec w := num >>> shift

def Ch (X Y Z : BitVec w) : BitVec w :=
  let Temp1 := X &&& Y
  let Temp2 := ~~~X &&& Z
  Temp1 ^^^ Temp2

def Maj (X Y Z : BitVec w) : BitVec w :=
  let Temp1 := X &&& Y
  let Temp2 := X &&& Z
  let Temp3 := Y &&& Z
  Temp1 ^^^ Temp2 ^^^ Temp3

def sig0 (X : BitVec w) : BitVec w := rotright X 7 ^^^ rotright X 18 ^^^ shfright X 3
def sig1 (X : BitVec w) : BitVec w := rotright X 17 ^^^ rotright X 19 ^^^ shfright X 10
def ep0 (x : BitVec w) : BitVec w := rotright x 2 ^^^ rotright x 13 ^^^ rotright x 22
def ep1 (x : BitVec w) : BitVec w := rotright x 6 ^^^ rotright x 11 ^^^ rotright x 25

def mask : BitVec w := BitVec.ofNat w 0xFFFFFFFF

/-! Padding. -/

def pushByte (charSigned : Bool) (input : List (BitVec 8)) (i : Nat) (block : List (BitVec w)) :
    Option (List (BitVec w)) := do
  let b := Bitset.ofULL 8 (charToULL charSigned (← input[i]?))
  some (block ++ [b.setWidth w])

def pushZero (_ : Nat) (block : List (BitVec w)) : Option (List (BitVec w)) := some (block ++ [0x00000000])

def pushSlice (big_64_bit_string : List Char) (i : Nat) (block : List (BitVec w)) : Option (List (BitVec w)) := do
  let temp_string_holder ← (substr big_64_bit_string i 8).bind (Bitset.ofString 8)
  some (block ++ [temp_string_holder.setWidth w])

/-- The value of `length`. `size()` is a 64-bit unsigned number, and the product
with 8 wraps before it is converted to `long long`. -/
def lengthOf (size : Nat) : Int := ((size * 8 : Nat) : Int).bmod (2 ^ 64)

def kOf (length : Int) : Option Int := do
  let k := (← checked 64 (447 - length)).bmod (2 ^ 32)
  checked 32 (k - 7)

def padding (charSigned : Bool) (input : List (BitVec 8)) : Option (List (BitVec w)) := do
  let block ← forInt input.length 1 (pushByte charSigned input) 0 []
  let length := lengthOf block.length
  let k ← kOf length
  let t1 := 0x80
  let block := block ++ [t1]
  let block ← forInt (k.tdiv 8) 1 pushZero 0 block
  let big_64bit_blob := Bitset.ofULL 64 (BitVec.ofInt 64 length)
  let big_64_bit_string := Bitset.toString big_64bit_blob
  let block ← pushSlice big_64_bit_string 0 block
  forInt 63 8 (pushSlice big_64_bit_string) 8 block

/-! Block resize. -/

def toBitset32 (x : BitVec w) : BitVec 32 := Bitset.ofULL 32 (x.setWidth 64)

def resizeStep (block : List (BitVec w)) (i : Nat) (W_temp : Cells (BitVec w) 16) :
    Option (Cells (BitVec w) 16) := do
  let temp := toBitset32 ((← block[i]?) <<< 24)
  let temp := temp ||| toBitset32 ((← block[i + 1]?) <<< 16)
  let temp := temp ||| toBitset32 ((← block[i + 2]?) <<< 8)
  let temp := temp ||| toBitset32 (← block[i + 3]?)
  W_temp.write (i / 4) (temp.setWidth w)

def resize (block : List (BitVec w)) : Option (Cells (BitVec w) 16) :=
  forInt 64 4 (resizeStep block) 0 (.replicate 16 (some 0))

/-! Hash computation. -/

def copyStep (W_temp : Cells (BitVec w) 16) (i : Nat) (W : Cells (BitVec w) 64) : Option (Cells (BitVec w) 64) := do
  W.write i ((← W_temp.read i) &&& mask)

def scheduleStep (i : Nat) (W : Cells (BitVec w) 64) : Option (Cells (BitVec w) 64) := do
  let W ← W.write i
    (sig1 (← W.read (i - 2)) + (← W.read (i - 7)) + sig0 (← W.read (i - 15)) + (← W.read (i - 16)))
  W.write i ((← W.read i) &&& mask)

structure Vars (w : Nat) where
  (a b c d e f g h : BitVec w)

def roundStep (W : Cells (BitVec w) 64) (i : Nat) (v : Vars w) : Option (Vars w) := do
  let T1 := v.h + ep1 v.e + Ch v.e v.f v.g + (← Constant_k[i]?) + (← W.read i)
  let T2 := ep0 v.a + Maj v.a v.b v.c
  let v := { v with h := v.g }
  let v := { v with g := v.f }
  let v := { v with f := v.e }
  let v := { v with e := (v.d + T1) &&& mask }
  let v := { v with d := v.c }
  let v := { v with c := v.b }
  let v := { v with b := v.a }
  some { v with a := (T1 + T2) &&& mask }

def Vars.ofH (H : Vector (BitVec w) 8) : Vars w :=
  { a := H.get 0, b := H.get 1, c := H.get 2, d := H.get 3, e := H.get 4, f := H.get 5, g := H.get 6, h := H.get 7 }

def addH (H : Vector (BitVec w) 8) (v : Vars w) : Vector (BitVec w) 8 := #v[
  (H.get 0 + v.a) &&& mask, (H.get 1 + v.b) &&& mask, (H.get 2 + v.c) &&& mask, (H.get 3 + v.d) &&& mask,
  (H.get 4 + v.e) &&& mask, (H.get 5 + v.f) &&& mask, (H.get 6 + v.g) &&& mask, (H.get 7 + v.h) &&& mask]

def schedule (W_temp : Cells (BitVec w) 16) : Option (Cells (BitVec w) 64) := do
  let W ← forInt 16 1 (copyStep W_temp) 0 (.uninit 64)
  forInt 64 1 scheduleStep 16 W

/-- The arrays `W` and `H` after the resize, schedule, round and addition code. -/
def core (H : Vector (BitVec w) 8) (block : List (BitVec w)) :
    Option (Cells (BitVec w) 64 × Vector (BitVec w) 8) := do
  let W ← schedule (← resize block)
  let v ← forInt 64 1 (roundStep W) 0 (.ofH H)
  some (W, addH H v)

/-- The program with its string replaced by `input`. -/
def main (w : Nat) (charSigned : Bool) (input : List (BitVec 8)) :
    Option (Cells (BitVec w) 64 × Vector (BitVec w) 8) := do
  core H (← padding charSigned input)

/-! Digest output. -/

def printWord (H : Vector (BitVec w) 8) (i : Nat) (o : Ostream) : Option Ostream := do
  some (o.hex.number (← H[i]?).toNat)

/-- The stream when the final loop is entered, after `sizeof(H)` and the heading. -/
def heading (w : Nat) (o : Ostream) : Ostream :=
  let o := (o.number (8 * (w / 8))).endl
  (o.put ['N', 'e', 'w', ':', ':']).endl

/-- The output statements after the final addition. -/
def printDigest (H : Vector (BitVec w) 8) (o : Ostream) : Option Ostream := do
  let o ← forInt 8 1 (printWord H) 0 (heading w o)
  some o.endl

end Dspc.CppImp
