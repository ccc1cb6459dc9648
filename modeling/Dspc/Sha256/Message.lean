import Mathlib.Order.Bounds.Basic
import Dspc.BitList
import Dspc.Sha256.Compression

namespace Dspc.Sha256

/-- The number `k` of zero bits in the padding of a message of `l` bits. -/
def zeroBits (l : Nat) : Nat := (447 + 512 - l % 512) % 512

/-- FIPS 180-4, section 5.1.1. -/
def pad (M : List Bool) : List Bool :=
  M ++ true :: (List.replicate (zeroBits M.length) false ++ bitsOf (BitVec.ofNat 64 M.length))

def blocks (bits : List Bool) : List (BitVec 512) :=
  (List.range (bits.length / 512)).map fun i => ofBitList 512 ((bits.drop (512 * i)).take 512)

def blockWords (B : BitVec 512) : Vector Word 16 := Vector.ofFn fun i => B.extractLsb' (480 - 32 * i) 32

/-- SHA-256 of a bit string, section 6.2. -/
def hash (M : List Bool) : Vector Word 8 :=
  (blocks (pad M)).foldl (fun H B => compress H (schedule (blockWords B))) initialHash

/-- The padding equation `l + 1 + k ≡ 448 mod 512` in its smallest solution. -/
theorem zeroBits_least (l : Nat) : IsLeast {k | (l + 1 + k) % 512 = 448} (zeroBits l) := by
  constructor
  · change (l + 1 + zeroBits l) % 512 = 448
    unfold zeroBits
    omega
  · intro k solves
    change (l + 1 + k) % 512 = 448 at solves
    unfold zeroBits
    omega

theorem length_pad (M : List Bool) : (pad M).length = M.length + 1 + zeroBits M.length + 64 := by
  simp only [pad, List.length_append, List.length_cons, List.length_replicate, length_bitsOf]
  omega

theorem hash_single {M : List Bool} (short : M.length ≤ 447) :
    hash M = compress initialHash (schedule (blockWords (ofBitList 512 (pad M)))) := by
  have length : (pad M).length = 512 := by
    rw [length_pad]
    unfold zeroBits
    omega
  have one : blocks (pad M) = [ofBitList 512 (pad M)] := by
    simp only [blocks, length, Nat.div_self (by decide : 0 < 512), List.range_one, List.map_cons,
      List.map_nil, Nat.mul_zero, List.drop_zero]
    rw [List.take_of_length_le (by omega)]
  rw [hash, one, List.foldl_cons, List.foldl_nil]

example : digest (hash (bytesToBits [0x61, 0x62, 0x63])) =
    0xba7816bf8f01cfea414140de5dae2223b00361a396177a9cb410ff61f20015ad := by decide +kernel

section Bytes

def zeroBytes (n : Nat) : Nat := (55 + 64 - n % 64) % 64

def lengthBytes (n : Nat) : List (BitVec 8) :=
  List.ofFn fun i : Fin 8 => (BitVec.ofNat 64 (8 * n)).extractLsb' (56 - 8 * i) 8

def padWith (M : List (BitVec 8)) (z : Nat) : List (BitVec 8) :=
  M ++ 0x80 :: (List.replicate z 0 ++ lengthBytes M.length)

def padBytes (M : List (BitVec 8)) : List (BitVec 8) := padWith M (zeroBytes M.length)

/-- The block whose bytes, most significant first, are the given 64. -/
def blockOfBytes (bytes : List (BitVec 8)) : BitVec 512 := ofBitList 512 (bytesToBits bytes)

theorem zeroBytes_least (n : Nat) : IsLeast {z | 64 ∣ n + 1 + z + 8} (zeroBytes n) := by
  constructor
  · change 64 ∣ n + 1 + zeroBytes n + 8
    unfold zeroBytes
    omega
  · intro z divides
    change 64 ∣ n + 1 + z + 8 at divides
    unfold zeroBytes
    omega

theorem length_padWith (M : List (BitVec 8)) (z : Nat) : (padWith M z).length = M.length + 1 + z + 8 := by
  simp only [padWith, lengthBytes, List.length_append, List.length_cons, List.length_replicate,
    List.length_ofFn]
  omega

theorem drop_padWith (M : List (BitVec 8)) (z : Nat) :
    (padWith M z).drop (M.length + 1 + z) = lengthBytes M.length := by
  have ahead : (M ++ 0x80 :: List.replicate z 0).length = M.length + 1 + z := by
    simp only [List.length_append, List.length_cons, List.length_replicate]
    omega
  rw [padWith, ← List.cons_append, ← List.append_assoc, List.drop_left' ahead]

theorem bytesToBits_zeros (z : Nat) : bytesToBits (List.replicate z 0) = List.replicate (8 * z) false := by
  induction z with
  | zero => rfl
  | succ z ih =>
    have zero : bitsOf (0 : BitVec 8) = List.replicate 8 false := by decide
    rw [List.replicate_succ, bytesToBits_cons, ih, zero, List.replicate_append_replicate]
    congr 1
    omega

theorem bytesToBits_lengthBytes (n : Nat) : bytesToBits (lengthBytes n) = bitsOf (BitVec.ofNat 64 (8 * n)) := by
  have size : (lengthBytes n).length = 8 := List.length_ofFn
  apply List.ext_getElem (by rw [length_bytesToBits, size, length_bitsOf])
  intro k h1 h2
  have short : k < 64 := by simpa using h2
  have left := getD_bytesToBits (lengthBytes n) k
  have right := getD_bitsOf (BitVec.ofNat 64 (8 * n)) k
  rw [List.getD_eq_getElem _ _ h1, List.getD_eq_getElem _ _ (by omega)] at left
  rw [List.getD_eq_getElem _ _ h2] at right
  rw [left, right]
  have inByte : k % 8 < 8 := Nat.mod_lt _ (by decide)
  simp only [lengthBytes, List.getElem_ofFn, BitVec.getMsbD, BitVec.getLsbD_extractLsb', inByte, short,
    decide_true, Bool.true_and, show 8 - 1 - k % 8 < 8 by omega]
  congr 1
  omega

theorem bytesToBits_padBytes (M : List (BitVec 8)) : bytesToBits (padBytes M) = pad (bytesToBits M) := by
  have marker : bitsOf (0x80 : BitVec 8) = true :: List.replicate 7 false := by decide
  have zeros : 7 + 8 * zeroBytes M.length = zeroBits (8 * M.length) := by
    unfold zeroBytes zeroBits
    omega
  rw [padBytes, padWith, pad, bytesToBits_append, bytesToBits_cons, bytesToBits_append, bytesToBits_zeros,
    bytesToBits_lengthBytes, marker, length_bytesToBits, List.cons_append, ← List.append_assoc,
    List.replicate_append_replicate, zeros]

theorem blockWords_blockOfBytes {bytes : List (BitVec 8)} (size : bytes.length = 64) (i : Nat) (h : i < 16) :
    (blockWords (blockOfBytes bytes))[i] =
      bytes[4 * i] ++ bytes[4 * i + 1] ++ bytes[4 * i + 2] ++ bytes[4 * i + 3] := by
  have length : (bytesToBits bytes).length = 512 := by rw [length_bytesToBits, size]
  apply BitVec.eq_of_getMsbD_eq
  intro k short
  have lhs : ((blockWords (blockOfBytes bytes))[i]).getMsbD k = (blockOfBytes bytes).getMsbD (32 * i + k) := by
    simp only [blockWords, Vector.getElem_ofFn, BitVec.getMsbD, BitVec.getLsbD_extractLsb', short,
      decide_true, Bool.true_and, show 32 - 1 - k < 32 by omega, show 32 * i + k < 512 by omega]
    congr 1
    omega
  rw [lhs, blockOfBytes, getMsbD_ofBitList length, getD_bytesToBits,
    List.getD_eq_getElem _ _ (by omega)]
  simp only [BitVec.getMsbD_append]
  have place : (32 * i + k) / 8 = 4 * i + k / 8 ∧ (32 * i + k) % 8 = k % 8 := by omega
  simp only [place]
  rcases (by omega : k / 8 = 0 ∨ k / 8 = 1 ∨ k / 8 = 2 ∨ k / 8 = 3) with byte | byte | byte | byte
  · have back : k % 8 = k := by omega
    simp [byte, back, show ¬8 ≤ k by omega, show ¬16 ≤ k by omega, show ¬24 ≤ k by omega]
  · have back : k % 8 = k - 8 := by omega
    simp [byte, back, show 8 ≤ k by omega, show ¬16 ≤ k by omega, show ¬24 ≤ k by omega]
  · have back : k % 8 = k - 16 := by omega
    simp [byte, back, show 16 ≤ k by omega, show ¬24 ≤ k by omega]
  · have back : k % 8 = k - 24 := by omega
    simp [byte, back, show 24 ≤ k by omega]

end Bytes

end Dspc.Sha256
