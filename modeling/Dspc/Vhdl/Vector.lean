import Mathlib.Data.BitVec
import Mathlib.Tactic.Common
import Dspc.Vhdl.StdLogic

namespace Dspc.Vhdl

/-- `std_logic_vector(n-1 downto 0)`: index `i` is the element written `v(i)`,
so index 0 is the rightmost element of a literal. -/
@[ext]
structure StdLogicVector (n : Nat) where
  elems : Vector StdLogic n
  deriving DecidableEq

namespace StdLogicVector

variable {n m : Nat}

instance : GetElem (StdLogicVector n) Nat StdLogic (fun _ i => i < n) where
  getElem v i h := v.elems[i]

theorem ext_getElem {v w : StdLogicVector n} (same : ∀ (i : Nat) (h : i < n), v[i] = w[i]) : v = w :=
  StdLogicVector.ext (Vector.ext same)

def ofFn (f : Fin n → StdLogic) : StdLogicVector n := ⟨Vector.ofFn f⟩

@[simp] theorem getElem_ofFn (f : Fin n → StdLogic) (i : Nat) (h : i < n) : (ofFn f)[i] = f ⟨i, h⟩ :=
  Vector.getElem_ofFn h

def others (x : StdLogic) : StdLogicVector n := ofFn fun _ => x

/-- The vector of a bit pattern, all of whose elements are '0' or '1'. -/
def ofBits (x : BitVec n) : StdLogicVector n := ofFn fun i => .ofBool x[i]

@[simp] theorem getElem_others (x : StdLogic) (i : Nat) (h : i < n) :
    (others x : StdLogicVector n)[i] = x :=
  getElem_ofFn _ i h

@[simp] theorem getElem_ofBits (x : BitVec n) (i : Nat) (h : i < n) : (ofBits x)[i] = .ofBool x[i] :=
  getElem_ofFn _ i h

theorem ofBits_injective {x y : BitVec n} (same : ofBits x = ofBits y) : x = y := by
  apply BitVec.eq_of_getElem_eq
  intro i h
  have bit : (ofBits x)[i] = (ofBits y)[i] := by rw [same]
  rw [getElem_ofBits, getElem_ofBits] at bit
  exact StdLogic.ofBool_injective bit

@[simp] theorem ofBits_inj {x y : BitVec n} : ofBits x = ofBits y ↔ x = y :=
  ⟨ofBits_injective, congrArg _⟩

theorem others_zero : (others .zero : StdLogicVector n) = ofBits 0 := by
  apply ext_getElem
  intro i h
  simp [StdLogic.ofBool]

instance : AndOp (StdLogicVector n) := ⟨fun v w => ofFn fun i => v[i].and w[i]⟩
instance : XorOp (StdLogicVector n) := ⟨fun v w => ofFn fun i => v[i].xor w[i]⟩
instance : Complement (StdLogicVector n) := ⟨fun v => ofFn fun i => v[i].not⟩

def rotateRight (v : StdLogicVector n) (k : Nat) : StdLogicVector n :=
  ofFn fun i =>
    have inRange : (i + k) % n < n := Nat.mod_lt _ i.pos
    v[(i + k) % n]

/-- `shift_right` of `numeric_std` on `unsigned`: zeros enter from the left. -/
def shiftRight (v : StdLogicVector n) (k : Nat) : StdLogicVector n :=
  ofFn fun i => if h : i + k < n then v[i + k] else .zero

/-- The binary reading shared by `to_01` of `numeric_std` and the conversions of
`std_logic_unsigned`: one metavalue anywhere spoils the whole vector. -/
def toBits? (v : StdLogicVector n) : Option (BitVec n) :=
  if ∀ i : Fin n, v[i].toBool?.isSome then
    some (BitVec.iunfoldr (fun i (_ : Unit) => ((), v[i].toBool?.getD false)) ()).2
  else none

instance : Add (StdLogicVector n) where
  add v w :=
    match v.toBits?, w.toBits? with
    | some x, some y => ofBits (x + y)
    | _, _ => others .X

/-- `to_integer(unsigned(v))`, which is 0 (with a warning) on a metavalue. -/
def toInteger (v : StdLogicVector n) : Nat :=
  match v.toBits? with
  | some x => x.toNat
  | none => 0

instance : HAppend (StdLogicVector n) (StdLogicVector m) (StdLogicVector (n + m)) where
  hAppend v w := ofFn fun i => if h : i < m then w[i] else v[i - m]

def slice (v : StdLogicVector n) (hi lo : Nat) (within : lo ≤ hi ∧ hi < n) :
    StdLogicVector (hi - lo + 1) :=
  ofFn fun i => v[lo + i]

theorem getElem_and (v w : StdLogicVector n) (i : Nat) (h : i < n) : (v &&& w)[i] = v[i].and w[i] :=
  getElem_ofFn _ i h

theorem getElem_xor (v w : StdLogicVector n) (i : Nat) (h : i < n) : (v ^^^ w)[i] = v[i].xor w[i] :=
  getElem_ofFn _ i h

theorem getElem_not (v : StdLogicVector n) (i : Nat) (h : i < n) : (~~~v)[i] = v[i].not :=
  getElem_ofFn _ i h

theorem getElem_append (v : StdLogicVector n) (w : StdLogicVector m) (i : Nat) (h : i < n + m) :
    (v ++ w)[i] = if low : i < m then w[i] else v[i - m] :=
  getElem_ofFn _ i h

@[simp] theorem and_ofBits (x y : BitVec n) : ofBits x &&& ofBits y = ofBits (x &&& y) := by
  apply ext_getElem
  intro i h
  simp [getElem_and]

@[simp] theorem xor_ofBits (x y : BitVec n) : ofBits x ^^^ ofBits y = ofBits (x ^^^ y) := by
  apply ext_getElem
  intro i h
  simp [getElem_xor]

@[simp] theorem not_ofBits (x : BitVec n) : ~~~ofBits x = ofBits (~~~x) := by
  apply ext_getElem
  intro i h
  simp [getElem_not]

@[simp] theorem rotateRight_ofBits (x : BitVec n) (k : Nat) :
    rotateRight (ofBits x) k = ofBits (x.rotateRight k) := by
  apply ext_getElem
  intro i h
  simp only [rotateRight, getElem_ofFn, getElem_ofBits, BitVec.getElem_rotateRight]
  have small : k % n < n := Nat.mod_lt _ (by omega)
  split
  · rename_i below
    congr 2
    rw [Nat.add_mod, Nat.mod_eq_of_lt h, Nat.mod_eq_of_lt (by omega), Nat.add_comm]
  · rename_i above
    congr 2
    rw [Nat.add_mod, Nat.mod_eq_of_lt h, Nat.mod_eq_sub_mod (by omega), Nat.mod_eq_of_lt (by omega)]
    omega

@[simp] theorem shiftRight_ofBits (x : BitVec n) (k : Nat) :
    shiftRight (ofBits x) k = ofBits (x >>> k) := by
  apply ext_getElem
  intro i h
  simp only [shiftRight, getElem_ofFn, getElem_ofBits, BitVec.getElem_ushiftRight]
  split
  · rename_i inside
    rw [BitVec.getLsbD_eq_getElem (by omega)]
    congr 2
    omega
  · rename_i outside
    rw [BitVec.getLsbD_of_ge _ _ (by omega)]
    rfl

@[simp] theorem toBits?_ofBits (x : BitVec n) : (ofBits x).toBits? = some x := by
  have defined : ∀ i : Fin n, (ofBits x)[i].toBool?.isSome := by
    intro i
    simp
  rw [toBits?, if_pos defined]
  congr 1
  apply BitVec.iunfoldr_replace_snd (fun _ => ()) x () rfl
  intro i
  simp

@[simp] theorem add_ofBits (x y : BitVec n) : ofBits x + ofBits y = ofBits (x + y) := by
  change (match (ofBits x).toBits?, (ofBits y).toBits? with
    | some x, some y => ofBits (x + y)
    | _, _ => others .X) = _
  simp only [toBits?_ofBits]

@[simp] theorem toInteger_ofBits (x : BitVec n) : (ofBits x).toInteger = x.toNat := by
  simp only [toInteger, toBits?_ofBits]

theorem toInteger_lt (v : StdLogicVector n) : v.toInteger < 2 ^ n := by
  unfold toInteger
  split
  · exact BitVec.isLt _
  · exact Nat.two_pow_pos n

@[simp] theorem append_ofBits (x : BitVec n) (y : BitVec m) :
    ofBits x ++ ofBits y = ofBits (x ++ y) := by
  apply ext_getElem
  intro i h
  rw [getElem_append, getElem_ofBits, BitVec.getElem_append]
  split <;> simp

theorem getElem_slice (v : StdLogicVector n) (hi lo : Nat) (within : lo ≤ hi ∧ hi < n)
    (i : Nat) (h : i < hi - lo + 1) : (v.slice hi lo within)[i] = v[lo + i] :=
  getElem_ofFn _ i h

@[simp] theorem slice_ofBits (x : BitVec n) (hi lo : Nat) (within : lo ≤ hi ∧ hi < n) :
    (ofBits x).slice hi lo within = ofBits (x.extractLsb hi lo) := by
  apply ext_getElem
  intro i h
  rw [getElem_slice, getElem_ofBits, getElem_ofBits, BitVec.extractLsb, BitVec.getElem_extractLsb',
    BitVec.getLsbD_eq_getElem (by omega)]

end StdLogicVector

end Dspc.Vhdl
