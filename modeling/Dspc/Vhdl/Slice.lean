import Dspc.Vhdl.Vector

namespace Dspc.Vhdl

/-- The subtype `integer range left downto right`, for natural bounds. -/
abbrev IntegerDownto (left right : Nat) := {i : Nat // right ≤ i ∧ i ≤ left}

/-- A scalar variable without an initial value starts at the left bound of its subtype. -/
def IntegerDownto.left {l r : Nat} (ordered : r ≤ l) : IntegerDownto l r := ⟨l, ordered, le_rfl⟩

namespace StdLogicVector

variable {n m : Nat}

/-- The range `hi downto lo` selects elements of a vector of length `n`. A null range
selects none, wherever it lies. -/
def Selects (n : Nat) (hi lo : Int) : Prop := hi < lo ∨ 0 ≤ lo ∧ hi < n

instance (n : Nat) (hi lo : Int) : Decidable (Selects n hi lo) := inferInstanceAs (Decidable (_ ∨ _))

def index? (v : StdLogicVector n) (i : Int) : Option StdLogic :=
  if inside : 0 ≤ i ∧ i < n then
    have place : i.toNat < n := by omega
    some v[i.toNat]
  else none

def setIndex? (v : StdLogicVector n) (i : Int) (x : StdLogic) : Option (StdLogicVector n) :=
  if 0 ≤ i ∧ i < n then some (ofFn fun j => if j.val = i then x else v.elems.get j) else none

def slice? (v : StdLogicVector n) (hi lo : Int) : Option (StdLogicVector (hi - lo + 1).toNat) :=
  if selects : Selects n hi lo then
    some (ofFn fun i =>
      have place : (lo + i).toNat < n := by
        have := i.isLt
        unfold Selects at selects
        omega
      v[(lo + i).toNat])
  else none

/-- `v(hi downto lo) := x`, which also checks that the lengths match. -/
def setSlice? (v : StdLogicVector n) (hi lo : Int) (x : StdLogicVector m) : Option (StdLogicVector n) :=
  if fits : Selects n hi lo ∧ m = (hi - lo + 1).toNat then
    some (ofFn fun i =>
      if within : lo ≤ i ∧ i ≤ hi then
        have place : (i - lo).toNat < m := by omega
        x[(i - lo).toNat]
      else v[i])
  else none

def resized? (v : StdLogicVector n) (m : Nat) : Option (StdLogicVector m) :=
  if same : n = m then some (ofFn fun i => v[i]) else none

theorem index?_eq (v : StdLogicVector n) {i : Nat} (inside : i < n) : v.index? i = some v[i] := by
  rw [index?, dif_pos (by omega)]
  rfl

theorem setIndex?_eq (v : StdLogicVector n) {i : Int} (x : StdLogic) (inside : 0 ≤ i ∧ i < n) :
    ∃ next : StdLogicVector n, v.setIndex? i x = some next ∧
      ∀ (j : Nat) (h : j < n), next[j] = if (j : Int) = i then x else v[j] := by
  refine ⟨_, if_pos inside, fun j h => ?_⟩
  rw [getElem_ofFn]
  rfl

theorem slice?_eq (v : StdLogicVector n) (hi lo : Int) (selects : Selects n hi lo) :
    ∃ part, v.slice? hi lo = some part ∧
      ∀ (i : Nat) (h : i < (hi - lo + 1).toNat) (place : (lo + i).toNat < n), part[i] = v[(lo + i).toNat] := by
  refine ⟨_, dif_pos selects, fun i h place => ?_⟩
  rw [getElem_ofFn]

theorem setSlice?_eq (v : StdLogicVector n) (hi lo : Int) (x : StdLogicVector m) (selects : Selects n hi lo)
    (length : m = (hi - lo + 1).toNat) :
    ∃ next : StdLogicVector n, v.setSlice? hi lo x = some next ∧
      (∀ (i : Nat) (h : i < n) (place : (i - lo).toNat < m), lo ≤ i → i ≤ hi → next[i] = x[(i - lo).toNat]) ∧
      ∀ (i : Nat) (h : i < n), ¬(lo ≤ i ∧ i ≤ hi) → next[i] = v[i] := by
  refine ⟨_, dif_pos ⟨selects, length⟩, fun i h place above below => ?_, fun i h outside => ?_⟩
  · rw [getElem_ofFn, dif_pos ⟨above, below⟩]
  · rw [getElem_ofFn, dif_neg outside]
    rfl

theorem resized?_eq (v : StdLogicVector n) (same : n = m) :
    ∃ w : StdLogicVector m, v.resized? m = some w ∧ ∀ (i : Nat) (h : i < m) (place : i < n), w[i] = v[i] := by
  refine ⟨_, dif_pos same, fun i h place => ?_⟩
  rw [getElem_ofFn]
  rfl

end StdLogicVector

end Dspc.Vhdl
