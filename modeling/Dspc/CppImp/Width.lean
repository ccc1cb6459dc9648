import Dspc.CppImp.Core

namespace Dspc.CppImp
open Cpp

variable {w : Nat}

/-- The elements of `W` below `i` are written, with nothing above bit 31, and no other is. -/
def CleanTo (W : Cells (BitVec w) 64) (i : Nat) : Prop :=
  (∀ t < i, ∃ x, W.read t = some x ∧ x.toNat < 2 ^ 32) ∧ ∀ t, i ≤ t → W.read t = none

def Vars.Clean (v : Vars w) : Prop :=
  v.a.toNat < 2 ^ 32 ∧ v.b.toNat < 2 ^ 32 ∧ v.c.toNat < 2 ^ 32 ∧ v.d.toNat < 2 ^ 32 ∧
    v.e.toNat < 2 ^ 32 ∧ v.f.toNat < 2 ^ 32 ∧ v.g.toNat < 2 ^ 32 ∧ v.h.toNat < 2 ^ 32

theorem Scheduled.cleanTo (wide : 32 ≤ w) {M : Vector Sha256.Word 16} {first bound i : Nat}
    {W : Cells (BitVec w) 64} (inv : Scheduled M first bound i W) : CleanTo W i := by
  obtain ⟨_, _, filled⟩ := inv
  constructor
  · intro t before
    exact ⟨scheduleWord M t, filled.done t before, widen_lt wide _⟩
  · intro t after
    rw [filled.rest t after, Cells.read_uninit]

theorem Rounded.clean (wide : 32 ≤ w) {v : Sha256.Working} {S : Vector Sha256.Word 64} {i : Nat} {u : Vars w}
    (inv : Rounded v S i u) : u.Clean := by
  obtain ⟨_, rfl⟩ := inv
  exact ⟨widen_lt wide _, widen_lt wide _, widen_lt wide _, widen_lt wide _, widen_lt wide _, widen_lt wide _,
    widen_lt wide _, widen_lt wide _⟩

/-- Between two masks the 64-bit functions do leave the range of 32-bit numbers, on clean arguments. -/
def Overflows (x : BitVec 64) : Prop :=
  x.toNat < 2 ^ 32 ∧ 2 ^ 32 ≤ (rotright x 7).toNat ∧ 2 ^ 32 ≤ (sig0 x).toNat ∧ 2 ^ 32 ≤ (sig1 x).toNat ∧
    2 ^ 32 ≤ (ep0 x).toNat ∧ 2 ^ 32 ≤ (ep1 x).toNat ∧ 2 ^ 32 ≤ (~~~x).toNat ∧
    2 ^ 32 ≤ (x + ep1 x + Ch x x x + Constant_k.get 0 + x).toNat ∧ 2 ^ 32 ≤ (ep0 x + Maj x x x).toNat

/-- A 64-bit `unsigned long` computes what a 32-bit one does. Its `W` and its working
variables stay clean at every exit test of the loops. -/
theorem core_width_independent (bytes : Vector (BitVec 8) 64) (H : Vector (BitVec 32) 8) :
    ∃ (W32 : Cells (BitVec 32) 64) (H32 : Vector (BitVec 32) 8) (W_temp : Cells (BitVec 64) 16)
      (W₀ W : Cells (BitVec 64) 64) (H64 : Vector (BitVec 64) 8),
      core H (bytes.toList.map (·.setWidth 32)) = some (W32, H32) ∧
      core (H.map (·.setWidth 64)) (bytes.toList.map (·.setWidth 64)) = some (W, H64) ∧
      (∀ i < 64, ∃ x y, W32.read i = some x ∧ W.read i = some y ∧ x.toNat = y.toNat) ∧
      (∀ (i : Nat) (h : i < 8), H32[i].toNat = H64[i].toNat) ∧
      resize (bytes.toList.map (·.setWidth 64)) = some W_temp ∧
      Visits 16 1 (copyStep W_temp) 0 (.uninit 64) 16 W₀ ∧
      Visits 64 1 scheduleStep 16 W₀ 64 W ∧
      (∃ v, Visits 64 1 (roundStep W) 0 (.ofH (H.map (·.setWidth 64))) 64 v ∧
        H64 = addH (H.map (·.setWidth 64)) v) ∧
      (∀ i V, Visits 16 1 (copyStep W_temp) 0 (.uninit 64) i V → CleanTo V i) ∧
      (∀ i V, Visits 64 1 scheduleStep 16 W₀ i V → CleanTo V i) ∧
      (∀ i v, Visits 64 1 (roundStep W) 0 (.ofH (H.map (·.setWidth 64))) i v → v.Clean) ∧
      ∃ x, Overflows x := by
  have wide : 32 ≤ 64 := by decide
  have size : bytes.toList.length = 64 := Vector.length_toList
  obtain ⟨_, _, W32, stages32⟩ := stages_exist (le_refl 32) size
  obtain ⟨W_temp, W₀, W, stages⟩ := stages_exist wide size
  have run32 := stages32.core_eq le_rfl H
  rw [map_widen] at run32
  have start : Vars.ofH (H.map widen : Vector (BitVec 64) 8) = .widen (.ofHash H) := ofH_eq H
  have rounds := rounds_spec wide stages.words (.ofHash H)
  rw [← start] at rounds
  refine ⟨W32, _, W_temp, W₀, W, _, run32, stages.core_eq wide H, ?_, ?_, stages.resized,
    forInt_visits (n := 16) (by decide) stages.copied, forInt_visits (n := 64) (by decide) stages.extended,
    ⟨_, forInt_visits (n := 64) (by decide) rounds, ?_⟩, ?_, ?_, ?_, 0xFFFFFFFF, by unfold Overflows; decide⟩
  · intro i h
    exact ⟨_, _, stages32.words i h, stages.words i h, by rw [widen_toNat le_rfl, widen_toNat wide]⟩
  · intro i h
    rw [Vector.getElem_map, Vector.getElem_map, widen_toNat le_rfl, widen_toNat wide]
  · exact (addH_eq wide H _).symm
  · intro i V visited
    exact (visited.inv (copyStep_spec wide stages.block) scheduled_none).cleanTo wide
  · intro i V visited
    exact (visited.inv (scheduleStep_spec wide) stages.middle).cleanTo wide
  · intro i v visited
    have initial : Rounded (.ofHash H) (Sha256.schedule (Sha256.blockWords (Sha256.blockOfBytes bytes.toList))) 0
        (Vars.ofH (H.map widen) : Vars 64) := ⟨by decide, start⟩
    exact (visited.inv (roundStep_spec wide stages.words _) initial).clean wide

end Dspc.CppImp
