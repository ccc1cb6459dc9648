import Mathlib.Tactic.IntervalCases
import Dspc.BlockDecomp.Bhv

namespace Dspc.BlockDecomp
open Vhdl

def blockWords (B : StdLogicVector 512) : Vector Word 16 :=
  Vector.ofFn fun i => StdLogicVector.ofFn fun j => B[480 - 32 * i.val + j.val]

/-- The message schedule of a block in the arithmetic of `std_logic_vector`. -/
def refWord (B : StdLogicVector 512) (t : Nat) : Word := Sha256.expandWord o0 o1 (· + ·) (blockWords B) t

def scheduleOf (B : StdLogicVector 512) : WordArray := Vector.ofFn fun t => refWord B t

theorem refWord_step (B : StdLogicVector 512) {t : Nat} (late : 16 ≤ t) :
    refWord B t = o1 (refWord B (t - 2)) + refWord B (t - 7) + o0 (refWord B (t - 15)) + refWord B (t - 16) := by
  simp only [refWord]
  rw [Sha256.expandWord_step o0 o1 (· + ·) (blockWords B) late]

theorem blockWords_ofBits (b : BitVec 512) : blockWords (.ofBits b) = (Sha256.blockWords b).map .ofBits := by
  apply Vector.ext
  intro i h
  simp only [blockWords, Sha256.blockWords, Vector.getElem_ofFn, Vector.getElem_map]
  apply StdLogicVector.ext_getElem
  intro j hj
  rw [StdLogicVector.getElem_ofFn, StdLogicVector.getElem_ofBits, StdLogicVector.getElem_ofBits,
    BitVec.getElem_extractLsb', BitVec.getLsbD_eq_getElem (by omega)]

theorem refWord_ofBits (b : BitVec 512) (t : Nat) :
    refWord (.ofBits b) t =
      .ofBits (Sha256.expandWord Sha256.sigma0 Sha256.sigma1 (· + ·) (Sha256.blockWords b) t) := by
  rw [refWord, blockWords_ofBits]
  exact (Sha256.expandWord_map _ _ _ _ StdLogicVector.ofBits (fun x => (o0_ofBits x).symm)
    (fun x => (o1_ofBits x).symm) (fun x y => (StdLogicVector.add_ofBits x y).symm) t).symm

theorem scheduleOf_ofBits (b : BitVec 512) :
    scheduleOf (.ofBits b) = (Sha256.schedule (Sha256.blockWords b)).map .ofBits := by
  apply Vector.ext
  intro t h
  rw [scheduleOf, Vector.getElem_ofFn, Vector.getElem_map, refWord_ofBits, Sha256.getElem_schedule _ h]

theorem getElem_loadBlock (T : WordArray) (B : StdLogicVector 512) {i : Nat} (early : i < 16) :
    (loadBlock T B)[i] = refWord B i := by
  rw [refWord, Sha256.expandWord_block _ _ _ _ early]
  apply StdLogicVector.ext_getElem
  intro j hj
  simp only [blockWords, Vector.getElem_ofFn, StdLogicVector.getElem_ofFn]
  interval_cases i <;> simp [loadBlock, StdLogicVector.getElem_slice]

section State

variable {s : State} {p : Ports} {B : StdLogicVector 512} {c : Nat}

def State.Filled (s : State) (B : StdLogicVector 512) (c : Nat) : Prop :=
  ∀ i (h : i < 64), i < c → s.tempBlock[i] = refWord B i

theorem onEdge_quiet (idle : s.state = .IDLE) (quiet : p.update ≠ .one) : onEdge p s = some s := by
  simp only [onEdge, idle, if_neg quiet]

theorem onEdge_accept (idle : s.state = .IDLE) (request : p.update = .one) :
    onEdge p s =
      some { s with tempBlock := loadBlock s.tempBlock p.inData, finished := .zero, state := .WORKING } := by
  simp only [onEdge, idle, if_pos request]

theorem onEdge_done (done : s.state = .DONE) :
    onEdge p s = some { s with outData := s.tempBlock, finished := .one, state := .IDLE } := by
  simp only [onEdge, done]

def twoMore (T : WordArray) (B : StdLogicVector 512) (c : Nat) (range : c ≤ 62) : WordArray :=
  (T.set c (refWord B c)).set (c + 1) (refWord B (c + 1))

/-- A WORKING edge writes two further words of the schedule. No operand of the second
word is the first one, so both may be computed from the old contents, and the stale
words from `c` on are not read. -/
theorem onEdge_working (working : s.state = .WORKING) (counter : s.counter.val = c) (low : 16 ≤ c)
    (high : c ≤ 62) (filled : s.Filled B c) :
    onEdge p s =
      if c + 2 > 63 then
        some { s with tempBlock := twoMore s.tempBlock B c high, counter := ⟨16, by decide⟩, state := .DONE }
      else some { s with tempBlock := twoMore s.tempBlock B c high, counter := ⟨c + 2, by omega⟩ } := by
  have read : ∀ k, 0 < k → k ≤ 16 → s.tempBlock[c - k]? = some (refWord B (c - k)) := by
    intro k positive bound
    rw [Vector.getElem?_eq_getElem (by omega), filled (c - k) (by omega) (by omega)]
  have first := refWord_step B low
  have second := refWord_step B (t := c + 1) (by omega)
  rw [show c + 1 - 2 = c - 1 by omega, show c + 1 - 7 = c - 6 by omega,
    show c + 1 - 15 = c - 14 by omega, show c + 1 - 16 = c - 15 by omega] at second
  simp only [onEdge, working, counter, read 1, read 2, read 6, read 7, read 14, read 15, read 16,
    Nat.reduceLT, Nat.reduceLeDiff, le_refl, Option.bind_eq_bind, Option.bind_some, ← first, ← second,
    assign_eq _ _ (show c < 64 by omega), assign_eq _ _ (show c + 1 < 64 by omega), twoMore,
    IntegerRange.check_eq (show 16 ≤ c + 2 ∧ c + 2 ≤ 65 by omega)]

theorem State.Filled.twoMore (filled : s.Filled B c) (range : c ≤ 62) (i : Nat) (h : i < 64)
    (below : i < c + 2) : (BlockDecomp.twoMore s.tempBlock B c range)[i] = refWord B i := by
  rw [BlockDecomp.twoMore, Vector.getElem_set, Vector.getElem_set]
  split
  · rename_i second
    rw [second]
  · split
    · rename_i first
      rw [first]
    · exact filled i h (by omega)

end State

end Dspc.BlockDecomp
