import Dspc.BlockDecomp.Announce
import Dspc.CppImp.Core
import Dspc.HashComp.FirstTransaction

namespace Dspc.Agreement
open Vhdl Cpp

/-- `deComp` accepts the block `B` in a reachable state `s` and runs to completion. -/
structure Scheduling (B : BitVec 512) (s : BlockDecomp.State) (accept : Activation BlockDecomp.Ports)
    (post : List (Activation BlockDecomp.Ports)) : Prop where
  reach : BlockDecomp.Reachable s
  ready : s.ready = .one
  edge : ClockEdge accept
  request : accept.ports.update = .one
  data : accept.ports.inData = .ofBits B
  low : ResetLow post
  full : edges post = 25

structure FirstTransaction (pre : List (Activation HashComp.Ports)) (accept : Activation HashComp.Ports)
    (post : List (Activation HashComp.Ports)) : Prop where
  resets : ∃ a ∈ pre, a.reset = .one
  quiet : HashComp.Quiet pre
  edge : ClockEdge accept
  request : accept.ports.newData = .one
  low : ResetLow post
  full : edges post = 65

theorem FirstTransaction.compressed {B : BitVec 512} {W : BlockDecomp.WordArray}
    {pre post : List (Activation HashComp.Ports)} {accept : Activation HashComp.Ports}
    (first : FirstTransaction pre accept post) (wired : ∀ a ∈ post, a.ports.input = W)
    (words : ∀ i (h : i < 64), W[i] = .ofBits (Sha256.schedule (Sha256.blockWords B))[i]) :
    (run HashComp.hashCompProc HashComp.powerOn (pre ++ accept :: post)).output =
      .ofBits (Sha256.digest (Sha256.compress Sha256.initialHash (Sha256.schedule (Sha256.blockWords B)))) := by
  refine HashComp.first_output first.resets first.quiet first.edge first.request first.low first.full ?_
  intro t h a sampled
  have member := (List.mem_filter.mp (List.mem_of_getElem? sampled)).1
  rw [wired a member, words t h]

section Words

variable {w : Nat}

def SameWordFunctions (w : Nat) : Prop :=
  ∀ x : BitVec 32,
    BlockDecomp.o0 (.ofBits x) = .ofBits (low (CppImp.sig0 (widen x : BitVec w))) ∧
    BlockDecomp.o1 (.ofBits x) = .ofBits (low (CppImp.sig1 (widen x : BitVec w))) ∧
    HashComp.ep0 (.ofBits x) = .ofBits (low (CppImp.ep0 (widen x : BitVec w))) ∧
    HashComp.ep1 (.ofBits x) = .ofBits (low (CppImp.ep1 (widen x : BitVec w))) ∧
    ∀ k < 32, (StdLogicVector.ofBits x).rotateRight k = .ofBits (low (CppImp.rotright (widen x : BitVec w) k)) ∧
      (StdLogicVector.ofBits x).shiftRight k = .ofBits (low (CppImp.shfright (widen x : BitVec w) k))

theorem sameWordFunctions (wide : 32 ≤ w) : SameWordFunctions w := by
  intro x
  rw [CppImp.low_sig0 wide, CppImp.low_sig1 wide, CppImp.low_ep0 wide, CppImp.low_ep1 wide]
  refine ⟨BlockDecomp.o0_ofBits x, BlockDecomp.o1_ofBits x, HashComp.ep0_ofBits x, HashComp.ep1_ofBits x, ?_⟩
  intro k inside
  rw [CppImp.low_rotright wide x inside, CppImp.low_shfright wide]
  exact ⟨StdLogicVector.rotateRight_ofBits x k, StdLogicVector.shiftRight_ofBits x k⟩

end Words

/-- On every 64 bytes the program and the two components agree: `outData` holds the
words of `W`, and `output` the words of `H` one after the other. -/
theorem hardware_software_agree {w : Nat} {bytes : Vector (BitVec 8) 64} {s : BlockDecomp.State}
    {accept : Activation BlockDecomp.Ports} {post : List (Activation BlockDecomp.Ports)} (wide : 32 ≤ w)
    (scheduling : Scheduling (Sha256.blockOfBytes bytes.toList) s accept post) :
    ∃ (W : Cells (BitVec w) 64) (H : Vector (BitVec w) 8) (t : BlockDecomp.State),
      CppImp.core CppImp.H (bytes.toList.map (·.setWidth w)) = some (W, H) ∧
      run? BlockDecomp.decomp s (accept :: post) = some t ∧
      (∀ i (h : i < 64), ∃ x : BitVec 32, W.read i = some (widen x) ∧ t.outData[i] = .ofBits x) ∧
      (∀ pre accept' post', FirstTransaction pre accept' post' → (∀ a ∈ post', a.ports.input = t.outData) →
        ∃ h : Vector (BitVec 32) 8, H = h.map widen ∧
          (run HashComp.hashCompProc HashComp.powerOn (pre ++ accept' :: post')).output =
            .ofBits (Sha256.digest h)) ∧
      SameWordFunctions w := by
  have size : bytes.toList.length = 64 := Vector.length_toList
  obtain ⟨_, _, W, stages⟩ := CppImp.stages_exist wide size
  obtain ⟨t, total, _, _, words⟩ := scheduling.reach.completes scheduling.ready scheduling.edge
    scheduling.request scheduling.data scheduling.low scheduling.full
  have core := stages.core_eq wide Sha256.initialHash
  rw [← CppImp.H_eq wide] at core
  refine ⟨W, _, t, core, total, fun i h => ⟨_, stages.words i h, words i h⟩, ?_, sameWordFunctions wide⟩
  intro pre accept' post' first wired
  exact ⟨_, rfl, first.compressed wired words⟩

/-- The bytes 0 to 63. -/
def counting : Vector (BitVec 8) 64 := .ofFn fun i => BitVec.ofNat 8 i

theorem hardware_software_agree_counting :
    ∃ (W : Cells (BitVec 64) 64) (H : Vector (BitVec 64) 8) (t : BlockDecomp.State),
      CppImp.core CppImp.H (counting.toList.map (·.setWidth 64)) = some (W, H) ∧
      run? BlockDecomp.decomp BlockDecomp.powerOn
        (BlockDecomp.tick .one (.ofBits (Sha256.blockOfBytes counting.toList)) ::
          List.replicate 25 (BlockDecomp.tick .one (.others .U))) = some t ∧
      ∃ h : Vector (BitVec 32) 8, H = h.map widen ∧
        (run HashComp.hashCompProc HashComp.powerOn (HashComp.freshReset ++ HashComp.tick .one t.outData ::
            List.replicate 65 (HashComp.tick .one t.outData))).output =
          .ofBits (Sha256.digest h) := by
  have scheduling : Scheduling (Sha256.blockOfBytes counting.toList) BlockDecomp.powerOn
      (BlockDecomp.tick .one (.ofBits (Sha256.blockOfBytes counting.toList)))
      (List.replicate 25 (BlockDecomp.tick .one (.others .U))) := by
    refine ⟨⟨[], rfl⟩, rfl, BlockDecomp.tick_clockEdge _ _, rfl, rfl, fun a member => ?_, by decide⟩
    rw [List.eq_of_mem_replicate member]
    exact nofun
  obtain ⟨W, H, t, core, total, _, joined, _⟩ := hardware_software_agree (w := 64) (by decide) scheduling
  have first : FirstTransaction HashComp.freshReset (HashComp.tick .one t.outData)
      (List.replicate 65 (HashComp.tick .one t.outData)) := by
    refine ⟨HashComp.freshReset_quiet.1, HashComp.freshReset_quiet.2, HashComp.tick_clockEdge _ _, rfl,
      fun a member => (HashComp.replicate_clockEdge _ _ _ a member).1, rfl⟩
  refine ⟨W, H, t, core, total, joined _ _ _ first fun a member => ?_⟩
  rw [List.eq_of_mem_replicate member]
  rfl

end Dspc.Agreement
