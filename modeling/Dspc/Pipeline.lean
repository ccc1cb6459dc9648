import Dspc.Agreement
import Dspc.PaddingBlock.Length

namespace Dspc.Pipeline
open Vhdl Agreement

/-- The block that `padding` puts out for a 31-bit message. -/
def padded (s : BitVec 32) : BitVec 512 := ofBitList 512 (Sha256.pad (PaddingBlock.message s 31))

theorem compress_padded (s : BitVec 32) :
    Sha256.compress Sha256.initialHash (Sha256.schedule (Sha256.blockWords (padded s))) =
      Sha256.hash (PaddingBlock.message s 31) := by
  have size := PaddingBlock.length_message s (L := 31) (by decide)
  rw [Sha256.hash_single (by omega), padded]

/-- The three components one after the other: `padding` on a message of 31 bits, `deComp`
on its block in any reachable state, and `HashComp` in its first transaction. -/
theorem hash_31 (s : BitVec 32) :
    PaddingBlock.output s 31 = some { ready := .one, outputString := .ofBits (padded s) } ∧
    ∀ d accept post, Scheduling (padded s) d accept post →
      ∃ t, run? BlockDecomp.decomp d (accept :: post) = some t ∧ t.ready = .one ∧ t.finished = .one ∧
        (∀ i (h : i < 64), t.outData[i] = .ofBits (Sha256.schedule (Sha256.blockWords (padded s)))[i]) ∧
        ∀ pre accept' post', FirstTransaction pre accept' post' → (∀ a ∈ post', a.ports.input = t.outData) →
          (run HashComp.hashCompProc HashComp.powerOn (pre ++ accept' :: post')).output =
            .ofBits (Sha256.digest (Sha256.hash (PaddingBlock.message s 31))) := by
  have block : ofBitList 512 (PaddingBlock.blockBits (PaddingBlock.message s 31) (BitVec.ofNat 64 31)) = padded s :=
    (PaddingBlock.padded_31 s).standard
  refine ⟨by rw [PaddingBlock.output_eq, block], fun d accept post scheduling => ?_⟩
  obtain ⟨t, total, ready, finished, words⟩ := scheduling.reach.completes scheduling.ready scheduling.edge
    scheduling.request scheduling.data scheduling.low scheduling.full
  refine ⟨t, total, ready, finished, words, fun pre accept' post' first wired => ?_⟩
  rw [first.compressed wired words, compress_padded]

theorem plain_scheduling (B : BitVec 512) :
    Scheduling B BlockDecomp.powerOn (BlockDecomp.tick .one (.ofBits B))
      (List.replicate 25 (BlockDecomp.tick .zero (.ofBits B))) := by
  refine ⟨⟨[], rfl⟩, rfl, BlockDecomp.tick_clockEdge _ _, rfl, rfl, fun a member => ?_, rfl⟩
  rw [List.eq_of_mem_replicate member]
  exact nofun

theorem plain_first (input : HashComp.StringText) :
    FirstTransaction HashComp.freshReset (HashComp.tick .one input) (List.replicate 65 (HashComp.tick .zero input)) :=
  ⟨HashComp.freshReset_quiet.1, HashComp.freshReset_quiet.2, HashComp.tick_clockEdge _ _, rfl,
    fun a member => (HashComp.replicate_clockEdge _ _ _ a member).1, rfl⟩

theorem hash_31_plain :
    ∃ t, run? BlockDecomp.decomp BlockDecomp.powerOn (BlockDecomp.tick .one (.ofBits (padded 0x61626364)) ::
        List.replicate 25 (BlockDecomp.tick .zero (.ofBits (padded 0x61626364)))) = some t ∧
      (run HashComp.hashCompProc HashComp.powerOn (HashComp.freshReset ++ HashComp.tick .one t.outData ::
          List.replicate 65 (HashComp.tick .zero t.outData))).output =
        .ofBits (Sha256.digest (Sha256.hash (PaddingBlock.message 0x61626364 31))) := by
  obtain ⟨t, total, _, _, _, joined⟩ := (hash_31 0x61626364).2 _ _ _ (plain_scheduling _)
  refine ⟨t, total, joined _ _ _ (plain_first t.outData) fun a member => ?_⟩
  rw [List.eq_of_mem_replicate member]
  rfl

end Dspc.Pipeline
