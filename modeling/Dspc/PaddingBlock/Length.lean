import Dspc.PaddingBlock.Bhv

namespace Dspc.PaddingBlock
open Vhdl

/-- The message of `L` bits: the low bits of `s`, the most significant one first. -/
def message (s : BitVec 32) (L : Nat) : List Bool := (bitsOf s).drop (32 - L)

def blockBits (M : List Bool) (length : BitVec 64) : List Bool :=
  M ++ true :: (List.replicate (447 - M.length) false ++ bitsOf length)

theorem length_message (s : BitVec 32) {L : Nat} (bound : L ≤ 32) : (message s L).length = L := by
  rw [message, List.length_drop, length_bitsOf]
  omega

theorem length_blockBits {M : List Bool} (short : M.length ≤ 447) (length : BitVec 64) :
    (blockBits M length).length = 512 := by
  simp only [blockBits, List.length_append, List.length_cons, List.length_replicate, length_bitsOf]
  omega

theorem pad_eq {M : List Bool} (short : M.length ≤ 447) :
    Sha256.pad M = blockBits M (BitVec.ofNat 64 M.length) := by
  have zeros : Sha256.zeroBits M.length = 447 - M.length := by
    unfold Sha256.zeroBits
    omega
  rw [Sha256.pad, blockBits, zeros]

theorem getD_blockBits {M : List Bool} (short : M.length ≤ 447) (length : BitVec 64) (i : Nat) :
    (blockBits M length).getD i false =
      if i < M.length then M.getD i false
      else if i = M.length then true
      else if i < 448 then false
      else length.getMsbD (i - 448) := by
  rw [blockBits]
  split
  · rename_i text
    rw [List.getD_append _ _ _ _ text]
  · rename_i after
    rw [List.getD_append_right _ _ _ _ (by omega)]
    split
    · rename_i marker
      rw [marker, Nat.sub_self, List.getD_cons_zero]
    · rename_i beyond
      have next : i - M.length = i - M.length - 1 + 1 := by omega
      rw [next, List.getD_cons_succ]
      split
      · rename_i zeros
        rw [List.getD_append _ _ _ _ (by rw [List.length_replicate]; omega), List.getD_replicate _ (by omega)]
      · rename_i field
        have place : i - M.length - 1 - (447 - M.length) = i - 448 := by omega
        rw [List.getD_append_right _ _ _ _ (by rw [List.length_replicate]; omega), List.length_replicate,
          getD_bitsOf, place]

/-- A block tells how long its message is: the marker is the last '1' before the length field. -/
theorem blockBits_length {M N : List Bool} {p q : BitVec 64} (shortM : M.length ≤ 447) (shortN : N.length ≤ 447)
    (same : blockBits M p = blockBits N q) : N.length ≤ M.length := by
  by_contra longer
  have left := getD_blockBits shortM p N.length
  have right := getD_blockBits shortN q N.length
  rw [if_neg (by omega), if_neg (by omega), if_pos (by omega), same, right, if_neg (by omega), if_pos rfl] at left
  exact absurd left (by decide)

theorem blockBits_injective {M N : List Bool} {p q : BitVec 64} (shortM : M.length ≤ 447) (shortN : N.length ≤ 447)
    (same : blockBits M p = blockBits N q) : M = N ∧ p = q := by
  have above := blockBits_length shortM shortN same
  have below := blockBits_length shortN shortM same.symm
  have length : M.length = N.length := by omega
  obtain ⟨text, rest⟩ := List.append_inj same length
  rw [length] at rest
  have field := List.append_cancel_left (List.cons.inj rest).2
  refine ⟨text, ?_⟩
  rw [← ofBitList_bitsOf p, field, ofBitList_bitsOf]

theorem field_blockBits {M : List Bool} (short : M.length ≤ 447) (length : BitVec 64) :
    (ofBitList 512 (blockBits M length)).extractLsb' 0 64 = length := by
  have ahead : (M ++ true :: List.replicate (447 - M.length) false).length = 448 := by
    simp only [List.length_append, List.length_cons, List.length_replicate]
    omega
  have tail : (blockBits M length).drop 448 = bitsOf length := by
    rw [blockBits, ← List.cons_append, ← List.append_assoc, List.drop_left' ahead]
  have window := ofBitList_window (ofBitList 512 (blockBits M length)) (i := 448) (m := 64) (by decide)
  rw [bitsOf_ofBitList (length_blockBits short length), tail, List.take_of_length_le (by rw [length_bitsOf]),
    ofBitList_bitsOf] at window
  exact window.symm

theorem getD_message (s : BitVec 32) (L i : Nat) : (message s L).getD i false = s.getMsbD (32 - L + i) := by
  rw [message, List.getD_eq_getElem?_getD, List.getElem?_drop, ← List.getD_eq_getElem?_getD, getD_bitsOf]

theorem body_bits (l : IntegerDownto 31 0) (s : BitVec 32) (length : BitVec 64) (out : Outputs) :
    body l { inputString := .ofBits s, inputLength := .ofBits length } out =
      some { ready := .one, outputString := .ofBits (ofBitList 512 (blockBits (message s l) length)) } := by
  obtain ⟨v, run, text, marker, zeros, field⟩ :=
    body_elements l { inputString := .ofBits s, inputLength := .ofBits length } out
  have range := l.property
  have size := length_message s (L := l) (by omega)
  have short : (message s l).length ≤ 447 := by omega
  have same : v = .ofBits (ofBitList 512 (blockBits (message s l) length)) := by
    apply StdLogicVector.ext_getElem
    intro i h
    rw [StdLogicVector.getElem_ofBits, getElem_ofBitList (length_blockBits short length), getD_blockBits short, size]
    rcases (by omega : 512 - l.val ≤ i ∨ i = 511 - l.val ∨ (64 ≤ i ∧ i < 511 - l.val) ∨ i < 64)
      with top | rfl | ⟨above, below⟩ | low
    · obtain ⟨j, rfl⟩ := Nat.exists_eq_add_of_le top
      have source : 32 - l.val + (512 - 1 - (512 - l.val + j)) = 31 - j := by omega
      rw [text j (by omega) h (by omega), if_pos (by omega), StdLogicVector.getElem_ofBits, getD_message, source,
        getMsbD_mirror s (by omega)]
    · rw [marker h, if_neg (by omega), if_pos (by omega)]
      rfl
    · rw [zeros i above below h, if_neg (by omega), if_neg (by omega), if_pos (by omega)]
      rfl
    · have source : 512 - 1 - i - 448 = 63 - i := by omega
      rw [field i low h, if_neg (by omega), if_neg (by omega), if_neg (by omega), StdLogicVector.getElem_ofBits,
        source, getMsbD_mirror length low]
  rw [run, same]

def output (s : BitVec 32) (L : Nat) : Option Outputs :=
  padProc { inputString := .ofBits s, inputLength := .ofBits (BitVec.ofNat 64 L) }

/-- The padded block of the message of `L` bits in `s`, which decodes back to it. -/
structure Padded (s : BitVec 32) (L : Nat) (B : BitVec 512) : Prop where
  regions : B = ofBitList 512 (message s L ++ true :: (List.replicate (447 - L) false ++ bitsOf (BitVec.ofNat 64 L)))
  standard : B = ofBitList 512 (Sha256.pad (message s L))
  length : (B.extractLsb' 0 64).toNat = L
  text : (bitsOf B).take (B.extractLsb' 0 64).toNat = message s L

/-- The entity is right about `s` and `L`: it puts out the padded block, and puts that
block out for no other message. -/
def Correct (s : BitVec 32) (L : Nat) : Prop :=
  ∃ B, output s L = some { ready := .one, outputString := .ofBits B } ∧ Padded s L B ∧
    ∀ (s' : BitVec 32) (L' : Fin 33), output s' L' = output s L → message s' L' = message s L ∧ L' = L

/-- Whatever the length port says, the process takes 31 bits of the string. -/
theorem output_eq (s : BitVec 32) (L : Nat) :
    output s L = some
      { ready := .one, outputString := .ofBits (ofBitList 512 (blockBits (message s 31) (BitVec.ofNat 64 L))) } :=
  body_bits l s (BitVec.ofNat 64 L) powerOn

/-- Two blocks that come out alike have the same message and the same length field. -/
theorem outputs_inj {M N : List Bool} {p q : BitVec 64} (shortM : M.length ≤ 447) (shortN : N.length ≤ 447)
    (same : some (Outputs.mk .one (.ofBits (ofBitList 512 (blockBits M p)))) =
      some (Outputs.mk .one (.ofBits (ofBitList 512 (blockBits N q))))) : M = N ∧ p = q := by
  have vectors := congrArg Outputs.outputString (Option.some.inj same)
  have bits := ofBitList_injective (length_blockBits shortM p) (length_blockBits shortN q)
    (StdLogicVector.ofBits_inj.mp vectors)
  exact blockBits_injective shortM shortN bits

theorem Padded.length_eq {s : BitVec 32} {L : Nat} {B : BitVec 512} (bound : L ≤ 32) (padded : Padded s L B)
    (run : output s L = some { ready := .one, outputString := .ofBits B }) : L = 31 := by
  have sizes : (message s L).length = L ∧ (message s 31).length = 31 :=
    ⟨length_message s bound, length_message s (by decide)⟩
  have regions : B = ofBitList 512 (blockBits (message s L) (BitVec.ofNat 64 L)) := by
    rw [padded.regions, blockBits, sizes.1]
  rw [output_eq, regions] at run
  have same := (outputs_inj (by omega) (by omega) run).1
  rw [← sizes.1, ← same, sizes.2]

theorem padded_31 (s : BitVec 32) :
    Padded s 31 (ofBitList 512 (blockBits (message s 31) (BitVec.ofNat 64 31))) := by
  have size := length_message s (L := 31) (by decide)
  have total := length_blockBits (M := message s 31) (by omega) (BitVec.ofNat 64 31)
  have field : ((ofBitList 512 (blockBits (message s 31) (BitVec.ofNat 64 31))).extractLsb' 0 64).toNat = 31 := by
    rw [field_blockBits (by omega)]
    rfl
  refine ⟨?_, ?_, field, ?_⟩
  · rw [blockBits, size]
  · rw [pad_eq (by omega), size]
  · rw [field, bitsOf_ofBitList total, blockBits, List.take_left' size]

/-- The entity is right about messages of 31 bits only, the default of the variable
that nothing assigns. -/
theorem correct_iff (s : BitVec 32) (L : Fin 33) : Correct s L ↔ L.val = 31 := by
  constructor
  · rintro ⟨B, run, padded, _⟩
    exact padded.length_eq (by omega) run
  · intro length
    rw [length]
    refine ⟨_, output_eq s 31, padded_31 s, fun s' L' same => ?_⟩
    have sizes (s : BitVec 32) : (message s 31).length = 31 := length_message s (by decide)
    rw [output_eq, output_eq] at same
    obtain ⟨text, field⟩ := outputs_inj (by rw [sizes]; decide) (by rw [sizes]; decide) same
    have lengths : L'.val = 31 := by
      have values := congrArg BitVec.toNat field
      rw [BitVec.toNat_ofNat, BitVec.toNat_ofNat] at values
      omega
    exact ⟨by rw [lengths, text], lengths⟩

theorem correct_counterexample : ¬Correct 0x61626364 32 := by
  rintro ⟨B, run, padded, _⟩
  exact absurd (padded.length_eq (by decide) run) (by decide)

end Dspc.PaddingBlock
