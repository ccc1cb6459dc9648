import Dspc.Vhdl.Simulation
import Dspc.PaddingBlock.Bhv

namespace Dspc.PaddingBlock
open Vhdl

structure Ports where
  clk : StdLogic
  reset : StdLogic
  inputs : Inputs

/-- `padProc` has no sensitivity list and ends with `wait;`, which nothing ends. -/
def process : Process Ports Outputs where
  body p out := body l p.inputs out
  resumes _ _ := false

/-- What the process computes from its inputs, right or wrong. -/
def pad (p : Inputs) : Option (StdLogicVector 512) := (padProc p).map (·.outputString)

def Vouches (k : Simulation Ports Outputs) : Prop :=
  k.Settled → k.signals.ready = .one → pad k.ports.inputs = some k.signals.outputString

def VouchesAlong (first : Ports) (w : List Ports) : Prop :=
  ∀ u v, w = u ++ v → ∃ k, process.simulate first powerOn u = some k ∧ Vouches k

/-- Agreement on all that the process reads: the length and the low 31 bits of the string. -/
structure SameMessage (p q : Inputs) : Prop where
  length : p.inputLength = q.inputLength
  string : ∀ (i : Nat) (h : i < 32), i < 31 → p.inputString[i] = q.inputString[i]

theorem pad_eq_iff (p q : Inputs) : pad p = pad q ↔ SameMessage p q := by
  have last : l.val = 31 := rfl
  obtain ⟨v, runP, textP, markerP, zerosP, fieldP⟩ := body_elements l p powerOn
  obtain ⟨w, runQ, textQ, markerQ, zerosQ, fieldQ⟩ := body_elements l q powerOn
  have outputs : pad p = pad q ↔ v = w := by
    rw [pad, pad, padProc, padProc, runP, runQ, Option.map_some, Option.map_some, Option.some.injEq]
  rw [outputs]
  constructor
  · rintro rfl
    refine ⟨StdLogicVector.ext_getElem fun i h => ?_, fun i h text => ?_⟩
    · rw [← fieldP i h (by omega), ← fieldQ i h (by omega)]
    · rw [← textP i (by omega) (by omega) h, ← textQ i (by omega) (by omega) h]
  · intro same
    apply StdLogicVector.ext_getElem
    intro i h
    rcases (by omega : 512 - l.val ≤ i ∨ i = 511 - l.val ∨ (64 ≤ i ∧ i < 511 - l.val) ∨ i < 64)
      with top | rfl | ⟨above, below⟩ | low
    · obtain ⟨j, rfl⟩ := Nat.exists_eq_add_of_le top
      rw [textP j (by omega) h (by omega), textQ j (by omega) h (by omega), same.string j (by omega) (by omega)]
    · rw [markerP h, markerQ h]
    · rw [zerosP i above below h, zerosQ i above below h]
    · simp only [fieldP i low h, fieldQ i low h, same.length]

theorem start_eq (first : Ports) : ∃ v, pad first.inputs = some v ∧
    process.body first powerOn = some { ready := .one, outputString := v } := by
  obtain ⟨v, ran, _⟩ := body_elements l first.inputs powerOn
  exact ⟨v, by rw [pad, padProc, ran, Option.map_some], ran⟩

theorem VouchesAlong.same {first : Ports} {w : List Ports} (vouches : VouchesAlong first w) :
    ∀ p ∈ w, SameMessage first.inputs p.inputs := by
  intro p member
  obtain ⟨u, v, rfl⟩ := List.append_of_mem member
  obtain ⟨out, padded, ran⟩ := start_eq first
  obtain ⟨k, reached, vouches⟩ := vouches (u ++ [p]) v (by simp)
  rw [Process.simulate_suspended (fun _ _ => rfl) ran] at reached
  cases Option.some.inj reached
  rw [← pad_eq_iff, padded, vouches rfl rfl]

/-- The flag is right in every settled state exactly when no message is presented after
the one at the start that differs from it in what the process reads. -/
theorem vouches_iff (first : Ports) (w : List Ports) :
    VouchesAlong first w ↔ ∀ p ∈ w, SameMessage first.inputs p.inputs := by
  refine ⟨fun vouches => vouches.same, fun same u v cut => ?_⟩
  obtain ⟨out, padded, ran⟩ := start_eq first
  rcases List.eq_nil_or_concat u with rfl | ⟨u, p, rfl⟩
  · exact ⟨_, Process.simulate_nil ran, fun settled => nomatch settled⟩
  · rw [List.concat_eq_append] at cut ⊢
    refine ⟨_, Process.simulate_suspended (fun _ _ => rfl) ran u p, fun _ _ => ?_⟩
    have member : p ∈ w := by simp [cut]
    rw [← padded, (pad_eq_iff _ _).mpr (same p member)]

def presented (text : BitVec 32) : Inputs where
  inputString := .ofBits text
  inputLength := .ofBits 32

theorem vouches_counterexample :
    ¬VouchesAlong ⟨.zero, .zero, presented 0x61626364⟩
      [⟨.zero, .one, presented 0x61626364⟩, ⟨.zero, .one, presented 0x65666768⟩] := by
  intro vouches
  have same := (vouches.same ⟨.zero, .one, presented 0x65666768⟩ (by simp)).string 2 (by decide) (by decide)
  exact absurd same (by decide)

end Dspc.PaddingBlock
