import Dspc.Serial.Tolerance
import Dspc.SystemUart.Link

namespace Dspc.SystemUart
open Vhdl Serial

/-- The receiver gets every sequence of bytes, with any pauses, from a sender whose bits last
`P` cycles of the receiver's clock. -/
def Receives (divisor : BitVec 9) (P : Nat) : Prop :=
  ∀ (chars : List (Nat × BitVec 8)) (v : List Rx.Inputs), (∀ i ∈ v, i.baud_divisor = divisor) →
    v.map (·.sync_rxd) = [false, false, true] ++ stream (· * P) (chars.map fun c => (c.1, lsbFirst c.2)) →
    arrived v = chars.map fun c => frame c.2

/-- The divisor of the instance on the board. -/
def divisor_constant : BitVec 9 := 434

variable {divisor : BitVec 9} {P : Nat}

theorem arrived_heard {v : List Rx.Inputs} (positive : 0 < divisor.toNat)
    (constant : ∀ i ∈ v, i.baud_divisor = divisor) :
    (arrived v).map lsbFirst = heard divisor.toNat (divisor.toNat / 2) Rx.start (v.map (·.sync_rxd)) :=
  (Rx.run_follows positive constant).2

theorem receives_of_tolerates (positive : 0 < divisor.toNat)
    (tolerates : Tolerates divisor.toNat (divisor.toNat / 2) (· * P)) : Receives divisor P := by
  intro chars v constant line
  obtain ⟨idle, high, silent⟩ := listen_reset divisor.toNat (divisor.toNat / 2)
  have size : ∀ c ∈ chars.map (fun c => (c.1, lsbFirst c.2)), c.2.length = 8 := by
    intro c member
    obtain ⟨c, _, rfl⟩ := List.mem_map.mp member
    exact length_lsbFirst c.2
  obtain ⟨_, told, _⟩ := listen_stream tolerates idle high size
  apply List.map_injective_iff.mpr lsbFirst_injective
  rw [arrived_heard positive constant, line, heard_append, silent, told]
  simp only [List.map_map, Function.comp_def, lsbFirst_frame, List.nil_append]

theorem heard_of_receives (positive : 0 < divisor.toNat) (receives : Receives divisor P) :
    heard divisor.toNat (divisor.toNat / 2) (listen divisor.toNat (divisor.toNat / 2) Rx.start [false, false, true])
      (frameWave (· * P) zeros) = [framed zeros] := by
  obtain ⟨_, _, silent⟩ := listen_reset divisor.toNat (divisor.toNat / 2)
  let line : List Bool := [false, false, true] ++ stream (· * P) [(0, lsbFirst (0 : BitVec 8))]
  let v : List Rx.Inputs := line.map fun x => ⟨divisor, false, false, false, x⟩
  have constant : ∀ i ∈ v, i.baud_divisor = divisor := by
    intro i member
    obtain ⟨x, _, rfl⟩ := List.mem_map.mp member
    rfl
  have same : v.map (·.sync_rxd) = line := by
    simp only [v, List.map_map, Function.comp_def, List.map_id']
  have told := arrived_heard positive constant
  rw [receives [(0, 0)] v constant same, same, heard_append, silent, List.nil_append] at told
  have zero : lsbFirst (0 : BitVec 8) = zeros := by decide
  have one : stream (· * P) [(0, lsbFirst (0 : BitVec 8))] = frameWave (· * P) zeros := by
    rw [stream, List.flatMap_singleton, zero, List.replicate_zero, List.nil_append]
  rw [one, List.map_singleton, List.map_singleton, lsbFirst_frame, zero] at told
  exact told.symm

/-- The board receives from senders whose bits are between 412 and 459 of its cycles long,
where its own are 435, and from no others. -/
theorem receives_iff (P : Nat) : Receives divisor_constant P ↔ 412 ≤ P ∧ P ≤ 459 := by
  have d : divisor_constant.toNat = 434 := rfl
  obtain ⟨idle, high, _⟩ := listen_reset 434 217
  constructor
  · intro receives
    have told := heard_of_receives (by decide) receives
    rw [d] at told
    have slow := mt (fun fast => heard_fast (d := 434) (h := 217) (P := P) idle high fast) (not_not.mpr told)
    have fast := mt (fun slow => heard_slow (d := 434) (h := 217) (P := P) idle high (by decide) slow) (not_not.mpr told)
    omega
  · rintro ⟨slow, fast⟩
    refine receives_of_tolerates (by decide) ?_
    rw [d]
    exact tolerates_uniform (by decide) (by omega) (by omega)

end Dspc.SystemUart
