import Dspc.BlockDecomp.Invariant

namespace Dspc.BlockDecomp
open Vhdl

def Reachable (s : State) : Prop := ∃ w, run? decomp powerOn w = some s

theorem Reachable.inv {s : State} (reach : Reachable s) : ∃ h, Inv s h := by
  obtain ⟨w, reached⟩ := reach
  obtain ⟨t, h, total, _, inv⟩ := logged_total w
  cases Option.some.inj (reached.symm.trans total)
  exact ⟨h, inv⟩

theorem Reachable.extend {s : State} (reach : Reachable s) (v : List (Activation Ports)) :
    ∃ t, run? decomp s v = some t := by
  obtain ⟨w, reached⟩ := reach
  obtain ⟨t, _, total, _, _⟩ := logged_total (w ++ v)
  rw [run?_append, reached, Option.bind_some] at total
  exact ⟨t, total⟩

theorem Reachable.accept {s : State} {accept : Activation Ports} {post : List (Activation Ports)}
    (reach : Reachable s) (ready : s.ready = .one) (edge : ClockEdge accept)
    (request : accept.ports.update = .one) (low : ResetLow post) (short : edges post ≤ 25) :
    ∃ t, run? decomp s (accept :: post) = some t ∧ t.InFlight accept.ports.inData (25 - edges post) := by
  obtain ⟨h, inv⟩ := reach.inv
  have idle := State.ready_eq_one.mp ready
  obtain ⟨next, step, flight, _⟩ := onEdge_accepted idle (inv.counter (by simp [idle])) request
  rw [edges_eq_length_filter] at short ⊢
  obtain ⟨t, rest, done⟩ := flight.after low.clockEdges short
  refine ⟨t, ?_, done⟩
  rw [run?_cons, decomp, clocked?_edge edge, step, Option.bind_some, ← run?_clocked_filter low]
  exact rest

theorem Reachable.completes {s : State} {accept : Activation Ports} {post : List (Activation Ports)}
    {B : BitVec 512} (reach : Reachable s) (ready : s.ready = .one) (edge : ClockEdge accept)
    (request : accept.ports.update = .one) (data : accept.ports.inData = .ofBits B) (low : ResetLow post)
    (full : edges post = 25) :
    ∃ t, run? decomp s (accept :: post) = some t ∧ t.ready = .one ∧ t.finished = .one ∧
      ∀ i (h : i < 64), t.outData[i] = .ofBits (Sha256.schedule (Sha256.blockWords B))[i] := by
  obtain ⟨t, total, flight⟩ := reach.accept ready edge request low full.le
  rw [full, Nat.sub_self] at flight
  obtain ⟨idle, finished, outData⟩ := flight.result
  refine ⟨t, total, State.ready_eq_one.mpr idle, finished, fun i h => ?_⟩
  rw [data, scheduleOf_ofBits] at outData
  simp only [outData, Vector.getElem_map]

/-- From every reachable state, whatever stale words and flags it holds, an accepted
block is announced with its full message schedule after exactly 25 further edges. -/
theorem accepted_block_scheduled {s : State} {accept : Activation Ports} {post : List (Activation Ports)}
    {B : BitVec 512} (reach : Reachable s) (ready : s.ready = .one) (edge : ClockEdge accept)
    (request : accept.ports.update = .one) (data : accept.ports.inData = .ofBits B) (low : ResetLow post) :
    ∃ t, run? decomp s (accept :: post) = some t ∧
      (edges post ≤ 24 → t.ready = .zero) ∧
      (edges post = 25 → t.ready = .one ∧ t.finished = .one ∧
        ∀ i (h : i < 64), t.outData[i] = .ofBits (Sha256.schedule (Sha256.blockWords B))[i]) := by
  obtain ⟨t, total⟩ := reach.extend (accept :: post)
  refine ⟨t, total, fun early => ?_, fun full => ?_⟩
  · obtain ⟨u, same, flight⟩ := reach.accept ready edge request low (by omega)
    cases Option.some.inj (total.symm.trans same)
    obtain ⟨k, left⟩ : ∃ k, 25 - edges post = k + 1 := ⟨24 - edges post, by omega⟩
    rw [left] at flight
    exact flight.ready_zero
  · obtain ⟨u, same, result⟩ := reach.completes ready edge request data low full
    cases Option.some.inj (total.symm.trans same)
    exact result

def tick (update : StdLogic) (inData : StdLogicVector 512) : Activation Ports := ⟨.zero, true, update, inData⟩

theorem tick_clockEdge (update : StdLogic) (inData : StdLogicVector 512) : ClockEdge (tick update inData) :=
  ⟨nofun, rfl⟩

/-- The padded block of the message "abc". -/
def abcBlock : BitVec 512 := 0x61626380 <<< 480 ||| 24

/-- The block is on the port at the accepting edge only, and further requests are made. -/
theorem accepted_block_scheduled_abc :
    ∃ t, run? decomp powerOn (tick .one (.ofBits abcBlock) :: List.replicate 25 (tick .one (.others .U))) = some t ∧
      t.ready = .one ∧ t.finished = .one ∧
      ∀ i (h : i < 64), t.outData[i] = .ofBits (Sha256.schedule (Sha256.blockWords abcBlock))[i] := by
  have low : ResetLow (List.replicate 25 (tick .one (.others .U))) := by
    intro a member
    rw [List.eq_of_mem_replicate member]
    exact nofun
  obtain ⟨t, total, _, full⟩ := accepted_block_scheduled ⟨[], rfl⟩ rfl
    (tick_clockEdge .one (.ofBits abcBlock)) rfl rfl low
  exact ⟨t, total, full (by decide)⟩

/-- The full message schedule of a block, which is the one of the standard whenever the
block consists of bits. -/
def IsSchedule (W : WordArray) (B : StdLogicVector 512) : Prop :=
  W = scheduleOf B ∧ ∀ b : BitVec 512, B = .ofBits b → W = (Sha256.schedule (Sha256.blockWords b)).map .ofBits

theorem isSchedule_of_eq {W : WordArray} {B : StdLogicVector 512} (same : W = scheduleOf B) : IsSchedule W B := by
  refine ⟨same, fun b bits => ?_⟩
  rw [same, bits, scheduleOf_ofBits]

/-- After every waveform a raised flag vouches for the schedule of the last accepted
block, and `outData` never shows anything but the schedule of a completed block. -/
theorem finished_vouches (w : List (Activation Ports)) :
    ∃ s h, run? decomp powerOn w = some s ∧ run? logged (powerOn, ⟨none, none⟩) w = some (s, h) ∧
      (s.finished = .one →
        ∃ B, h.accepted = some B ∧ s.state = .IDLE ∧ s.ready = .one ∧ IsSchedule s.outData B) ∧
      match h.completed with
      | none => s.outData = .replicate 64 (.others .U)
      | some B => IsSchedule s.outData B := by
  obtain ⟨s, h, plain, reached, inv⟩ := logged_total w
  have outData := inv.outData
  refine ⟨s, h, plain, reached, fun flag => ?_, ?_⟩
  · obtain ⟨idle, B, accepted, completed⟩ := inv.finished flag
    rw [completed] at outData
    exact ⟨B, accepted, idle, State.ready_eq_one.mpr idle, isSchedule_of_eq outData⟩
  · cases completed : h.completed with
    | none =>
      rw [completed] at outData
      exact outData
    | some B =>
      rw [completed] at outData
      exact isSchedule_of_eq outData

end Dspc.BlockDecomp
