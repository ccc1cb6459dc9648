import Dspc.Vhdl.Process
import Dspc.Sha256.Message
import Dspc.HashComp.HashCompPkg

namespace Dspc.HashComp
open Vhdl

inductive StateType
  | IDLE | BUSY | FINAL
  deriving DecidableEq

structure State where
  (h0 h1 h2 h3 h4 h5 h6 h7 : Word)
  (a b c d e f g h : Word)
  state : StateType
  Counter : StdLogicVector 6
  (K inputTemp T1 T2 : Word)

structure Ports where
  newData : StdLogic
  input : StringText

/-- The state before the first activation. A signal without an initial value has the
leftmost value of its type: 'U' in every element of a vector, IDLE for `state`. -/
def powerOn : State where
  h0 := .others .U
  h1 := .others .U
  h2 := .others .U
  h3 := .others .U
  h4 := .others .U
  h5 := .others .U
  h6 := .others .U
  h7 := .others .U
  a := .others .U
  b := .others .U
  c := .others .U
  d := .others .U
  e := .others .U
  f := .others .U
  g := .others .U
  h := .others .U
  state := .IDLE
  Counter := .others .zero
  K := .others .zero
  inputTemp := .others .zero
  T1 := .others .zero
  T2 := .others .zero

def onReset (s : State) : State :=
  { s with
    a := INIT_A, b := INIT_B, c := INIT_C, d := INIT_D
    e := INIT_E, f := INIT_F, g := INIT_G, h := INIT_H
    T1 := .others .zero, T2 := .others .zero
    state := .IDLE }

/-- The branch `clk'event and clk = '1'`. Signals are read at their old values and
variables at their new ones. -/
def onEdge (p : Ports) (s : State) : State :=
  match s.state with
  | .IDLE => if p.newData = .one then { s with state := .BUSY } else s
  | .BUSY =>
    have inRange : s.Counter.toInteger < 64 := s.Counter.toInteger_lt
    let K := constants[s.Counter.toInteger]
    let inputTemp := p.input[s.Counter.toInteger]
    let T1 := s.h + ep1 s.e + Ch s.e s.f s.g + K + inputTemp
    let T2 := ep0 s.a + Maj s.a s.b s.c
    let next :=
      { s with
        K := K, inputTemp := inputTemp, T1 := T1, T2 := T2
        h := s.g, g := s.f, f := s.e, e := s.d + T1
        d := s.c, c := s.b, b := s.a, a := T1 + T2 }
    if s.Counter ≠ .ofBits 0b111111 then { next with Counter := s.Counter + .ofBits 1 }
    else { next with state := .FINAL }
  | .FINAL =>
    { s with
      h0 := s.a + INIT_A, h1 := s.b + INIT_B, h2 := s.c + INIT_C, h3 := s.d + INIT_D
      h4 := s.e + INIT_E, h5 := s.f + INIT_F, h6 := s.g + INIT_G, h7 := s.h + INIT_H
      state := .IDLE }

def hashCompProc : Activation Ports → State → State := clocked onReset onEdge

theorem hashCompProc_reset {a : Activation Ports} (high : a.reset = .one) (s : State) :
    hashCompProc a s = onReset s := clocked_reset high

theorem hashCompProc_edge {a : Activation Ports} (edge : ClockEdge a) (s : State) :
    hashCompProc a s = onEdge a.ports s := clocked_edge edge

theorem run_rising {w : List (Activation Ports)} (low : ResetLow w) (s : State) :
    run hashCompProc s (w.filter (·.rising)) = run hashCompProc s w := run_clocked_filter low s

def State.ready (s : State) : StdLogic := if s.state = .IDLE then .one else .zero

def State.output (s : State) : StdLogicVector 256 :=
  s.h0 ++ s.h1 ++ s.h2 ++ s.h3 ++ s.h4 ++ s.h5 ++ s.h6 ++ s.h7

theorem State.ready_eq_one {s : State} : s.ready = .one ↔ s.state = .IDLE := by
  unfold ready
  split <;> simp_all

theorem State.ready_eq_zero {s : State} : s.ready = .zero ↔ s.state ≠ .IDLE := by
  unfold ready
  split <;> simp_all

def State.Counts (s : State) (n : Nat) : Prop := n < 64 ∧ s.Counter = .ofBits (BitVec.ofNat 6 n)

structure State.Holds (s : State) (v : Sha256.Working) : Prop where
  a : s.a = .ofBits v.a
  b : s.b = .ofBits v.b
  c : s.c = .ofBits v.c
  d : s.d = .ofBits v.d
  e : s.e = .ofBits v.e
  f : s.f = .ofBits v.f
  g : s.g = .ofBits v.g
  h : s.h = .ofBits v.h

namespace State

variable {s : State} {p : Ports} {n m : Nat} {v : Sha256.Working}

theorem Counts.toInteger (counts : s.Counts n) : s.Counter.toInteger = n := by
  rw [counts.2, StdLogicVector.toInteger_ofBits, BitVec.toNat_ofNat]
  exact Nat.mod_eq_of_lt counts.1

theorem Counts.last_iff (counts : s.Counts n) : s.Counter = .ofBits 0b111111 ↔ n = 63 := by
  have range := counts.1
  rw [counts.2, StdLogicVector.ofBits_inj]
  constructor
  · intro same
    have value := congrArg BitVec.toNat same
    rw [BitVec.toNat_ofNat, Nat.mod_eq_of_lt range] at value
    exact value
  · rintro rfl
    rfl

theorem powerOn_counts : powerOn.Counts 0 := by
  refine ⟨by decide, ?_⟩
  exact StdLogicVector.others_zero

theorem onReset_counts (counts : s.Counts n) : (onReset s).Counts n := counts

theorem onReset_holds (s : State) : (onReset s).Holds (.ofHash Sha256.initialHash) :=
  ⟨rfl, rfl, rfl, rfl, rfl, rfl, rfl, rfl⟩

theorem onEdge_quiet (idle : s.state = .IDLE) (quiet : p.newData ≠ .one) : onEdge p s = s := by
  simp only [onEdge, idle, if_neg quiet]

theorem onEdge_accept (idle : s.state = .IDLE) (request : p.newData = .one) :
    onEdge p s = { s with state := .BUSY } := by
  simp only [onEdge, idle, if_pos request]

theorem onEdge_busy_next (busy : s.state = .BUSY) (counts : s.Counts n) (more : n < 63) :
    (onEdge p s).state = .BUSY ∧ (onEdge p s).Counts (n + 1) := by
  have go : s.Counter ≠ .ofBits 0b111111 := fun last => by
    have := counts.last_iff.mp last
    omega
  have step : s.Counter + .ofBits 1 = .ofBits (BitVec.ofNat 6 (n + 1)) := by
    rw [counts.2, StdLogicVector.add_ofBits, BitVec.ofNat_add]
    rfl
  simp only [onEdge, busy, if_pos go]
  exact ⟨trivial, by omega, step⟩

theorem onEdge_busy_last (busy : s.state = .BUSY) (counts : s.Counts n) (last : n = 63) :
    (onEdge p s).state = .FINAL ∧ (onEdge p s).Counts n := by
  have stop : ¬s.Counter ≠ .ofBits 0b111111 := not_not.mpr (counts.last_iff.mpr last)
  simp only [onEdge, busy, if_neg stop]
  exact ⟨trivial, counts.1, counts.2⟩

theorem onEdge_final (final : s.state = .FINAL) (counts : s.Counts n) :
    (onEdge p s).state = .IDLE ∧ (onEdge p s).Counts n := by
  simp only [onEdge, final]
  exact ⟨trivial, counts.1, counts.2⟩

theorem onEdge_busy_holds (busy : s.state = .BUSY) (range : n < 64) (counts : s.Counts n)
    (holds : s.Holds v) {w : BitVec 32} (word : p.input[n] = .ofBits w) :
    (onEdge p s).Holds (Sha256.round v Sha256.K[n] w) := by
  have inRange : s.Counter.toInteger < 64 := s.Counter.toInteger_lt
  have constant : constants[s.Counter.toInteger] = .ofBits Sha256.K[n] := by
    simp only [counts.toInteger, getElem_constants range]
  have sampled : p.input[s.Counter.toInteger] = .ofBits w := by
    simp only [counts.toInteger, word]
  obtain ⟨atA, atB, atC, atD, atE, atF, atG, atH⟩ := holds
  simp only [onEdge, busy, constant, sampled, atA, atB, atC, atD, atE, atF, atG, atH,
    ep0_ofBits, ep1_ofBits, Ch_ofBits, Maj_ofBits, StdLogicVector.add_ofBits]
  split <;> exact ⟨rfl, rfl, rfl, rfl, rfl, rfl, rfl, rfl⟩

/-- The FINAL edge adds the initial hash value, whatever block came before. -/
theorem onEdge_final_output (final : s.state = .FINAL) (holds : s.Holds v) :
    (onEdge p s).output = .ofBits (Sha256.digest (Sha256.addWorking Sha256.initialHash v)) := by
  obtain ⟨atA, atB, atC, atD, atE, atF, atG, atH⟩ := holds
  simp only [onEdge, final, output, atA, atB, atC, atD, atE, atF, atG, atH, INIT_A, INIT_B, INIT_C,
    INIT_D, INIT_E, INIT_F, INIT_G, INIT_H, x, StdLogicVector.add_ofBits, StdLogicVector.append_ofBits]
  simp [Sha256.digest, Sha256.addWorking, Sha256.initialHash]

theorem onEdge_output (running : s.state ≠ .FINAL) (p : Ports) : (onEdge p s).output = s.output := by
  cases mode : s.state with
  | IDLE =>
    simp only [onEdge, mode]
    split <;> rfl
  | BUSY =>
    simp only [onEdge, mode]
    split <;> simp only [output]
  | FINAL => exact absurd mode running

end State

end Dspc.HashComp
