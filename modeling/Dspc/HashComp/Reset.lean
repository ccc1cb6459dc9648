import Dspc.HashComp.Reuse

namespace Dspc.HashComp
open Vhdl

def Completes (a : Activation Ports) (s : State) : Prop := ClockEdge a ∧ s.state = .FINAL

/-- Agreement on all that decides what later edges do. The variables K, inputTemp, T1
and T2 are absent: each is assigned before it is read. -/
structure Agree (s t : State) : Prop where
  state : s.state = t.state
  counter : s.Counter = t.Counter
  a : s.a = t.a
  b : s.b = t.b
  c : s.c = t.c
  d : s.d = t.d
  e : s.e = t.e
  f : s.f = t.f
  g : s.g = t.g
  h : s.h = t.h

variable {s t : State}

theorem Agree.onReset (counter : s.Counter = t.Counter) : Agree (onReset s) (onReset t) :=
  ⟨rfl, counter, rfl, rfl, rfl, rfl, rfl, rfl, rfl, rfl⟩

theorem Agree.onEdge (agree : Agree s t) (p : Ports) : Agree (onEdge p s) (onEdge p t) := by
  obtain ⟨⟩ := s
  obtain ⟨⟩ := t
  obtain ⟨rfl, rfl, rfl, rfl, rfl, rfl, rfl, rfl, rfl, rfl⟩ := agree
  simp only [HashComp.onEdge]
  split
  · split <;> constructor <;> rfl
  · split <;> constructor <;> dsimp only
  · constructor <;> dsimp only

theorem Agree.step (a : Activation Ports) (s t : State) (agree : Agree s t) :
    Agree (hashCompProc a s) (hashCompProc a t) := by
  unfold hashCompProc clocked
  split
  · exact .onReset agree.counter
  · split
    · exact agree.onEdge a.ports
    · exact agree

theorem Agree.completes (agree : Agree s t) {a : Activation Ports} (done : Completes a s) :
    (hashCompProc a s).output = (hashCompProc a t).output := by
  obtain ⟨edge, final⟩ := done
  obtain ⟨state, _, atA, atB, atC, atD, atE, atF, atG, atH⟩ := agree
  have finalT := state.symm.trans final
  rw [hashCompProc_edge edge, hashCompProc_edge edge]
  simp only [HashComp.onEdge, final, finalT, State.output, atA, atB, atC, atD, atE, atF, atG, atH]

def AgreeOutput (s t : State) : Prop := Agree s t ∧ s.output = t.output

theorem AgreeOutput.step (a : Activation Ports) (s t : State) (agree : AgreeOutput s t) :
    AgreeOutput (hashCompProc a s) (hashCompProc a t) := by
  obtain ⟨same, output⟩ := agree
  refine ⟨same.step a, ?_⟩
  rcases clocked_cases onReset HashComp.onEdge a s with ⟨high, _⟩ | ⟨edge, _⟩ | ⟨low, flat, _⟩
  · rw [hashCompProc_reset high, hashCompProc_reset high]
    exact output
  · by_cases final : s.state = .FINAL
    · exact same.completes ⟨edge, final⟩
    · have finalT : t.state ≠ .FINAL := fun mode => final (same.state.trans mode)
      rw [hashCompProc_edge edge, hashCompProc_edge edge, State.onEdge_output final,
        State.onEdge_output finalT, output]
  · rw [hashCompProc, clocked_still low flat, clocked_still low flat]
    exact output

/-- After a reset applied to both states, the two runs show the same ready at every
activation and the same output from the first completed block on. -/
def SameAfterReset (s t : State) : Prop :=
  ∀ r : Activation Ports, r.reset = .one → ∀ w : List (Activation Ports),
    (run hashCompProc s (r :: w)).ready = (run hashCompProc t (r :: w)).ready ∧
      ∀ u a v, w = u ++ a :: v →
        Completes a (run hashCompProc s (r :: u)) ∨ Completes a (run hashCompProc t (r :: u)) →
        (run hashCompProc s (r :: w)).output = (run hashCompProc t (r :: w)).output

theorem SameAfterReset.symm (same : SameAfterReset s t) : SameAfterReset t s := by
  intro r high w
  obtain ⟨ready, output⟩ := same r high w
  exact ⟨ready.symm, fun u a v cut done => (output u a v cut done.symm).symm⟩

theorem sameAfterReset_of_counter (counter : s.Counter = t.Counter) : SameAfterReset s t := by
  intro r high w
  have start : Agree (hashCompProc r s) (hashCompProc r t) := by
    rw [hashCompProc_reset high, hashCompProc_reset high]
    exact .onReset counter
  refine ⟨?_, ?_⟩
  · have final := run_related Agree.step start w
    rw [run_cons, run_cons, State.ready, State.ready, final.state]
  · rintro u a v rfl done
    have atDone := run_related Agree.step start u
    have either : Completes a (run hashCompProc s (r :: u)) := by
      rcases done with done | done
      · exact done
      · exact ⟨done.1, atDone.state.trans done.2⟩
    have delivered : AgreeOutput (hashCompProc a (run hashCompProc s (r :: u)))
        (hashCompProc a (run hashCompProc t (r :: u))) := ⟨atDone.step a, atDone.completes either⟩
    have final := run_related AgreeOutput.step delivered v
    rw [← List.cons_append, run_append, run_append, run_cons, run_cons]
    exact final.2

theorem not_sameAfterReset_of_lt {n m : Nat} (countsS : s.Counts n) (countsT : t.Counts m) (less : n < m) :
    ¬SameAfterReset s t := by
  intro same
  have rangeT := countsT.1
  let input : StringText := .replicate 64 (.others .zero)
  let r : Activation Ports := ⟨.one, false, .zero, input⟩
  have high : r.reset = .one := rfl
  have ready := (same r high (tick .one input :: List.replicate (65 - m) (tick .zero input))).1
  have slow := plain_flight (s := onReset s) input rfl (State.onReset_counts countsS) (show 65 - m ≤ 65 - n by omega)
  have quick := plain_flight (s := onReset t) input rfl (State.onReset_counts countsT) le_rfl
  rw [Nat.sub_self] at quick
  rw [run_cons, hashCompProc_reset high, slow.ready_zero (by omega), run_cons, hashCompProc_reset high,
    quick.ready_one] at ready
  exact nomatch ready

/-- Reset erases the history of two reachable states exactly when they agree on the
round counter, the one element of the process that reset leaves alone. -/
theorem reset_erases_iff (reachS : Reachable s) (reachT : Reachable t) :
    SameAfterReset s t ↔ s.Counter = t.Counter := by
  obtain ⟨n, countsS, _⟩ := reachS.sound
  obtain ⟨m, countsT, _⟩ := reachT.sound
  constructor
  · intro same
    rcases Nat.lt_trichotomy n m with less | equal | more
    · exact absurd same (not_sameAfterReset_of_lt countsS countsT less)
    · rw [countsS.2, countsT.2, equal]
    · exact absurd same.symm (not_sameAfterReset_of_lt countsT countsS more)
  · exact sameAfterReset_of_counter

section Example

def aborted : List (Activation Ports) :=
  freshReset ++ [tick .one (.replicate 64 (.others .zero)), tick .zero (.replicate 64 (.others .zero))]

theorem aborted_counts : (run hashCompProc powerOn aborted).Counts 1 := by
  have flight := plain_flight (s := onReset powerOn) (m := 1) (.replicate 64 (.others .zero)) rfl
    (State.onReset_counts State.powerOn_counts) (by decide)
  have counts := (flight.busy_of_two_le (by decide)).2
  rw [aborted, run_append]
  exact counts

theorem reset_counterexample :
    (Reachable (run hashCompProc powerOn freshReset) ∧ Reachable (run hashCompProc powerOn aborted)) ∧
      ¬SameAfterReset (run hashCompProc powerOn freshReset) (run hashCompProc powerOn aborted) :=
  ⟨⟨⟨_, rfl⟩, ⟨_, rfl⟩⟩,
    not_sameAfterReset_of_lt (State.onReset_counts State.powerOn_counts) aborted_counts Nat.zero_lt_one⟩

theorem reset_erases_iff_aborted :
    SameAfterReset (run hashCompProc powerOn freshReset) (run hashCompProc powerOn aborted) ↔
      (run hashCompProc powerOn freshReset).Counter = (run hashCompProc powerOn aborted).Counter :=
  reset_erases_iff ⟨_, rfl⟩ ⟨_, rfl⟩

end Example

end Dspc.HashComp
