import Dspc.HashComp.InFlight

namespace Dspc.HashComp
open Vhdl

namespace State

variable {s : State} {v : Sha256.Working} {W : Vector (BitVec 32) 64}

/-- The rounds of the standard line up with the clock edges: after `t` of them the
registers hold the working variables after `t` rounds. Only element `t` of the
input port matters on edge `t`. -/
theorem InFlight.holds_rounds {es : List (Activation Ports)} (flight : s.InFlight 65) (holds : s.Holds v)
    (clock : ∀ a ∈ es, ClockEdge a) (short : es.length ≤ 64)
    (words : ∀ t (h : t < es.length), es[t].ports.input[t] = .ofBits W[t]) :
    (run hashCompProc s es).Holds (Sha256.rounds v W es.length short) := by
  induction es using List.reverseRecOn with
  | nil => exact holds
  | append_singleton es a ih =>
    have long : es.length + 1 ≤ 64 := by simpa using short
    have clockEs : ∀ b ∈ es, ClockEdge b := fun b member => clock b (List.mem_append_left [a] member)
    have edge : ClockEdge a := clock a (List.mem_append_right es List.mem_cons_self)
    have before := ih clockEs (by omega) fun t h => by
      have word := words t (by simp; omega)
      simpa only [List.getElem_append_left h] using word
    have mid := flight.after clockEs (by omega)
    obtain ⟨busy, counts⟩ := mid.busy_of_two_le (by omega)
    rw [show 65 - (65 - es.length) = es.length by omega] at counts
    have word : a.ports.input[es.length] = .ofBits W[es.length] := by
      have word := words es.length (by simp)
      simpa using word
    have step := onEdge_busy_holds busy long counts before word
    rw [run_append, run_cons, run_nil, hashCompProc_edge edge]
    simpa only [List.length_append, List.length_singleton, Sha256.rounds] using step

theorem InFlight.delivers {es : List (Activation Ports)} (flight : s.InFlight 65)
    (holds : s.Holds (.ofHash Sha256.initialHash)) (clock : ∀ a ∈ es, ClockEdge a) (length : es.length = 65)
    (words : ∀ t (h : t < 64), es[t].ports.input[t] = .ofBits W[t]) :
    (run hashCompProc s es).output = .ofBits (Sha256.digest (Sha256.compress Sha256.initialHash W)) := by
  obtain ⟨es, a, rfl⟩ : ∃ u b, es = u ++ [b] := ⟨es.dropLast, es.getLast (by rintro rfl; simp at length),
    (List.dropLast_append_getLast _).symm⟩
  have size : es.length = 64 := by simpa using length
  have clockEs : ∀ b ∈ es, ClockEdge b := fun b member => clock b (List.mem_append_left [a] member)
  have edge : ClockEdge a := clock a (List.mem_append_right es List.mem_cons_self)
  have loaded := flight.holds_rounds holds clockEs size.le fun t h => by
    have word := words t (by omega)
    simpa only [List.getElem_append_left h] using word
  have mid := flight.after clockEs (by omega)
  rw [show 65 - es.length = 1 by omega] at mid
  rw [run_append, run_cons, run_nil, hashCompProc_edge edge]
  have result := onEdge_final_output (p := a.ports) mid.final_of_one loaded
  simpa only [Sha256.compress, size] using result

end State

theorem accept_first {pre : List (Activation Ports)} {accept : Activation Ports}
    (resets : ∃ a ∈ pre, a.reset = .one) (quiet : Quiet pre) (edge : ClockEdge accept)
    (request : accept.ports.newData = .one) :
    (run hashCompProc powerOn (pre ++ [accept])).InFlight 65 ∧
      (run hashCompProc powerOn (pre ++ [accept])).Holds (.ofHash Sha256.initialHash) := by
  obtain ⟨idle, counts, loaded⟩ := quiet_run quiet rfl State.powerOn_counts
  have holds := loaded (.inr resets)
  rw [run_append, run_cons, run_nil, hashCompProc_edge edge, State.onEdge_accept idle request]
  obtain ⟨atA, atB, atC, atD, atE, atF, atG, atH⟩ := holds
  exact ⟨State.InFlight.accept counts, atA, atB, atC, atD, atE, atF, atG, atH⟩

section First

variable {pre post : List (Activation Ports)} {accept : Activation Ports}
  (resets : ∃ a ∈ pre, a.reset = .one) (quiet : Quiet pre) (edge : ClockEdge accept)
  (request : accept.ports.newData = .one) (low : ResetLow post)
include resets quiet edge request low

theorem first_after (short : edges post ≤ 65) :
    (run hashCompProc powerOn (pre ++ accept :: post)).InFlight (65 - edges post) := by
  obtain ⟨flight, _⟩ := accept_first resets quiet edge request
  have split : pre ++ accept :: post = (pre ++ [accept]) ++ post := by simp
  rw [split, run_append, ← run_rising low]
  rw [edges_eq_length_filter] at short ⊢
  exact flight.after low.clockEdges short

theorem first_output {W : Vector (BitVec 32) 64} (full : edges post = 65)
    (words : ∀ t (h : t < 64) a, (post.filter (·.rising))[t]? = some a → a.ports.input[t] = .ofBits W[t]) :
    (run hashCompProc powerOn (pre ++ accept :: post)).output =
      .ofBits (Sha256.digest (Sha256.compress Sha256.initialHash W)) := by
  obtain ⟨flight, holds⟩ := accept_first resets quiet edge request
  have split : pre ++ accept :: post = (pre ++ [accept]) ++ post := by simp
  rw [split, run_append, ← run_rising low]
  rw [edges_eq_length_filter] at full
  refine flight.delivers holds low.clockEdges full fun t h => ?_
  exact words t h _ (List.getElem?_eq_getElem (by omega))

end First

/-- The first transaction computes the SHA-256 compression function of the words
`input(t)` that were on the port at edge `t + 1` after the accepting edge. -/
theorem first_transaction {pre post : List (Activation Ports)} {accept : Activation Ports}
    (resets : ∃ a ∈ pre, a.reset = .one) (quiet : Quiet pre) (edge : ClockEdge accept)
    (request : accept.ports.newData = .one) (low : ResetLow post) :
    (edges post ≤ 64 → (run hashCompProc powerOn (pre ++ accept :: post)).ready = .zero) ∧
      (edges post = 65 →
        (run hashCompProc powerOn (pre ++ accept :: post)).ready = .one ∧
        ∀ W : Vector (BitVec 32) 64,
          (∀ t (h : t < 64) a, (post.filter (·.rising))[t]? = some a → a.ports.input[t] = .ofBits W[t]) →
          (run hashCompProc powerOn (pre ++ accept :: post)).output =
            .ofBits (Sha256.digest (Sha256.compress Sha256.initialHash W))) := by
  constructor
  · intro early
    exact (first_after resets quiet edge request low (by omega)).ready_zero (by omega)
  · intro full
    have done := first_after resets quiet edge request low full.le
    rw [full] at done
    exact ⟨done.ready_one, fun W words => first_output resets quiet edge request low full words⟩

/-- The input port when only element `t` is driven. -/
def only (W : Vector (BitVec 32) 64) (t : Nat) : StringText :=
  .ofFn fun i => if i = t then .ofBits W[i] else .others .U

/-- The words of the block come one after the other, and further requests are made. -/
def oneByOne (W : Vector (BitVec 32) 64) : List (Activation Ports) := (List.range 65).map fun t => tick .one (only W t)

def counting : Vector (BitVec 32) 64 := .ofFn fun i => BitVec.ofNat 32 (0x01234567 * (i + 1))

theorem first_transaction_counting :
    (run hashCompProc powerOn (freshReset ++ tick .one (.replicate 64 (.others .U)) :: oneByOne counting)).output =
      .ofBits (Sha256.digest (Sha256.compress Sha256.initialHash counting)) := by
  have clock : ∀ a ∈ oneByOne counting, ClockEdge a := by
    intro a member
    obtain ⟨t, _, rfl⟩ := List.mem_map.mp member
    exact tick_clockEdge _ _
  have result := first_transaction freshReset_quiet.1 freshReset_quiet.2
    (tick_clockEdge .one (.replicate 64 (.others .U))) rfl fun a member => (clock a member).1
  refine (result.2 (by decide)).2 _ fun t h a sampled => ?_
  rw [List.filter_eq_self.mpr fun a member => (clock a member).2, oneByOne, List.getElem?_map,
    List.getElem?_range (by omega), Option.map_some, Option.some.injEq] at sampled
  rw [← sampled, tick, only, Vector.getElem_ofFn, if_pos rfl]
  rfl

end Dspc.HashComp
