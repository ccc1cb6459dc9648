import Dspc.Server
import Dspc.Vhdl.Trace
import Dspc.HashComp.InFlight

namespace Dspc.HashComp
open Vhdl

def edgeEvents (p : Ports) (s : State) : List Server.Event :=
  match s.state with
  | .IDLE => if p.newData = .one then [.accept] else []
  | .BUSY => []
  | .FINAL => [.complete]

def event : Activation Ports → State → List Server.Event := clockedEvents [.reset] edgeEvents

def events (s : State) (w : List (Activation Ports)) : List Server.Event :=
  trace event (fun a s => some (hashCompProc a s)) s w

def State.registers (s : State) : Vector Word 8 := #v[s.h0, s.h1, s.h2, s.h3, s.h4, s.h5, s.h6, s.h7]

def State.working (s : State) : Bool := decide (s.state ≠ .IDLE)

/-- What the machine owes to its requests when it has come to `s` by the events `es`: it
writes `h0` to `h7` for each request that is not aborted and never else, completes what
it accepts, and disregards newData while ready is '0'. -/
structure Serves (s : State) (es : List Server.Event) : Prop where
  keeps : ∀ a, event a s ≠ [.complete] →
    (hashCompProc a s).registers = s.registers ∧ (hashCompProc a s).output = s.output
  writes : ∀ a, event a s = [.complete] → ClockEdge a ∧ s.state = .FINAL ∧ (hashCompProc a s).state = .IDLE ∧
    (hashCompProc a s).registers = #v[s.a + INIT_A, s.b + INIT_B, s.c + INIT_C, s.d + INIT_D,
      s.e + INIT_E, s.f + INIT_F, s.g + INIT_G, s.h + INIT_H]
  between : ∀ x m y, es = x ++ m ++ .complete :: y → (x = [] ∨ x.getLast? = some .complete) → .complete ∉ m →
    Server.tally (some .complete) (m ++ [.complete]) = 1
  account : es.count .complete + Server.tally (some .reset) es + Server.tally none es = es.count .accept
  inFlight : Server.tally none es = if s.ready = .one then 0 else 1
  completes : ∀ a, event a s = [.accept] → ∃ n, 0 < n ∧ n ≤ 65 ∧ ∀ v, ResetLow v →
    (edges v < n → (run hashCompProc (hashCompProc a s) v).ready = .zero ∧ events (hashCompProc a s) v = []) ∧
    (edges v = n → (run hashCompProc (hashCompProc a s) v).ready = .one ∧
      events (hashCompProc a s) v = [.complete])
  ignores : ∀ (a : Activation Ports) newData, s.ready = .zero →
    hashCompProc { a with ports := { a.ports with newData } } s = hashCompProc a s ∧
      event { a with ports := { a.ports with newData } } s = event a s
  counter : ∀ a, s.Counter = .ofBits 0b111111 → (hashCompProc a s).Counter = .ofBits 0b111111

/-- All that one activation can do: its events and the state it leaves. -/
inductive Acts (a : Activation Ports) (s : State) : List Server.Event → State → Prop
  | reset : Acts a s [.reset] (onReset s)
  | accept (edge : ClockEdge a) (idle : s.state = .IDLE) (request : a.ports.newData = .one) :
      Acts a s [.accept] { s with state := .BUSY }
  | round (edge : ClockEdge a) (busy : s.state = .BUSY) : Acts a s [] (onEdge a.ports s)
  | complete (edge : ClockEdge a) (final : s.state = .FINAL) : Acts a s [.complete] (onEdge a.ports s)
  | still : Acts a s [] s

theorem event_edge {a : Activation Ports} (edge : ClockEdge a) (s : State) : event a s = edgeEvents a.ports s :=
  clockedEvents_edge edge

theorem event_still {a : Activation Ports} (low : a.reset ≠ .one) (flat : a.rising = false) (s : State) :
    event a s = [] := clockedEvents_still low flat

theorem acts (a : Activation Ports) (s : State) : Acts a s (event a s) (hashCompProc a s) := by
  rcases clocked_cases onReset onEdge a s with ⟨high, result⟩ | ⟨edge, result⟩ | ⟨low, flat, result⟩ <;>
    rw [hashCompProc, result]
  · rw [event, clockedEvents_reset high]
    exact .reset
  · rw [event_edge edge, edgeEvents]
    cases mode : s.state with
    | IDLE =>
      by_cases request : a.ports.newData = .one
      · rw [State.onEdge_accept mode request, if_pos request]
        exact .accept edge mode request
      · rw [State.onEdge_quiet mode request, if_neg request]
        exact .still
    | BUSY => exact .round edge mode
    | FINAL => exact .complete edge mode
  · rw [event_still low flat]
    exact .still

theorem events_cons (s : State) (a : Activation Ports) (w : List (Activation Ports)) :
    events s (a :: w) = event a s ++ events (hashCompProc a s) w := trace_cons rfl w

section Events

variable {s : State} {a : Activation Ports} {p : Ports}

theorem State.working_eq_false : s.working = false ↔ s.ready = .one := by
  rw [working, decide_eq_false_iff_not, not_not, ready_eq_one]

theorem onEdge_busy_running (busy : s.state = .BUSY) : (onEdge p s).state ≠ .IDLE := by
  simp only [onEdge, busy]
  split <;> simp

/-- The machine takes the steps of a server with room for one request. -/
theorem event_follows (a : Activation Ports) (s : State) :
    run? Server.serve s.working (event a s) = some (hashCompProc a s).working := by
  have step := acts a s
  generalize event a s = es, hashCompProc a s = next at step ⊢
  cases step with
  | reset => cases s.working <;> rfl
  | accept edge idle => simp [State.working, idle, Server.serve]
  | round edge busy => simp [State.working, busy, onEdge_busy_running busy]
  | complete edge final => simp [State.working, final, onEdge, Server.serve]
  | still => rfl

theorem events_served (s : State) (w : List (Activation Ports)) :
    run? Server.serve s.working (events s w) = some (run hashCompProc s w).working := by
  have kept : ∀ a t b, b = State.working t → ∃ t' b', some (hashCompProc a t) = some t' ∧
      run? Server.serve b (event a t) = some b' ∧ b' = t'.working := by
    rintro a t _ rfl
    exact ⟨_, _, rfl, event_follows a t, rfl⟩
  obtain ⟨t, b, reached, spelled, same⟩ := trace_simulates kept rfl w
  rw [run?_pure] at reached
  cases Option.some.inj reached
  exact same ▸ spelled

theorem event_complete (done : event a s = [.complete]) : ClockEdge a ∧ s.state = .FINAL := by
  have step := acts a s
  rw [done] at step
  generalize hashCompProc a s = next at step
  cases step with
  | complete edge final => exact ⟨edge, final⟩

theorem event_accept (accepted : event a s = [.accept]) :
    ClockEdge a ∧ s.state = .IDLE ∧ a.ports.newData = .one := by
  have step := acts a s
  rw [accepted] at step
  generalize hashCompProc a s = next at step
  cases step with
  | accept edge idle request => exact ⟨edge, idle, request⟩

theorem event_final (edge : ClockEdge a) (final : s.state = .FINAL) : event a s = [.complete] := by
  rw [event_edge edge, edgeEvents, final]

theorem registers_kept (other : event a s ≠ [.complete]) :
    (hashCompProc a s).registers = s.registers ∧ (hashCompProc a s).output = s.output := by
  have step := acts a s
  generalize event a s = es, hashCompProc a s = next at step other ⊢
  cases step with
  | reset => exact ⟨rfl, rfl⟩
  | accept => exact ⟨rfl, rfl⟩
  | round edge busy =>
    refine ⟨?_, State.onEdge_output (by simp [busy]) a.ports⟩
    simp only [onEdge, busy]
    split <;> simp only [State.registers]
  | complete => exact absurd rfl other
  | still => exact ⟨rfl, rfl⟩

theorem registers_written (done : event a s = [.complete]) :
    (hashCompProc a s).state = .IDLE ∧
      (hashCompProc a s).registers = #v[s.a + INIT_A, s.b + INIT_B, s.c + INIT_C, s.d + INIT_D,
        s.e + INIT_E, s.f + INIT_F, s.g + INIT_G, s.h + INIT_H] := by
  obtain ⟨edge, final⟩ := event_complete done
  rw [hashCompProc_edge edge]
  simp only [onEdge, final]
  exact ⟨trivial, rfl⟩

theorem newData_ignored (pending : s.ready = .zero) (a : Activation Ports) (newData : StdLogic) :
    hashCompProc { a with ports := { a.ports with newData } } s = hashCompProc a s ∧
      event { a with ports := { a.ports with newData } } s = event a s := by
  have running := State.ready_eq_zero.mp pending
  cases mode : s.state with
  | IDLE => exact absurd mode running
  | BUSY => simp only [hashCompProc, clocked, onEdge, event, clockedEvents, edgeEvents, mode, and_self]
  | FINAL => simp only [hashCompProc, clocked, onEdge, event, clockedEvents, edgeEvents, mode, and_self]

theorem counter_stays (a : Activation Ports) (last : s.Counter = .ofBits 0b111111) :
    (hashCompProc a s).Counter = .ofBits 0b111111 := by
  have step := acts a s
  generalize event a s = es, hashCompProc a s = next at step ⊢
  cases step with
  | reset => exact last
  | accept => exact last
  | round edge busy => simp only [onEdge, busy, last, ne_eq, not_true_eq_false, if_false]
  | complete edge final => simp only [onEdge, final, last]
  | still => exact last

end Events

section Completion

variable {s : State} {a : Activation Ports} {r : Nat}

theorem State.InFlight.event_edge (flight : s.InFlight (r + 1)) (edge : ClockEdge a) :
    event a s = if r = 0 then [.complete] else [] := by
  split
  · rename_i last
    subst last
    exact event_final edge flight.final_of_one
  · rename_i more
    rw [HashComp.event_edge edge, edgeEvents, (flight.busy_of_two_le (by omega)).1]

/-- While a block is in flight nothing happens but its completion, on the last of the
edges that are left. -/
theorem State.InFlight.traced {v : List (Activation Ports)} (flight : s.InFlight r) (low : ResetLow v)
    (short : edges v ≤ r) :
    (run hashCompProc s v).InFlight (r - edges v) ∧
      events s v = if 0 < r ∧ edges v = r then [.complete] else [] := by
  induction v generalizing s r with
  | nil =>
    refine ⟨flight, ?_⟩
    rw [if_neg]
    · rfl
    · rintro ⟨positive, none⟩
      exact absurd none positive.ne
  | cons a v ih =>
    have later : ResetLow v := fun b member => low b (List.mem_cons_of_mem a member)
    have lowA : a.reset ≠ .one := low a List.mem_cons_self
    rw [run_cons, events_cons]
    cases rises : a.rising with
    | true =>
      have edge : ClockEdge a := ⟨lowA, rises⟩
      have count : edges (a :: v) = edges v + 1 := List.countP_cons_of_pos rises
      rw [count] at short ⊢
      obtain ⟨k, rfl⟩ : ∃ k, r = k + 1 := ⟨r - 1, by omega⟩
      have next := flight.next a.ports
      rw [← hashCompProc_edge edge] at next
      obtain ⟨after, rest⟩ := ih next later (by omega)
      refine ⟨by rwa [Nat.add_sub_add_right], ?_⟩
      rw [flight.event_edge edge, rest]
      rcases Nat.eq_zero_or_pos k with rfl | positive
      · have none : edges v = 0 := by omega
        simp [none]
      · simp [positive, positive.ne']
    | false =>
      have count : edges (a :: v) = edges v := List.countP_cons_of_neg (by simp [rises])
      rw [count] at short ⊢
      rw [event_still lowA rises, hashCompProc, clocked_still lowA rises, List.nil_append]
      exact ih flight later short

end Completion

/-- No request is lost and none is served twice, whatever reset and newData do and
whatever the counter was when a request was accepted. -/
theorem requests_served (w : List (Activation Ports)) :
    Serves (run hashCompProc powerOn w) (events powerOn w) := by
  have served : run? Server.serve false (events powerOn w) = some (run hashCompProc powerOn w).working :=
    events_served powerOn w
  refine ⟨fun a => registers_kept, fun a done => ?_, fun x m y cut start none => ?_, ?_, ?_,
    fun a accepted => ?_, fun a newData pending => newData_ignored pending a newData,
    fun a => counter_stays a⟩
  · obtain ⟨edge, final⟩ := event_complete done
    exact ⟨edge, final, registers_written done⟩
  · exact Server.one_between served cut start none
  · have completed := Server.count_complete served
    have total := Server.tally_accept (events powerOn w)
    simp only [Bool.false_eq_true, false_and, if_false] at completed
    omega
  · have pending := Server.tally_none served
    simp only [Bool.false_eq_true, false_and, if_false, Nat.add_zero] at pending
    rw [pending]
    split
    · rename_i ready
      rw [State.working_eq_false.mpr ready]
      rfl
    · rename_i busy
      rw [Bool.eq_true_of_not_eq_false (mt State.working_eq_false.mp busy)]
      rfl
  · obtain ⟨edge, idle, request⟩ := event_accept accepted
    obtain ⟨n, counts, _⟩ := Reachable.sound ⟨w, rfl⟩
    have range := counts.1
    have flight := State.InFlight.accept counts
    rw [← State.onEdge_accept idle request, ← hashCompProc_edge edge] at flight
    refine ⟨65 - n, by omega, by omega, fun v low => ⟨fun early => ?_, fun full => ?_⟩⟩
    · obtain ⟨after, spelled⟩ := flight.traced low early.le
      rw [if_neg (by omega)] at spelled
      exact ⟨after.ready_zero (by omega), spelled⟩
    · obtain ⟨after, spelled⟩ := flight.traced low full.le
      rw [if_pos (by omega)] at spelled
      rw [full, Nat.sub_self] at after
      exact ⟨after.ready_one, spelled⟩

end Dspc.HashComp
