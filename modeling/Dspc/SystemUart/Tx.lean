import Dspc.Serial.Sender
import Dspc.SystemUart.Baud

namespace Dspc.SystemUart.Tx
open Vhdl Serial

/-! The transmitter, with `clk_en` at '1' as the top module ties it. -/

structure Inputs where
  baud_divisor : BitVec 9
  begintransfer : Bool
  do_force_break : Bool
  status_wr_strobe : Bool
  tx_data : BitVec 8
  tx_wr_strobe : Bool

structure State where
  baud_clk_en : Bool
  baud_rate_counter : BitVec 9
  do_load_shifter : Bool
  pre_txd : Bool
  tx_overrun : Bool
  tx_ready : Bool
  tx_shift_empty : Bool
  txd : Bool
  tx_shift_register_contents : BitVec 10

def reset : State where
  baud_clk_en := false
  baud_rate_counter := 0
  do_load_shifter := false
  pre_txd := true
  tx_overrun := false
  tx_ready := true
  tx_shift_empty := true
  txd := true
  tx_shift_register_contents := 0

def tx_wr_strobe_onset (i : Inputs) : Bool := i.tx_wr_strobe && i.begintransfer

def tx_load_val (i : Inputs) : BitVec 10 := 1#1 ++ i.tx_data ++ 0#1

namespace State

def shift_done (s : State) : Bool := s.tx_shift_register_contents == 0

def baud_rate_counter_is_zero (s : State) : Bool := s.baud_rate_counter == 0

def do_shift (s : State) : Bool := s.baud_clk_en && !s.shift_done && !s.do_load_shifter

def tx_shift_reg_out (s : State) : Bool := s.tx_shift_register_contents.getLsbD 0

end State

def posedge (i : Inputs) (s : State) : State where
  do_load_shifter := !s.tx_ready && s.shift_done
  tx_ready := if tx_wr_strobe_onset i then false else if s.do_load_shifter then true else s.tx_ready
  tx_overrun :=
    if i.status_wr_strobe then false else if !s.tx_ready && tx_wr_strobe_onset i then true else s.tx_overrun
  tx_shift_empty := s.tx_ready && s.shift_done
  baud_rate_counter :=
    if s.baud_rate_counter_is_zero || s.do_load_shifter then i.baud_divisor else s.baud_rate_counter - 1
  baud_clk_en := s.baud_rate_counter_is_zero
  pre_txd := if !s.shift_done then s.tx_shift_reg_out else s.pre_txd
  txd := s.pre_txd && !i.do_force_break
  tx_shift_register_contents :=
    if s.do_load_shifter then tx_load_val i
    else if s.do_shift then s.tx_shift_register_contents >>> 1
    else s.tx_shift_register_contents

/-- What the transmitter takes from a cycle as a sender. -/
def request (i : Inputs) (s : State) : Sender.Input := { pending := !s.tx_ready, data := lsbFirst i.tx_data }

def requests (s : State) (w : List Inputs) : List Sender.Input :=
  trace (fun i s => [request i s]) (fun i s => some (posedge i s)) s w

/-- The transmitter is in a phase of the sender. -/
def InPhase (divisor : BitVec 9) (s : State) : Sender.Phase → Prop
  | .idle => s.tx_shift_register_contents = 0 ∧ s.do_load_shifter = false ∧ s.pre_txd = true
  | .first =>
    s.tx_shift_register_contents = 0 ∧ s.do_load_shifter = true ∧ s.pre_txd = true ∧ s.tx_ready = false
  | .second =>
    s.tx_shift_register_contents ≠ 0 ∧ s.tx_shift_reg_out = false ∧ s.do_load_shifter = true ∧ s.pre_txd = true ∧
      s.baud_rate_counter = divisor
  | .shift level wait bit bits =>
    Shifts s.tx_shift_register_contents (bit :: bits) ∧ true ∈ (bit :: bits).getLast? ∧
      s.do_load_shifter = false ∧ s.pre_txd = level ∧
      Ticks divisor s.baud_rate_counter s.baud_clk_en wait

variable {divisor : BitVec 9} {i : Inputs} {s : State}

theorem shift_done_iff : s.shift_done = true ↔ s.tx_shift_register_contents = 0 := beq_iff_eq

theorem load_val_ne_zero (i : Inputs) : tx_load_val i ≠ 0 :=
  (shifts_load i.tx_data).ne_zero (List.mem_cons_of_mem _ (List.mem_append_right _ List.mem_cons_self))

theorem InPhase.idle_step (phase : InPhase divisor s .idle) :
    InPhase divisor (posedge i s) (if !s.tx_ready then .first else .idle) := by
  obtain ⟨empty, still, high⟩ := phase
  have done := shift_done_iff.mpr empty
  cases ready : s.tx_ready with
  | true => simp [InPhase, posedge, State.do_shift, done, still, high, empty, ready]
  | false => simp [InPhase, posedge, State.do_shift, done, still, high, empty, ready]

theorem InPhase.first_step (constant : i.baud_divisor = divisor) (phase : InPhase divisor s .first) :
    InPhase divisor (posedge i s) .second := by
  obtain ⟨empty, load, high, taken⟩ := phase
  have done := shift_done_iff.mpr empty
  have value : (posedge i s).tx_shift_register_contents = tx_load_val i := by simp [posedge, load]
  refine ⟨?_, ?_, by simp [posedge, taken, done], by simp [posedge, done, high], by simp [posedge, load, constant]⟩
  · rw [value]
    exact load_val_ne_zero i
  · rw [State.tx_shift_reg_out, value]
    exact shifts_load i.tx_data 0

theorem InPhase.second_step (positive : 0 < divisor.toNat) (constant : i.baud_divisor = divisor)
    (phase : InPhase divisor s .second) :
    InPhase divisor (posedge i s) (.shift false (divisor.toNat + 1) false (lsbFirst i.tx_data ++ [true])) := by
  obtain ⟨some, low, load, high, counter⟩ := phase
  have running : divisor ≠ 0 := by
    rintro rfl
    exact absurd positive (by decide)
  have more : s.shift_done = false := by rw [State.shift_done, beq_eq_false_iff_ne.mpr some]
  have ticking : s.baud_rate_counter_is_zero = false := by
    rw [State.baud_rate_counter_is_zero, counter, beq_eq_false_iff_ne.mpr running]
  have value : (posedge i s).tx_shift_register_contents = tx_load_val i := by simp [posedge, load]
  have loaded : (posedge i s).baud_rate_counter = divisor ∧ (posedge i s).baud_clk_en = false := by
    simp [posedge, load, ticking, constant]
  refine ⟨?_, ?_, by simp [posedge, more], by simp [posedge, more, low], ?_⟩
  · rw [value]
    exact shifts_load i.tx_data
  · rw [← List.cons_append, List.getLast?_concat]
    exact rfl
  · rw [loaded.1, loaded.2]
    exact ticks_load divisor divisor

theorem InPhase.shift_step {level bit : Bool} {wait : Nat} {bits : List Bool} (positive : 0 < divisor.toNat)
    (constant : i.baud_divisor = divisor) (phase : InPhase divisor s (.shift level wait bit bits)) :
    InPhase divisor (posedge i s) (Sender.next divisor.toNat (request i s) (.shift level wait bit bits)) := by
  obtain ⟨shifts, stop, load, _, ticks⟩ := phase
  have more : s.shift_done = false := by
    rw [State.shift_done, beq_eq_false_iff_ne.mpr (shifts.ne_zero (List.mem_of_getLast? stop))]
  have out : s.tx_shift_reg_out = bit := shifts 0
  have contents : (posedge i s).tx_shift_register_contents =
      if s.baud_clk_en then s.tx_shift_register_contents >>> 1 else s.tx_shift_register_contents := by
    simp [posedge, State.do_shift, load, more]
  have loads : (posedge i s).do_load_shifter = false := by simp [posedge, more]
  have line : (posedge i s).pre_txd = bit := by simp [posedge, more, out]
  have next : Ticks divisor (posedge i s).baud_rate_counter (posedge i s).baud_clk_en
      (if wait = 0 then divisor.toNat else wait - 1) := by
    simpa [posedge, load, constant, State.baud_rate_counter_is_zero] using ticks.next positive
  match wait, bits with
  | 0, [] =>
    rw [if_pos (ticks.enable_iff.mpr rfl)] at contents
    refine ⟨by rw [contents, shifts.shift.eq_zero], loads, ?_⟩
    rw [line]
    exact Option.some.inj stop
  | 0, b :: bits =>
    rw [if_pos (ticks.enable_iff.mpr rfl)] at contents
    refine ⟨by rw [contents]; exact shifts.shift, ?_, loads, line, next⟩
    rwa [List.getLast?_cons_of_ne_nil (List.cons_ne_nil b bits)] at stop
  | wait + 1, bits =>
    rw [if_neg (mt ticks.enable_iff.mp (Nat.succ_ne_zero wait))] at contents
    exact ⟨by rw [contents]; exact shifts, stop, loads, line, next⟩

theorem InPhase.step {p : Sender.Phase} (positive : 0 < divisor.toNat) (constant : i.baud_divisor = divisor)
    (phase : InPhase divisor s p) :
    InPhase divisor (posedge i s) (Sender.next divisor.toNat (request i s) p) := by
  cases p with
  | idle => exact phase.idle_step
  | first => exact phase.first_step constant
  | second => exact phase.second_step positive constant
  | shift level wait bit bits => exact phase.shift_step positive constant

/-- The byte that a cycle leaves in the shift register. It is loaded for two cycles, and
what is loaded in the first of them does not stay. -/
def sends (i : Inputs) (s : State) : List (BitVec 8) :=
  if s.do_load_shifter && !s.shift_done then [i.tx_data] else []

def sent (s : State) (w : List Inputs) : List (BitVec 8) := trace sends (fun i s => some (posedge i s)) s w

/-- The line at the clock edges of a run. -/
def txds (s : State) (w : List Inputs) : List Bool :=
  trace (fun _ s => [s.txd]) (fun i s => some (posedge i s)) s w

section Run

variable {w : List Inputs}

theorem requests_concat : requests s (w ++ [i]) = requests s w ++ [request i (run posedge s w)] :=
  trace_concat (run?_pure posedge s w) i

theorem sent_concat : sent s (w ++ [i]) = sent s w ++ sends i (run posedge s w) :=
  trace_concat (run?_pure posedge s w) i

theorem txds_concat : txds s (w ++ [i]) = txds s w ++ [(run posedge s w).txd] :=
  trace_concat (run?_pure posedge s w) i

theorem length_data_requests : ∀ r ∈ requests s w, r.data.length = 8 := by
  induction w using List.reverseRecOn with
  | nil => exact nofun
  | append_singleton w i ih =>
    intro r member
    rw [requests_concat] at member
    rcases List.mem_append.mp member with old | new
    · exact ih r old
    · rw [List.mem_singleton.mp new]
      exact length_lsbFirst _

theorem InPhase.sends {p : Sender.Phase} (phase : InPhase divisor s p) :
    (sends i s).map lsbFirst = Sender.takes (request i s) p := by
  cases p with
  | idle => simp [Tx.sends, Sender.takes, phase.2.1]
  | first => simp [Tx.sends, Sender.takes, shift_done_iff.mpr phase.1]
  | second =>
    have more : s.shift_done = false := beq_eq_false_iff_ne.mpr phase.1
    simp [Tx.sends, Sender.takes, request, phase.2.2.1, more]
  | shift => simp [Tx.sends, Sender.takes, phase.2.2.1]

theorem InPhase.line {p : Sender.Phase} (phase : InPhase divisor s p) : s.pre_txd = Sender.line p := by
  cases p with
  | idle => exact phase.2.2
  | first => exact phase.2.2.1
  | second => exact phase.2.2.2.1
  | shift => exact phase.2.2.2.1

variable (positive : 0 < divisor.toNat) (constant : ∀ i ∈ w, i.baud_divisor = divisor)
include positive constant

/-- The transmitter simulates the sender, which puts the bits one cycle earlier on the line. -/
theorem run_inPhase :
    InPhase divisor (run posedge reset w) (run (Sender.next divisor.toNat) .idle (requests reset w)) ∧
      Sender.taken divisor.toNat .idle (requests reset w) = (sent reset w).map lsbFirst ∧
      ((∀ i ∈ w, i.do_force_break = false) →
        txds reset w ++ [(run posedge reset w).txd] =
          true :: Sender.lines divisor.toNat .idle (requests reset w)) := by
  induction w using List.reverseRecOn with
  | nil => exact ⟨⟨rfl, rfl, rfl⟩, rfl, fun _ => rfl⟩
  | append_singleton w i ih =>
    obtain ⟨phase, same, lines⟩ := ih fun j member => constant j (List.mem_append_left _ member)
    have step := phase.step positive (constant i (List.mem_append_right _ List.mem_cons_self))
    rw [run_append, run_cons, run_nil, requests_concat, run_append, run_cons, run_nil]
    refine ⟨step, ?_, fun unbroken => ?_⟩
    · rw [Sender.taken_concat, same, sent_concat, List.map_append, phase.sends]
    · have level : (posedge i (run posedge reset w)).txd = (run posedge reset w).pre_txd := by
        simp [posedge, unbroken i (List.mem_append_right _ List.mem_cons_self)]
      rw [txds_concat, lines fun j member => unbroken j (List.mem_append_left _ member), Sender.lines_concat, level,
        phase.line, List.cons_append]

theorem spoken : Sender.Spoken divisor.toNat ((sent reset w).map lsbFirst)
    (run (Sender.next divisor.toNat) .idle (requests reset w))
    (Sender.lines divisor.toNat .idle (requests reset w)) := by
  rw [← (run_inPhase positive constant).2.1]
  exact Sender.spoken_run length_data_requests

/-- The bit TMT of `status` says that the sender rests. -/
theorem run_idle (empty : (run posedge reset w).tx_shift_empty = true) :
    run (Sender.next divisor.toNat) .idle (requests reset w) = .idle := by
  induction w using List.reverseRecOn with
  | nil => rfl
  | append_singleton w i _ =>
    obtain ⟨phase, _⟩ := run_inPhase positive fun j member => constant j (List.mem_append_left _ member)
    rw [run_append, run_cons, run_nil] at empty
    obtain ⟨ready, done⟩ := Bool.and_eq_true_iff.mp empty
    rw [requests_concat, run_append, run_cons, run_nil]
    cases here : run (Sender.next divisor.toNat) .idle (requests reset w) with
    | idle => simp [Sender.next, request, ready]
    | first =>
      rw [here] at phase
      exact absurd (phase.2.2.2.symm.trans ready) Bool.false_ne_true
    | second =>
      rw [here] at phase
      exact absurd (shift_done_iff.mp done) phase.1
    | shift =>
      rw [here] at phase
      exact absurd (shift_done_iff.mp done) (phase.1.ne_zero (List.mem_of_getLast? phase.2.1))

omit positive constant in
theorem requests_append (s : State) (u v : List Inputs) :
    requests s (u ++ v) = requests s u ++ requests (run posedge s u) v :=
  trace_append (run?_pure posedge s u) v

end Run

end Dspc.SystemUart.Tx
