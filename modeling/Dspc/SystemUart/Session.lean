import Mathlib.Tactic.IntervalCases
import Dspc.SystemUart.Accounts
import Dspc.SystemUart.Bus

namespace Dspc.SystemUart
open Vhdl RegisterIo

section Slot

variable {divisor : BitVec 9} {s : State} {a : Slot} {x y : Bool} {op : Op}

/-- The byte that an access writes to `txdata`. -/
def txdata : Access (BitVec 3) (BitVec 32) → List (BitVec 8)
  | .wr reg data => if reg = 1 then [data.setWidth 8] else []
  | .rd _ _ => []

/-- The byte that an access reads from `rxdata`. -/
def rxdata : Access (BitVec 3) (BitVec 32) → List (BitVec 8)
  | .rd reg data => if reg = 0 then [data.setWidth 8] else []
  | .wr _ _ => []

/-- The device in the cycles of an access. -/
def slot (divisor : BitVec 9) (a : Slot) (s : State) : State := run (posedge divisor) s (inputs a)

/-- The access of a slot that finds the device in a state. -/
def found (s : State) : Op → List (Access (BitVec 3) (BitVec 32))
  | .idle => []
  | .rd reg => [.rd reg ((s.selected_read_data reg).setWidth 32)]
  | .wr reg data => [.wr reg data]

theorem found_txdata : (found s op).flatMap txdata = [] ↔ ∀ data, op ≠ .wr 1 data := by
  cases op <;> simp [found, txdata]

theorem found_rxdata : (found s op).flatMap rxdata = [] ↔ op ≠ .rd 0 := by
  cases op <;> simp [found, rxdata]

theorem tx_wr_strobe_onset_cycle (begins : Bool) : (cycle (request op) begins x).tx_wr_strobe_onset = true ↔
    begins = true ∧ ∃ data, op = .wr 1 data := by
  cases op <;> simp [Inputs.tx_wr_strobe_onset, Inputs.tx_wr_strobe, cycle, request, and_comm]

theorem rx_rd_strobe_onset_cycle (begins : Bool) : (cycle (request op) begins x).rx_rd_strobe_onset = true ↔
    begins = true ∧ op = .rd 0 := by
  cases op <;> simp [Inputs.rx_rd_strobe_onset, Inputs.rx_rd_strobe, cycle, request, and_comm]

theorem tx_wr_strobe_onset_end (op : Op) (x : Bool) : (cycle (request op) false x).tx_wr_strobe_onset = false :=
  Bool.and_false _

theorem rx_rd_strobe_onset_end (op : Op) (x : Bool) : (cycle (request op) false x).rx_rd_strobe_onset = false :=
  Bool.and_false _

theorem status_wr_strobe_cycle (begins : Bool) : (cycle (request op) begins x).status_wr_strobe = true ↔
    ∃ data, op = .wr 2 data := by
  cases op <;> simp [Inputs.status_wr_strobe, cycle, request]

theorem rx_data_read : ((s.selected_read_data 0).setWidth 32).setWidth 8 = s.rx.rx_data := by
  apply BitVec.eq_of_getLsbD_eq
  intro k inside
  simp [State.selected_read_data, State.select, inside]

theorem status_bit (k : Nat) : s.status_reg.getLsbD k =
    [Rx.parity_error, s.rx.framing_error, s.rx.break_detect, s.rx.rx_overrun, s.tx.tx_overrun, s.tx.tx_shift_empty,
      s.tx.tx_ready, s.rx.rx_char_ready, s.any_error].getD k false := by
  by_cases inside : k < 9
  · interval_cases k <;> simp only [State.status_reg, BitVec.getLsbD_append, BitVec.getLsbD_ofBool] <;> simp
  · rw [List.getD_eq_default _ _ (by simp; omega)]
    simp only [State.status_reg, BitVec.getLsbD_append, BitVec.getLsbD_ofBool, State.cts_status_bit,
      State.dcts_status_bit, State.eop_status_bit, Bool.and_false]
    rw [if_neg (by omega), if_neg (by omega), if_neg (by omega), if_neg (by omega), if_neg (by omega),
      if_neg (by omega), if_neg (by omega), if_neg (by omega), if_neg (by omega)]
    simp

theorem status_read (k : Nat) : ((s.selected_read_data 2).setWidth 32).getLsbD k =
    [Rx.parity_error, s.rx.framing_error, s.rx.break_detect, s.rx.rx_overrun, s.tx.tx_overrun, s.tx.tx_shift_empty,
      s.tx.tx_ready, s.rx.rx_char_ready, s.any_error].getD k false := by
  have wide : (s.selected_read_data 2).setWidth 32 = s.status_reg.setWidth 32 := by
    apply BitVec.eq_of_getLsbD_eq
    intro k inside
    simp [State.selected_read_data, State.select]
  rw [wide, BitVec.getLsbD_setWidth, status_bit]
  by_cases inside : k < 9
  · rw [decide_eq_true (by omega), Bool.true_and]
  · rw [List.getD_eq_default _ _ (by simp; omega), Bool.and_false]

theorem inputs_idle (idle : a.op = .idle) : inputs a = [cycle (request .idle) false a.first] := by
  rw [inputs, idle]

theorem inputs_access (some : a.op ≠ .idle) :
    inputs a = [cycle (request a.op) true a.first, cycle (request a.op) false a.second] := by
  obtain ⟨op, _, _⟩ := a
  cases op with
  | idle => exact absurd rfl some
  | _ => rfl

theorem along_inputs {P : Inputs → State → Prop}
    (idle : a.op = .idle → P (cycle (request a.op) false a.first) s)
    (first : a.op ≠ .idle → P (cycle (request a.op) true a.first) s)
    (second : a.op ≠ .idle → P (cycle (request a.op) false a.second)
      (posedge divisor (cycle (request a.op) true a.first) s)) :
    Along (posedge divisor) P s (inputs a) := by
  by_cases rests : a.op = .idle
  · rw [inputs_idle rests]
    rw [rests] at idle
    exact ⟨idle rfl, trivial⟩
  · rw [inputs_access rests]
    exact ⟨first rests, second rests, trivial⟩

theorem steady_begin : Steady (cycle (request op) true x) s := fun _ still => nomatch still

theorem steady_idle : Steady (cycle (request .idle) false x) s := fun writes => nomatch writes

theorem steady_end : Steady (cycle (request op) false y) (posedge divisor (cycle (request op) true x) s) := by
  intro writes _
  have onset : (cycle (request op) true x).tx_wr_strobe_onset = true := by
    rw [Inputs.tx_wr_strobe_onset, Bool.and_eq_true_iff]
    exact ⟨writes, rfl⟩
  exact (tx_data_written onset).symm

/-- The last cycle of an access begins none. -/
theorem settled_slot (s : State) (a : Slot) : Settled (run (posedge divisor) s (inputs a)) := by
  have none (op : Op) (x : Bool) : (cycle (request op) false x).tx_wr_strobe_onset = false :=
    Bool.eq_false_iff.mpr fun onset => nomatch (tx_wr_strobe_onset_end _ _).symm.trans onset
  by_cases rests : a.op = .idle
  · rw [inputs_idle rests]
    exact settled_step (tx_wr_strobe_onset_end _ _)
  · rw [inputs_access rests]
    exact settled_step (tx_wr_strobe_onset_end _ _)

theorem status_quiet (quiet : ∀ data, op ≠ .wr 2 data) (begins x : Bool) :
    (cycle (request op) begins x).status_wr_strobe = false :=
  Bool.eq_false_iff.mpr fun strobe => ((status_wr_strobe_cycle begins).mp strobe).elim quiet

theorem status_quiet_slot (quiet : ∀ data, a.op ≠ .wr 2 data) :
    Along (posedge divisor) (fun i _ => i.status_wr_strobe = false) s (inputs a) :=
  along_inputs (fun _ => status_quiet quiet _ _) (fun _ => status_quiet quiet _ _) (fun _ => status_quiet quiet _ _)

theorem tx_steady_slot (settled : Settled s) : Along (posedge divisor)
    (fun i s => Steady i s ∧ (i.tx_wr_strobe_onset = true → Settled s)) s (inputs a) := by
  refine along_inputs (fun rests => ?_) (fun _ => ⟨steady_begin, fun _ => settled⟩)
    (fun _ => ⟨steady_end, fun onset => nomatch (tx_wr_strobe_onset_end _ _).symm.trans onset⟩)
  rw [rests]
  exact ⟨steady_idle, nofun⟩

theorem tx_free_slot (free : ∀ data, a.op = .wr 1 data → s.tx.tx_ready = true) :
    Along (posedge divisor) (fun i s => Steady i s ∧ (i.tx_wr_strobe_onset = true → s.tx.tx_ready = true)) s
      (inputs a) := by
  refine along_inputs (fun rests => ?_) (fun _ => ⟨steady_begin, fun onset => ?_⟩)
    (fun _ => ⟨steady_end, fun onset => nomatch (tx_wr_strobe_onset_end _ _).symm.trans onset⟩)
  · rw [rests]
    exact ⟨steady_idle, nofun⟩
  · obtain ⟨_, data, writes⟩ := (tx_wr_strobe_onset_cycle true).mp onset
    exact free data writes

theorem rx_valid_slot (valid : a.op = .rd 0 → s.rx.rx_char_ready = true) : Along (posedge divisor)
    (fun i s => i.rx_rd_strobe_onset = true → s.rx.rx_char_ready = true) s (inputs a) := by
  refine along_inputs (fun _ onset => ?_) (fun _ onset => ?_) (fun _ onset => ?_)
  · exact nomatch (rx_rd_strobe_onset_end _ _).symm.trans onset
  · exact valid ((rx_rd_strobe_onset_cycle true).mp onset).2
  · exact nomatch (rx_rd_strobe_onset_end _ _).symm.trans onset

theorem puts_slot (s : State) (a : Slot) :
    (txBuffer divisor).puts s (inputs a) = (found s a.op).flatMap txdata := by
  obtain ⟨op, x, y⟩ := a
  cases op with
  | idle => rfl
  | rd reg => rfl
  | wr reg data =>
    have low : (cycle (request (.wr reg data)) true x).writedata.setWidth 8 = data.setWidth 8 := by
      simp [cycle, request]
    simp [Buffer.puts, trace, inputs, txBuffer, Inputs.written, tx_wr_strobe_onset_cycle, found, txdata, low]

theorem takes_slot (s : State) (a : Slot) :
    (rxBuffer divisor).takes s (inputs a) = (found s a.op).flatMap rxdata := by
  obtain ⟨op, x, y⟩ := a
  cases op with
  | idle => rfl
  | wr reg data => rfl
  | rd reg =>
    simp only [Buffer.takes, trace, Option.elim_some, inputs, rxBuffer, fetched, found, rxdata,
      List.flatMap_singleton]
    by_cases rx : reg = 0
    · rw [rx, rx_data_read, if_pos ((rx_rd_strobe_onset_cycle true).mpr ⟨rfl, rfl⟩),
        rx_rd_strobe_onset_end, if_neg Bool.false_ne_true, if_pos rfl]
      rfl
    · rw [if_neg fun onset => rx (Op.rd.inj ((rx_rd_strobe_onset_cycle true).mp onset).2), rx_rd_strobe_onset_end,
        if_neg Bool.false_ne_true, if_neg rx]
      rfl

end Slot

section Session

variable (divisor : BitVec 9) (w : List Slot)

/-- The device after the accesses since reset. -/
def state : State := (run (System.perform divisor) (System.start divisor) w).uart

/-- The accesses with their data, as the processor sees them. -/
def log : List (Access (BitVec 3) (BitVec 32)) :=
  trace (System.access divisor) (fun a s => some (s.perform divisor a)) (System.start divisor) w

/-- The bytes that were loaded into the shift register. With the break bit set the line stays
low all the same. -/
def sent : List (BitVec 8) := (txBuffer divisor).takes reset (cycles w)

def arrivals : List (BitVec 8) := (rxBuffer divisor).puts reset (cycles w)

variable {divisor w} {a : Slot}

theorem state_eq : state divisor w = run (posedge divisor) reset (cycles w) := (system_run divisor w).2

theorem cycles_concat : cycles (w ++ [a]) = cycles w ++ inputs a := by
  rw [cycles, cycles, List.flatMap_append, List.flatMap_singleton, List.cons_append]

theorem state_nil : state divisor [] = posedge divisor (cycle (request .idle) false false) reset := state_eq

theorem state_concat : state divisor (w ++ [a]) = slot divisor a (state divisor w) := by
  rw [state_eq, state_eq, cycles_concat, run_append, slot]

theorem run_slot : run (slot divisor) (state divisor []) w = state divisor w := by
  induction w using List.reverseRecOn with
  | nil => rfl
  | append_singleton w a ih => rw [run_append, ih, state_concat, run_cons, run_nil]

theorem log_concat : log divisor (w ++ [a]) = log divisor w ++ found (state divisor w) a.op := by
  have last := access_rests divisor (system_run divisor w).1 a
  rw [log, trace_concat (run?_pure _ _ w), last]
  cases a.op <;> rfl

theorem along_slots {P : Inputs → State → Prop} {s : State}
    (slots : Along (slot divisor) (fun a s => Along (posedge divisor) P s (inputs a)) s w) :
    Along (posedge divisor) P s (w.flatMap inputs) := by
  induction w generalizing s with
  | nil => exact trivial
  | cons a w ih =>
    rw [List.flatMap_cons, along_append]
    exact ⟨slots.1, ih slots.2⟩

theorem along_session {P : Inputs → State → Prop}
    (first : P (cycle (request .idle) false false) reset)
    (slots : Along (slot divisor) (fun a s => Along (posedge divisor) P s (inputs a)) (state divisor []) w) :
    Along (posedge divisor) P reset (cycles w) := by
  rw [state_nil] at slots
  exact ⟨first, along_slots slots⟩

theorem puts_session : (txBuffer divisor).puts reset (cycles w) = (log divisor w).flatMap txdata := by
  induction w using List.reverseRecOn with
  | nil => rfl
  | append_singleton w a ih =>
    rw [cycles_concat, Buffer.puts_append, ih, log_concat, List.flatMap_append]
    congr 1
    exact (congrArg (fun s => (txBuffer divisor).puts s (inputs a)) state_eq.symm).trans (puts_slot _ a)

theorem takes_session : (rxBuffer divisor).takes reset (cycles w) = (log divisor w).flatMap rxdata := by
  induction w using List.reverseRecOn with
  | nil => rfl
  | append_singleton w a ih =>
    rw [cycles_concat, Buffer.takes_append, ih, log_concat, List.flatMap_append]
    congr 1
    exact (congrArg (fun s => (rxBuffer divisor).takes s (inputs a)) state_eq.symm).trans (takes_slot _ a)

theorem settled_start : Settled (state divisor []) := by
  rw [state_nil]
  exact settled_step (tx_wr_strobe_onset_end _ _)

/-- The bits of `status` above that of the errors read as zero. -/
theorem status_log {v : BitVec 32} (member : .rd 2 v ∈ log divisor w) (k : Nat) (high : 9 ≤ k) :
    v.getLsbD k = false := by
  induction w using List.reverseRecOn with
  | nil => exact nomatch member
  | append_singleton w a ih =>
    rw [log_concat] at member
    rcases List.mem_append.mp member with old | new
    · exact ih old
    · have status : v = ((state divisor w).selected_read_data 2).setWidth 32 := by
        cases op : a.op with
        | idle =>
          rw [op] at new
          exact nomatch new
        | rd reg =>
          rw [op, found, List.mem_singleton, Access.rd.injEq] at new
          rw [new.2, new.1]
        | wr reg data =>
          rw [op, found, List.mem_singleton] at new
          exact nomatch new
      rw [status, status_read, List.getD_eq_default _ _ (by simpa using high)]

theorem wr_mem_log {reg : BitVec 3} {data : BitVec 32} (member : a ∈ w) (writes : a.op = .wr reg data) :
    .wr reg data ∈ log divisor w := by
  induction w using List.reverseRecOn with
  | nil => exact nomatch member
  | append_singleton w b ih =>
    rw [log_concat]
    rcases List.mem_append.mp member with old | new
    · exact List.mem_append_left _ (ih old)
    · rw [← List.mem_singleton.mp new, writes]
      exact List.mem_append_right _ (List.mem_singleton_self _)

theorem status_quiet_session (divisor : BitVec 9) (quiet : ∀ a ∈ w, ∀ data, a.op ≠ .wr 2 data) :
    Along (posedge divisor) (fun i _ => i.status_wr_strobe = false) reset (cycles w) := by
  refine along_session rfl (along_of_invariant (I := fun _ => True) (fun a member s _ => ⟨?_, trivial⟩) trivial)
  exact status_quiet_slot (quiet a member)

theorem tx_steady_session (divisor : BitVec 9) (w : List Slot) : Along (posedge divisor)
    (fun i s => Steady i s ∧ (i.tx_wr_strobe_onset = true → Settled s)) reset (cycles w) := by
  refine along_session ⟨steady_idle, nofun⟩ ?_
  exact along_of_invariant (fun a _ s settled => ⟨tx_steady_slot settled, settled_slot s a⟩) settled_start

end Session

end Dspc.SystemUart
