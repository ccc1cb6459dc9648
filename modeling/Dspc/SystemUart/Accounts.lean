import Dspc.Buffer
import Dspc.SystemUart.Top

namespace Dspc.SystemUart
open Vhdl
open scoped List

/-! Where the bytes are that were written to `txdata`, and those that came in. -/

namespace Inputs

variable (i : Inputs)

def tx_wr_strobe_onset : Bool := i.tx_wr_strobe && i.begintransfer

def rx_rd_strobe_onset : Bool := i.rx_rd_strobe && i.begintransfer

/-- The byte that a cycle writes to `txdata`. -/
def written : List (BitVec 8) := if i.tx_wr_strobe_onset then [i.writedata.setWidth 8] else []

end Inputs

/-- The byte that is in `txdata` and not yet in the shift register. -/
def pending (s : State) : List (BitVec 8) :=
  if !s.tx.tx_ready || (s.tx.do_load_shifter && !s.tx.shift_done) then [s.regs.tx_data] else []

/-- The second cycle of a write has the data of the first. -/
def Steady (i : Inputs) (s : State) : Prop :=
  i.tx_wr_strobe = true → i.begintransfer = false → i.writedata.setWidth 8 = s.regs.tx_data

/-- `txdata` is free in the second of the two cycles that load the shift register. -/
def Settled (s : State) : Prop :=
  s.tx.do_load_shifter = true → s.tx.shift_done = false → s.tx.tx_ready = true

section Transmitter

variable {divisor : BitVec 9} {i : Inputs} {s : State}

theorem tx_ready_step : (posedge divisor i s).tx.tx_ready =
    if i.tx_wr_strobe_onset then false else if s.tx.do_load_shifter then true else s.tx.tx_ready := rfl

theorem do_load_shifter_step : (posedge divisor i s).tx.do_load_shifter = (!s.tx.tx_ready && s.tx.shift_done) := rfl

theorem tx_overrun_step (none : i.status_wr_strobe = false) : (posedge divisor i s).tx.tx_overrun =
    if !s.tx.tx_ready && i.tx_wr_strobe_onset then true else s.tx.tx_overrun := by
  simp [posedge, Tx.posedge, txInputs, none, Tx.tx_wr_strobe_onset, Inputs.tx_wr_strobe_onset]

theorem tx_overrun_clear (free : i.tx_wr_strobe_onset = true → s.tx.tx_ready = true)
    (clear : s.tx.tx_overrun = false) : (posedge divisor i s).tx.tx_overrun = false := by
  cases status : i.status_wr_strobe with
  | true => simp [posedge, Tx.posedge, txInputs, status]
  | false =>
    rw [tx_overrun_step status, clear, if_neg]
    rw [Bool.and_eq_true_iff, Bool.not_eq_true']
    exact fun both => Bool.false_ne_true (both.1.symm.trans (free both.2))

theorem tx_data_held (divisor : BitVec 9) (steady : Steady i s) (none : i.tx_wr_strobe_onset = false) :
    (posedge divisor i s).regs.tx_data = s.regs.tx_data := by
  cases strobe : i.tx_wr_strobe with
  | false => simp [posedge, strobe]
  | true =>
    rw [Inputs.tx_wr_strobe_onset, strobe, Bool.true_and] at none
    simp [posedge, strobe, steady strobe none]

theorem tx_data_written (onset : i.tx_wr_strobe_onset = true) :
    (posedge divisor i s).regs.tx_data = i.writedata.setWidth 8 := by
  simp [posedge, (Bool.and_eq_true_iff.mp onset).1]

theorem loaded_not_done (divisor : BitVec 9) (i : Inputs) (load : s.tx.do_load_shifter = true) :
    (posedge divisor i s).tx.shift_done = false := by
  have value : (posedge divisor i s).tx.tx_shift_register_contents = Tx.tx_load_val (txInputs divisor i s) := by
    simp [posedge, Tx.posedge, load]
  rw [Tx.State.shift_done, value]
  exact beq_eq_false_iff_ne.mpr (Tx.load_val_ne_zero _)

theorem settled_step (none : i.tx_wr_strobe_onset = false) : Settled (posedge divisor i s) := by
  intro load more
  rw [do_load_shifter_step, Bool.and_eq_true_iff, Bool.not_eq_true'] at load
  rw [tx_ready_step, none]
  cases loads : s.tx.do_load_shifter with
  | true => rfl
  | false =>
    have same : (posedge divisor i s).tx.tx_shift_register_contents = s.tx.tx_shift_register_contents := by
      simp [posedge, Tx.posedge, Tx.State.do_shift, loads, load.2]
    rw [Tx.State.shift_done, same] at more
    exact absurd (more.symm.trans load.2) Bool.false_ne_true

/-- `txdata` as a register in front of the shift register. -/
def txBuffer (divisor : BitVec 9) : Buffer Inputs State (BitVec 8) where
  step := posedge divisor
  put i _ := i.written
  take i s := Tx.sends (txInputs divisor i s) s.tx
  held := pending

/-- A write to a ready transmitter loses no byte. -/
theorem tx_conserves (steady : Steady i s) (free : i.tx_wr_strobe_onset = true → s.tx.tx_ready = true) :
    (txBuffer divisor).Conserves i s := by
  have data : (txInputs divisor i s).tx_data = s.regs.tx_data := rfl
  change pending s ++ i.written = Tx.sends (txInputs divisor i s) s.tx ++ pending (posedge divisor i s)
  cases onset : i.tx_wr_strobe_onset with
  | true =>
    have ready := free onset
    simp [pending, Inputs.written, Tx.sends, tx_ready_step, do_load_shifter_step, onset, ready, data,
      tx_data_written onset]
  | false =>
    have held := tx_data_held divisor steady onset
    cases ready : s.tx.tx_ready with
    | true => simp [pending, Inputs.written, Tx.sends, tx_ready_step, do_load_shifter_step, onset, ready, data]
    | false =>
      cases loads : s.tx.do_load_shifter with
      | false => simp [pending, Inputs.written, Tx.sends, tx_ready_step, onset, ready, loads, held]
      | true =>
        have more := loaded_not_done divisor i loads
        cases done : s.tx.shift_done <;>
          simp [pending, Inputs.written, Tx.sends, tx_ready_step, do_load_shifter_step, onset, ready, loads, held,
            done, more, data]

theorem tx_keeps (steady : Steady i s) (quiet : i.status_wr_strobe = false)
    (free : i.tx_wr_strobe_onset = true → s.tx.tx_ready = true) : (txBuffer divisor).Keeps (·.tx.tx_overrun) i s := by
  refine ⟨?_, tx_conserves steady free⟩
  change (posedge divisor i s).tx.tx_overrun = s.tx.tx_overrun
  rw [tx_overrun_step quiet, if_neg]
  rw [Bool.and_eq_true_iff, Bool.not_eq_true']
  exact fun both => Bool.false_ne_true (both.1.symm.trans (free both.2))

/-- A write to a busy one takes the place of the byte that is pending. -/
theorem tx_overwrites (divisor : BitVec 9) (settled : Settled s) (onset : i.tx_wr_strobe_onset = true)
    (busy : s.tx.tx_ready = false) : pending s = [s.regs.tx_data] ∧ Tx.sends (txInputs divisor i s) s.tx = [] ∧
      pending (posedge divisor i s) = i.written := by
  refine ⟨by simp [pending, busy], ?_, ?_⟩
  · rw [Tx.sends, if_neg]
    rw [Bool.and_eq_true_iff, Bool.not_eq_true']
    exact fun loading => Bool.false_ne_true (busy.symm.trans (settled loading.1 loading.2))
  · simp [pending, Inputs.written, tx_ready_step, onset, tx_data_written onset]

theorem tx_drops (divisor : BitVec 9) (settled : Settled s) (onset : i.tx_wr_strobe_onset = true)
    (busy : s.tx.tx_ready = false) : (txBuffer divisor).Drops i s := by
  obtain ⟨held, none, taken⟩ := tx_overwrites divisor settled onset busy
  change Tx.sends (txInputs divisor i s) s.tx ++ pending (posedge divisor i s) <+ pending s ++ i.written ∧
    (Tx.sends (txInputs divisor i s) s.tx ++ pending (posedge divisor i s)).length < (pending s ++ i.written).length
  rw [none, held, taken]
  exact ⟨(List.Sublist.refl _).cons _, by simp⟩

theorem tx_sublist (steady : Steady i s) (settled : i.tx_wr_strobe_onset = true → Settled s) :
    (txBuffer divisor).Conserves i s ∨ (txBuffer divisor).Drops i s := by
  by_cases both : i.tx_wr_strobe_onset = true ∧ s.tx.tx_ready = false
  · exact .inr (tx_drops divisor (settled both.1) both.1 both.2)
  · exact .inl (tx_conserves steady fun onset => Bool.not_eq_false _ ▸ fun busy => both ⟨onset, busy⟩)

theorem tx_accounts (divisor : BitVec 9) (steady : Steady i s) (quiet : i.status_wr_strobe = false)
    (settled : i.tx_wr_strobe_onset = true → Settled s) :
    (txBuffer divisor).Keeps (·.tx.tx_overrun) i s ∨ (txBuffer divisor).Loses (·.tx.tx_overrun) i s := by
  by_cases both : i.tx_wr_strobe_onset = true ∧ s.tx.tx_ready = false
  · refine .inr ⟨?_, tx_drops divisor (settled both.1) both.1 both.2⟩
    change (posedge divisor i s).tx.tx_overrun = true
    rw [tx_overrun_step quiet, both.1, both.2]
    rfl
  · exact .inl (tx_keeps steady quiet fun onset => Bool.not_eq_false _ ▸ fun busy => both ⟨onset, busy⟩)

end Transmitter

/-- The byte that is complete in the receiver. -/
def completed (s : State) : List (BitVec 8) := if s.rx.got_new_char then [s.rx.raw_data_in] else []

/-- The byte that a cycle reads from `rxdata`. -/
def fetched (i : Inputs) (s : State) : List (BitVec 8) := if i.rx_rd_strobe_onset then [s.rx.rx_data] else []

def unread (s : State) : List (BitVec 8) := if s.rx.rx_char_ready then [s.rx.rx_data] else []

section Receiver

variable {divisor : BitVec 9} {i : Inputs} {s : State}

theorem rx_char_ready_step : (posedge divisor i s).rx.rx_char_ready =
    if i.rx_rd_strobe_onset then false else if s.rx.got_new_char then true else s.rx.rx_char_ready := rfl

theorem rx_data_step : (posedge divisor i s).rx.rx_data =
    if s.rx.got_new_char then s.rx.raw_data_in else s.rx.rx_data := rfl

theorem rx_overrun_step (none : i.status_wr_strobe = false) : (posedge divisor i s).rx.rx_overrun =
    if s.rx.got_new_char && s.rx.rx_char_ready then true else s.rx.rx_overrun := by
  simp [posedge, Rx.posedge, rxInputs, none]

/-- `rxdata` as a register behind the shift register. -/
def rxBuffer (divisor : BitVec 9) : Buffer Inputs State (BitVec 8) where
  step := posedge divisor
  put _ s := completed s
  take := fetched
  held := unread

/-- A byte that completes when `rxdata` is free is not lost. -/
theorem rx_conserves (valid : i.rx_rd_strobe_onset = true → s.rx.rx_char_ready = true)
    (room : s.rx.got_new_char = true → s.rx.rx_char_ready = false) : (rxBuffer divisor).Conserves i s := by
  change unread s ++ completed s = fetched i s ++ unread (posedge divisor i s)
  cases onset : i.rx_rd_strobe_onset with
  | true =>
    have got : s.rx.got_new_char = false :=
      Bool.eq_false_iff.mpr fun full => nomatch (valid onset).symm.trans (room full)
    simp [unread, completed, fetched, rx_char_ready_step, onset, got, valid onset]
  | false =>
    cases got : s.rx.got_new_char with
    | true => simp [unread, completed, fetched, rx_char_ready_step, rx_data_step, onset, got, room got]
    | false => simp [unread, completed, fetched, rx_char_ready_step, rx_data_step, onset, got]

theorem rx_keeps (quiet : i.status_wr_strobe = false)
    (valid : i.rx_rd_strobe_onset = true → s.rx.rx_char_ready = true)
    (room : s.rx.got_new_char = true → s.rx.rx_char_ready = false) :
    (rxBuffer divisor).Keeps (·.rx.rx_overrun) i s := by
  refine ⟨?_, rx_conserves valid room⟩
  change (posedge divisor i s).rx.rx_overrun = s.rx.rx_overrun
  rw [rx_overrun_step quiet, if_neg]
  rw [Bool.and_eq_true_iff]
  exact fun both => nomatch (room both.1).symm.trans both.2

/-- Otherwise the unread byte is lost, or the new one if the other is read just then. -/
theorem rx_drops (divisor : BitVec 9) (i : Inputs) (got : s.rx.got_new_char = true) (full : s.rx.rx_char_ready = true) :
    (rxBuffer divisor).Drops i s := by
  have held : unread s ++ completed s = [s.rx.rx_data, s.rx.raw_data_in] := by simp [unread, completed, got, full]
  change fetched i s ++ unread (posedge divisor i s) <+ unread s ++ completed s ∧
    (fetched i s ++ unread (posedge divisor i s)).length < (unread s ++ completed s).length
  rw [held]
  cases onset : i.rx_rd_strobe_onset with
  | false =>
    have left : fetched i s ++ unread (posedge divisor i s) = [s.rx.raw_data_in] := by
      simp [fetched, unread, rx_char_ready_step, rx_data_step, onset, got]
    rw [left]
    exact ⟨(List.Sublist.refl _).cons _, by simp⟩
  | true =>
    have left : fetched i s ++ unread (posedge divisor i s) = [s.rx.rx_data] := by
      simp [fetched, unread, rx_char_ready_step, onset]
    rw [left]
    exact ⟨((List.Sublist.refl []).cons _).cons_cons _, by simp⟩

/-- With reads of unread bytes only, nothing that came in is read twice. -/
theorem rx_sublist (valid : i.rx_rd_strobe_onset = true → s.rx.rx_char_ready = true) :
    (rxBuffer divisor).Conserves i s ∨ (rxBuffer divisor).Drops i s := by
  by_cases both : s.rx.got_new_char = true ∧ s.rx.rx_char_ready = true
  · exact .inr (rx_drops divisor i both.1 both.2)
  · exact .inl (rx_conserves valid fun got => Bool.eq_false_iff.mpr fun full => both ⟨got, full⟩)

theorem rx_conserves_iff (valid : i.rx_rd_strobe_onset = true → s.rx.rx_char_ready = true) :
    (rxBuffer divisor).Conserves i s ↔ (s.rx.got_new_char = true → s.rx.rx_char_ready = false) := by
  refine ⟨fun conserves got => Bool.eq_false_iff.mpr fun full => ?_, rx_conserves valid⟩
  have shorter := (rx_drops divisor i got full).2
  rw [Buffer.Conserves] at conserves
  rw [conserves] at shorter
  exact absurd shorter (Nat.lt_irrefl _)

theorem rx_accounts (divisor : BitVec 9) (quiet : i.status_wr_strobe = false)
    (valid : i.rx_rd_strobe_onset = true → s.rx.rx_char_ready = true) :
    (rxBuffer divisor).Keeps (·.rx.rx_overrun) i s ∨ (rxBuffer divisor).Loses (·.rx.rx_overrun) i s := by
  by_cases both : s.rx.got_new_char = true ∧ s.rx.rx_char_ready = true
  · refine .inr ⟨?_, rx_drops divisor i both.1 both.2⟩
    change (posedge divisor i s).rx.rx_overrun = true
    rw [rx_overrun_step quiet, both.1, both.2]
    rfl
  · exact .inl (rx_keeps quiet valid fun got => Bool.eq_false_iff.mpr fun full => both ⟨got, full⟩)

end Receiver

end Dspc.SystemUart
