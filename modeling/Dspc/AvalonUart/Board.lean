import Dspc.SystemUart.EndToEnd
import Dspc.AvalonUart.Control

namespace Dspc.AvalonUart
open Vhdl RegisterIo
open SystemUart (Slot txdata rxdata sent pending unread arrivals cycles posedge synchronizer txd)
open scoped List

/-! The driver on the processor of the board, with the device behind the bus. -/

/-- The characters that calls of `write` have taken. -/
def writes (w : List Event) : List (BitVec 8) := txBuffer.puts Machine.start w

/-- The characters that calls of `read` have given. -/
def reads (w : List Event) : List (BitVec 8) := rxBuffer.takes Machine.start w

section Driver

variable {w : List Event}

theorem takes_log (w : List Event) : txBuffer.takes Machine.start w = (log w).flatMap txdata := by
  rw [log, List.flatMap_cons, flatMap_trace]
  rfl

theorem puts_log (w : List Event) : rxBuffer.puts Machine.start w = (log w).flatMap rxdata := by
  rw [log, List.flatMap_cons, flatMap_trace]
  rfl

/-- Every character that was taken has gone to the device or is in the buffer. -/
theorem writes_account (w : List Event) : (log w).flatMap txdata ++ (machine w).sp.txHeld = writes w := by
  have along : Along Machine.step txBuffer.Conserves Machine.start w :=
    along_of_invariant (I := Machine.Valid) (fun e _ m valid => ⟨tx_conserves valid e, valid.step e⟩) valid_start
  rw [← takes_log]
  exact (txBuffer.conserved along).trans (List.nil_append _)

theorem reads_along (w : List Event) :
    Along Machine.step (fun e m => rxBuffer.Conserves e m ∨ rxBuffer.Drops e m) Machine.start w := by
  refine along_of_invariant (I := Machine.Valid) (fun e _ m valid => ⟨?_, valid.step e⟩) valid_start
  by_cases lost : (m.accesses e).flatMap rxdata ≠ [] ∧ ¬m.sp.RxRoom m.thread
  · exact .inr (rx_drops valid lost.1 lost.2)
  · exact .inl (rx_conserves valid fun some => not_not.mp fun full => lost ⟨some, full⟩)

/-- The interrupts of a run find room for the characters that they fetch. -/
def Roomy (w : List Event) : Prop :=
  Along Machine.step (fun e m => (m.accesses e).flatMap rxdata ≠ [] → m.sp.RxRoom m.thread) Machine.start w

instance (w : List Event) : Decidable (Roomy w) := inferInstanceAs (Decidable (Along _ _ _ _))

theorem reads_sublist (w : List Event) :
    reads w ++ (machine w).sp.rxHeld (machine w).thread <+ (log w).flatMap rxdata := by
  rw [← puts_log]
  exact rxBuffer.takes_sublist (reads_along w)

theorem reads_account (w : List Event) :
    reads w ++ (machine w).sp.rxHeld (machine w).thread = (log w).flatMap rxdata ↔ Roomy w := by
  have valid : Along Machine.step (fun _ m => m.Valid) Machine.start w :=
    along_of_invariant (I := Machine.Valid) (fun e _ m valid => ⟨valid, valid.step e⟩) valid_start
  rw [← puts_log]
  exact (rxBuffer.conserved_iff (reads_along w)).trans (valid.congr fun _ _ here => rx_conserves_iff here)

end Driver

/-- The accesses to the device are those of the driver. -/
def OnBoard (divisor : BitVec 9) (slots : List Slot) (events : List Event) : Prop :=
  SystemUart.log divisor slots = log events

instance (divisor : BitVec 9) (slots : List Slot) (events : List Event) : Decidable (OnBoard divisor slots events) :=
  inferInstanceAs (Decidable (_ = _))

section OnBoard

variable {divisor : BitVec 9} {slots : List Slot} {events : List Event}

/-- The device shows no change of CTS, as it has none. -/
theorem OnBoard.dcts (board : OnBoard divisor slots events) :
    ∀ v, .rd STATUS_REG v ∈ log events → v.getLsbD 10 = false := by
  intro v member
  rw [← board] at member
  exact SystemUart.status_log member 10 (by decide)

theorem OnBoard.unbroken (board : OnBoard divisor slots events) :
    ∀ a ∈ slots, ∀ data, a.op = .wr 3 data → data.getLsbD 9 = false := by
  intro a member data writes
  have logged : .wr 3 data ∈ SystemUart.log divisor slots := SystemUart.wr_mem_log member writes
  rw [board] at logged
  exact log_unbroken events _ logged data rfl

/-- Every character that a call of `write` has taken is sent, or pending in the device, or in
the buffer, in the order of the calls and whatever interrupts there were, and none was ever
overwritten. -/
theorem OnBoard.writes_account (board : OnBoard divisor slots events) :
    writes events = sent divisor slots ++ pending (SystemUart.state divisor slots) ++ (machine events).sp.txHeld ∧
      (SystemUart.state divisor slots).tx.tx_overrun = false := by
  have polls : SystemUart.Polls 6 txdata (SystemUart.log divisor slots) := by
    rw [board]
    exact polls_trdy board.dcts
  obtain ⟨account, clear⟩ := SystemUart.polled_sent polls
  refine ⟨?_, clear⟩
  rw [account, board, AvalonUart.writes_account]

theorem OnBoard.polls_rrdy (board : OnBoard divisor slots events) :
    SystemUart.Polls 7 rxdata (SystemUart.log divisor slots) := by
  rw [board]
  exact AvalonUart.polls_rrdy events

/-- The characters that came in and are not lost: given by calls of `read`, in the buffer, and
unread in the device. -/
def received (divisor : BitVec 9) (slots : List Slot) (events : List Event) : List (BitVec 8) :=
  reads events ++ (machine events).sp.rxHeld (machine events).thread ++ unread (SystemUart.state divisor slots)

theorem OnBoard.received_sublist (board : OnBoard divisor slots events) :
    received divisor slots events <+ arrivals divisor slots := by
  have device := SystemUart.read_sublist board.polls_rrdy
  rw [board] at device
  exact ((reads_sublist events).append (List.Sublist.refl _)).trans device

/-- Each interrupt that fetches a character finds room for it, and comes before the next
one is complete. -/
def InTime (divisor : BitVec 9) (slots : List Slot) (events : List Event) : Prop :=
  Roomy events ∧ Along (posedge divisor)
    (fun _ s => s.rx.got_new_char = true → s.rx.rx_char_ready = false) SystemUart.reset (cycles slots)

instance (divisor : BitVec 9) (slots : List Slot) (events : List Event) : Decidable (InTime divisor slots events) :=
  inferInstanceAs (Decidable (_ ∧ Along _ _ _ _))

/-- Nothing that comes in is lost, with framing errors or without, if and only if the
interrupts are in time. -/
theorem OnBoard.received_all_iff (board : OnBoard divisor slots events) :
    received divisor slots events = arrivals divisor slots ↔ InTime divisor slots events := by
  rw [InTime, ← SystemUart.read_all_iff board.polls_rrdy, ← reads_account]
  have device := SystemUart.read_sublist board.polls_rrdy
  rw [board] at device ⊢
  have driver := reads_sublist events
  constructor
  · intro all
    have size := congrArg List.length all
    have bound := driver.length_le
    have bound' := device.length_le
    unfold received at size all
    rw [List.length_append] at size bound'
    have same := driver.eq_of_length (by omega)
    exact ⟨same, by rw [← same, all]⟩
  · rintro ⟨same, all⟩
    rw [received, same, all]

/-- A buffer that is empty, and a transmitter that is idle, have sent all that was written. -/
theorem OnBoard.writes_sent (board : OnBoard divisor slots events) (three : 3 ≤ divisor.toNat)
    (empty : (machine events).sp.txHeld = []) (idle : (SystemUart.state divisor slots).tx.tx_shift_empty = true)
    (ready : (SystemUart.state divisor slots).tx.tx_ready = true) : writes events = sent divisor slots := by
  have drained : pending (SystemUart.state divisor slots) = [] := SystemUart.pending_drained three idle ready
  rw [board.writes_account.1, drained, empty, List.append_nil, List.append_nil]

end OnBoard

/-- A call of `write`, and the interrupt that takes the character to the device. -/
def senderEvents : List Event :=
  [.write [0x41] false, .thread, .thread, .thread, .thread, .thread,
    .irq [.rd 2 0x60, .wr 2 0, .rd 2 0x60, .wr 1 0x41, .wr 3 0x880]]

def senderSlots : List Slot :=
  [.wr 3 0xC80, .wr 3 0xCC0, .rd 2, .wr 2 0, .rd 2, .wr 1 0x41, .wr 3 0x880].map SystemUart.high ++
    List.replicate 72 (SystemUart.high .idle)

theorem onBoard_sender : OnBoard 4 senderSlots senderEvents := by decide +kernel

/-- The line comes in, an interrupt fetches the character, and a call of `read` gives it. -/
def receiverEvents : List Event :=
  [.irq [.rd 2 0xE0, .wr 2 0, .rd 2 0xE0, .rd 0 0x41, .wr 3 0x880], .read 1 false, .thread, .thread, .thread, .thread,
    .thread, .thread]

def receiverSlots : List Slot :=
  ⟨.wr 3 0xC80, false, true⟩ ::
      (((synchronizer (txd 4 senderSlots)).drop 3).take 72).map (fun x => ⟨.idle, x, x⟩) ++
    [.rd 2, .wr 2 0, .rd 2, .rd 0, .wr 3 0x880, .wr 3 0x880].map SystemUart.high

theorem onBoard_receiver : OnBoard 4 receiverSlots receiverEvents := by decide +kernel

end Dspc.AvalonUart
