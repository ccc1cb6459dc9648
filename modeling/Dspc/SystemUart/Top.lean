import Dspc.SystemUart.Tx
import Dspc.SystemUart.Rx

namespace Dspc.SystemUart
open Vhdl

/-! The registers, and the module that joins them with the transmitter and the receiver. -/

/-- The bus, and `rxd` behind the synchronizer. -/
structure Inputs where
  address : BitVec 3
  begintransfer : Bool
  chipselect : Bool
  read_n : Bool
  sync_rxd : Bool
  write_n : Bool
  writedata : BitVec 16

namespace Inputs

variable (i : Inputs)

def rx_rd_strobe : Bool := i.chipselect && !i.read_n && i.address == 0
def tx_wr_strobe : Bool := i.chipselect && !i.write_n && i.address == 1
def status_wr_strobe : Bool := i.chipselect && !i.write_n && i.address == 2
def control_wr_strobe : Bool := i.chipselect && !i.write_n && i.address == 3

end Inputs

structure Regs where
  control_reg : BitVec 10
  d1_rx_char_ready : Bool
  d1_tx_ready : Bool
  irq : Bool
  readdata : BitVec 16
  tx_data : BitVec 8

structure State where
  tx : Tx.State
  rx : Rx.State
  regs : Regs

def reset : State where
  tx := Tx.reset
  rx := Rx.reset
  regs :=
    { control_reg := 0
      d1_rx_char_ready := false
      d1_tx_ready := false
      irq := false
      readdata := 0
      tx_data := 0 }

namespace State

variable (s : State)

def do_force_break : Bool := s.regs.control_reg.getLsbD 9
def ie_any_error : Bool := s.regs.control_reg.getLsbD 8
def ie_rx_char_ready : Bool := s.regs.control_reg.getLsbD 7
def ie_tx_ready : Bool := s.regs.control_reg.getLsbD 6
def ie_tx_shift_empty : Bool := s.regs.control_reg.getLsbD 5
def ie_tx_overrun : Bool := s.regs.control_reg.getLsbD 4
def ie_rx_overrun : Bool := s.regs.control_reg.getLsbD 3
def ie_break_detect : Bool := s.regs.control_reg.getLsbD 2
def ie_framing_error : Bool := s.regs.control_reg.getLsbD 1
def ie_parity_error : Bool := s.regs.control_reg.getLsbD 0

def any_error : Bool :=
  s.tx.tx_overrun || s.rx.rx_overrun || Rx.parity_error || s.rx.framing_error || s.rx.break_detect

def cts_status_bit : Bool := false
def dcts_status_bit : Bool := false
def eop_status_bit : Bool := false

def status_reg : BitVec 13 :=
  BitVec.ofBool eop_status_bit ++ BitVec.ofBool cts_status_bit ++ BitVec.ofBool dcts_status_bit ++ 0#1 ++
    BitVec.ofBool s.any_error ++ BitVec.ofBool s.rx.rx_char_ready ++ BitVec.ofBool s.tx.tx_ready ++
    BitVec.ofBool s.tx.tx_shift_empty ++ BitVec.ofBool s.tx.tx_overrun ++ BitVec.ofBool s.rx.rx_overrun ++
    BitVec.ofBool s.rx.break_detect ++ BitVec.ofBool s.rx.framing_error ++ BitVec.ofBool Rx.parity_error

def select (sel : Bool) (v : BitVec 16) : BitVec 16 := if sel then v else 0

def selected_read_data (address : BitVec 3) : BitVec 16 :=
  select (address == 0) (s.rx.rx_data.setWidth 16) ||| select (address == 1) (s.regs.tx_data.setWidth 16) |||
    select (address == 2) (s.status_reg.setWidth 16) ||| select (address == 3) (s.regs.control_reg.setWidth 16)

def qualified_irq : Bool :=
  s.ie_any_error && s.any_error || s.ie_tx_shift_empty && s.tx.tx_shift_empty || s.ie_tx_overrun && s.tx.tx_overrun ||
    s.ie_rx_overrun && s.rx.rx_overrun || s.ie_break_detect && s.rx.break_detect ||
    s.ie_framing_error && s.rx.framing_error || s.ie_parity_error && Rx.parity_error ||
    s.ie_rx_char_ready && s.rx.rx_char_ready || s.ie_tx_ready && s.tx.tx_ready

def dataavailable : Bool := s.regs.d1_rx_char_ready
def readyfordata : Bool := s.regs.d1_tx_ready

end State

/-- `divisor_constant` is 434 in the synthesized module and 4 in the simulated one. -/
def txInputs (divisor_constant : BitVec 9) (i : Inputs) (s : State) : Tx.Inputs where
  baud_divisor := divisor_constant
  begintransfer := i.begintransfer
  do_force_break := s.do_force_break
  status_wr_strobe := i.status_wr_strobe
  tx_data := s.regs.tx_data
  tx_wr_strobe := i.tx_wr_strobe

def rxInputs (divisor_constant : BitVec 9) (i : Inputs) : Rx.Inputs where
  baud_divisor := divisor_constant
  begintransfer := i.begintransfer
  rx_rd_strobe := i.rx_rd_strobe
  status_wr_strobe := i.status_wr_strobe
  sync_rxd := i.sync_rxd

def posedge (divisor_constant : BitVec 9) (i : Inputs) (s : State) : State where
  tx := Tx.posedge (txInputs divisor_constant i s) s.tx
  rx := Rx.posedge (rxInputs divisor_constant i) s.rx
  regs :=
    { control_reg := if i.control_wr_strobe then i.writedata.setWidth 10 else s.regs.control_reg
      d1_rx_char_ready := s.rx.rx_char_ready
      d1_tx_ready := s.tx.tx_ready
      irq := s.qualified_irq
      readdata := s.selected_read_data i.address
      tx_data := if i.tx_wr_strobe then i.writedata.setWidth 8 else s.regs.tx_data }

end Dspc.SystemUart
