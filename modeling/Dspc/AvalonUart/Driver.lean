import Dspc.RegisterIo

namespace Dspc.AvalonUart
open RegisterIo

/-! The interrupt-driven driver of the device in the board support package. -/

def RXDATA_REG : BitVec 3 := 0
def TXDATA_REG : BitVec 3 := 1
def STATUS_REG : BitVec 3 := 2
def CONTROL_REG : BitVec 3 := 3

def STATUS_PE_MSK : BitVec 32 := 0x1
def STATUS_FE_MSK : BitVec 32 := 0x2
def STATUS_TRDY_MSK : BitVec 32 := 0x40
def STATUS_RRDY_MSK : BitVec 32 := 0x80
def STATUS_DCTS_MSK : BitVec 32 := 0x400
def STATUS_CTS_MSK : BitVec 32 := 0x800

def CONTROL_TRDY_MSK : BitVec 32 := 0x40
def CONTROL_RRDY_MSK : BitVec 32 := 0x80
def CONTROL_DCTS_MSK : BitVec 32 := 0x400
def CONTROL_RTS_MSK : BitVec 32 := 0x800

def BUF_LEN : Nat := 64
def BUF_MSK : BitVec 32 := 63

/-- Flags: the baud rate is fixed, and the device uses flow control. -/
def FB : BitVec 32 := 0x1
def FC : BitVec 32 := 0x2

structure State where
  ctrl : BitVec 32
  rx_start : BitVec 32
  rx_end : BitVec 32
  tx_start : BitVec 32
  tx_end : BitVec 32
  flags : BitVec 32
  rx_buf : Vector (BitVec 8) BUF_LEN
  tx_buf : Vector (BitVec 8) BUF_LEN

abbrev Io := Prog (BitVec 3) (BitVec 32)

/-- The condition of an `if` in C. -/
def nonzero (v : BitVec 32) : Prop := v ≠ 0

instance (v : BitVec 32) : Decidable (nonzero v) := inferInstanceAs (Decidable (_ ≠ _))

def load (buf : Vector (BitVec 8) BUF_LEN) (i : BitVec 32) : Option (BitVec 8) := buf.toList[i.toNat]?

def store (buf : Vector (BitVec 8) BUF_LEN) (i : BitVec 32) (x : BitVec 8) : Option (Vector (BitVec 8) BUF_LEN) :=
  if inside : i.toNat < BUF_LEN then some (buf.set i.toNat x inside) else none

/-- The next slot of a circular buffer. -/
def after_slot (i : BitVec 32) : BitVec 32 := (i + 1) &&& BUF_MSK

/-- The instance that `alt_sys_init` initializes. -/
def uart_0 : State where
  ctrl := 0
  rx_start := 0
  rx_end := 0
  tx_start := 0
  tx_end := 0
  flags := FB
  rx_buf := Vector.replicate BUF_LEN 0
  tx_buf := Vector.replicate BUF_LEN 0

def altera_avalon_uart_init (sp : State) : Io State := do
  let sp := { sp with ctrl := CONTROL_RTS_MSK ||| CONTROL_RRDY_MSK ||| CONTROL_DCTS_MSK }
  Prog.put CONTROL_REG sp.ctrl
  return sp

def altera_avalon_uart_rxirq (sp : State) (status : BitVec 32) : Io State :=
  if nonzero (status &&& (STATUS_PE_MSK ||| STATUS_FE_MSK)) then pure sp
  else do
    let next := after_slot sp.rx_end
    let data ← Prog.get RXDATA_REG
    let rx_buf ← Prog.ofOption (store sp.rx_buf sp.rx_end (data.setWidth 8))
    let sp := { sp with rx_buf := rx_buf, rx_end := next }
    -- the full buffer is noticed only behind the transfer
    if after_slot sp.rx_end = sp.rx_start then
      let sp := { sp with ctrl := sp.ctrl &&& ~~~CONTROL_RRDY_MSK }
      Prog.put CONTROL_REG sp.ctrl
      return sp
    else return sp

/-- The part of the transmit interrupt that works on the buffer. -/
def txirq_transfer (sp : State) (status : BitVec 32) : Io State :=
  if sp.tx_start ≠ sp.tx_end then
    if ¬nonzero (sp.flags &&& FC) ∨ nonzero (status &&& STATUS_CTS_MSK) then do
      let data ← Prog.ofOption (load sp.tx_buf sp.tx_start)
      Prog.put TXDATA_REG (data.setWidth 32)
      -- the source has `tx_start = (++tx_start) & MSK`, which the C standard leaves undefined
      return { sp with tx_start := after_slot sp.tx_start, ctrl := sp.ctrl ||| CONTROL_TRDY_MSK }
    else do
      let status ← Prog.get STATUS_REG
      if ¬nonzero (status &&& STATUS_CTS_MSK) then return { sp with ctrl := sp.ctrl &&& ~~~CONTROL_TRDY_MSK }
      else return sp
  else pure sp

def altera_avalon_uart_txirq (sp : State) (status : BitVec 32) : Io State := do
  let sp ← txirq_transfer sp status
  let sp := if sp.tx_start = sp.tx_end then
      { sp with ctrl := sp.ctrl &&& ~~~(CONTROL_TRDY_MSK ||| CONTROL_DCTS_MSK) } else sp
  Prog.put CONTROL_REG sp.ctrl
  return sp

def altera_avalon_uart_irq (sp : State) : Io State := do
  let status ← Prog.get STATUS_REG
  Prog.put STATUS_REG 0
  let _ ← Prog.get STATUS_REG
  let sp ← (if nonzero (status &&& STATUS_RRDY_MSK) then altera_avalon_uart_rxirq sp status else pure sp : Io State)
  if nonzero (status &&& (STATUS_TRDY_MSK ||| STATUS_DCTS_MSK)) then altera_avalon_uart_txirq sp status else pure sp

inductive Result
  | count (n : Nat)
  | wouldBlock
  deriving DecidableEq

/-- Where `altera_avalon_uart_write` is: at the test of its loop, before it enables the
interrupts to wait, waiting, before the store of a character and of `tx_end`, and before the
interrupts are enabled at its end. -/
inductive WritePc
  | test
  | enable
  | wait
  | fill
  | advance
  | leave
  deriving DecidableEq

/-- Where `altera_avalon_uart_read` is: at the test of the inner loop, before the load of a
character and the store of `rx_start`, at the test for an empty buffer, before it enables the
interrupts to wait, and before they are enabled at its end. -/
inductive ReadPc
  | test
  | fetch
  | advance
  | empty
  | enable
  | leave (read_would_block : Bool)
  deriving DecidableEq

/-- The code outside of interrupts, with what is left of the data to write, or the number
of those read. -/
inductive Thread
  | returned (r : Result)
  | writing (pc : WritePc) (len : Nat) (ptr : List (BitVec 8)) (no_block : Bool)
  | reading (pc : ReadPc) (len count : Nat) (block : Bool)
  | closing (no_block : Bool)
  deriving DecidableEq

/-- What a step of the code does: the accesses to the device, and the characters that it
takes from its caller or gives to it. -/
structure Effect where
  sp : State
  thread : Thread
  accesses : List (Access (BitVec 3) (BitVec 32))
  written : List (BitVec 8)
  read : List (BitVec 8)

/-- A step that touches nothing but the state of the driver. -/
def Effect.quiet (sp : State) (thread : Thread) : Effect := ⟨sp, thread, [], [], []⟩

/-- Interrupts are off while bits of `ctrl` are set. -/
def Effect.enabling (sp : State) (msk : BitVec 32) (thread : Thread) : Effect :=
  ⟨{ sp with ctrl := sp.ctrl ||| msk }, thread, [.wr CONTROL_REG (sp.ctrl ||| msk)], [], []⟩

def altera_avalon_uart_write (sp : State) (len : Nat) (ptr : List (BitVec 8)) (no_block : Bool) :
    WritePc → Option Effect
  | .test =>
    if ptr = [] then some (.quiet sp (.writing .leave len ptr no_block))
    else if after_slot sp.tx_end = sp.tx_start then
      some (.quiet sp (.writing (if no_block then .leave else .enable) len ptr no_block))
    else some (.quiet sp (.writing .fill len ptr no_block))
  | .enable => some (.enabling sp (CONTROL_TRDY_MSK ||| CONTROL_DCTS_MSK) (.writing .wait len ptr no_block))
  | .wait =>
    some (.quiet sp (.writing (if after_slot sp.tx_end = sp.tx_start then .wait else .fill) len ptr no_block))
  | .fill => do
    let c ← ptr.head?
    let tx_buf ← store sp.tx_buf sp.tx_end c
    return .quiet { sp with tx_buf := tx_buf } (.writing .advance len ptr no_block)
  | .advance =>
    some ⟨{ sp with tx_end := after_slot sp.tx_end }, .writing .test len ptr.tail no_block, [], ptr.take 1, []⟩
  | .leave =>
    some (.enabling sp (CONTROL_TRDY_MSK ||| CONTROL_DCTS_MSK) (.returned (.count (len - ptr.length))))

/-- The test of the outer loop of `altera_avalon_uart_read`. -/
def read_again (len count : Nat) : ReadPc := if count = 0 ∧ len ≠ 0 then .test else .leave false

def altera_avalon_uart_read (sp : State) (len count : Nat) (block : Bool) : ReadPc → Option Effect
  | .test =>
    some (.quiet sp (.reading (if count < len ∧ sp.rx_start ≠ sp.rx_end then .fetch else .empty) len count block))
  | .fetch => do
    let c ← load sp.rx_buf sp.rx_start
    return ⟨sp, .reading .advance len (count + 1) block, [], [], [c]⟩
  | .advance =>
    some (.quiet { sp with rx_start := after_slot sp.rx_start } (.reading .test len count block))
  | .empty =>
    if count = 0 ∧ sp.rx_start = sp.rx_end then
      some (.quiet sp (.reading (if block then .enable else .leave true) len count block))
    else some (.quiet sp (.reading (read_again len count) len count block))
  | .enable => some (.enabling sp CONTROL_RRDY_MSK (.reading (read_again len count) len count block))
  | .leave read_would_block =>
    some (.enabling sp CONTROL_RRDY_MSK (.returned (if read_would_block then .wouldBlock else .count count)))

def altera_avalon_uart_close (sp : State) (no_block : Bool) : Effect :=
  if sp.tx_start = sp.tx_end then .quiet sp (.returned (.count 0))
  else if no_block then .quiet sp (.returned .wouldBlock)
  else .quiet sp (.closing no_block)

def Thread.step (sp : State) : Thread → Option Effect
  | .returned _ => none
  | .writing pc len ptr no_block => altera_avalon_uart_write sp len ptr no_block pc
  | .reading pc len count block => altera_avalon_uart_read sp len count block pc
  | .closing no_block => some (altera_avalon_uart_close sp no_block)

end Dspc.AvalonUart
