import Dspc.RegisterIo
import Dspc.SystemUart.Top

namespace Dspc.SystemUart
open Vhdl RegisterIo

/-- What a master asks of the slave translator. -/
structure Request where
  uav_read : Bool
  uav_write : Bool
  uav_address : BitVec 3
  uav_writedata : BitVec 32

/-- `altera_merlin_slave_translator` with the parameters of this slave: one wait state for
reads and for writes, no set-up and no hold cycles. -/
structure Translator where
  wait_latency_counter : BitVec 2
  waitrequest_reset_override : Bool
  end_begintransfer : Bool
  av_readdata_pre : BitVec 16
  read_latency_shift_reg : Bool

namespace Translator

def reset : Translator where
  wait_latency_counter := 0
  waitrequest_reset_override := true
  end_begintransfer := false
  av_readdata_pre := 0
  read_latency_shift_reg := false

def uav_waitrequest (t : Translator) : Bool := t.wait_latency_counter != 1 || t.waitrequest_reset_override

def av_begintransfer (q : Request) (t : Translator) : Bool := (q.uav_write || q.uav_read) && !t.end_begintransfer

def av_write (q : Request) (t : Translator) : Bool := q.uav_write && t.wait_latency_counter ≤ 1

def uav_readdata (t : Translator) : BitVec 32 := t.av_readdata_pre.setWidth 32

def uav_readdatavalid (t : Translator) : Bool := t.read_latency_shift_reg

def posedge (q : Request) (av_readdata : BitVec 16) (t : Translator) : Translator where
  wait_latency_counter :=
    if !t.uav_waitrequest || t.waitrequest_reset_override then 0
    else if q.uav_read || q.uav_write then t.wait_latency_counter + 1
    else 0
  waitrequest_reset_override := false
  end_begintransfer :=
    if t.av_begintransfer q && t.uav_waitrequest && !t.waitrequest_reset_override then true
    else if t.uav_waitrequest then t.end_begintransfer
    else false
  av_readdata_pre := av_readdata
  read_latency_shift_reg := q.uav_read && !t.uav_waitrequest && !t.waitrequest_reset_override

/-- No transfer is under way. -/
structure Rests (t : Translator) : Prop where
  counter : t.wait_latency_counter = 0
  override : t.waitrequest_reset_override = false
  begin : t.end_begintransfer = false

end Translator

structure System where
  translator : Translator
  uart : State

def System.reset : System where
  translator := Translator.reset
  uart := SystemUart.reset

/-- The signals between the translator and the slave. -/
def slaveInputs (q : Request) (sync_rxd : Bool) (t : Translator) : Inputs where
  address := q.uav_address
  begintransfer := t.av_begintransfer q
  chipselect := q.uav_read || q.uav_write
  read_n := !q.uav_read
  sync_rxd := sync_rxd
  write_n := !t.av_write q
  writedata := q.uav_writedata.setWidth 16

def System.posedge (divisor_constant : BitVec 9) (q : Request) (sync_rxd : Bool) (s : System) : System where
  translator := s.translator.posedge q s.uart.regs.readdata
  uart := SystemUart.posedge divisor_constant (slaveInputs q sync_rxd s.translator) s.uart

/-- The accesses of the processor to the device, between which it may do other things. -/
inductive Op
  | idle
  | rd (reg : BitVec 3)
  | wr (reg : BitVec 3) (data : BitVec 32)

def request : Op → Request
  | .idle => { uav_read := false, uav_write := false, uav_address := 0, uav_writedata := 0 }
  | .rd reg => { uav_read := true, uav_write := false, uav_address := reg, uav_writedata := 0 }
  | .wr reg data => { uav_read := false, uav_write := true, uav_address := reg, uav_writedata := data }

/-- An access, and `rxd` in the cycles that it takes. -/
structure Slot where
  op : Op
  first : Bool
  second : Bool

def cycle (q : Request) (begintransfer : Bool) (sync_rxd : Bool) : Inputs where
  address := q.uav_address
  begintransfer := begintransfer
  chipselect := q.uav_read || q.uav_write
  read_n := !q.uav_read
  sync_rxd := sync_rxd
  write_n := !q.uav_write
  writedata := q.uav_writedata.setWidth 16

/-- What the slave sees of an access. -/
def inputs (a : Slot) : List Inputs :=
  match a.op with
  | .idle => [cycle (request a.op) false a.first]
  | _ => [cycle (request a.op) true a.first, cycle (request a.op) false a.second]

namespace System

/-- The first cycle after reset, in which the synchronizer of `rxd` has its reset value. -/
def start (divisor_constant : BitVec 9) : System := reset.posedge divisor_constant (request .idle) false

/-- A request is held while `waitrequest` is '1', which is one cycle. -/
def perform (divisor_constant : BitVec 9) (a : Slot) (s : System) : System :=
  match a.op with
  | .idle => s.posedge divisor_constant (request .idle) a.first
  | op => (s.posedge divisor_constant (request op) a.first).posedge divisor_constant (request op) a.second

/-- The access as the processor sees it. -/
def access (divisor_constant : BitVec 9) (a : Slot) (s : System) : List (Access (BitVec 3) (BitVec 32)) :=
  match a.op with
  | .idle => []
  | .rd reg => [.rd reg (s.perform divisor_constant a).translator.uav_readdata]
  | .wr reg data => [.wr reg data]

end System

section Translator

variable {divisor_constant : BitVec 9} {s : System} {q : Request} {x y : Bool}

theorem system_start : (System.start divisor_constant).translator.Rests ∧
    (System.start divisor_constant).uart = posedge divisor_constant (cycle (request .idle) false false) reset :=
  ⟨⟨rfl, rfl, rfl⟩, rfl⟩

theorem system_idle (rests : s.translator.Rests) :
    (s.posedge divisor_constant (request .idle) x).translator.Rests ∧
      (s.posedge divisor_constant (request .idle) x).uart =
        posedge divisor_constant (cycle (request .idle) false x) s.uart := by
  obtain ⟨counter, override, begin⟩ := rests
  refine ⟨⟨?_, rfl, ?_⟩, ?_⟩
  · simp [System.posedge, Translator.posedge, request]
  · simp [System.posedge, Translator.posedge, Translator.uav_waitrequest, Translator.av_begintransfer, request,
      counter, begin]
  · simp [System.posedge, slaveInputs, cycle, request, Translator.av_begintransfer, Translator.av_write]

/-- The translator in the second cycle of a transfer. -/
structure Translator.Ends (t : Translator) : Prop where
  counter : t.wait_latency_counter = 1
  override : t.waitrequest_reset_override = false
  begin : t.end_begintransfer = true

theorem Translator.Rests.transfer {t : Translator} (rests : t.Rests) (some : (q.uav_write || q.uav_read) = true)
    (readdata : BitVec 16) :
    t.uav_waitrequest = true ∧ slaveInputs q x t = cycle q true x ∧ (t.posedge q readdata).Ends := by
  obtain ⟨counter, override, begin⟩ := rests
  have waits : t.uav_waitrequest = true := by simp [Translator.uav_waitrequest, counter]
  have begins : t.av_begintransfer q = true := by simp [Translator.av_begintransfer, some, begin]
  have asks : (q.uav_read || q.uav_write) = true := by rw [Bool.or_comm, some]
  refine ⟨waits, ?_, ?_, rfl, ?_⟩
  · simp [slaveInputs, cycle, begins, Translator.av_write, counter]
  · simp only [Translator.posedge, waits, override, asks, counter]
    rfl
  · simp [Translator.posedge, waits, override, begins]

theorem Translator.Ends.transfer {t : Translator} (ends : t.Ends) (readdata : BitVec 16) :
    t.uav_waitrequest = false ∧ slaveInputs q x t = cycle q false x ∧ (t.posedge q readdata).Rests ∧
      (t.posedge q readdata).uav_readdatavalid = q.uav_read := by
  obtain ⟨counter, override, begin⟩ := ends
  have goes : t.uav_waitrequest = false := by simp [Translator.uav_waitrequest, counter, override]
  have begun : t.av_begintransfer q = false := by simp [Translator.av_begintransfer, begin]
  refine ⟨goes, ?_, ⟨?_, rfl, ?_⟩, ?_⟩
  · simp [slaveInputs, cycle, begun, Translator.av_write, counter]
  · simp [Translator.posedge, goes]
  · simp [Translator.posedge, goes, begun]
  · simp [Translator.posedge, Translator.uav_readdatavalid, goes, override]

/-- A request is held for the one cycle in which `waitrequest` is '1' and the one after
it, and the data read are those of the first of the two. -/
theorem system_transfer (rests : s.translator.Rests) (some : (q.uav_write || q.uav_read) = true) :
    let s' := s.posedge divisor_constant q x
    let s'' := s'.posedge divisor_constant q y
    s.translator.uav_waitrequest = true ∧ s'.translator.uav_waitrequest = false ∧ s''.translator.Rests ∧
      s''.uart = run (posedge divisor_constant) s.uart [cycle q true x, cycle q false y] ∧
      s''.translator.uav_readdatavalid = q.uav_read ∧
      s''.translator.uav_readdata = (s.uart.selected_read_data q.uav_address).setWidth 32 := by
  intro s' s''
  obtain ⟨waits, first, ends⟩ := rests.transfer (x := x) some s.uart.regs.readdata
  obtain ⟨goes, second, again, valid⟩ := ends.transfer (x := y) s'.uart.regs.readdata
  have begun : s'.uart = posedge divisor_constant (cycle q true x) s.uart := by
    simp only [s', System.posedge, first]
  refine ⟨waits, goes, again, ?_, valid, ?_⟩
  · have done : s''.uart = posedge divisor_constant (slaveInputs q y s'.translator) s'.uart := rfl
    rw [done, begun]
    exact congrArg (fun i => posedge divisor_constant i (posedge divisor_constant (cycle q true x) s.uart)) second
  · have pre : s''.translator.av_readdata_pre = s'.uart.regs.readdata := rfl
    rw [Translator.uav_readdata, pre, begun]
    rfl

end Translator

section Run

variable {s : System}

/-- What the slave sees of the accesses since reset. -/
def cycles (w : List Slot) : List Inputs := cycle (request .idle) false false :: w.flatMap inputs

theorem perform_rests (divisor_constant : BitVec 9) (rests : s.translator.Rests) (a : Slot) :
    (s.perform divisor_constant a).translator.Rests ∧
      (s.perform divisor_constant a).uart = run (posedge divisor_constant) s.uart (inputs a) := by
  obtain ⟨op, first, second⟩ := a
  cases op with
  | idle => exact system_idle rests
  | rd reg =>
    obtain ⟨_, _, again, done, _⟩ := system_transfer (q := request (.rd reg)) rests rfl
    exact ⟨again, done⟩
  | wr reg data =>
    obtain ⟨_, _, again, done, _⟩ := system_transfer (q := request (.wr reg data)) rests rfl
    exact ⟨again, done⟩

theorem access_rests (divisor_constant : BitVec 9) (rests : s.translator.Rests) (a : Slot) :
    s.access divisor_constant a =
      match a.op with
      | .idle => []
      | .rd reg => [.rd reg ((s.uart.selected_read_data reg).setWidth 32)]
      | .wr reg data => [.wr reg data] := by
  obtain ⟨op, first, second⟩ := a
  cases op with
  | idle => rfl
  | rd reg =>
    obtain ⟨_, _, _, _, _, data⟩ := system_transfer (q := request (.rd reg)) rests rfl
    exact congrArg (fun v => [Access.rd reg v]) data
  | wr reg data => rfl

theorem system_run (divisor_constant : BitVec 9) (w : List Slot) :
    (run (System.perform divisor_constant) (System.start divisor_constant) w).translator.Rests ∧
      (run (System.perform divisor_constant) (System.start divisor_constant) w).uart =
        run (posedge divisor_constant) reset (cycles w) := by
  induction w using List.reverseRecOn with
  | nil => exact system_start
  | append_singleton w a ih =>
    obtain ⟨rests, same⟩ := ih
    obtain ⟨rests', step⟩ := perform_rests divisor_constant rests a
    rw [run_append, run_cons, run_nil]
    refine ⟨rests', ?_⟩
    rw [step, same, cycles, cycles, List.flatMap_append, List.flatMap_singleton, ← List.cons_append, run_append]

end Run

end Dspc.SystemUart
