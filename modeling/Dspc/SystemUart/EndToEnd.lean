import Dspc.SystemUart.Link
import Dspc.SystemUart.Software

namespace Dspc.SystemUart
open Vhdl RegisterIo
open scoped List

section Parts

variable (divisor : BitVec 9) (w : List Slot)

/-- What the transmitter gets in cycles of the device. -/
def txCycles (s : State) (u : List Inputs) : List Tx.Inputs :=
  trace (fun i s => [txInputs divisor i s]) (fun i s => some (posedge divisor i s)) s u

/-- What it gets in the cycles since reset. -/
def txTrace : List Tx.Inputs := txCycles divisor reset (cycles w)

def rxTrace : List Rx.Inputs := (cycles w).map (rxInputs divisor)

/-- The line in the cycles since reset. -/
def txd : List Bool := trace (fun _ s => [s.tx.txd]) (fun i s => some (posedge divisor i s)) reset (cycles w)

theorem state_tx : (state divisor w).tx = run Tx.posedge Tx.reset (txTrace divisor w) := by
  rw [state_eq]
  exact run_proj State.tx (txInputs divisor) Tx.posedge (fun _ _ => rfl) reset (cycles w)

theorem length_txCycles (s : State) (u : List Inputs) : (txCycles divisor s u).length = u.length :=
  length_trace _ _ _ u

theorem txTrace_append (w v : List Slot) :
    txTrace divisor (w ++ v) = txTrace divisor w ++ txCycles divisor (state divisor w) (v.flatMap inputs) := by
  rw [txTrace, txCycles, cycles, List.flatMap_append, ← List.cons_append, trace_append (run?_pure _ _ _), state_eq]
  rfl

theorem txd_eq : txd divisor w = Tx.txds Tx.reset (txTrace divisor w) :=
  trace_proj State.tx (txInputs divisor) Tx.posedge (fun _ _ => rfl) (fun _ s => [s.txd]) reset (cycles w)

theorem sent_eq : sent divisor w = Tx.sent Tx.reset (txTrace divisor w) :=
  trace_proj State.tx (txInputs divisor) Tx.posedge (fun _ _ => rfl) Tx.sends reset (cycles w)

/-- The data bits of a character. -/
def dataBits (c : BitVec 10) : BitVec 8 := c.extractLsb' 1 8

theorem dataBits_frame (b : BitVec 8) : dataBits (frame b) = b := by
  apply BitVec.eq_of_getLsbD_eq
  intro k inside
  simp only [dataBits, frame, BitVec.getLsbD_extractLsb', BitVec.getLsbD_append]
  rw [decide_eq_true inside, Bool.true_and, if_neg (by omega), if_pos (by omega), Nat.add_sub_cancel_left]

theorem map_dataBits_frame (bytes : List (BitVec 8)) : (bytes.map frame).map dataBits = bytes := by
  simp only [List.map_map, Function.comp_def, dataBits_frame, List.map_id']

theorem arrivals_eq : arrivals divisor w = (Rx.characters Rx.reset (rxTrace divisor w)).map dataBits := by
  have commutes (i : Inputs) (s : State) : (posedge divisor i s).rx = Rx.posedge (rxInputs divisor i) s.rx := rfl
  have parts := trace_proj State.rx (fun i _ => rxInputs divisor i) Rx.posedge commutes
    (fun _ r => (Rx.received r).map dataBits) reset (cycles w)
  rw [trace_map] at parts
  rw [Rx.characters, map_trace]
  have same (s : State) : (Rx.received s.rx).map dataBits = completed s := by
    unfold completed Rx.received
    split <;> rfl
  refine Eq.trans ?_ parts
  simp only [same]
  rfl

end Parts

/-- Two boards on one clock and one reset: the `txd` of the first is the `rxd` of the second,
behind its synchronizer. -/
structure Connected (divisor : BitVec 9) (altera_std_synchronizer : List Bool → List Bool) (a b : List Slot) :
    Prop where
  three : 3 ≤ divisor.toNat
  depth : ∀ line, altera_std_synchronizer line = ([false, false] ++ line).take line.length
  rxd : (cycles b).map (·.sync_rxd) = altera_std_synchronizer (txd divisor a)

section Connected

variable {divisor : BitVec 9} {altera_std_synchronizer : List Bool → List Bool} {a b : List Slot}

theorem txTrace_divisor : ∀ i ∈ txTrace divisor a, i.baud_divisor = divisor := by
  have along : Along (posedge divisor) (fun i s => ∀ e ∈ [txInputs divisor i s], e.baud_divisor = divisor) reset
      (cycles a) := by
    refine along_of_invariant (I := fun _ => True) (fun i _ s _ => ⟨fun e member => ?_, trivial⟩) trivial
    rw [List.mem_singleton.mp member]
    rfl
  exact along_forall.mp along

/-- The break bit of `control` stays clear when nobody sets it. -/
theorem txTrace_unbroken (unbroken : ∀ x ∈ a, ∀ data, x.op = .wr 3 data → data.getLsbD 9 = false) :
    ∀ i ∈ txTrace divisor a, i.do_force_break = false := by
  have strobe (op : Op) (begins x : Bool) (clear : ∀ data, op = .wr 3 data → data.getLsbD 9 = false) :
      (cycle (request op) begins x).control_wr_strobe = true →
        (cycle (request op) begins x).writedata.getLsbD 9 = false := by
    cases op with
    | wr reg data =>
      intro writes
      have control : reg = 3 := by simpa [Inputs.control_wr_strobe, cycle, request] using writes
      have bit := clear data (by rw [control])
      simpa [cycle, request] using bit
    | _ => simp [Inputs.control_wr_strobe, cycle, request]
  have step (i : Inputs) (s : State) (clear : i.control_wr_strobe = true → i.writedata.getLsbD 9 = false)
      (still : s.do_force_break = false) : (posedge divisor i s).do_force_break = false := by
    unfold State.do_force_break at still ⊢
    cases writes : i.control_wr_strobe with
    | false => simpa [posedge, writes] using still
    | true => simpa [posedge, writes] using clear writes
  have along : Along (posedge divisor)
      (fun i _ => i.control_wr_strobe = true → i.writedata.getLsbD 9 = false) reset (cycles a) := by
    refine along_session (by simp [Inputs.control_wr_strobe, cycle, request])
      (along_of_invariant (I := fun _ => True) (fun x member s _ => ⟨?_, trivial⟩) trivial)
    exact along_inputs (fun _ => strobe _ _ _ (unbroken x member)) (fun _ => strobe _ _ _ (unbroken x member))
      (fun _ => strobe _ _ _ (unbroken x member))
  refine along_forall.mp ((along.and_invariant step rfl).mono ?_)
  intro i _ s here e member
  rw [List.mem_singleton.mp member]
  exact here.2

section Unbroken

variable (connected : Connected divisor altera_std_synchronizer a b)
  (unbroken : ∀ x ∈ a, ∀ data, x.op = .wr 3 data → data.getLsbD 9 = false)
include connected unbroken

theorem Connected.wired : Wired divisor altera_std_synchronizer (txTrace divisor a) (rxTrace divisor b) where
  three := connected.three
  tx_divisor := txTrace_divisor
  rx_divisor := by
    intro i member
    obtain ⟨j, _, rfl⟩ := List.mem_map.mp member
    rfl
  unbroken := txTrace_unbroken unbroken
  depth := connected.depth
  rxd := by
    rw [← txd_eq, ← connected.rxd, rxTrace, List.map_map]
    rfl

theorem Connected.arrivals_sent : arrivals divisor b <+: sent divisor a := by
  have ahead : Rx.characters Rx.reset (rxTrace divisor b) <+: (Tx.sent Tx.reset (txTrace divisor a)).map frame :=
    (List.prefix_append _ _).trans (connected.wired unbroken).arrived_sent
  have bytes := ahead.map dataBits
  rwa [map_dataBits_frame, ← sent_eq, ← arrivals_eq] at bytes

/-- What is sent when TMT is set has arrived seven cycles later. -/
theorem Connected.sent_arrived {a₁ a₂ : List Slot} (cut : a = a₁ ++ a₂)
    (empty : (state divisor a₁).tx.tx_shift_empty = true) (later : 7 ≤ (a₂.flatMap inputs).length) :
    sent divisor a₁ <+: arrivals divisor b := by
  have parts := txTrace_append divisor a₁ a₂
  rw [← cut] at parts
  have all : (Tx.sent Tx.reset (txTrace divisor a₁)).map frame <+: Rx.characters Rx.reset (rxTrace divisor b) := by
    refine (connected.wired unbroken).characters_all parts ?_ ?_
    · rw [length_txCycles]
      exact later
    · rw [← state_tx]
      exact empty
  have bytes := all.map dataBits
  rwa [map_dataBits_frame, ← sent_eq, ← arrivals_eq] at bytes

/-- Whatever the first board does, the second one reads nothing else than what the first one
wrote, in its order and each byte once. -/
theorem Connected.reads_writes (polls : Polls 7 rxdata (log divisor b)) :
    (log divisor b).flatMap rxdata <+ (log divisor a).flatMap txdata :=
  calc (log divisor b).flatMap rxdata
    _ <+ (log divisor b).flatMap rxdata ++ unread (state divisor b) := List.sublist_append_left _ _
    _ <+ arrivals divisor b := read_sublist polls
    _ <+ sent divisor a := (connected.arrivals_sent unbroken).sublist
    _ <+ sent divisor a ++ pending (state divisor a) := List.sublist_append_left _ _
    _ <+ (log divisor a).flatMap txdata := sent_sublist a

end Unbroken

/-- When TMT and TRDY are set, everything that was written is sent. -/
theorem pending_drained (three : 3 ≤ divisor.toNat) (empty : (state divisor a).tx.tx_shift_empty = true)
    (ready : (state divisor a).tx.tx_ready = true) : pending (state divisor a) = [] := by
  rw [state_tx] at empty
  have idle := Tx.run_idle (by omega) txTrace_divisor empty
  have phase : Tx.InPhase divisor (run Tx.posedge Tx.reset (txTrace divisor a)) _ :=
    (Tx.run_inPhase (by omega) txTrace_divisor).1
  rw [idle, ← state_tx] at phase
  have rests : (state divisor a).tx.do_load_shifter = false := phase.2.1
  simp [pending, ready, rests]

theorem polls_left {bit : Nat} {data : Access (BitVec 3) (BitVec 32) → List (BitVec 8)} {a₁ a₂ : List Slot}
    (polls : Polls bit data (log divisor (a₁ ++ a₂))) : Polls bit data (log divisor a₁) := by
  intro none
  refine polls ?_
  rw [log, trace_append (run?_pure _ _ a₁), run?_append, ← log, none, Option.bind_none]

/-- What polling software has written when TMT and TRDY are set has arrived seven cycles later. -/
theorem Connected.written_arrived (connected : Connected divisor altera_std_synchronizer a b)
    (unbroken : ∀ x ∈ a, ∀ data, x.op = .wr 3 data → data.getLsbD 9 = false)
    (trdy : Polls 6 txdata (log divisor a)) {a₁ a₂ : List Slot} (cut : a = a₁ ++ a₂)
    (empty : (state divisor a₁).tx.tx_shift_empty = true) (ready : (state divisor a₁).tx.tx_ready = true)
    (later : 7 ≤ (a₂.flatMap inputs).length) : (log divisor a₁).flatMap txdata <+: arrivals divisor b := by
  have arrived := connected.sent_arrived unbroken cut empty later
  rw [cut] at trdy
  rwa [← (polled_sent (polls_left trdy)).1, pending_drained connected.three empty ready, List.append_nil]

/-- With software on both boards that waits for TRDY and RRDY, and has read each byte when the
next one is complete, the bytes arrive, each of them once and in their order; those that are
sent when TMT is set have arrived seven cycles later. -/
theorem Connected.delivered (connected : Connected divisor altera_std_synchronizer a b)
    (unbroken : ∀ x ∈ a, ∀ data, x.op = .wr 3 data → data.getLsbD 9 = false)
    (trdy : Polls 6 txdata (log divisor a)) (rrdy : Polls 7 rxdata (log divisor b))
    (inTime : Along (posedge divisor) (fun _ s => s.rx.got_new_char = true → s.rx.rx_char_ready = false) reset
      (cycles b)) :
    (log divisor b).flatMap rxdata ++ unread (state divisor b) <+: (log divisor a).flatMap txdata ∧
      ∀ a₁ a₂, a = a₁ ++ a₂ → (state divisor a₁).tx.tx_shift_empty = true →
        (state divisor a₁).tx.tx_ready = true → 7 ≤ (a₂.flatMap inputs).length →
        (log divisor a₁).flatMap txdata <+: (log divisor b).flatMap rxdata ++ unread (state divisor b) := by
  rw [(read_all_iff rrdy).mpr inTime]
  constructor
  · rw [← (polled_sent trdy).1]
    exact (connected.arrivals_sent unbroken).trans (List.prefix_append _ _)
  · intro a₁ a₂ cut empty ready later
    exact connected.written_arrived unbroken trdy cut empty ready later

end Connected

section Byte

def synchronizer (line : List Bool) : List Bool := ([false, false] ++ line).take line.length

def high (op : Op) : Slot := ⟨op, true, true⟩

/-- A byte is written when TRDY is set. -/
def writer : List Slot := [high (.rd 2), high (.wr 1 0x41)] ++ List.replicate 120 (high .idle)

/-- The line comes in, and the byte is read when RRDY is set. -/
def reader : List Slot :=
  (((synchronizer (txd 4 writer)).drop 1).take 120).map (fun x => ⟨.idle, x, x⟩) ++ [high (.rd 2), high (.rd 0)]

theorem connected_writer : Connected 4 synchronizer writer reader := ⟨by decide, fun _ => rfl, by decide +kernel⟩

theorem writer_unbroken : ∀ x ∈ writer, ∀ data, x.op = .wr 3 data → data.getLsbD 9 = false := by
  simp [writer, high]

theorem reader_quiet : ∀ x ∈ reader, ∀ data, x.op ≠ .wr 2 data := by
  intro x member
  rcases List.mem_append.mp member with line | reads
  · obtain ⟨y, _, rfl⟩ := List.mem_map.mp line
    exact nofun
  · simp only [List.mem_cons, List.not_mem_nil, or_false] at reads
    rcases reads with rfl | rfl <;> exact nofun

theorem polling_accounts_byte :
    sent 4 writer ++ pending (state 4 writer) = (log 4 writer).flatMap txdata ∧
      (log 4 reader).flatMap rxdata ++ unread (state 4 reader) <+ arrivals 4 reader :=
  ⟨((polling_accounts 4 writer).1 (by decide +kernel)).1, ((polling_accounts 4 reader).2 (by decide +kernel)).1⟩

theorem reads_writes_byte : (log 4 reader).flatMap rxdata <+ (log 4 writer).flatMap txdata :=
  connected_writer.reads_writes writer_unbroken (by decide +kernel)

theorem delivered_byte :
    (log 4 (writer.take 60)).flatMap txdata <+: (log 4 reader).flatMap rxdata ++ unread (state 4 reader) :=
  (connected_writer.delivered writer_unbroken (by decide +kernel) (by decide +kernel) (by decide +kernel)).2
    (writer.take 60) (writer.drop 60) (List.take_append_drop 60 writer).symm (by decide +kernel)
    (by decide +kernel) (by decide +kernel)

end Byte

end Dspc.SystemUart
