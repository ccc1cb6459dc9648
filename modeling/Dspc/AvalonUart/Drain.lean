import Dspc.SystemUart.Latency
import Dspc.AvalonUart.Wire

namespace Dspc.AvalonUart
open Vhdl RegisterIo
open SystemUart (Slot Silent txdata rxdata found sent pending)
open SystemUart.Tx (character)
open scoped List

/-! The buffer of the driver runs empty when its interrupts are served. -/

section Serve

variable {divisor : BitVec 9} {slots more : List Slot} {events : List Event} {sp sp' : State}
  {es : List (Access (BitVec 3) (BitVec 32))} {v : BitVec 32}

theorem found_status {s : SystemUart.State} {op : SystemUart.Op} (some : op ≠ .idle)
    (first : found s op <+: .rd STATUS_REG v :: es) : v = (s.selected_read_data 2).setWidth 32 := by
  cases op with
  | idle => exact absurd rfl some
  | rd reg =>
    have head := (List.cons_prefix_cons.mp first).1
    rw [Access.rd.injEq] at head
    rw [← head.2, head.1]
    rfl
  | wr reg data =>
    have head := (List.cons_prefix_cons.mp first).1
    cases head

/-- The status that comes first shows TRDY if it was set before. -/
theorem first_status (ready : (SystemUart.state divisor slots).tx.tx_ready = true)
    (first : SystemUart.log divisor (slots ++ more) = SystemUart.log divisor slots ++ .rd STATUS_REG v :: es) :
    v.getLsbD 6 = true := by
  induction more generalizing slots with
  | nil =>
    rw [List.append_nil, List.self_eq_append_right] at first
    exact absurd first (List.cons_ne_nil _ _)
  | cons a more ih =>
    rw [List.append_cons] at first
    have next : SystemUart.log divisor (slots ++ [a]) <+: SystemUart.log divisor (slots ++ [a] ++ more) :=
      SystemUart.log_append _ _
    rw [first, SystemUart.log_concat, List.prefix_append_right_inj] at next
    by_cases idle : a.op = .idle
    · have still : (SystemUart.state divisor (slots ++ [a])).tx.tx_ready = true := by
        rw [SystemUart.state_concat]
        exact SystemUart.tx_ready_slot (by rw [idle]; rfl) ready
      refine ih still ?_
      rw [first, SystemUart.log_concat, idle, found, List.append_nil]
    · rw [found_status idle next, SystemUart.status_read 6]
      exact ready

theorem fetches_tx (fetches : Fetches sp es sp') :
    sp'.tx_start = sp.tx_start ∧ sp'.tx_end = sp.tx_end ∧ sp'.flags = sp.flags := by
  cases fetches <;> exact ⟨rfl, rfl, rfl⟩

theorem transfers_some (flow : ¬nonzero (sp.flags &&& FC)) (some : sp.tx_start ≠ sp.tx_end)
    (transfers : Transfers sp es sp') : es.flatMap txdata ≠ [] := by
  cases transfers with
  | char => simp [txdata, TXDATA_REG, CONTROL_REG]
  | throttled _ throttle => exact absurd throttle flow
  | empty none => exact absurd none some

/-- An interrupt that finds TRDY set takes the first character out of the buffer. -/
theorem irq_serves (range : sp.InRange) (flow : ¬nonzero (sp.flags &&& FC))
    (runs : (altera_avalon_uart_irq sp).Runs (.rd STATUS_REG v :: es) sp') (trdy : v.getLsbD 6 = true) :
    sp'.txHeld = sp.txHeld.tail := by
  have held := irq_txHeld range runs
  rw [held]
  obtain ⟨_, _, ⟨_, none⟩ | ⟨_, _, c, _, one⟩⟩ := irq_tx runs
  · -- nothing is sent although there is room: the buffer is empty
    have empty : sp.tx_start = sp.tx_end := by
      by_contra waiting
      obtain ⟨status, dummy, es₁, sp₁, es₂, parts, receive, transmit⟩ := irq_runs runs
      have same : sp₁.tx_start = sp.tx_start ∧ sp₁.tx_end = sp.tx_end ∧ sp₁.flags = sp.flags := by
        rcases receive with ⟨_, rfl⟩ | ⟨_, fetches⟩
        · exact ⟨rfl, rfl, rfl⟩
        · exact fetches_tx fetches
      have shown : v = status := (Access.rd.inj (List.cons.inj parts).1).2
      have asked : nonzero (status &&& (STATUS_TRDY_MSK ||| STATUS_DCTS_MSK)) :=
        nonzero_and.mpr ⟨6, by decide, shown ▸ trdy⟩
      rcases transmit with ⟨quiet, _⟩ | ⟨_, transfers⟩
      · exact quiet asked
      · rw [← same.1, ← same.2.1] at waiting
        rw [← same.2.2] at flow
        rw [parts, List.flatMap_append] at none
        exact transfers_some flow waiting transfers (List.append_eq_nil_iff.mp none).2
    rw [State.txHeld, empty, (CircularBuffer.contents_eq_nil range.tx_end).mpr rfl, none, List.nil_append] at held
    rw [none, ← held]
    rfl
  · rw [one]
    rfl

end Serve

section Rounds

variable {divisor : BitVec 9} {slots s pause isr : List Slot} {events e other : List Event} {n : Nat}
  {es : List (Access (BitVec 3) (BitVec 32))} {sp : State}

/-- Nothing goes to the device, whatever the driver and its callers do. -/
structure Waits (divisor : BitVec 9) (slots : List Slot) (events : List Event) (pause : List Slot)
    (other : List Event) : Prop where
  board : OnBoard divisor (slots ++ pause) (events ++ other)
  silent : Silent pause

/-- Interrupts are served, with at least the time of a character before each of them. -/
inductive Serves (divisor : BitVec 9) (slots : List Slot) (events : List Event) :
    Nat → List Slot → List Event → Prop
  | start : Serves divisor slots events 0 slots events
  | round {n : Nat} {s pause isr : List Slot} {e other : List Event} {es : List (Access (BitVec 3) (BitVec 32))}
      {sp : State} (served : Serves divisor slots events n s e)
      (waits : Waits divisor s e pause other)
      (long : character divisor < (pause.flatMap SystemUart.inputs).length)
      (runs : (altera_avalon_uart_irq (machine (e ++ other)).sp).Runs es sp)
      (board : OnBoard divisor (s ++ pause ++ isr) (e ++ other ++ [.irq es])) :
      Serves divisor slots events (n + 1) (s ++ pause ++ isr) (e ++ other ++ [.irq es])

theorem writes_append (e other : List Event) : writes e <+: writes (e ++ other) := by
  rw [writes, writes, Buffer.puts_append]
  exact List.prefix_append _ _

theorem Waits.txdata_eq (board : OnBoard divisor s e) (waits : Waits divisor s e pause other) :
    (log (e ++ other)).flatMap txdata = (log e).flatMap txdata := by
  have same : (SystemUart.log divisor (s ++ pause)).flatMap txdata = (SystemUart.log divisor s).flatMap txdata :=
    SystemUart.log_silent waits.silent
  rwa [waits.board, board] at same

theorem irq_concat (runs : (altera_avalon_uart_irq (machine e).sp).Runs es sp) :
    (machine (e ++ [.irq es])).sp = sp ∧ log (e ++ [.irq es]) = log e ++ es := by
  have possible : (machine e).effect (.irq es) = some ⟨sp, (machine e).thread, es, [], []⟩ := by
    simp only [Machine.effect]
    rw [runs]
  have accesses : (machine e).accesses (.irq es) = es := by rw [Machine.accesses, possible, Option.elim_some]
  constructor
  · rw [machine, run_append, run_cons, run_nil]
    change ((machine e).step (.irq es)).sp = sp
    rw [Machine.step, possible, Option.elim_some]
  · rw [log, log, trace_concat (run?_pure _ _ e), List.cons_append]
    change _ :: (_ ++ (machine e).accesses (.irq es)) = _
    rw [accesses]

/-- Each interrupt takes one more character to the device, until none is left of those that had
been written before. -/
theorem Serves.drains (positive : 0 < divisor.toNat) (board : OnBoard divisor slots events)
    (serves : Serves divisor slots events n s e) : OnBoard divisor s e ∧ writes events <+: writes e ∧
      min (((log events).flatMap txdata).length + n) (writes events).length ≤ ((log e).flatMap txdata).length := by
  induction serves with
  | start => exact ⟨board, List.prefix_rfl, Nat.min_le_left _ _⟩
  | @round n s pause isr e other es sp served waits long runs last ih =>
    obtain ⟨before, ahead, count⟩ := ih
    obtain ⟨next, logged⟩ := irq_concat runs
    obtain ⟨status, dummy, es₁, sp₁, es₂, rfl, _⟩ := irq_runs runs
    have first : SystemUart.log divisor (s ++ pause ++ isr) = SystemUart.log divisor (s ++ pause) ++
        .rd STATUS_REG status :: ([.wr STATUS_REG 0, .rd STATUS_REG dummy] ++ es₁ ++ es₂) := by
      rw [last, logged, waits.board]
      rfl
    have ready := SystemUart.ready_later positive waits.silent long (w := s)
    have trdy := first_status ready first
    have range := (machine_valid (e ++ other)).range
    have taken := irq_serves range (machine_flow (e ++ other)) runs trdy
    have more := ahead.trans (writes_append e other)
    refine ⟨last, more.trans (writes_append _ _), ?_⟩
    have held := congrArg List.length (irq_txHeld range runs)
    have account := congrArg List.length (AvalonUart.writes_account (e ++ other))
    have written := more.length_le
    rw [waits.txdata_eq before] at account
    rw [List.length_append, taken, List.length_tail] at held
    rw [List.length_append] at account
    rw [logged, List.flatMap_append, List.length_append, waits.txdata_eq before]
    omega

/-- What had been written is at the device when there were as many interrupts as the buffer
held characters. -/
theorem Serves.all (positive : 0 < divisor.toNat) (board : OnBoard divisor slots events)
    (serves : Serves divisor slots events n s e) (enough : (machine events).sp.txHeld.length ≤ n) :
    OnBoard divisor s e ∧ writes events <+: (log e).flatMap txdata := by
  obtain ⟨after, ahead, count⟩ := serves.drains positive board
  have account := congrArg List.length (AvalonUart.writes_account events)
  rw [List.length_append] at account
  have part : (log e).flatMap txdata <+: writes e := by
    rw [← AvalonUart.writes_account e]
    exact List.prefix_append _ _
  exact ⟨after, List.prefix_of_prefix_length_le ahead part (by omega)⟩

end Rounds

section Drivers

variable {divisor : BitVec 9} {altera_std_synchronizer : List Bool → List Bool} {a b slots s pause later : List Slot}
  {aEvents bEvents events e other : List Event} {n : Nat}

end Drivers

section Character

end Character

end Dspc.AvalonUart
