import Dspc.AvalonUart.Board

namespace Dspc.AvalonUart
open Vhdl RegisterIo
open SystemUart (Slot Op txdata rxdata cycle request posedge slot found inputs)

/-! The interrupts that the device raises for the driver. -/

section Control

variable {divisor : BitVec 9} {s : SystemUart.State} {w : List Slot} {ctrl : BitVec 32}

theorem control_cycle (op : Op) (begins x : Bool) (same : s.regs.control_reg = ctrl.setWidth 10) :
    (posedge divisor (cycle (request op) begins x) s).regs.control_reg =
      (lastControl (found s op) ctrl).setWidth 10 := by
  cases op with
  | idle | rd => exact same
  | wr reg data =>
    by_cases control : reg = 3
    · simp [posedge, SystemUart.Inputs.control_wr_strobe, cycle, request, found, lastControl, CONTROL_REG, control]
    · have strobe : (cycle (request (.wr reg data)) begins x).control_wr_strobe = false := by
        simpa [SystemUart.Inputs.control_wr_strobe, cycle, request] using control
      have kept : lastControl (found s (.wr reg data)) ctrl = ctrl := if_neg control
      rw [kept]
      simpa [posedge, strobe] using same

theorem lastControl_found (s s' : SystemUart.State) (op : Op) (ctrl : BitVec 32) :
    lastControl (found s op) (lastControl (found s' op) ctrl) = lastControl (found s' op) ctrl := by
  cases op with
  | idle | rd => rfl
  | wr reg data =>
    simp only [found, lastControl, List.foldl_cons, List.foldl_nil]
    split <;> rfl

/-- The register of the device is the last value that was written to it. -/
theorem control_slot (a : Slot) (same : s.regs.control_reg = ctrl.setWidth 10) :
    (slot divisor a s).regs.control_reg = (lastControl (found s a.op) ctrl).setWidth 10 := by
  by_cases rests : a.op = .idle
  · rw [slot, SystemUart.inputs_idle rests, rests]
    exact control_cycle .idle _ _ same
  · rw [slot, SystemUart.inputs_access rests, run_cons, run_cons, run_nil,
      control_cycle a.op _ _ (control_cycle a.op _ _ same), lastControl_found]

theorem control_session (w : List Slot) :
    (SystemUart.state divisor w).regs.control_reg = (lastControl (SystemUart.log divisor w) 0).setWidth 10 := by
  induction w using List.reverseRecOn with
  | nil => rfl
  | append_singleton w a ih =>
    rw [SystemUart.state_concat, SystemUart.log_concat, lastControl_append, control_slot a ih]

/-- On the board it is the shadow in the driver. -/
theorem OnBoard.control_eq {events : List Event} (board : OnBoard divisor w events) :
    (SystemUart.state divisor w).regs.control_reg = (machine events).sp.ctrl.setWidth 10 := by
  rw [control_session, board, shadow_control]

end Control

section Listening

variable {sp sp' : State} {es : List (Access (BitVec 3) (BitVec 32))} {m : Machine} {f : Effect} {w : List Event}

/-- A call of `read` that has taken characters, and has interrupts yet to enable. -/
def Thread.Taking : Thread → Prop
  | .reading _ _ count _ => 0 < count
  | _ => False

/-- When nothing waits to be read, the interrupt that fetches characters is enabled. -/
def State.Listens (sp : State) (thread : Thread) : Prop := sp.rxHeld thread ≠ [] ∨ sp.ctrl.getLsbD 7 = true

theorem transfers_rrdy (transfers : Transfers sp es sp') : sp'.ctrl.getLsbD 7 = sp.ctrl.getLsbD 7 := by
  have drains (tx_start tx_end ctrl : BitVec 32) : (drained tx_start tx_end ctrl).getLsbD 7 = ctrl.getLsbD 7 := by
    unfold drained
    split
    · rw [BitVec.getLsbD_and]
      exact Bool.and_true _
    · rfl
  cases transfers with
  | char =>
    refine (drains _ _ _).trans ?_
    rw [BitVec.getLsbD_or]
    exact Bool.or_false _
  | throttled _ _ pauses =>
    rcases pauses with rfl | rfl
    · rfl
    · change (sp.ctrl &&& ~~~CONTROL_TRDY_MSK).getLsbD 7 = _
      rw [BitVec.getLsbD_and]
      exact Bool.and_true _
  | empty => exact drains _ _ _

/-- The interrupt disables itself only when it has fetched a character. -/
theorem irq_rrdy (runs : (altera_avalon_uart_irq sp).Runs es sp') :
    es.flatMap rxdata ≠ [] ∨ sp'.ctrl.getLsbD 7 = sp.ctrl.getLsbD 7 := by
  obtain ⟨status, dummy, es₁, sp₁, es₂, rfl, receive, transmit⟩ := irq_runs runs
  rcases receive with ⟨rfl, rfl⟩ | ⟨_, fetches⟩
  · rcases transmit with ⟨_, rfl, rfl⟩ | ⟨_, transfers⟩
    · exact .inr rfl
    · exact .inr (transfers_rrdy transfers)
  · refine .inl ?_
    cases fetches <;> simp [rxdata, RXDATA_REG, STATUS_REG, CONTROL_REG]

theorem irq_listens {thread : Thread} (range : sp.InRange) (runs : (altera_avalon_uart_irq sp).Runs es sp')
    (room : es.flatMap rxdata ≠ [] → sp.RxRoom thread) (listens : sp.Listens thread) : sp'.Listens thread := by
  have held := irq_rxHeld range runs room
  unfold State.Listens at listens ⊢
  rw [← held]
  rcases irq_rrdy runs with some | same
  · exact .inl fun none => some (List.append_eq_nil_iff.mp none).2
  · rw [same]
    exact listens.imp (fun some none => some (List.append_eq_nil_iff.mp none).1) id

theorem enabling_rrdy {msk : BitVec 32} {thread : Thread} (bit : sp.ctrl.getLsbD 7 = true) :
    (Effect.enabling sp msk thread).sp.ctrl.getLsbD 7 = true := by
  change (sp.ctrl ||| msk).getLsbD 7 = true
  rw [BitVec.getLsbD_or, bit, Bool.true_or]

/-- A call of `read` that has got nothing leaves no character behind without the interrupt. -/
theorem read_listens {pc : ReadPc} {len count : Nat} {block : Bool} (range : sp.InRange)
    (knows : sp.Knows (.reading pc len count block)) (listens : 0 < count ∨ sp.Listens (.reading pc len count block))
    (possible : altera_avalon_uart_read sp len count block pc = some f) :
    f.thread.Taking ∨ f.sp.Listens f.thread := by
  have held := (read_rx range possible).2
  cases pc with
  | test =>
    obtain rfl := Option.some.inj possible
    refine listens.imp id (Or.imp ?_ id)
    rw [held]
    exact id
  | fetch =>
    obtain ⟨c, _, same⟩ := Option.bind_eq_some_iff.mp possible
    obtain rfl := Option.some.inj same
    exact .inl (Nat.succ_pos count)
  | advance =>
    obtain rfl := Option.some.inj possible
    exact .inl knows
  | empty =>
    simp only [altera_avalon_uart_read] at possible
    split at possible <;> obtain rfl := Option.some.inj possible
    · refine listens.imp id (Or.imp ?_ id)
      rw [held]
      exact id
    · refine listens.imp id (Or.imp ?_ id)
      rw [held]
      exact id
  | enable | leave =>
    obtain rfl := Option.some.inj possible
    exact .inr (.inr (set_bit rfl))

theorem write_listens {pc : WritePc} {len : Nat} {ptr : List (BitVec 8)} {no_block : Bool}
    (listens : sp.Listens (.writing pc len ptr no_block))
    (possible : altera_avalon_uart_write sp len ptr no_block pc = some f) : f.sp.Listens f.thread := by
  have held := (write_rx possible).2
  cases pc with
  | test =>
    simp only [altera_avalon_uart_write] at possible
    split at possible
    · obtain rfl := Option.some.inj possible
      exact listens
    · split at possible <;> obtain rfl := Option.some.inj possible <;> exact listens
  | wait | advance =>
    obtain rfl := Option.some.inj possible
    exact listens
  | fill =>
    obtain ⟨c, _, stores⟩ := Option.bind_eq_some_iff.mp possible
    obtain ⟨buf, _, same⟩ := Option.bind_eq_some_iff.mp stores
    obtain rfl := Option.some.inj same
    exact listens
  | enable | leave =>
    obtain rfl := Option.some.inj possible
    exact listens.imp id enabling_rrdy

theorem effect_listens {e : Event} (valid : m.Valid) (room : f.accesses.flatMap rxdata ≠ [] → m.sp.RxRoom m.thread)
    (listens : m.thread.Taking ∨ m.sp.Listens m.thread) (possible : m.effect e = some f) :
    f.thread.Taking ∨ f.sp.Listens f.thread := by
  obtain ⟨sp, thread⟩ := m
  cases e with
  | write | read | close =>
    obtain ⟨r, rfl⟩ : ∃ r, thread = .returned r := call_returned possible
    obtain rfl := Option.some.inj possible
    exact .inr (listens.resolve_left id)
  | irq es =>
    obtain ⟨sp', rfl, runs⟩ := irq_effect possible
    exact listens.imp id (irq_listens valid.range runs room)
  | thread =>
    cases thread with
    | returned r => exact nomatch possible
    | writing pc len ptr no_block => exact .inr (write_listens (listens.resolve_left id) possible)
    | reading pc len count block => exact read_listens valid.range valid.knows listens possible
    | closing no_block =>
      have still : sp.Listens (.closing no_block) := listens.resolve_left id
      obtain rfl := Option.some.inj possible
      unfold altera_avalon_uart_close
      split
      · exact .inr still
      · split <;> exact .inr still

theorem step_listens {e : Event} (room : (m.accesses e).flatMap rxdata ≠ [] → m.sp.RxRoom m.thread)
    (inv : m.Valid ∧ (m.thread.Taking ∨ m.sp.Listens m.thread)) :
    (m.step e).Valid ∧ ((m.step e).thread.Taking ∨ (m.step e).sp.Listens (m.step e).thread) := by
  refine ⟨inv.1.step e, ?_⟩
  unfold Machine.accesses at room
  unfold Machine.step
  cases possible : m.effect e with
  | none => exact inv.2
  | some f =>
    rw [possible] at room
    exact effect_listens inv.1 room inv.2 possible

/-- The interrupt is never lost, in any order of steps and interrupts that lose no character. -/
theorem machine_listens (roomy : Roomy w) :
    (machine w).thread.Taking ∨ (machine w).sp.Listens (machine w).thread := by
  have start : Machine.start.Valid ∧ (Machine.start.thread.Taking ∨ Machine.start.sp.Listens Machine.start.thread) :=
    ⟨valid_start, .inr (.inr rfl)⟩
  exact (Along.kept roomy (fun e m room inv => step_listens room inv) start).2

end Listening

section Interrupts

variable {divisor : BitVec 9} {slots : List Slot} {events : List Event} {s : SystemUart.State} {ctrl : BitVec 32}

theorem qualified_trdy (same : s.regs.control_reg = ctrl.setWidth 10) (enabled : ctrl.getLsbD 6 = true)
    (ready : s.tx.tx_ready = true) : s.qualified_irq = true := by
  have bit : s.ie_tx_ready = true := by
    rw [SystemUart.State.ie_tx_ready, same, BitVec.getLsbD_setWidth, enabled]
    rfl
  simp [SystemUart.State.qualified_irq, bit, ready]

theorem qualified_rrdy (same : s.regs.control_reg = ctrl.setWidth 10) (enabled : ctrl.getLsbD 7 = true)
    (ready : s.rx.rx_char_ready = true) : s.qualified_irq = true := by
  have bit : s.ie_rx_char_ready = true := by
    rw [SystemUart.State.ie_rx_char_ready, same, BitVec.getLsbD_setWidth, enabled]
    rfl
  simp [SystemUart.State.qualified_irq, bit, ready]

/-- No character waits for an interrupt that does not come: the line is raised at the next
clock edge when the device has room for one from the buffer, or has one for the empty buffer. -/
theorem OnBoard.raises (board : OnBoard divisor slots events) (i : SystemUart.Inputs) :
    (¬(machine events).thread.Putting → (machine events).sp.txHeld ≠ [] →
      (SystemUart.state divisor slots).tx.tx_ready = true →
        (posedge divisor i (SystemUart.state divisor slots)).regs.irq = true) ∧
    (Roomy events → ¬(machine events).thread.Taking → (machine events).sp.rxHeld (machine events).thread = [] →
      (SystemUart.state divisor slots).rx.rx_char_ready = true →
        (posedge divisor i (SystemUart.state divisor slots)).regs.irq = true) := by
  have range := (machine_valid events).range
  constructor
  · intro done some ready
    have awake := (machine_awake events).resolve_left done
    refine qualified_trdy board.control_eq (awake.resolve_left fun same => some ?_) ready
    rw [State.txHeld, same, CircularBuffer.contents_eq_nil range.tx_end]
  · intro roomy done none ready
    have listens := (machine_listens roomy).resolve_left done
    exact qualified_rrdy board.control_eq (listens.resolve_left fun some => some none) ready

end Interrupts

/-- The call of `write` of the sender, before its interrupt. -/
theorem onBoard_put : OnBoard 4 (senderSlots.take 2) (senderEvents.take 6) := by decide +kernel

/-- The character has come in to the receiver, before its interrupt. -/
theorem onBoard_got : OnBoard 4 (receiverSlots.take 73) [] := by decide +kernel

theorem raises_exchange :
    (posedge 4 (cycle (request .idle) false true) (SystemUart.state 4 (senderSlots.take 2))).regs.irq = true ∧
      (posedge 4 (cycle (request .idle) false true) (SystemUart.state 4 (receiverSlots.take 73))).regs.irq = true :=
  ⟨(onBoard_put.raises _).1 id (by decide +kernel) (by decide +kernel),
    (onBoard_got.raises _).2 trivial id rfl (by decide +kernel)⟩

end Dspc.AvalonUart
