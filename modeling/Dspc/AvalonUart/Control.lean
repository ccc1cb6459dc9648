import Dspc.AvalonUart.Polling

namespace Dspc.AvalonUart
open Vhdl RegisterIo

/-! The `control` register of the device and its shadow in the driver. -/

/-- The last value written to `control`. -/
def lastControl (es : List (Access (BitVec 3) (BitVec 32))) (ctrl : BitVec 32) : BitVec 32 :=
  es.foldl (fun c e => match e with
    | .wr reg data => if reg = CONTROL_REG then data else c
    | .rd _ _ => c) ctrl

section Shadow

variable {sp sp' : State} {es es' : List (Access (BitVec 3) (BitVec 32))} {m : Machine} {w : List Event}

theorem lastControl_append (ctrl : BitVec 32) : lastControl (es ++ es') ctrl = lastControl es' (lastControl es ctrl) :=
  List.foldl_append

theorem fetches_control (fetches : Fetches sp es sp') : lastControl es sp.ctrl = sp'.ctrl := by
  cases fetches <;> rfl

theorem transfers_control (transfers : Transfers sp es sp') : lastControl es sp.ctrl = sp'.ctrl := by
  cases transfers <;> rfl

theorem irq_control (runs : (altera_avalon_uart_irq sp).Runs es sp') : lastControl es sp.ctrl = sp'.ctrl := by
  obtain ⟨status, dummy, es₁, sp₁, es₂, rfl, receive, transmit⟩ := irq_runs runs
  have first : lastControl es₁ sp.ctrl = sp₁.ctrl := by
    rcases receive with ⟨rfl, rfl⟩ | ⟨_, fetches⟩
    · rfl
    · exact fetches_control fetches
  have last : lastControl es₂ sp₁.ctrl = sp'.ctrl := by
    rcases transmit with ⟨_, rfl, rfl⟩ | ⟨_, transfers⟩
    · rfl
    · exact transfers_control transfers
  rw [lastControl_append, lastControl_append, ← last, ← first]
  rfl

theorem step_control (e : Event) (m : Machine) : lastControl (m.accesses e) m.sp.ctrl = (m.step e).sp.ctrl := by
  rcases accesses_cases e m with ⟨none, same⟩ | ⟨msk, _, set, one⟩ | runs
  · rw [none, same]
    rfl
  · rw [one, set]
    rfl
  · exact irq_control runs

/-- The shadow is the value of the register after every step. -/
theorem shadow_control (w : List Event) (ctrl : BitVec 32) : lastControl (log w) ctrl = (machine w).sp.ctrl := by
  have trace_control (m : Machine) : lastControl (trace (fun e m => m.accesses e) (fun e m => some (m.step e)) m w)
      m.sp.ctrl = (run Machine.step m w).sp.ctrl := by
    induction w generalizing m with
    | nil => rfl
    | cons e w ih => rw [trace_cons rfl, lastControl_append, step_control, ih, run_cons]
  exact trace_control Machine.start

end Shadow

section Break

variable {sp sp' : State} {es es' : List (Access (BitVec 3) (BitVec 32))} {m : Machine} {w : List Event}

/-- No access sets the bit that breaks the line. -/
def Unbroken (es : List (Access (BitVec 3) (BitVec 32))) : Prop :=
  ∀ e ∈ es, ∀ data, e = .wr CONTROL_REG data → data.getLsbD 9 = false

theorem unbroken_append : Unbroken (es ++ es') ↔ Unbroken es ∧ Unbroken es' := List.forall_mem_append

/-- A sequence of accesses that writes one value to `control` at its end. -/
theorem unbroken_control (es : List (Access (BitVec 3) (BitVec 32))) {ctrl : BitVec 32} (silent : Unbroken es)
    (clear : ctrl.getLsbD 9 = false) : Unbroken (es ++ [.wr CONTROL_REG ctrl]) := by
  refine unbroken_append.mpr ⟨silent, fun e member data same => ?_⟩
  rw [List.mem_singleton.mp member, Access.wr.injEq] at same
  rwa [← same.2]

theorem masked_clear {ctrl msk : BitVec 32} {k : Nat} (clear : ctrl.getLsbD k = false) :
    (ctrl &&& msk).getLsbD k = false := by
  rw [BitVec.getLsbD_and, clear, Bool.false_and]

theorem set_clear {ctrl msk : BitVec 32} {k : Nat} (clear : ctrl.getLsbD k = false) (other : msk.getLsbD k = false) :
    (ctrl ||| msk).getLsbD k = false := by
  rw [BitVec.getLsbD_or, clear, other, Bool.or_false]

theorem drained_clear {tx_start tx_end ctrl : BitVec 32} {k : Nat} (clear : ctrl.getLsbD k = false) :
    (drained tx_start tx_end ctrl).getLsbD k = false := by
  unfold drained
  split
  · exact masked_clear clear
  · exact clear

theorem fetches_unbroken (clear : sp.ctrl.getLsbD 9 = false) (fetches : Fetches sp es sp') :
    Unbroken es ∧ sp'.ctrl.getLsbD 9 = false := by
  cases fetches with
  | room => exact ⟨by simp [Unbroken], clear⟩
  | @last data =>
    have bit : (sp.ctrl &&& ~~~CONTROL_RRDY_MSK).getLsbD 9 = false := masked_clear clear
    exact ⟨unbroken_control [.rd RXDATA_REG data] (by simp [Unbroken]) bit, bit⟩

theorem transfers_unbroken (clear : sp.ctrl.getLsbD 9 = false) (transfers : Transfers sp es sp') :
    Unbroken es ∧ sp'.ctrl.getLsbD 9 = false := by
  cases transfers with
  | @char data waiting loaded =>
    have bit : (drained (after_slot sp.tx_start) sp.tx_end (sp.ctrl ||| CONTROL_TRDY_MSK)).getLsbD 9 = false :=
      drained_clear (set_clear clear (by decide))
    exact ⟨unbroken_control [.wr TXDATA_REG (data.setWidth 32)] (by simp [Unbroken, TXDATA_REG, CONTROL_REG]) bit, bit⟩
  | @throttled status ctrl waiting flow pauses =>
    have bit : ctrl.getLsbD 9 = false := by
      rcases pauses with rfl | rfl
      · exact clear
      · exact masked_clear clear
    exact ⟨unbroken_control [.rd STATUS_REG status] (by simp [Unbroken]) bit, bit⟩
  | empty none => exact ⟨unbroken_control [] (by simp [Unbroken]) (drained_clear clear), drained_clear clear⟩

theorem irq_unbroken (clear : sp.ctrl.getLsbD 9 = false) (runs : (altera_avalon_uart_irq sp).Runs es sp') :
    Unbroken es ∧ sp'.ctrl.getLsbD 9 = false := by
  obtain ⟨status, dummy, es₁, sp₁, es₂, rfl, receive, transmit⟩ := irq_runs runs
  have first : Unbroken es₁ ∧ sp₁.ctrl.getLsbD 9 = false := by
    rcases receive with ⟨rfl, rfl⟩ | ⟨_, fetches⟩
    · exact ⟨nofun, clear⟩
    · exact fetches_unbroken clear fetches
  have last : Unbroken es₂ ∧ sp'.ctrl.getLsbD 9 = false := by
    rcases transmit with ⟨_, rfl, rfl⟩ | ⟨_, transfers⟩
    · exact ⟨nofun, first.2⟩
    · exact transfers_unbroken first.2 transfers
  refine ⟨unbroken_append.mpr ⟨unbroken_append.mpr ⟨?_, first.1⟩, last.1⟩, last.2⟩
  simp [Unbroken, STATUS_REG, CONTROL_REG]

theorem step_unbroken {e : Event} (clear : m.sp.ctrl.getLsbD 9 = false) :
    Unbroken (m.accesses e) ∧ (m.step e).sp.ctrl.getLsbD 9 = false := by
  rcases accesses_cases e m with ⟨none, same⟩ | ⟨msk, mask, set, one⟩ | runs
  · rw [none, same]
    exact ⟨nofun, clear⟩
  · have other : msk.getLsbD 9 = false := by
      rcases mask with rfl | rfl <;> decide
    rw [one, set]
    exact ⟨unbroken_control [] nofun (set_clear clear other), set_clear clear other⟩
  · exact irq_unbroken clear runs

/-- The driver never breaks the line. -/
theorem log_unbroken (w : List Event) : Unbroken (log w) := by
  have along : Along Machine.step (fun e m => Unbroken (m.accesses e)) Machine.start w :=
    along_of_invariant (I := fun m => m.sp.ctrl.getLsbD 9 = false) (fun e _ m clear => step_unbroken clear) rfl
  intro e member
  rcases List.mem_cons.mp member with rfl | later
  · rintro data same
    rw [Access.wr.injEq] at same
    rw [← same.2]
    rfl
  · exact along_forall.mp along e later

end Break

section Awake

variable {sp sp' : State} {es : List (Access (BitVec 3) (BitVec 32))} {m : Machine} {w : List Event}

/-- A call of `write` that has interrupts yet to enable for what it put in the buffer. -/
def Thread.Putting : Thread → Prop
  | .writing .wait _ _ _ => False
  | .writing _ _ _ _ => True
  | _ => False

/-- When something waits in the transmit buffer, the interrupt that takes it out is enabled. -/
def State.Awake (sp : State) : Prop := sp.tx_start = sp.tx_end ∨ sp.ctrl.getLsbD 6 = true

theorem set_bit {ctrl msk : BitVec 32} {k : Nat} (set : msk.getLsbD k = true) : (ctrl ||| msk).getLsbD k = true := by
  rw [BitVec.getLsbD_or, set, Bool.or_true]

theorem fetches_awake (awake : sp.Awake) (fetches : Fetches sp es sp') : sp'.Awake := by
  cases fetches with
  | room => exact awake
  | last =>
    refine awake.imp id fun bit => ?_
    rw [BitVec.getLsbD_and, bit]
    rfl

theorem transfers_awake (flow : ¬nonzero (sp.flags &&& FC)) (transfers : Transfers sp es sp') : sp'.Awake := by
  cases transfers with
  | char =>
    by_cases last : after_slot sp.tx_start = sp.tx_end
    · exact .inl last
    · refine .inr ?_
      change (drained (after_slot sp.tx_start) sp.tx_end (sp.ctrl ||| CONTROL_TRDY_MSK)).getLsbD 6 = true
      rw [drained, if_neg last]
      exact set_bit rfl
  | throttled _ flows => exact absurd flows flow
  | empty none => exact .inl none

theorem irq_awake (flow : ¬nonzero (sp.flags &&& FC)) (runs : (altera_avalon_uart_irq sp).Runs es sp') :
    sp'.flags = sp.flags ∧ (sp.Awake → sp'.Awake) := by
  obtain ⟨status, dummy, es₁, sp₁, es₂, rfl, receive, transmit⟩ := irq_runs runs
  have first : sp₁.flags = sp.flags ∧ (sp.Awake → sp₁.Awake) := by
    rcases receive with ⟨rfl, rfl⟩ | ⟨_, fetches⟩
    · exact ⟨rfl, id⟩
    · refine ⟨?_, fun awake => fetches_awake awake fetches⟩
      cases fetches <;> rfl
  rw [← first.1] at flow
  rcases transmit with ⟨_, rfl, rfl⟩ | ⟨_, transfers⟩
  · exact first
  · refine ⟨?_, fun _ => transfers_awake flow transfers⟩
    rw [← first.1]
    cases transfers <;> rfl

theorem Awake.enabling {msk : BitVec 32} {thread : Thread} (awake : sp.Awake) :
    (Effect.enabling sp msk thread).sp.Awake := by
  refine awake.imp id fun bit => ?_
  change (sp.ctrl ||| msk).getLsbD 6 = true
  rw [BitVec.getLsbD_or, bit, Bool.true_or]

theorem read_awake {pc : ReadPc} {len count : Nat} {block : Bool} {f : Effect} (awake : sp.Awake)
    (possible : altera_avalon_uart_read sp len count block pc = some f) : f.sp.flags = sp.flags ∧ f.sp.Awake := by
  cases pc with
  | test | advance =>
    obtain rfl := Option.some.inj possible
    exact ⟨rfl, awake⟩
  | fetch =>
    obtain ⟨c, _, same⟩ := Option.bind_eq_some_iff.mp possible
    obtain rfl := Option.some.inj same
    exact ⟨rfl, awake⟩
  | empty =>
    simp only [altera_avalon_uart_read] at possible
    split at possible
    · obtain rfl := Option.some.inj possible
      exact ⟨rfl, awake⟩
    · obtain rfl := Option.some.inj possible
      exact ⟨rfl, awake⟩
  | enable | leave =>
    obtain rfl := Option.some.inj possible
    exact ⟨rfl, Awake.enabling awake⟩

/-- A call of `write` leaves no character behind without the interrupt for it. -/
theorem write_awake {pc : WritePc} {len : Nat} {ptr : List (BitVec 8)} {no_block : Bool} {f : Effect}
    (awake : (Thread.writing pc len ptr no_block).Putting ∨ sp.Awake)
    (possible : altera_avalon_uart_write sp len ptr no_block pc = some f) :
    f.sp.flags = sp.flags ∧ (f.thread.Putting ∨ f.sp.Awake) := by
  cases pc with
  | test =>
    simp only [altera_avalon_uart_write] at possible
    split at possible
    · obtain rfl := Option.some.inj possible
      exact ⟨rfl, .inl trivial⟩
    · split at possible
      · obtain rfl := Option.some.inj possible
        cases no_block <;> exact ⟨rfl, .inl trivial⟩
      · obtain rfl := Option.some.inj possible
        exact ⟨rfl, .inl trivial⟩
  | wait =>
    obtain rfl := Option.some.inj possible
    exact ⟨rfl, .inr (awake.resolve_left id)⟩
  | advance =>
    obtain rfl := Option.some.inj possible
    exact ⟨rfl, .inl trivial⟩
  | fill =>
    obtain ⟨c, _, stores⟩ := Option.bind_eq_some_iff.mp possible
    obtain ⟨buf, _, same⟩ := Option.bind_eq_some_iff.mp stores
    obtain rfl := Option.some.inj same
    exact ⟨rfl, .inl trivial⟩
  | enable | leave =>
    obtain rfl := Option.some.inj possible
    exact ⟨rfl, .inr (.inr (set_bit rfl))⟩

theorem effect_awake {e : Event} {f : Effect} (flow : ¬nonzero (m.sp.flags &&& FC))
    (awake : m.thread.Putting ∨ m.sp.Awake) (possible : m.effect e = some f) :
    f.sp.flags = m.sp.flags ∧ (f.thread.Putting ∨ f.sp.Awake) := by
  cases e with
  | write ptr no_block =>
    obtain rfl := call_effect possible
    exact ⟨rfl, .inl trivial⟩
  | irq es =>
    obtain ⟨sp, rfl, runs⟩ := irq_effect possible
    obtain ⟨flags, kept⟩ := irq_awake flow runs
    exact ⟨flags, awake.imp id kept⟩
  | read | close =>
    obtain ⟨sp, thread⟩ := m
    obtain ⟨r, rfl⟩ : ∃ r, thread = .returned r := call_returned possible
    obtain rfl := Option.some.inj possible
    exact ⟨rfl, .inr (awake.resolve_left id)⟩
  | thread =>
    obtain ⟨sp, thread⟩ := m
    cases thread with
    | returned r => exact nomatch possible
    | writing pc len ptr no_block => exact write_awake awake possible
    | reading pc len count block =>
      obtain ⟨flags, still⟩ := read_awake (awake.resolve_left id) possible
      exact ⟨flags, .inr still⟩
    | closing no_block =>
      have still : sp.Awake := awake.resolve_left id
      obtain rfl := Option.some.inj possible
      obtain ⟨same, _⟩ := close_sp sp no_block
      rw [same]
      exact ⟨rfl, .inr still⟩

theorem machine_flags_awake (w : List Event) :
    (machine w).sp.flags = FB ∧ ((machine w).thread.Putting ∨ (machine w).sp.Awake) := by
  have step (e : Event) (m : Machine) (inv : m.sp.flags = FB ∧ (m.thread.Putting ∨ m.sp.Awake)) :
      (m.step e).sp.flags = FB ∧ ((m.step e).thread.Putting ∨ (m.step e).sp.Awake) := by
    unfold Machine.step
    cases possible : m.effect e with
    | none => exact inv
    | some f =>
      obtain ⟨flags, awake⟩ := effect_awake (by rw [inv.1]; decide) inv.2 possible
      exact ⟨flags.trans inv.1, awake⟩
  exact run_keeps step ⟨rfl, .inr (.inl rfl)⟩ w

/-- The device has no flow control. -/
theorem machine_flow (w : List Event) : ¬nonzero ((machine w).sp.flags &&& FC) := by
  rw [(machine_flags_awake w).1]
  decide

/-- The interrupt is never lost, in any order of steps and interrupts. -/
theorem machine_awake (w : List Event) : (machine w).thread.Putting ∨ (machine w).sp.Awake :=
  (machine_flags_awake w).2

end Awake

end Dspc.AvalonUart
