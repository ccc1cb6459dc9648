import Dspc.AvalonUart.Driver
import Dspc.SystemUart.Software

namespace Dspc.AvalonUart
open Vhdl RegisterIo
open SystemUart (txdata rxdata)

/-! What an interrupt can do. -/

/-- A character goes from the device to the buffer. -/
inductive Fetches (sp : State) : List (Access (BitVec 3) (BitVec 32)) → State → Prop
  | room {data rx_buf} (stored : store sp.rx_buf sp.rx_end (data.setWidth 8) = some rx_buf)
      (room : after_slot (after_slot sp.rx_end) ≠ sp.rx_start) :
      Fetches sp [.rd RXDATA_REG data] { sp with rx_buf := rx_buf, rx_end := after_slot sp.rx_end }
  | last {data rx_buf} (stored : store sp.rx_buf sp.rx_end (data.setWidth 8) = some rx_buf)
      (full : after_slot (after_slot sp.rx_end) = sp.rx_start) :
      Fetches sp [.rd RXDATA_REG data, .wr CONTROL_REG (sp.ctrl &&& ~~~CONTROL_RRDY_MSK)]
        { sp with rx_buf := rx_buf, rx_end := after_slot sp.rx_end, ctrl := sp.ctrl &&& ~~~CONTROL_RRDY_MSK }

/-- Interrupts that the buffer needs no longer when it is empty. -/
def drained (tx_start tx_end ctrl : BitVec 32) : BitVec 32 :=
  if tx_start = tx_end then ctrl &&& ~~~(CONTROL_TRDY_MSK ||| CONTROL_DCTS_MSK) else ctrl

/-- A character goes from the buffer to the device, or none. -/
inductive Transfers (sp : State) : List (Access (BitVec 3) (BitVec 32)) → State → Prop
  | char {data} (waiting : sp.tx_start ≠ sp.tx_end) (loaded : load sp.tx_buf sp.tx_start = some data) :
      Transfers sp
        [.wr TXDATA_REG (data.setWidth 32),
          .wr CONTROL_REG (drained (after_slot sp.tx_start) sp.tx_end (sp.ctrl ||| CONTROL_TRDY_MSK))]
        { sp with
          tx_start := after_slot sp.tx_start
          ctrl := drained (after_slot sp.tx_start) sp.tx_end (sp.ctrl ||| CONTROL_TRDY_MSK) }
  | throttled {status ctrl} (waiting : sp.tx_start ≠ sp.tx_end) (flow : nonzero (sp.flags &&& FC))
      (pauses : ctrl = sp.ctrl ∨ ctrl = sp.ctrl &&& ~~~CONTROL_TRDY_MSK) :
      Transfers sp [.rd STATUS_REG status, .wr CONTROL_REG ctrl] { sp with ctrl := ctrl }
  | empty (none : sp.tx_start = sp.tx_end) :
      Transfers sp [.wr CONTROL_REG (drained sp.tx_start sp.tx_end sp.ctrl)]
        { sp with ctrl := drained sp.tx_start sp.tx_end sp.ctrl }

variable {sp sp' : State} {status : BitVec 32} {es : List (Access (BitVec 3) (BitVec 32))}

theorem runs_ofOption {α : Type} {o : Option α} {a : α} :
    (Prog.ofOption o : Io α).Runs es a ↔ es = [] ∧ o = some a := by
  cases o with
  | none => simp [Prog.ofOption]
  | some b =>
    rw [Prog.ofOption]
    exact Prog.runs_pure.trans (by simp [eq_comm])

theorem rxirq_runs (runs : (altera_avalon_uart_rxirq sp status).Runs es sp') :
    nonzero (status &&& (STATUS_PE_MSK ||| STATUS_FE_MSK)) ∧ es = [] ∧ sp' = sp ∨
      ¬nonzero (status &&& (STATUS_PE_MSK ||| STATUS_FE_MSK)) ∧ Fetches sp es sp' := by
  unfold altera_avalon_uart_rxirq at runs
  split at runs
  · obtain ⟨rfl, rfl⟩ := Prog.runs_pure.mp runs
    exact .inl ⟨‹_›, rfl, rfl⟩
  · refine .inr ⟨‹_›, ?_⟩
    rw [Prog.get_bind, Prog.runs_read] at runs
    obtain ⟨data, es, rfl, runs⟩ := runs
    obtain ⟨none, rest, rx_buf, rfl, stores, last⟩ := Prog.runs_bind.mp runs
    obtain ⟨rfl, stored⟩ := runs_ofOption.mp stores
    dsimp only at last
    split at last
    · rw [Prog.put_bind, Prog.runs_write] at last
      obtain ⟨rest, rfl, ends⟩ := last
      obtain ⟨rfl, rfl⟩ := Prog.runs_pure.mp ends
      exact .last stored ‹_›
    · obtain ⟨rfl, rfl⟩ := Prog.runs_pure.mp last
      exact .room stored ‹_›

/-- What is transferred before the interrupts are set. -/
theorem txirq_transfer_runs (runs : (txirq_transfer sp status).Runs es sp') :
    sp.tx_start = sp.tx_end ∧ es = [] ∧ sp' = sp ∨
      sp.tx_start ≠ sp.tx_end ∧ nonzero (sp.flags &&& FC) ∧
        (∃ status ctrl, (ctrl = sp.ctrl ∨ ctrl = sp.ctrl &&& ~~~CONTROL_TRDY_MSK) ∧
          es = [.rd STATUS_REG status] ∧ sp' = { sp with ctrl := ctrl }) ∨
      sp.tx_start ≠ sp.tx_end ∧ ∃ data, load sp.tx_buf sp.tx_start = some data ∧
        es = [.wr TXDATA_REG (data.setWidth 32)] ∧
        sp' = { sp with tx_start := after_slot sp.tx_start, ctrl := sp.ctrl ||| CONTROL_TRDY_MSK } := by
  unfold txirq_transfer at runs
  split at runs
  · rename_i waiting
    split at runs
    · obtain ⟨none, rest, data, rfl, loads, last⟩ := Prog.runs_bind.mp runs
      obtain ⟨rfl, loaded⟩ := runs_ofOption.mp loads
      rw [Prog.put_bind, Prog.runs_write] at last
      obtain ⟨rest, rfl, ends⟩ := last
      obtain ⟨rfl, rfl⟩ := Prog.runs_pure.mp ends
      exact .inr (.inr ⟨waiting, data, loaded, rfl, rfl⟩)
    · rename_i throttle
      rw [not_or, not_not] at throttle
      rw [Prog.get_bind, Prog.runs_read] at runs
      obtain ⟨status', rest, rfl, last⟩ := runs
      refine .inr (.inl ⟨waiting, throttle.1, ?_⟩)
      split at last
      · obtain ⟨rfl, rfl⟩ := Prog.runs_pure.mp last
        exact ⟨_, _, .inr rfl, rfl, rfl⟩
      · obtain ⟨rfl, rfl⟩ := Prog.runs_pure.mp last
        exact ⟨_, sp.ctrl, .inl rfl, rfl, rfl⟩
  · obtain ⟨rfl, rfl⟩ := Prog.runs_pure.mp runs
    exact .inl ⟨not_not.mp ‹_›, rfl, rfl⟩

theorem txirq_runs (runs : (altera_avalon_uart_txirq sp status).Runs es sp') : Transfers sp es sp' := by
  obtain ⟨es₁, es₂, sp₁, rfl, transfer, last⟩ := Prog.runs_bind.mp runs
  rw [Prog.put_bind, Prog.runs_write] at last
  obtain ⟨es₃, rfl, ends⟩ := last
  obtain ⟨rfl, rfl⟩ := Prog.runs_pure.mp ends
  rcases txirq_transfer_runs transfer with ⟨none, rfl, rfl⟩ | ⟨waiting, flow, status, ctrl, pauses, rfl, rfl⟩ |
    ⟨waiting, data, loaded, rfl, rfl⟩
  · have empty := Transfers.empty none
    rw [drained, if_pos none] at empty
    simpa only [if_pos none, List.nil_append] using empty
  · have throttled : Transfers sp [.rd STATUS_REG status, .wr CONTROL_REG ctrl] { sp with ctrl := ctrl } :=
      .throttled waiting flow pauses
    simpa only [if_neg waiting, List.singleton_append] using throttled
  · have char := Transfers.char waiting loaded
    unfold drained at char
    split <;> rename_i last
    · simpa only [if_pos last, List.singleton_append] using char
    · simpa only [if_neg last, List.singleton_append] using char

/-- A bit of a mask. -/
theorem nonzero_and {v msk : BitVec 32} : nonzero (v &&& msk) ↔ ∃ k, msk.getLsbD k = true ∧ v.getLsbD k = true := by
  constructor
  · intro some
    by_contra none
    refine some (BitVec.eq_of_getLsbD_eq fun k _ => ?_)
    rw [BitVec.getLsbD_and, BitVec.ofNat_eq_ofNat, BitVec.getLsbD_zero, Bool.and_eq_false_iff]
    by_contra both
    rw [not_or, Bool.not_eq_false, Bool.not_eq_false] at both
    exact none ⟨k, both.2, both.1⟩
  · rintro ⟨k, mask, bit⟩ zero
    have both := congrArg (fun v => v.getLsbD k) zero
    simp [mask, bit] at both

theorem mask_bits {msk : BitVec 32} {bits : List Nat}
    (decided : ∀ k < 32, msk.getLsbD k = true ↔ k ∈ bits) {k : Nat} (set : msk.getLsbD k = true) : k ∈ bits :=
  (decided k (BitVec.lt_of_getLsbD set)).mp set

theorem rrdy_of_nonzero (rrdy : nonzero (status &&& STATUS_RRDY_MSK)) : status.getLsbD 7 = true := by
  obtain ⟨k, mask, bit⟩ := nonzero_and.mp rrdy
  have here : k ∈ [7] := mask_bits (by decide) mask
  rwa [List.mem_singleton.mp here] at bit

theorem trdy_of_nonzero (trdy : nonzero (status &&& (STATUS_TRDY_MSK ||| STATUS_DCTS_MSK))) :
    status.getLsbD 6 = true ∨ status.getLsbD 10 = true := by
  obtain ⟨k, mask, bit⟩ := nonzero_and.mp trdy
  have here : k ∈ [6, 10] := mask_bits (by decide) mask
  simp only [List.mem_cons, List.not_mem_nil, or_false] at here
  rcases here with rfl | rfl
  · exact .inl bit
  · exact .inr bit

/-- The accesses of an interrupt: it asks for the status, clears the errors, fetches a
character if there is one without errors, and transfers one if there is room for it. -/
theorem irq_runs (runs : (altera_avalon_uart_irq sp).Runs es sp') :
    ∃ status dummy es₁ sp₁ es₂,
      es = [.rd STATUS_REG status, .wr STATUS_REG 0, .rd STATUS_REG dummy] ++ es₁ ++ es₂ ∧
      (es₁ = [] ∧ sp₁ = sp ∨ nonzero (status &&& STATUS_RRDY_MSK) ∧ Fetches sp es₁ sp₁) ∧
      (¬nonzero (status &&& (STATUS_TRDY_MSK ||| STATUS_DCTS_MSK)) ∧ es₂ = [] ∧ sp' = sp₁ ∨
        nonzero (status &&& (STATUS_TRDY_MSK ||| STATUS_DCTS_MSK)) ∧ Transfers sp₁ es₂ sp') := by
  unfold altera_avalon_uart_irq at runs
  rw [Prog.get_bind, Prog.runs_read] at runs
  obtain ⟨status, es, rfl, first⟩ := runs
  rw [Prog.put_bind, Prog.runs_write] at first
  obtain ⟨es, rfl, second⟩ := first
  rw [Prog.get_bind, Prog.runs_read] at second
  obtain ⟨dummy, es, rfl, third⟩ := second
  obtain ⟨es₁, es₂, sp₁, rfl, receive, transmit⟩ := Prog.runs_bind.mp third
  refine ⟨status, dummy, es₁, sp₁, es₂, rfl, ?_, ?_⟩
  · split at receive
    · rcases rxirq_runs receive with ⟨_, rfl, rfl⟩ | ⟨_, fetches⟩
      · exact .inl ⟨rfl, rfl⟩
      · exact .inr ⟨‹_›, fetches⟩
    · obtain ⟨rfl, rfl⟩ := Prog.runs_pure.mp receive
      exact .inl ⟨rfl, rfl⟩
  · split at transmit
    · exact .inr ⟨‹_›, txirq_runs transmit⟩
    · obtain ⟨rfl, rfl⟩ := Prog.runs_pure.mp transmit
      exact .inl ⟨‹_›, rfl, rfl⟩

/-- The transmit buffer in an interrupt. -/
theorem irq_tx (runs : (altera_avalon_uart_irq sp).Runs es sp') :
    sp'.tx_buf = sp.tx_buf ∧ sp'.tx_end = sp.tx_end ∧
      (sp'.tx_start = sp.tx_start ∧ es.flatMap txdata = [] ∨
        sp.tx_start ≠ sp.tx_end ∧ sp'.tx_start = after_slot sp.tx_start ∧
          ∃ c, load sp.tx_buf sp.tx_start = some c ∧ es.flatMap txdata = [c]) := by
  obtain ⟨status, dummy, es₁, sp₁, es₂, rfl, receive, transmit⟩ := irq_runs runs
  have silent : sp₁.tx_buf = sp.tx_buf ∧ sp₁.tx_end = sp.tx_end ∧ sp₁.tx_start = sp.tx_start ∧
      es₁.flatMap txdata = [] := by
    rcases receive with ⟨rfl, rfl⟩ | ⟨_, fetches⟩
    · exact ⟨rfl, rfl, rfl, rfl⟩
    · cases fetches <;> exact ⟨rfl, rfl, rfl, rfl⟩
  obtain ⟨buf, finish, start, none⟩ := silent
  simp only [List.flatMap_append, none]
  rcases transmit with ⟨_, rfl, rfl⟩ | ⟨_, transfers⟩
  · exact ⟨buf, finish, .inl ⟨start, rfl⟩⟩
  · cases transfers with
    | char waiting loaded =>
      rw [start, finish] at waiting
      rw [buf, start] at loaded
      refine ⟨buf, finish, .inr ⟨waiting, by rw [← start], _, loaded, ?_⟩⟩
      simp [txdata, TXDATA_REG, STATUS_REG, CONTROL_REG]
    | throttled | empty => exact ⟨buf, finish, .inl ⟨start, rfl⟩⟩

/-- The receive buffer in an interrupt. -/
theorem irq_rx (runs : (altera_avalon_uart_irq sp).Runs es sp') :
    sp'.rx_start = sp.rx_start ∧
      (sp'.rx_buf = sp.rx_buf ∧ sp'.rx_end = sp.rx_end ∧ es.flatMap rxdata = [] ∨
        ∃ c, store sp.rx_buf sp.rx_end c = some sp'.rx_buf ∧ sp'.rx_end = after_slot sp.rx_end ∧
          es.flatMap rxdata = [c]) := by
  obtain ⟨status, dummy, es₁, sp₁, es₂, rfl, receive, transmit⟩ := irq_runs runs
  have silent : sp'.rx_buf = sp₁.rx_buf ∧ sp'.rx_end = sp₁.rx_end ∧ sp'.rx_start = sp₁.rx_start ∧
      es₂.flatMap rxdata = [] := by
    rcases transmit with ⟨_, rfl, rfl⟩ | ⟨_, transfers⟩
    · exact ⟨rfl, rfl, rfl, rfl⟩
    · cases transfers <;> exact ⟨rfl, rfl, rfl, rfl⟩
  obtain ⟨buf, finish, start, none⟩ := silent
  simp only [List.flatMap_append, none, List.append_nil, buf, finish, start]
  rcases receive with ⟨rfl, rfl⟩ | ⟨_, fetches⟩
  · exact ⟨rfl, .inl ⟨rfl, rfl, rfl⟩⟩
  · cases fetches with
    | room stored | last stored =>
      refine ⟨rfl, .inr ⟨_, stored, rfl, ?_⟩⟩
      simp [rxdata, RXDATA_REG, STATUS_REG, CONTROL_REG]

end Dspc.AvalonUart
