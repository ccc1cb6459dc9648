import Dspc.AvalonUart.Buffers

namespace Dspc.AvalonUart
open Vhdl RegisterIo
open SystemUart (txdata rxdata seen shows Polls)

/-! The accesses of the driver to the device. -/

/-- The accesses since reset: that of `altera_avalon_uart_init`, and those of the events. -/
def log (w : List Event) : List (Access (BitVec 3) (BitVec 32)) :=
  .wr CONTROL_REG Machine.start.sp.ctrl ::
    trace (fun e m => m.accesses e) (fun e m => some (m.step e)) Machine.start w

/-- The driver after the events since reset. -/
def machine (w : List Event) : Machine := run Machine.step Machine.start w

theorem machine_valid (w : List Event) : (machine w).Valid := run_keeps (fun e _ valid => valid.step e) valid_start w

theorem init_runs {es : List (Access (BitVec 3) (BitVec 32))} {sp : State} :
    (altera_avalon_uart_init uart_0).Runs es sp ↔
      es = [.wr CONTROL_REG Machine.start.sp.ctrl] ∧ sp = Machine.start.sp := by
  unfold altera_avalon_uart_init
  rw [Prog.put_bind, Prog.runs_write]
  constructor
  · rintro ⟨rest, rfl, ends⟩
    obtain ⟨rfl, rfl⟩ := Prog.runs_pure.mp ends
    exact ⟨rfl, rfl⟩
  · rintro ⟨rfl, rfl⟩
    exact ⟨[], rfl, rfl⟩

section Asks

/-- Accesses that ask for the bit before each byte, whatever was known before. -/
def Asks (bit : Nat) (data : Access (BitVec 3) (BitVec 32) → List (BitVec 8))
    (es : List (Access (BitVec 3) (BitVec 32))) : Prop := ∀ k, run? (seen bit data) k es ≠ none

variable {bit : Nat} {data : Access (BitVec 3) (BitVec 32) → List (BitVec 8)}
  {es es' : List (Access (BitVec 3) (BitVec 32))} {sp sp' : State}

/-- Accesses without bytes. -/
theorem seen_silent (bit : Nat) (silent : es.flatMap data = []) (k : Bool) :
    ∃ k', run? (seen bit data) k es = some k' ∧ (k = true → k' = true) := by
  induction es generalizing k with
  | nil => exact ⟨k, rfl, id⟩
  | cons e es ih =>
    rw [List.flatMap_cons, List.append_eq_nil_iff] at silent
    obtain ⟨k', rest, kept⟩ := ih silent.2 (k || shows bit e)
    refine ⟨k', ?_, fun known => kept (by rw [known, Bool.true_or])⟩
    rw [run?_cons, seen, if_pos silent.1, Option.bind_some, rest]

theorem asks_silent (silent : es.flatMap data = []) : Asks bit data es := by
  intro k none
  obtain ⟨k', some, _⟩ := seen_silent bit silent k
  exact nomatch none.symm.trans some

/-- The bit is asked for, and a byte goes over the bus after other accesses if it is set. -/
theorem asks_byte {v : BitVec 32} {e : Access (BitVec 3) (BitVec 32)} (none : data (.rd 2 v) = [])
    (set : v.getLsbD bit = true) (before : es.flatMap data = []) (after : es'.flatMap data = []) :
    Asks bit data (.rd 2 v :: (es ++ e :: es')) := by
  intro k
  have shown : shows bit (.rd 2 v) = true := by simp [shows, set]
  obtain ⟨k', first, kept⟩ := seen_silent bit before true
  obtain rfl := kept rfl
  rw [run?_cons, seen, if_pos none, shown, Bool.or_true, Option.bind_some, run?_append, first, Option.bind_some,
    run?_cons, seen]
  split
  · obtain ⟨k'', last, _⟩ := seen_silent bit after (true || shows bit e)
    rw [Option.bind_some, last]
    exact Option.some_ne_none k''
  · rw [if_pos rfl, Option.bind_some]
    obtain ⟨k'', last, _⟩ := seen_silent bit after false
    rw [last]
    exact Option.some_ne_none k''

theorem asks_append (first : Asks bit data es) (second : Asks bit data es') : Asks bit data (es ++ es') := by
  intro k
  obtain ⟨k', known⟩ := Option.ne_none_iff_exists'.mp (first k)
  rw [run?_append, known, Option.bind_some]
  exact second k'

end Asks

section Interrupt

variable {sp sp' : State} {es : List (Access (BitVec 3) (BitVec 32))}

theorem transfers_rxdata (transfers : Transfers sp es sp') : es.flatMap rxdata = [] := by
  cases transfers <;> rfl

theorem fetches_txdata (fetches : Fetches sp es sp') : es.flatMap txdata = [] := by
  cases fetches <;> rfl

theorem fetches_rxdata (fetches : Fetches sp es sp') :
    ∃ data rest, es = .rd RXDATA_REG data :: rest ∧ rest.flatMap rxdata = [] := by
  cases fetches with
  | room stored | last stored => exact ⟨_, _, rfl, rfl⟩

/-- A character is transferred in a first access, or not at all. -/
theorem transfers_txdata (transfers : Transfers sp es sp') :
    es.flatMap txdata = [] ∨ ∃ data rest, es = .wr TXDATA_REG data :: rest ∧ rest.flatMap txdata = [] := by
  cases transfers with
  | char waiting loaded => exact .inr ⟨_, _, rfl, rfl⟩
  | throttled | empty => exact .inl rfl

/-- An interrupt fetches a character only when RRDY was set. -/
theorem irq_asks_rrdy (runs : (altera_avalon_uart_irq sp).Runs es sp') : Asks 7 rxdata es := by
  obtain ⟨status, dummy, es₁, sp₁, es₂, rfl, receive, transmit⟩ := irq_runs runs
  have silent : es₂.flatMap rxdata = [] := by
    rcases transmit with ⟨_, rfl, _⟩ | ⟨_, transfers⟩
    · rfl
    · exact transfers_rxdata transfers
  rcases receive with ⟨rfl, rfl⟩ | ⟨rrdy, fetches⟩
  · exact asks_silent silent
  · obtain ⟨data, rest, rfl, quiet⟩ := fetches_rxdata fetches
    have before : [Access.wr STATUS_REG 0, .rd STATUS_REG dummy].flatMap rxdata = [] := rfl
    have after : (rest ++ es₂).flatMap rxdata = [] := by
      rw [List.flatMap_append, quiet, silent]
      rfl
    exact asks_byte (e := .rd RXDATA_REG data) (v := status) rfl (rrdy_of_nonzero rrdy) before after

/-- It transfers one only when TRDY was set, on a device without flow control. -/
theorem irq_asks_trdy (runs : (altera_avalon_uart_irq sp).Runs es sp')
    (dcts : ∀ v, .rd STATUS_REG v ∈ es → v.getLsbD 10 = false) : Asks 6 txdata es := by
  obtain ⟨status, dummy, es₁, sp₁, es₂, rfl, receive, transmit⟩ := irq_runs runs
  have silent : es₁.flatMap txdata = [] := by
    rcases receive with ⟨rfl, _⟩ | ⟨_, fetches⟩
    · rfl
    · exact fetches_txdata fetches
  rcases transmit with ⟨_, rfl, rfl⟩ | ⟨trdy, transfers⟩
  · exact asks_silent (by rw [List.append_nil, List.flatMap_append, silent]; rfl)
  · rcases transfers_txdata transfers with none | ⟨data, rest, rfl, quiet⟩
    · exact asks_silent (by rw [List.flatMap_append, List.flatMap_append, silent, none]; rfl)
    · have set : status.getLsbD 6 = true := by
        refine (trdy_of_nonzero trdy).resolve_right fun change => ?_
        exact nomatch (dcts status List.mem_cons_self).symm.trans change
      have before : ([Access.wr STATUS_REG 0, .rd STATUS_REG dummy] ++ es₁).flatMap txdata = [] := by
        rw [List.flatMap_append, silent]
        rfl
      have asks : Asks 6 txdata (.rd STATUS_REG status ::
          ([.wr STATUS_REG 0, .rd STATUS_REG dummy] ++ es₁ ++ .wr TXDATA_REG data :: rest)) :=
        asks_byte rfl set before quiet
      simpa only [List.cons_append, List.nil_append, List.append_assoc] using asks

end Interrupt

section Run

variable {w : List Event} {m : Machine} {f : Effect}

/-- The code outside of interrupts accesses nothing but `control`, to set bits of it. -/
theorem thread_accesses (possible : m.thread.step m.sp = some f) :
    f.accesses = [] ∧ f.sp.ctrl = m.sp.ctrl ∨
      ∃ msk, (msk = CONTROL_TRDY_MSK ||| CONTROL_DCTS_MSK ∨ msk = CONTROL_RRDY_MSK) ∧
        f.sp.ctrl = m.sp.ctrl ||| msk ∧ f.accesses = [.wr CONTROL_REG (m.sp.ctrl ||| msk)] := by
  obtain ⟨sp, thread⟩ := m
  cases thread with
  | returned r => exact nomatch possible
  | closing no_block =>
    obtain rfl := Option.some.inj possible
    obtain ⟨same, none, _⟩ := close_sp sp no_block
    exact .inl ⟨none, by rw [same]⟩
  | reading pc len count block =>
    cases pc with
    | test | advance =>
      obtain rfl := Option.some.inj possible
      exact .inl ⟨rfl, rfl⟩
    | fetch =>
      obtain ⟨c, _, same⟩ := Option.bind_eq_some_iff.mp possible
      obtain rfl := Option.some.inj same
      exact .inl ⟨rfl, rfl⟩
    | empty =>
      simp only [Thread.step, altera_avalon_uart_read] at possible
      split at possible
      · obtain rfl := Option.some.inj possible
        exact .inl ⟨rfl, rfl⟩
      · obtain rfl := Option.some.inj possible
        exact .inl ⟨rfl, rfl⟩
    | enable | leave =>
      obtain rfl := Option.some.inj possible
      exact .inr ⟨_, .inr rfl, rfl, rfl⟩
  | writing pc len ptr no_block =>
    cases pc with
    | test =>
      simp only [Thread.step, altera_avalon_uart_write] at possible
      split at possible
      · obtain rfl := Option.some.inj possible
        exact .inl ⟨rfl, rfl⟩
      · split at possible
        · obtain rfl := Option.some.inj possible
          exact .inl ⟨rfl, rfl⟩
        · obtain rfl := Option.some.inj possible
          exact .inl ⟨rfl, rfl⟩
    | wait | advance =>
      obtain rfl := Option.some.inj possible
      exact .inl ⟨rfl, rfl⟩
    | fill =>
      obtain ⟨c, _, stores⟩ := Option.bind_eq_some_iff.mp possible
      obtain ⟨buf, _, same⟩ := Option.bind_eq_some_iff.mp stores
      obtain rfl := Option.some.inj same
      exact .inl ⟨rfl, rfl⟩
    | enable | leave =>
      obtain rfl := Option.some.inj possible
      exact .inr ⟨_, .inl rfl, rfl, rfl⟩

theorem accesses_cases (e : Event) (m : Machine) :
    m.accesses e = [] ∧ (m.step e).sp.ctrl = m.sp.ctrl ∨
      (∃ msk, (msk = CONTROL_TRDY_MSK ||| CONTROL_DCTS_MSK ∨ msk = CONTROL_RRDY_MSK) ∧
        (m.step e).sp.ctrl = m.sp.ctrl ||| msk ∧ m.accesses e = [.wr CONTROL_REG (m.sp.ctrl ||| msk)]) ∨
      (altera_avalon_uart_irq m.sp).Runs (m.accesses e) (m.step e).sp := by
  unfold Machine.accesses Machine.step
  cases possible : m.effect e with
  | none => exact .inl ⟨rfl, rfl⟩
  | some f =>
    cases e with
    | write | read | close =>
      obtain rfl := call_effect possible
      exact .inl ⟨rfl, rfl⟩
    | irq es =>
      obtain ⟨sp, rfl, runs⟩ := irq_effect possible
      exact .inr (.inr runs)
    | thread => exact (thread_accesses possible).imp id Or.inl

theorem accesses_asks_rrdy (e : Event) (m : Machine) : Asks 7 rxdata (m.accesses e) := by
  rcases accesses_cases e m with ⟨none, _⟩ | ⟨msk, _, _, one⟩ | runs
  · rw [none]
    exact asks_silent rfl
  · rw [one]
    exact asks_silent rfl
  · exact irq_asks_rrdy runs

theorem accesses_asks_trdy {e : Event} (dcts : ∀ v, .rd STATUS_REG v ∈ m.accesses e → v.getLsbD 10 = false) :
    Asks 6 txdata (m.accesses e) := by
  rcases accesses_cases e m with ⟨none, _⟩ | ⟨msk, _, _, one⟩ | runs
  · rw [none]
    exact asks_silent rfl
  · rw [one]
    exact asks_silent rfl
  · exact irq_asks_trdy runs dcts

theorem asks_trace {bit : Nat} {data : Access (BitVec 3) (BitVec 32) → List (BitVec 8)}
    (along : Along Machine.step (fun e m => Asks bit data (m.accesses e)) m w) :
    Asks bit data (trace (fun e m => m.accesses e) (fun e m => some (m.step e)) m w) := by
  induction w generalizing m with
  | nil => exact asks_silent rfl
  | cons e w ih =>
    rw [trace_cons rfl]
    exact asks_append along.1 (ih along.2)

/-- The driver fetches characters only after it saw RRDY. -/
theorem polls_rrdy (w : List Event) : Polls 7 rxdata (log w) := by
  have asks : Asks 7 rxdata (trace (fun e m => m.accesses e) (fun e m => some (m.step e)) Machine.start w) :=
    asks_trace (along_of_invariant (I := fun _ => True) (fun e _ m _ => ⟨accesses_asks_rrdy e m, trivial⟩) trivial)
  exact asks _

/-- It transfers characters only after it saw TRDY, if the device shows no change of CTS. -/
theorem polls_trdy (dcts : ∀ v, .rd STATUS_REG v ∈ log w → v.getLsbD 10 = false) : Polls 6 txdata (log w) := by
  have quiet : Along Machine.step
      (fun e m => ∀ a ∈ m.accesses e, ∀ v, a = .rd STATUS_REG v → v.getLsbD 10 = false) Machine.start w := by
    refine along_forall.mpr fun a member v same => dcts v ?_
    rw [← same]
    exact List.mem_cons_of_mem _ member
  have asks : Asks 6 txdata (trace (fun e m => m.accesses e) (fun e m => some (m.step e)) Machine.start w) :=
    asks_trace (quiet.mono fun e _ m here => accesses_asks_trdy fun v member => here _ member v rfl)
  exact asks _

end Run

end Dspc.AvalonUart
