import Dspc.AvalonUart.Machine

namespace Dspc.AvalonUart
open Vhdl RegisterIo
open SystemUart (txdata rxdata)
open scoped List

/-! What goes through the circular buffers, in every order of steps and interrupts. -/

instance : NeZero BUF_LEN := ⟨by decide⟩

section Transmit

/-- What was written and not yet transferred. -/
def State.txHeld (sp : State) : List (BitVec 8) :=
  CircularBuffer.contents sp.tx_buf sp.tx_start.toNat sp.tx_end.toNat

def txBuffer : Buffer Event Machine (BitVec 8) where
  step := Machine.step
  put := Machine.written
  take e m := (m.accesses e).flatMap txdata
  held m := m.sp.txHeld

variable {m : Machine} {sp : State} {f : Effect} {es : List (Access (BitVec 3) (BitVec 32))}

theorem txHeld_congr {sp' : State} (buf : sp'.tx_buf = sp.tx_buf) (start : sp'.tx_start = sp.tx_start)
    (finish : sp'.tx_end = sp.tx_end) : sp'.txHeld = sp.txHeld := by
  rw [State.txHeld, buf, start, finish, State.txHeld]

theorem write_tx {pc : WritePc} {len : Nat} {ptr : List (BitVec 8)} {no_block : Bool} (range : sp.InRange)
    (knows : sp.Knows (.writing pc len ptr no_block))
    (possible : altera_avalon_uart_write sp len ptr no_block pc = some f) :
    sp.txHeld ++ f.written = f.accesses.flatMap txdata ++ f.sp.txHeld := by
  cases pc with
  | test =>
    simp only [altera_avalon_uart_write] at possible
    split at possible
    · obtain rfl := Option.some.inj possible
      exact List.append_nil _
    · split at possible
      · obtain rfl := Option.some.inj possible
        exact List.append_nil _
      · obtain rfl := Option.some.inj possible
        exact List.append_nil _
  | enable | wait | leave =>
    obtain rfl := Option.some.inj possible
    exact List.append_nil _
  | fill =>
    obtain ⟨more, room⟩ := knows
    obtain ⟨c, rest, rfl⟩ := List.exists_cons_of_ne_nil more
    simp only [altera_avalon_uart_write, List.head?_cons, store_eq range.tx_end] at possible
    obtain rfl := Option.some.inj possible
    exact (List.append_nil _).trans (CircularBuffer.contents_set range.tx_start range.tx_end).symm
  | advance =>
    obtain ⟨room, c, rest, rfl, loaded⟩ := knows
    obtain rfl := Option.some.inj possible
    rw [load_eq range.tx_end, Option.some.injEq] at loaded
    have advance := CircularBuffer.contents_advance (v := sp.tx_buf) range.tx_start range.tx_end (after_slot_ne.mp room)
    rw [loaded, ← toNat_after_slot] at advance
    exact advance.symm

theorem read_tx {pc : ReadPc} {len count : Nat} {block : Bool} (range : sp.InRange)
    (possible : altera_avalon_uart_read sp len count block pc = some f) :
    f.written = [] ∧ f.accesses.flatMap txdata = [] ∧ f.sp.txHeld = sp.txHeld := by
  cases pc with
  | test | advance | enable | leave =>
    obtain rfl := Option.some.inj possible
    exact ⟨rfl, rfl, rfl⟩
  | fetch =>
    simp only [altera_avalon_uart_read, load_eq range.rx_start] at possible
    obtain rfl := Option.some.inj possible
    exact ⟨rfl, rfl, rfl⟩
  | empty =>
    simp only [altera_avalon_uart_read] at possible
    split at possible
    · obtain rfl := Option.some.inj possible
      exact ⟨rfl, rfl, rfl⟩
    · obtain rfl := Option.some.inj possible
      exact ⟨rfl, rfl, rfl⟩

theorem irq_txHeld (range : sp.InRange) {sp' : State} (runs : (altera_avalon_uart_irq sp).Runs es sp') :
    sp.txHeld = es.flatMap txdata ++ sp'.txHeld := by
  obtain ⟨tx_buf, tx_end, ⟨same, none⟩ | ⟨waiting, next, c, loaded, one⟩⟩ := irq_tx runs
  · rw [none, txHeld_congr tx_buf same tx_end]
    rfl
  · rw [load_eq range.tx_start, Option.some.injEq] at loaded
    have pop := CircularBuffer.contents_pop (v := sp.tx_buf) range.tx_start range.tx_end fun same =>
      waiting (BitVec.toNat_inj.mp same)
    rw [loaded, ← toNat_after_slot] at pop
    rw [one, State.txHeld, pop, State.txHeld, tx_buf, next, tx_end]
    rfl

theorem close_sp (sp : State) (no_block : Bool) :
    (altera_avalon_uart_close sp no_block).sp = sp ∧ (altera_avalon_uart_close sp no_block).accesses = [] ∧
      (altera_avalon_uart_close sp no_block).written = [] ∧ (altera_avalon_uart_close sp no_block).read = [] := by
  unfold altera_avalon_uart_close
  split
  · exact ⟨rfl, rfl, rfl, rfl⟩
  · split <;> exact ⟨rfl, rfl, rfl, rfl⟩

theorem effect_tx (valid : m.Valid) {e : Event} (possible : m.effect e = some f) :
    m.sp.txHeld ++ f.written = f.accesses.flatMap txdata ++ f.sp.txHeld := by
  cases e with
  | write | read | close =>
    obtain rfl := call_effect possible
    exact List.append_nil _
  | irq es =>
    obtain ⟨sp, rfl, runs⟩ := irq_effect possible
    exact (List.append_nil _).trans (irq_txHeld valid.range runs)
  | thread =>
    obtain ⟨sp, thread⟩ := m
    cases thread with
    | returned r => exact nomatch possible
    | writing pc len ptr no_block => exact write_tx valid.range valid.knows possible
    | reading pc len count block =>
      obtain ⟨written, silent, held⟩ := read_tx valid.range possible
      rw [written, silent, held]
      exact List.append_nil _
    | closing no_block =>
      obtain rfl := Option.some.inj possible
      obtain ⟨same, accesses, written, _⟩ := close_sp sp no_block
      rw [same, accesses, written]
      exact List.append_nil _

/-- Nothing that was written is lost on its way to the device. -/
theorem tx_conserves (valid : m.Valid) (e : Event) : txBuffer.Conserves e m := by
  change m.sp.txHeld ++ m.written e = (m.accesses e).flatMap txdata ++ (m.step e).sp.txHeld
  unfold Machine.written Machine.accesses Machine.step
  cases possible : m.effect e with
  | none => exact List.append_nil _
  | some f => exact effect_tx valid possible

end Transmit

section Receive

/-- The slot behind those that the reader has taken or is about to take. -/
def State.first (sp : State) : Thread → BitVec 32
  | .reading .fetch _ _ _ => after_slot sp.rx_start
  | .reading .advance _ _ _ => after_slot sp.rx_start
  | _ => sp.rx_start

/-- The character that the reader is about to take. -/
def State.taking (sp : State) : Thread → List (BitVec 8)
  | .reading .fetch _ _ _ => (load sp.rx_buf sp.rx_start).toList
  | _ => []

/-- What came from the device and was not yet read. -/
def State.rxHeld (sp : State) (thread : Thread) : List (BitVec 8) :=
  sp.taking thread ++ CircularBuffer.contents sp.rx_buf (sp.first thread).toNat sp.rx_end.toNat

/-- An interrupt finds a free slot for a character. -/
def State.RxRoom (sp : State) (thread : Thread) : Prop := after_slot sp.rx_end ≠ sp.first thread

instance (sp : State) (thread : Thread) : Decidable (sp.RxRoom thread) := inferInstanceAs (Decidable (_ ≠ _))

def rxBuffer : Buffer Event Machine (BitVec 8) where
  step := Machine.step
  put e m := (m.accesses e).flatMap rxdata
  take := Machine.read
  held m := m.sp.rxHeld m.thread

variable {m : Machine} {sp sp' : State} {thread : Thread} {f : Effect} {es : List (Access (BitVec 3) (BitVec 32))}

theorem first_lt (range : sp.InRange) (thread : Thread) : (sp.first thread).toNat < BUF_LEN := by
  unfold State.first
  split
  · exact after_slot_lt _
  · exact after_slot_lt _
  · exact range.rx_start

/-- The reader is not disturbed while there is room. -/
theorem taking_set (range : sp.InRange) {c : BitVec 8} (room : sp.RxRoom thread)
    (stored : store sp.rx_buf sp.rx_end c = some sp'.rx_buf) (start : sp'.rx_start = sp.rx_start) :
    sp'.taking thread = sp.taking thread := by
  unfold State.taking
  split
  · have other : sp.rx_end.toNat ≠ sp.rx_start.toNat := fun same =>
      room (congrArg after_slot (BitVec.toNat_inj.mp same))
    rw [store_eq range.rx_end, Option.some.injEq] at stored
    rw [start, load_eq range.rx_start, load_eq range.rx_start, ← stored, Vector.getElem_set_ne _ _ other]
  · rfl

theorem irq_rxHeld (range : sp.InRange) (runs : (altera_avalon_uart_irq sp).Runs es sp')
    (room : es.flatMap rxdata ≠ [] → sp.RxRoom thread) :
    sp.rxHeld thread ++ es.flatMap rxdata = sp'.rxHeld thread := by
  obtain ⟨start, ⟨buf, finish, none⟩ | ⟨c, stored, finish, one⟩⟩ := irq_rx runs
  · have first : sp'.first thread = sp.first thread := by
      unfold State.first
      rw [start]
    have taking : sp'.taking thread = sp.taking thread := by
      unfold State.taking
      rw [start, buf]
    rw [none, List.append_nil, State.rxHeld, State.rxHeld, first, taking, buf, finish]
  · have free := room (by rw [one]; exact List.cons_ne_nil c [])
    have first : sp'.first thread = sp.first thread := by
      unfold State.first
      rw [start]
    have push := CircularBuffer.contents_push (v := sp.rx_buf) (x := c) (first_lt range thread) range.rx_end
      (after_slot_ne.mp free)
    have same := stored
    rw [store_eq range.rx_end, Option.some.injEq] at same
    rw [one, State.rxHeld, State.rxHeld, first, taking_set range free stored start, finish, toNat_after_slot, ← same,
      push, List.append_assoc]

/-- Without room the interrupt closes the circle: what the buffer holds is gone. -/
theorem irq_overflows (range : sp.InRange) (runs : (altera_avalon_uart_irq sp).Runs es sp')
    (some : es.flatMap rxdata ≠ []) (full : ¬sp.RxRoom thread) :
    sp'.rxHeld thread <+ sp.rxHeld thread ++ es.flatMap rxdata ∧
      (sp'.rxHeld thread).length < (sp.rxHeld thread ++ es.flatMap rxdata).length := by
  obtain ⟨start, ⟨_, _, none⟩ | ⟨c, stored, finish, one⟩⟩ := irq_rx runs
  · exact absurd none some
  · have closes : after_slot sp.rx_end = sp.first thread := not_not.mp full
    have first : sp'.first thread = sp.first thread := by
      unfold State.first
      rw [start]
    have empty : sp'.rxHeld thread = sp'.taking thread := by
      rw [State.rxHeld, first, finish, closes, (CircularBuffer.contents_eq_nil (first_lt range thread)).mpr rfl,
        List.append_nil]
    have size : CircularBuffer.size BUF_LEN (sp.first thread).toNat sp.rx_end.toNat + 1 = BUF_LEN := by
      rw [← CircularBuffer.size_full (first_lt range thread) range.rx_end, ← toNat_after_slot, closes]
    have many : (CircularBuffer.contents sp.rx_buf (sp.first thread).toNat sp.rx_end.toNat).length = 63 := by
      rw [CircularBuffer.length_contents]
      exact Nat.succ_inj.mp size
    have taking : sp'.taking thread <+ [c] ∧ (sp'.taking thread).length ≤ 1 := by
      unfold State.first at closes
      unfold State.taking
      split
      · have same : sp.rx_end = sp.rx_start := by
          apply BitVec.toNat_inj.mp
          apply CircularBuffer.succ_inj range.rx_end range.rx_start
          rw [← toNat_after_slot, ← toNat_after_slot, closes]
        rw [store_eq range.rx_end, Option.some.injEq] at stored
        rw [start, ← same, load_eq range.rx_end, ← stored, Vector.getElem_set_self]
        exact ⟨List.Sublist.refl _, le_rfl⟩
      · exact ⟨List.nil_sublist _, Nat.zero_le _⟩
    rw [empty, one]
    refine ⟨taking.1.trans (List.sublist_append_right _ _), ?_⟩
    rw [List.length_append, State.rxHeld, List.length_append, many]
    omega

theorem rxHeld_again (len count : Nat) (block : Bool) : sp.rxHeld (.reading (read_again len count) len count block) =
    CircularBuffer.contents sp.rx_buf sp.rx_start.toNat sp.rx_end.toNat := by
  unfold read_again
  split <;> rfl

/-- The reader gets the characters in the order in which they are held. -/
theorem read_rx {pc : ReadPc} {len count : Nat} {block : Bool} (range : sp.InRange)
    (possible : altera_avalon_uart_read sp len count block pc = some f) :
    f.accesses.flatMap rxdata = [] ∧ sp.rxHeld (.reading pc len count block) = f.read ++ f.sp.rxHeld f.thread := by
  cases pc with
  | test =>
    obtain rfl := Option.some.inj possible
    refine ⟨rfl, ?_⟩
    change _ = sp.rxHeld (.reading (if count < len ∧ sp.rx_start ≠ sp.rx_end then .fetch else .empty) len count block)
    split
    · rename_i more
      have pop := CircularBuffer.contents_pop (v := sp.rx_buf) range.rx_start range.rx_end fun same =>
        more.2 (BitVec.toNat_inj.mp same)
      rw [← toNat_after_slot] at pop
      have held : sp.rxHeld (.reading .fetch len count block) = (load sp.rx_buf sp.rx_start).toList ++
        CircularBuffer.contents sp.rx_buf (after_slot sp.rx_start).toNat sp.rx_end.toNat := rfl
      rw [held, load_eq range.rx_start]
      exact pop
    · rfl
  | fetch =>
    have loaded : load sp.rx_buf sp.rx_start = some _ := load_eq range.rx_start
    simp only [altera_avalon_uart_read, loaded] at possible
    obtain rfl := Option.some.inj possible
    refine ⟨rfl, ?_⟩
    rw [State.rxHeld, State.taking, loaded]
    rfl
  | advance | leave =>
    obtain rfl := Option.some.inj possible
    exact ⟨rfl, rfl⟩
  | enable =>
    obtain rfl := Option.some.inj possible
    exact ⟨rfl, (rxHeld_again len count block).symm⟩
  | empty =>
    simp only [altera_avalon_uart_read] at possible
    split at possible
    · obtain rfl := Option.some.inj possible
      refine ⟨rfl, ?_⟩
      cases block <;> rfl
    · obtain rfl := Option.some.inj possible
      exact ⟨rfl, (rxHeld_again len count block).symm⟩

theorem write_rx {pc : WritePc} {len : Nat} {ptr : List (BitVec 8)} {no_block : Bool}
    (possible : altera_avalon_uart_write sp len ptr no_block pc = some f) :
    f.accesses.flatMap rxdata = [] ∧ sp.rxHeld (.writing pc len ptr no_block) = f.read ++ f.sp.rxHeld f.thread := by
  cases pc with
  | test =>
    simp only [altera_avalon_uart_write] at possible
    split at possible
    · obtain rfl := Option.some.inj possible
      exact ⟨rfl, rfl⟩
    · split at possible
      · obtain rfl := Option.some.inj possible
        exact ⟨rfl, rfl⟩
      · obtain rfl := Option.some.inj possible
        exact ⟨rfl, rfl⟩
  | enable | wait | advance | leave =>
    obtain rfl := Option.some.inj possible
    exact ⟨rfl, rfl⟩
  | fill =>
    simp only [altera_avalon_uart_write, Option.bind_eq_bind, Option.bind_eq_some_iff] at possible
    obtain ⟨c, _, buf, _, same⟩ := possible
    obtain rfl := Option.some.inj same
    exact ⟨rfl, rfl⟩

theorem effect_rx (valid : m.Valid) {e : Event} (possible : m.effect e = some f)
    (room : f.accesses.flatMap rxdata ≠ [] → m.sp.RxRoom m.thread) :
    m.sp.rxHeld m.thread ++ f.accesses.flatMap rxdata = f.read ++ f.sp.rxHeld f.thread := by
  obtain ⟨sp, thread⟩ := m
  cases e with
  | write | read | close =>
    obtain ⟨r, rfl⟩ : ∃ r, thread = .returned r := call_returned possible
    obtain rfl := Option.some.inj possible
    exact List.append_nil _
  | irq es =>
    obtain ⟨sp', rfl, runs⟩ := irq_effect possible
    exact irq_rxHeld valid.range runs room
  | thread =>
    cases thread with
    | returned r => exact nomatch possible
    | writing pc len ptr no_block =>
      obtain ⟨silent, held⟩ := write_rx possible
      rw [silent, List.append_nil]
      exact held
    | reading pc len count block =>
      obtain ⟨silent, held⟩ := read_rx valid.range possible
      rw [silent, List.append_nil]
      exact held
    | closing no_block =>
      obtain rfl := Option.some.inj possible
      unfold altera_avalon_uart_close
      split
      · exact List.append_nil _
      · split <;> exact List.append_nil _

theorem rx_conserves (valid : m.Valid) {e : Event}
    (room : (m.accesses e).flatMap rxdata ≠ [] → m.sp.RxRoom m.thread) : rxBuffer.Conserves e m := by
  change m.sp.rxHeld m.thread ++ (m.accesses e).flatMap rxdata = m.read e ++ (m.step e).sp.rxHeld (m.step e).thread
  unfold Machine.accesses at room ⊢
  unfold Machine.read Machine.step
  cases possible : m.effect e with
  | none => exact List.append_nil _
  | some f =>
    rw [possible] at room
    exact effect_rx valid possible room

/-- Only interrupts fetch characters. -/
theorem fetches_irq (valid : m.Valid) {e : Event} (possible : m.effect e = some f)
    (some : f.accesses.flatMap rxdata ≠ []) : ∃ es sp, f = ⟨sp, m.thread, es, [], []⟩ ∧
      (altera_avalon_uart_irq m.sp).Runs es sp := by
  obtain ⟨sp, thread⟩ := m
  cases e with
  | write | read | close =>
    obtain rfl := call_effect possible
    exact absurd rfl some
  | irq es =>
    obtain ⟨sp', rfl, runs⟩ := irq_effect possible
    exact ⟨es, sp', rfl, runs⟩
  | thread =>
    cases thread with
    | returned r => exact nomatch possible
    | writing pc len ptr no_block => exact absurd (write_rx possible).1 some
    | reading pc len count block => exact absurd (read_rx valid.range possible).1 some
    | closing no_block =>
      obtain rfl := Option.some.inj possible
      rw [(close_sp sp no_block).2.1] at some
      exact absurd rfl some

theorem rx_drops (valid : m.Valid) {e : Event} (some : (m.accesses e).flatMap rxdata ≠ [])
    (full : ¬m.sp.RxRoom m.thread) : rxBuffer.Drops e m := by
  change m.read e ++ (m.step e).sp.rxHeld (m.step e).thread <+ m.sp.rxHeld m.thread ++ (m.accesses e).flatMap rxdata ∧
    (m.read e ++ (m.step e).sp.rxHeld (m.step e).thread).length <
      (m.sp.rxHeld m.thread ++ (m.accesses e).flatMap rxdata).length
  unfold Machine.accesses at some ⊢
  unfold Machine.read Machine.step
  cases possible : m.effect e with
  | none =>
    rw [possible] at some
    exact absurd rfl some
  | some f =>
    rw [possible] at some
    obtain ⟨es, sp, rfl, runs⟩ := fetches_irq valid possible some
    exact irq_overflows valid.range runs some full

theorem rx_conserves_iff (valid : m.Valid) {e : Event} :
    rxBuffer.Conserves e m ↔ ((m.accesses e).flatMap rxdata ≠ [] → m.sp.RxRoom m.thread) := by
  refine ⟨fun conserves some => ?_, rx_conserves valid⟩
  by_contra full
  have shorter := (rx_drops valid some full).2
  rw [Buffer.Conserves] at conserves
  rw [conserves] at shorter
  exact absurd shorter (Nat.lt_irrefl _)

end Receive

end Dspc.AvalonUart
