import Dspc.Buffer
import Dspc.CircularBuffer
import Dspc.AvalonUart.Interrupt

namespace Dspc.AvalonUart
open Vhdl RegisterIo

/-! The code of the driver with interrupts between any two of its steps. -/

structure Machine where
  sp : State
  thread : Thread

/-- What happens next: a call, a step of the call, or an interrupt with its accesses. -/
inductive Event
  | write (ptr : List (BitVec 8)) (no_block : Bool)
  | read (len : Nat) (block : Bool)
  | close (no_block : Bool)
  | thread
  | irq (es : List (Access (BitVec 3) (BitVec 32)))

namespace Machine

/-- A call begins when the one before it has returned. -/
def call (m : Machine) (thread : Thread) : Option Effect :=
  match m.thread with
  | .returned _ => some (.quiet m.sp thread)
  | _ => none

def effect (m : Machine) : Event → Option Effect
  | .write ptr no_block => m.call (.writing .test ptr.length ptr no_block)
  | .read len block => m.call (.reading .test len 0 block)
  | .close no_block => m.call (.closing no_block)
  | .thread => m.thread.step m.sp
  | .irq es =>
    match run? Prog.after (altera_avalon_uart_irq m.sp) es with
    | some (.done sp) => some ⟨sp, m.thread, es, [], []⟩
    | _ => none

/-- An event that cannot happen changes nothing. -/
def step (e : Event) (m : Machine) : Machine := (m.effect e).elim m fun f => ⟨f.sp, f.thread⟩

def accesses (e : Event) (m : Machine) : List (Access (BitVec 3) (BitVec 32)) := (m.effect e).elim [] Effect.accesses

def written (e : Event) (m : Machine) : List (BitVec 8) := (m.effect e).elim [] Effect.written

def read (e : Event) (m : Machine) : List (BitVec 8) := (m.effect e).elim [] Effect.read

/-- The driver after `altera_avalon_uart_init`. -/
def start : Machine where
  sp := { uart_0 with ctrl := CONTROL_RTS_MSK ||| CONTROL_RRDY_MSK ||| CONTROL_DCTS_MSK }
  thread := .returned (.count 0)

end Machine

section Slots

variable {buf : Vector (BitVec 8) BUF_LEN} {i : BitVec 32} {x : BitVec 8}

theorem toNat_after_slot (i : BitVec 32) : (after_slot i).toNat = CircularBuffer.succ BUF_LEN i.toNat := by
  have mask : BUF_MSK.toNat = 2 ^ 6 - 1 := rfl
  rw [after_slot, BitVec.toNat_and, mask, Nat.and_two_pow_sub_one_eq_mod, BitVec.toNat_add, CircularBuffer.succ,
    BUF_LEN]
  have one : (1 : BitVec 32).toNat = 1 := rfl
  rw [one]
  omega

theorem load_eq (inside : i.toNat < BUF_LEN) : load buf i = some buf[i.toNat] := by
  rw [load, List.getElem?_eq_getElem (by simpa using inside)]
  simp

theorem store_eq (inside : i.toNat < BUF_LEN) : store buf i x = some (buf.set i.toNat x inside) := dif_pos inside

end Slots

/-- The indices of the circular buffers are inside them. -/
structure State.InRange (sp : State) : Prop where
  rx_start : sp.rx_start.toNat < BUF_LEN
  rx_end : sp.rx_end.toNat < BUF_LEN
  tx_start : sp.tx_start.toNat < BUF_LEN
  tx_end : sp.tx_end.toNat < BUF_LEN

theorem after_slot_lt (i : BitVec 32) : (after_slot i).toNat < BUF_LEN := by
  rw [toNat_after_slot]
  exact Nat.mod_lt _ (by decide)

theorem after_slot_ne {i j : BitVec 32} :
    after_slot i ≠ j ↔ CircularBuffer.succ BUF_LEN i.toNat ≠ j.toNat := by
  rw [← toNat_after_slot, ne_eq, ne_eq, BitVec.toNat_inj]

/-- What the code knows where it is. -/
def State.Knows (sp : State) : Thread → Prop
  | .writing .enable _ ptr _ => ptr ≠ []
  | .writing .wait _ ptr _ => ptr ≠ []
  | .writing .fill _ ptr _ => ptr ≠ [] ∧ after_slot sp.tx_end ≠ sp.tx_start
  | .writing .advance _ ptr _ =>
    after_slot sp.tx_end ≠ sp.tx_start ∧ ∃ c rest, ptr = c :: rest ∧ load sp.tx_buf sp.tx_end = some c
  | .reading .advance _ count _ => 0 < count
  | _ => True

structure Machine.Valid (m : Machine) : Prop where
  range : m.sp.InRange
  knows : m.sp.Knows m.thread

variable {m : Machine} {sp : State} {f : Effect} {es : List (Access (BitVec 3) (BitVec 32))}

theorem irq_effect (possible : m.effect (.irq es) = some f) :
    ∃ sp, f = ⟨sp, m.thread, es, [], []⟩ ∧ (altera_avalon_uart_irq m.sp).Runs es sp := by
  simp only [Machine.effect] at possible
  split at possible
  · rename_i sp runs
    exact ⟨sp, (Option.some.inj possible).symm, runs⟩
  · cases possible

theorem irq_inRange (range : sp.InRange) {sp' : State} (runs : (altera_avalon_uart_irq sp).Runs es sp') :
    sp'.InRange := by
  obtain ⟨_, tx_end, tx_start⟩ := irq_tx runs
  obtain ⟨rx_start, rx⟩ := irq_rx runs
  refine ⟨rx_start ▸ range.rx_start, ?_, ?_, tx_end ▸ range.tx_end⟩
  · rcases rx with ⟨_, same, _⟩ | ⟨_, _, next, _⟩
    · exact same ▸ range.rx_end
    · exact next ▸ after_slot_lt _
  · rcases tx_start with ⟨same, _⟩ | ⟨_, next, _⟩
    · exact same ▸ range.tx_start
    · exact next ▸ after_slot_lt _

/-- An interrupt makes more room in the transmit buffer, never less. -/
theorem irq_room (range : sp.InRange) {sp' : State} (runs : (altera_avalon_uart_irq sp).Runs es sp')
    (room : after_slot sp.tx_end ≠ sp.tx_start) : after_slot sp'.tx_end ≠ sp'.tx_start := by
  obtain ⟨_, tx_end, tx_start⟩ := irq_tx runs
  rw [tx_end]
  rcases tx_start with ⟨same, _⟩ | ⟨waiting, next, _⟩
  · rwa [same]
  · rw [next, after_slot_ne, toNat_after_slot]
    intro same
    have indices := CircularBuffer.succ_inj range.tx_end range.tx_start same
    exact waiting (BitVec.toNat_inj.mp indices).symm

theorem irq_knows (range : sp.InRange) {sp' : State} (runs : (altera_avalon_uart_irq sp).Runs es sp')
    {thread : Thread} (knows : sp.Knows thread) : sp'.Knows thread := by
  obtain ⟨tx_buf, tx_end, _⟩ := irq_tx runs
  have room := irq_room range runs
  unfold State.Knows at knows ⊢
  split <;> simp_all

theorem call_effect {thread : Thread} (possible : m.call thread = some f) : f = .quiet m.sp thread := by
  unfold Machine.call at possible
  split at possible
  · exact (Option.some.inj possible).symm
  · exact nomatch possible

theorem call_returned {thread : Thread} (possible : m.call thread = some f) : ∃ r, m.thread = .returned r := by
  unfold Machine.call at possible
  split at possible
  · exact ⟨_, ‹_›⟩
  · exact nomatch possible

theorem write_valid {pc : WritePc} {len : Nat} {ptr : List (BitVec 8)} {no_block : Bool} (range : sp.InRange)
    (knows : sp.Knows (.writing pc len ptr no_block))
    (possible : altera_avalon_uart_write sp len ptr no_block pc = some f) :
    f.sp.InRange ∧ f.sp.Knows f.thread := by
  cases pc with
  | test =>
    simp only [altera_avalon_uart_write] at possible
    split at possible
    · obtain rfl := Option.some.inj possible
      exact ⟨range, trivial⟩
    · rename_i more
      split at possible
      · obtain rfl := Option.some.inj possible
        refine ⟨range, ?_⟩
        cases no_block with
        | true => exact trivial
        | false => exact more
      · rename_i room
        obtain rfl := Option.some.inj possible
        exact ⟨range, more, room⟩
  | enable =>
    obtain rfl := Option.some.inj possible
    exact ⟨⟨range.rx_start, range.rx_end, range.tx_start, range.tx_end⟩, knows⟩
  | wait =>
    obtain rfl := Option.some.inj possible
    refine ⟨range, ?_⟩
    change sp.Knows (.writing (if after_slot sp.tx_end = sp.tx_start then .wait else .fill) len ptr no_block)
    split
    · exact knows
    · rename_i room
      exact ⟨knows, room⟩
  | fill =>
    obtain ⟨more, room⟩ := knows
    obtain ⟨c, rest, rfl⟩ := List.exists_cons_of_ne_nil more
    simp only [altera_avalon_uart_write, List.head?_cons, store_eq range.tx_end] at possible
    obtain rfl := Option.some.inj possible
    refine ⟨⟨range.rx_start, range.rx_end, range.tx_start, range.tx_end⟩, room, c, rest, rfl, ?_⟩
    change load (sp.tx_buf.set sp.tx_end.toNat c range.tx_end) sp.tx_end = some c
    rw [load_eq range.tx_end, Vector.getElem_set_self]
  | advance =>
    obtain rfl := Option.some.inj possible
    exact ⟨⟨range.rx_start, range.rx_end, range.tx_start, after_slot_lt _⟩, trivial⟩
  | leave =>
    obtain rfl := Option.some.inj possible
    exact ⟨⟨range.rx_start, range.rx_end, range.tx_start, range.tx_end⟩, trivial⟩

theorem knows_reading {pc : ReadPc} {len count : Nat} {block : Bool} (other : pc ≠ .advance) :
    sp.Knows (.reading pc len count block) := by
  cases pc with
  | advance => exact absurd rfl other
  | _ => exact trivial

theorem read_again_ne (len count : Nat) : read_again len count ≠ .advance := by
  unfold read_again
  split <;> simp

theorem read_valid {pc : ReadPc} {len count : Nat} {block : Bool} (range : sp.InRange)
    (possible : altera_avalon_uart_read sp len count block pc = some f) : f.sp.InRange ∧ f.sp.Knows f.thread := by
  cases pc with
  | test =>
    obtain rfl := Option.some.inj possible
    exact ⟨range, knows_reading (by split <;> simp)⟩
  | fetch =>
    simp only [altera_avalon_uart_read, load_eq range.rx_start] at possible
    obtain rfl := Option.some.inj possible
    exact ⟨range, Nat.succ_pos count⟩
  | advance =>
    obtain rfl := Option.some.inj possible
    exact ⟨⟨after_slot_lt _, range.rx_end, range.tx_start, range.tx_end⟩, trivial⟩
  | empty =>
    simp only [altera_avalon_uart_read] at possible
    split at possible
    · obtain rfl := Option.some.inj possible
      exact ⟨range, knows_reading (by split <;> simp)⟩
    · obtain rfl := Option.some.inj possible
      exact ⟨range, knows_reading (read_again_ne len count)⟩
  | enable =>
    obtain rfl := Option.some.inj possible
    exact ⟨⟨range.rx_start, range.rx_end, range.tx_start, range.tx_end⟩, knows_reading (read_again_ne len count)⟩
  | leave =>
    obtain rfl := Option.some.inj possible
    exact ⟨⟨range.rx_start, range.rx_end, range.tx_start, range.tx_end⟩, trivial⟩

/-- A step of the code outside of interrupts leaves the buffers and indices in order. -/
theorem thread_valid (valid : m.Valid) (possible : m.thread.step m.sp = some f) :
    f.sp.InRange ∧ f.sp.Knows f.thread := by
  obtain ⟨sp, thread⟩ := m
  obtain ⟨range, knows⟩ := valid
  cases thread with
  | returned r => exact nomatch possible
  | closing no_block =>
    obtain rfl := Option.some.inj possible
    unfold altera_avalon_uart_close
    split
    · exact ⟨range, trivial⟩
    · split <;> exact ⟨range, trivial⟩
  | reading pc len count block => exact read_valid range possible
  | writing pc len ptr no_block => exact write_valid range knows possible

theorem effect_valid (valid : m.Valid) {e : Event} (possible : m.effect e = some f) :
    f.sp.InRange ∧ f.sp.Knows f.thread := by
  cases e with
  | write ptr no_block =>
    obtain rfl := call_effect possible
    exact ⟨valid.range, trivial⟩
  | read len block =>
    obtain rfl := call_effect possible
    exact ⟨valid.range, trivial⟩
  | close no_block =>
    obtain rfl := call_effect possible
    exact ⟨valid.range, trivial⟩
  | thread => exact thread_valid valid possible
  | irq es =>
    obtain ⟨sp, rfl, runs⟩ := irq_effect possible
    exact ⟨irq_inRange valid.range runs, irq_knows valid.range runs valid.knows⟩

theorem Machine.Valid.step (valid : m.Valid) (e : Event) : (m.step e).Valid := by
  unfold Machine.step
  cases possible : m.effect e with
  | none => exact valid
  | some f =>
    obtain ⟨range, knows⟩ := effect_valid valid possible
    exact ⟨range, knows⟩

theorem valid_start : Machine.start.Valid := ⟨⟨by decide, by decide, by decide, by decide⟩, trivial⟩

end Dspc.AvalonUart
