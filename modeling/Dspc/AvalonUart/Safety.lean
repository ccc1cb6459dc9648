import Dspc.AvalonUart.Polling

namespace Dspc.AvalonUart
open Vhdl RegisterIo

/-! The driver stays inside its buffers. -/

section Irq

variable {sp sp' : State} {status : BitVec 32} {es : List (Access (BitVec 3) (BitVec 32))}

theorem put_ends {reg : BitVec 3} {data : BitVec 32} : (Prog.put reg data >>= fun _ => (pure sp : Io State)).Ends 1 :=
  .write (.done 0 sp)

theorem rxirq_ends (range : sp.InRange) : (altera_avalon_uart_rxirq sp status).Ends 2 := by
  unfold altera_avalon_uart_rxirq
  split
  · exact .done 2 sp
  · rw [Prog.get_bind]
    refine .read fun data => Prog.Ends.bind (n := 0) (m := 1) ?_ fun _ rx_buf _ => ?_
    · rw [store_eq range.rx_end]
      exact .done 0 _
    · dsimp only
      split
      · exact put_ends
      · exact .done 1 _

theorem txirq_transfer_ends (range : sp.InRange) : (txirq_transfer sp status).Ends 1 := by
  unfold txirq_transfer
  split
  · split
    · refine Prog.Ends.bind (n := 0) (m := 1) ?_ fun _ data _ => put_ends
      rw [load_eq range.tx_start]
      exact .done 0 _
    · rw [Prog.get_bind]
      refine .read fun status => ?_
      split <;> exact .done 0 _
  · exact .done 1 sp

theorem txirq_ends (range : sp.InRange) : (altera_avalon_uart_txirq sp status).Ends 2 :=
  Prog.Ends.bind (n := 1) (m := 1) (txirq_transfer_ends range) fun _ _ _ => put_ends

theorem fetches_inRange (range : sp.InRange) (fetches : Fetches sp es sp') : sp'.InRange := by
  cases fetches <;> exact ⟨range.rx_start, after_slot_lt _, range.tx_start, range.tx_end⟩

/-- The three accesses to `status`, and at most two for each direction. -/
theorem irq_ends (range : sp.InRange) : (altera_avalon_uart_irq sp).Ends 7 := by
  unfold altera_avalon_uart_irq
  rw [Prog.get_bind]
  refine .read fun status => ?_
  rw [Prog.put_bind, Prog.get_bind]
  refine .write (.read fun dummy => Prog.Ends.bind (n := 2) (m := 2) ?_ fun es sp₁ runs => ?_)
  · split
    · exact rxirq_ends range
    · exact .done 2 sp
  · have range₁ : sp₁.InRange := by
      split at runs
      · rcases rxirq_runs runs with ⟨_, _, rfl⟩ | ⟨_, fetches⟩
        · exact range
        · exact fetches_inRange range fetches
      · obtain ⟨_, rfl⟩ := Prog.runs_pure.mp runs
        exact range
    split
    · exact txirq_ends range₁
    · exact .done 2 sp₁

end Irq

section Thread

variable {sp : State} {m : Machine}

theorem write_goes {pc : WritePc} {len : Nat} {ptr : List (BitVec 8)} {no_block : Bool} (range : sp.InRange)
    (knows : sp.Knows (.writing pc len ptr no_block)) : altera_avalon_uart_write sp len ptr no_block pc ≠ none := by
  cases pc with
  | test =>
    simp only [altera_avalon_uart_write]
    split
    · simp
    · split <;> simp
  | fill =>
    obtain ⟨c, rest, rfl⟩ := List.exists_cons_of_ne_nil knows.1
    simp [altera_avalon_uart_write, store_eq range.tx_end]
  | enable | wait | advance | leave => simp [altera_avalon_uart_write]

theorem read_goes {pc : ReadPc} {len count : Nat} {block : Bool} (range : sp.InRange) :
    altera_avalon_uart_read sp len count block pc ≠ none := by
  cases pc with
  | fetch => simp [altera_avalon_uart_read, load_eq range.rx_start]
  | empty =>
    simp only [altera_avalon_uart_read]
    split <;> simp
  | test | advance | enable | leave => simp [altera_avalon_uart_read]

/-- A call goes on until it returns. -/
theorem thread_goes (valid : m.Valid) : m.thread.step m.sp = none ↔ ∃ r, m.thread = .returned r := by
  obtain ⟨sp, thread⟩ := m
  constructor
  · intro stuck
    cases thread with
    | returned r => exact ⟨r, rfl⟩
    | writing pc len ptr no_block => exact absurd stuck (write_goes valid.range valid.knows)
    | reading pc len count block => exact absurd stuck (read_goes valid.range)
    | closing no_block => cases stuck
  · rintro ⟨r, same⟩
    simp only at same
    rw [same]
    rfl

end Thread

/-- In every order of calls, steps and interrupts the indices stay inside the buffers. Whatever
the device shows, an interrupt neither reads nor writes beside them and comes to its end in at
most seven accesses, and a call goes on until it returns. -/
theorem memory_safe (w : List Event) : (machine w).sp.InRange ∧
    ((altera_avalon_uart_irq (machine w).sp).Ends 7 ∧ (altera_avalon_uart_irq (machine w).sp).Defined ∧
      ∀ es p, run? Prog.after (altera_avalon_uart_irq (machine w).sp) es = some p → es.length ≤ 7) ∧
    ((machine w).thread.step (machine w).sp = none ↔ ∃ r, (machine w).thread = .returned r) := by
  have valid := machine_valid w
  have ends := irq_ends valid.range
  exact ⟨valid.range, ⟨ends, ends.defined, fun es p reached => (ends.left reached).1⟩, thread_goes valid⟩

end Dspc.AvalonUart
