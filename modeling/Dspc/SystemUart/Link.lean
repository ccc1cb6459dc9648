import Dspc.SystemUart.Tx
import Dspc.SystemUart.Rx

namespace Dspc.SystemUart
open Vhdl Serial

/-- The `txd` of one device is the `rxd` of another one. The synchronizer in front of the
receiver is not part of the module: it is two registers, which are zero after reset. -/
structure Wired (divisor : BitVec 9) (altera_std_synchronizer : List Bool → List Bool) (u : List Tx.Inputs)
    (v : List Rx.Inputs) : Prop where
  three : 3 ≤ divisor.toNat
  tx_divisor : ∀ i ∈ u, i.baud_divisor = divisor
  rx_divisor : ∀ i ∈ v, i.baud_divisor = divisor
  unbroken : ∀ i ∈ u, i.do_force_break = false
  depth : ∀ line, altera_std_synchronizer line = ([false, false] ++ line).take line.length
  rxd : v.map (·.sync_rxd) = altera_std_synchronizer (Tx.txds Tx.reset u)

/-- The shift register that holds a byte between its start bit and its stop bit. -/
def frame (b : BitVec 8) : BitVec 10 := 1#1 ++ b ++ 0#1

/-- The characters that are complete after a run. -/
def arrived (v : List Rx.Inputs) : List (BitVec 10) :=
  Rx.characters Rx.reset v ++ Rx.received (run Rx.posedge Rx.reset v)

theorem lsbFirst_frame (b : BitVec 8) : lsbFirst (frame b) = framed (lsbFirst b) :=
  (shifts_load b).lsbFirst_eq (by simp [length_lsbFirst])

theorem prefix_of_map {α β : Type} {f : α → β} (injective : Function.Injective f) {l m : List α}
    (ahead : l.map f <+: m.map f) : l <+: m := by
  obtain ⟨l', ahead', same⟩ := List.prefix_map_iff.mp ahead
  rwa [List.map_injective_iff.mpr injective same]

theorem map_lsbFirst_frame (bytes : List (BitVec 8)) :
    (bytes.map frame).map lsbFirst = (bytes.map lsbFirst).map framed := by
  simp only [List.map_map, Function.comp_def, lsbFirst_frame]

/-- When the registers of the synchronizer are through and the line is high, the receiver
waits for a start bit. -/
theorem listen_reset (d h : Nat) :
    (listen d h Rx.start [false, false, true]).phase = .idle ∧
      (listen d h Rx.start [false, false, true]).prev = true ∧ heard d h Rx.start [false, false, true] = [] :=
  ⟨rfl, rfl, rfl⟩

section Link

variable {divisor : BitVec 9} {altera_std_synchronizer : List Bool → List Bool} {u : List Tx.Inputs}
  {v : List Rx.Inputs}

theorem Wired.init {i : Tx.Inputs} {j : Rx.Inputs}
    (wired : Wired divisor altera_std_synchronizer (u ++ [i]) (v ++ [j])) :
    Wired divisor altera_std_synchronizer u v where
  three := wired.three
  tx_divisor := fun i member => wired.tx_divisor i (List.mem_append_left _ member)
  rx_divisor := fun j member => wired.rx_divisor j (List.mem_append_left _ member)
  unbroken := fun i member => wired.unbroken i (List.mem_append_left _ member)
  depth := wired.depth
  rxd := by
    have line := congrArg List.dropLast wired.rxd
    rw [List.map_append, List.map_singleton, List.dropLast_concat, wired.depth, Tx.txds_concat] at line
    rw [line, wired.depth, List.length_append, List.length_singleton, List.dropLast_eq_take, List.length_take,
      List.length_append, List.length_append, List.length_singleton, List.take_take, ← List.append_assoc,
      List.take_append_of_le_length (by simp; omega)]
    congr 1
    simp only [List.length_cons, List.length_nil]
    omega

variable (wired : Wired divisor altera_std_synchronizer u v)
include wired

/-- The receiver gets the line three cycles late. -/
theorem Wired.line : v.map (·.sync_rxd) =
    ([false, false, true] ++ Sender.lines divisor.toNat .idle (Tx.requests Tx.reset u)).take u.length := by
  have three := wired.three
  have same := (Tx.run_inPhase (by omega) wired.tx_divisor).2.2 wired.unbroken
  have length : (Tx.txds Tx.reset u).length = u.length := length_trace _ _ _ u
  have whole : [false, false, true] ++ Sender.lines divisor.toNat .idle (Tx.requests Tx.reset u) =
      [false, false] ++ Tx.txds Tx.reset u ++ [(run Tx.posedge Tx.reset u).txd] := by
    rw [List.append_assoc, same]
    rfl
  have cut : ([false, false] ++ Tx.txds Tx.reset u ++ [(run Tx.posedge Tx.reset u).txd]).take u.length =
      ([false, false] ++ Tx.txds Tx.reset u).take u.length :=
    List.take_append_of_le_length (by rw [List.length_append, length]; omega)
  rw [wired.rxd, wired.depth, length, whole, cut]

theorem Wired.arrived_heard : (arrived v).map lsbFirst =
    heard divisor.toNat (divisor.toNat / 2) Rx.start (v.map (·.sync_rxd)) := by
  have three := wired.three
  exact (Rx.run_follows (by omega) wired.rx_divisor).2

/-- What a resting transmitter has sent has arrived six cycles later, whatever it does then. -/
theorem Wired.arrived_all {u₁ u₂ : List Tx.Inputs} (cut : u = u₁ ++ u₂) (later : 6 ≤ u₂.length)
    (resting : (run Tx.posedge Tx.reset u₁).tx_shift_empty = true) :
    (Tx.sent Tx.reset u₁).map frame <+: arrived v := by
  have three := wired.three
  have constant : ∀ i ∈ u₁, i.baud_divisor = divisor := fun i member =>
    wired.tx_divisor i (cut ▸ List.mem_append_left u₂ member)
  obtain ⟨idle, high, silent⟩ := listen_reset divisor.toNat (divisor.toNat / 2)
  have still := Tx.run_idle (by omega) constant resting
  have spoken := Tx.spoken (by omega) constant
  rw [still] at spoken
  obtain ⟨pause, quiet, told⟩ := spoken.completed (h := divisor.toNat / 2) (by omega) (by omega) idle high
  have length : (Sender.lines divisor.toNat .idle (Tx.requests Tx.reset u₁)).length = u₁.length :=
    (length_trace _ _ _ _).trans (length_trace _ _ _ _)
  obtain ⟨more, rests⟩ := Sender.lines_idle (d := divisor.toNat)
    (w := Tx.requests (run Tx.posedge Tx.reset u₁) u₂) (by rw [Tx.requests, length_trace]; omega)
  have line : v.map (·.sync_rxd) =
      [false, false, true] ++ (Sender.lines divisor.toNat .idle (Tx.requests Tx.reset u₁) ++ pause) ++
        more.take (u₂.length - 6) := by
    have parts : [false, false, true] ++ Sender.lines divisor.toNat .idle (Tx.requests Tx.reset u) =
        [false, false, true] ++ (Sender.lines divisor.toNat .idle (Tx.requests Tx.reset u₁) ++ pause) ++ more := by
      rw [cut, Tx.requests_append, Sender.lines_append, still, rests, quiet trivial, List.append_assoc,
        List.append_assoc]
    have size : ([false, false, true] ++
        (Sender.lines divisor.toNat .idle (Tx.requests Tx.reset u₁) ++ pause)).length = u₁.length + 6 := by
      rw [quiet trivial, List.length_append, List.length_append, length]
      simp only [List.length_cons, List.length_nil]
      omega
    rw [wired.line, parts, List.take_append, size, cut, List.length_append, List.take_of_length_le (by omega)]
    congr 2
    omega
  apply prefix_of_map lsbFirst_injective
  rw [wired.arrived_heard, line, heard_append, heard_append, silent, List.nil_append, told, map_lsbFirst_frame]
  exact List.prefix_append _ _

/-- One cycle after that it is complete in the receiver. -/
theorem Wired.characters_all {u₁ u₂ : List Tx.Inputs} (cut : u = u₁ ++ u₂) (later : 7 ≤ u₂.length)
    (resting : (run Tx.posedge Tx.reset u₁).tx_shift_empty = true) :
    (Tx.sent Tx.reset u₁).map frame <+: Rx.characters Rx.reset v := by
  have size : v.length = u.length := by
    have length := congrArg List.length wired.rxd
    rw [List.length_map, wired.depth, Tx.txds, length_trace, List.length_take, List.length_append,
      length_trace] at length
    simpa using length
  rcases List.eq_nil_or_concat u₂ with rfl | ⟨u₃, i, rfl⟩
  · exact absurd later (by decide)
  · rcases List.eq_nil_or_concat v with rfl | ⟨v', j, rfl⟩
    · simp [cut] at size
    · subst cut
      rw [List.concat_eq_append] at wired later ⊢
      rw [List.concat_eq_append, ← List.append_assoc] at wired
      rw [Rx.characters_concat]
      exact wired.init.arrived_all rfl (by simpa using later) resting

/-- Nothing but what is sent arrives, in its order and with its start and stop bits, whatever
the two sides do. -/
theorem Wired.arrived_sent : arrived v <+: (Tx.sent Tx.reset u).map frame := by
  have three := wired.three
  obtain ⟨idle, high, silent⟩ := listen_reset divisor.toNat (divisor.toNat / 2)
  have told := (Tx.spoken (by omega) wired.tx_divisor).heard_sent (h := divisor.toNat / 2) (by omega) (by omega)
    idle high
  apply prefix_of_map lsbFirst_injective
  rw [wired.arrived_heard, wired.line, map_lsbFirst_frame]
  refine (heard_take u.length).trans ?_
  rwa [heard_append, silent, List.nil_append]

end Link

end Dspc.SystemUart
