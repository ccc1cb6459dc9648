import Dspc.AvalonUart.Board

namespace Dspc.AvalonUart
open Vhdl RegisterIo
open SystemUart (Slot arrivals synchronizer txd)
open scoped List

/-! The drivers of two boards, with a line between their devices. -/

variable {divisor : BitVec 9} {altera_std_synchronizer : List Bool → List Bool} {a b : List Slot}
  {aEvents bEvents : List Event}

section Drivers

variable (connected : SystemUart.Connected divisor altera_std_synchronizer a b)
  (sender : OnBoard divisor a aEvents) (receiver : OnBoard divisor b bEvents)
include connected sender

theorem arrivals_prefix_writes : arrivals divisor b <+: writes aEvents := by
  rw [sender.writes_account.1, List.append_assoc]
  exact (connected.arrivals_sent sender.unbroken).trans (List.prefix_append _ _)

theorem writes_prefix_arrivals {slots later : List Slot} {events : List Event} (cut : a = slots ++ later)
    (board : OnBoard divisor slots events) (empty : (machine events).sp.txHeld = [])
    (idle : (SystemUart.state divisor slots).tx.tx_shift_empty = true)
    (ready : (SystemUart.state divisor slots).tx.tx_ready = true)
    (long : 7 ≤ (later.flatMap SystemUart.inputs).length) : writes events <+: arrivals divisor b := by
  rw [board.writes_sent connected.three empty idle ready]
  exact connected.sent_arrived sender.unbroken cut idle long

include receiver

/-- What is read on one board was written on the other, in the same order and each character
once, in any order of steps and interrupts on both. When the interrupts of the receiver are
in time, nothing is left out, and what the sender has got rid of has arrived. -/
theorem drivers_deliver :
    received divisor b bEvents <+ writes aEvents ∧
      (InTime divisor b bEvents → received divisor b bEvents <+: writes aEvents ∧
        ∀ slots later events, a = slots ++ later → OnBoard divisor slots events →
          (machine events).sp.txHeld = [] → (SystemUart.state divisor slots).tx.tx_shift_empty = true →
          (SystemUart.state divisor slots).tx.tx_ready = true → 7 ≤ (later.flatMap SystemUart.inputs).length →
          writes events <+: received divisor b bEvents) := by
  have ahead := arrivals_prefix_writes connected sender
  refine ⟨receiver.received_sublist.trans ahead.sublist, fun inTime => ?_⟩
  rw [receiver.received_all_iff.mpr inTime]
  refine ⟨ahead, fun slots later events cut board empty idle ready long => ?_⟩
  exact writes_prefix_arrivals connected sender cut board empty idle ready long

end Drivers

theorem connected_sender : SystemUart.Connected 4 synchronizer senderSlots receiverSlots :=
  ⟨by decide, fun _ => rfl, by decide +kernel⟩

theorem onBoard_take : OnBoard 4 (senderSlots.take 72) senderEvents := by decide +kernel

theorem drivers_deliver_character :
    writes senderEvents <+: received 4 receiverSlots receiverEvents :=
  ((drivers_deliver connected_sender onBoard_sender onBoard_receiver).2 (by decide +kernel)).2
    (senderSlots.take 72) (senderSlots.drop 72) senderEvents (List.take_append_drop 72 senderSlots).symm
    onBoard_take (by decide +kernel) (by decide +kernel) (by decide +kernel) (by decide +kernel)

end Dspc.AvalonUart
