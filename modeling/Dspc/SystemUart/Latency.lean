import Dspc.SystemUart.EndToEnd

namespace Dspc.SystemUart
open Vhdl RegisterIo Serial
open scoped List

/-! How long the transmitter takes for what was written. -/

namespace Tx

variable {divisor : BitVec 9} {i : Inputs} {s : State} {p : Sender.Phase} {w : List Inputs}

/-- The cycles of a character, and those until it begins. -/
def character (divisor : BitVec 9) : Nat := 10 * (divisor.toNat + 1) + 2

/-- The cycles until `txdata` is empty. -/
def untilReady (divisor : BitVec 9) : Sender.Phase → Nat
  | .first => 0
  | .second => 0
  | p => Sender.left divisor.toNat p + 1

/-- The cycles until the line rests, when `txdata` is empty. -/
def untilRest (divisor : BitVec 9) : Sender.Phase → Nat
  | .second => character divisor
  | p => Sender.left divisor.toNat p

/-- A cycle in which nothing is written. -/
def Quiet (divisor : BitVec 9) (i : Inputs) : Prop := i.baud_divisor = divisor ∧ tx_wr_strobe_onset i = false

/-- Everything is sent. -/
def Rests (divisor : BitVec 9) (s : State) : Prop := s.tx_ready = true ∧ InPhase divisor s .idle

theorem untilReady_le (p : Sender.Phase) : untilReady divisor p ≤ Sender.left divisor.toNat p + 1 := by
  cases p with
  | first | second => exact Nat.zero_le _
  | idle | shift => exact le_rfl

theorem ready_stays (quiet : Quiet divisor i) (ready : s.tx_ready = true) : (posedge i s).tx_ready = true := by
  simp [posedge, quiet.2, ready]

theorem untilReady_next (positive : 0 < divisor.toNat) (quiet : Quiet divisor i) (phase : InPhase divisor s p)
    (busy : s.tx_ready = false) : (posedge i s).tx_ready = true ∨
      ∃ q, untilReady divisor q < untilReady divisor p ∧ InPhase divisor (posedge i s) q := by
  have step := phase.step positive quiet.1
  cases p with
  | first | second => exact .inl (by simp [posedge, quiet.2, phase.2.2.1, phase.2.1])
  | idle =>
    rw [Sender.next, request, if_pos (by rw [busy]; rfl)] at step
    exact .inr ⟨.first, Nat.zero_lt_one, step⟩
  | shift level wait bit bits =>
    refine .inr ⟨_, ?_, step⟩
    have less := Sender.left_shift (d := divisor.toNat) (i := request i s) level wait bit bits
    exact Nat.lt_of_le_of_lt (untilReady_le _) (by rw [less]; exact Nat.lt_succ_self _)

theorem rests_step (positive : 0 < divisor.toNat) (quiet : Quiet divisor i) (rests : Rests divisor s) :
    Rests divisor (posedge i s) ∧ (posedge i s).tx_shift_empty = true := by
  obtain ⟨ready, phase⟩ := rests
  have step := phase.step positive quiet.1
  rw [Sender.next, request, if_neg (by rw [ready]; exact Bool.false_ne_true)] at step
  refine ⟨⟨ready_stays quiet ready, step⟩, ?_⟩
  simp [posedge, ready, shift_done_iff.mpr phase.1]

theorem untilRest_next (positive : 0 < divisor.toNat) (quiet : Quiet divisor i) (phase : InPhase divisor s p)
    (ready : s.tx_ready = true) : Rests divisor (posedge i s) ∨
      ∃ q, untilRest divisor q < untilRest divisor p ∧ InPhase divisor (posedge i s) q := by
  have step := phase.step positive quiet.1
  cases p with
  | first => exact absurd (phase.2.2.2.symm.trans ready) Bool.false_ne_true
  | idle => exact .inl (rests_step positive quiet ⟨ready, phase⟩).1
  | second =>
    have begun := Sender.left_begin (d := divisor.toNat) false false (length_lsbFirst i.tx_data)
    exact .inr ⟨.shift false (divisor.toNat + 1) false (lsbFirst i.tx_data ++ [true]), Nat.lt_succ_of_le begun.le, step⟩
  | shift level wait bit bits =>
    have less := Sender.left_shift (d := divisor.toNat) (i := request i s) level wait bit bits
    match wait, bits with
    | 0, [] => exact .inl ⟨ready_stays quiet ready, step⟩
    | 0, b :: bits => exact .inr ⟨.shift bit divisor.toNat b bits, Nat.lt_of_succ_le less.le, step⟩
    | wait + 1, bits => exact .inr ⟨.shift bit wait bit bits, Nat.lt_of_succ_le less.le, step⟩

section Run

theorem untilRest_le (bound : Sender.left divisor.toNat p < character divisor) :
    untilRest divisor p ≤ character divisor := by
  cases p with
  | second => exact le_rfl
  | first | idle | shift => exact bound.le

variable (positive : 0 < divisor.toNat) (quiet : ∀ i ∈ w, Quiet divisor i)
include quiet

theorem along_quiet : Along posedge (fun i _ => Quiet divisor i) s w :=
  along_of_invariant (I := fun _ => True) (fun i member _ _ => ⟨quiet i member, trivial⟩) trivial

include positive

/-- `txdata` is empty again before the character that it waits for is at its end. -/
theorem run_ready (phase : InPhase divisor s p) (bound : Sender.left divisor.toNat p < character divisor)
    (long : character divisor < w.length) : (run posedge s w).tx_ready = true := by
  refine (along_quiet quiet).reaches (fun s => s.tx_ready = true)
    (fun n s => ∃ p, untilReady divisor p ≤ n ∧ InPhase divisor s p) ?_ (fun i s => ready_stays)
    ⟨p, (untilReady_le p).trans bound, phase⟩ long
  rintro i s n quiet ⟨p, few, phase⟩
  cases ready : s.tx_ready with
  | true => exact .inl (ready_stays quiet ready)
  | false =>
    refine (untilReady_next positive quiet phase ready).imp id ?_
    rintro ⟨q, fewer, next⟩
    exact ⟨untilReady divisor q, by omega, q, le_rfl, next⟩

/-- Then the line rests when it has been sent. -/
theorem run_rests (phase : InPhase divisor s p) (bound : Sender.left divisor.toNat p < character divisor)
    (ready : s.tx_ready = true) (long : character divisor < w.length) : Rests divisor (run posedge s w) := by
  refine (along_quiet quiet).reaches (Rests divisor)
    (fun n s => s.tx_ready = true ∧ ∃ p, untilRest divisor p ≤ n ∧ InPhase divisor s p) ?_
    (fun i s quiet rests => (rests_step positive quiet rests).1) ⟨ready, p, untilRest_le bound, phase⟩ long
  rintro i s n quiet ⟨ready, p, few, phase⟩
  refine (untilRest_next positive quiet phase ready).imp id ?_
  rintro ⟨q, fewer, next⟩
  exact ⟨untilRest divisor q, by omega, ready_stays quiet ready, q, le_rfl, next⟩

omit quiet in
/-- The phase of the sender after a run, with the cycles that are left of its character. -/
theorem run_left {u : List Inputs} (constant : ∀ i ∈ u, i.baud_divisor = divisor) :
    ∃ p, Sender.left divisor.toNat p < character divisor ∧ InPhase divisor (run posedge reset u) p :=
  ⟨_, Nat.lt_succ_of_le (Sender.left_run length_data_requests), (run_inPhase positive constant).1⟩

theorem run_sent {u : List Inputs} (constant : ∀ i ∈ u, i.baud_divisor = divisor)
    (long : 2 * (character divisor + 1) < w.length) : (run posedge reset (u ++ w)).tx_ready = true ∧
      (run posedge reset (u ++ w)).tx_shift_empty = true := by
  rcases List.eq_nil_or_concat w with rfl | ⟨v, i, rfl⟩
  · exact absurd long (Nat.not_lt_zero _)
  · rw [List.concat_eq_append] at quiet long ⊢
    rw [List.length_append, List.length_singleton] at long
    obtain ⟨v₁, v₂, rfl, size⟩ : ∃ v₁ v₂, v = v₁ ++ v₂ ∧ v₁.length = character divisor + 1 :=
      ⟨_, _, (List.take_append_drop (character divisor + 1) v).symm, List.length_take_of_le (by omega)⟩
    rw [List.length_append, size] at long
    have first : ∀ i ∈ v₁, Quiet divisor i := fun j member =>
      quiet j (List.mem_append_left _ (List.mem_append_left _ member))
    have second : ∀ i ∈ v₂, Quiet divisor i := fun j member =>
      quiet j (List.mem_append_left _ (List.mem_append_right _ member))
    obtain ⟨p, bound, phase⟩ := run_left positive constant
    have ready := run_ready positive first phase bound (by omega)
    rw [← run_append] at ready
    obtain ⟨q, bound', phase'⟩ := run_left positive (u := u ++ v₁)
      (List.forall_mem_append.mpr ⟨constant, fun j member => (first j member).1⟩)
    have rests := run_rests positive second phase' bound' ready (by omega)
    rw [← List.append_assoc, ← List.append_assoc, run_append, run_cons, run_nil, run_append]
    obtain ⟨still, empty⟩ := rests_step positive (quiet i (List.mem_append_right _ List.mem_cons_self)) rests
    exact ⟨still.1, empty⟩

end Run

end Tx

section Session

variable {divisor : BitVec 9} {w v : List Slot}

/-- Slots in which nothing is written to `txdata`. -/
def Silent (v : List Slot) : Prop := ∀ a ∈ v, ∀ data, a.op ≠ .wr 1 data

theorem quiet_slots (s : State) (silent : Silent v) :
    ∀ i ∈ txCycles divisor s (v.flatMap inputs), Tx.Quiet divisor i := by
  have quiet {a : Slot} {s : State} (none : ∀ data, a.op ≠ .wr 1 data) (begins x : Bool) :
      ∀ e ∈ [txInputs divisor (cycle (request a.op) begins x) s], Tx.Quiet divisor e := by
    intro e member
    rw [List.mem_singleton.mp member]
    refine ⟨rfl, Bool.eq_false_iff.mpr fun onset => ?_⟩
    obtain ⟨_, data, writes⟩ := (tx_wr_strobe_onset_cycle begins).mp onset
    exact none data writes
  refine along_forall.mp
    (along_slots (along_of_invariant (I := fun _ => True) (fun a member s _ => ⟨?_, trivial⟩) trivial))
  have none := silent a member
  exact along_inputs (fun _ => quiet none _ _) (fun _ => quiet none _ _) (fun _ => quiet none _ _)

theorem tx_append (w v : List Slot) : (state divisor (w ++ v)).tx =
    run Tx.posedge (state divisor w).tx (txCycles divisor (state divisor w) (v.flatMap inputs)) := by
  rw [state_tx, txTrace_append, run_append, ← state_tx]

theorem log_silent (silent : Silent v) :
    (log divisor (w ++ v)).flatMap txdata = (log divisor w).flatMap txdata := by
  induction v using List.reverseRecOn with
  | nil => rw [List.append_nil]
  | append_singleton v a ih =>
    have none : (found (state divisor (w ++ v)) a.op).flatMap txdata = [] :=
      found_txdata.mpr (silent a (List.mem_append_right _ List.mem_cons_self))
    rw [← List.append_assoc, log_concat, List.flatMap_append, none, List.append_nil]
    exact ih fun x member => silent x (List.mem_append_left _ member)

/-- The transmitter takes the next byte again when no more than a character has gone by. -/
theorem ready_later (positive : 0 < divisor.toNat) (silent : Silent v)
    (long : Tx.character divisor < (v.flatMap inputs).length) : (state divisor (w ++ v)).tx.tx_ready = true := by
  obtain ⟨p, bound, phase⟩ := Tx.run_left positive (@txTrace_divisor divisor w)
  rw [← state_tx] at phase
  rw [tx_append]
  exact Tx.run_ready positive (quiet_slots _ silent) phase bound (by rwa [length_txCycles])

/-- It has sent everything when no more than two characters have gone by. -/
theorem sent_later (positive : 0 < divisor.toNat) (silent : Silent v)
    (long : 2 * (Tx.character divisor + 1) < (v.flatMap inputs).length) :
    (state divisor (w ++ v)).tx.tx_ready = true ∧ (state divisor (w ++ v)).tx.tx_shift_empty = true := by
  rw [state_tx, txTrace_append]
  exact Tx.run_sent positive (quiet_slots _ silent) txTrace_divisor (by rwa [length_txCycles])

end Session

section Connected

variable {divisor : BitVec 9} {altera_std_synchronizer : List Bool → List Bool}
  {a b w v u : List Slot}

theorem log_append (w v : List Slot) : log divisor w <+: log divisor (w ++ v) := by
  rw [log, log, trace_append (run?_pure _ _ w)]
  exact List.prefix_append _ _

/-- What was written before two characters have gone by without writing, and seven cycles more,
has arrived: software that waits that long needs no look at TMT. -/
theorem Connected.delivered_later (connected : Connected divisor altera_std_synchronizer a b)
    (unbroken : ∀ x ∈ a, ∀ data, x.op = .wr 3 data → data.getLsbD 9 = false)
    (trdy : Polls 6 txdata (log divisor a)) (rrdy : Polls 7 rxdata (log divisor b))
    (quiet : ∀ x ∈ b, ∀ data, x.op ≠ .wr 2 data) (clear : (state divisor b).rx.rx_overrun = false)
    (cut : a = w ++ v ++ u) (silent : Silent v) (long : 2 * (Tx.character divisor + 1) < (v.flatMap inputs).length)
    (later : 7 ≤ (u.flatMap inputs).length) :
    (log divisor w).flatMap txdata <+: (log divisor b).flatMap rxdata ++ unread (state divisor b) := by
  have three := connected.three
  obtain ⟨ready, empty⟩ := sent_later (by omega) silent long (w := w)
  rw [(read_account quiet rrdy).mpr clear]
  exact ((log_append w v).flatMap txdata).trans (connected.written_arrived unbroken trdy cut empty ready later)

end Connected

theorem delivered_later_byte :
    (log 4 (writer.take 2)).flatMap txdata <+: (log 4 reader).flatMap rxdata ++ unread (state 4 reader) :=
  connected_writer.delivered_later (v := List.replicate 107 (high .idle)) (u := List.replicate 13 (high .idle))
    writer_unbroken (by decide +kernel) (by decide +kernel) reader_quiet (by decide +kernel) rfl
    (fun a member => by rw [List.eq_of_mem_replicate member]; exact nofun) (by decide +kernel) (by decide +kernel)

end Dspc.SystemUart
