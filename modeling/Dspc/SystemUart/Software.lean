import Dspc.SystemUart.Session

namespace Dspc.SystemUart
open Vhdl RegisterIo
open scoped List

/-! What software is promised that uses the device through its registers. -/

section Accounts

variable {divisor : BitVec 9} {w : List Slot}

/-- What was written is sent in its order, but for the bytes that were overwritten before. -/
theorem sent_sublist (w : List Slot) :
    sent divisor w ++ pending (state divisor w) <+ (log divisor w).flatMap txdata := by
  have along := (tx_steady_session divisor w).mono
    (Q := fun i s => (txBuffer divisor).Conserves i s ∨ (txBuffer divisor).Drops i s)
    fun i _ s here => tx_sublist here.1 here.2
  rw [← puts_session, state_eq]
  exact (txBuffer divisor).takes_sublist along

/-- The bit TOE of `status` tells whether bytes were overwritten. -/
theorem sent_account (quiet : ∀ a ∈ w, ∀ data, a.op ≠ .wr 2 data) :
    sent divisor w ++ pending (state divisor w) = (log divisor w).flatMap txdata ↔
      (state divisor w).tx.tx_overrun = false := by
  have along := ((tx_steady_session divisor w).and (status_quiet_session divisor quiet)).mono
    fun i _ s here => tx_accounts divisor here.1.1 here.2 here.1.2
  rw [← puts_session, state_eq]
  exact (txBuffer divisor).account_iff rfl along

end Accounts

/-- Three bytes are written at once, for which there is no room. -/
def hasty : List Slot := [1, 2, 3].map fun data => ⟨.wr 1 data, true, true⟩

theorem sent_account_hasty :
    sent 4 hasty ++ pending (state 4 hasty) = (log 4 hasty).flatMap txdata ↔
      (state 4 hasty).tx.tx_overrun = false :=
  sent_account (by simp [hasty])

section Polling

/-- The bit of `status` that an access shows. -/
def shows (bit : Nat) : Access (BitVec 3) (BitVec 32) → Bool
  | .rd reg v => reg == 2 && v.getLsbD bit
  | .wr _ _ => false

/-- Whether the bit was seen since data last went over the bus, if it always was when they did. -/
def seen (bit : Nat) (data : Access (BitVec 3) (BitVec 32) → List (BitVec 8)) (e : Access (BitVec 3) (BitVec 32))
    (k : Bool) : Option Bool :=
  if data e = [] then some (k || shows bit e) else if k then some false else none

/-- Software that waits for the bit before each byte. -/
def Polls (bit : Nat) (data : Access (BitVec 3) (BitVec 32) → List (BitVec 8))
    (es : List (Access (BitVec 3) (BitVec 32))) : Prop := run? (seen bit data) false es ≠ none

instance (bit : Nat) (data : Access (BitVec 3) (BitVec 32) → List (BitVec 8))
    (es : List (Access (BitVec 3) (BitVec 32))) : Decidable (Polls bit data es) := inferInstanceAs (Decidable (_ ≠ none))

variable {divisor : BitVec 9} {w : List Slot} {bit : Nat}
  {data : Access (BitVec 3) (BitVec 32) → List (BitVec 8)} {ready : State → Bool}

/-- A bit that an access shows is one of the state that it finds. -/
theorem shows_found {s : State} {op : Op} {e : Access (BitVec 3) (BitVec 32)}
    (shown : ∀ s, ((s.selected_read_data 2).setWidth 32).getLsbD bit = ready s) (member : e ∈ found s op)
    (here : shows bit e = true) : ready s = true := by
  cases op with
  | idle => cases member
  | rd reg =>
    rw [List.mem_singleton.mp member, shows, Bool.and_eq_true_iff] at here
    rw [eq_of_beq here.1, shown] at here
    exact here.2
  | wr reg v =>
    rw [List.mem_singleton.mp member] at here
    exact absurd here Bool.false_ne_true

/-- A slot has no access, or one. -/
theorem found_cases (s : State) (op : Op) : found s op = [] ∨ ∃ e, found s op = [e] := by
  cases op with
  | idle => exact .inl rfl
  | rd | wr => exact .inr ⟨_, rfl⟩

theorem seen_found {s : State} {a : Slot} {k k' : Bool}
    (shown : ∀ s, ((s.selected_read_data 2).setWidth 32).getLsbD bit = ready s)
    (stays : (found s a.op).flatMap data = [] → ready s = true → ready (slot divisor a s) = true)
    (valid : k = true → ready s = true) (next : run? (seen bit data) k (found s a.op) = some k') :
    (k' = true → ready (slot divisor a s) = true) ∧
      ((found s a.op).flatMap data ≠ [] → ready s = true) := by
  rcases found_cases s a.op with rests | ⟨e, only⟩
  · rw [rests] at next stays ⊢
    obtain rfl := Option.some.inj next
    exact ⟨fun known => stays rfl (valid known), fun some => absurd rfl some⟩
  · have shows_ready : shows bit e = true → ready s = true :=
      shows_found shown (by rw [only]; exact List.mem_singleton_self e)
    rw [only, run?_cons, seen] at next
    rw [only, List.flatMap_singleton] at stays ⊢
    by_cases none : data e = []
    · rw [if_pos none, Option.bind_some, run?_nil] at next
      obtain rfl := Option.some.inj next
      refine ⟨fun known => stays none ?_, fun some => absurd none some⟩
      exact (Bool.or_eq_true_iff.mp known).elim valid shows_ready
    · rw [if_neg none] at next
      cases k with
      | false => exact nomatch next
      | true =>
        rw [if_pos rfl, Option.bind_some, run?_nil] at next
        obtain rfl := Option.some.inj next
        exact ⟨nofun, fun _ => valid rfl⟩

/-- The bit that was seen is still set when it is relied upon. -/
theorem polls_session (shown : ∀ s, ((s.selected_read_data 2).setWidth 32).getLsbD bit = ready s)
    (stays : ∀ s a, (found s a.op).flatMap data = [] → ready s = true → ready (slot divisor a s) = true)
    {k : Bool} (polls : run? (seen bit data) false (log divisor w) = some k) :
    (k = true → ready (state divisor w) = true) ∧
      Along (slot divisor) (fun a s => (found s a.op).flatMap data ≠ [] → ready s = true) (state divisor []) w := by
  induction w using List.reverseRecOn generalizing k with
  | nil =>
    obtain rfl := Option.some.inj polls
    exact ⟨nofun, trivial⟩
  | append_singleton w a ih =>
    rw [log_concat, run?_append] at polls
    obtain ⟨j, before, last⟩ := Option.bind_eq_some_iff.mp polls
    obtain ⟨valid, along⟩ := ih before
    obtain ⟨after, here⟩ := seen_found shown (stays _ a) valid last
    rw [state_concat, along_concat, run_slot]
    exact ⟨after, along, here⟩

/-- Only a write to `txdata` clears TRDY. -/
theorem tx_ready_slot {s : State} {a : Slot} (none : (found s a.op).flatMap txdata = [])
    (ready : s.tx.tx_ready = true) : (slot divisor a s).tx.tx_ready = true := by
  have quiet (begins x : Bool) : (cycle (request a.op) begins x).tx_wr_strobe_onset = false :=
    Bool.eq_false_iff.mpr fun onset =>
      ((tx_wr_strobe_onset_cycle begins).mp onset).2.elim (found_txdata.mp none)
  have along : Along (posedge divisor) (fun i _ => i.tx_wr_strobe_onset = false) s (inputs a) :=
    along_inputs (fun _ => quiet _ _) (fun _ => quiet _ _) (fun _ => quiet _ _)
  refine along.kept (I := fun s => s.tx.tx_ready = true) (fun i s still ready => ?_) ready
  simp [tx_ready_step, still, ready]

/-- Only a read of `rxdata` clears RRDY. -/
theorem rx_char_ready_slot {s : State} {a : Slot} (none : (found s a.op).flatMap rxdata = [])
    (ready : s.rx.rx_char_ready = true) : (slot divisor a s).rx.rx_char_ready = true := by
  have quiet (begins x : Bool) : (cycle (request a.op) begins x).rx_rd_strobe_onset = false :=
    Bool.eq_false_iff.mpr fun onset => found_rxdata.mp none ((rx_rd_strobe_onset_cycle begins).mp onset).2
  have along : Along (posedge divisor) (fun i _ => i.rx_rd_strobe_onset = false) s (inputs a) :=
    along_inputs (fun _ => quiet _ _) (fun _ => quiet _ _) (fun _ => quiet _ _)
  refine along.kept (I := fun s => s.rx.rx_char_ready = true) (fun i s still ready => ?_) ready
  simp [rx_char_ready_step, still, ready]

theorem polls_trdy (polls : Polls 6 txdata (log divisor w)) :
    Along (slot divisor) (fun a s => ∀ data, a.op = .wr 1 data → s.tx.tx_ready = true) (state divisor []) w := by
  obtain ⟨k, known⟩ := Option.ne_none_iff_exists'.mp polls
  obtain ⟨_, along⟩ := polls_session (fun s => status_read 6) (fun s a => tx_ready_slot) known
  refine along.mono fun a _ s ready data writes => ready fun none => ?_
  exact found_txdata.mp none data writes

theorem polls_rrdy (polls : Polls 7 rxdata (log divisor w)) :
    Along (slot divisor) (fun a s => a.op = .rd 0 → s.rx.rx_char_ready = true) (state divisor []) w := by
  obtain ⟨k, known⟩ := Option.ne_none_iff_exists'.mp polls
  obtain ⟨_, along⟩ := polls_session (fun s => status_read 7) (fun s a => rx_char_ready_slot) known
  exact along.mono fun a _ s ready reads => ready fun none => found_rxdata.mp none reads

/-- Software that waits for TRDY before each byte never overruns the transmitter, and loses
nothing. -/
theorem polled_sent (polls : Polls 6 txdata (log divisor w)) :
    sent divisor w ++ pending (state divisor w) = (log divisor w).flatMap txdata ∧
      (state divisor w).tx.tx_overrun = false := by
  have along : Along (posedge divisor)
      (fun i s => Steady i s ∧ (i.tx_wr_strobe_onset = true → s.tx.tx_ready = true)) reset (cycles w) :=
    along_session ⟨steady_idle, nofun⟩ ((polls_trdy polls).mono fun a _ s free => tx_free_slot free)
  have conserves := along.mono (Q := (txBuffer divisor).Conserves) fun i _ s here => tx_conserves here.1 here.2
  rw [← puts_session, state_eq]
  refine ⟨(txBuffer divisor).conserved conserves, ?_⟩
  refine along.kept (I := fun s => s.tx.tx_overrun = false) (fun i s here clear => ?_) rfl
  exact tx_overrun_clear here.2 clear

theorem rx_valid_session (polls : Polls 7 rxdata (log divisor w)) : Along (posedge divisor)
    (fun i s => i.rx_rd_strobe_onset = true → s.rx.rx_char_ready = true) reset (cycles w) :=
  along_session nofun ((polls_rrdy polls).mono fun _ _ _ valid => rx_valid_slot valid)

theorem rx_along (polls : Polls 7 rxdata (log divisor w)) : Along (posedge divisor)
    (fun i s => (rxBuffer divisor).Conserves i s ∨ (rxBuffer divisor).Drops i s) reset (cycles w) :=
  (rx_valid_session polls).mono fun _ _ _ valid => rx_sublist valid

/-- Software that waits for RRDY before each byte reads bytes that came in, in their order
and each of them once. -/
theorem read_sublist (polls : Polls 7 rxdata (log divisor w)) :
    (log divisor w).flatMap rxdata ++ unread (state divisor w) <+ arrivals divisor w := by
  rw [← takes_session, state_eq]
  exact (rxBuffer divisor).takes_sublist (rx_along polls)

/-- It reads all of them if it has always read the last one when the next one is complete. -/
theorem read_all_iff (polls : Polls 7 rxdata (log divisor w)) :
    (log divisor w).flatMap rxdata ++ unread (state divisor w) = arrivals divisor w ↔
      Along (posedge divisor) (fun _ s => s.rx.got_new_char = true → s.rx.rx_char_ready = false) reset (cycles w) := by
  rw [← takes_session, state_eq]
  exact ((rxBuffer divisor).conserved_iff (rx_along polls)).trans
    ((rx_valid_session polls).congr fun _ _ valid => rx_conserves_iff valid)

/-- The bit ROE of `status` tells whether it reads all of them. -/
theorem read_account (quiet : ∀ a ∈ w, ∀ data, a.op ≠ .wr 2 data) (polls : Polls 7 rxdata (log divisor w)) :
    (log divisor w).flatMap rxdata ++ unread (state divisor w) = arrivals divisor w ↔
      (state divisor w).rx.rx_overrun = false := by
  have along := ((rx_valid_session polls).and (status_quiet_session divisor quiet)).mono
    fun i _ s here => rx_accounts divisor here.2 here.1
  rw [← takes_session, state_eq]
  exact (rxBuffer divisor).account_iff rfl along

/-- What software is promised that asks for TRDY and RRDY. -/
theorem polling_accounts (divisor : BitVec 9) (w : List Slot) :
    (Polls 6 txdata (log divisor w) →
      sent divisor w ++ pending (state divisor w) = (log divisor w).flatMap txdata ∧
        (state divisor w).tx.tx_overrun = false) ∧
    (Polls 7 rxdata (log divisor w) →
      (log divisor w).flatMap rxdata ++ unread (state divisor w) <+ arrivals divisor w ∧
        ((log divisor w).flatMap rxdata ++ unread (state divisor w) = arrivals divisor w ↔
          Along (posedge divisor) (fun _ s => s.rx.got_new_char = true → s.rx.rx_char_ready = false) reset (cycles w)) ∧
        ((∀ a ∈ w, ∀ data, a.op ≠ .wr 2 data) →
          ((log divisor w).flatMap rxdata ++ unread (state divisor w) = arrivals divisor w ↔
            (state divisor w).rx.rx_overrun = false))) :=
  ⟨polled_sent, fun polls => ⟨read_sublist polls, read_all_iff polls, fun quiet => read_account quiet polls⟩⟩

end Polling

end Dspc.SystemUart
