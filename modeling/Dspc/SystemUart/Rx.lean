import Dspc.Serial.Timing
import Dspc.SystemUart.Baud

namespace Dspc.SystemUart.Rx
open Vhdl Serial

/-! The receiver, with `clk_en` at '1' as the top module ties it. `sync_rxd` is the output of
the synchronizer, which has `rxd` for its input. -/

structure Inputs where
  baud_divisor : BitVec 9
  begintransfer : Bool
  rx_rd_strobe : Bool
  status_wr_strobe : Bool
  sync_rxd : Bool

structure State where
  baud_clk_en : Bool
  baud_rate_counter : BitVec 9
  break_detect : Bool
  delayed_unxrx_in_processxx3 : Bool
  delayed_unxsync_rxdxx1 : Bool
  delayed_unxsync_rxdxx2 : Bool
  do_start_rx : Bool
  framing_error : Bool
  rx_char_ready : Bool
  rx_data : BitVec 8
  rx_overrun : Bool
  rxd_shift_reg : BitVec 10

def reset : State where
  baud_clk_en := false
  baud_rate_counter := 0
  break_detect := false
  delayed_unxrx_in_processxx3 := false
  delayed_unxsync_rxdxx1 := false
  delayed_unxsync_rxdxx2 := false
  do_start_rx := false
  framing_error := false
  rx_char_ready := false
  rx_data := 0
  rx_overrun := false
  rxd_shift_reg := 0

def rx_rd_strobe_onset (i : Inputs) : Bool := i.rx_rd_strobe && i.begintransfer

def half_bit_cell_divisor (i : Inputs) : BitVec 8 := i.baud_divisor.extractLsb' 1 8

def parity_error : Bool := false

namespace State

def rxd_falling (i : Inputs) (s : State) : Bool := !i.sync_rxd && s.delayed_unxsync_rxdxx1

def rxd_edge (i : Inputs) (s : State) : Bool := i.sync_rxd ^^ s.delayed_unxsync_rxdxx2

def baud_load_value (i : Inputs) (s : State) : BitVec 9 :=
  if s.rxd_edge i then (half_bit_cell_divisor i).setWidth 9 else i.baud_divisor

def baud_rate_counter_is_zero (s : State) : Bool := s.baud_rate_counter == 0

def rx_in_process (s : State) : Bool := s.rxd_shift_reg.getLsbD 0

def sample_enable (s : State) : Bool := s.baud_clk_en && s.rx_in_process

def stop_bit (s : State) : Bool := s.rxd_shift_reg.getLsbD 9

def raw_data_in (s : State) : BitVec 8 := s.rxd_shift_reg.extractLsb' 1 8

def is_break (s : State) : Bool := s.rxd_shift_reg == 0

def is_framing_error (s : State) : Bool := !s.stop_bit && !s.is_break

def got_new_char (s : State) : Bool := !s.rx_in_process && s.delayed_unxrx_in_processxx3

end State

def posedge (i : Inputs) (s : State) : State where
  delayed_unxsync_rxdxx1 := i.sync_rxd
  delayed_unxsync_rxdxx2 := i.sync_rxd
  baud_rate_counter :=
    if s.baud_rate_counter_is_zero || s.rxd_edge i then s.baud_load_value i else s.baud_rate_counter - 1
  baud_clk_en := if s.rxd_edge i then false else s.baud_rate_counter_is_zero
  do_start_rx := if !s.rx_in_process && s.rxd_falling i then true else false
  delayed_unxrx_in_processxx3 := s.rx_in_process
  rx_data := if s.got_new_char then s.raw_data_in else s.rx_data
  framing_error :=
    if i.status_wr_strobe then false else if s.got_new_char && s.is_framing_error then true else s.framing_error
  break_detect :=
    if i.status_wr_strobe then false else if s.got_new_char && s.is_break then true else s.break_detect
  rx_overrun :=
    if i.status_wr_strobe then false else if s.got_new_char && s.rx_char_ready then true else s.rx_overrun
  rx_char_ready := if rx_rd_strobe_onset i then false else if s.got_new_char then true else s.rx_char_ready
  rxd_shift_reg :=
    if s.do_start_rx then BitVec.allOnes 10
    else if s.sample_enable then BitVec.ofBool i.sync_rxd ++ s.rxd_shift_reg.extractLsb' 1 9
    else s.rxd_shift_reg

/-- The shift register is that of a receiver with the samples so far. -/
structure Collects (register : BitVec 10) (bits : List Bool) : Prop where
  short : bits.length < 10
  first : ∀ b ∈ bits.head?, b = false
  shifts : Shifts register (List.replicate (10 - bits.length) true ++ bits)

structure Follows (divisor : BitVec 9) (s : State) (r : Receiver) : Prop where
  prev : s.delayed_unxsync_rxdxx1 = r.prev ∧ s.delayed_unxsync_rxdxx2 = r.prev
  ticks : Ticks divisor s.baud_rate_counter s.baud_clk_en r.wait
  phase : match r.phase with
    | .idle => s.do_start_rx = false ∧ s.rx_in_process = false
    | .start => s.do_start_rx = true ∧ s.rx_in_process = false ∧ r.prev = false
    | .collect bits => s.do_start_rx = false ∧ Collects s.rxd_shift_reg bits

theorem shifts_push {register : BitVec 10} {b x : Bool} {bits : List Bool} (shifts : Shifts register (b :: bits))
    (length : bits.length = 9) : Shifts (BitVec.ofBool x ++ register.extractLsb' 1 9) (bits ++ [x]) := by
  intro k
  rw [BitVec.getLsbD_append]
  split
  · rename_i before
    rw [BitVec.getLsbD_extractLsb', shifts, Nat.add_comm, List.getD_cons_succ, List.getD_append _ _ _ _ (by omega)]
    simp [before]
  · rename_i last
    rw [List.getD_append_right _ _ _ _ (by omega), length, BitVec.getLsbD_ofBool]
    cases k - 9 <;> simp

variable {divisor : BitVec 9} {i : Inputs} {s : State} {r : Receiver} {bits : List Bool} {x : Bool}

theorem Collects.in_process (collects : Collects s.rxd_shift_reg bits) : s.rx_in_process = true := by
  have short := collects.short
  have more : 10 - bits.length = 9 - bits.length + 1 := by omega
  have first := collects.shifts 0
  rw [more, List.replicate_succ, List.cons_append, List.getD_cons_zero] at first
  exact first

theorem collects_start : Collects (BitVec.allOnes 10) [] := by
  refine ⟨by decide, nofun, fun k => ?_⟩
  rw [BitVec.getLsbD_allOnes, List.append_nil, List.length_nil]
  by_cases inside : k < 10
  · rw [List.getD_replicate _ inside, decide_eq_true inside]
  · rw [List.getD_eq_default _ _ (by simpa using inside), decide_eq_false inside]

/-- High samples before the first low one leave the register full of ones. -/
theorem Collects.sample {register : BitVec 10} (collects : Collects register bits) (x : Bool) :
    (∀ b ∈ (keep bits x).head?, b = false) ∧
    if (keep bits x).length = 10 then Shifts (BitVec.ofBool x ++ register.extractLsb' 1 9) (keep bits x)
    else Collects (BitVec.ofBool x ++ register.extractLsb' 1 9) (keep bits x) := by
  obtain ⟨short, first, shifts⟩ := collects
  by_cases before : bits = [] ∧ x = true
  · obtain ⟨rfl, rfl⟩ := before
    have ones : Shifts register (true :: List.replicate 9 true) := shifts
    have pushed := shifts_push (x := true) ones List.length_replicate
    exact ⟨nofun, by decide, nofun, pushed⟩
  · have kept : keep bits x = bits ++ [x] := if_neg before
    have low : ∀ b ∈ (bits ++ [x]).head?, b = false := by
      intro b head
      rcases eq_or_ne bits [] with rfl | some
      · cases Option.some.inj head
        exact Bool.eq_false_iff.mpr fun high => before ⟨rfl, high⟩
      · rw [List.head?_append_of_ne_nil _ some] at head
        exact first b head
    have more : 10 - bits.length = 9 - bits.length + 1 := by omega
    rw [more, List.replicate_succ, List.cons_append] at shifts
    have pushed := shifts_push (x := x) shifts (by simp; omega)
    rw [List.append_assoc] at pushed
    rw [kept]
    refine ⟨low, ?_⟩
    split
    · rename_i full
      rw [List.length_append, List.length_singleton] at full
      rw [show 9 - bits.length = 0 by omega] at pushed
      exact pushed
    · rename_i partly
      rw [List.length_append, List.length_singleton] at partly
      refine ⟨by simp; omega, low, ?_⟩
      rw [List.length_append, List.length_singleton, show 10 - (bits.length + 1) = 9 - bits.length by omega]
      exact pushed

section Step

variable (constant : i.baud_divisor = divisor) (follows : Follows divisor s r)
include constant follows

omit constant in
theorem Follows.edge_iff : s.rxd_edge i = true ↔ i.sync_rxd ≠ r.prev := by
  rw [State.rxd_edge, follows.prev.2, bne_iff_ne]

theorem Follows.next_ticks (positive : 0 < divisor.toNat) :
    Ticks divisor (posedge i s).baud_rate_counter (posedge i s).baud_clk_en
      (r.next divisor.toNat (divisor.toNat / 2) i.sync_rxd).wait := by
  have half : ((half_bit_cell_divisor i).setWidth 9).toNat = divisor.toNat / 2 := by
    have range := divisor.isLt
    rw [half_bit_cell_divisor, constant, BitVec.toNat_setWidth, BitVec.extractLsb'_toNat, Nat.shiftRight_eq_div_pow]
    omega
  by_cases edge : i.sync_rxd = r.prev
  · have still : s.rxd_edge i = false := Bool.eq_false_iff.mpr fun rises => follows.edge_iff.mp rises edge
    have next := follows.ticks.next positive
    simpa [posedge, State.baud_load_value, State.baud_rate_counter_is_zero, Receiver.next, still, edge, constant]
      using next
  · have changes : s.rxd_edge i = true := follows.edge_iff.mpr edge
    have loaded := ticks_load divisor ((half_bit_cell_divisor i).setWidth 9)
    rw [half] at loaded
    simpa [posedge, State.baud_load_value, Receiver.next, changes, edge] using loaded

omit constant in
theorem Follows.register (here : r.phase = .collect bits) (now : r.wait = 0) :
    (posedge i s).rxd_shift_reg = BitVec.ofBool i.sync_rxd ++ s.rxd_shift_reg.extractLsb' 1 9 := by
  obtain ⟨_, ticks, phase⟩ := follows
  rw [here] at phase
  simp [posedge, phase.1, State.sample_enable, phase.2.in_process, ticks.enable_iff.mpr now]

theorem Follows.step (positive : 0 < divisor.toNat) :
    Follows divisor (posedge i s) (r.next divisor.toNat (divisor.toNat / 2) i.sync_rxd) := by
  refine ⟨⟨rfl, rfl⟩, follows.next_ticks constant positive, ?_⟩
  obtain ⟨⟨falls, _⟩, ticks, phase⟩ := id follows
  cases here : r.phase with
  | idle =>
    rw [here] at phase
    obtain ⟨waits, free⟩ := phase
    have held : (posedge i s).rxd_shift_reg = s.rxd_shift_reg := by simp [posedge, State.sample_enable, waits, free]
    have same : (posedge i s).rx_in_process = false := by
      rw [State.rx_in_process, held]
      exact free
    by_cases start : r.prev = true ∧ i.sync_rxd = false
    · simp only [Receiver.next, here, if_pos start]
      refine ⟨?_, same, start.2⟩
      simp [posedge, free, State.rxd_falling, falls, start]
    · simp only [Receiver.next, here, if_neg start]
      refine ⟨?_, same⟩
      simp only [posedge, free, State.rxd_falling, falls]
      grind
  | start =>
    rw [here] at phase
    obtain ⟨begins, free, low⟩ := phase
    simp only [Receiver.next, here]
    refine ⟨by simp [posedge, State.rxd_falling, falls, low], ?_⟩
    simpa [posedge, begins] using collects_start
  | collect bits =>
    rw [here] at phase
    obtain ⟨waits, collects⟩ := phase
    have busy := collects.in_process
    have quiet : (posedge i s).do_start_rx = false := by simp [posedge, busy]
    have enable := ticks.enable_iff
    by_cases now : r.wait = 0
    · obtain ⟨first, sampled⟩ := collects.sample i.sync_rxd
      have register := follows.register (i := i) here now
      by_cases full : (keep bits i.sync_rxd).length = 10
      · rw [if_pos full, ← register] at sampled
        simp only [Receiver.next, here, if_pos now, collected, if_pos full]
        refine ⟨quiet, (sampled 0).trans ?_⟩
        rw [List.getD_eq_getElem _ _ (by omega)]
        exact first _ (List.head?_eq_getElem? ▸ List.getElem?_eq_getElem (by omega))
      · rw [if_neg full, ← register] at sampled
        simp only [Receiver.next, here, if_pos now, collected, if_neg full]
        exact ⟨quiet, sampled⟩
    · simp only [Receiver.next, here, if_neg now]
      refine ⟨quiet, ?_⟩
      have idle : s.baud_clk_en = false := Bool.eq_false_iff.mpr (mt enable.mp now)
      simpa [posedge, waits, State.sample_enable, idle] using collects

end Step

/-- The shift register when a character is complete. -/
def received (s : State) : List (BitVec 10) := if s.got_new_char then [s.rxd_shift_reg] else []

/-- The characters that are complete before the last edge of a run. -/
def characters (s : State) (w : List Inputs) : List (BitVec 10) :=
  trace (fun _ s => received s) (fun i s => some (posedge i s)) s w

theorem Follows.hears (positive : 0 < divisor.toNat) (constant : i.baud_divisor = divisor)
    (follows : Follows divisor s r) : (received (posedge i s)).map lsbFirst = Serial.hears i.sync_rxd r := by
  have delayed : (posedge i s).delayed_unxrx_in_processxx3 = s.rx_in_process := rfl
  have after := (follows.step constant positive).phase
  have phase := follows.phase
  cases here : r.phase with
  | idle =>
    rw [here] at phase
    simp [received, State.got_new_char, delayed, phase.2, Serial.hears, here]
  | start =>
    rw [here] at phase
    simp [received, State.got_new_char, delayed, phase.2.1, Serial.hears, here]
  | collect bits =>
    rw [here] at phase
    obtain ⟨_, collects⟩ := phase
    have busy := collects.in_process
    by_cases full : r.wait = 0 ∧ (keep bits i.sync_rxd).length = 10
    · have sampled := (collects.sample i.sync_rxd).2
      rw [if_pos full.2, ← follows.register here full.1] at sampled
      simp only [Receiver.next, here, if_pos full.1, collected, if_pos full.2] at after
      have got : (posedge i s).got_new_char = true := by simp [State.got_new_char, delayed, busy, after.2]
      have told : Serial.hears i.sync_rxd r = [keep bits i.sync_rxd] := by simp [Serial.hears, here, full]
      rw [received, if_pos got, List.map_singleton, sampled.lsbFirst_eq full.2, told]
    · have goes : ∃ more, Collects (posedge i s).rxd_shift_reg more := by
        by_cases now : r.wait = 0
        · have partly : (keep bits i.sync_rxd).length ≠ 10 := fun all => full ⟨now, all⟩
          simp only [Receiver.next, here, if_pos now, collected, if_neg partly] at after
          exact ⟨_, after.2⟩
        · simp only [Receiver.next, here, if_neg now] at after
          exact ⟨_, after.2⟩
      obtain ⟨_, collecting⟩ := goes
      have got : (posedge i s).got_new_char = false := by simp [State.got_new_char, collecting.in_process]
      have told : Serial.hears i.sync_rxd r = [] := by simp [Serial.hears, here, full]
      rw [received, got, told, if_neg Bool.false_ne_true, List.map_nil]

/-- The state of the receiver after reset. -/
def start : Receiver where
  prev := false
  wait := 1
  phase := .idle

section Run

variable {w : List Inputs}

theorem characters_concat : characters s (w ++ [i]) = characters s w ++ received (run posedge s w) :=
  trace_concat (run?_pure posedge s w) i

theorem run_follows (positive : 0 < divisor.toNat) (constant : ∀ i ∈ w, i.baud_divisor = divisor) :
    Follows divisor (run posedge reset w) (listen divisor.toNat (divisor.toNat / 2) start (w.map (·.sync_rxd))) ∧
      (characters reset w ++ received (run posedge reset w)).map lsbFirst =
        heard divisor.toNat (divisor.toNat / 2) start (w.map (·.sync_rxd)) := by
  induction w using List.reverseRecOn with
  | nil => exact ⟨⟨⟨rfl, rfl⟩, ticks_load divisor 0, rfl, rfl⟩, rfl⟩
  | append_singleton w i ih =>
    obtain ⟨follows, told⟩ := ih fun j member => constant j (List.mem_append_left _ member)
    have here := constant i (List.mem_append_right _ List.mem_cons_self)
    rw [run_append, run_cons, run_nil, List.map_append, listen_append, heard_append, ← told, characters_concat]
    refine ⟨follows.step here positive, ?_⟩
    rw [List.map_append, follows.hears positive here, List.map_singleton, heard_cons, heard_nil, List.append_nil]

end Run

end Dspc.SystemUart.Rx
