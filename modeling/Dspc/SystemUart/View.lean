import Dspc.RegisterIo.Triple
import Dspc.SystemUart.Software

namespace Dspc.SystemUart
open Vhdl RegisterIo
open scoped List

/-! The device for code that polls it, and sometimes does not. -/

/-- Whether TRDY was seen since the last write to `txdata`, whether RRDY was ever seen, and
what is sent or pending. -/
structure View where
  trdy : Bool
  rrdy : Bool
  out : List (BitVec 8)

def View.start : View where
  trdy := false
  rrdy := false
  out := []

/-- A byte that is written goes behind the others, or, unless TRDY was seen, in the place of
the last one. -/
structure View.Next (arrived : BitVec 8 → Prop) (e : Access (BitVec 3) (BitVec 32)) (t t' : View) : Prop where
  trdy : t'.trdy = ((txdata e).isEmpty && (t.trdy || shows 6 e))
  rrdy : t'.rrdy = (t.rrdy || shows 7 e)
  read : t.rrdy = true → ∀ b ∈ rxdata e, arrived b
  silent : txdata e = [] → t'.out = t.out
  written : ∀ b ∈ txdata e, t'.out = t.out ++ [b] ∨ t.trdy = false ∧ t'.out = t.out.dropLast ++ [b]

/-- The first view knows less. -/
structure View.Knows (t u : View) : Prop where
  trdy : u.trdy = true → t.trdy = true
  rrdy : u.rrdy = true → t.rrdy = true
  out : u.out = t.out

section Knows

variable {arrived : BitVec 8 → Prop} {e : Access (BitVec 3) (BitVec 32)} {t t' u : View}

theorem View.Knows.own (next : View.Next arrived e t t') (knows : t.Knows u) :
    ∃ u', View.Next arrived e u u' ∧ t'.Knows u' := by
  refine ⟨⟨(txdata e).isEmpty && (u.trdy || shows 6 e), u.rrdy || shows 7 e, t'.out⟩,
    ⟨rfl, rfl, fun seen => next.read (knows.rrdy seen), fun none => ?_, fun b written => ?_⟩,
    fun seen => ?_, fun seen => ?_, rfl⟩
  · exact (next.silent none).trans knows.out.symm
  · rw [knows.out]
    refine (next.written b written).imp id (And.imp ?_ id)
    exact fun unseen => Bool.eq_false_iff.mpr fun seen => Bool.false_ne_true (unseen.symm.trans (knows.trdy seen))
  · rw [Bool.and_eq_true_iff, Bool.or_eq_true_iff] at seen
    rw [next.trdy, Bool.and_eq_true_iff, Bool.or_eq_true_iff]
    exact seen.imp id (Or.imp knows.trdy id)
  · rw [next.rrdy, Bool.or_eq_true_iff]
    exact (Bool.or_eq_true_iff.mp seen).imp knows.rrdy id

theorem View.Knows.other (silent : txdata e = []) (next : View.Next arrived e t t') (knows : t.Knows u) :
    t'.Knows u := by
  refine ⟨fun seen => ?_, fun seen => ?_, knows.out.trans (next.silent silent).symm⟩
  · rw [next.trdy, silent, knows.trdy seen]
    rfl
  · rw [next.rrdy, knows.rrdy seen, Bool.true_or]

end Knows

section Slot

variable {divisor : BitVec 9} {s : State} {a : Slot} {w : List Slot} {t : View} {e : Access (BitVec 3) (BitVec 32)}
  {arrived : BitVec 8 → Prop} {data : BitVec 32}

theorem slot_conserves (free : ∀ data, a.op = .wr 1 data → s.tx.tx_ready = true) :
    (txBuffer divisor).takes s (inputs a) ++ pending (slot divisor a s) =
      pending s ++ (found s a.op).flatMap txdata := by
  have along : Along (posedge divisor) (txBuffer divisor).Conserves s (inputs a) :=
    (tx_free_slot free).mono fun i _ s here => tx_conserves here.1 here.2
  have put : (txBuffer divisor).puts s (inputs a) = (found s a.op).flatMap txdata := puts_slot s a
  rw [← put]
  exact (txBuffer divisor).conserved along

/-- The first cycle of the write puts the byte in the place of the other one, and the second
has no effect. -/
theorem slot_overwrites (settled : Settled s) (writes : a.op = .wr 1 data) (busy : s.tx.tx_ready = false) :
    pending s = [s.regs.tx_data] ∧
      (txBuffer divisor).takes s (inputs a) ++ pending (slot divisor a s) = [data.setWidth 8] := by
  have some : a.op ≠ .idle := by
    rw [writes]
    exact Op.noConfusion
  let i := cycle (request a.op) true a.first
  let j := cycle (request a.op) false a.second
  have onset : i.tx_wr_strobe_onset = true := (tx_wr_strobe_onset_cycle true).mpr ⟨rfl, data, writes⟩
  have quiet : j.tx_wr_strobe_onset = false := tx_wr_strobe_onset_end _ _
  have put : i.written = [data.setWidth 8] := by
    rw [Inputs.written, if_pos onset]
    simp [i, writes, cycle, request]
  obtain ⟨held, none, taken⟩ := tx_overwrites divisor settled onset busy
  have last : (txBuffer divisor).Conserves j (posedge divisor i s) :=
    tx_conserves steady_end fun still => absurd (quiet.symm.trans still) Bool.false_ne_true
  change pending (posedge divisor i s) ++ j.written = (txBuffer divisor).take j (posedge divisor i s) ++
    pending (posedge divisor j (posedge divisor i s)) at last
  rw [taken, put, Inputs.written, quiet, if_neg Bool.false_ne_true, List.append_nil] at last
  refine ⟨held, ?_⟩
  rw [slot, inputs_access some, run_cons, run_cons, run_nil, last]
  change (Tx.sends (txInputs divisor i s) s.tx ++ ((txBuffer divisor).take j (posedge divisor i s) ++ [])) ++ _ = _
  rw [none, List.nil_append, List.append_nil]

/-- `rxdata` keeps the last byte that came in. -/
theorem rx_data_run {l : List (BitVec 8)} (u : List Inputs) (last : s.rx.rx_data ∈ l) :
    (run (posedge divisor) s u).rx.rx_data ∈ l ++ (rxBuffer divisor).puts s u := by
  induction u generalizing s l with
  | nil => exact List.mem_append_left _ last
  | cons i u ih =>
    have next : (posedge divisor i s).rx.rx_data ∈ l ++ completed s := by
      rw [rx_data_step, completed]
      split
      · exact List.mem_append_right _ List.mem_cons_self
      · exact List.mem_append_left _ last
    have later := ih next
    rw [List.append_assoc] at later
    exact later

theorem rx_ready_run {l : List (BitVec 8)} (u : List Inputs) (last : s.rx.rx_char_ready = true → s.rx.rx_data ∈ l)
    (ready : (run (posedge divisor) s u).rx.rx_char_ready = true) :
    (run (posedge divisor) s u).rx.rx_data ∈ l ++ (rxBuffer divisor).puts s u := by
  induction u generalizing s l with
  | nil => exact List.mem_append_left _ (last ready)
  | cons i u ih =>
    have next (full : (posedge divisor i s).rx.rx_char_ready = true) :
        (posedge divisor i s).rx.rx_data ∈ l ++ completed s := by
      rw [rx_char_ready_step] at full
      rw [rx_data_step, completed]
      by_cases got : s.rx.got_new_char = true
      · rw [if_pos got, if_pos got]
        exact List.mem_append_right _ List.mem_cons_self
      · rw [if_neg got, if_neg got, List.append_nil]
        rw [if_neg got] at full
        split at full
        · exact absurd full Bool.false_ne_true
        · exact last full
    have later := ih next ready
    rw [List.append_assoc] at later
    exact later

end Slot

section Session

variable {divisor : BitVec 9} {a : Slot} {w : List Slot} {t : View} {e : Access (BitVec 3) (BitVec 32)}
  {arrived : BitVec 8 → Prop}

theorem sent_concat :
    sent divisor (w ++ [a]) = sent divisor w ++ (txBuffer divisor).takes (state divisor w) (inputs a) := by
  rw [sent, sent, cycles_concat, Buffer.takes_append, state_eq]
  rfl

theorem arrivals_concat :
    arrivals divisor (w ++ [a]) = arrivals divisor w ++ (rxBuffer divisor).puts (state divisor w) (inputs a) := by
  rw [arrivals, arrivals, cycles_concat, Buffer.puts_append, state_eq]
  rfl

theorem ready_arrived (ready : (state divisor w).rx.rx_char_ready = true) :
    (state divisor w).rx.rx_data ∈ arrivals divisor w := by
  rw [state_eq] at ready ⊢
  exact rx_ready_run (l := []) (cycles w) (fun full => absurd full Bool.false_ne_true) ready

/-- What the code has seen is true of the device. -/
structure Sees (divisor : BitVec 9) (w : List Slot) (t : View) : Prop where
  trdy : t.trdy = true → (state divisor w).tx.tx_ready = true
  rrdy : t.rrdy = true → (state divisor w).rx.rx_data ∈ arrivals divisor w
  out : t.out = sent divisor w ++ pending (state divisor w)

theorem rx_data_concat (last : (state divisor w).rx.rx_data ∈ arrivals divisor w) :
    (state divisor (w ++ [a])).rx.rx_data ∈ arrivals divisor (w ++ [a]) := by
  rw [state_concat, arrivals_concat]
  exact rx_data_run (inputs a) last

theorem out_conserved (free : ∀ data, a.op = .wr 1 data → (state divisor w).tx.tx_ready = true) :
    sent divisor (w ++ [a]) ++ pending (state divisor (w ++ [a])) =
      sent divisor w ++ pending (state divisor w) ++ (found (state divisor w) a.op).flatMap txdata := by
  rw [sent_concat, state_concat, List.append_assoc, List.append_assoc, slot_conserves free]

theorem Sees.rest (sees : Sees divisor w t) (rests : found (state divisor w) a.op = []) :
    Sees divisor (w ++ [a]) t where
  trdy seen := by
    rw [state_concat]
    exact tx_ready_slot (by rw [rests]; rfl) (sees.trdy seen)
  rrdy seen := rx_data_concat (sees.rrdy seen)
  out := by
    have none : (found (state divisor w) a.op).flatMap txdata = [] := by rw [rests]; rfl
    rw [out_conserved fun data writes => absurd writes (found_txdata.mp none data), none, List.append_nil, sees.out]

/-- A byte that is written goes behind the others, or in the place of the last one. -/
theorem out_written {data : BitVec 32} (settled : Settled (state divisor w)) (writes : a.op = .wr 1 data) :
    sent divisor (w ++ [a]) ++ pending (state divisor (w ++ [a])) =
        sent divisor w ++ pending (state divisor w) ++ [data.setWidth 8] ∨
      (state divisor w).tx.tx_ready = false ∧ sent divisor (w ++ [a]) ++ pending (state divisor (w ++ [a])) =
        (sent divisor w ++ pending (state divisor w)).dropLast ++ [data.setWidth 8] := by
  cases ready : (state divisor w).tx.tx_ready with
  | true =>
    refine .inl ?_
    rw [out_conserved fun _ _ => ready, writes]
    rfl
  | false =>
    obtain ⟨held, taken⟩ := slot_overwrites settled writes ready
    refine .inr ⟨rfl, ?_⟩
    rw [sent_concat, state_concat, List.append_assoc, taken, held, List.dropLast_concat]

theorem settled_session : Settled (state divisor w) := by
  rcases List.eq_nil_or_concat w with rfl | ⟨v, a, rfl⟩
  · exact settled_start
  · rw [List.concat_eq_append, state_concat]
    exact settled_slot _ a

theorem rxdata_found {s : State} {b : BitVec 8} (only : found s a.op = [e]) (reads : b ∈ rxdata e) :
    b = s.rx.rx_data := by
  cases op : a.op with
  | idle =>
    rw [op] at only
    cases only
  | wr reg data =>
    rw [op] at only
    obtain rfl := List.singleton_inj.mp only
    cases reads
  | rd reg =>
    rw [op] at only
    obtain rfl := List.singleton_inj.mp only
    rw [rxdata] at reads
    by_cases here : reg = 0
    · rw [if_pos here, here] at reads
      rw [List.mem_singleton.mp reads, rx_data_read]
    · rw [if_neg here] at reads
      cases reads

theorem txdata_found {s : State} {b : BitVec 8} (only : found s a.op = [e]) (written : b ∈ txdata e) :
    ∃ data : BitVec 32, a.op = .wr 1 data ∧ b = data.setWidth 8 := by
  cases op : a.op with
  | idle =>
    rw [op] at only
    cases only
  | rd reg =>
    rw [op] at only
    obtain rfl := List.singleton_inj.mp only
    cases written
  | wr reg data =>
    rw [op] at only
    obtain rfl := List.singleton_inj.mp only
    rw [txdata] at written
    by_cases here : reg = 1
    · rw [if_pos here] at written
      exact ⟨data, by rw [here], List.mem_singleton.mp written⟩
    · rw [if_neg here] at written
      cases written

/-- The device makes only such steps. -/
theorem Sees.access (sees : Sees divisor w t) (only : found (state divisor w) a.op = [e])
    (all : ∀ b ∈ arrivals divisor w, arrived b) : ∃ t', View.Next arrived e t t' ∧ Sees divisor (w ++ [a]) t' := by
  have member : e ∈ found (state divisor w) a.op := by
    rw [only]
    exact List.mem_singleton_self e
  have data : (found (state divisor w) a.op).flatMap txdata = txdata e := by rw [only, List.flatMap_singleton]
  refine ⟨⟨(txdata e).isEmpty && (t.trdy || shows 6 e), t.rrdy || shows 7 e,
      sent divisor (w ++ [a]) ++ pending (state divisor (w ++ [a]))⟩,
    ⟨rfl, rfl, fun seen b reads => ?_, fun none => ?_, fun b written => ?_⟩, fun seen => ?_, fun seen => ?_, rfl⟩
  · rw [rxdata_found only reads]
    exact all _ (sees.rrdy seen)
  · rw [none] at data
    change sent divisor (w ++ [a]) ++ pending (state divisor (w ++ [a])) = t.out
    rw [out_conserved fun v writes => absurd writes (found_txdata.mp data v), data, List.append_nil, sees.out]
  · obtain ⟨v, writes, rfl⟩ := txdata_found only written
    rw [sees.out]
    refine (out_written settled_session writes).imp id (And.imp ?_ id)
    exact fun busy => Bool.eq_false_iff.mpr fun known => Bool.false_ne_true (busy.symm.trans (sees.trdy known))
  · rw [Bool.and_eq_true_iff, List.isEmpty_iff, Bool.or_eq_true_iff] at seen
    rw [state_concat]
    exact tx_ready_slot (data.trans seen.1) (seen.2.elim sees.trdy (shows_found (fun s => status_read 6) member))
  · refine rx_data_concat ((Bool.or_eq_true_iff.mp seen).elim sees.rrdy fun here => ?_)
    exact ready_arrived (shows_found (fun s => status_read 7) member here)

theorem view_session (all : ∀ b ∈ arrivals divisor w, arrived b) :
    ∃ t, Reaches (View.Next arrived) (log divisor w) View.start t ∧ Sees divisor w t := by
  induction w using List.reverseRecOn with
  | nil =>
    exact ⟨View.start, .refl _, fun seen => absurd seen Bool.false_ne_true,
      fun seen => absurd seen Bool.false_ne_true, rfl⟩
  | append_singleton w a ih =>
    have before : ∀ b ∈ arrivals divisor w, arrived b := fun b member =>
      all b (by rw [arrivals_concat]; exact List.mem_append_left _ member)
    obtain ⟨t, reaches, sees⟩ := ih before
    rw [log_concat]
    rcases found_cases (state divisor w) a.op with rests | ⟨e, only⟩
    · rw [rests, List.append_nil]
      exact ⟨t, reaches, sees.rest rests⟩
    · obtain ⟨t', step, sees'⟩ := sees.access only before
      rw [only]
      exact ⟨t', reaches_append.mpr ⟨t, reaches, .step step (.refl t')⟩, sees'⟩

/-- The same holds of code among others that write nothing to `txdata`, in any interleaving. -/
theorem code_session {es : List (Access (BitVec 3) (BitVec 32))}
    (among : Among (fun e => txdata e = []) es (log divisor w)) :
    ∃ t, Reaches (View.Next (· ∈ arrivals divisor w)) es View.start t ∧
      t.out = sent divisor w ++ pending (state divisor w) := by
  obtain ⟨t, reaches, sees⟩ : ∃ t, Reaches (View.Next (· ∈ arrivals divisor w)) (log divisor w) View.start t ∧
      Sees divisor w t := view_session fun b member => member
  obtain ⟨u, own, less⟩ := among.follows reaches (R := View.Knows) ⟨id, id, rfl⟩
    (fun _ _ _ _ step knows => knows.own step) (fun _ _ _ _ silent step knows => knows.other silent step)
  exact ⟨u, own, less.out.trans sees.out⟩

end Session

end Dspc.SystemUart
