import Dspc.Vhdl.Trace
import Dspc.HashComp.Reset

namespace Dspc.HashComp
open Vhdl

/-- The rounds `n` to `n + m - 1` of the standard. -/
def roundsFrom (v : Sha256.Working) (W : Vector (BitVec 32) 64) (n : Nat) : (m : Nat) → n + m ≤ 64 → Sha256.Working
  | 0, _ => v
  | m + 1, within => Sha256.round (roundsFrom v W n m (by omega)) Sha256.K[n + m] W[n + m]

theorem roundsFrom_zero (v : Sha256.Working) (W : Vector (BitVec 32) 64) (m : Nat) (within : 0 + m ≤ 64) :
    roundsFrom v W 0 m within = Sha256.rounds v W m (by omega) := by
  induction m with
  | zero => rfl
  | succ m ih => simp only [roundsFrom, Sha256.rounds, ih, Nat.zero_add]

namespace State

variable {s : State} {p : Ports} {v : Sha256.Working} {n : Nat}

theorem onEdge_final_holds (final : s.state = .FINAL) (holds : s.Holds v) : (onEdge p s).Holds v := by
  obtain ⟨atA, atB, atC, atD, atE, atF, atG, atH⟩ := holds
  simp only [onEdge, final]
  exact ⟨atA, atB, atC, atD, atE, atF, atG, atH⟩

/-- A block that starts with the counter at `n` is worked on from round `n` on. -/
theorem InFlight.holds_roundsFrom {W : Vector (BitVec 32) 64} {es : List (Activation Ports)}
    (flight : s.InFlight (65 - n)) (holds : s.Holds v) (clock : ∀ a ∈ es, ClockEdge a)
    (short : n + es.length ≤ 64) (held : ∀ a ∈ es, a.ports.input = W.map .ofBits) :
    (run hashCompProc s es).Holds (roundsFrom v W n es.length short) := by
  induction es using List.reverseRecOn with
  | nil => exact holds
  | append_singleton es a ih =>
    have long : n + es.length + 1 ≤ 64 := by simpa [Nat.add_assoc] using short
    have clockEs : ∀ b ∈ es, ClockEdge b := fun b member => clock b (List.mem_append_left [a] member)
    have edge : ClockEdge a := clock a (List.mem_append_right es List.mem_cons_self)
    have before := ih clockEs (by omega) fun b member => held b (List.mem_append_left [a] member)
    have mid := flight.after clockEs (by omega)
    obtain ⟨busy, counts⟩ := mid.busy_of_two_le (by omega)
    rw [show 65 - (65 - n - es.length) = n + es.length by omega] at counts
    have word : a.ports.input[n + es.length] = .ofBits W[n + es.length] := by
      rw [held a (List.mem_append_right es List.mem_cons_self), Vector.getElem_map]
    have step := onEdge_busy_holds busy long counts before word
    rw [run_append, run_cons, run_nil, hashCompProc_edge edge]
    simpa only [List.length_append, List.length_singleton, roundsFrom] using step

theorem InFlight.delivers_from {W : Vector (BitVec 32) 64} {es : List (Activation Ports)}
    (flight : s.InFlight (65 - n)) (start : n ≤ 63) (holds : s.Holds v) (clock : ∀ a ∈ es, ClockEdge a)
    (length : es.length = 65 - n) (held : ∀ a ∈ es, a.ports.input = W.map .ofBits) :
    (run hashCompProc s es).Holds (roundsFrom v W n (64 - n) (by omega)) ∧
      (run hashCompProc s es).output =
        .ofBits (Sha256.digest (Sha256.addWorking Sha256.initialHash (roundsFrom v W n (64 - n) (by omega)))) := by
  obtain ⟨es, a, rfl⟩ : ∃ u b, es = u ++ [b] := ⟨es.dropLast, es.getLast (by rintro rfl; simp at length; omega),
    (List.dropLast_append_getLast _).symm⟩
  have size : es.length = 64 - n := by
    rw [List.length_append, List.length_singleton] at length
    omega
  have clockEs : ∀ b ∈ es, ClockEdge b := fun b member => clock b (List.mem_append_left [a] member)
  have edge : ClockEdge a := clock a (List.mem_append_right es List.mem_cons_self)
  have loaded := flight.holds_roundsFrom holds clockEs (by omega)
    fun b member => held b (List.mem_append_left [a] member)
  have mid := flight.after clockEs (by omega)
  rw [show 65 - n - es.length = 1 by omega] at mid
  simp only [size] at loaded
  rw [run_append, run_cons, run_nil, hashCompProc_edge edge]
  exact ⟨onEdge_final_holds mid.final_of_one loaded, onEdge_final_output mid.final_of_one loaded⟩

end State

/-- Without a request and without reset an idle machine stays as it is. -/
theorem idle_run {s : State} {w : List (Activation Ports)} (idle : s.state = .IDLE) (low : ResetLow w)
    (quiet : Quiet w) : run hashCompProc s w = s := by
  induction w with
  | nil => rfl
  | cons a w ih =>
    have still : hashCompProc a s = s := by
      rcases clocked_cases onReset onEdge a s with ⟨high, _⟩ | ⟨edge, result⟩ | ⟨_, _, result⟩
      · exact absurd high (low a List.mem_cons_self)
      · rw [hashCompProc, result, State.onEdge_quiet idle (quiet a List.mem_cons_self edge)]
      · exact result
    rw [run_cons, still]
    exact ih (fun b member => low b (List.mem_cons_of_mem a member))
      fun b member => quiet b (List.mem_cons_of_mem a member)

theorem Transaction.Drives.delivers {t : Transaction} {s : State} {v : Sha256.Working} {n : Nat}
    (drives : t.Drives s) (idle : s.state = .IDLE) (counts : s.Counts n) (start : n ≤ 63) (holds : s.Holds v) :
    (run hashCompProc s t.waveform).Holds (roundsFrom v t.block n (64 - n) (by omega)) ∧
      (run hashCompProc s t.waveform).output =
        .ofBits (Sha256.digest (Sha256.addWorking Sha256.initialHash
          (roundsFrom v t.block n (64 - n) (by omega)))) := by
  obtain ⟨length, _, _⟩ := drives.timing idle counts
  obtain ⟨atA, atB, atC, atD, atE, atF, atG, atH⟩ := holds
  rw [edges_eq_length_filter] at length
  rw [Transaction.waveform, run_append, idle_run idle drives.gapLow drives.gapQuiet, run_cons,
    hashCompProc_edge drives.edge, State.onEdge_accept idle drives.request, ← run_rising drives.bodyLow]
  refine (State.InFlight.accept counts).delivers_from start ⟨atA, atB, atC, atD, atE, atF, atG, atH⟩
    drives.bodyLow.clockEdges length fun a member => ?_
  exact drives.held a (List.mem_filter.mp member).1

/-- The working variables that a session leaves: the rounds of its first block, and for
each later block only the last round. -/
def carried : List Transaction → Sha256.Working
  | [] => .ofHash Sha256.initialHash
  | t :: ts =>
    ts.foldl (fun v t => Sha256.round v Sha256.K[63] t.block[63])
      (roundsFrom (.ofHash Sha256.initialHash) t.block 0 64 le_rfl)

theorem carried_concat {ts : List Transaction} (some : ts ≠ []) (t : Transaction) :
    carried (ts ++ [t]) = Sha256.round (carried ts) Sha256.K[63] t.block[63] := by
  cases ts with
  | nil => exact absurd rfl some
  | cons first ts => simp only [carried, List.cons_append, List.foldl_append, List.foldl_cons, List.foldl_nil]

theorem before_succ (s : State) (ts : List Transaction) {k : Nat} (h : k < ts.length) :
    before s ts (k + 1) = run hashCompProc (before s ts k) ts[k].waveform := by
  rw [before, List.take_succ_eq_append_getElem h, List.flatMap_append, run_append, ← before, List.flatMap_singleton]

theorem Session.holds {s : State} {ts : List Transaction} (session : Session s ts) (idle : s.state = .IDLE)
    (counts : s.Counts 0) (loaded : s.Holds (.ofHash Sha256.initialHash)) {k : Nat} (h : k ≤ ts.length) :
    (before s ts k).Holds (carried (ts.take k)) := by
  induction k with
  | zero => exact loaded
  | succ k ih =>
    have inside : k < ts.length := by omega
    have drives := session.drives inside
    rw [before_succ s ts inside, List.take_succ_eq_append_getElem inside]
    rcases Nat.eq_zero_or_pos k with rfl | later
    · exact (drives.delivers idle counts (by decide) loaded).1
    · obtain ⟨stays, last⟩ := session.counts idle counts later inside.le
      have some : ts.take k ≠ [] := by
        rw [Ne, List.take_eq_nil_iff]
        rintro (rfl | rfl)
        · omega
        · simp at inside
      rw [carried_concat some]
      exact (drives.delivers stays last le_rfl (ih (by omega))).1

/-- The clock edges at which a round is made, from power-on on and whatever resets there are. -/
def roundsMade (w : List (Activation Ports)) : Nat :=
  (trace (clockedEvents [] fun _ s => if s.state = .BUSY then [()] else []) (fun a s => some (hashCompProc a s))
    powerOn w).length

/-- Neither reset nor a new block sets the counter back, and after the last round it stays. -/
theorem counter_rounds (w : List (Activation Ports)) : (run hashCompProc powerOn w).Counts (min 63 (roundsMade w)) := by
  induction w using List.reverseRecOn with
  | nil => exact State.powerOn_counts
  | append_singleton w a ih =>
    rw [roundsMade, trace_concat (run?_pure _ _ w), List.length_append, ← roundsMade, run_append, run_cons, run_nil]
    generalize run hashCompProc powerOn w = s at ih ⊢
    rcases clocked_cases onReset onEdge a s with ⟨high, result⟩ | ⟨edge, result⟩ | ⟨low, flat, result⟩ <;>
      rw [hashCompProc, result]
    · rw [clockedEvents_reset high]
      exact State.onReset_counts ih
    · rw [clockedEvents_edge edge]
      cases mode : s.state with
      | IDLE =>
        simp only [reduceCtorEq, if_false, List.length_nil, Nat.add_zero]
        by_cases request : a.ports.newData = .one
        · rw [State.onEdge_accept mode request]
          exact ih
        · rw [State.onEdge_quiet mode request]
          exact ih
      | BUSY =>
        simp only [if_true, List.length_singleton]
        by_cases last : min 63 (roundsMade w) = 63
        · have same : min 63 (roundsMade w + 1) = 63 := by omega
          rw [last] at ih
          rw [same]
          exact (State.onEdge_busy_last mode ih rfl).2
        · have next : min 63 (roundsMade w + 1) = min 63 (roundsMade w) + 1 := by omega
          rw [next]
          exact (State.onEdge_busy_next mode ih (by omega)).2
      | FINAL =>
        simp only [reduceCtorEq, if_false, List.length_nil, Nat.add_zero]
        exact (State.onEdge_final mode ih).2
    · rw [clockedEvents_still low flat]
      exact ih

/-- The next block after a reset, at any time: the counter stands at the number of rounds that
have been made since power-on, but not above 63, and the block is worked on from this round on. -/
theorem reset_outputs (w : List (Activation Ports)) {r : Activation Ports} (high : r.reset = .one) {t : Transaction}
    (offered : t.Offered) :
    (run hashCompProc powerOn (w ++ [r])).Counts (min 63 (roundsMade w)) ∧
      (t.Drives (run hashCompProc powerOn (w ++ [r])) ↔ edges t.body = 65 - min 63 (roundsMade w)) ∧
      (t.Drives (run hashCompProc powerOn (w ++ [r])) →
        (run hashCompProc powerOn (w ++ r :: t.waveform)).output =
          .ofBits (Sha256.digest (Sha256.addWorking Sha256.initialHash
            (roundsFrom (.ofHash Sha256.initialHash) t.block (min 63 (roundsMade w)) (64 - min 63 (roundsMade w))
              (by omega))))) := by
  have again := State.onReset_counts (counter_rounds w)
  have start : run hashCompProc powerOn (w ++ [r]) = onReset (run hashCompProc powerOn w) := by
    rw [run_append, run_cons, run_nil, hashCompProc_reset high]
  rw [start, run_append, run_cons, hashCompProc_reset high]
  refine ⟨again, offered.drives_iff rfl again, fun drives => ?_⟩
  exact (drives.delivers rfl again (Nat.min_le_left 63 _) (State.onReset_holds _)).2

theorem rounds_aborted : roundsMade aborted = 1 := by decide

theorem reset_outputs_aborted :
    (run hashCompProc powerOn (aborted ++ ⟨.one, false, .zero, .replicate 64 (.others .zero)⟩ ::
        (Transaction.plain (.replicate 64 0) 64).waveform)).output =
      .ofBits (Sha256.digest (Sha256.addWorking Sha256.initialHash
        (roundsFrom (.ofHash Sha256.initialHash) (.replicate 64 0) (min 63 (roundsMade aborted))
          (64 - min 63 (roundsMade aborted)) (by omega)))) := by
  have result := reset_outputs aborted (r := ⟨.one, false, .zero, .replicate 64 (.others .zero)⟩) rfl
    (Transaction.plain_offered (.replicate 64 0) 64)
  exact result.2.2 (result.2.1.mpr (by rw [rounds_aborted]; decide))

/-- What every transaction of a session without reset takes and puts out. From the second
on one round is made, on the last word of the block, and the digest depends on the blocks before. -/
theorem session_outputs {pre : List (Activation Ports)} {ts : List Transaction}
    (resets : ∃ a ∈ pre, a.reset = .one) (quiet : Quiet pre) (offered : ∀ t ∈ ts, t.Offered) :
    (Session (run hashCompProc powerOn pre) ts ↔
        ∀ k (h : k < ts.length), edges ts[k].body = if k = 0 then 65 else 2) ∧
      (Session (run hashCompProc powerOn pre) ts → ∀ k (h : k < ts.length),
        (run hashCompProc (before (run hashCompProc powerOn pre) ts k) ts[k].waveform).output =
          .ofBits (Sha256.digest (Sha256.addWorking Sha256.initialHash (carried (ts.take (k + 1)))))) := by
  obtain ⟨idle, counts, loads⟩ := quiet_run quiet rfl State.powerOn_counts
  have loaded := loads (.inr resets)
  refine ⟨session_iff offered idle counts, fun session k h => ?_⟩
  have drives := session.drives h
  have holds := session.holds idle counts loaded h.le
  rw [List.take_succ_eq_append_getElem h]
  rcases Nat.eq_zero_or_pos k with rfl | later
  · exact (drives.delivers idle counts (by decide) holds).2
  · obtain ⟨stays, last⟩ := session.counts idle counts later h.le
    have some : ts.take k ≠ [] := by
      rw [Ne, List.take_eq_nil_iff]
      rintro (rfl | rfl)
      · omega
      · simp at h
    rw [carried_concat some]
    exact (drives.delivers stays last le_rfl holds).2

theorem session_outputs_twice :
    (run hashCompProc (before (run hashCompProc powerOn freshReset) twice 1) twice[1].waveform).output =
      .ofBits (Sha256.digest (Sha256.addWorking Sha256.initialHash (carried twice))) :=
  (session_outputs freshReset_quiet.1 freshReset_quiet.2 twice_offered).2 twice_session 1 (by decide)

end Dspc.HashComp
