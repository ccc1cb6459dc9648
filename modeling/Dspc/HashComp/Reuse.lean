import Dspc.HashComp.FirstTransaction

namespace Dspc.HashComp
open Vhdl

/-- One use of the component: idle edges, the edge that accepts the request, and the
activations from there to the return of ready, with one block on the input port. -/
structure Transaction where
  gap : List (Activation Ports)
  accept : Activation Ports
  body : List (Activation Ports)
  block : Vector (BitVec 32) 64

def Transaction.waveform (t : Transaction) : List (Activation Ports) := t.gap ++ t.accept :: t.body

/-- What the user does in a transaction: no reset, one request, and the block held. -/
structure Transaction.Offered (t : Transaction) : Prop where
  gapLow : ResetLow t.gap
  gapQuiet : Quiet t.gap
  edge : ClockEdge t.accept
  request : t.accept.ports.newData = .one
  bodyLow : ResetLow t.body
  held : ∀ a ∈ t.body, a.ports.input = t.block.map .ofBits

/-- The body of the transaction ends with the edge at which ready is '1' again. -/
structure Transaction.Drives (t : Transaction) (s : State) : Prop extends t.Offered where
  pending : ∀ u v, t.body = u ++ v → 0 < edges v → (run hashCompProc s (t.gap ++ t.accept :: u)).ready = .zero
  returns : (run hashCompProc s t.waveform).ready = .one

/-- What is asked of a transaction: ready is low for the accepting edge and 64 more, and
the output it leaves is the compression of its own block from the initial hash value. -/
def Transaction.Computes (t : Transaction) (s : State) : Prop :=
  edges t.body = 65 ∧
    (run hashCompProc s t.waveform).output =
      .ofBits (Sha256.digest (Sha256.compress Sha256.initialHash t.block))

def Session : State → List Transaction → Prop
  | _, [] => True
  | s, t :: ts => t.Drives s ∧ Session (run hashCompProc s t.waveform) ts

def before (s : State) (ts : List Transaction) (k : Nat) : State :=
  run hashCompProc s ((ts.take k).flatMap Transaction.waveform)

theorem before_zero (s : State) (ts : List Transaction) : before s ts 0 = s := rfl

theorem before_cons (s : State) (t : Transaction) (ts : List Transaction) (k : Nat) :
    before s (t :: ts) (k + 1) = before (run hashCompProc s t.waveform) ts k := by
  simp only [before, List.take_succ_cons, List.flatMap_cons, run_append]

section Timing

variable {s : State} {n : Nat} {t : Transaction}

theorem Transaction.Offered.flight (offered : t.Offered) (idle : s.state = .IDLE) (counts : s.Counts n)
    {u : List (Activation Ports)} (low : ResetLow u) (short : edges u ≤ 65 - n) :
    (run hashCompProc s (t.gap ++ t.accept :: u)).InFlight (65 - n - edges u) := by
  obtain ⟨stays, same, _⟩ := quiet_run offered.gapQuiet idle counts
  rw [edges_eq_length_filter] at short ⊢
  rw [run_append, run_cons, hashCompProc_edge offered.edge, State.onEdge_accept stays offered.request,
    ← run_rising low]
  exact (State.InFlight.accept same).after low.clockEdges short

theorem Transaction.Drives.timing (drives : t.Drives s) (idle : s.state = .IDLE) (counts : s.Counts n) :
    edges t.body = 65 - n ∧ (run hashCompProc s t.waveform).state = .IDLE ∧
      (run hashCompProc s t.waveform).Counts 63 := by
  have enough : 65 - n ≤ edges t.body := by
    by_contra few
    have flight := drives.flight idle counts drives.bodyLow (by omega)
    have zero := flight.ready_zero (by omega)
    have one := drives.returns
    rw [Transaction.waveform, zero] at one
    exact nomatch one
  obtain ⟨u, v, cut, total⟩ := exists_cut_edges enough
  have lowU : ResetLow u := by
    have low := drives.bodyLow
    rw [cut] at low
    exact low.left
  have flight := drives.flight idle counts lowU total.le
  rw [total, Nat.sub_self] at flight
  -- The machine is ready after `u`, so no edge of the body is left.
  have whole : edges v = 0 := by
    by_contra more
    have zero := drives.pending u v cut (Nat.pos_of_ne_zero more)
    rw [flight.ready_one] at zero
    exact nomatch zero
  have length : edges t.body = 65 - n := by rw [cut, edges_append, total, whole, Nat.add_zero]
  have last := drives.flight idle counts drives.bodyLow length.le
  rw [length, Nat.sub_self] at last
  exact ⟨length, last.idle.1, last.idle.2⟩

/-- Ready returns by itself, after as many edges as the counter leaves. -/
theorem Transaction.Offered.drives_iff (offered : t.Offered) (idle : s.state = .IDLE) (counts : s.Counts n) :
    t.Drives s ↔ edges t.body = 65 - n := by
  refine ⟨fun drives => (drives.timing idle counts).1, fun length => ⟨offered, fun u v cut more => ?_, ?_⟩⟩
  · have low := offered.bodyLow
    rw [cut, edges_append] at length
    rw [cut] at low
    exact (offered.flight idle counts low.left (by omega)).ready_zero (by omega)
  · have flight := offered.flight idle counts offered.bodyLow length.le
    rw [length, Nat.sub_self] at flight
    exact flight.ready_one

theorem Transaction.Drives.computes (drives : t.Drives s) (idle : s.state = .IDLE) (counts : s.Counts 0)
    (holds : s.Holds (.ofHash Sha256.initialHash)) : t.Computes s := by
  obtain ⟨length, _, _⟩ := drives.timing idle counts
  refine ⟨length, ?_⟩
  obtain ⟨stays, same, loaded⟩ := quiet_run drives.gapQuiet idle counts
  obtain ⟨atA, atB, atC, atD, atE, atF, atG, atH⟩ := loaded (.inl holds)
  rw [edges_eq_length_filter] at length
  rw [Transaction.waveform, run_append, run_cons, hashCompProc_edge drives.edge,
    State.onEdge_accept stays drives.request, ← run_rising drives.bodyLow]
  refine (State.InFlight.accept same).delivers ⟨atA, atB, atC, atD, atE, atF, atG, atH⟩
    drives.bodyLow.clockEdges length fun i h => ?_
  have member := List.getElem_mem (show i < (t.body.filter (·.rising)).length by omega)
  rw [drives.held _ (List.mem_filter.mp member).1, Vector.getElem_map]

end Timing

theorem Session.drives {s : State} {ts : List Transaction} (session : Session s ts) {k : Nat}
    (h : k < ts.length) : ts[k].Drives (before s ts k) := by
  induction ts generalizing s k with
  | nil => simp at h
  | cons t ts ih =>
    cases k with
    | zero => exact session.1
    | succ k =>
      rw [before_cons]
      exact ih session.2 (by simpa using h)

/-- Every IDLE state entered from FINAL differs from the one after power-on: the
counter stands at 63. -/
theorem Session.counts {s : State} {ts : List Transaction} (session : Session s ts)
    (idle : s.state = .IDLE) {n : Nat} (counts : s.Counts n) {k : Nat} (positive : 0 < k)
    (h : k ≤ ts.length) : (before s ts k).state = .IDLE ∧ (before s ts k).Counts 63 := by
  induction ts generalizing s k n with
  | nil => simp at h; omega
  | cons t ts ih =>
    obtain ⟨k, rfl⟩ : ∃ j, k = j + 1 := ⟨k - 1, by omega⟩
    obtain ⟨_, stays, last⟩ := session.1.timing idle counts
    rw [before_cons]
    rcases Nat.eq_zero_or_pos k with rfl | later
    · exact ⟨stays, last⟩
    · exact ih session.2 stays last later (by simpa using h)

/-- The first transaction takes the edges that the counter leaves, and each later one two. -/
theorem session_iff {s : State} {ts : List Transaction} {n : Nat} (offered : ∀ t ∈ ts, t.Offered)
    (idle : s.state = .IDLE) (counts : s.Counts n) :
    Session s ts ↔ ∀ k (h : k < ts.length), edges ts[k].body = if k = 0 then 65 - n else 2 := by
  induction ts generalizing s n with
  | nil => simp [Session]
  | cons t ts ih =>
    have first := (offered t List.mem_cons_self).drives_iff idle counts
    have rest := fun u member => offered u (List.mem_cons_of_mem t member)
    constructor
    · rintro ⟨drives, session⟩ k h
      obtain ⟨length, stays, last⟩ := drives.timing idle counts
      cases k with
      | zero => exact length
      | succ k =>
        have later := (ih rest stays last).mp session k (by simpa using h)
        simpa using later
    · intro lengths
      have drives := first.mpr (lengths 0 (Nat.succ_pos _))
      obtain ⟨_, stays, last⟩ := drives.timing idle counts
      refine ⟨drives, (ih rest stays last).mpr fun k h => ?_⟩
      have later := lengths (k + 1) (by simpa using h)
      simpa using later

/-- Reuse without reset: ready returns after 65 edges in the first transaction and after 2 in
each later one, and all transactions of a session compute exactly when there is at most one of
them. -/
theorem reuse_iff {pre : List (Activation Ports)} {ts : List Transaction}
    (resets : ∃ a ∈ pre, a.reset = .one) (quiet : Quiet pre) (offered : ∀ t ∈ ts, t.Offered) :
    (Session (run hashCompProc powerOn pre) ts ↔
        ∀ k (h : k < ts.length), edges ts[k].body = if k = 0 then 65 else 2) ∧
      (Session (run hashCompProc powerOn pre) ts →
        ((∀ k (h : k < ts.length), ts[k].Computes (before (run hashCompProc powerOn pre) ts k)) ↔
          ts.length ≤ 1)) := by
  obtain ⟨idle, counts, loaded⟩ := quiet_run quiet rfl State.powerOn_counts
  refine ⟨session_iff offered idle counts, fun session => ?_⟩
  constructor
  · intro all
    by_contra more
    have second : 1 < ts.length := by omega
    obtain ⟨stays, last⟩ := session.counts idle counts Nat.one_pos second.le
    have timing := ((session.drives second).timing stays last).1
    have full := (all 1 second).1
    omega
  · intro single k h
    obtain rfl : k = 0 := by omega
    have drives := session.drives h
    rw [before_zero] at drives ⊢
    exact drives.computes idle counts (loaded (.inr resets))

section Example

def Transaction.plain (block : Vector (BitVec 32) 64) (length : Nat) : Transaction where
  gap := []
  accept := tick .one (block.map .ofBits)
  body := List.replicate length (tick .zero (block.map .ofBits))
  block := block

theorem plain_flight {s : State} {n m : Nat} (input : StringText) (idle : s.state = .IDLE)
    (counts : s.Counts n) (short : m ≤ 65 - n) :
    (run hashCompProc s (tick .one input :: List.replicate m (tick .zero input))).InFlight (65 - n - m) := by
  have start := State.InFlight.accept counts
  rw [run_cons, hashCompProc_edge (tick_clockEdge _ _), State.onEdge_accept idle rfl]
  have after := start.after (replicate_clockEdge m .zero input) (by simpa using short)
  simpa only [List.length_replicate] using after

theorem Transaction.plain_offered (block : Vector (BitVec 32) 64) (length : Nat) : (plain block length).Offered := by
  refine ⟨nofun, nofun, tick_clockEdge _ _, rfl, fun a member => (replicate_clockEdge _ _ _ a member).1, ?_⟩
  intro a member
  rw [List.eq_of_mem_replicate member]
  rfl

theorem Transaction.plain_drives {s : State} {n : Nat} (block : Vector (BitVec 32) 64)
    (idle : s.state = .IDLE) (counts : s.Counts n) : (plain block (65 - n)).Drives s := by
  have size : edges (plain block (65 - n)).body = 65 - n := by
    rw [edges_eq_length_filter, plain, List.filter_replicate_of_pos rfl, List.length_replicate]
  exact ((plain_offered block _).drives_iff idle counts).mpr size

def twice : List Transaction := [.plain (.replicate 64 0) 65, .plain (.replicate 64 0) 2]

theorem twice_offered : ∀ t ∈ twice, t.Offered := by
  intro t member
  simp only [twice, List.mem_cons, List.not_mem_nil, or_false] at member
  rcases member with rfl | rfl <;> exact Transaction.plain_offered _ _

theorem twice_session :
    Session (run hashCompProc powerOn freshReset) twice := by
  have first := Transaction.plain_drives (s := onReset powerOn) (.replicate 64 0) rfl State.powerOn_counts
  obtain ⟨_, idle, counts⟩ := first.timing rfl State.powerOn_counts
  exact ⟨first, Transaction.plain_drives _ idle counts, trivial⟩

theorem reuse_counterexample :
    ((∃ a ∈ freshReset, a.reset = .one) ∧ Quiet freshReset ∧ Session (run hashCompProc powerOn freshReset) twice) ∧
      ¬∀ k (h : k < twice.length), twice[k].Computes (before (run hashCompProc powerOn freshReset) twice k) := by
  refine ⟨⟨freshReset_quiet.1, freshReset_quiet.2, twice_session⟩, fun all => ?_⟩
  have second := (all 1 (by decide)).1
  exact absurd second (by decide)

theorem reuse_iff_twice :
    (∀ k (h : k < twice.length), twice[k].Computes (before (run hashCompProc powerOn freshReset) twice k)) ↔
      twice.length ≤ 1 :=
  (reuse_iff freshReset_quiet.1 freshReset_quiet.2 twice_offered).2 twice_session

end Example

end Dspc.HashComp
