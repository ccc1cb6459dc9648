import Dspc.BlockDecomp.Requests

namespace Dspc.BlockDecomp
open Vhdl

def workingReads (c : Nat) : List Nat := [c - 2, c - 7, c - 15, c - 16, c - 1, c - 6, c - 14, c - 15]

def workingWrites (c : Nat) : List Nat := [c, c + 1]

def workingAccesses (c : Nat) : List Access := (workingReads c).map .read ++ (workingWrites c).map .write

theorem run_loadLogged (T : WordArray) (inData : StdLogicVector 512) (log : List Access) :
    (loadLogged T inData).run log = some (loadBlock T inData, log ++ (List.range 16).reverse.map .write) := by
  rw [loadLogged]
  iterate 15 rw [run_store_bind _ (by decide)]
  rw [run_store _ (by decide)]
  simp only [List.append_assoc, List.cons_append, List.nil_append]
  rfl

theorem onEdgeLogged_forget (p : Ports) (s : State) : Forgets (onEdgeLogged p s) (onEdge p s) := by
  cases mode : s.state with
  | IDLE =>
    simp only [onEdgeLogged, onEdge, mode]
    split
    · intro log
      rw [StateT.run'_eq, StateT.run_bind, run_loadLogged]
      rfl
    · exact .pure s
  | WORKING =>
    simp only [onEdgeLogged, onEdge, mode]
    iterate 8 refine .bind (.fetch _ _) fun _ => ?_
    iterate 2 refine .bind (.store _ _ _) fun _ => ?_
    refine .bind (.lift _) fun counter => ?_
    split <;> exact .pure _
  | DONE =>
    simp only [onEdgeLogged, onEdge, mode]
    exact .bind (.fetchAll _) fun _ => .pure _

theorem onEdgeLogged_working {p : Ports} {s : State} {c : Nat} (working : s.state = .WORKING)
    (counter : s.counter.val = c) (low : 16 ≤ c) (high : c ≤ 62) (log : List Access) :
    ∃ next, (onEdgeLogged p s).run log = some (next, log ++ workingAccesses c) ∧
      if c + 2 > 63 then next.state = .DONE ∧ next.counter.val = 16
      else next.state = .WORKING ∧ next.counter.val = c + 2 := by
  have checked := IntegerRange.check_eq (show 16 ≤ c + 2 ∧ c + 2 ≤ 65 by omega)
  simp only [onEdgeLogged, working, counter]
  iterate 8 rw [run_fetch_bind _ (by omega)]
  iterate 2 rw [run_store_bind _ (by omega)]
  rw [run_lift_bind _ checked]
  simp only [workingAccesses, workingReads, workingWrites, List.map_cons, List.map_nil, List.append_assoc,
    List.cons_append, List.nil_append]
  split
  · exact ⟨_, rfl, rfl, rfl⟩
  · exact ⟨_, rfl, rfl, rfl⟩

/-- The counter is even, which is why 63 is never among its values, and up to it the
words of the block have been written once. -/
structure Tracked (s : State) (log : List Access) : Prop where
  even : s.counter.val % 2 = 0
  rest : s.state ≠ .WORKING → s.counter.val = 16
  high : s.counter.val ≤ 62
  first : WrittenFirst log
  working : s.state = .WORKING → ∀ i, log.count (.write i) = if i < s.counter.val then 1 else 0
  done : s.state = .DONE → ∀ i < 64, log.count (.write i) = 1

structure IndexSafe (s : State) (log : List Access) : Prop where
  even : s.counter.val % 2 = 0
  range : 16 ≤ s.counter.val ∧ s.counter.val ≤ 65
  rest : s.state = .IDLE ∨ s.state = .DONE → s.counter.val = 16
  high : s.state = .WORKING → s.counter.val ≤ 62
  edge : s.state = .WORKING → ∀ p, ∃ (next : State) (reads writes : List Nat), onEdge p s = some next ∧
    (onEdgeLogged p s).run log = some (next, log ++ (reads.map .read ++ writes.map .write)) ∧
    (∀ i ∈ reads, s.counter.val - 16 ≤ i ∧ i ≤ s.counter.val - 1 ∧ i ≤ 63) ∧
    writes = [s.counter.val, s.counter.val + 1] ∧ s.counter.val + 1 ≤ 63 ∧ s.counter.val + 2 ≤ 65
  first : WrittenFirst log
  once : s.state = .DONE → ∀ a, ClockEdge a → ∃ next after, accessed a (s, log) = some (next, after) ∧
    ∀ i < 64, after.count (.write i) = 1

theorem mem_workingReads {c i : Nat} (low : 16 ≤ c) (member : i ∈ workingReads c) : c - 16 ≤ i ∧ i ≤ c - 1 := by
  simp only [workingReads, List.mem_cons, List.not_mem_nil, or_false] at member
  omega

theorem count_reads (l : List Nat) (i : Nat) : (l.map Access.read).count (.write i) = 0 := by
  rw [List.count_eq_zero]
  simp

theorem count_workingAccesses (c i : Nat) :
    (workingAccesses c).count (.write i) = if i = c ∨ i = c + 1 then 1 else 0 := by
  rw [workingAccesses, List.count_append, count_reads, Nat.zero_add]
  have distinct : ((workingWrites c).map Access.write).Nodup := by simp [workingWrites]
  rw [distinct.count]
  simp [workingWrites]

theorem count_loads (i : Nat) :
    ((List.range 16).reverse.map Access.write).count (.write i) = if i < 16 then 1 else 0 := by
  have distinct : ((List.range 16).reverse.map Access.write).Nodup := by decide
  rw [distinct.count]
  simp

section Step

variable {s : State} {log : List Access} {p : Ports}

theorem Tracked.working_edge (tracked : Tracked s log) (working : s.state = .WORKING) (p : Ports) :
    ∃ next, (onEdgeLogged p s).run log = some (next, log ++ workingAccesses s.counter.val) ∧
      Tracked next (log ++ workingAccesses s.counter.val) := by
  have low := s.counter.property.1
  have high := tracked.high
  have even := tracked.even
  obtain ⟨next, ran, after⟩ := onEdgeLogged_working (p := p) working rfl low high log
  refine ⟨next, ran, ?_⟩
  have counts (i : Nat) :
      (log ++ workingAccesses s.counter.val).count (.write i) = if i < s.counter.val + 2 then 1 else 0 := by
    rw [List.count_append, tracked.working working, count_workingAccesses]
    split <;> split <;> split <;> omega
  have first : WrittenFirst (log ++ workingAccesses s.counter.val) := by
    refine tracked.first.append fun i member => ?_
    simp only [workingAccesses, List.mem_append, List.mem_map, Access.read.injEq, exists_eq_right, reduceCtorEq,
      and_false, exists_false, or_false] at member
    have below := (mem_workingReads low member).2
    rw [← List.count_pos_iff, tracked.working working, if_pos (by omega)]
    exact Nat.one_pos
  split at after
  · obtain ⟨done, counter⟩ := after
    refine ⟨by omega, fun _ => counter, by omega, first, fun busy => ?_, fun _ i inside => ?_⟩
    · exact nomatch done.symm.trans busy
    · rw [counts, if_pos (by omega)]
  · obtain ⟨busy, counter⟩ := after
    refine ⟨by omega, fun rest => absurd busy rest, by omega, first, fun _ i => ?_, fun done => ?_⟩
    · rw [counts, counter]
    · exact nomatch busy.symm.trans done

theorem Tracked.reset (tracked : Tracked s log) : Tracked (onReset s) log := by
  have counter : (onReset s).counter.val = 16 := rfl
  exact ⟨by omega, fun _ => counter, by omega, tracked.first, nofun, nofun⟩

theorem Tracked.idle_edge (tracked : Tracked s log) (idle : s.state = .IDLE) (p : Ports) :
    ∃ next after, (onEdgeLogged p s).run (if s.state = .IDLE ∧ p.update = .one then [] else log) = some (next, after) ∧
      Tracked next after := by
  have counter := tracked.rest (by simp [idle])
  by_cases request : p.update = .one
  · rw [if_pos ⟨idle, request⟩]
    simp only [onEdgeLogged, idle, if_pos request, StateT.run_bind, run_loadLogged]
    refine ⟨_, _, rfl, tracked.even, fun busy => absurd rfl busy, tracked.high, ?_, fun _ i => ?_, nofun⟩
    · exact writtenFirst_of_no_read (by simp)
    · rw [List.nil_append, count_loads, counter]
  · rw [if_neg fun accepted => request accepted.2]
    simp only [onEdgeLogged, idle, if_neg request]
    exact ⟨s, log, rfl, tracked⟩

theorem Tracked.done_edge (tracked : Tracked s log) (done : s.state = .DONE) (p : Ports) :
    ∃ next, (onEdgeLogged p s).run log = some (next, log ++ (List.range 64).map .read) ∧
      Tracked next (log ++ (List.range 64).map .read) := by
  simp only [onEdgeLogged, done]
  refine ⟨_, rfl, tracked.even, fun _ => tracked.rest (by simp [done]), tracked.high, ?_, nofun, nofun⟩
  refine tracked.first.append fun i member => ?_
  rw [← List.count_pos_iff, tracked.done done i (by simpa using member)]
  exact Nat.one_pos

theorem Tracked.step (tracked : Tracked s log) (a : Activation Ports) :
    ∃ next after, accessed a (s, log) = some (next, after) ∧ decomp a s = some next ∧ Tracked next after := by
  rcases clocked?_cases onReset onEdge a s with ⟨high, result⟩ | ⟨edge, result⟩ | ⟨low, flat, result⟩ <;>
    rw [decomp, result]
  · exact ⟨_, _, clocked?_reset high, rfl, tracked.reset⟩
  · have ran : ∃ next after, (onEdgeLogged a.ports s).run
        (if s.state = .IDLE ∧ a.ports.update = .one then [] else log) = some (next, after) ∧ Tracked next after := by
      cases mode : s.state with
      | IDLE =>
        have idle := tracked.idle_edge mode a.ports
        rwa [mode] at idle
      | WORKING =>
        obtain ⟨next, ran, kept⟩ := tracked.working_edge mode a.ports
        exact ⟨next, _, by simpa using ran, kept⟩
      | DONE =>
        obtain ⟨next, ran, kept⟩ := tracked.done_edge mode a.ports
        exact ⟨next, _, by simpa using ran, kept⟩
    obtain ⟨next, after, ran, kept⟩ := ran
    refine ⟨next, after, ?_, (onEdgeLogged_forget a.ports s).of_run _ ran, kept⟩
    rw [accessed, clocked?_edge edge, ran]
  · exact ⟨s, log, clocked?_still low flat, rfl, tracked⟩

theorem Tracked.indexSafe (tracked : Tracked s log) : IndexSafe s log := by
  have low := s.counter.property.1
  have high := tracked.high
  refine ⟨tracked.even, s.counter.property, ?_, fun _ => high, fun working p => ?_, tracked.first, fun done a edge => ?_⟩
  · rintro (idle | done)
    · exact tracked.rest (by simp [idle])
    · exact tracked.rest (by simp [done])
  · obtain ⟨next, ran, _⟩ := tracked.working_edge working p
    refine ⟨next, _, _, (onEdgeLogged_forget p s).of_run _ ran, ran, fun i member => ?_, rfl, by omega, by omega⟩
    have within := mem_workingReads low member
    omega
  · obtain ⟨next, ran, _⟩ := tracked.done_edge done a.ports
    refine ⟨next, log ++ (List.range 64).map .read, ?_, fun i inside => ?_⟩
    · rw [accessed, clocked?_edge edge]
      simpa [done] using ran
    · rw [List.count_append, tracked.done done i inside, count_reads]

end Step

theorem tracked_powerOn : Tracked powerOn [] :=
  ⟨rfl, fun _ => rfl, by decide, writtenFirst_of_no_read (by simp), nofun, nofun⟩

/-- No index or range check of the process can fail, no word is read before the current
block has written it, and a completed block has written each word once. -/
theorem indices_safe (w : List (Activation Ports)) :
    ∃ s log, run? decomp powerOn w = some s ∧ run? accessed (powerOn, []) w = some (s, log) ∧ IndexSafe s log := by
  have reached : ∃ s log, run? decomp powerOn w = some s ∧ run? accessed (powerOn, []) w = some (s, log) ∧
      Tracked s log := by
    induction w using List.reverseRecOn with
    | nil => exact ⟨powerOn, [], rfl, rfl, tracked_powerOn⟩
    | append_singleton w a ih =>
      obtain ⟨s, log, plain, logs, tracked⟩ := ih
      obtain ⟨next, after, stepLog, step, kept⟩ := tracked.step a
      exact ⟨next, after, run?_concat.mpr ⟨s, plain, step⟩, run?_concat.mpr ⟨_, logs, stepLog⟩, kept⟩
  obtain ⟨s, log, plain, logs, tracked⟩ := reached
  exact ⟨s, log, plain, logs, tracked.indexSafe⟩

end Dspc.BlockDecomp
