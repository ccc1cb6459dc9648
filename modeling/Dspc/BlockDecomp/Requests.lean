import Dspc.Server
import Dspc.Vhdl.Trace
import Dspc.BlockDecomp.Announce

namespace Dspc.BlockDecomp
open Vhdl

def edgeEvents (p : Ports) (s : State) : List Server.Event :=
  match s.state with
  | .IDLE => if p.update = .one then [.accept] else []
  | .WORKING => []
  | .DONE => [.complete]

def event : Activation Ports → State → List Server.Event := clockedEvents [.reset] edgeEvents

def events : State → List (Activation Ports) → List Server.Event := trace event decomp

/-- From every reset on, the flag is not raised before a block is completed, and then it
stands for the block last accepted since that reset. -/
def AnnouncesAfresh (w : List (Activation Ports)) : Prop :=
  ∀ u r v y s t, w = u ++ r :: (v ++ y) → r.reset = .one → run? decomp powerOn u = some s →
    run? decomp s (r :: v) = some t →
    (.complete ∉ events s (r :: v) → t.finished ≠ .one) ∧
    (t.finished = .one → ∃ h B, run? logged (s, ⟨none, none⟩) (r :: v) = some (t, h) ∧
      h.accepted = some B ∧ IsSchedule t.outData B)

section Step

variable {s t : State} {a : Activation Ports} {p : Ports}

theorem onEdge_working_keeps (working : s.state = .WORKING) (step : onEdge p s = some t) :
    t.state ≠ .IDLE ∧ t.finished = s.finished := by
  simp only [onEdge, working, Option.bind_eq_bind, Option.bind_eq_some_iff] at step
  obtain ⟨_, _, _, _, _, _, _, _, _, _, _, _, _, _, _, _, _, _, _, _, _, _, step⟩ := step
  split at step <;> cases Option.some.inj step <;> simp

/-- What one activation does to the flag. Only an accepted request lowers it: reset
leaves it as it is. -/
theorem decomp_cases (step : decomp a s = some t) :
    event a s = [.reset] ∧ t.state = .IDLE ∧ t.finished = s.finished ∨
      event a s = [.accept] ∧ s.state = .IDLE ∧ t.state ≠ .IDLE ∧ t.finished = .zero ∨
      event a s = [.complete] ∧ s.state ≠ .IDLE ∧ t.state = .IDLE ∧ t.finished = .one ∨
      event a s = [] ∧ (t.state = .IDLE ↔ s.state = .IDLE) ∧ t.finished = s.finished := by
  rcases clocked?_cases onReset onEdge a s with ⟨high, result⟩ | ⟨edge, result⟩ | ⟨low, flat, result⟩ <;>
    rw [decomp, result] at step
  · cases Option.some.inj step
    exact .inl ⟨clockedEvents_reset high, rfl, rfl⟩
  · rw [event, clockedEvents_edge edge, edgeEvents]
    cases mode : s.state with
    | IDLE =>
      by_cases request : a.ports.update = .one
      · rw [onEdge_accept mode request] at step
        cases Option.some.inj step
        simp [request]
      · rw [onEdge_quiet mode request] at step
        cases Option.some.inj step
        simp [request, mode]
    | WORKING =>
      obtain ⟨running, same⟩ := onEdge_working_keeps mode step
      simp [running, same]
    | DONE =>
      rw [onEdge_done mode] at step
      cases Option.some.inj step
      simp
  · cases Option.some.inj step
    simp [event, clockedEvents_still low flat]

theorem observe_accepted (a : Activation Ports) (s : State) (h : History) :
    (observe a s h).accepted = if event a s = [.accept] then some a.ports.inData else h.accepted := by
  by_cases edge : ClockEdge a
  · rw [observe, if_pos edge, event, clockedEvents_edge edge, edgeEvents]
    cases s.state with
    | IDLE => by_cases request : a.ports.update = .one <;> simp [request]
    | WORKING => simp
    | DONE => simp
  · rw [observe_still edge, if_neg]
    intro accepted
    rw [event, clockedEvents] at accepted
    split at accepted
    · simp at accepted
    · rename_i low
      split at accepted
      · rename_i rises
        exact edge ⟨low, rises⟩
      · simp at accepted

end Step

/-- Whatever resets came between, the flag is up exactly while a completion stands. -/
theorem finished_iff_standing {w : List (Activation Ports)} {s : State} (reached : run? decomp powerOn w = some s) :
    s.finished = .one ↔ Server.Standing (events powerOn w) := by
  induction w using List.reverseRecOn generalizing s with
  | nil =>
    cases Option.some.inj reached
    exact iff_of_false nofun Server.not_standing_nil
  | append_singleton w a ih =>
    obtain ⟨mid, before, last⟩ := run?_concat.mp reached
    have same := ih before
    rw [events, trace_concat before, ← events]
    rcases decomp_cases last with ⟨what, _, flag⟩ | ⟨what, _, _, flag⟩ | ⟨what, _, _, flag⟩ | ⟨what, _, flag⟩ <;>
      rw [what, flag]
    · simp [Server.standing_concat, same]
    · simp [Server.standing_concat]
    · simp [Server.standing_concat]
    · simp [same]

/-- A run with its whole history beside the same run with its history begun afresh in an
idle state in which the flag is down. -/
structure Afresh (x y : State × History) : Prop where
  state : x.1 = y.1
  accepted : ∀ B, y.2.accepted = some B → x.2.accepted = some B
  down : y.2.accepted = none → y.1.state = .IDLE ∧ y.1.finished ≠ .one

theorem Afresh.step (a : Activation Ports) (x y x' y' : State × History) (afresh : Afresh x y)
    (stepX : logged a x = some x') (stepY : logged a y = some y') : Afresh x' y' := by
  obtain ⟨s, h⟩ := x
  obtain ⟨_, g⟩ := y
  obtain ⟨rfl, accepted, down⟩ := afresh
  obtain ⟨t, step, rfl⟩ := Option.map_eq_some_iff.mp stepX
  obtain ⟨t', step', rfl⟩ := Option.map_eq_some_iff.mp stepY
  cases Option.some.inj (step.symm.trans step')
  refine ⟨rfl, ?_, ?_⟩
  · simp only [observe_accepted]
    split
    · exact fun B same => same
    · exact accepted
  · simp only [observe_accepted]
    rcases decomp_cases step with ⟨what, idle, flag⟩ | ⟨what, _⟩ | ⟨what, busy, _⟩ | ⟨what, idle, flag⟩ <;>
      simp only [what, reduceCtorEq, List.cons.injEq, and_true, if_false, if_true, false_implies]
    · exact fun none => ⟨idle, flag ▸ (down none).2⟩
    · exact fun none => absurd (down none).1 busy
    · exact fun none => ⟨idle.mpr (down none).1, flag ▸ (down none).2⟩

theorem exists_logged {w : List (Activation Ports)} {s t : State} (reached : run? decomp s w = some t) (h : History) :
    ∃ g, run? logged (s, h) w = some (t, g) := by
  rw [← run?_logged w s h] at reached
  obtain ⟨⟨_, g⟩, total, rfl⟩ := Option.map_eq_some_iff.mp reached
  exact ⟨g, total⟩

section Reset

variable {u v : List (Activation Ports)} {r : Activation Ports} {s t : State}
  (before : run? decomp powerOn u = some s) (after : run? decomp s (r :: v) = some t)
include before after

theorem flag_down (lowered : ¬Server.Standing (events powerOn u)) (none : .complete ∉ events s (r :: v)) :
    t.finished ≠ .one := by
  intro flag
  have reached : run? decomp powerOn (u ++ r :: v) = some t := by
    rw [run?_append, before, Option.bind_some, after]
  rw [finished_iff_standing reached, events, trace_append before] at flag
  exact lowered (Server.standing_of_append none flag)

/-- When the flag is down at a reset, it vouches afterwards for a block accepted since. -/
theorem flag_afresh (high : r.reset = .one) (lowered : s.finished ≠ .one) (flag : t.finished = .one) :
    ∃ h B, run? logged (s, ⟨none, none⟩) (r :: v) = some (t, h) ∧ h.accepted = some B ∧ IsSchedule t.outData B := by
  obtain ⟨t', h, total, whole, inv⟩ := logged_total (u ++ r :: v)
  rw [run?_append, before, Option.bind_some, after] at total
  cases Option.some.inj total
  rw [run?_append] at whole
  obtain ⟨⟨s', h₀⟩, atReset, whole⟩ := Option.bind_eq_some_iff.mp whole
  have same := run?_logged u powerOn ⟨none, none⟩
  rw [atReset, before, Option.map_some] at same
  obtain rfl : s = s' := (Option.some.inj same).symm
  obtain ⟨g, fresh⟩ := exists_logged after ⟨none, none⟩
  have resets (k : History) : logged r (s, k) = some (onReset s, k) := by
    rw [logged, decomp, clocked?_reset high, Option.map_some, observe_still fun edge => edge.1 high]
  have start : Afresh (onReset s, h₀) (onReset s, ⟨none, none⟩) := ⟨rfl, by simp, fun _ => ⟨rfl, lowered⟩⟩
  have restX := whole
  have restY := fresh
  rw [run?_cons, resets, Option.bind_some] at restX restY
  have afresh := run?_related Afresh.step start restX restY
  obtain ⟨_, B, accepted, completed⟩ := inv.finished flag
  have outData := inv.outData
  rw [completed] at outData
  cases since : g.accepted with
  | none => exact absurd flag (afresh.down since).2
  | some B' =>
    have last := afresh.accepted B' since
    rw [accepted] at last
    cases Option.some.inj last
    exact ⟨g, B, fresh, since, isSchedule_of_eq outData⟩

end Reset

theorem AnnouncesAfresh.lowered {w u y : List (Activation Ports)} {r : Activation Ports} (afresh : AnnouncesAfresh w)
    (cut : w = u ++ r :: y) (high : r.reset = .one) : ¬Server.Standing (events powerOn u) := by
  intro standing
  obtain ⟨s, _, before, _⟩ := logged_total u
  have step : decomp r s = some (onReset s) := clocked?_reset high
  have after : run? decomp s [r] = some (onReset s) := by
    rw [run?_cons, step, Option.bind_some, run?_nil]
  have quiet : .complete ∉ events s [r] := by
    rw [events, trace_cons step, trace_nil, event, clockedEvents_reset high]
    simp
  exact (afresh u r [] y s _ (by simpa using cut) high before after).1 quiet
    ((finished_iff_standing before).mpr standing)

/-- Reset keeps the flag, so what follows it is announced afresh exactly when no reset
falls between the completion of a block and the acceptance of the next. -/
theorem announces_afresh_iff (w : List (Activation Ports)) :
    AnnouncesAfresh w ↔
      ∀ u r y, w = u ++ r :: y → r.reset = .one → ¬Server.Standing (events powerOn u) := by
  constructor
  · exact fun afresh u r y cut high => afresh.lowered cut high
  · intro lowered u r v y s t cut high before after
    have down := lowered u r (v ++ y) cut high
    have flag : s.finished ≠ .one := mt (finished_iff_standing before).mp down
    exact ⟨flag_down before after down, flag_afresh before after high flag⟩

def completedZeros : List (Activation Ports) :=
  tick .one (.ofBits 0) :: List.replicate 25 (tick .zero (.ofBits 0))

theorem announces_afresh_counterexample :
    ¬AnnouncesAfresh (completedZeros ++ [⟨.one, false, .zero, .others .zero⟩]) := by
  intro afresh
  have low : ResetLow (List.replicate 25 (tick .zero (.ofBits 0))) := by
    intro a member
    rw [List.eq_of_mem_replicate member]
    exact nofun
  obtain ⟨t, reached, _, flag, _⟩ := Reachable.completes (B := 0) ⟨[], rfl⟩ rfl
    (tick_clockEdge .one (.ofBits 0)) rfl rfl low (by decide)
  exact afresh.lowered rfl rfl ((finished_iff_standing reached).mp flag)

end Dspc.BlockDecomp
