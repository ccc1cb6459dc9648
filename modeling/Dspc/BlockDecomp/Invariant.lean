import Dspc.BlockDecomp.Schedule

namespace Dspc.BlockDecomp
open Vhdl

/-- A block is being processed and `r` rising edges are left until its schedule is
announced. Reset may fall at any of them. -/
inductive State.InFlight (s : State) (B : StdLogicVector 512) : Nat → Prop
  | working {r c : Nat} (working : s.state = .WORKING) (counter : s.counter.val = c) (left : 2 * r + c = 66)
      (low : 16 ≤ c) (high : c ≤ 62) (filled : s.Filled B c) (pending : s.finished = .zero) : InFlight s B r
  | done (done : s.state = .DONE) (counter : s.counter.val = 16) (filled : s.Filled B 64)
      (pending : s.finished = .zero) : InFlight s B 1
  | announced (idle : s.state = .IDLE) (counter : s.counter.val = 16) (finished : s.finished = .one)
      (outData : s.outData = scheduleOf B) : InFlight s B 0

structure History where
  accepted : Option (StdLogicVector 512)
  completed : Option (StdLogicVector 512)

def observe (a : Activation Ports) (s : State) (h : History) : History :=
  if ClockEdge a then
    match s.state with
    | .IDLE => if a.ports.update = .one then { h with accepted := some a.ports.inData } else h
    | .WORKING => h
    | .DONE => { h with completed := h.accepted }
  else h

def logged (a : Activation Ports) (x : State × History) : Option (State × History) :=
  (decomp a x.1).map fun s => (s, observe a x.1 x.2)

theorem run?_logged (w : List (Activation Ports)) (s : State) (h : History) :
    (run? logged (s, h) w).map Prod.fst = run? decomp s w := by
  induction w generalizing s h with
  | nil => rfl
  | cons a w ih =>
    rw [run?_cons, run?_cons, logged]
    cases decomp a s with
    | none => rfl
    | some next => exact ih next (observe a s h)

section Flight

variable {s : State} {B : StdLogicVector 512} {r : Nat} {p : Ports}

theorem State.ready_eq_one : s.ready = .one ↔ s.state = .IDLE := by
  unfold ready
  split <;> simp_all

theorem State.InFlight.not_idle (flight : s.InFlight B (r + 1)) : s.state ≠ .IDLE := by
  generalize total : r + 1 = k at flight
  cases flight with
  | working working => simp [working]
  | done done => simp [done]
  | announced => omega

theorem State.InFlight.ready_zero (flight : s.InFlight B (r + 1)) : s.ready = .zero := by
  rw [ready, if_neg flight.not_idle]

theorem State.InFlight.pending (flight : s.InFlight B (r + 1)) : s.finished = .zero := by
  generalize total : r + 1 = k at flight
  cases flight with
  | working _ _ _ _ _ _ pending => exact pending
  | done _ _ _ pending => exact pending
  | announced => omega

theorem State.InFlight.result (flight : s.InFlight B 0) :
    s.state = .IDLE ∧ s.finished = .one ∧ s.outData = scheduleOf B := by
  cases flight with
  | working _ _ left _ high => omega
  | announced idle _ finished outData => exact ⟨idle, finished, outData⟩

theorem State.InFlight.counter_of_ne (flight : s.InFlight B r) (rest : s.state ≠ .WORKING) :
    s.counter.val = 16 := by
  cases flight with
  | working working => exact absurd working rest
  | done _ counter => exact counter
  | announced _ counter => exact counter

theorem onEdge_accepted (idle : s.state = .IDLE) (counter : s.counter.val = 16) (request : p.update = .one) :
    ∃ next, onEdge p s = some next ∧ next.InFlight p.inData 25 ∧ next.outData = s.outData := by
  refine ⟨_, onEdge_accept idle request, ?_, rfl⟩
  refine .working rfl counter rfl le_rfl (by decide) (fun i h early => ?_) rfl
  exact getElem_loadBlock _ _ early

theorem State.InFlight.next (flight : s.InFlight B (r + 1)) (p : Ports) :
    ∃ next, onEdge p s = some next ∧ next.InFlight B r ∧ (0 < r → next.outData = s.outData) := by
  generalize total : r + 1 = k at flight
  cases flight with
  | @working _ c working counter left low high filled pending =>
    have step := onEdge_working (p := p) working counter low high filled
    by_cases last : c = 62
    · rw [if_pos (by omega)] at step
      have one : r = 1 := by omega
      subst one last
      exact ⟨_, step, .done rfl rfl (filled.twoMore high) pending, fun _ => rfl⟩
    · rw [if_neg (by omega)] at step
      refine ⟨_, step, ?_, fun _ => rfl⟩
      exact .working (c := c + 2) working rfl (by omega) (by omega) (by omega) (filled.twoMore high) pending
  | done done counter filled pending =>
    have none : r = 0 := by omega
    subst none
    refine ⟨_, onEdge_done done, .announced rfl counter rfl ?_, fun positive => absurd positive (Nat.lt_irrefl 0)⟩
    apply Vector.ext
    intro i h
    rw [scheduleOf, Vector.getElem_ofFn]
    exact filled i h h
  | announced => omega

theorem State.InFlight.after {es : List (Activation Ports)} (flight : s.InFlight B r)
    (clock : ∀ a ∈ es, ClockEdge a) (short : es.length ≤ r) :
    ∃ next, run? decomp s es = some next ∧ next.InFlight B (r - es.length) := by
  induction es generalizing s r with
  | nil => exact ⟨s, rfl, flight⟩
  | cons a es ih =>
    simp only [List.length_cons] at short ⊢
    obtain ⟨k, rfl⟩ : ∃ k, r = k + 1 := ⟨r - 1, by omega⟩
    obtain ⟨next, step, flight, _⟩ := flight.next a.ports
    obtain ⟨last, rest, done⟩ := ih flight (fun b member => clock b (List.mem_cons_of_mem a member)) (by omega)
    refine ⟨last, ?_, by rwa [show k + 1 - (es.length + 1) = k - es.length by omega]⟩
    rw [run?_cons, decomp, clocked?_edge (clock a List.mem_cons_self), step]
    exact rest

end Flight

/-- What ties the flag, the state, the counter and the two arrays to the history. -/
structure Inv (s : State) (h : History) : Prop where
  counter : s.state ≠ .WORKING → s.counter.val = 16
  busy : s.state ≠ .IDLE → ∃ B r, h.accepted = some B ∧ s.InFlight B (r + 1)
  finished : s.finished = .one → s.state = .IDLE ∧ ∃ B, h.accepted = some B ∧ h.completed = some B
  outData : s.outData = match h.completed with
    | none => .replicate 64 (.others .U)
    | some B => scheduleOf B

theorem inv_powerOn : Inv powerOn ⟨none, none⟩ where
  counter _ := rfl
  busy running := absurd rfl running
  finished flag := nomatch flag
  outData := rfl

section Step

variable {s : State} {h : History} {a : Activation Ports}

theorem observe_still (none : ¬ClockEdge a) : observe a s h = h := if_neg none

/-- Reset keeps the flag and both arrays; that is sound because the flag is low at every
phase in which a block is in flight. -/
theorem Inv.reset (inv : Inv s h) : Inv (onReset s) h where
  counter _ := rfl
  busy running := absurd rfl running
  finished flag := ⟨rfl, (inv.finished flag).2⟩
  outData := inv.outData

theorem Inv.edge_idle (inv : Inv s h) (edge : ClockEdge a) (idle : s.state = .IDLE) :
    ∃ next, onEdge a.ports s = some next ∧ Inv next (observe a s h) := by
  have seen : observe a s h =
      if a.ports.update = .one then { h with accepted := some a.ports.inData } else h := by
    rw [observe, if_pos edge, idle]
  have counter := inv.counter (by simp [idle])
  rw [seen]
  by_cases request : a.ports.update = .one
  · obtain ⟨next, step, flight, kept⟩ := onEdge_accepted idle counter request
    rw [if_pos request]
    refine ⟨next, step, flight.counter_of_ne, fun _ => ⟨_, 24, rfl, flight⟩, fun flag => ?_, kept.trans inv.outData⟩
    rw [flight.pending] at flag
    exact nomatch flag
  · rw [if_neg request]
    exact ⟨s, onEdge_quiet idle request, inv⟩

theorem Inv.edge_busy (inv : Inv s h) (edge : ClockEdge a) (running : s.state ≠ .IDLE) :
    ∃ next, onEdge a.ports s = some next ∧ Inv next (observe a s h) := by
  obtain ⟨B, r, accepted, flight⟩ := inv.busy running
  obtain ⟨next, step, nextFlight, kept⟩ := flight.next a.ports
  refine ⟨next, step, ?_⟩
  rcases Nat.eq_zero_or_pos r with rfl | positive
  · -- The delivering edge: only DONE has one edge left.
    have atDone : s.state = .DONE := by
      cases flight with
      | working _ _ left _ high => omega
      | done done => exact done
    have seen : observe a s h = { h with completed := h.accepted } := by
      rw [observe, if_pos edge, atDone]
    obtain ⟨idle, _, outData⟩ := nextFlight.result
    rw [seen]
    refine ⟨nextFlight.counter_of_ne, fun busy => absurd idle busy, fun _ => ⟨idle, B, accepted, accepted⟩, ?_⟩
    rw [outData, accepted]
  · obtain ⟨k, rfl⟩ : ∃ k, r = k + 1 := ⟨r - 1, by omega⟩
    have atWorking : s.state = .WORKING := by
      cases flight with
      | working working => exact working
    have seen : observe a s h = h := by
      rw [observe, if_pos edge, atWorking]
    rw [seen]
    refine ⟨nextFlight.counter_of_ne, fun _ => ⟨B, k, accepted, nextFlight⟩, fun flag => ?_,
      (kept positive).trans inv.outData⟩
    rw [nextFlight.pending] at flag
    exact nomatch flag

theorem Inv.step (inv : Inv s h) (a : Activation Ports) :
    ∃ next, decomp a s = some next ∧ Inv next (observe a s h) := by
  rcases clocked?_cases onReset onEdge a s with ⟨high, result⟩ | ⟨edge, result⟩ | ⟨_, flat, result⟩ <;>
    rw [decomp, result]
  · rw [observe_still fun edge => edge.1 high]
    exact ⟨_, rfl, inv.reset⟩
  · by_cases idle : s.state = .IDLE
    · exact inv.edge_idle edge idle
    · exact inv.edge_busy edge idle
  · rw [observe_still fun edge => Bool.false_ne_true (flat.symm.trans edge.2)]
    exact ⟨s, rfl, inv⟩

end Step

theorem logged_total (w : List (Activation Ports)) :
    ∃ s h, run? decomp powerOn w = some s ∧ run? logged (powerOn, ⟨none, none⟩) w = some (s, h) ∧ Inv s h := by
  have kept : ∀ a ∈ w, ∀ x : State × History, Inv x.1 x.2 → ∃ y, logged a x = some y ∧ Inv y.1 y.2 := by
    rintro a _ ⟨s, h⟩ inv
    obtain ⟨next, step, inv⟩ := inv.step a
    exact ⟨(next, observe a s h), by rw [logged, step, Option.map_some], inv⟩
  obtain ⟨⟨s, h⟩, reached, inv⟩ := run?_total (s := (powerOn, ⟨none, none⟩)) kept inv_powerOn
  refine ⟨s, h, ?_, reached, inv⟩
  rw [← run?_logged w powerOn ⟨none, none⟩, reached, Option.map_some]

end Dspc.BlockDecomp
