import Dspc.HashComp.Rtl

namespace Dspc.HashComp
open Vhdl

def Reachable (s : State) : Prop := ∃ w, run hashCompProc powerOn w = s

/-- No block is started: newData is not '1' on any clock edge. -/
def Quiet (w : List (Activation Ports)) : Prop := ∀ a ∈ w, ClockEdge a → a.ports.newData ≠ .one

namespace State

variable {s : State} {n r : Nat}

/-- `r` rising edges are left until the block being processed is delivered. The
counter is neither cleared on entry nor by reset, so it decides how many these are. -/
inductive InFlight (s : State) : Nat → Prop
  | busy {r n : Nat} (busy : s.state = .BUSY) (counts : s.Counts n) (left : r + n = 65) : InFlight s r
  | final (final : s.state = .FINAL) (counts : s.Counts 63) : InFlight s 1
  | done (idle : s.state = .IDLE) (counts : s.Counts 63) : InFlight s 0

theorem InFlight.ready_zero (flight : s.InFlight r) (pending : 0 < r) : s.ready = .zero := by
  rw [ready_eq_zero]
  cases flight with
  | busy busy => simp [busy]
  | final final => simp [final]
  | done => omega

theorem InFlight.idle (flight : s.InFlight 0) : s.state = .IDLE ∧ s.Counts 63 := by
  cases flight with
  | busy _ counts left =>
    have := counts.1
    omega
  | done idle counts => exact ⟨idle, counts⟩

theorem InFlight.ready_one (flight : s.InFlight 0) : s.ready = .one :=
  ready_eq_one.mpr flight.idle.1

theorem InFlight.final_of_one (flight : s.InFlight 1) : s.state = .FINAL := by
  cases flight with
  | busy _ counts left =>
    have := counts.1
    omega
  | final final => exact final

theorem InFlight.busy_of_two_le (flight : s.InFlight r) (early : 2 ≤ r) :
    s.state = .BUSY ∧ s.Counts (65 - r) := by
  cases flight with
  | @busy _ n busy counts left =>
    have same : 65 - r = n := by omega
    exact ⟨busy, same ▸ counts⟩
  | final => omega
  | done => omega

theorem InFlight.accept (counts : s.Counts n) : InFlight { s with state := .BUSY } (65 - n) :=
  .busy rfl counts (by have := counts.1; omega)

theorem InFlight.next (flight : s.InFlight (r + 1)) (p : Ports) : (onEdge p s).InFlight r := by
  generalize total : r + 1 = k at flight
  cases flight with
  | @busy _ n busy counts left =>
    by_cases last : n = 63
    · have one : r = 1 := by omega
      obtain ⟨final, counts⟩ := onEdge_busy_last (p := p) busy counts last
      subst one last
      exact .final final counts
    · have range := counts.1
      obtain ⟨busy, counts⟩ := onEdge_busy_next (p := p) busy counts (by omega)
      exact .busy busy counts (by omega)
  | final final counts =>
    have none : r = 0 := by omega
    obtain ⟨idle, counts⟩ := onEdge_final (p := p) final counts
    subst none
    exact .done idle counts
  | done => omega

theorem InFlight.after {es : List (Activation Ports)} (flight : s.InFlight r)
    (clock : ∀ a ∈ es, ClockEdge a) (short : es.length ≤ r) :
    (run hashCompProc s es).InFlight (r - es.length) := by
  induction es generalizing s r with
  | nil => exact flight
  | cons a es ih =>
    simp only [List.length_cons] at short ⊢
    obtain ⟨k, rfl⟩ : ∃ k, r = k + 1 := ⟨r - 1, by omega⟩
    have next : (hashCompProc a s).InFlight k := by
      rw [hashCompProc_edge (clock a List.mem_cons_self)]
      exact flight.next a.ports
    have rest := ih next (fun b member => clock b (List.mem_cons_of_mem a member)) (by omega)
    rw [run_cons, show k + 1 - (es.length + 1) = k - es.length by omega]
    exact rest

def Sound (s : State) : Prop := ∃ n, s.Counts n ∧ (s.state = .FINAL → n = 63)

theorem Sound.step (sound : s.Sound) (a : Activation Ports) : (hashCompProc a s).Sound := by
  obtain ⟨n, counts, atFinal⟩ := sound
  rcases clocked_cases onReset onEdge a s with ⟨_, result⟩ | ⟨_, result⟩ | ⟨_, _, result⟩ <;>
    rw [hashCompProc, result]
  · exact ⟨n, onReset_counts counts, fun final => nomatch final⟩
  · cases mode : s.state with
    | IDLE =>
      by_cases request : a.ports.newData = .one
      · rw [onEdge_accept mode request]
        exact ⟨n, counts, fun final => nomatch final⟩
      · rw [onEdge_quiet mode request]
        exact ⟨n, counts, atFinal⟩
    | BUSY =>
      by_cases last : n = 63
      · exact ⟨n, (onEdge_busy_last mode counts last).2, fun _ => last⟩
      · have range := counts.1
        obtain ⟨busy, next⟩ := onEdge_busy_next (p := a.ports) mode counts (by omega)
        exact ⟨n + 1, next, fun final => nomatch busy.symm.trans final⟩
    | FINAL =>
      obtain ⟨idle, next⟩ := onEdge_final (p := a.ports) mode counts
      exact ⟨n, next, fun final => nomatch idle.symm.trans final⟩
  · exact ⟨n, counts, atFinal⟩

theorem powerOn_sound : powerOn.Sound := ⟨0, powerOn_counts, fun final => nomatch final⟩

end State

theorem Reachable.sound {s : State} (reach : Reachable s) : s.Sound := by
  obtain ⟨w, rfl⟩ := reach
  have kept : ∀ a s, State.Sound s → State.Sound (hashCompProc a s) := fun a _ sound => sound.step a
  exact run_keeps kept State.powerOn_sound w

/-- A waveform that starts no block leaves an idle machine idle and its counter alone;
one reset in it is enough to load the initial hash value. -/
theorem quiet_run {s : State} {n : Nat} {w : List (Activation Ports)} (quiet : Quiet w)
    (idle : s.state = .IDLE) (counts : s.Counts n) :
    (run hashCompProc s w).state = .IDLE ∧ (run hashCompProc s w).Counts n ∧
      (s.Holds (.ofHash Sha256.initialHash) ∨ (∃ a ∈ w, a.reset = .one) →
        (run hashCompProc s w).Holds (.ofHash Sha256.initialHash)) := by
  induction w generalizing s with
  | nil =>
    refine ⟨idle, counts, ?_⟩
    rintro (holds | ⟨a, member, _⟩)
    · exact holds
    · simp at member
  | cons a w ih =>
    have later : Quiet w := fun b member => quiet b (List.mem_cons_of_mem a member)
    rw [run_cons]
    rcases clocked_cases onReset onEdge a s with ⟨_, result⟩ | ⟨edge, result⟩ | ⟨low, _, result⟩ <;>
      rw [hashCompProc, result]
    · obtain ⟨stays, same, loaded⟩ := ih later rfl (State.onReset_counts counts)
      exact ⟨stays, same, fun _ => loaded (.inl (State.onReset_holds s))⟩
    · rw [State.onEdge_quiet idle (quiet a List.mem_cons_self edge)]
      obtain ⟨stays, same, loaded⟩ := ih later idle counts
      refine ⟨stays, same, fun origin => loaded (origin.imp_right ?_)⟩
      rintro ⟨b, member, high⟩
      rcases List.mem_cons.mp member with rfl | member
      · exact absurd high edge.1
      · exact ⟨b, member, high⟩
    · obtain ⟨stays, same, loaded⟩ := ih later idle counts
      refine ⟨stays, same, fun origin => loaded (origin.imp_right ?_)⟩
      rintro ⟨b, member, high⟩
      rcases List.mem_cons.mp member with rfl | member
      · exact absurd high low
      · exact ⟨b, member, high⟩

section Stimuli

def tick (newData : StdLogic) (input : StringText) : Activation Ports := ⟨.zero, true, newData, input⟩

def freshReset : List (Activation Ports) := [⟨.one, false, .zero, .replicate 64 (.others .zero)⟩]

theorem tick_clockEdge (newData : StdLogic) (input : StringText) : ClockEdge (tick newData input) :=
  ⟨nofun, rfl⟩

theorem replicate_clockEdge (m : Nat) (newData : StdLogic) (input : StringText) :
    ∀ a ∈ List.replicate m (tick newData input), ClockEdge a := by
  intro a member
  rw [List.eq_of_mem_replicate member]
  exact tick_clockEdge newData input

theorem freshReset_quiet : (∃ a ∈ freshReset, a.reset = .one) ∧ Quiet freshReset := by
  refine ⟨⟨_, List.mem_singleton_self _, rfl⟩, fun a member edge => ?_⟩
  rw [List.mem_singleton.mp member] at edge
  exact absurd rfl edge.1

end Stimuli

end Dspc.HashComp
