import Dspc.Vhdl.Process

namespace Dspc.Vhdl

variable {σ τ ι π ε : Type*}

/-- The events of a run, in order. A run-time error is the end of it. -/
def trace (emit : ι → σ → List ε) (step : ι → σ → Option σ) : σ → List ι → List ε
  | _, [] => []
  | s, i :: w => emit i s ++ (step i s).elim [] fun next => trace emit step next w

/-- The events of a clocked process: reset emits `onReset` whatever the clock does. -/
def clockedEvents (onReset : List ε) (onEdge : π → σ → List ε) (a : Activation π) (s : σ) : List ε :=
  if a.reset = .one then onReset else if a.rising then onEdge a.ports s else []

section Clocked

variable {onReset : List ε} {onEdge : π → σ → List ε} {a : Activation π} {s : σ}

theorem clockedEvents_reset (high : a.reset = .one) : clockedEvents onReset onEdge a s = onReset := by
  rw [clockedEvents, if_pos high]

theorem clockedEvents_edge (edge : ClockEdge a) : clockedEvents onReset onEdge a s = onEdge a.ports s := by
  rw [clockedEvents, if_neg edge.1, if_pos edge.2]

theorem clockedEvents_still (low : a.reset ≠ .one) (flat : a.rising = false) :
    clockedEvents onReset onEdge a s = [] := by
  rw [clockedEvents, if_neg low, flat, if_neg Bool.false_ne_true]

end Clocked

section Trace

variable {emit : ι → σ → List ε} {step : ι → σ → Option σ} {s t : σ}

@[simp] theorem trace_nil (s : σ) : trace emit step s [] = [] := rfl

theorem trace_cons {i : ι} {next : σ} (steps : step i s = some next) (w : List ι) :
    trace emit step s (i :: w) = emit i s ++ trace emit step next w := by
  rw [trace, steps, Option.elim_some]

theorem trace_append {u : List ι} (reached : run? step s u = some t) (v : List ι) :
    trace emit step s (u ++ v) = trace emit step s u ++ trace emit step t v := by
  induction u generalizing s with
  | nil =>
    cases Option.some.inj reached
    rfl
  | cons i u ih =>
    rw [run?_cons] at reached
    obtain ⟨next, steps, rest⟩ := Option.bind_eq_some_iff.mp reached
    rw [List.cons_append, trace_cons steps, trace_cons steps, ih rest, List.append_assoc]

theorem trace_concat {u : List ι} (reached : run? step s u = some t) (i : ι) :
    trace emit step s (u ++ [i]) = trace emit step s u ++ emit i t := by
  rw [trace_append reached, trace]
  cases step i t <;> simp

/-- Forward simulation. A machine over the events that can always follow the run takes
exactly the steps that its trace spells. -/
theorem trace_simulates {Rel : σ → τ → Prop} {next : ε → τ → Option τ}
    (kept : ∀ i s b, Rel s b → ∃ s' b', step i s = some s' ∧ run? next b (emit i s) = some b' ∧ Rel s' b')
    {b : τ} (start : Rel s b) (w : List ι) :
    ∃ s' b', run? step s w = some s' ∧ run? next b (trace emit step s w) = some b' ∧ Rel s' b' := by
  induction w generalizing s b with
  | nil => exact ⟨s, b, rfl, rfl, start⟩
  | cons i w ih =>
    obtain ⟨s', b', steps, follows, related⟩ := kept i s b start
    obtain ⟨last, final, run, spelled, agree⟩ := ih related
    refine ⟨last, final, ?_, ?_, agree⟩
    · rw [run?_cons, steps, Option.bind_some, run]
    · rw [trace_cons steps, run?_append, follows, Option.bind_some, spelled]

theorem run?_pure (step : ι → σ → σ) (s : σ) (w : List ι) :
    run? (fun i s => some (step i s)) s w = some (run step s w) := by
  induction w generalizing s with
  | nil => rfl
  | cons i w ih => rw [run?_cons, Option.bind_some, ih, run_cons]

section Projection

variable {κ : Type*} {next : ι → σ → σ} (proj : σ → τ) (f : ι → σ → κ) (next' : κ → τ → τ)
  (commutes : ∀ i s, proj (next i s) = next' (f i s) (proj s))
include commutes

/-- A part of a machine runs on the inputs that the whole machine gives it. -/
theorem run_proj (s : σ) (w : List ι) :
    proj (run next s w) = run next' (proj s) (trace (fun i s => [f i s]) (fun i s => some (next i s)) s w) := by
  induction w generalizing s with
  | nil => rfl
  | cons i w ih => rw [run_cons, ih, trace_cons rfl, List.singleton_append, run_cons, commutes]

theorem trace_proj (emit : κ → τ → List ε) (s : σ) (w : List ι) :
    trace (fun i s => emit (f i s) (proj s)) (fun i s => some (next i s)) s w =
      trace emit (fun k t => some (next' k t)) (proj s)
        (trace (fun i s => [f i s]) (fun i s => some (next i s)) s w) := by
  induction w generalizing s with
  | nil => rfl
  | cons i w ih =>
    have later := ih (next i s)
    rw [commutes] at later
    rw [trace_cons rfl, later, trace_cons rfl, List.singleton_append]
    exact (trace_cons rfl _).symm

end Projection

theorem trace_map {κ : Type*} (f : ι → κ) (step : ι → σ → σ) (s : σ) (w : List ι) :
    trace (fun i _ => [f i]) (fun i s => some (step i s)) s w = w.map f := by
  induction w generalizing s with
  | nil => rfl
  | cons i w ih => rw [trace_cons rfl, ih, List.singleton_append, List.map_cons]

theorem map_trace {ε' : Type*} (g : ε → ε') (emit : ι → σ → List ε) (step : ι → σ → Option σ) (s : σ) (w : List ι) :
    (trace emit step s w).map g = trace (fun i s => (emit i s).map g) step s w := by
  induction w generalizing s with
  | nil => rfl
  | cons i w ih =>
    rw [trace, trace, List.map_append]
    cases step i s with
    | none => rfl
    | some next => rw [Option.elim_some, Option.elim_some, ih]

theorem flatMap_trace {ε' : Type*} (g : ε → List ε') (emit : ι → σ → List ε) (step : ι → σ → Option σ) (s : σ)
    (w : List ι) : (trace emit step s w).flatMap g = trace (fun i s => (emit i s).flatMap g) step s w := by
  induction w generalizing s with
  | nil => rfl
  | cons i w ih =>
    rw [trace, trace, List.flatMap_append]
    cases step i s with
    | none => rfl
    | some next => rw [Option.elim_some, Option.elim_some, ih]

theorem length_trace (f : ι → σ → ε) (step : ι → σ → σ) (s : σ) (w : List ι) :
    (trace (fun i s => [f i s]) (fun i s => some (step i s)) s w).length = w.length := by
  induction w generalizing s with
  | nil => rfl
  | cons i w ih => rw [trace_cons rfl, List.length_append, ih, List.length_singleton, List.length_cons, Nat.add_comm]

end Trace

end Dspc.Vhdl
