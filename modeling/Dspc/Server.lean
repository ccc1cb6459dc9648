import Mathlib.Data.List.Induction
import Mathlib.Tactic.Common
import Dspc.Vhdl.Process

namespace Dspc.Server
open Vhdl

/-! A server with room for one request. -/

inductive Event
  | accept | complete | reset
  deriving DecidableEq

/-- The steps of the server; its state tells whether a request is in flight. Reset
aborts that request and leaves an idle server idle. -/
def serve : Event → Bool → Option Bool
  | .accept, false => some true
  | .complete, true => some false
  | .reset, _ => some false
  | _, _ => none

/-- What becomes of a request, from the events after it: completed, aborted by reset,
or still in flight. -/
def fate (later : List Event) : Option Event := later.find? (· ≠ .accept)

/-- The number of accepted requests of a given fate. -/
def tally (f : Option Event) : List Event → Nat
  | [] => 0
  | e :: es => (if e = .accept ∧ fate es = f then 1 else 0) + tally f es

/-- A completion stands as long as no further request is accepted. -/
def Standing (es : List Event) : Prop := ∃ x y, es = x ++ .complete :: y ∧ .accept ∉ y

@[simp] theorem fate_accept (es : List Event) : fate (.accept :: es) = fate es := by
  simp [fate]

@[simp] theorem fate_complete (es : List Event) : fate (.complete :: es) = some .complete := by
  simp [fate]

@[simp] theorem fate_reset (es : List Event) : fate (.reset :: es) = some .reset := by
  simp [fate]

theorem fate_cases (es : List Event) : fate es = some .complete ∨ fate es = some .reset ∨ fate es = none := by
  induction es with
  | nil => exact .inr (.inr rfl)
  | cons e es ih => cases e <;> simp [ih]

theorem tally_accept (es : List Event) :
    tally (some .complete) es + tally (some .reset) es + tally none es = es.count .accept := by
  induction es with
  | nil => rfl
  | cons e es ih =>
    simp only [tally, List.count_cons]
    cases e with
    | accept => rcases fate_cases es with f | f | f <;> simp [f] <;> omega
    | complete => simpa using ih
    | reset => simpa using ih

section Served

variable {e : Event} {es : List Event} {busy next final : Bool}

theorem serve_cases (step : serve e busy = some next) :
    e = .accept ∧ busy = false ∧ next = true ∨ e = .complete ∧ busy = true ∧ next = false ∨
      e = .reset ∧ next = false := by
  cases e <;> cases busy <;> cases next <;> simp_all [serve]

/-- A run completes the requests it accepted and did not abort, and the one it began
with unless that is aborted. -/
theorem count_complete (served : run? serve busy es = some final) :
    es.count .complete =
      tally (some .complete) es + if busy = true ∧ fate es = some .complete then 1 else 0 := by
  induction es generalizing busy with
  | nil => simp [tally, fate]
  | cons e es ih =>
    rw [run?_cons] at served
    obtain ⟨next, step, rest⟩ := Option.bind_eq_some_iff.mp served
    have later := ih rest
    rcases serve_cases step with ⟨rfl, rfl, rfl⟩ | ⟨rfl, rfl, rfl⟩ | ⟨rfl, rfl⟩
    · simp [tally, later, Nat.add_comm]
    · simp [tally, later]
    · simp [tally, later]

/-- A request is in flight at the end of a run exactly when one was left to its fate. -/
theorem tally_none (served : run? serve busy es = some final) :
    (tally none es + if busy = true ∧ fate es = none then 1 else 0) = final.toNat := by
  induction es generalizing busy with
  | nil =>
    cases Option.some.inj served
    cases final <;> rfl
  | cons e es ih =>
    rw [run?_cons] at served
    obtain ⟨next, step, rest⟩ := Option.bind_eq_some_iff.mp served
    have later := ih rest
    rcases serve_cases step with ⟨rfl, rfl, rfl⟩ | ⟨rfl, rfl, rfl⟩ | ⟨rfl, rfl⟩
    · simpa [tally, Nat.add_comm] using later
    · simpa [tally] using later
    · simpa [tally] using later

theorem idle_after_complete {x : List Event} (served : run? serve busy x = some final)
    (last : x.getLast? = some .complete) : final = false := by
  obtain ⟨u, rfl⟩ := List.getLast?_eq_some_iff.mp last
  rw [run?_append] at served
  obtain ⟨mid, _, step⟩ := Option.bind_eq_some_iff.mp served
  cases mid <;> simp_all [serve]

/-- Before the first completion, and between one and the next, exactly one request is
accepted that is not aborted later. -/
theorem one_between {x m y : List Event} (served : run? serve false es = some final)
    (cut : es = x ++ m ++ .complete :: y) (from_complete : x = [] ∨ x.getLast? = some .complete)
    (none : .complete ∉ m) : tally (some .complete) (m ++ [.complete]) = 1 := by
  have split : es = x ++ ((m ++ [.complete]) ++ y) := by
    rw [cut]
    simp
  rw [split, run?_append] at served
  obtain ⟨mid, before, rest⟩ := Option.bind_eq_some_iff.mp served
  rw [run?_append] at rest
  obtain ⟨_, within, _⟩ := Option.bind_eq_some_iff.mp rest
  have idle : mid = false := by
    rcases from_complete with rfl | last
    · exact (Option.some.inj before).symm
    · exact idle_after_complete before last
  have counted := count_complete within
  rw [idle, List.count_append, List.count_eq_zero_of_not_mem none] at counted
  simpa using counted.symm

end Served

section Standing

variable {es : List Event}

theorem not_standing_nil : ¬Standing [] := by
  rintro ⟨x, y, cut, _⟩
  simp at cut

theorem standing_concat (es : List Event) (e : Event) :
    Standing (es ++ [e]) ↔ e = .complete ∨ e ≠ .accept ∧ Standing es := by
  constructor
  · rintro ⟨x, y, cut, none⟩
    rcases List.eq_nil_or_concat y with rfl | ⟨y, last, rfl⟩
    · have same := (List.append_inj' cut rfl).2
      exact .inl (List.cons.inj same).1
    · rw [List.concat_eq_append, ← List.cons_append, ← List.append_assoc] at cut
      obtain ⟨rfl, same⟩ := List.append_inj' cut rfl
      obtain rfl := (List.cons.inj same).1
      simp only [List.concat_eq_append, List.mem_append, List.mem_singleton, not_or] at none
      exact .inr ⟨Ne.symm none.2, x, y, rfl, none.1⟩
  · rintro (rfl | ⟨other, x, y, rfl, none⟩)
    · exact ⟨es, [], rfl, List.not_mem_nil⟩
    · refine ⟨x, y ++ [e], by simp, ?_⟩
      simp only [List.mem_append, List.mem_singleton, not_or]
      exact ⟨none, Ne.symm other⟩

theorem standing_of_append {x y : List Event} (none : .complete ∉ y) (standing : Standing (x ++ y)) : Standing x := by
  induction y using List.reverseRecOn with
  | nil => rwa [List.append_nil] at standing
  | append_singleton y e ih =>
    simp only [List.mem_append, List.mem_singleton, not_or] at none
    rw [← List.append_assoc, standing_concat] at standing
    rcases standing with rfl | ⟨_, before⟩
    · exact absurd rfl none.2
    · exact ih none.1 before

end Standing

end Dspc.Server
