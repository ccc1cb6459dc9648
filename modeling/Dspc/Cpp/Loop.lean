import Mathlib.Algebra.Order.Ring.Int
import Mathlib.Algebra.Order.Ring.Nat
import Mathlib.Tactic.Common

namespace Dspc.Cpp

def intMax : Nat := 2 ^ 31 - 1

variable {σ : Type*} {bound : Int} {step : Nat} {body : Nat → σ → Option σ}

/-- `for (int i = start; i < bound; i += step) body`, run from `i` and the state `s` of
the other variables. `none` is undefined behaviour: in the body, or by overflow of `i`. -/
def forInt (bound : Int) (step : Nat) [NeZero step] (body : Nat → σ → Option σ) (i : Nat) (s : σ) :
    Option σ :=
  if (i : Int) < bound then
    (body i s).bind fun next =>
      if i + step ≤ intMax then forInt bound step body (i + step) next else none
  else some s
termination_by (bound - i).toNat
decreasing_by
  have := NeZero.pos step
  omega

theorem forInt_exit [NeZero step] {i : Nat} (done : bound ≤ i) (s : σ) : forInt bound step body i s = some s := by
  rw [forInt, if_neg (by omega)]

theorem forInt_iterate [NeZero step] {i : Nat} {s next : σ} (more : (i : Int) < bound) (run : body i s = some next)
    (fits : i + step ≤ intMax) :
    forInt bound step body i s = forInt bound step body (i + step) next := by
  rw [forInt, if_pos more, run, Option.bind_some, if_pos fits]

/-- The loop started at `i` in `s` comes to its exit test with counter `n` in the state `mid`. -/
inductive Visits (bound : Int) (step : Nat) (body : Nat → σ → Option σ) : Nat → σ → Nat → σ → Prop
  | here (i : Nat) (s : σ) : Visits bound step body i s i s
  | next {i n : Nat} {s next mid : σ} (more : (i : Int) < bound) (run : body i s = some next)
      (fits : i + step ≤ intMax) (later : Visits bound step body (i + step) next n mid) :
      Visits bound step body i s n mid

section Rule

variable {Inv : Nat → σ → Prop} (iterate : ∀ (i : Nat) (s : σ), (i : Int) < bound → Inv i s →
  ∃ next, body i s = some next ∧ Inv (i + step) next) {i : Nat} {s : σ} (start : Inv i s)
include iterate start

/-- Total correctness of a counted loop: the invariant takes each iteration through
without undefined behaviour, and holds at the exit. -/
theorem forInt_rule [NeZero step] (fits : bound + step ≤ intMax + 1) :
    ∃ (j : Nat) (last : σ), forInt bound step body i s = some last ∧ bound ≤ j ∧ Inv j last := by
  have pos := NeZero.pos step
  generalize left : (bound - i).toNat = m
  induction m using Nat.strongRecOn generalizing i s with
  | ind m ih =>
    by_cases more : (i : Int) < bound
    · obtain ⟨next, run, inv⟩ := iterate i s more start
      rw [forInt_iterate more run (by omega)]
      exact ih _ (by omega) inv rfl
    · exact ⟨i, s, forInt_exit (by omega) s, by omega, start⟩

theorem Visits.inv {n : Nat} {mid : σ} (visited : Visits bound step body i s n mid) : Inv n mid := by
  induction visited with
  | here i s => exact start
  | next more run fits later ih =>
    obtain ⟨next, same, inv⟩ := iterate _ _ more start
    rw [run] at same
    exact ih (Option.some.inj same ▸ inv)

end Rule

/-- The state that a loop leaves is the last one it visits. -/
theorem forInt_visits {n i : Nat} {s last : σ} (start : i ≤ n)
    (run : forInt n 1 body i s = some last) : Visits n 1 body i s n last := by
  generalize left : n - i = m
  induction m generalizing i s with
  | zero =>
    have there : i = n := by omega
    subst there
    rw [forInt_exit (Int.le_refl _)] at run
    exact Option.some.inj run ▸ .here i s
  | succ m ih =>
    have more : (i : Int) < n := by omega
    rw [forInt, if_pos more] at run
    obtain ⟨next, iteration, rest⟩ := Option.bind_eq_some_iff.mp run
    split at rest
    · rename_i fits
      exact .next more iteration fits (ih (by omega) rest (by omega))
    · exact nomatch rest

/-- Two bodies that do the same wherever the counter gets to make the same loop. -/
theorem forInt_congr [NeZero step] {body' : Nat → σ → Option σ} {P : Nat → Prop}
    (same : ∀ (i : Nat) (s : σ), (i : Int) < bound → P i → body i s = body' i s)
    (later : ∀ i, P i → P (i + step)) {i : Nat} (start : P i) (s : σ) :
    forInt bound step body i s = forInt bound step body' i s := by
  have pos := NeZero.pos step
  generalize left : (bound - i).toNat = m
  induction m using Nat.strongRecOn generalizing i s with
  | ind m ih =>
    by_cases more : (i : Int) < bound
    · rw [forInt, forInt.eq_1 bound step body' i s, if_pos more, if_pos more, same i s more start]
      refine congrArg _ (funext fun next => ?_)
      rw [ih _ (by omega) (later i start) next rfl]
    · rw [forInt_exit (by omega), forInt_exit (by omega)]

/-- A loop whose bound is beyond `int` overflows its counter, whatever its body does. -/
theorem forInt_overflow (large : intMax < bound) {i : Nat} (start : i ≤ intMax) (s : σ) :
    forInt bound 1 body i s = none := by
  generalize left : intMax - i = m
  induction m generalizing i s with
  | zero =>
    rw [forInt, if_pos (by omega)]
    cases body i s with
    | none => rfl
    | some next => rw [Option.bind_some, if_neg (by omega)]
  | succ m ih =>
    rw [forInt, if_pos (by omega)]
    cases body i s with
    | none => rfl
    | some next => rw [Option.bind_some, if_pos (by omega), ih (by omega) next (by omega)]

end Dspc.Cpp
