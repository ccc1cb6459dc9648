import Dspc.RegisterIo

namespace Dspc.RegisterIo
open Vhdl

/-! Code on a device of which a model is known, and that others use at the same time. -/

section Reaches

variable {ρ δ τ : Type} {next : Access ρ δ → τ → τ → Prop} {others : Access ρ δ → Prop}
  {es fs all : List (Access ρ δ)} {t t' t'' u : τ}

/-- The states in which the model of a device may be after a sequence of accesses. -/
inductive Reaches (next : Access ρ δ → τ → τ → Prop) : List (Access ρ δ) → τ → τ → Prop
  | refl (t : τ) : Reaches next [] t t
  | step {e : Access ρ δ} {es : List (Access ρ δ)} {t t' t'' : τ} :
      next e t t' → Reaches next es t' t'' → Reaches next (e :: es) t t''

theorem reaches_nil : Reaches next [] t t' ↔ t' = t := by
  constructor
  · rintro ⟨⟩
    rfl
  · rintro rfl
    exact .refl t'

theorem reaches_cons {e : Access ρ δ} :
    Reaches next (e :: es) t t'' ↔ ∃ t', next e t t' ∧ Reaches next es t' t'' := by
  constructor
  · rintro (_ | ⟨first, rest⟩)
    exact ⟨_, first, rest⟩
  · rintro ⟨t', first, rest⟩
    exact .step first rest

theorem reaches_append : Reaches next (es ++ fs) t t'' ↔ ∃ t', Reaches next es t t' ∧ Reaches next fs t' t'' := by
  induction es generalizing t with
  | nil => simp [reaches_nil]
  | cons e es ih =>
    simp only [List.cons_append, reaches_cons, ih]
    constructor
    · rintro ⟨s, first, s', second, third⟩
      exact ⟨s', ⟨s, first, second⟩, third⟩
    · rintro ⟨s', ⟨s, first, second⟩, third⟩
      exact ⟨s, first, s', second, third⟩

/-- The accesses of some code in their order, and other ones before, between and behind them. -/
inductive Among (others : Access ρ δ → Prop) : List (Access ρ δ) → List (Access ρ δ) → Prop
  | nil : Among others [] []
  | own {e : Access ρ δ} {es all : List (Access ρ δ)} : Among others es all → Among others (e :: es) (e :: all)
  | other {e : Access ρ δ} {es all : List (Access ρ δ)} :
      others e → Among others es all → Among others es (e :: all)

theorem among_self (others : Access ρ δ → Prop) (es : List (Access ρ δ)) : Among others es es := by
  induction es with
  | nil => exact .nil
  | cons e es ih => exact .own ih

/-- A model that knows less than the device, and never more through others, follows the code
alone. -/
theorem Among.follows {R : τ → τ → Prop} (among : Among others es all) (reaches : Reaches next all t t')
    (related : R t u) (own : ∀ e t t' u, next e t t' → R t u → ∃ u', next e u u' ∧ R t' u')
    (other : ∀ e t t' u, others e → next e t t' → R t u → R t' u) : ∃ u', Reaches next es u u' ∧ R t' u' := by
  induction among generalizing t u with
  | nil =>
    rw [reaches_nil.mp reaches]
    exact ⟨u, .refl u, related⟩
  | own _ ih =>
    obtain ⟨s, first, rest⟩ := reaches_cons.mp reaches
    obtain ⟨u', step, still⟩ := own _ _ _ _ first related
    obtain ⟨last, later, final⟩ := ih rest still
    exact ⟨last, .step step later, final⟩
  | other foreign _ ih =>
    obtain ⟨s, first, rest⟩ := reaches_cons.mp reaches
    exact ih rest (other _ _ _ _ foreign first related)

end Reaches

section Triple

variable {ρ δ τ α β : Type} [DecidableEq ρ] [DecidableEq δ] {next : Access ρ δ → τ → τ → Prop}
  {P P' : τ → Prop} {R : α → τ → Prop} {Q Q' : β → τ → Prop} {p : Prog ρ δ α} {f : α → Prog ρ δ β}

/-- From the states with `P` the code comes to those with `Q`, when it comes to its end. -/
def Triple (next : Access ρ δ → τ → τ → Prop) (P : τ → Prop) (p : Prog ρ δ α) (R : α → τ → Prop) : Prop :=
  ∀ es a t t', P t → Reaches next es t t' → p.Runs es a → R a t'

theorem Triple.pre (triple : Triple next P p R) (stronger : ∀ t, P' t → P t) : Triple next P' p R :=
  fun es a t t' start => triple es a t t' (stronger t start)

theorem Triple.post {R' : α → τ → Prop} (triple : Triple next P p R) (weaker : ∀ a t, R a t → R' a t) :
    Triple next P p R' :=
  fun es a t t' start reaches runs => weaker a t' (triple es a t t' start reaches runs)

/-- What is known of the values, and not of the device, holds throughout. -/
theorem triple_given {c : Prop} (triple : c → Triple next P p R) : Triple next (fun t => c ∧ P t) p R :=
  fun es a t t' start => triple start.1 es a t t' start.2

theorem triple_exists {κ : Type} {S : κ → τ → Prop} (triple : ∀ k, Triple next (S k) p R) :
    Triple next (fun t => ∃ k, S k t) p R :=
  fun es a t t' ⟨k, start⟩ => triple k es a t t' start

theorem triple_pure {a : α} (holds : ∀ t, P t → R a t) : Triple next P (pure a) R := by
  intro es a' t t' start reaches runs
  obtain ⟨rfl, rfl⟩ := Prog.runs_pure.mp runs
  rw [reaches_nil.mp reaches]
  exact holds t start

theorem triple_fail : Triple next P .fail R := fun _ _ _ _ _ _ runs => absurd runs Prog.runs_fail

theorem Triple.bind (first : Triple next P p R) (second : ∀ a, Triple next (R a) (f a) Q) :
    Triple next P (p >>= f) Q := by
  intro es b t t'' start reaches runs
  obtain ⟨es₁, es₂, a, rfl, runs₁, runs₂⟩ := Prog.runs_bind.mp runs
  obtain ⟨t', reaches₁, reaches₂⟩ := reaches_append.mp reaches
  exact second a es₂ b t' t'' (first es₁ a t t' start reaches₁ runs₁) reaches₂ runs₂

theorem triple_get {reg : ρ} {R : δ → τ → Prop} (holds : ∀ v t t', P t → next (.rd reg v) t t' → R v t') :
    Triple next P (Prog.get reg) R := by
  intro es v t t' start reaches runs
  obtain ⟨v', rest, rfl, done⟩ := Prog.runs_read.mp runs
  obtain ⟨rfl, rfl⟩ := Prog.runs_pure.mp done
  obtain ⟨s, first, last⟩ := reaches_cons.mp reaches
  rw [reaches_nil.mp last]
  exact holds v' t s start first

theorem triple_put {reg : ρ} {data : δ} {R : Unit → τ → Prop}
    (holds : ∀ t t', P t → next (.wr reg data) t t' → R () t') : Triple next P (Prog.put reg data) R := by
  intro es a t t' start reaches runs
  obtain ⟨rest, rfl, done⟩ := Prog.runs_write.mp runs
  obtain ⟨rfl, -⟩ := Prog.runs_pure.mp done
  obtain ⟨s, first, last⟩ := reaches_cons.mp reaches
  rw [reaches_nil.mp last]
  exact holds t s start first

/-- What each read keeps is there when one has passed the test. -/
theorem triple_await {reg : ρ} {test : δ → Bool} {R : Unit → τ → Prop}
    (again : ∀ v t t', P t → next (.rd reg v) t t' → test v = false → P t')
    (holds : ∀ v t t', P t → next (.rd reg v) t t' → test v = true → R () t') :
    Triple next P (Prog.await reg test) R := by
  intro es a t t' start reaches runs
  induction es generalizing t with
  | nil => exact absurd runs Prog.runs_await_nil
  | cons e es ih =>
    obtain ⟨s, first, rest⟩ := reaches_cons.mp reaches
    obtain ⟨v, rfl, ⟨passes, done⟩ | ⟨fails, more⟩⟩ := Prog.runs_await_cons.mp runs
    · rw [done, reaches_nil] at rest
      rw [rest]
      exact holds v t s start first passes
    · exact ih s (again v t s start first fails) rest more

end Triple

end Dspc.RegisterIo
