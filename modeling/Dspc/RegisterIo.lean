import Dspc.Vhdl.Process

namespace Dspc.RegisterIo
open Vhdl

/-- An access to a register of a device, with the data that went over the bus. -/
inductive Access (ρ δ : Type)
  | rd (reg : ρ) (data : δ)
  | wr (reg : ρ) (data : δ)
  deriving DecidableEq

/-- Code that computes on the registers of a device: `poll` reads one until its value
passes a test, and `fail` is undefined behaviour. -/
inductive Prog (ρ δ α : Type)
  | done (a : α)
  | fail
  | read (reg : ρ) (next : δ → Prog ρ δ α)
  | write (reg : ρ) (data : δ) (next : Prog ρ δ α)
  | poll (reg : ρ) (test : δ → Bool) (next : Prog ρ δ α)

variable {ρ δ α β : Type}

namespace Prog

def bind : Prog ρ δ α → (α → Prog ρ δ β) → Prog ρ δ β
  | done a, f => f a
  | fail, _ => fail
  | read reg next, f => read reg fun v => (next v).bind f
  | write reg data next, f => write reg data (next.bind f)
  | poll reg test next, f => poll reg test (next.bind f)

instance : Monad (Prog ρ δ) where
  pure := done
  bind := bind

def get (reg : ρ) : Prog ρ δ δ := read reg done

def put (reg : ρ) (data : δ) : Prog ρ δ Unit := write reg data (done ())

/-- Reads a register until its value passes the test. -/
def await (reg : ρ) (test : δ → Bool) : Prog ρ δ Unit := poll reg test (done ())

def ofOption : Option α → Prog ρ δ α
  | some a => done a
  | none => fail

@[simp] theorem pure_bind (a : α) (f : α → Prog ρ δ β) : ((pure a : Prog ρ δ α) >>= f) = f a := rfl

@[simp] theorem get_bind (reg : ρ) (f : δ → Prog ρ δ β) : (get reg >>= f) = read reg f := rfl

@[simp] theorem put_bind (reg : ρ) (data : δ) (f : Unit → Prog ρ δ β) :
    (put reg data >>= f) = write reg data (f ()) := rfl

@[simp] theorem fail_bind (f : α → Prog ρ δ β) : ((fail : Prog ρ δ α) >>= f) = fail := rfl

variable [DecidableEq ρ] [DecidableEq δ]

/-- The code that is left after an access, if the access is the next one that the code makes. -/
def after : Access ρ δ → Prog ρ δ α → Option (Prog ρ δ α)
  | .rd r v, read reg next => if r = reg then some (next v) else none
  | .wr r v, write reg data next => if r = reg ∧ v = data then some next else none
  | .rd r v, poll reg test next => if r = reg then some (if test v then next else poll reg test next) else none
  | _, _ => none

/-- The code makes these accesses from its start to its end. -/
def Runs (p : Prog ρ δ α) (es : List (Access ρ δ)) (a : α) : Prop := run? after p es = some (done a)

instance [DecidableEq α] (p : Prog ρ δ α) (es : List (Access ρ δ)) (a : α) : Decidable (p.Runs es a) :=
  match ran : run? after p es with
  | some (done b) => decidable_of_iff (b = a) (by rw [Runs, ran, Option.some.injEq, done.injEq])
  | none | some fail | some (read _ _) | some (write _ _ _) | some (poll _ _ _) => .isFalse (by simp [Runs, ran])

/-- Whatever the device answers, the code comes to its end in at most so many accesses. -/
inductive Ends : Nat → Prog ρ δ α → Prop
  | done (n : Nat) (a : α) : Ends n (done a)
  | read {reg : ρ} {next : δ → Prog ρ δ α} {n : Nat} : (∀ v, Ends n (next v)) → Ends (n + 1) (read reg next)
  | write {reg : ρ} {data : δ} {next : Prog ρ δ α} {n : Nat} : Ends n next → Ends (n + 1) (write reg data next)

/-- No values read from the device lead to undefined behaviour. -/
def Defined (p : Prog ρ δ α) : Prop := ∀ es, run? after p es ≠ some fail

variable {es : List (Access ρ δ)} {a : α} {b : β}

@[simp] theorem runs_pure {a' : α} : (pure a : Prog ρ δ α).Runs es a' ↔ es = [] ∧ a = a' := by
  cases es with
  | nil => simp [Runs, pure]
  | cons e es => cases e <;> simp [Runs, pure, after]

@[simp] theorem runs_fail : ¬(fail : Prog ρ δ α).Runs es a := by
  cases es with
  | nil => simp [Runs]
  | cons e es => cases e <;> simp [Runs, after]

theorem runs_read {reg : ρ} {next : δ → Prog ρ δ α} :
    (read reg next).Runs es a ↔ ∃ v rest, es = .rd reg v :: rest ∧ (next v).Runs rest a := by
  cases es with
  | nil => simp [Runs]
  | cons e es =>
    cases e with
    | rd r v =>
      by_cases same : r = reg
      · simp [Runs, after, same]
      · simp [Runs, after, same]
    | wr r v => simp [Runs, after]

theorem runs_write {reg : ρ} {data : δ} {next : Prog ρ δ α} :
    (write reg data next).Runs es a ↔ ∃ rest, es = .wr reg data :: rest ∧ next.Runs rest a := by
  cases es with
  | nil => simp [Runs]
  | cons e es =>
    cases e with
    | rd r v => simp [Runs, after]
    | wr r v =>
      by_cases same : r = reg ∧ v = data
      · simp [Runs, after, same]
      · simp only [Runs, run?_cons, after, if_neg same, Option.bind_none]
        simp only [reduceCtorEq, List.cons.injEq, Access.wr.injEq, false_iff, not_exists, not_and]
        exact fun _ head => absurd head.1 same

theorem runs_await_nil {reg : ρ} {test : δ → Bool} {u : Unit} : ¬(Prog.await reg test).Runs [] u := by
  simp [Runs, Prog.await]

theorem runs_await_cons {reg : ρ} {test : δ → Bool} {u : Unit} {e : Access ρ δ} :
    (Prog.await reg test).Runs (e :: es) u ↔
      ∃ v, e = .rd reg v ∧ (test v = true ∧ es = [] ∨ test v = false ∧ (Prog.await reg test).Runs es u) := by
  cases e with
  | wr r v => simp [Runs, Prog.await, after]
  | rd r v =>
    by_cases same : r = reg
    · cases passes : test v with
      | true =>
        have ends : (done () : Prog ρ δ Unit).Runs es u ↔ es = [] := by
          rw [show (done () : Prog ρ δ Unit) = pure () from rfl, runs_pure]
          exact and_iff_left rfl
        simpa [Runs, Prog.await, after, same, passes] using ends
      | false => simp [Runs, Prog.await, after, same, passes]
    · simp [Runs, Prog.await, after, same]

theorem after_bind {p : Prog ρ δ α} (runs : ∀ a, p ≠ done a) (e : Access ρ δ) (f : α → Prog ρ δ β) :
    after e (p.bind f) = (after e p).map fun q => q.bind f := by
  cases p with
  | done a => exact absurd rfl (runs a)
  | fail => cases e <;> rfl
  | read reg next =>
    cases e with
    | rd r v =>
      simp only [bind, after]
      split <;> rfl
    | wr r v => rfl
  | write reg data next =>
    cases e with
    | rd r v => rfl
    | wr r v =>
      simp only [bind, after]
      split <;> rfl
  | poll reg test next =>
    cases e with
    | rd r v =>
      simp only [bind, after]
      split
      · split <;> rfl
      · rfl
    | wr r v => rfl

/-- A sequence of two programs makes the accesses of the one and then those of the other. -/
theorem runs_bind {p : Prog ρ δ α} {f : α → Prog ρ δ β} :
    (p >>= f).Runs es b ↔ ∃ es₁ es₂ a, es = es₁ ++ es₂ ∧ p.Runs es₁ a ∧ (f a).Runs es₂ b := by
  change (p.bind f).Runs es b ↔ _
  induction es generalizing p with
  | nil =>
    constructor
    · intro runs
      cases p with
      | done a => exact ⟨[], [], a, rfl, rfl, runs⟩
      | _ => exact nomatch Option.some.inj runs
    · rintro ⟨es₁, es₂, a, parts, first, second⟩
      obtain ⟨rfl, rfl⟩ := List.append_eq_nil_iff.mp parts.symm
      cases Option.some.inj first
      exact second
  | cons e es ih =>
    by_cases ended : ∃ a, p = done a
    · obtain ⟨a, rfl⟩ := ended
      constructor
      · exact fun runs => ⟨[], e :: es, a, rfl, rfl, runs⟩
      · rintro ⟨es₁, es₂, a', parts, first, second⟩
        obtain ⟨rfl, rfl⟩ := runs_pure.mp first
        rw [parts]
        exact second
    · have step := after_bind (fun a same => ended ⟨a, same⟩) e f
      rw [Runs, run?_cons, step, Option.bind_map]
      constructor
      · intro runs
        obtain ⟨q, next, rest⟩ := Option.bind_eq_some_iff.mp runs
        obtain ⟨es₁, es₂, a, rfl, first, second⟩ := ih.mp rest
        refine ⟨e :: es₁, es₂, a, rfl, ?_, second⟩
        rw [Runs, run?_cons, next]
        exact first
      · rintro ⟨es₁, es₂, a, parts, first, second⟩
        cases es₁ with
        | nil => exact absurd ⟨a, Option.some.inj first⟩ ended
        | cons e' es₁ =>
          obtain ⟨rfl, rfl⟩ := List.cons.inj parts
          rw [Runs, run?_cons] at first
          obtain ⟨q, next, rest⟩ := Option.bind_eq_some_iff.mp first
          rw [next]
          exact ih.mpr ⟨es₁, es₂, a, rfl, rest, second⟩

omit [DecidableEq ρ] [DecidableEq δ] in
theorem Ends.more {p : Prog ρ δ α} {n m : Nat} (ends : p.Ends n) (most : n ≤ m) : p.Ends m := by
  induction ends generalizing m with
  | done => exact .done m _
  | read _ ih =>
    obtain ⟨k, rfl⟩ : ∃ k, m = k + 1 := ⟨m - 1, by omega⟩
    exact .read fun v => ih v (by omega)
  | write _ ih =>
    obtain ⟨k, rfl⟩ : ∃ k, m = k + 1 := ⟨m - 1, by omega⟩
    exact .write (ih (by omega))

theorem Ends.bind {p : Prog ρ δ α} {f : α → Prog ρ δ β} {n m : Nat} (first : p.Ends n)
    (second : ∀ es a, p.Runs es a → (f a).Ends m) : (p >>= f).Ends (m + n) := by
  change (p.bind f).Ends (m + n)
  induction first with
  | done n a => exact (second [] a rfl).more (Nat.le_add_right m n)
  | @read reg next n _ ih =>
    refine .read fun v => ih v fun es a runs => second (.rd reg v :: es) a ?_
    exact runs_read.mpr ⟨v, es, rfl, runs⟩
  | @write reg data next n _ ih =>
    refine .write (ih fun es a runs => second (.wr reg data :: es) a ?_)
    exact runs_write.mpr ⟨es, rfl, runs⟩

/-- What is left after some accesses ends after that many fewer. -/
theorem Ends.left {p q : Prog ρ δ α} {n : Nat} (ends : p.Ends n) (reached : run? after p es = some q) :
    es.length ≤ n ∧ q.Ends (n - es.length) := by
  induction es generalizing p n with
  | nil =>
    obtain rfl := Option.some.inj reached
    exact ⟨Nat.zero_le n, ends⟩
  | cons e es ih =>
    rw [run?_cons] at reached
    obtain ⟨p', step, rest⟩ := Option.bind_eq_some_iff.mp reached
    obtain ⟨k, rfl, next⟩ : ∃ k, n = k + 1 ∧ p'.Ends k := by
      cases ends with
      | done => cases e <;> cases step
      | @read reg next k ends =>
        cases e with
        | wr r v => cases step
        | rd r v =>
          obtain ⟨_, same⟩ := Option.ite_none_right_eq_some.mp step
          exact ⟨k, rfl, Option.some.inj same ▸ ends v⟩
      | @write reg data next k ends =>
        cases e with
        | rd r v => cases step
        | wr r v =>
          obtain ⟨_, same⟩ := Option.ite_none_right_eq_some.mp step
          exact ⟨k, rfl, Option.some.inj same ▸ ends⟩
    obtain ⟨short, later⟩ := ih next rest
    refine ⟨Nat.succ_le_succ short, ?_⟩
    rwa [List.length_cons, Nat.add_sub_add_right]

theorem Ends.defined {p : Prog ρ δ α} {n : Nat} (ends : p.Ends n) : p.Defined := by
  intro es fails
  have rest := (ends.left fails).2
  generalize n - es.length = m at rest
  cases rest

end Prog

end Dspc.RegisterIo
