import Dspc.Vhdl.Checked

namespace Dspc.Vhdl

/-- One use of an element of an array. -/
inductive Access
  | read (i : Nat)
  | write (i : Nat)
  deriving DecidableEq

/-- A computation that may fail a run-time check and that logs its accesses, the oldest first. -/
abbrev Accessing (α : Type) := StateT (List Access) Option α

/-- Every element that the log reads was written earlier in it. -/
def WrittenFirst (log : List Access) : Prop :=
  ∀ before i after, log = before ++ .read i :: after → .write i ∈ before

variable {α β : Type} {n : Nat}

def fetch (v : Vector α n) (i : Nat) : Accessing α := fun log => v[i]?.map fun x => (x, log ++ [.read i])

def store (v : Vector α n) (i : Nat) (x : α) : Accessing (Vector α n) := fun log =>
  (assign v i x).map fun v => (v, log ++ [.write i])

def fetchAll (v : Vector α n) : Accessing (Vector α n) := fun log => some (v, log ++ (List.range n).map .read)

section Forget

/-- Without its log, `m` is the computation `o` of run-time checks only. -/
def Forgets (m : Accessing α) (o : Option α) : Prop := ∀ log, m.run' log = o

variable (v : Vector α n) (i : Nat) (x : α)

theorem Forgets.fetch : Forgets (fetch v i) v[i]? := by
  intro log
  simp only [StateT.run'_eq, StateT.run, Vhdl.fetch]
  cases v[i]? <;> rfl

theorem Forgets.store : Forgets (store v i x) (assign v i x) := by
  intro log
  simp only [StateT.run'_eq, StateT.run, Vhdl.store]
  cases assign v i x <;> rfl

theorem Forgets.fetchAll : Forgets (fetchAll v) (some v) := fun _ => rfl

theorem Forgets.pure : Forgets (Pure.pure x) (some x) := fun _ => rfl

theorem Forgets.lift (o : Option α) : Forgets (liftM o) o := by
  intro log
  cases o <;> rfl

theorem Forgets.bind {m : Accessing α} {o : Option α} {f : α → Accessing β} {g : α → Option β} (first : Forgets m o)
    (rest : ∀ x, Forgets (f x) (g x)) : Forgets (m >>= f) (o >>= g) := by
  intro log
  rw [← first log, StateT.run'_eq, StateT.run_bind, StateT.run'_eq]
  cases ran : m.run log with
  | none => rfl
  | some y => exact rest y.1 y.2

theorem Forgets.of_run {m : Accessing α} {o : Option α} (forgets : Forgets m o) {log after : List Access}
    (ran : m.run log = some (x, after)) : o = some x := by
  rw [← forgets log, StateT.run'_eq, ran]
  rfl

end Forget

section Run

variable {v : Vector α n} {i : Nat} (log : List Access)

theorem run_fetch_bind (inside : i < n) (f : α → Accessing β) :
    (fetch v i >>= f).run log = (f v[i]).run (log ++ [.read i]) := by
  rw [StateT.run_bind, StateT.run, fetch, Vector.getElem?_eq_getElem inside]
  rfl

theorem run_store (inside : i < n) (x : α) : (store v i x).run log = some (v.set i x, log ++ [.write i]) := by
  rw [StateT.run, store, assign_eq v x inside, Option.map_some]

theorem run_store_bind (inside : i < n) (x : α) (f : Vector α n → Accessing β) :
    (store v i x >>= f).run log = (f (v.set i x)).run (log ++ [.write i]) := by
  rw [StateT.run_bind, run_store log inside]
  rfl

theorem run_lift_bind {o : Option α} {x : α} (passed : o = some x) (f : α → Accessing β) :
    ((liftM o : Accessing α) >>= f).run log = (f x).run log := by
  rw [passed]
  rfl

end Run

section WrittenFirst

variable {log chunk : List Access}

theorem writtenFirst_of_no_read (none : ∀ i, .read i ∉ log) : WrittenFirst log := by
  intro before i after cut
  exact absurd (cut ▸ List.mem_append_right before List.mem_cons_self) (none i)

theorem WrittenFirst.append (first : WrittenFirst log) (covered : ∀ i, .read i ∈ chunk → .write i ∈ log) :
    WrittenFirst (log ++ chunk) := by
  intro before i after cut
  rcases List.append_eq_append_iff.mp cut with ⟨more, rfl, rest⟩ | ⟨more, rfl, rest⟩
  · have member : .read i ∈ chunk := rest ▸ List.mem_append_right more List.mem_cons_self
    exact List.mem_append_left more (covered i member)
  · cases more with
    | nil =>
      have member : .read i ∈ chunk := (List.nil_append chunk ▸ rest) ▸ List.mem_cons_self
      simpa using covered i member
    | cons e more =>
      obtain ⟨rfl, rfl⟩ := List.cons.inj rest
      exact first before i more rfl

end WrittenFirst

end Dspc.Vhdl
