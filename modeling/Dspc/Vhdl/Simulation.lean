import Mathlib.Data.List.Induction
import Dspc.Vhdl.Process

namespace Dspc.Vhdl

/-- A process that runs from one wait statement to the next: from the ports and the
signals it drives to the values it projects for these, and the changes of the ports
that end its wait. -/
structure Process (π σ : Type*) where
  body : π → σ → Option σ
  resumes : π → π → Bool

structure Simulation (π σ : Type*) where
  ports : π
  signals : σ
  projected : Option σ

variable {π σ : Type*}

/-- No assignment is left that takes effect in the next delta cycle. -/
def Simulation.Settled (k : Simulation π σ) : Prop := k.projected = none

namespace Process

/-- Initialisation: the process runs once, up to its wait. -/
def start (P : Process π σ) (p : π) (s : σ) : Option (Simulation π σ) :=
  (P.body p s).map fun next => ⟨p, s, some next⟩

/-- One simulation cycle: projected values take effect, the ports become `p`, and the
process runs again if that ends its wait. -/
def cycle (P : Process π σ) (p : π) (k : Simulation π σ) : Option (Simulation π σ) :=
  let signals := k.projected.getD k.signals
  if P.resumes k.ports p then (P.body p signals).map fun next => ⟨p, signals, some next⟩
  else some ⟨p, signals, none⟩

def simulate (P : Process π σ) (p : π) (s : σ) (w : List π) : Option (Simulation π σ) :=
  (P.start p s).bind fun k => run? P.cycle k w

variable {P : Process π σ} {p : π} {s out : σ}

theorem simulate_nil (first : P.body p s = some out) : P.simulate p s [] = some ⟨p, s, some out⟩ := by
  rw [simulate, start, first, Option.map_some, Option.bind_some, run?_nil]

/-- A process that no change resumes shows for ever what it computed at the start. -/
theorem simulate_suspended (forever : ∀ old new, P.resumes old new = false) (first : P.body p s = some out)
    (w : List π) (q : π) : P.simulate p s (w ++ [q]) = some ⟨q, out, none⟩ := by
  have step (k : Simulation π σ) (q : π) : P.cycle q k = some ⟨q, k.projected.getD k.signals, none⟩ := by
    rw [cycle, forever, if_neg Bool.false_ne_true]
  rw [simulate, start, first, Option.map_some, Option.bind_some]
  induction w using List.reverseRecOn generalizing q with
  | nil => rw [List.nil_append, run?_cons, step, Option.bind_some, run?_nil, Option.getD_some]
  | append_singleton w q' ih => exact run?_concat.mpr ⟨_, ih q', by rw [step, Option.getD_none]⟩

end Process

end Dspc.Vhdl
