import Mathlib.Data.List.Induction
import Dspc.Vhdl.Trace

namespace Dspc
open Vhdl
open scoped List

/-! What is put somewhere and held there until it is taken. -/

section Along

variable {ι σ : Type*} {step : ι → σ → σ} {P Q : ι → σ → Prop} {s : σ} {w v : List ι} {i : ι}

/-- A condition on the inputs of a run and the states that they find. -/
def Along (step : ι → σ → σ) (P : ι → σ → Prop) : σ → List ι → Prop
  | _, [] => True
  | s, i :: w => P i s ∧ Along step P (step i s) w

instance [∀ i s, Decidable (P i s)] : ∀ (w : List ι) (s : σ), Decidable (Along step P s w)
  | [], _ => .isTrue trivial
  | _ :: w, s => @instDecidableAnd _ _ inferInstance (instDecidableAlong w (step _ s))

theorem along_append : Along step P s (w ++ v) ↔ Along step P s w ∧ Along step P (run step s w) v := by
  induction w generalizing s with
  | nil => simp [Along]
  | cons i w ih => rw [List.cons_append, Along, Along, ih, run_cons, and_assoc]

theorem along_concat : Along step P s (w ++ [i]) ↔ Along step P s w ∧ P i (run step s w) := by
  rw [along_append, Along, Along, and_true]

theorem Along.mono (along : Along step P s w) (weaker : ∀ i ∈ w, ∀ s, P i s → Q i s) : Along step Q s w := by
  induction w generalizing s with
  | nil => exact trivial
  | cons i w ih =>
    exact ⟨weaker i List.mem_cons_self s along.1,
      ih along.2 fun j member => weaker j (List.mem_cons_of_mem _ member)⟩

theorem Along.and (left : Along step P s w) (right : Along step Q s w) :
    Along step (fun i s => P i s ∧ Q i s) s w := by
  induction w generalizing s with
  | nil => exact trivial
  | cons i w ih => exact ⟨⟨left.1, right.1⟩, ih left.2 right.2⟩

theorem Along.congr {R : ι → σ → Prop} (along : Along step R s w) (same : ∀ i s, R i s → (P i s ↔ Q i s)) :
    Along step P s w ↔ Along step Q s w := by
  induction w generalizing s with
  | nil => exact Iff.rfl
  | cons i w ih => rw [Along, Along, same i s along.1, ih along.2]

theorem along_of_invariant {I : σ → Prop} (holds : ∀ i ∈ w, ∀ s, I s → P i s ∧ I (step i s)) (start : I s) :
    Along step P s w := by
  induction w generalizing s with
  | nil => exact trivial
  | cons i w ih =>
    obtain ⟨here, next⟩ := holds i List.mem_cons_self s start
    exact ⟨here, ih (fun j member => holds j (List.mem_cons_of_mem _ member)) next⟩

theorem along_forall {β : Type*} {emit : ι → σ → List β} {R : β → Prop} :
    Along step (fun i s => ∀ e ∈ emit i s, R e) s w ↔
      ∀ e ∈ trace emit (fun i s => some (step i s)) s w, R e := by
  induction w generalizing s with
  | nil => simp [Along]
  | cons i w ih => rw [Along, ih, trace_cons rfl, List.forall_mem_append]

theorem Along.kept {I : σ → Prop} (along : Along step P s w) (keeps : ∀ i s, P i s → I s → I (step i s))
    (start : I s) : I (run step s w) := by
  induction w generalizing s with
  | nil => exact start
  | cons i w ih => exact ih along.2 (keeps i s along.1 start)

theorem Along.and_invariant {I : σ → Prop} (along : Along step P s w)
    (keeps : ∀ i s, P i s → I s → I (step i s)) (start : I s) : Along step (fun i s => P i s ∧ I s) s w := by
  induction w generalizing s with
  | nil => exact trivial
  | cons i w ih => exact ⟨⟨along.1, start⟩, ih along.2 (keeps i s along.1 start)⟩

/-- What comes nearer with every input is reached when there are enough of them. -/
theorem Along.reaches {n : Nat} (along : Along step P s w) (goal : σ → Prop) (near : Nat → σ → Prop)
    (nearer : ∀ i s n, P i s → near n s → goal (step i s) ∨ ∃ m < n, near m (step i s))
    (stays : ∀ i s, P i s → goal s → goal (step i s)) (start : near n s) (enough : n < w.length) :
    goal (run step s w) := by
  induction w generalizing s n with
  | nil => exact absurd enough (Nat.not_lt_zero n)
  | cons i w ih =>
    rw [List.length_cons] at enough
    rcases nearer i s n along.1 start with here | ⟨m, less, closer⟩
    · exact along.2.kept stays here
    · exact ih along.2 closer (by omega)

end Along

structure Buffer (ι σ β : Type*) where
  step : ι → σ → σ
  put : ι → σ → List β
  take : ι → σ → List β
  held : σ → List β

namespace Buffer

variable {ι σ β : Type*} (h : Buffer ι σ β) {i : ι} {s : σ} {w v : List ι}

/-- What is put is held until it is taken. -/
def Conserves (i : ι) (s : σ) : Prop := h.held s ++ h.put i s = h.take i s ++ h.held (h.step i s)

/-- What is put takes the place of what is held, or does not find one. -/
def Drops (i : ι) (s : σ) : Prop :=
  h.take i s ++ h.held (h.step i s) <+ h.held s ++ h.put i s ∧
    (h.take i s ++ h.held (h.step i s)).length < (h.held s ++ h.put i s).length

/-- The buffer has a flag that is set when something is lost. -/
def Keeps (overrun : σ → Bool) (i : ι) (s : σ) : Prop := overrun (h.step i s) = overrun s ∧ h.Conserves i s

def Loses (overrun : σ → Bool) (i : ι) (s : σ) : Prop := overrun (h.step i s) = true ∧ h.Drops i s

def puts (s : σ) (w : List ι) : List β := trace h.put (fun i s => some (h.step i s)) s w

def takes (s : σ) (w : List ι) : List β := trace h.take (fun i s => some (h.step i s)) s w

theorem puts_concat : h.puts s (w ++ [i]) = h.puts s w ++ h.put i (run h.step s w) :=
  trace_concat (run?_pure h.step s w) i

theorem takes_concat : h.takes s (w ++ [i]) = h.takes s w ++ h.take i (run h.step s w) :=
  trace_concat (run?_pure h.step s w) i

theorem puts_append : h.puts s (w ++ v) = h.puts s w ++ h.puts (run h.step s w) v :=
  trace_append (run?_pure h.step s w) v

theorem takes_append : h.takes s (w ++ v) = h.takes s w ++ h.takes (run h.step s w) v :=
  trace_append (run?_pure h.step s w) v

variable {h}

/-- What is taken and what is held is what was put, in its order, but for what was lost. -/
theorem takes_sublist (along : Along h.step (fun i s => h.Conserves i s ∨ h.Drops i s) s w) :
    h.takes s w ++ h.held (run h.step s w) <+ h.held s ++ h.puts s w := by
  induction w using List.reverseRecOn with
  | nil => simp [takes, puts]
  | append_singleton w i ih =>
    obtain ⟨before, last⟩ := along_concat.mp along
    have parts : h.takes s w ++ (h.held (run h.step s w) ++ h.put i (run h.step s w)) <+
        h.held s ++ h.puts s w ++ h.put i (run h.step s w) := by
      rw [← List.append_assoc]
      exact (ih before).append (List.Sublist.refl _)
    rw [takes_concat, puts_concat, run_append, run_cons, run_nil, List.append_assoc, ← List.append_assoc (h.held s)]
    rcases last with kept | ⟨part, _⟩
    · rwa [← kept]
    · exact ((List.Sublist.refl _).append part).trans parts

/-- The flag tells whether anything was lost. -/
theorem account {overrun : σ → Bool} (clear : overrun s = false)
    (along : Along h.step (fun i s => h.Keeps overrun i s ∨ h.Loses overrun i s) s w) :
    (overrun (run h.step s w) = false →
        h.takes s w ++ h.held (run h.step s w) = h.held s ++ h.puts s w) ∧
      (overrun (run h.step s w) = true →
        (h.takes s w ++ h.held (run h.step s w)).length < (h.held s ++ h.puts s w).length) := by
  induction w using List.reverseRecOn with
  | nil => simp [takes, puts, clear]
  | append_singleton w i ih =>
    obtain ⟨before, last⟩ := along_concat.mp along
    obtain ⟨equal, less⟩ := ih before
    have sub := takes_sublist (before.mono fun i _ s here => here.imp And.right And.right)
    rw [takes_concat, puts_concat, run_append, run_cons, run_nil, List.append_assoc, ← List.append_assoc (h.held s)]
    rcases last with ⟨flag, kept⟩ | ⟨flag, _, shorter⟩
    · rw [Conserves] at kept
      rw [← kept, flag, ← List.append_assoc]
      refine ⟨fun none => by rw [equal none], fun some => ?_⟩
      have fewer := less some
      simp only [List.length_append] at fewer ⊢
      omega
    · refine ⟨fun none => absurd (flag.symm.trans none) nofun, fun _ => ?_⟩
      have bound := sub.length_le
      simp only [List.length_append] at bound shorter ⊢
      omega

theorem account_iff {overrun : σ → Bool} (clear : overrun s = false)
    (along : Along h.step (fun i s => h.Keeps overrun i s ∨ h.Loses overrun i s) s w) :
    h.takes s w ++ h.held (run h.step s w) = h.held s ++ h.puts s w ↔ overrun (run h.step s w) = false := by
  obtain ⟨equal, less⟩ := account clear along
  refine ⟨fun same => ?_, equal⟩
  by_contra flag
  have shorter := less (Bool.not_eq_false _ ▸ flag)
  rw [same] at shorter
  exact absurd shorter (Nat.lt_irrefl _)

theorem conserved (along : Along h.step h.Conserves s w) :
    h.takes s w ++ h.held (run h.step s w) = h.held s ++ h.puts s w := by
  induction w using List.reverseRecOn with
  | nil => simp [takes, puts]
  | append_singleton w i ih =>
    obtain ⟨before, kept⟩ := along_concat.mp along
    rw [takes_concat, puts_concat, run_append, run_cons, run_nil, List.append_assoc, ← kept, ← List.append_assoc,
      ih before, List.append_assoc]

/-- Nothing is lost in a run if and only if nothing is lost in any of its steps. -/
theorem conserved_iff (along : Along h.step (fun i s => h.Conserves i s ∨ h.Drops i s) s w) :
    h.takes s w ++ h.held (run h.step s w) = h.held s ++ h.puts s w ↔ Along h.step h.Conserves s w := by
  refine ⟨fun equal => ?_, conserved⟩
  induction w using List.reverseRecOn with
  | nil => exact trivial
  | append_singleton w i ih =>
    obtain ⟨before, last⟩ := along_concat.mp along
    have sub := takes_sublist before
    have whole := congrArg List.length equal
    rw [takes_concat, puts_concat, run_append, run_cons, run_nil] at equal whole
    rcases last with kept | ⟨_, shorter⟩
    · refine along_concat.mpr ⟨ih before ?_, kept⟩
      rw [List.append_assoc, ← kept, ← List.append_assoc, ← List.append_assoc] at equal
      exact List.append_cancel_right equal
    · have bound := sub.length_le
      simp only [List.length_append] at bound shorter whole
      omega

end Buffer

end Dspc
