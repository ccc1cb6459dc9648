import Dspc.Vhdl.StdLogic

namespace Dspc.Vhdl

/-- One activation of a `process(reset, clk)`: the level of reset, whether the
activation is a rising clock edge, and the other ports as sampled then. -/
structure Activation (π : Type*) where
  reset : StdLogic
  rising : Bool
  ports : π

variable {σ ι π : Type*}

/-- The template `if reset = '1' then .. elsif rising_edge(clk) then .. end if`. -/
def clocked (onReset : σ → σ) (onEdge : π → σ → σ) (a : Activation π) (s : σ) : σ :=
  if a.reset = .one then onReset s else if a.rising then onEdge a.ports s else s

/-- The same template when the clocked branch contains run-time checks. A failed
check is an error that ends the simulation, written `none`. -/
def clocked? (onReset : σ → σ) (onEdge : π → σ → Option σ) (a : Activation π) (s : σ) : Option σ :=
  if a.reset = .one then some (onReset s) else if a.rising then onEdge a.ports s else some s

def run (step : ι → σ → σ) (s : σ) (w : List ι) : σ :=
  w.foldl (fun s i => step i s) s

def run? (step : ι → σ → Option σ) (s : σ) (w : List ι) : Option σ :=
  w.foldlM (fun s i => step i s) s

def edges (w : List (Activation π)) : Nat := w.countP (·.rising)

def ResetLow (w : List (Activation π)) : Prop := ∀ a ∈ w, a.reset ≠ .one

def ClockEdge (a : Activation π) : Prop := a.reset ≠ .one ∧ a.rising = true

instance (a : Activation π) : Decidable (ClockEdge a) := inferInstanceAs (Decidable (_ ∧ _))

section Clocked

variable {onReset : σ → σ} {onEdge : π → σ → σ} {onEdge? : π → σ → Option σ} {a : Activation π} {s : σ}

theorem clocked_reset (high : a.reset = .one) : clocked onReset onEdge a s = onReset s := by
  rw [clocked, if_pos high]

theorem clocked_edge (edge : ClockEdge a) : clocked onReset onEdge a s = onEdge a.ports s := by
  rw [clocked, if_neg edge.1, if_pos edge.2]

theorem clocked_still (low : a.reset ≠ .one) (flat : a.rising = false) :
    clocked onReset onEdge a s = s := by
  rw [clocked, if_neg low, flat, if_neg Bool.false_ne_true]

theorem clocked?_reset (high : a.reset = .one) : clocked? onReset onEdge? a s = some (onReset s) := by
  rw [clocked?, if_pos high]

theorem clocked?_edge (edge : ClockEdge a) : clocked? onReset onEdge? a s = onEdge? a.ports s := by
  rw [clocked?, if_neg edge.1, if_pos edge.2]

theorem clocked?_still (low : a.reset ≠ .one) (flat : a.rising = false) :
    clocked? onReset onEdge? a s = some s := by
  rw [clocked?, if_neg low, flat, if_neg Bool.false_ne_true]

theorem clocked_cases (onReset : σ → σ) (onEdge : π → σ → σ) (a : Activation π) (s : σ) :
    (a.reset = .one ∧ clocked onReset onEdge a s = onReset s) ∨
      (ClockEdge a ∧ clocked onReset onEdge a s = onEdge a.ports s) ∨
      (a.reset ≠ .one ∧ a.rising = false ∧ clocked onReset onEdge a s = s) := by
  by_cases high : a.reset = .one
  · exact .inl ⟨high, clocked_reset high⟩
  · cases rises : a.rising with
    | true => exact .inr (.inl ⟨⟨high, rises⟩, clocked_edge ⟨high, rises⟩⟩)
    | false => exact .inr (.inr ⟨high, rfl, clocked_still high rises⟩)

theorem clocked?_cases (onReset : σ → σ) (onEdge? : π → σ → Option σ) (a : Activation π) (s : σ) :
    (a.reset = .one ∧ clocked? onReset onEdge? a s = some (onReset s)) ∨
      (ClockEdge a ∧ clocked? onReset onEdge? a s = onEdge? a.ports s) ∨
      (a.reset ≠ .one ∧ a.rising = false ∧ clocked? onReset onEdge? a s = some s) := by
  by_cases high : a.reset = .one
  · exact .inl ⟨high, clocked?_reset high⟩
  · cases rises : a.rising with
    | true => exact .inr (.inl ⟨⟨high, rises⟩, clocked?_edge ⟨high, rises⟩⟩)
    | false => exact .inr (.inr ⟨high, rfl, clocked?_still high rises⟩)

end Clocked

section Run

variable {step : ι → σ → σ} {step? : ι → σ → Option σ}

@[simp] theorem run_nil (s : σ) : run step s [] = s := rfl

@[simp] theorem run_cons (s : σ) (i : ι) (w : List ι) : run step s (i :: w) = run step (step i s) w := rfl

theorem run_append (s : σ) (u v : List ι) : run step s (u ++ v) = run step (run step s u) v :=
  List.foldl_append

@[simp] theorem run?_nil (s : σ) : run? step? s [] = some s := rfl

@[simp] theorem run?_cons (s : σ) (i : ι) (w : List ι) :
    run? step? s (i :: w) = (step? i s).bind fun s' => run? step? s' w := by
  simp only [run?, List.foldlM_cons, Option.bind_eq_bind]

theorem run?_append (s : σ) (u v : List ι) :
    run? step? s (u ++ v) = (run? step? s u).bind fun s' => run? step? s' v := by
  simp only [run?, List.foldlM_append, Option.bind_eq_bind]

theorem run?_concat {s t : σ} {w : List ι} {i : ι} :
    run? step? s (w ++ [i]) = some t ↔ ∃ mid, run? step? s w = some mid ∧ step? i mid = some t := by
  rw [run?_append, Option.bind_eq_some_iff]
  refine exists_congr fun mid => and_congr_right fun _ => ?_
  rw [run?_cons]
  cases step? i mid <;> rfl

theorem run_keeps {Inv : σ → Prop} (kept : ∀ i s, Inv s → Inv (step i s)) {s : σ} (start : Inv s)
    (w : List ι) : Inv (run step s w) := by
  induction w generalizing s with
  | nil => exact start
  | cons i w ih => exact ih (kept i s start)

/-- A run whose states satisfy the invariant never meets a run-time error, when no
step from such a state does. -/
theorem run?_total {Inv : σ → Prop} {w : List ι}
    (kept : ∀ i ∈ w, ∀ s, Inv s → ∃ s', step? i s = some s' ∧ Inv s') {s : σ} (start : Inv s) :
    ∃ s', run? step? s w = some s' ∧ Inv s' := by
  induction w generalizing s with
  | nil => exact ⟨s, rfl, start⟩
  | cons i w ih =>
    obtain ⟨next, steps, inv⟩ := kept i List.mem_cons_self s start
    obtain ⟨last, rest, final⟩ := ih (fun j member => kept j (List.mem_cons_of_mem i member)) inv
    exact ⟨last, by rw [run?_cons, steps, Option.bind_some, rest], final⟩

theorem run_related {Rel : σ → σ → Prop} (kept : ∀ i s t, Rel s t → Rel (step i s) (step i t))
    {s t : σ} (start : Rel s t) (w : List ι) : Rel (run step s w) (run step t w) := by
  induction w generalizing s t with
  | nil => exact start
  | cons i w ih => exact ih (kept i s t start)

theorem run?_related {Rel : σ → σ → Prop}
    (kept : ∀ i s t s' t', Rel s t → step? i s = some s' → step? i t = some t' → Rel s' t')
    {s t s' t' : σ} (start : Rel s t) {w : List ι} (left : run? step? s w = some s')
    (right : run? step? t w = some t') : Rel s' t' := by
  induction w generalizing s t with
  | nil =>
    cases Option.some.inj left
    cases Option.some.inj right
    exact start
  | cons i w ih =>
    rw [run?_cons] at left right
    obtain ⟨s₁, stepL, restL⟩ := Option.bind_eq_some_iff.mp left
    obtain ⟨t₁, stepR, restR⟩ := Option.bind_eq_some_iff.mp right
    exact ih (kept i s t s₁ t₁ start stepL stepR) restL restR

theorem run_filter {keep : ι → Bool} {w : List ι} (idle : ∀ i ∈ w, keep i = false → ∀ s, step i s = s)
    (s : σ) : run step s (w.filter keep) = run step s w := by
  induction w generalizing s with
  | nil => rfl
  | cons i w ih =>
    have rest := ih (fun j member => idle j (List.mem_cons_of_mem i member))
    cases kept : keep i with
    | true => rw [List.filter_cons_of_pos kept, run_cons, run_cons, rest]
    | false =>
      rw [List.filter_cons_of_neg (by simp [kept]), run_cons, idle i List.mem_cons_self kept, rest]

theorem run?_filter {keep : ι → Bool} {w : List ι}
    (idle : ∀ i ∈ w, keep i = false → ∀ s, step? i s = some s) (s : σ) :
    run? step? s (w.filter keep) = run? step? s w := by
  induction w generalizing s with
  | nil => rfl
  | cons i w ih =>
    have rest := ih (fun j member => idle j (List.mem_cons_of_mem i member))
    cases kept : keep i with
    | true => simp only [List.filter_cons_of_pos kept, run?_cons, rest]
    | false =>
      rw [List.filter_cons_of_neg (by simp [kept]), run?_cons, idle i List.mem_cons_self kept,
        Option.bind_some, rest]

end Run

section Waveform

theorem edges_eq_length_filter (w : List (Activation π)) : edges w = (w.filter (·.rising)).length :=
  List.countP_eq_length_filter

theorem ResetLow.clockEdges {w : List (Activation π)} (low : ResetLow w) :
    ∀ a ∈ w.filter (·.rising), ClockEdge a := fun a member =>
  ⟨low a (List.mem_filter.mp member).1, (List.mem_filter.mp member).2⟩

theorem edges_append (u v : List (Activation π)) : edges (u ++ v) = edges u + edges v :=
  List.countP_append

theorem exists_cut_edges {w : List (Activation π)} {n : Nat} (enough : n ≤ edges w) :
    ∃ u v, w = u ++ v ∧ edges u = n := by
  induction w generalizing n with
  | nil => exact ⟨[], [], rfl, (Nat.le_zero.mp enough).symm⟩
  | cons a w ih =>
    rcases Nat.eq_zero_or_pos n with rfl | positive
    · exact ⟨[], a :: w, rfl, rfl⟩
    · have total : edges (a :: w) = edges [a] + edges w := edges_append [a] w
      have one : edges [a] ≤ 1 := List.countP_le_length
      obtain ⟨u, v, rfl, count⟩ := ih (n := n - edges [a]) (by omega)
      refine ⟨a :: u, v, rfl, ?_⟩
      have extended : edges (a :: u) = edges [a] + edges u := edges_append [a] u
      omega

theorem ResetLow.left {u v : List (Activation π)} (low : ResetLow (u ++ v)) : ResetLow u :=
  fun a member => low a (List.mem_append_left v member)

theorem run_clocked_filter {onReset : σ → σ} {onEdge : π → σ → σ} {w : List (Activation π)}
    (low : ResetLow w) (s : σ) :
    run (clocked onReset onEdge) s (w.filter (·.rising)) = run (clocked onReset onEdge) s w :=
  run_filter (fun a member flat _ => clocked_still (low a member) flat) s

theorem run?_clocked_filter {onReset : σ → σ} {onEdge? : π → σ → Option σ} {w : List (Activation π)}
    (low : ResetLow w) (s : σ) :
    run? (clocked? onReset onEdge?) s (w.filter (·.rising)) = run? (clocked? onReset onEdge?) s w :=
  run?_filter (fun a member flat _ => clocked?_still (low a member) flat) s

end Waveform

end Dspc.Vhdl
