import Mathlib.Data.List.Basic
import Mathlib.Tactic.Common
import Dspc.Vhdl.Trace

namespace Dspc.Serial
open Vhdl

/-! A receiver of characters of ten bits on a line that is high at rest. A counter is set
to half a bit at every edge of the line and to a whole bit when it runs out. -/

inductive Phase
  | idle
  | start
  | collect (bits : List Bool)

structure Receiver where
  prev : Bool
  /-- The cycles until the counter has run out, if there is no edge before. -/
  wait : Nat
  phase : Phase

/-- The samples so far. They begin with the first low one. -/
def keep (bits : List Bool) (x : Bool) : List Bool := if bits = [] ∧ x = true then [] else bits ++ [x]

def collected (bits : List Bool) (x : Bool) : Phase :=
  if (keep bits x).length = 10 then .idle else .collect (keep bits x)

variable (d h : Nat)

def Receiver.next (x : Bool) (r : Receiver) : Receiver where
  prev := x
  wait := if x ≠ r.prev then h + 1 else if r.wait = 0 then d else r.wait - 1
  phase := match r.phase with
    | .idle => if r.prev = true ∧ x = false then .start else .idle
    | .start => .collect []
    | .collect bits => if r.wait = 0 then collected bits x else .collect bits

/-- The character that a cycle completes, start and stop bit included. -/
def hears (x : Bool) (r : Receiver) : List (List Bool) :=
  match r.phase with
  | .collect bits => if r.wait = 0 ∧ (keep bits x).length = 10 then [keep bits x] else []
  | _ => []

def listen (r : Receiver) (w : List Bool) : Receiver := run (Receiver.next d h) r w

def heard (r : Receiver) (w : List Bool) : List (List Bool) :=
  trace hears (fun x r => some (r.next d h x)) r w

/-- The line over a list of bits, each with the number of cycles it lasts. -/
def wave (cells : List (Nat × Bool)) : List Bool := cells.flatMap fun c => List.replicate c.1 c.2

/-- Every one of the bits is sampled, and sampled once, when the line was at `p` before and
the counter runs out after `w` cycles. -/
def Fits : Bool → Nat → List (Nat × Bool) → Prop
  | _, _, [] => True
  | p, w, (n, b) :: cells =>
    (b ≠ p → 0 < w) ∧ (if b = p then w else h + 2) < n ∧
      (cells ≠ [] → n ≤ (if b = p then w else h + 2) + (d + 1)) ∧
      Fits b ((if b = p then w else h + 2) + (d + 1) - n) cells

variable {d h} {r : Receiver} {u v : List Bool} {bits : List Bool} {b : Bool} {n : Nat}

@[simp] theorem listen_nil : listen d h r [] = r := rfl

@[simp] theorem listen_cons : listen d h r (b :: u) = listen d h (r.next d h b) u := rfl

theorem listen_append : listen d h r (u ++ v) = listen d h (listen d h r u) v := run_append r u v

@[simp] theorem heard_nil : heard d h r [] = [] := rfl

@[simp] theorem heard_cons : heard d h r (b :: u) = hears b r ++ heard d h (r.next d h b) u := trace_cons rfl u

theorem heard_append : heard d h r (u ++ v) = heard d h r u ++ heard d h (listen d h r u) v :=
  trace_append (run?_pure _ r u) v

theorem heard_take (m : Nat) : heard d h r (u.take m) <+: heard d h r u := by
  conv => rhs; rw [← List.take_append_drop m u, heard_append]
  exact List.prefix_append _ _

@[simp] theorem wave_nil : wave [] = [] := rfl

theorem wave_cons (cells : List (Nat × Bool)) : wave ((n, b) :: cells) = List.replicate n b ++ wave cells := rfl

section Idle

variable (idle : r.phase = .idle)
include idle

/-- Nothing is heard on a line that does not fall. -/
theorem listen_idle (steady : b = true ∨ r.prev = false) (m : Nat) :
    (listen d h r (List.replicate m b)).phase = .idle ∧ heard d h r (List.replicate m b) = [] ∧
      (0 < m → (listen d h r (List.replicate m b)).prev = b) := by
  induction m generalizing r with
  | zero => exact ⟨idle, rfl, fun positive => absurd positive (by decide)⟩
  | succ m ih =>
    have stays : (r.next d h b).phase = .idle := by
      simp only [Receiver.next, idle]
      rcases steady with rfl | low
      · simp
      · simp [low]
    have silent : hears b r = [] := by simp only [hears, idle]
    have still : b = true ∨ (r.next d h b).prev = false := by
      cases b
      · exact .inr rfl
      · exact .inl rfl
    obtain ⟨phase, nothing, prev⟩ := ih stays still
    rw [List.replicate_succ, listen_cons, heard_cons, silent, List.nil_append]
    refine ⟨phase, nothing, fun _ => ?_⟩
    rcases Nat.eq_zero_or_pos m with rfl | positive
    · rfl
    · exact prev positive

end Idle

section Collect

variable (collecting : r.phase = .collect bits)
include collecting

theorem next_still (same : b = r.prev) (early : 0 < r.wait) :
    r.next d h b = { r with wait := r.wait - 1 } ∧ hears b r = [] := by
  have late : r.wait ≠ 0 := by omega
  simp [Receiver.next, hears, collecting, same, late]

theorem next_edge (edge : b ≠ r.prev) (early : 0 < r.wait) :
    r.next d h b = { prev := b, wait := h + 1, phase := .collect bits } ∧ hears b r = [] := by
  have late : r.wait ≠ 0 := by omega
  simp [Receiver.next, hears, collecting, edge, late]

theorem next_sample (same : b = r.prev) (now : r.wait = 0) :
    r.next d h b = { prev := b, wait := d, phase := collected bits b } ∧
      hears b r = if (keep bits b).length = 10 then [keep bits b] else [] := by
  simp [Receiver.next, hears, collecting, same, now]

theorem listen_still (same : b = r.prev) {m : Nat} (early : m ≤ r.wait) :
    listen d h r (List.replicate m b) = { r with wait := r.wait - m } ∧ heard d h r (List.replicate m b) = [] := by
  induction m generalizing r with
  | zero => exact ⟨rfl, rfl⟩
  | succ m ih =>
    obtain ⟨step, silent⟩ := next_still (d := d) (h := h) collecting same (by omega)
    rw [List.replicate_succ, listen_cons, heard_cons, step, silent, List.nil_append]
    obtain ⟨state, nothing⟩ := ih (r := { r with wait := r.wait - 1 }) collecting same (by dsimp only; omega)
    rw [state, nothing]
    refine ⟨?_, rfl⟩
    dsimp only
    rw [Nat.sub_sub, Nat.add_comm]

theorem listen_same (same : b = r.prev) :
    listen d h r (List.replicate (r.wait + 1) b) = { prev := b, wait := d, phase := collected bits b } ∧
      heard d h r (List.replicate (r.wait + 1) b) = if (keep bits b).length = 10 then [keep bits b] else [] := by
  obtain ⟨state, nothing⟩ := listen_still (d := d) (h := h) collecting same (Nat.le_refl _)
  obtain ⟨step, sample⟩ := next_sample (d := d) (h := h) (r := { r with wait := r.wait - r.wait }) collecting same
    (Nat.sub_self r.wait)
  rw [List.replicate_succ', listen_append, heard_append, state, nothing, listen_cons, heard_cons, step, sample]
  simp

/-- The sample of a bit. After an edge it is taken in the cycle `h + 2` of the bit. -/
theorem listen_sample (clear : b ≠ r.prev → 0 < r.wait) :
    listen d h r (List.replicate ((if b = r.prev then r.wait else h + 2) + 1) b) =
        { prev := b, wait := d, phase := collected bits b } ∧
      heard d h r (List.replicate ((if b = r.prev then r.wait else h + 2) + 1) b) =
        if (keep bits b).length = 10 then [keep bits b] else [] := by
  split
  · rename_i same
    exact listen_same collecting same
  · rename_i edge
    obtain ⟨step, silent⟩ := next_edge (d := d) (h := h) collecting edge (clear edge)
    obtain ⟨state, sample⟩ := listen_same (d := d) (h := h)
      (r := { prev := b, wait := h + 1, phase := .collect bits }) rfl rfl
    rw [List.replicate_succ, listen_cons, heard_cons, step, silent, List.nil_append]
    exact ⟨state, sample⟩

theorem listen_cell (clear : b ≠ r.prev → 0 < r.wait) (sampled : (if b = r.prev then r.wait else h + 2) < n)
    (once : n ≤ (if b = r.prev then r.wait else h + 2) + (d + 1)) (more : (keep bits b).length ≠ 10) :
    listen d h r (List.replicate n b) =
        { prev := b, wait := (if b = r.prev then r.wait else h + 2) + (d + 1) - n, phase := .collect (keep bits b) } ∧
      heard d h r (List.replicate n b) = [] := by
  obtain ⟨state, sample⟩ := listen_sample (d := d) (h := h) collecting clear
  generalize (if b = r.prev then r.wait else h + 2) = o at *
  obtain ⟨m, rfl⟩ : ∃ m, n = o + 1 + m := ⟨n - (o + 1), by omega⟩
  obtain ⟨rest, nothing⟩ := listen_still (d := d) (h := h) (b := b) (m := m)
    (r := { prev := b, wait := d, phase := .collect (keep bits b) }) rfl rfl (by dsimp only; omega)
  rw [collected, if_neg more] at state
  rw [if_neg more] at sample
  rw [List.replicate_add, listen_append, heard_append, state, sample, rest, nothing]
  refine ⟨?_, rfl⟩
  dsimp only
  congr 1
  omega

theorem listen_last (clear : b ≠ r.prev → 0 < r.wait) (sampled : (if b = r.prev then r.wait else h + 2) < n)
    (full : (keep bits b).length = 10) :
    (listen d h r (List.replicate n b)).phase = .idle ∧ (listen d h r (List.replicate n b)).prev = b ∧
      heard d h r (List.replicate n b) = [keep bits b] := by
  obtain ⟨state, sample⟩ := listen_sample (d := d) (h := h) collecting clear
  generalize (if b = r.prev then r.wait else h + 2) = o at *
  obtain ⟨m, rfl⟩ : ∃ m, n = o + 1 + m := ⟨n - (o + 1), by omega⟩
  have quiet : b = true ∨ b = false := by cases b <;> simp
  obtain ⟨phase, nothing, prev⟩ := listen_idle (d := d) (h := h) (b := b)
    (r := { prev := b, wait := d, phase := .idle }) rfl quiet m
  rw [collected, if_pos full] at state
  rw [if_pos full] at sample
  rw [List.replicate_add, listen_append, heard_append, state, sample, nothing]
  refine ⟨phase, ?_, rfl⟩
  rcases Nat.eq_zero_or_pos m with rfl | positive
  · rfl
  · exact prev positive

end Collect

theorem keep_low (b : Bool) (low : bits = [] → b = false) : keep bits b = bits ++ [b] := by
  unfold keep
  rw [if_neg]
  rintro ⟨first, high⟩
  rw [low first] at high
  exact nomatch high

theorem listen_cells {cells : List (Nat × Bool)} (collecting : r.phase = .collect bits)
    (fits : Fits d h r.prev r.wait cells) (some : cells ≠ []) (length : bits.length + cells.length = 10)
    (low : bits = [] → ∀ c ∈ cells.head?, c.2 = false) :
    (listen d h r (wave cells)).phase = .idle ∧ heard d h r (wave cells) = [bits ++ cells.map Prod.snd] ∧
      ∀ c ∈ cells.getLast?, (listen d h r (wave cells)).prev = c.2 := by
  induction cells generalizing r bits with
  | nil => exact absurd rfl some
  | cons c cells ih =>
    obtain ⟨n, b⟩ := c
    obtain ⟨clear, sampled, once, rest⟩ := fits
    have kept : keep bits b = bits ++ [b] := keep_low b fun first => low first (n, b) rfl
    have size : (keep bits b).length = bits.length + 1 := by rw [kept, List.length_append, List.length_singleton]
    rw [List.length_cons] at length
    rcases eq_or_ne cells [] with rfl | more
    · obtain ⟨phase, prev, told⟩ := listen_last (d := d) (h := h) collecting clear sampled
        (by rw [List.length_nil] at length; omega)
      rw [wave_cons, wave_nil, List.append_nil, told, kept]
      refine ⟨phase, rfl, fun c last => ?_⟩
      cases Option.some.inj last
      exact prev
    · have positive := List.length_pos_of_ne_nil more
      obtain ⟨state, nothing⟩ := listen_cell (d := d) (h := h) collecting clear sampled (once more) (by omega)
      rw [kept] at state
      have collects : (listen d h r (List.replicate n b)).phase = .collect (bits ++ [b]) := by rw [state]
      obtain ⟨phase, told, prev⟩ := ih collects (by rw [state]; exact rest) more (by simp; omega) (by simp)
      rw [wave_cons, listen_append, heard_append, nothing, told, List.map_cons]
      refine ⟨phase, by simp, fun c last => prev c ?_⟩
      rwa [List.getLast?_cons_of_ne_nil more] at last

/-- Between the falling edge and the first sample the two cycles in which the receiver
gets going make no difference. -/
theorem listen_start (idle : r.phase = .idle) (high : r.prev = true) :
    listen d h r [false, false] = { prev := false, wait := h, phase := .collect [] } ∧
      heard d h r [false, false] = [] ∧
      listen d h { prev := true, wait := 1, phase := .collect [] } [false, false] =
        { prev := false, wait := h, phase := .collect [] } ∧
      heard d h { prev := true, wait := 1, phase := .collect [] } [false, false] = [] := by
  simp [Receiver.next, hears, idle, high]

/-- A character whose bits fit is heard, and leaves the receiver ready for the next one. -/
theorem listen_frame {cells : List (Nat × Bool)} (idle : r.phase = .idle) (high : r.prev = true) (n : Nat)
    (fits : Fits d h true 1 ((n + 2, false) :: cells)) (length : cells.length = 9) :
    (listen d h r (wave ((n + 2, false) :: cells))).phase = .idle ∧
      heard d h r (wave ((n + 2, false) :: cells)) = [false :: cells.map Prod.snd] ∧
      ∀ c ∈ cells.getLast?, (listen d h r (wave ((n + 2, false) :: cells))).prev = c.2 := by
  have some : cells ≠ [] := by
    rintro rfl
    exact nomatch length
  obtain ⟨started, silent, same, nothing⟩ := listen_start (d := d) (h := h) idle high
  have cut : wave ((n + 2, false) :: cells) = [false, false] ++ (List.replicate n false ++ wave cells) := rfl
  obtain ⟨phase, told, prev⟩ := listen_cells (r := { prev := true, wait := 1, phase := .collect [] }) rfl fits
    (by simp) (by simp [length]) (by simp)
  rw [cut, listen_append, same] at phase prev
  rw [cut, heard_append, same, nothing, List.nil_append] at told
  rw [cut, listen_append, heard_append, started, silent, List.nil_append, told]
  refine ⟨phase, rfl, fun c last => prev c ?_⟩
  rwa [List.getLast?_cons_of_ne_nil some]

end Dspc.Serial
