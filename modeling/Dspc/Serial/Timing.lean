import Mathlib.Tactic.IntervalCases
import Dspc.Serial.Receiver

namespace Dspc.Serial
open Vhdl

/-- The bits of a character on a line where bit `k` lasts from cycle `B k` to cycle `B (k + 1)`. -/
def cells (B : Nat → Nat) (k : Nat) : List Bool → List (Nat × Bool)
  | [] => []
  | b :: bits => (B (k + 1) - B k, b) :: cells B (k + 1) bits

/-- The sampling points that follow an edge at the beginning of bit `i` hit the bits up to
`j` one by one. The start bit and the stop bit differ, so no level lasts for ten bits. -/
def Tolerates (d h : Nat) (B : Nat → Nat) : Prop :=
  ∀ i j, i < j → j ≤ 10 → (i = 0 → j < 10) →
    B i + (h + 2) + (j - i - 1) * (d + 1) < B j ∧ (j < 10 → B j < B i + (h + 2) + (j - i) * (d + 1))

/-- A character on the line, between a start bit and a stop bit. -/
def framed (data : List Bool) : List Bool := false :: (data ++ [true])

def frameWave (B : Nat → Nat) (data : List Bool) : List Bool := wave (cells B 0 (framed data))

/-- Characters, each after a pause. -/
def stream (B : Nat → Nat) (chars : List (Nat × List Bool)) : List Bool :=
  chars.flatMap fun c => List.replicate c.1 true ++ frameWave B c.2

variable {d h : Nat} {B : Nat → Nat} {data : List Bool} {r : Receiver}

theorem map_snd_cells (k : Nat) (bits : List Bool) : (cells B k bits).map Prod.snd = bits := by
  induction bits generalizing k with
  | nil => rfl
  | cons b bits ih => rw [cells, List.map_cons, ih]

theorem length_cells (k : Nat) (bits : List Bool) : (cells B k bits).length = bits.length := by
  rw [← List.length_map Prod.snd, map_snd_cells]

section Tolerant

variable (tolerates : Tolerates d h B)
include tolerates

/-- The last edge of the line was at the beginning of bit `i`, and the samples since then
are one whole bit apart. -/
theorem fits_cells {i k w : Nat} {p : Bool} {bits : List Bool} (before : i < k) (length : k + bits.length = 10)
    (phase : w + B k = B i + (h + 2) + (k - i) * (d + 1)) (clear : 0 < w) (low : i = 0 → p = false)
    (stop : ∀ b ∈ bits.getLast?, b = true) : Fits d h p w (cells B k bits) := by
  induction bits generalizing i k w p with
  | nil => trivial
  | cons b bits ih =>
    rw [List.length_cons] at length
    have empty : cells B (k + 1) bits ≠ [] → bits ≠ [] := by
      rintro some rfl
      exact some rfl
    have stops : bits ≠ [] → ∀ b ∈ bits.getLast?, b = true := fun more b last =>
      stop b (by rwa [List.getLast?_cons_of_ne_nil more])
    have inside : bits ≠ [] → k + 1 < 10 := fun more => by
      have := List.length_pos_of_ne_nil more
      omega
    have cell := tolerates k (k + 1) (by omega) (by omega) (by omega)
    have one : k + 1 - k - 1 = 0 ∧ k + 1 - k = 1 := by omega
    rw [one.1, one.2, Nat.zero_mul, Nat.one_mul] at cell
    by_cases same : b = p
    · have whole : i = 0 → k + 1 < 10 := by
        intro first
        apply inside
        rintro rfl
        have high := stop b rfl
        rw [same, low first] at high
        exact nomatch high
      have run := tolerates i (k + 1) (by omega) (by omega) whole
      have ticks : (k + 1 - i) * (d + 1) = (k - i) * (d + 1) + (d + 1) := by
        rw [show k + 1 - i = k - i + 1 by omega, Nat.succ_mul]
      rw [ticks, show k + 1 - i - 1 = k - i by omega] at run
      simp only [cells, Fits, if_pos same]
      refine ⟨fun edge => absurd same edge, by omega, fun some => ?_, ?_⟩
      · have upper := run.2 (inside (empty some))
        omega
      · rcases eq_or_ne bits [] with rfl | more
        · trivial
        · have upper := run.2 (inside more)
          exact ih (i := i) (by omega) (by omega) (by omega) (by omega) (fun first => by rw [same, low first])
            (stops more)
    · simp only [cells, Fits, if_neg same]
      refine ⟨fun _ => clear, by omega, fun some => ?_, ?_⟩
      · have upper := cell.2 (inside (empty some))
        omega
      · rcases eq_or_ne bits [] with rfl | more
        · trivial
        · have upper := cell.2 (inside more)
          have one : (k + 1 - k) * (d + 1) = d + 1 := by rw [show k + 1 - k = 1 by omega, Nat.one_mul]
          exact ih (i := k) (by omega) (by omega) (by omega) (by omega) (by omega) (stops more)

/-- Whatever its eight bits are, a character is heard as it is. -/
theorem listen_frameWave (idle : r.phase = .idle) (high : r.prev = true) (size : data.length = 8) :
    (listen d h r (frameWave B data)).phase = .idle ∧ heard d h r (frameWave B data) = [framed data] ∧
      (listen d h r (frameWave B data)).prev = true := by
  obtain ⟨sampled, once⟩ := tolerates 0 1 (by decide) (by decide) (by decide)
  have upper := once (by decide)
  simp only [Nat.sub_self, Nat.sub_zero, Nat.zero_mul, Nat.one_mul] at sampled upper
  have length : (data ++ [true]).length = 9 := by rw [List.length_append, size, List.length_singleton]
  have rest : Fits d h false (h + 2 + (d + 1) - (B 1 - B 0)) (cells B 1 (data ++ [true])) :=
    fits_cells tolerates (i := 0) (by decide) (by omega) (by omega) (by omega) (fun _ => rfl) (by simp)
  have fits : Fits d h true 1 ((B 1 - B 0 - 2 + 2, false) :: cells B 1 (data ++ [true])) := by
    rw [Nat.sub_add_cancel (by omega)]
    simp only [Fits, Bool.false_eq_true, if_false]
    exact ⟨fun _ => by decide, by omega, fun _ => by omega, rest⟩
  have shape : frameWave B data = wave ((B 1 - B 0 - 2 + 2, false) :: cells B 1 (data ++ [true])) := by
    rw [Nat.sub_add_cancel (by omega)]
    rfl
  obtain ⟨phase, told, prev⟩ := listen_frame idle high _ fits (by rw [length_cells, length])
  rw [← shape] at phase told prev
  rw [map_snd_cells] at told
  refine ⟨phase, told, ?_⟩
  have final : (cells B 1 (data ++ [true])).getLast?.map Prod.snd = some true := by
    rw [← List.getLast?_map, map_snd_cells, List.getLast?_concat]
  obtain ⟨c, last, level⟩ := Option.map_eq_some_iff.mp final
  rw [prev c last, level]

omit tolerates in
theorem listen_rest (idle : r.phase = .idle) (high : r.prev = true) (g : Nat) :
    (listen d h r (List.replicate g true)).phase = .idle ∧ heard d h r (List.replicate g true) = [] ∧
      (listen d h r (List.replicate g true)).prev = true := by
  obtain ⟨phase, nothing, prev⟩ := listen_idle (d := d) (h := h) idle (.inl rfl) g
  refine ⟨phase, nothing, ?_⟩
  rcases Nat.eq_zero_or_pos g with rfl | positive
  · exact high
  · exact prev positive

/-- Characters with any pauses between them. -/
theorem listen_stream {chars : List (Nat × List Bool)} (idle : r.phase = .idle) (high : r.prev = true)
    (size : ∀ c ∈ chars, c.2.length = 8) :
    (listen d h r (stream B chars)).phase = .idle ∧
      heard d h r (stream B chars) = (chars.map Prod.snd).map framed ∧
      (listen d h r (stream B chars)).prev = true := by
  induction chars generalizing r with
  | nil => exact ⟨idle, rfl, high⟩
  | cons c chars ih =>
    obtain ⟨phase, nothing, prev⟩ := listen_rest (d := d) (h := h) idle high c.1
    obtain ⟨again, told, back⟩ := listen_frameWave tolerates phase prev (size c List.mem_cons_self)
    obtain ⟨last, later, final⟩ := ih again back fun c member => size c (List.mem_cons_of_mem _ member)
    rw [stream, List.flatMap_cons, ← stream, List.append_assoc, listen_append, listen_append, heard_append,
      heard_append, nothing, told, later]
    exact ⟨last, rfl, final⟩

end Tolerant

/-- Bits of `P` cycles each are received by a receiver with bits of `d + 1` cycles as long
as nine of them end between its ninth and its tenth sampling point. -/
theorem tolerates_uniform {P : Nat} (half : h + 2 ≤ d) (slow : 8 * (d + 1) + (h + 2) < 9 * P)
    (fast : 9 * P < 9 * (d + 1) + (h + 2)) : Tolerates d h (fun k => k * P) := by
  intro i j before last whole
  obtain ⟨n, rfl⟩ := Nat.exists_eq_add_of_lt before
  have run : n < 9 := by omega
  dsimp only
  rw [show i + n + 1 - i = n + 1 by omega, Nat.add_sub_cancel, Nat.add_assoc i n 1, Nat.add_mul]
  clear before last whole
  interval_cases n <;> omega

end Dspc.Serial
