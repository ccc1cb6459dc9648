import Dspc.Serial.Timing

namespace Dspc.Serial
open Vhdl

/-! How far the bits of a sender may be from those of the receiver: a byte of zeros is low
for nine bits, and nothing is low for longer. -/

def zeros : List Bool := List.replicate 8 false

variable {d h P : Nat} {r : Receiver}

theorem cells_uniform (P k : Nat) (bits : List Bool) : cells (· * P) k bits = bits.map fun b => (P, b) := by
  induction bits generalizing k with
  | nil => rfl
  | cons b bits ih =>
    have one : (k + 1) * P - k * P = P := by rw [Nat.succ_mul, Nat.add_sub_cancel_left]
    rw [cells, ih, one, List.map_cons]

theorem wave_zeros (P : Nat) : frameWave (· * P) zeros = List.replicate (9 * P) false ++ List.replicate P true := by
  have bits : framed zeros = List.replicate 9 false ++ [true] := rfl
  rw [frameWave, cells_uniform, wave, List.flatMap_map, bits, List.flatMap_append, List.flatMap_singleton,
    List.flatMap_replicate, List.flatten_replicate_replicate]

/-- The state after `n` low cycles, of which the first was an edge. -/
structure Low (d h n : Nat) (r : Receiver) : Prop where
  prev : r.prev = false
  samples : ∃ k ≤ 8, r.phase = .collect (List.replicate k false) ∧ n + r.wait = h + 2 + k * (d + 1)

theorem Low.next {n : Nat} (low : Low d h n r) (short : n < h + 2 + 8 * (d + 1)) :
    Low d h (n + 1) (r.next d h false) ∧ hears false r = [] := by
  obtain ⟨prev, k, few, collecting, sum⟩ := low
  by_cases now : r.wait = 0
  · have less : k * (d + 1) < 8 * (d + 1) := by omega
    have fewer := Nat.lt_of_mul_lt_mul_right less
    have kept : keep (List.replicate k false) false = List.replicate (k + 1) false := by
      rw [keep_low _ fun _ => rfl, List.replicate_succ']
    obtain ⟨step, told⟩ := next_sample (d := d) (h := h) collecting prev.symm now
    rw [kept, List.length_replicate, if_neg (by omega)] at told
    rw [collected, kept, List.length_replicate, if_neg (by omega)] at step
    rw [step]
    refine ⟨⟨rfl, k + 1, fewer, rfl, ?_⟩, told⟩
    dsimp only
    rw [Nat.succ_mul]
    omega
  · obtain ⟨step, silent⟩ := next_still (d := d) (h := h) collecting prev.symm (Nat.pos_of_ne_zero now)
    rw [step]
    refine ⟨⟨prev, k, few, collecting, ?_⟩, silent⟩
    dsimp only
    omega

theorem listen_low {n : Nat} (low : Low d h n r) {m : Nat} (short : n + m ≤ h + 2 + 8 * (d + 1)) :
    Low d h (n + m) (listen d h r (List.replicate m false)) ∧ heard d h r (List.replicate m false) = [] := by
  induction m generalizing n r with
  | zero => exact ⟨low, rfl⟩
  | succ m ih =>
    obtain ⟨next, silent⟩ := low.next (by omega)
    obtain ⟨after, nothing⟩ := ih next (by omega)
    rw [List.replicate_succ, listen_cons, heard_cons, silent, nothing]
    rw [show n + (m + 1) = n + 1 + m by omega]
    exact ⟨after, rfl⟩

/-- What is collected on a high line has no low bit from the ninth on. -/
def Late (r : Receiver) : Prop := ∀ bits, r.phase = .collect bits → bits.length < 10 ∧ ∀ b ∈ bits.drop 8, b = true

theorem late_keep {bits : List Bool} (late : ∀ b ∈ bits.drop 8, b = true) :
    ∀ b ∈ (keep bits true).drop 8, b = true := by
  unfold keep
  split
  · exact nofun
  · intro b member
    rw [List.drop_append] at member
    rcases List.mem_append.mp member with old | new
    · exact late b old
    · exact List.mem_singleton.mp (List.mem_of_mem_drop new)

theorem length_keep (bits : List Bool) (x : Bool) : (keep bits x).length ≤ bits.length + 1 := by
  unfold keep
  split <;> simp

theorem Late.next (late : Late r) : Late (r.next d h true) ∧ ∀ data ∈ hears true r, data[8]? = some true := by
  cases here : r.phase with
  | idle => exact ⟨fun bits => by simp [Receiver.next, here], by simp [hears, here]⟩
  | start =>
    refine ⟨fun bits collecting => ?_, by simp [hears, here]⟩
    simp only [Receiver.next, here, Phase.collect.injEq] at collecting
    subst collecting
    exact ⟨by decide, by simp⟩
  | collect bits =>
    obtain ⟨short, high⟩ := late bits here
    have longer := length_keep bits true
    have kept := late_keep high
    constructor
    · intro more collecting
      simp only [Receiver.next, here, collected] at collecting
      split_ifs at collecting with now full
      · cases collecting
        exact ⟨by omega, kept⟩
      · cases collecting
        exact ⟨short, high⟩
    · intro c member
      simp only [hears, here] at member
      split_ifs at member with full
      · rw [List.mem_singleton.mp member]
        have nine : (keep bits true)[8] = true :=
          kept _ (List.mem_drop_iff_getElem.mpr ⟨0, by omega, rfl⟩)
        rw [List.getElem?_eq_getElem (by omega), nine]
      · cases member

theorem heard_late (late : Late r) (m : Nat) : ∀ data ∈ heard d h r (List.replicate m true), data[8]? = some true := by
  induction m generalizing r with
  | zero => exact nofun
  | succ m ih =>
    obtain ⟨next, now⟩ := late.next (d := d) (h := h)
    intro c member
    rw [List.replicate_succ, heard_cons] at member
    rcases List.mem_append.mp member with here | later
    · exact now c here
    · exact ih next c later

theorem heard_fast (idle : r.phase = .idle) (high : r.prev = true) (fast : 9 * P ≤ h + 2 + 8 * (d + 1)) :
    heard d h r (frameWave (· * P) zeros) ≠ [framed zeros] := by
  intro told
  rw [wave_zeros] at told
  rcases Nat.eq_zero_or_pos P with rfl | positive
  · exact nomatch told
  · obtain ⟨started, silent, _⟩ := listen_start (d := d) (h := h) idle high
    have begun : Low d h 2 (listen d h r [false, false]) := by
      rw [started]
      exact ⟨rfl, 0, by decide, rfl, by dsimp only; omega⟩
    obtain ⟨⟨_, k, few, collecting, _⟩, nothing⟩ := listen_low begun (m := 9 * P - 2) (by omega)
    have cut : List.replicate (9 * P) false = [false, false] ++ List.replicate (9 * P - 2) false := by
      obtain ⟨m, total⟩ := Nat.exists_eq_add_of_le' (show 2 ≤ 9 * P by omega)
      rw [total]
      rfl
    rw [cut, heard_append, heard_append, silent, nothing, List.nil_append, List.nil_append, listen_append] at told
    have late : Late (listen d h (listen d h r [false, false]) (List.replicate (9 * P - 2) false)) := by
      intro bits here
      rw [collecting] at here
      cases here
      rw [List.length_replicate, List.drop_of_length_le (by rw [List.length_replicate]; exact few)]
      exact ⟨by omega, by simp⟩
    have ninth := heard_late (d := d) (h := h) late P (framed zeros) (told ▸ List.mem_singleton_self _)
    exact absurd ninth (by decide)

/-- A level that lasts for bits of the receiver is sampled once in each of them. -/
theorem fits_level {p : Bool} {w m n : Nat} (inside : w < d + 1) (last : w < n) :
    Fits d h p w (List.replicate m (d + 1, p) ++ [(n, p)]) := by
  induction m with
  | zero => simp [Fits, last]
  | succ m ih =>
    rw [List.replicate_succ, List.cons_append, Fits, if_pos rfl, Nat.add_sub_cancel]
    exact ⟨fun edge => absurd rfl edge, inside, fun _ => by omega, ih⟩

theorem wave_level (p : Bool) (k m n : Nat) :
    wave ((k, p) :: (List.replicate m (d + 1, p) ++ [(n, p)])) = List.replicate (k + m * (d + 1) + n) p := by
  rw [wave_cons, wave, List.flatMap_append, List.flatMap_singleton, List.flatMap_replicate,
    List.flatten_replicate_replicate, List.replicate_append_replicate, List.replicate_append_replicate, Nat.add_assoc]

theorem heard_slow (idle : r.phase = .idle) (high : r.prev = true) (half : h + 2 ≤ d)
    (slow : h + 2 + 9 * (d + 1) < 9 * P) : heard d h r (frameWave (· * P) zeros) ≠ [framed zeros] := by
  intro told
  obtain ⟨m, total⟩ := Nat.exists_eq_add_of_le (show d - 1 + 2 + 8 * (d + 1) + (h + 3) ≤ 9 * P by omega)
  have fits : Fits d h true 1 ((d - 1 + 2, false) :: (List.replicate 8 (d + 1, false) ++ [(h + 3, false)])) := by
    have whole : h + 2 + (d + 1) - (d - 1 + 2) = h + 2 := by omega
    simp only [Fits, Bool.false_eq_true, if_false, whole]
    exact ⟨fun _ => Nat.one_pos, by omega, fun _ => by omega, fits_level (by omega) (by omega)⟩
  obtain ⟨_, ten, _⟩ := listen_frame (d := d) (h := h) idle high (d - 1) fits rfl
  rw [wave_level] at ten
  rw [wave_zeros, total, ← List.replicate_append_replicate, List.append_assoc, heard_append, ten] at told
  exact absurd (List.cons.inj told).1 (by simp [framed, zeros])

end Dspc.Serial
