import Mathlib.Data.List.Induction
import Mathlib.Tactic.Ring
import Dspc.Serial.Timing

namespace Dspc.Serial.Sender
open Vhdl

/-! A sender that pauses for three cycles before each character, and puts it on the line
one cycle behind its shift register. -/

inductive Phase
  | idle
  | first
  | second
  /-- The line is at `level`, and `bit` follows until the counter runs out. -/
  | shift (level : Bool) (wait : Nat) (bit : Bool) (bits : List Bool)

/-- What a cycle brings: whether a character is pending, and the character. -/
structure Input where
  pending : Bool
  data : List Bool

variable (d : Nat)

def next (i : Input) : Phase → Phase
  | .idle => if i.pending then .first else .idle
  | .first => .second
  | .second => .shift false (d + 1) false (i.data ++ [true])
  | .shift _ 0 _ [] => .idle
  | .shift _ 0 bit (b :: bits) => .shift bit d b bits
  | .shift _ (wait + 1) bit bits => .shift bit wait bit bits

def line : Phase → Bool
  | .shift level _ _ _ => level
  | _ => true

/-- The character that a cycle takes to be sent. -/
def takes (i : Input) : Phase → List (List Bool)
  | .second => [i.data]
  | _ => []

def lines (p : Phase) (w : List Input) : List Bool :=
  trace (fun _ p => [line p]) (fun i p => some (next d i p)) p w

def taken (p : Phase) (w : List Input) : List (List Bool) :=
  trace takes (fun i p => some (next d i p)) p w

/-- The line from here on, up to the end of the stop bit. -/
def rest (level : Bool) (wait : Nat) (bit : Bool) (bits : List Bool) : List Bool :=
  level :: (List.replicate (wait + 1) bit ++ bits.flatMap (List.replicate (d + 1)))

/-- A whole character: the start bit is two cycles longer than the other bits. -/
def whole (data : List Bool) : List Bool := rest d false (d + 1) false (data ++ [true])

/-- The bits of a character and of the pause that follows it at least. -/
def bounds (k : Nat) : Nat := if k = 0 then 0 else if k < 10 then k * (d + 1) + 2 else 10 * (d + 1) + 4

variable {d} {i : Input} {p : Phase} {w v : List Input} {data : List Bool}

@[simp] theorem lines_nil : lines d p [] = [] := rfl

theorem lines_append : lines d p (w ++ v) = lines d p w ++ lines d (run (next d) p w) v :=
  trace_append (run?_pure _ p w) v

theorem lines_concat : lines d p (w ++ [i]) = lines d p w ++ [line (run (next d) p w)] :=
  trace_concat (run?_pure _ p w) i

@[simp] theorem taken_nil : taken d p [] = [] := rfl

theorem taken_concat : taken d p (w ++ [i]) = taken d p w ++ takes i (run (next d) p w) :=
  trace_concat (run?_pure _ p w) i

theorem tolerates_bounds {h : Nat} (low : 0 < h) (half : h + 2 ≤ d) : Tolerates d h (bounds d) := by
  intro i j before last whole
  obtain ⟨n, rfl⟩ := Nat.exists_eq_add_of_lt before
  rw [show i + n + 1 - i = n + 1 by omega, Nat.add_sub_cancel]
  have parts : (i + n + 1) * (d + 1) = i * (d + 1) + (n * (d + 1) + (d + 1)) := by ring
  have none : i = 0 → i * (d + 1) = 0 := by
    rintro rfl
    exact Nat.zero_mul _
  have ten : i + n + 1 = 10 → i * (d + 1) + (n * (d + 1) + (d + 1)) = 10 * (d + 1) := fun total => by
    rw [← parts, total]
  rw [Nat.succ_mul n, bounds, bounds, parts]
  generalize i * (d + 1) = a, n * (d + 1) = b at *
  split_ifs <;> first | contradiction | omega

section Shape

theorem wave_bits {k : Nat} (positive : 0 < k) (bits : List Bool) (length : k + bits.length = 9) :
    wave (cells (bounds d) k (bits ++ [true])) =
      bits.flatMap (List.replicate (d + 1)) ++ List.replicate (d + 3) true := by
  induction bits generalizing k with
  | nil =>
    rw [List.length_nil] at length
    obtain rfl : k = 9 := by omega
    have last : bounds d (9 + 1) - bounds d 9 = d + 3 := by
      simp only [bounds]
      split_ifs <;> omega
    rw [List.nil_append, cells, cells, last, wave_cons, wave_nil, List.append_nil, List.flatMap_nil, List.nil_append]
  | cons b bits ih =>
    rw [List.length_cons] at length
    have bit : bounds d (k + 1) - bounds d k = d + 1 := by
      rw [bounds, bounds, if_neg (by omega), if_pos (by omega), if_neg (by omega), if_pos (by omega), Nat.succ_mul]
      omega
    rw [List.cons_append, cells, wave_cons, bit, ih (Nat.succ_pos k) (by omega), List.flatMap_cons, List.append_assoc]

theorem frameWave_bounds (size : data.length = 8) : frameWave (bounds d) data = whole d data ++ [true, true] := by
  have first : bounds d (0 + 1) - bounds d 0 = d + 3 := by
    simp only [bounds]
    split_ifs <;> omega
  rw [frameWave, framed, cells, wave_cons, first, wave_bits Nat.one_pos data (by omega), whole, rest,
    List.flatMap_append, List.flatMap_singleton, List.replicate_succ]
  simp only [List.cons_append, List.append_assoc, List.cons.injEq, true_and]
  rw [← List.replicate_append_replicate (n := d + 1) (m := 2)]
  rfl

theorem whole_concat (d : Nat) (data : List Bool) : ∃ v, whole d data = v ++ [true] := by
  refine ⟨false :: (List.replicate (d + 2) false ++
    (data.flatMap (List.replicate (d + 1)) ++ List.replicate d true)), ?_⟩
  rw [whole, rest, List.flatMap_append, List.flatMap_singleton, List.replicate_succ' (n := d) (a := true)]
  simp only [List.cons_append, List.append_assoc]

end Shape

/-- The line that is still to come before the next character may be taken. -/
def remaining (d : Nat) : Phase → List Bool
  | .shift level wait bit bits => rest d level wait bit bits
  | _ => [true]

/-- How long the line has rested at least. -/
def pause : Phase → Nat
  | .first => 1
  | .second => 2
  | _ => 0

def Resting : Phase → Prop
  | .shift _ _ _ _ => False
  | _ => True

theorem remaining_resting (resting : Resting p) : remaining d p = [true] := by
  cases p with
  | shift => exact absurd resting id
  | _ => rfl

/-- The sender has taken the given characters, is in a phase, and has put a line out. -/
inductive Spoken (d : Nat) : List (List Bool) → Phase → List Bool → Prop
  | silent (chars : List (Nat × List Bool)) (g : Nat) {p : Phase} (resting : Resting p)
      (size : ∀ c ∈ chars, c.2.length = 8) :
      Spoken d (chars.map Prod.snd) p (stream (bounds d) chars ++ List.replicate g true)
  | speaking (chars : List (Nat × List Bool)) (g : Nat) (data : List Bool) (m : Nat) {p : Phase} {u : List Bool}
      (size : ∀ c ∈ chars, c.2.length = 8) (eight : data.length = 8) (paused : pause p ≤ m)
      (busy : ¬Resting p → m = 0)
      (cut : u ++ remaining d p =
        stream (bounds d) chars ++ (List.replicate g true ++ (whole d data ++ List.replicate m true))) :
      Spoken d (chars.map Prod.snd ++ [data]) p u

section Step

variable {sent : List (List Bool)} {u : List Bool}

theorem stream_concat (chars : List (Nat × List Bool)) (g : Nat) (size : data.length = 8) :
    stream (bounds d) (chars ++ [(g, data)]) =
      stream (bounds d) chars ++ (List.replicate g true ++ (whole d data ++ [true, true])) := by
  rw [stream, stream, List.flatMap_append, List.flatMap_singleton, frameWave_bounds size]

theorem Spoken.rests {next : Phase} (resting : Resting p) (resting' : Resting next)
    (later : pause next ≤ pause p + 1) (spoken : Spoken d sent p u) : Spoken d sent next (u ++ [true]) := by
  cases spoken with
  | silent chars g _ size =>
    rw [List.append_assoc, ← List.replicate_succ']
    exact .silent chars (g + 1) resting' size
  | speaking chars g data m size eight paused _ cut =>
    refine .speaking chars g data (m + 1) size eight (by omega) (fun busy => absurd resting' busy) ?_
    rw [remaining_resting resting] at cut
    rw [remaining_resting resting', List.replicate_succ', cut]
    simp only [List.append_assoc]

/-- The next character begins at least two cycles after the end of the last one. -/
theorem Spoken.begins (eight : data.length = 8) (spoken : Spoken d sent .second u) :
    Spoken d (sent ++ [data]) (.shift false (d + 1) false (data ++ [true])) (u ++ [true]) := by
  cases spoken with
  | silent chars g _ size =>
    refine .speaking chars (g + 1) data 0 size eight (Nat.zero_le _) (fun _ => rfl) ?_
    rw [remaining, ← whole, List.replicate_succ', List.replicate_zero, List.append_nil]
    simp only [List.append_assoc]
  | speaking chars g last m size eight' paused _ cut =>
    have two : 2 ≤ m := paused
    have next : Spoken d ((chars ++ [(g, last)]).map Prod.snd ++ [data]) (.shift false (d + 1) false (data ++ [true]))
        (u ++ [true]) := by
      refine .speaking (chars ++ [(g, last)]) (m - 2) data 0 ?_ eight (Nat.zero_le _) (fun _ => rfl) ?_
      · intro c member
        rcases List.mem_append.mp member with old | new
        · exact size c old
        · rw [List.mem_singleton.mp new]
          exact eight'
      · have pauses : List.replicate m true = [true, true] ++ List.replicate (m - 2) true := by
          obtain ⟨k, rfl⟩ := Nat.exists_eq_add_of_le' two
          rfl
        rw [remaining_resting (p := .second) trivial] at cut
        rw [stream_concat chars g eight', remaining, ← whole, cut, pauses, List.replicate_zero, List.append_nil]
        simp only [List.append_assoc]
    rwa [List.map_append, List.map_singleton] at next

theorem Spoken.shifts {level bit : Bool} {wait : Nat} {bits : List Bool} {next : Phase}
    (cut : rest d level wait bit bits = level :: remaining d next) (ready : pause next = 0)
    (spoken : Spoken d sent (.shift level wait bit bits) u) : Spoken d sent next (u ++ [level]) := by
  cases spoken with
  | silent chars g resting size => exact absurd resting id
  | speaking chars g data m size eight paused busy parts =>
    refine .speaking chars g data m size eight (by omega) (fun _ => busy id) ?_
    rw [← parts, remaining, cut, List.append_assoc, List.singleton_append]

/-- The last bit of a character is the stop bit. -/
theorem Spoken.stops {level bit : Bool} (spoken : Spoken d sent (.shift level 0 bit []) u) : bit = true := by
  cases spoken with
  | silent chars g resting size => exact absurd resting id
  | speaking chars g data m size eight paused busy parts =>
    obtain ⟨v, shape⟩ := whole_concat d data
    have final := congrArg List.getLast? parts
    rw [busy id, shape, remaining] at final
    simpa [rest] using final

theorem Spoken.step (eight : i.data.length = 8) (spoken : Spoken d sent p u) :
    Spoken d (sent ++ takes i p) (next d i p) (u ++ [line p]) := by
  cases p with
  | idle =>
    have waits : Spoken d sent (if i.pending then .first else .idle) (u ++ [true]) := by
      split
      · exact spoken.rests (p := .idle) trivial trivial le_rfl
      · exact spoken.rests (p := .idle) trivial trivial (Nat.zero_le _)
    simpa only [takes, next, line, List.append_nil] using waits
  | first =>
    have waits : Spoken d sent .second (u ++ [true]) := spoken.rests (p := .first) trivial trivial le_rfl
    simpa only [takes, next, line, List.append_nil] using waits
  | second => exact spoken.begins eight
  | shift level wait bit bits =>
    have shifts : Spoken d sent (next d i (.shift level wait bit bits)) (u ++ [level]) := by
      match wait, bits with
      | 0, [] => exact spoken.shifts (by rw [spoken.stops]; rfl) rfl
      | 0, b :: bits => exact spoken.shifts rfl rfl
      | wait + 1, bits => exact spoken.shifts rfl rfl
    simpa only [takes, line, List.append_nil] using shifts

end Step

theorem spoken_run (eight : ∀ i ∈ w, i.data.length = 8) :
    Spoken d (taken d .idle w) (run (next d) .idle w) (lines d .idle w) := by
  induction w using List.reverseRecOn with
  | nil => exact .silent [] 0 trivial nofun
  | append_singleton w i ih =>
    rw [taken_concat, lines_concat, run_append, run_cons, run_nil]
    exact (ih fun j member => eight j (List.mem_append_left _ member)).step
      (eight i (List.mem_append_right _ List.mem_cons_self))

/-- From idle the line stays high for three cycles, whatever they bring. -/
theorem lines_idle (more : 3 ≤ w.length) : ∃ later, lines d .idle w = [true, true, true] ++ later := by
  match w, more with
  | a :: b :: c :: w, _ =>
    have quiet : line (next d a .idle) = true ∧ line (next d b (next d a .idle)) = true := by
      unfold next
      cases a.pending <;> cases b.pending <;> exact ⟨rfl, rfl⟩
    refine ⟨lines d (next d c (next d b (next d a .idle))) w, ?_⟩
    rw [lines, trace_cons rfl, trace_cons rfl, trace_cons rfl, quiet.1, quiet.2]
    rfl

/-- The cycles that are left of the character on the line. -/
def left (d : Nat) : Phase → Nat
  | .shift _ wait _ bits => wait + 1 + bits.length * (d + 1)
  | _ => 0

theorem left_shift (level : Bool) (wait : Nat) (bit : Bool) (bits : List Bool) :
    left d (next d i (.shift level wait bit bits)) + 1 = left d (.shift level wait bit bits) := by
  match wait, bits with
  | 0, [] => simp [next, left]
  | 0, b :: bits =>
    rw [next, left, left, List.length_cons, Nat.succ_mul]
    omega
  | wait + 1, bits =>
    rw [next, left, left]
    omega

theorem left_begin (level bit : Bool) (eight : data.length = 8) :
    left d (.shift level (d + 1) bit (data ++ [true])) = 10 * (d + 1) + 1 := by
  rw [left, List.length_append, eight, List.length_singleton]
  omega

theorem left_run (eight : ∀ i ∈ w, i.data.length = 8) : left d (run (next d) .idle w) ≤ 10 * (d + 1) + 1 := by
  induction w using List.reverseRecOn with
  | nil => exact Nat.zero_le _
  | append_singleton w i ih =>
    have bound := ih fun j member => eight j (List.mem_append_left _ member)
    rw [run_append, run_cons, run_nil]
    generalize run (next d) .idle w = p at bound ⊢
    cases p with
    | idle =>
      rw [next]
      split <;> exact Nat.zero_le _
    | first => exact Nat.zero_le _
    | second => exact (left_begin _ _ (eight i (List.mem_append_right _ List.mem_cons_self))).le
    | shift level wait bit bits =>
      have less := left_shift (d := d) (i := i) level wait bit bits
      omega

section Heard

variable {h : Nat} {r : Receiver} {sent : List (List Bool)} {u : List Bool}
  (low : 0 < h) (half : h + 2 ≤ d) (idle : r.phase = .idle) (high : r.prev = true)
include low half idle high

theorem heard_stream {chars : List (Nat × List Bool)} (size : ∀ c ∈ chars, c.2.length = 8) (g : Nat) :
    heard d h r (stream (bounds d) chars ++ List.replicate g true) = (chars.map Prod.snd).map framed := by
  obtain ⟨phase, told, prev⟩ := listen_stream (tolerates_bounds low half) idle high size
  rw [heard_append, told, (listen_rest phase prev g).2.1, List.append_nil]

/-- There is an end of the line with which the receiver has heard all that the sender has
taken: three cycles of rest if the sender rests. -/
theorem Spoken.completed (spoken : Spoken d sent p u) :
    ∃ v, (Resting p → v = [true, true, true]) ∧ heard d h r (u ++ v) = sent.map framed := by
  cases spoken with
  | silent chars g _ size =>
    refine ⟨[true, true, true], fun _ => rfl, ?_⟩
    have more : List.replicate g true ++ [true, true, true] = List.replicate (g + 3) true :=
      (List.replicate_append_replicate (n := g) (m := 3))
    rw [List.append_assoc, more]
    exact heard_stream low half idle high size _
  | speaking chars g data m size eight paused _ cut =>
    refine ⟨remaining d p ++ [true, true], fun resting => by rw [remaining_resting resting]; rfl, ?_⟩
    have all : ∀ c ∈ chars ++ [(g, data)], c.2.length = 8 := by
      intro c member
      rcases List.mem_append.mp member with old | new
      · exact size c old
      · rw [List.mem_singleton.mp new]
        exact eight
    have pauses : List.replicate m true ++ [true, true] = [true, true] ++ List.replicate m true :=
      (List.replicate_append_replicate (n := m) (m := 2)).trans
        (by rw [Nat.add_comm, ← List.replicate_append_replicate]; rfl)
    have line : u ++ (remaining d p ++ [true, true]) =
        stream (bounds d) (chars ++ [(g, data)]) ++ List.replicate m true := by
      rw [← List.append_assoc, cut, stream_concat chars g eight]
      simp only [List.append_assoc, pauses]
    rw [line, heard_stream low half idle high all m, List.map_append, List.map_append, List.map_append]
    rfl

theorem Spoken.heard_sent (spoken : Spoken d sent p u) : heard d h r u <+: sent.map framed := by
  obtain ⟨v, _, told⟩ := spoken.completed low half idle high
  rw [← told, heard_append]
  exact List.prefix_append _ _

end Heard

end Dspc.Serial.Sender
