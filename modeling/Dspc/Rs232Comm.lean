import Dspc.SystemUart.EndToEnd
import Dspc.SystemUart.View

namespace Dspc.Rs232Comm
open Vhdl RegisterIo
open SystemUart (Slot View txdata sent pending arrivals log state high)
open scoped List

/-! The program of the processor, which polls the UART. -/

abbrev Code := Prog (BitVec 3) (BitVec 32)

def ascii (s : String) : List (BitVec 8) := s.toList.map fun c => BitVec.ofNat 8 c.toNat

/-- A `char` array with a text, and zero behind it. -/
def charArray (n : Nat) (s : String) : List (BitVec 8) := (ascii s ++ List.replicate n 0).take n

def input_request : List (BitVec 8) := charArray 30 "\nPress any key: "

def bitbang : List (BitVec 8) := charArray 10 "BIT BANG"

/-- Waits for TRDY, then writes a character. -/
def transmitChar (value : BitVec 8) : Code Unit := do
  Prog.await 2 fun uart_status => uart_status &&& 0x40 != 0
  Prog.put 1 (value.signExtend 32)

/-- The loop over an array, which ends at '\0'. -/
def transmitChars : List (BitVec 8) → Code Unit
  | [] => Prog.fail
  | value :: rest =>
    if value = 0 then pure ()
    else do
      transmitChar value
      transmitChars rest

def BitBangUartReceive : Code Unit := do
  Prog.put 2 0
  transmitChars input_request
  Prog.await 2 fun uart_status => uart_status &&& 0x80 != 0
  let incoming_character ← Prog.get 0
  transmitChar (incoming_character.setWidth 8)

def BitBangUartTransmit : Code Unit := do
  Prog.put 2 0
  transmitChars bitbang
  -- without waiting for TRDY
  Prog.put 1 0x42
  Prog.put 1 0x41
  Prog.put 1 0x53
  Prog.put 1 0x48
  let _uart_status ← Prog.get 2

/-- Up to the loop that does nothing. -/
def main : Code Unit := do
  BitBangUartTransmit
  BitBangUartReceive

section Triples

variable {arrived : BitVec 8 → Prop} {x l : List (BitVec 8)} {b : BitVec 8}

theorem mask_bit (mask : BitVec 32) (k : Nat) (v : BitVec 32) (single : mask = BitVec.twoPow 32 k) (some : mask ≠ 0) :
    (v &&& mask != 0) = v.getLsbD k := by
  rw [single] at some ⊢
  rw [BitVec.and_twoPow]
  cases v.getLsbD k with
  | true => exact bne_iff_ne.mpr some
  | false => rfl

theorem setWidth_signExtend (value : BitVec 8) : (value.signExtend 32).setWidth 8 = value := by
  apply BitVec.eq_of_getLsbD_eq
  intro k inside
  have wide : k < 32 := by omega
  rw [BitVec.getLsbD_setWidth, BitVec.getLsbD_signExtend, decide_eq_true inside, decide_eq_true wide, if_pos inside,
    Bool.true_and, Bool.true_and]

theorem status_cleared : Triple (View.Next arrived) (fun t => t.out = x) (Prog.put 2 0) (fun _ t => t.out = x) :=
  triple_put fun _ _ same next => (next.silent rfl).trans same

/-- What is polled for is never lost. -/
theorem transmitChar_adds (value : BitVec 8) :
    Triple (View.Next arrived) (fun t => t.out = x) (transmitChar value) (fun _ t => t.out = x ++ [value]) := by
  refine Triple.bind (R := fun _ t => t.trdy = true ∧ t.out = x) (triple_await ?_ ?_) fun _ => triple_put ?_
  · exact fun v t t' same next _ => (next.silent rfl).trans same
  · intro v t t' same next passes
    rw [mask_bit 0x40 6 v rfl (by decide)] at passes
    refine ⟨?_, (next.silent rfl).trans same⟩
    rw [next.trdy, SystemUart.shows, passes]
    simp [txdata]
  · intro t t' start next
    obtain ⟨seen, same⟩ := start
    have byte : txdata (.wr 1 (value.signExtend 32)) = [value] := by
      rw [txdata, if_pos rfl, setWidth_signExtend]
    rcases next.written value (by rw [byte]; exact List.mem_singleton_self value) with behind | ⟨unseen, _⟩
    · rw [behind, same]
    · exact absurd (unseen.symm.trans seen) Bool.false_ne_true

theorem transmitChars_adds (chars : List (BitVec 8)) :
    Triple (View.Next arrived) (fun t => t.out = x) (transmitChars chars)
      (fun _ t => t.out = x ++ chars.takeWhile (· ≠ 0)) := by
  induction chars generalizing x with
  | nil => exact triple_fail
  | cons value rest ih =>
    rw [transmitChars]
    by_cases ends : value = 0
    · rw [if_pos ends]
      refine triple_pure fun t same => ?_
      rw [same, ends]
      simp
    · rw [if_neg ends]
      have more : (value :: rest).takeWhile (· ≠ 0) = value :: rest.takeWhile (· ≠ 0) :=
        List.takeWhile_cons_of_pos (by simpa using ends)
      refine Triple.bind (transmitChar_adds value) fun _ => ih.post fun _ t same => ?_
      rw [same, more, List.append_assoc, List.singleton_append]

/-- What is not polled for goes behind the others, or in the place of the last one. -/
theorem put_adds (data : BitVec 32) (byte : data.setWidth 8 = b) {last : BitVec 8} :
    Triple (View.Next arrived) (fun t => ∃ m, t.out = x ++ m ++ [last] ∧ m <+ l) (Prog.put 1 data)
      (fun _ t => ∃ m, t.out = x ++ m ++ [b] ∧ m <+ l ++ [last]) := by
  refine triple_put fun t t' ⟨m, same, part⟩ next => ?_
  have written : txdata (.wr 1 data) = [b] := by rw [txdata, if_pos rfl, byte]
  rcases next.written b (by rw [written]; exact List.mem_singleton_self b) with behind | ⟨_, replaced⟩
  · refine ⟨m ++ [last], ?_, part.append (List.Sublist.refl _)⟩
    rw [behind, same, List.append_assoc x]
  · refine ⟨m, ?_, part.trans (List.sublist_append_left l [last])⟩
    rw [replaced, same, List.dropLast_concat]

theorem transmit_sends : Triple (View.Next arrived) (fun t => t.out = []) BitBangUartTransmit
    (fun _ t => ∃ m, t.out = ascii "BIT BAN" ++ m ++ ascii "H" ∧ m <+ ascii "GBAS") := by
  refine Triple.bind status_cleared fun _ => ?_
  refine Triple.bind (transmitChars_adds bitbang) fun _ => ?_
  -- the four bytes come after a 'G' that may still be pending
  refine Triple.bind (R := fun _ t => ∃ m, t.out = ascii "BIT BAN" ++ m ++ ascii "B" ∧ m <+ ascii "G") ?_ fun _ => ?_
  · refine (put_adds (l := []) 0x42 rfl).pre fun t same => ?_
    exact ⟨[], same, List.Sublist.refl []⟩
  refine Triple.bind (put_adds 0x41 rfl) fun _ => Triple.bind (put_adds 0x53 rfl) fun _ =>
    Triple.bind (put_adds 0x48 rfl) fun _ => ?_
  refine Triple.bind (R := fun _ t => ∃ m, t.out = ascii "BIT BAN" ++ m ++ ascii "H" ∧ m <+ ascii "GBAS")
    (triple_get fun v t t' same next => ?_) fun _ => triple_pure fun _ same => same
  rw [next.silent rfl]
  exact same

theorem receive_sends : Triple (View.Next arrived) (fun t => t.out = x) BitBangUartReceive
    (fun _ t => ∃ b, t.out = x ++ ascii "\nPress any key: " ++ [b] ∧ arrived b) := by
  refine Triple.bind status_cleared fun _ => ?_
  refine Triple.bind (transmitChars_adds input_request) fun _ => ?_
  refine Triple.bind (R := fun _ t => t.rrdy = true ∧ t.out = x ++ ascii "\nPress any key: ")
    (triple_await ?_ ?_) fun _ => ?_
  · exact fun v t t' same next _ => (next.silent rfl).trans same
  · intro v t t' same next passes
    rw [mask_bit 0x80 7 v rfl (by decide)] at passes
    refine ⟨?_, (next.silent rfl).trans same⟩
    rw [next.rrdy, SystemUart.shows, passes, Bool.and_true]
    exact Bool.or_true _
  refine Triple.bind (R := fun v t => arrived (v.setWidth 8) ∧ t.out = x ++ ascii "\nPress any key: ")
    (triple_get ?_) fun v => ?_
  · intro v t t' start next
    obtain ⟨seen, same⟩ := start
    exact ⟨next.read seen _ List.mem_cons_self, (next.silent rfl).trans same⟩
  · exact triple_given fun here => (transmitChar_adds _).post fun _ t same => ⟨_, same, here⟩

theorem main_outputs : Triple (View.Next arrived) (fun t => t.out = []) main (fun _ t => ∃ m b,
    t.out = ascii "BIT BAN" ++ m ++ ascii "H" ++ ascii "\nPress any key: " ++ [b] ∧ m <+ ascii "GBAS" ∧ arrived b) := by
  refine transmit_sends.bind fun _ => triple_exists fun m => ?_
  refine (triple_given fun part => (receive_sends).post fun _ t ⟨b, same, here⟩ => ⟨m, b, same, part, here⟩).pre
    fun t start => ⟨start.2, start.1⟩

end Triples

/-- What the program hands to the shift register, with a break or without. All that is in
question is the 'G' and the bytes that it writes without waiting, of which the last one goes on. -/
theorem main_sends {divisor : BitVec 9} {w : List Slot} {es : List (Access (BitVec 3) (BitVec 32))}
    (runs : main.Runs es ()) (among : Among (fun e => txdata e = []) es (log divisor w)) :
    ∃ m b, sent divisor w ++ pending (state divisor w) =
        ascii "BIT BAN" ++ m ++ ascii "H\nPress any key: " ++ [b] ∧
      m <+ ascii "GBAS" ∧ b ∈ arrivals divisor w := by
  obtain ⟨t, reaches, out⟩ := SystemUart.code_session among
  obtain ⟨m, b, same, part, here⟩ := main_outputs es () View.start t rfl reaches runs
  refine ⟨m, b, ?_, part, here⟩
  have text : ascii "H\nPress any key: " = ascii "H" ++ ascii "\nPress any key: " := by decide
  rw [← out, same, text, ← List.append_assoc]

def pauses : List Slot := List.replicate 43 (high .idle)

def polled (value : BitVec 8) : List Slot := pauses ++ [.rd 2, .wr 1 (value.signExtend 32)].map high

/-- The line when a key is pressed. -/
def key (value : BitVec 8) : List Slot :=
  ([true, true, true, true, false] ++ (List.range 8).map value.getLsbD ++ [true, true]).flatMap
    fun x => List.replicate 4 ⟨.idle, x, x⟩

def session : List Slot :=
  high (.wr 2 0) :: (ascii "BIT BANG").flatMap polled ++
    [.wr 1 0x42, .wr 1 0x41, .wr 1 0x53, .wr 1 0x48, .rd 2, .wr 2 0].map high ++
    (ascii "\nPress any key: ").flatMap polled ++ key 0x41 ++ [.rd 2, .rd 0].map high ++ polled 0x41

theorem main_sends_key : ∃ m b, sent 3 session ++ pending (state 3 session) =
    ascii "BIT BAN" ++ m ++ ascii "H\nPress any key: " ++ [b] ∧ m <+ ascii "GBAS" ∧ b ∈ arrivals 3 session :=
  main_sends (by decide +kernel) (among_self _ _)

end Dspc.Rs232Comm
