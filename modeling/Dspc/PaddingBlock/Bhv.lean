import Dspc.Vhdl.Slice
import Dspc.Sha256.Message

namespace Dspc.PaddingBlock
open Vhdl

/-- The input ports that the process reads; `clk` and `reset` are not among them. -/
structure Inputs where
  inputString : StdLogicVector 32
  inputLength : StdLogicVector 64

structure Outputs where
  ready : StdLogic
  outputString : StdLogicVector 512

/-- The variable `l`. It has no initial value, and no statement assigns to it. -/
def l : IntegerDownto 31 0 := .left (by decide)

/-- The initial value `(448-l)-1 mod 512`, in which `mod` binds tighter than `-`. -/
def k (l : IntegerDownto 31 0) : Int := (448 - l.val) - Int.fmod 1 512

def paddingLength (l : IntegerDownto 31 0) : Int := l.val + k l + 1 + 64

def copyBits {n : Nat} (Message : StdLogicVector n) : Nat → StdLogicVector n → Option (StdLogicVector n)
  | 0, outputStringTemp => some outputStringTemp
  | i + 1, outputStringTemp => do
    let outputStringTemp ← outputStringTemp.setIndex? i (← Message.index? i)
    copyBits Message i outputStringTemp

/-- The process up to its `wait`, over the value of `l`. Of the two assignments to
`ready` in one activation only the last one takes effect. -/
def body (l : IntegerDownto 31 0) (p : Inputs) (out : Outputs) : Option Outputs := do
  let Message : StdLogicVector (paddingLength l).toNat := .others .zero
  let outputStringTemp : StdLogicVector (paddingLength l).toNat := .others .zero
  let out := { out with ready := .zero }
  let inputStringTemp := p.inputString
  let Message ← Message.setSlice? (paddingLength l - 1) (paddingLength l - l.val)
    (← inputStringTemp.slice? (l.val - 1) 0)
  let Message ← Message.setIndex? (paddingLength l - l.val - 1) .one
  let Message ← Message.setSlice? 63 0 p.inputLength
  let outputStringTemp ← copyBits Message (paddingLength l).toNat outputStringTemp
  let out := { out with outputString := ← outputStringTemp.resized? 512 }
  some { out with ready := .one }

def powerOn : Outputs where
  ready := .U
  outputString := .others .U

def padProc (p : Inputs) : Option Outputs := body l p powerOn

theorem paddingLength_eq (l : IntegerDownto 31 0) : paddingLength l = 512 := by
  have one : Int.fmod 1 512 = 1 := by decide
  rw [paddingLength, k, one]
  omega

theorem copyBits_eq {n : Nat} (Message : StdLogicVector n) {i : Nat} (bound : i ≤ n) (start : StdLogicVector n) :
    ∃ last, copyBits Message i start = some last ∧
      ∀ (j : Nat) (h : j < n), last[j] = if j < i then Message[j] else start[j] := by
  induction i generalizing start with
  | zero => exact ⟨start, rfl, fun j h => by rw [if_neg (Nat.not_lt_zero j)]⟩
  | succ i ih =>
    obtain ⟨next, written, elements⟩ := StdLogicVector.setIndex?_eq start Message[i] (i := i) (by omega)
    obtain ⟨last, run, copied⟩ := ih (by omega) next
    refine ⟨last, ?_, fun j h => ?_⟩
    · rw [copyBits, StdLogicVector.index?_eq Message (by omega), Option.bind_eq_bind, Option.bind_some, written,
        Option.bind_eq_bind, Option.bind_some, run]
    · rw [copied j h, elements j h]
      by_cases below : j < i
      · rw [if_pos below, if_pos (by omega)]
      · by_cases here : j = i
        · subst here
          rw [if_neg below, if_pos rfl, if_pos (by omega)]
        · rw [if_neg below, if_neg (by omega), if_neg (by omega)]

/-- The process, element by element: the low `l` bits of the string on top, the
marker, zeros, and the length. -/
theorem body_elements (l : IntegerDownto 31 0) (p : Inputs) (out : Outputs) :
    ∃ v, body l p out = some { ready := .one, outputString := v } ∧
      (∀ (j : Nat) (_ : j < l.val) (_ : 512 - l.val + j < 512) (_ : j < 32),
        v[512 - l.val + j] = p.inputString[j]) ∧
      (∀ (_ : 511 - l.val < 512), v[511 - l.val] = .one) ∧
      (∀ (i : Nat) (_ : 64 ≤ i) (_ : i < 511 - l.val) (_ : i < 512), v[i] = .zero) ∧
      ∀ (i : Nat) (_ : i < 64) (_ : i < 512), v[i] = p.inputLength[i] := by
  have range := l.property
  unfold body
  generalize paddingLength l = N, paddingLength_eq l = size
  obtain ⟨part, read, parts⟩ := StdLogicVector.slice?_eq p.inputString (l.val - 1) 0
    (by unfold StdLogicVector.Selects; omega)
  obtain ⟨withText, write, text, besideText⟩ := StdLogicVector.setSlice?_eq
    (.others .zero : StdLogicVector N.toNat) (N - 1) (N - l.val) part
    (by unfold StdLogicVector.Selects; omega) (by omega)
  obtain ⟨withMarker, mark, marker⟩ := StdLogicVector.setIndex?_eq withText (i := N - l.val - 1) .one (by omega)
  obtain ⟨Message, append, length, besideLength⟩ := StdLogicVector.setSlice?_eq withMarker 63 0
    p.inputLength (by unfold StdLogicVector.Selects; omega) (by decide)
  obtain ⟨copy, copied, same⟩ := copyBits_eq Message (i := N.toNat) le_rfl (.others .zero)
  obtain ⟨v, resized, elements⟩ := StdLogicVector.resized?_eq copy (m := 512) (by omega)
  have final (i : Nat) (h : i < 512) (place : i < N.toNat) : v[i] = Message[i] := by
    rw [elements i h place, same i place, if_pos place]
  refine ⟨v, ?_, fun j inside place source => ?_, fun place => ?_, fun i above below place => ?_,
    fun i inside place => ?_⟩
  · simp only [read, write, mark, append, copied, resized, Option.bind_eq_bind, Option.bind_some]
  · rw [final _ place (by omega), besideLength _ _ (by omega), marker _ (by omega), if_neg (by omega),
      text _ (by omega) (by omega) (by omega) (by omega), parts _ (by omega) (by omega)]
    congr 1
    omega
  · rw [final _ place (by omega), besideLength _ _ (by omega), marker _ (by omega), if_pos (by omega)]
  · rw [final _ place (by omega), besideLength _ _ (by omega), marker _ (by omega), if_neg (by omega),
      besideText _ (by omega) (by omega), StdLogicVector.getElem_others]
  · rw [final _ place (by omega), length _ (by omega) (by omega) (by omega) (by omega)]
    congr 1

end Dspc.PaddingBlock
