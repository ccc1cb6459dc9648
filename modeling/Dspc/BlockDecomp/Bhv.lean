import Dspc.Vhdl.Access
import Dspc.Vhdl.Process
import Dspc.Vhdl.Vector
import Dspc.Sha256.Message

namespace Dspc.BlockDecomp
open Vhdl

abbrev Word := StdLogicVector 32

abbrev WordArray := Vector Word 64

def o0 {n : Nat} (x : StdLogicVector n) : StdLogicVector n :=
  x.rotateRight 7 ^^^ x.rotateRight 18 ^^^ x.shiftRight 3

def o1 {n : Nat} (x : StdLogicVector n) : StdLogicVector n :=
  x.rotateRight 17 ^^^ x.rotateRight 19 ^^^ x.shiftRight 10

@[simp] theorem o0_ofBits (x : BitVec 32) : o0 (.ofBits x) = .ofBits (Sha256.sigma0 x) := by
  simp only [o0, Sha256.sigma0, StdLogicVector.rotateRight_ofBits, StdLogicVector.shiftRight_ofBits,
    StdLogicVector.xor_ofBits]

@[simp] theorem o1_ofBits (x : BitVec 32) : o1 (.ofBits x) = .ofBits (Sha256.sigma1 x) := by
  simp only [o1, Sha256.sigma1, StdLogicVector.rotateRight_ofBits, StdLogicVector.shiftRight_ofBits,
    StdLogicVector.xor_ofBits]

inductive States
  | IDLE | WORKING | DONE
  deriving DecidableEq

structure State where
  state : States
  tempBlock : WordArray
  finished : StdLogic
  outData : WordArray
  counter : IntegerRange 16 65

structure Ports where
  update : StdLogic
  inData : StdLogicVector 512

/-- Before the first activation each signal, port and variable has the leftmost value
of its type, which is 16 for the counter. -/
def powerOn : State where
  state := .IDLE
  tempBlock := .replicate 64 (.others .U)
  finished := .U
  outData := .replicate 64 (.others .U)
  counter := ⟨16, by decide⟩

def onReset (s : State) : State := { s with counter := ⟨16, by decide⟩, state := .IDLE }

def loadBlock (tempBlock : WordArray) (inData : StdLogicVector 512) : WordArray :=
  tempBlock
    |>.set 15 (inData.slice 31 0 (by decide))
    |>.set 14 (inData.slice 63 32 (by decide))
    |>.set 13 (inData.slice 95 64 (by decide))
    |>.set 12 (inData.slice 127 96 (by decide))
    |>.set 11 (inData.slice 159 128 (by decide))
    |>.set 10 (inData.slice 191 160 (by decide))
    |>.set 9 (inData.slice 223 192 (by decide))
    |>.set 8 (inData.slice 255 224 (by decide))
    |>.set 7 (inData.slice 287 256 (by decide))
    |>.set 6 (inData.slice 319 288 (by decide))
    |>.set 5 (inData.slice 351 320 (by decide))
    |>.set 4 (inData.slice 383 352 (by decide))
    |>.set 3 (inData.slice 415 384 (by decide))
    |>.set 2 (inData.slice 447 416 (by decide))
    |>.set 1 (inData.slice 479 448 (by decide))
    |>.set 0 (inData.slice 511 480 (by decide))

def onEdge (p : Ports) (s : State) : Option State :=
  match s.state with
  | .IDLE =>
    if p.update = .one then
      some { s with tempBlock := loadBlock s.tempBlock p.inData, finished := .zero, state := .WORKING }
    else some s
  | .WORKING => do
    let T := s.tempBlock
    let c := s.counter.val
    -- Both right-hand sides read the values the signal had before this edge.
    let first := o1 (← T[c - 2]?) + (← T[c - 7]?) + o0 (← T[c - 15]?) + (← T[c - 16]?)
    let second := o1 (← T[c - 1]?) + (← T[c - 6]?) + o0 (← T[c - 14]?) + (← T[c - 15]?)
    let tempBlock ← assign (← assign T c first) (c + 1) second
    let counter ← IntegerRange.check 16 65 (c + 2)
    if counter.val > 63 then
      some { s with tempBlock := tempBlock, counter := ⟨16, by decide⟩, state := .DONE }
    else some { s with tempBlock := tempBlock, counter := counter }
  | .DONE => some { s with outData := s.tempBlock, finished := .one, state := .IDLE }

def decomp : Activation Ports → State → Option State := clocked? onReset onEdge

def State.ready (s : State) : StdLogic := if s.state = .IDLE then .one else .zero

def loadLogged (T : WordArray) (inData : StdLogicVector 512) : Accessing WordArray := do
  let T ← store T 15 (inData.slice 31 0 (by decide))
  let T ← store T 14 (inData.slice 63 32 (by decide))
  let T ← store T 13 (inData.slice 95 64 (by decide))
  let T ← store T 12 (inData.slice 127 96 (by decide))
  let T ← store T 11 (inData.slice 159 128 (by decide))
  let T ← store T 10 (inData.slice 191 160 (by decide))
  let T ← store T 9 (inData.slice 223 192 (by decide))
  let T ← store T 8 (inData.slice 255 224 (by decide))
  let T ← store T 7 (inData.slice 287 256 (by decide))
  let T ← store T 6 (inData.slice 319 288 (by decide))
  let T ← store T 5 (inData.slice 351 320 (by decide))
  let T ← store T 4 (inData.slice 383 352 (by decide))
  let T ← store T 3 (inData.slice 415 384 (by decide))
  let T ← store T 2 (inData.slice 447 416 (by decide))
  let T ← store T 1 (inData.slice 479 448 (by decide))
  store T 0 (inData.slice 511 480 (by decide))

/-- The clocked branch with a log of the words of `tempBlock` that it uses. A signal
keeps its value for the whole activation, so an edge reads before it writes. -/
def onEdgeLogged (p : Ports) (s : State) : Accessing State :=
  match s.state with
  | .IDLE =>
    if p.update = .one then do
      let tempBlock ← loadLogged s.tempBlock p.inData
      pure { s with tempBlock := tempBlock, finished := .zero, state := .WORKING }
    else pure s
  | .WORKING => do
    let T := s.tempBlock
    let c := s.counter.val
    let first := o1 (← fetch T (c - 2)) + (← fetch T (c - 7)) + o0 (← fetch T (c - 15)) + (← fetch T (c - 16))
    let second := o1 (← fetch T (c - 1)) + (← fetch T (c - 6)) + o0 (← fetch T (c - 14)) + (← fetch T (c - 15))
    let tempBlock ← store (← store T c first) (c + 1) second
    let counter ← (IntegerRange.check 16 65 (c + 2) : Option _)
    if counter.val > 63 then
      pure { s with tempBlock := tempBlock, counter := ⟨16, by decide⟩, state := .DONE }
    else pure { s with tempBlock := tempBlock, counter := counter }
  | .DONE => do
    let outData ← fetchAll s.tempBlock
    pure { s with outData := outData, finished := .one, state := .IDLE }

/-- The process beside the accesses made for the current block, a log that each accepted
block begins anew. -/
def accessed : Activation Ports → State × List Access → Option (State × List Access) :=
  clocked? (fun x => (onReset x.1, x.2)) fun p x =>
    (onEdgeLogged p x.1).run (if x.1.state = .IDLE ∧ p.update = .one then [] else x.2)

end Dspc.BlockDecomp
