import Mathlib.Tactic.Common

namespace Dspc.Cpp

inductive Base
  | dec | hex
  deriving DecidableEq

def Base.radix : Base → Nat
  | .dec => 10
  | .hex => 16

/-- The formatting state of a stream and the text written so far. The flags that no
statement of the program sets are at their defaults: lower case, no prefix, right
adjustment. -/
structure Ostream where
  base : Base
  width : Nat
  fill : Char
  text : List Char

namespace Ostream

/-- Formatted output pads to the width on the left and resets the width, so `setw` is
good for one item only. -/
def put (o : Ostream) (s : List Char) : Ostream :=
  { o with text := o.text ++ (List.replicate (o.width - s.length) o.fill ++ s), width := 0 }

/-- `<<` on an unsigned integer. -/
def number (o : Ostream) (x : Nat) : Ostream := o.put (Nat.toDigits o.base.radix x)

def hex (o : Ostream) : Ostream := { o with base := .hex }

def endl (o : Ostream) : Ostream := { o with text := o.text ++ ['\n'] }

theorem put_eq {o : Ostream} (unset : o.width = 0) (s : List Char) : o.put s = { o with text := o.text ++ s } := by
  rw [put, unset, Nat.zero_sub, List.replicate_zero, List.nil_append, ← unset]

end Ostream

end Dspc.Cpp
