import Isopace.Lib.Bytes

/-!
# Field paths

Model of `iso8583/path.go` (22-123): at most six elements, each a number or a BER-TLV tag. Go
strings are byte strings.
-/

namespace Isopace.Iso8583

open Lib

def maxPathDepth : ℕ := 6

/-- `PathElem`: a numeric index (`tag` empty) or a hex tag. -/
structure PathElem where
  n : Int32
  tag : Bytes
  deriving DecidableEq, Repr

/-- `IsTag`, line 38. -/
def PathElem.isTag (e : PathElem) : Bool := e.tag ≠ []

/-- `FieldPath`: the inline array and its length, as a list. -/
structure FieldPath where
  elems : List PathElem
  depth : elems.length ≤ maxPathDepth
  deriving DecidableEq, Repr

namespace FieldPath

def zero : FieldPath := ⟨[], by decide⟩

/-- `DE(n)`; the index is truncated to an `int32`. -/
def de (n : ℤ) : FieldPath := ⟨[⟨Int32.ofInt n, []⟩], by simp [maxPathDepth]⟩

/-- `Tail`, line 83. -/
def tail (p : FieldPath) : FieldPath :=
  ⟨p.elems.tail, by have := p.depth; rw [List.length_tail]; omega⟩

/-- `IsZero`, line 123. -/
def isZero (p : FieldPath) : Bool := p.elems = []

end FieldPath

end Isopace.Iso8583
