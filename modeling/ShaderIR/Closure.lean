import ShaderIR.Instruction

/-!
# Closures

What can be reached from some values by following a relation given as a list of
next values.  A value is expanded once, so the number of values bounds the
search.
-/

namespace ShaderIR

namespace Closure

/-- Expand the values of a work list, adding the new ones to those seen. -/
def expand (next : Ref → List Ref) : Nat → List Ref → List Ref → List Ref
  | 0, _, seen => seen
  | _ + 1, [], seen => seen
  | bound + 1, ref :: work, seen =>
    let new := (next ref).eraseDups.filter (!seen.contains ·)
    expand next bound (new ++ work) (new ++ seen)

end Closure

/-- The values reached from a list of values, which are reached themselves. -/
def closure (bound : Nat) (next : Ref → List Ref) (start : List Ref) : List Ref :=
  Closure.expand next bound start start

end ShaderIR
