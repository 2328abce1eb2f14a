import ShaderIR.Ty

/-!
# Reading constant payloads

A payload holds the scalars of a value back to back, without padding.  Reading
it follows the type: a scalar takes its bytes, an aggregate hands consecutive
slices to its elements.  What is made of a scalar and of the elements of an
aggregate is left to the reader, so that printing and evaluation split payloads
alike.
-/

namespace ShaderIR

/-- Read consecutive slices of one width. -/
def readRepeated {α : Type} (read : List UInt8 → Option α) (width : Nat) :
    Nat → List UInt8 → Option (List α)
  | 0, _ => some []
  | count + 1, data => do
    let first ← read (data.take width)
    return first :: (← readRepeated read width count (data.drop width))

namespace Ty

mutual

/-- Read a payload of a type. -/
def readPayload
    {α : Type}
    (scalarValue : Scalar → List UInt8 → Option α)
    (aggregateValue : List α → α) :
    Ty → List UInt8 → Option α
  | scalar _ description, data => scalarValue description data
  | vector _ size _ element, data =>
    (readRepeated (readPayload scalarValue aggregateValue element) element.extent size data).map
      aggregateValue
  | matrix _ columns _ column, data =>
    (readRepeated (readPayload scalarValue aggregateValue column) column.extent columns data).map
      aggregateValue
  | array _ element count, data =>
    (readRepeated (readPayload scalarValue aggregateValue element) element.extent count data).map
      aggregateValue
  | record _ members, data =>
    (readMembers scalarValue aggregateValue members data).map aggregateValue
  | resource _ _ _, _ => some (aggregateValue [])
  | rayQuery _ _, _ => some (aggregateValue [])

/-- Read the consecutive payloads of the members of a record. -/
def readMembers
    {α : Type}
    (scalarValue : Scalar → List UInt8 → Option α)
    (aggregateValue : List α → α) :
    List Ty → List UInt8 → Option (List α)
  | [], _ => some []
  | member :: rest, data => do
    let first ← readPayload scalarValue aggregateValue member (data.take member.extent)
    return first :: (← readMembers scalarValue aggregateValue rest (data.drop member.extent))

end

end Ty

end ShaderIR
