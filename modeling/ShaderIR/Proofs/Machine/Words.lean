import Mathlib.Algebra.Order.Ring.Int
import Mathlib.Data.Int.Bitwise
import Mathlib.Data.Nat.Bitwise
import Mathlib.Tactic.Linarith
import Mathlib.Tactic.Positivity
import ShaderIR.Machine.Arithmetic

/-!
# Integers of a fixed width

An integer scalar of `n` bits stands for the integers modulo two to the power of `n`.  Each
class has one normalized representative, which a signed scalar takes around zero and an
unsigned one from zero upwards.  At runtime every integer is a 64-bit word, whatever the width
of its type.  This module follows the operations on words: a word computes with integers modulo
two to the power of 64, and bringing it to the width of its type gives the representative of
the result.
-/

namespace ShaderIR

namespace Scalar

/-- The signed and unsigned integers of one, two, four or eight bytes. -/
def IsInteger (scalar : Scalar) : Prop :=
  (scalar.kind = .sint ∨ scalar.kind = .uint) ∧
    (scalar.width = 1 ∨ scalar.width = 2 ∨ scalar.width = 4 ∨ scalar.width = 8)

instance (scalar : Scalar) : Decidable scalar.IsInteger :=
  inferInstanceAs (Decidable (_ ∧ _))

/-- How many integers a scalar tells apart. -/
def modulus (scalar : Scalar) : Nat := 2 ^ (8 * scalar.width)

/-- The normalized representative of an integer. -/
def representative (scalar : Scalar) (number : Int) : Int :=
  match scalar.kind with
  | .sint => Int.bmod number scalar.modulus
  | _ => number % scalar.modulus

/-- The integer is the representative of its class. -/
def Normalized (scalar : Scalar) (number : Int) : Prop :=
  scalar.representative number = number

instance (scalar : Scalar) (number : Int) : Decidable (scalar.Normalized number) :=
  inferInstanceAs (Decidable (_ = _))

/-- The runtime value of an integer. -/
def datum (scalar : Scalar) (number : Int) : Machine.Datum :=
  match scalar.kind with
  | .sint => .int (Int64.ofInt number)
  | _ => .uint (UInt64.ofInt number)

variable {scalar other : Scalar} {number : Int}

theorem IsInteger.datum_cases (integer : scalar.IsInteger) :
    (scalar.kind = .sint ∧ ∀ number, scalar.datum number = .int (Int64.ofInt number)) ∨
      (scalar.kind = .uint ∧ ∀ number, scalar.datum number = .uint (UInt64.ofInt number)) := by
  rcases integer.1 with signed | unsigned
  · refine .inl ⟨signed, fun number => ?_⟩
    rw [datum, signed]
  · refine .inr ⟨unsigned, fun number => ?_⟩
    rw [datum, unsigned]

theorem modulus_pos (scalar : Scalar) : 0 < scalar.modulus := Nat.two_pow_pos _

/-- Two integers of one class have the same representative. -/
theorem representative_eq_of_emod_eq
    {number' : Int}
    (same : number % scalar.modulus = number' % scalar.modulus) :
    scalar.representative number = scalar.representative number' := by
  unfold representative
  split
  · rw [← Int.emod_bmod, same, Int.emod_bmod]
  · exact same

/-- The representative belongs to the class of the integer. -/
theorem representative_emod (scalar : Scalar) (number : Int) :
    scalar.representative number % scalar.modulus = number % scalar.modulus := by
  unfold representative
  split
  · exact Int.bmod_emod
  · exact Int.emod_emod_of_dvd _ (dvd_refl _)

/-- Between scalars of one width, only the last representative counts. -/
theorem representative_representative (sameWidth : other.width = scalar.width) :
    scalar.representative (other.representative number) = scalar.representative number := by
  refine representative_eq_of_emod_eq ?_
  have same : scalar.modulus = other.modulus := by rw [modulus, modulus, sameWidth]
  rw [same, representative_emod]

/-! ### The range of the representatives -/

/-- The least representative. -/
def least (scalar : Scalar) : Int :=
  match scalar.kind with
  | .sint => -(scalar.modulus / 2 : Int)
  | _ => 0

/-- The first integer above all representatives. -/
def bound (scalar : Scalar) : Int :=
  match scalar.kind with
  | .sint => (scalar.modulus + 1 : Int) / 2
  | _ => scalar.modulus

theorem normalized_iff :
    scalar.Normalized number ↔ scalar.least ≤ number ∧ number < scalar.bound := by
  have positive : 0 < (scalar.modulus : Int) := by exact_mod_cast scalar.modulus_pos
  unfold Normalized representative least bound
  split
  · constructor
    · intro same
      rw [← same]
      exact ⟨Int.le_bmod scalar.modulus_pos, Int.bmod_lt scalar.modulus_pos⟩
    · rintro ⟨low, high⟩
      exact Int.bmod_eq_of_le low high
  · constructor
    · intro same
      rw [← same]
      exact ⟨Int.emod_nonneg _ positive.ne', Int.emod_lt_of_pos _ positive⟩
    · rintro ⟨low, high⟩
      exact Int.emod_eq_of_lt low high

theorem normalized_zero (scalar : Scalar) : scalar.Normalized 0 := by
  unfold Normalized representative
  split
  · exact Int.zero_bmod
  · exact Int.zero_emod _

/-- What lies between a representative and zero is a representative. -/
theorem Normalized.of_between
    {between : Int}
    (normalized : scalar.Normalized number)
    (low : min number 0 ≤ between)
    (high : between ≤ max number 0) :
    scalar.Normalized between := by
  have own := normalized_iff.1 normalized
  have zero := normalized_iff.1 scalar.normalized_zero
  exact normalized_iff.2 ⟨by omega, by omega⟩

/-- Shifting to the right stays within the representatives. -/
theorem Normalized.shiftRight (normalized : scalar.Normalized number) (count : Nat) :
    scalar.Normalized (number / 2 ^ count) := by
  have positive : (0 : Int) < 2 ^ count := by positivity
  have atLeastOne : (1 : Int) ≤ 2 ^ count := positive
  refine normalized.of_between ?_ ?_
  · rcases le_total 0 number with nonnegative | negative
    · rw [min_eq_right nonnegative]
      exact Int.ediv_nonneg nonnegative positive.le
    · rw [min_eq_left negative, Int.le_ediv_iff_mul_le positive]
      nlinarith only [negative, atLeastOne]
  · rcases le_total 0 number with nonnegative | negative
    · rw [max_eq_left nonnegative]
      exact Int.ediv_le_self _ nonnegative
    · rw [max_eq_right negative]
      exact (Int.ediv_le_ediv positive negative).trans_eq (Int.zero_ediv _)

theorem IsInteger.signed_bounds
    (integer : scalar.IsInteger)
    (signed : scalar.kind = .sint)
    (normalized : scalar.Normalized number) : -2 ^ 63 ≤ number ∧ number < 2 ^ 63 := by
  have bounds := normalized_iff.1 normalized
  unfold least bound at bounds
  rw [signed] at bounds
  rcases integer.2 with width | width | width | width <;>
    · simp only [modulus, width] at bounds
      omega

theorem IsInteger.unsigned_bounds
    (integer : scalar.IsInteger)
    (unsigned : scalar.kind = .uint)
    (normalized : scalar.Normalized number) : 0 ≤ number ∧ number < 2 ^ 64 := by
  have bounds := normalized_iff.1 normalized
  unfold least bound at bounds
  rw [unsigned] at bounds
  rcases integer.2 with width | width | width | width <;>
    · simp only [modulus, width] at bounds
      omega

end Scalar

namespace Machine

/-! ## Words -/

section Words

variable (width : Nat) (left right : Int)

theorem ofNat_ldiff (left right : Nat) :
    BitVec.ofNat width (Nat.ldiff left right) =
      BitVec.ofNat width left &&& ~~~BitVec.ofNat width right := by
  refine BitVec.eq_of_getLsbD_eq fun i inside => ?_
  rw [BitVec.getLsbD_and, BitVec.getLsbD_not, BitVec.getLsbD_ofNat, BitVec.getLsbD_ofNat,
    BitVec.getLsbD_ofNat, Nat.testBit_ldiff]
  simp [inside]

theorem ofInt_land :
    BitVec.ofInt width (Int.land left right) =
      BitVec.ofInt width left &&& BitVec.ofInt width right := by
  cases left <;> cases right <;>
    simp [Int.land, ofNat_ldiff, BitVec.and_comm, BitVec.not_or]

theorem ofInt_lor :
    BitVec.ofInt width (Int.lor left right) =
      BitVec.ofInt width left ||| BitVec.ofInt width right := by
  cases left <;> cases right <;>
    simp [Int.lor, ofNat_ldiff, BitVec.not_and, BitVec.or_comm]

theorem ofInt_xor :
    BitVec.ofInt width (Int.xor left right) =
      BitVec.ofInt width left ^^^ BitVec.ofInt width right := by
  cases left <;> cases right <;> ext <;> simp [Int.xor]

theorem ofInt_neg_sub_one : BitVec.ofInt width (-left - 1) = ~~~BitVec.ofInt width left := by
  cases left with
  | ofNat number =>
      have flipped : -Int.ofNat number - 1 = Int.negSucc number := by
        rw [Int.negSucc_eq, Int.ofNat_eq_natCast]
        omega
      rw [flipped]
      simp
  | negSucc number =>
      have flipped : -Int.negSucc number - 1 = number := by
        rw [Int.negSucc_eq]
        omega
      rw [flipped]
      simp

theorem ofInt_mul_two_pow (count : Nat) :
    BitVec.ofInt width (left * 2 ^ count) = BitVec.ofInt width left <<< count := by
  have power : BitVec.ofInt width (2 ^ count) = BitVec.twoPow width count := by
    have cast : ((2 ^ count : Nat) : Int) = 2 ^ count := by push_cast; rfl
    rw [← cast, BitVec.ofInt_natCast]
    apply BitVec.eq_of_toNat_eq
    rw [BitVec.toNat_ofNat, BitVec.toNat_twoPow]
  rw [BitVec.shiftLeft_eq_mul_twoPow, BitVec.ofInt_mul, power]

/-- The count of a shift: the six low bits of a word are the integer modulo 64. -/
theorem toNat_ofInt_and_63 :
    (BitVec.ofInt 64 right &&& 63#64).toNat = (right % 64).toNat := by
  rw [BitVec.toNat_and, BitVec.toNat_ofInt]
  exact (Nat.and_two_pow_sub_one_eq_mod _ 6).trans (by omega)

theorem toNat_ofInt_and_63_smod :
    ((BitVec.ofInt 64 right &&& 63#64).smod 64#64).toNat = (right % 64).toNat := by
  have count := toNat_ofInt_and_63 right
  have positive : (BitVec.ofInt 64 right &&& 63#64).msb = false :=
    BitVec.msb_eq_false_iff_two_mul_lt.2 (by omega)
  rw [BitVec.smod_eq, positive, ← count]
  have small : (BitVec.ofInt 64 right &&& 63#64).toNat < 64 := by omega
  exact Nat.mod_eq_of_lt small

theorem toBitVec_ofInt (number : Int) :
    (UInt64.ofInt number).toBitVec = BitVec.ofInt 64 number := by
  apply BitVec.eq_of_toNat_eq
  simp only [UInt64.ofInt, UInt64.toBitVec_ofNat', BitVec.toNat_ofNat, BitVec.toNat_ofInt]
  omega

end Words

/-! ## Bringing words to a width -/

/-- The representative around zero for a narrow width is one for the width of a word too. -/
theorem bmod_bmod_word {width : Nat} (positive : 0 < width) (narrow : width ≤ 8) (number : Int) :
    Int.bmod (Int.bmod number (2 ^ (8 * width))) (2 ^ 64) = Int.bmod number (2 ^ (8 * width)) := by
  have power : (2 : Nat) ^ (8 * width) ≤ 2 ^ 64 := Nat.pow_le_pow_right (by decide) (by omega)
  have nonzero : 0 < (2 : Nat) ^ (8 * width) := Nat.two_pow_pos _
  have low := @Int.le_bmod number _ nonzero
  have high := @Int.bmod_lt number _ nonzero
  exact Int.bmod_eq_of_le (by omega) (by omega)

theorem wrapInt_ofInt
    {width : Nat}
    (supported : width = 1 ∨ width = 2 ∨ width = 4 ∨ width = 8)
    (number : Int) :
    wrapInt width (Int64.ofInt number) = Int64.ofInt (Int.bmod number (2 ^ (8 * width))) := by
  apply Int64.toInt.inj
  rw [Int64.toInt_ofInt, show Int64.size = 2 ^ 64 from rfl, bmod_bmod_word (by omega) (by omega)]
  rcases supported with rfl | rfl | rfl | rfl
  · rw [wrapInt, Int8.toInt_toInt64, Int64.toInt_toInt8, Int64.toInt_ofInt,
      Int.bmod_bmod_of_dvd (by decide)]
  · rw [wrapInt, Int16.toInt_toInt64, Int64.toInt_toInt16, Int64.toInt_ofInt,
      Int.bmod_bmod_of_dvd (by decide)]
  · rw [wrapInt, Int32.toInt_toInt64, Int64.toInt_toInt32, Int64.toInt_ofInt,
      Int.bmod_bmod_of_dvd (by decide)]
  · exact Int64.toInt_ofInt

theorem toNat_ofInt (number : Int) :
    (UInt64.ofInt number).toNat = (number % 2 ^ 64).toNat := by
  rw [← UInt64.toNat_toBitVec, toBitVec_ofInt, BitVec.toNat_ofInt]
  rfl

theorem wrapUInt_ofInt
    {width : Nat}
    (supported : width = 1 ∨ width = 2 ∨ width = 4 ∨ width = 8)
    (number : Int) :
    wrapUInt width (UInt64.ofInt number) = UInt64.ofInt (number % (2 ^ (8 * width) : Nat)) := by
  apply UInt64.toNat.inj
  rcases supported with rfl | rfl | rfl | rfl
  · simp [wrapUInt, toNat_ofInt]
    omega
  · simp [wrapUInt, toNat_ofInt]
    omega
  · simp [wrapUInt, toNat_ofInt]
    omega
  · change (UInt64.ofInt number).toNat = _
    rw [toNat_ofInt, toNat_ofInt]
    omega

/-! ## Operations on words -/

/-- The exact result of a unary operation on an integer. -/
def exactUnary? : ArithmeticOp → Option (Int → Int)
  | .plus => some fun number => number
  | .negate => some fun number => -number
  | .bitNot => some fun number => -number - 1
  | .abs => some fun number => number.natAbs
  | _ => none

/--
The exact result of a binary operation on integers: division truncates, a division by zero
gives zero, and shifts take the count modulo 64.
-/
def exactBinary? : ArithmeticOp → Option (Int → Int → Int)
  | .add => some fun left right => left + right
  | .sub => some fun left right => left - right
  | .mul => some fun left right => left * right
  | .div => some fun left right => if right = 0 then 0 else left.tdiv right
  | .mod => some fun left right => if right = 0 then 0 else left.tmod right
  | .bitAnd => some Int.land
  | .bitOr => some Int.lor
  | .bitXor => some Int.xor
  | .shiftLeft => some fun left right => left * 2 ^ (right % 64).toNat
  | .shiftRight => some fun left right => left / 2 ^ (right % 64).toNat
  | .min => some min
  | .max => some max
  | _ => none

/-- The exact answer of a comparison of integers. -/
def exactRelation? : ArithmeticOp → Option (Int → Int → Bool)
  | .less => some fun left right => decide (left < right)
  | .greater => some fun left right => decide (right < left)
  | .lessEqual => some fun left right => decide (left ≤ right)
  | .greaterEqual => some fun left right => decide (right ≤ left)
  | .equal => some fun left right => decide (left = right)
  | .notEqual => some fun left right => decide (left ≠ right)
  | _ => none

section Signed

variable {number left right : Int}

theorem toInt_ofInt_of_bounds (bounds : -2 ^ 63 ≤ number ∧ number < 2 ^ 63) :
    (Int64.ofInt number).toInt = number :=
  Int64.toInt_ofInt_of_le bounds.1 bounds.2

/-- The count of a shift of a signed word. -/
theorem toNat_signed_count (number : Int) :
    ((Int64.ofInt number &&& 63).toBitVec.smod 64).toNat = (number % 64).toNat := by
  rw [Int64.toBitVec_and, Int64.toBitVec_ofInt]
  exact toNat_ofInt_and_63_smod number

theorem signed_shiftLeft (left right : Int) :
    Int64.ofInt (left * 2 ^ (right % 64).toNat) =
      Int64.ofInt left <<< (Int64.ofInt right &&& 63) := by
  apply Int64.toBitVec.inj
  rw [Int64.toBitVec_shiftLeft, BitVec.shiftLeft_eq', toNat_signed_count,
    Int64.toBitVec_ofInt, Int64.toBitVec_ofInt, ofInt_mul_two_pow]

theorem signed_shiftRight (bounds : -2 ^ 63 ≤ left ∧ left < 2 ^ 63) (right : Int) :
    Int64.ofInt (left / 2 ^ (right % 64).toNat) =
      Int64.ofInt left >>> (Int64.ofInt right &&& 63) := by
  have shifted : (Int64.ofInt left >>> (Int64.ofInt right &&& 63)).toInt =
      left / 2 ^ (right % 64).toNat := by
    rw [← Int64.toInt_toBitVec, Int64.toBitVec_shiftRight, BitVec.sshiftRight',
      toNat_signed_count, BitVec.toInt_sshiftRight, Int64.toInt_toBitVec,
      toInt_ofInt_of_bounds bounds, Int.shiftRight_eq_div_pow]
    push_cast
    rfl
  rw [← shifted, Int64.ofInt_toInt]

theorem unary?_int
    {op : ArithmeticOp}
    {exact : Int → Int}
    (bounds : -2 ^ 63 ≤ number ∧ number < 2 ^ 63)
    (found : exactUnary? op = some exact) :
    unary? op (.int (Int64.ofInt number)) = some (.int (Int64.ofInt (exact number))) := by
  cases op with
  | plus =>
      cases found
      rfl
  | negate =>
      cases found
      rw [unary?, Int64.ofInt_neg]
  | bitNot =>
      cases found
      rw [unary?]
      refine congrArg (fun word => some (Datum.int word)) (Int64.toBitVec.inj ?_)
      rw [Int64.toBitVec_not, Int64.toBitVec_ofInt, Int64.toBitVec_ofInt, ofInt_neg_sub_one]
  | abs =>
      cases found
      have sign : Int64.ofInt number < 0 ↔ number < 0 := by
        rw [Int64.lt_iff_toInt_lt, toInt_ofInt_of_bounds bounds, Int64.toInt_zero]
      simp only [unary?, sign]
      split
      · rename_i negative
        rw [Int.ofNat_natAbs_of_nonpos negative.le, Int64.ofInt_neg]
      · rename_i nonnegative
        rw [Int.natAbs_of_nonneg (by omega)]
  | _ => cases found

theorem intOp?_ofInt
    {op : ArithmeticOp}
    {exact : Int → Int → Int}
    (leftBounds : -2 ^ 63 ≤ left ∧ left < 2 ^ 63)
    (rightBounds : -2 ^ 63 ≤ right ∧ right < 2 ^ 63)
    (found : exactBinary? op = some exact) :
    intOp? op (Int64.ofInt left) (Int64.ofInt right) = some (Int64.ofInt (exact left right)) := by
  have leftValue := toInt_ofInt_of_bounds leftBounds
  have rightValue := toInt_ofInt_of_bounds rightBounds
  have leftLe : left ≤ Int64.maxValue.toInt := by
    rw [Int64.toInt_maxValue]
    omega
  have rightLe : right ≤ Int64.maxValue.toInt := by
    rw [Int64.toInt_maxValue]
    omega
  have order : Int64.ofInt left ≤ Int64.ofInt right ↔ left ≤ right := by
    rw [Int64.le_iff_toInt_le, leftValue, rightValue]
  have zero : Int64.ofInt right = 0 ↔ right = 0 := by
    rw [← Int64.toInt_inj, rightValue, Int64.toInt_zero]
  cases op with
  | add =>
      cases found
      rw [intOp?, Int64.ofInt_add]
  | sub =>
      cases found
      rw [intOp?, Int64.ofInt_sub]
  | mul =>
      cases found
      rw [intOp?, Int64.ofInt_mul]
  | div =>
      cases found
      dsimp only
      rw [intOp?]
      split
      · rename_i divisor
        rw [divisor]
        exact congrArg some Int64.div_zero
      · rw [Int64.ofInt_tdiv leftBounds.1 leftLe rightBounds.1 rightLe]
  | mod =>
      cases found
      dsimp only
      simp only [intOp?, zero]
      split
      · rfl
      · rw [Int64.ofInt_tmod leftBounds.1 leftLe rightBounds.1 rightLe]
  | bitAnd =>
      cases found
      refine congrArg some (Int64.toBitVec.inj ?_)
      rw [Int64.toBitVec_and, Int64.toBitVec_ofInt, Int64.toBitVec_ofInt, Int64.toBitVec_ofInt,
        ofInt_land]
  | bitOr =>
      cases found
      refine congrArg some (Int64.toBitVec.inj ?_)
      rw [Int64.toBitVec_or, Int64.toBitVec_ofInt, Int64.toBitVec_ofInt, Int64.toBitVec_ofInt,
        ofInt_lor]
  | bitXor =>
      cases found
      refine congrArg some (Int64.toBitVec.inj ?_)
      rw [Int64.toBitVec_xor, Int64.toBitVec_ofInt, Int64.toBitVec_ofInt, Int64.toBitVec_ofInt,
        ofInt_xor]
  | shiftLeft =>
      cases found
      rw [intOp?, signed_shiftLeft]
  | shiftRight =>
      cases found
      rw [intOp?, signed_shiftRight leftBounds]
  | min =>
      cases found
      simp only [intOp?, order, min_def]
      split <;> rfl
  | max =>
      cases found
      simp only [intOp?, order, max_def]
      split <;> rfl
  | _ => cases found

end Signed

section Unsigned

variable {number left right : Int}

theorem toNat_ofInt_of_bounds (bounds : 0 ≤ number ∧ number < 2 ^ 64) :
    ((UInt64.ofInt number).toNat : Int) = number := by
  rw [toNat_ofInt]
  omega

theorem ofInt_natCast (number : Nat) : UInt64.ofInt number = UInt64.ofNat number :=
  UInt64.toBitVec_inj.1 (by rw [toBitVec_ofInt, BitVec.ofInt_natCast, UInt64.toBitVec_ofNat'])

theorem unsigned_tdiv
    (leftBounds : 0 ≤ left ∧ left < 2 ^ 64)
    (rightBounds : 0 ≤ right ∧ right < 2 ^ 64) :
    UInt64.ofInt (left.tdiv right) = UInt64.ofInt left / UInt64.ofInt right := by
  obtain ⟨left, rfl⟩ := Int.eq_ofNat_of_zero_le leftBounds.1
  obtain ⟨right, rfl⟩ := Int.eq_ofNat_of_zero_le rightBounds.1
  rw [← Int.ofNat_tdiv, ofInt_natCast, ofInt_natCast, ofInt_natCast,
    UInt64.ofNat_div (by omega) (by omega)]

theorem unsigned_tmod
    (leftBounds : 0 ≤ left ∧ left < 2 ^ 64)
    (rightBounds : 0 ≤ right ∧ right < 2 ^ 64) :
    UInt64.ofInt (left.tmod right) = UInt64.ofInt left % UInt64.ofInt right := by
  obtain ⟨left, rfl⟩ := Int.eq_ofNat_of_zero_le leftBounds.1
  obtain ⟨right, rfl⟩ := Int.eq_ofNat_of_zero_le rightBounds.1
  rw [← Int.ofNat_tmod, ofInt_natCast, ofInt_natCast, ofInt_natCast,
    UInt64.ofNat_mod (by omega) (by omega)]

/-- The count of a shift of an unsigned word. -/
theorem toNat_unsigned_count (number : Int) :
    ((UInt64.ofInt number &&& 63).toBitVec % 64).toNat = (number % 64).toNat := by
  rw [UInt64.toBitVec_and, toBitVec_ofInt, BitVec.toNat_umod]
  have count := toNat_ofInt_and_63 number
  have small : (BitVec.ofInt 64 number &&& 63#64).toNat < 64 := by omega
  exact (Nat.mod_eq_of_lt small).trans count

theorem unsigned_shiftLeft (left right : Int) :
    UInt64.ofInt (left * 2 ^ (right % 64).toNat) =
      UInt64.ofInt left <<< (UInt64.ofInt right &&& 63) := by
  apply UInt64.toBitVec_inj.1
  rw [UInt64.toBitVec_shiftLeft, BitVec.shiftLeft_eq', toNat_unsigned_count,
    toBitVec_ofInt, toBitVec_ofInt, ofInt_mul_two_pow]

theorem unsigned_shiftRight (bounds : 0 ≤ left ∧ left < 2 ^ 64) (right : Int) :
    UInt64.ofInt (left / 2 ^ (right % 64).toNat) =
      UInt64.ofInt left >>> (UInt64.ofInt right &&& 63) := by
  have shifted : ((UInt64.ofInt left >>> (UInt64.ofInt right &&& 63)).toNat : Int) =
      left / 2 ^ (right % 64).toNat := by
    rw [← UInt64.toNat_toBitVec, UInt64.toBitVec_shiftRight, BitVec.ushiftRight_eq',
      BitVec.toNat_ushiftRight, toNat_unsigned_count, UInt64.toNat_toBitVec,
      Nat.shiftRight_eq_div_pow]
    push_cast
    rw [toNat_ofInt_of_bounds bounds]
  rw [← shifted, ofInt_natCast, UInt64.ofNat_toNat]

theorem unary?_uint
    {op : ArithmeticOp}
    {exact : Int → Int}
    (bounds : 0 ≤ number ∧ number < 2 ^ 64)
    (found : exactUnary? op = some exact) :
    unary? op (.uint (UInt64.ofInt number)) = some (.uint (UInt64.ofInt (exact number))) := by
  cases op with
  | plus =>
      cases found
      rfl
  | negate =>
      cases found
      rw [unary?, UInt64.ofInt_neg]
  | bitNot =>
      cases found
      refine congrArg (fun word => some (Datum.uint word)) (UInt64.toBitVec_inj.1 ?_)
      rw [UInt64.toBitVec_not, toBitVec_ofInt, toBitVec_ofInt, ofInt_neg_sub_one]
  | abs =>
      cases found
      dsimp only
      rw [unary?, Int.natAbs_of_nonneg bounds.1]
  | _ => cases found

theorem uintOp?_ofInt
    {op : ArithmeticOp}
    {exact : Int → Int → Int}
    (leftBounds : 0 ≤ left ∧ left < 2 ^ 64)
    (rightBounds : 0 ≤ right ∧ right < 2 ^ 64)
    (found : exactBinary? op = some exact) :
    uintOp? op (UInt64.ofInt left) (UInt64.ofInt right) =
      some (UInt64.ofInt (exact left right)) := by
  have leftValue := toNat_ofInt_of_bounds leftBounds
  have rightValue := toNat_ofInt_of_bounds rightBounds
  have order : UInt64.ofInt left ≤ UInt64.ofInt right ↔ left ≤ right := by
    rw [UInt64.le_iff_toNat_le]
    omega
  have zero : UInt64.ofInt right = 0 ↔ right = 0 := by
    rw [← UInt64.toNat_inj, UInt64.toNat_zero]
    omega
  cases op with
  | add =>
      cases found
      rw [uintOp?, UInt64.ofInt_add]
  | sub =>
      cases found
      dsimp only
      rw [uintOp?, Int.sub_eq_add_neg, UInt64.ofInt_add, UInt64.ofInt_neg, UInt64.sub_eq_add_neg]
  | mul =>
      cases found
      rw [uintOp?, UInt64.ofInt_mul]
  | div =>
      cases found
      dsimp only
      rw [uintOp?]
      split
      · rename_i divisor
        rw [divisor]
        exact congrArg some UInt64.div_zero
      · rw [unsigned_tdiv leftBounds rightBounds]
  | mod =>
      cases found
      dsimp only
      simp only [uintOp?, zero]
      split
      · rfl
      · rw [unsigned_tmod leftBounds rightBounds]
  | bitAnd =>
      cases found
      refine congrArg some (UInt64.toBitVec_inj.1 ?_)
      rw [UInt64.toBitVec_and, toBitVec_ofInt, toBitVec_ofInt,
        toBitVec_ofInt, ofInt_land]
  | bitOr =>
      cases found
      refine congrArg some (UInt64.toBitVec_inj.1 ?_)
      rw [UInt64.toBitVec_or, toBitVec_ofInt, toBitVec_ofInt,
        toBitVec_ofInt, ofInt_lor]
  | bitXor =>
      cases found
      refine congrArg some (UInt64.toBitVec_inj.1 ?_)
      rw [UInt64.toBitVec_xor, toBitVec_ofInt, toBitVec_ofInt,
        toBitVec_ofInt, ofInt_xor]
  | shiftLeft =>
      cases found
      rw [uintOp?, unsigned_shiftLeft]
  | shiftRight =>
      cases found
      rw [uintOp?, unsigned_shiftRight leftBounds]
  | min =>
      cases found
      simp only [uintOp?, order, min_def]
      split <;> rfl
  | max =>
      cases found
      simp only [uintOp?, order, max_def]
      split <;> rfl
  | _ => cases found

end Unsigned

end Machine

end ShaderIR
