import ShaderIR.Proofs.Machine.Follows
import ShaderIR.Proofs.Machine.Words

/-!
# Integer evaluation

Arithmetic and conversions work scalar by scalar on the lanes of a value: a single scalar, or
the scalars of a vector.  On integers of a fixed width, every operation that has a meaning for
them gives the normalized representative of the exact result, and no operation on them gets
stuck, not even a division by zero or a most negative integer that is divided by minus one.
Constants are decoded to representatives as well.
-/

namespace ShaderIR.Machine

open Exec

/-! ## Lanes -/

/-- The scalars of a value: a single one, or those of a vector. -/
inductive Lanes (α : Type) where
  | single (lane : α)
  | vector (lanes : List α)

namespace Lanes

variable {α β γ : Type}

/-- All scalars of a value. -/
def toList : Lanes α → List α
  | .single lane => [lane]
  | .vector lanes => lanes

/-- The value that has a given datum for every scalar. -/
def datum (read : α → Datum) : Lanes α → Datum
  | .single lane => read lane
  | .vector lanes => .aggregate (lanes.map read)

/-- Change every scalar. -/
def map (change : α → β) : Lanes α → Lanes β
  | .single lane => .single (change lane)
  | .vector lanes => .vector (lanes.map change)

/-- Two operands go together, unless they are vectors of different lengths. -/
def Fits : Lanes α → Lanes β → Prop
  | .vector lefts, .vector rights => lefts.length = rights.length
  | _, _ => True

/-- Combine two operands; a single scalar is paired with every scalar of a vector. -/
def zipWith (combine : α → β → γ) : Lanes α → Lanes β → Lanes γ
  | .single left, .single right => .single (combine left right)
  | .single left, .vector rights => .vector (rights.map (combine left))
  | .vector lefts, .single right => .vector (lefts.map (combine · right))
  | .vector lefts, .vector rights => .vector (List.zipWith combine lefts rights)

end Lanes

/-- The datum is no aggregate. -/
def IsFlat (datum : Datum) : Prop := ∀ elements, datum ≠ .aggregate elements

theorem isFlat_datum (scalar : Scalar) (number : Int) : IsFlat (scalar.datum number) := by
  intro elements
  unfold Scalar.datum
  split <;> exact Datum.noConfusion

section ElementByElement

variable {α β γ : Type} {read : α → Datum} {read' : β → Datum} {result : γ → Datum}

theorem mapScalars_of_isFlat {apply : Datum → Exec Datum} {datum : Datum} (flat : IsFlat datum) :
    mapScalars apply datum = apply datum := by
  cases datum with
  | aggregate elements => exact absurd rfl (flat elements)
  | _ => simp only [mapScalars]

theorem mapScalarsAll_of_flat
    (flat : ∀ lane, IsFlat (read lane))
    {apply : Datum → Exec Datum}
    {change : α → γ}
    {lanes : List α}
    (applies : ∀ lane ∈ lanes, apply (read lane) = pure (result (change lane))) :
    mapScalarsAll apply (lanes.map read) = pure ((lanes.map change).map result) := by
  induction lanes with
  | nil => rfl
  | cons lane rest induction =>
      have first := applies lane List.mem_cons_self
      have others := induction fun lane member => applies lane (List.mem_cons_of_mem _ member)
      simp only [List.map_cons, mapScalarsAll, mapScalars_of_isFlat (flat lane), first, others,
        pure_bind]

/-- An operation that gives a result for every scalar gives them for the whole value. -/
theorem mapScalars_lanes
    (flat : ∀ lane, IsFlat (read lane))
    {apply : Datum → Exec Datum}
    {change : α → γ}
    {lanes : Lanes α}
    (applies : ∀ lane ∈ lanes.toList, apply (read lane) = pure (result (change lane))) :
    mapScalars apply (lanes.datum read) = pure ((lanes.map change).datum result) := by
  cases lanes with
  | single lane => exact (mapScalars_of_isFlat (flat lane)).trans (applies lane List.mem_cons_self)
  | vector lanes =>
      have all : mapScalarsAll apply (lanes.map read) = pure ((lanes.map change).map result) :=
        mapScalarsAll_of_flat flat applies
      simp only [Lanes.datum, mapScalars, all, pure_bind, Lanes.map]

theorem zipScalars_of_isFlat
    {apply : Datum → Datum → Exec Datum}
    {left right : Datum}
    (flat : IsFlat left) : zipScalars apply left right = mapScalars (apply left) right := by
  cases left with
  | aggregate elements => exact absurd rfl (flat elements)
  | _ => simp only [zipScalars]

theorem zipScalars_aggregate_left
    {apply : Datum → Datum → Exec Datum}
    {lefts : List Datum}
    {right : Datum}
    (flat : IsFlat right) :
    zipScalars apply (.aggregate lefts) right =
      (do return .aggregate (← mapScalarsAll (apply · right) lefts)) := by
  cases right with
  | aggregate elements => exact absurd rfl (flat elements)
  | _ => simp only [zipScalars]

theorem zipScalarsAll_of_flat
    (flat : ∀ lane, IsFlat (read lane))
    (flat' : ∀ lane, IsFlat (read' lane))
    {apply : Datum → Datum → Exec Datum}
    {combine : α → β → γ}
    {lefts : List α}
    {rights : List β}
    (sameLength : lefts.length = rights.length)
    (applies : ∀ left ∈ lefts, ∀ right ∈ rights,
      apply (read left) (read' right) = pure (result (combine left right))) :
    zipScalarsAll apply (lefts.map read) (rights.map read') =
      pure ((List.zipWith combine lefts rights).map result) := by
  induction lefts generalizing rights with
  | nil =>
      rw [List.map_nil, zipScalarsAll]
      rfl
  | cons left lefts induction =>
      cases rights with
      | nil => cases sameLength
      | cons right rights =>
          have first := applies left List.mem_cons_self right List.mem_cons_self
          have others := induction (Nat.succ.inj sameLength) fun left member right member' =>
            applies left (List.mem_cons_of_mem _ member) right (List.mem_cons_of_mem _ member')
          simp only [List.map_cons, zipScalarsAll, zipScalars_of_isFlat (flat left),
            mapScalars_of_isFlat (flat' right), first, others, pure_bind, List.zipWith_cons_cons]

/-- An operation that gives a result for all pairs of scalars gives them for whole operands. -/
theorem zipScalars_lanes
    (flat : ∀ lane, IsFlat (read lane))
    (flat' : ∀ lane, IsFlat (read' lane))
    {apply : Datum → Datum → Exec Datum}
    {combine : α → β → γ}
    {lefts : Lanes α}
    {rights : Lanes β}
    (fits : lefts.Fits rights)
    (applies : ∀ left ∈ lefts.toList, ∀ right ∈ rights.toList,
      apply (read left) (read' right) = pure (result (combine left right))) :
    zipScalars apply (lefts.datum read) (rights.datum read') =
      pure ((lefts.zipWith combine rights).datum result) := by
  cases lefts with
  | single left =>
      rw [Lanes.datum, zipScalars_of_isFlat (flat left),
        mapScalars_lanes flat' (applies left List.mem_cons_self)]
      cases rights <;> rfl
  | vector lefts =>
      cases rights with
      | single right =>
          have each : ∀ left ∈ lefts,
              apply (read left) (read' right) = pure (result (combine left right)) :=
            fun left member => applies left member right List.mem_cons_self
          have all : mapScalarsAll (apply · (read' right)) (lefts.map read) =
              pure ((lefts.map (combine · right)).map result) := mapScalarsAll_of_flat flat each
          simp only [Lanes.datum, zipScalars_aggregate_left (flat' right), all, pure_bind,
            Lanes.zipWith]
      | vector rights =>
          simp only [Lanes.datum, zipScalars, zipScalarsAll_of_flat flat flat' fits applies,
            pure_bind, Lanes.zipWith]

end ElementByElement

/-! ## Scalars -/

section Scalars

variable {scalar target : Scalar} {number left right : Int}

/-- Bringing an integer to the width of its type gives its representative. -/
theorem normalize_datum (integer : scalar.IsInteger) (number : Int) :
    normalize scalar (scalar.datum number) = scalar.datum (scalar.representative number) := by
  rcases integer.datum_cases with ⟨kind, datum⟩ | ⟨kind, datum⟩
  · rw [datum, datum, normalize, wrapInt_ofInt integer.2, Scalar.representative, kind]
    rfl
  · rw [datum, datum, normalize, wrapUInt_ofInt integer.2, Scalar.representative, kind]
    rfl

theorem unaryScalar_datum
    (integer : scalar.IsInteger)
    (program : Store)
    {op : ArithmeticOp}
    {exact : Int → Int}
    (found : exactUnary? op = some exact)
    (normalized : scalar.Normalized number) :
    unaryScalar program op (scalar.datum number) = pure (scalar.datum (exact number)) := by
  rcases integer.datum_cases with ⟨kind, datum⟩ | ⟨kind, datum⟩
  · rw [datum, datum, unaryScalar,
      unary?_int (integer.signed_bounds kind normalized) found]
  · rw [datum, datum, unaryScalar,
      unary?_uint (integer.unsigned_bounds kind normalized) found]

/-- An operation with an integer result is no comparison. -/
theorem comparison?_of_exactBinary?
    {op : ArithmeticOp}
    {exact : Int → Int → Int}
    (found : exactBinary? op = some exact) : comparison? op = none := by
  cases op <;> first | rfl | cases found

theorem binaryScalar_datum
    (integer : scalar.IsInteger)
    (program : Store)
    {op : ArithmeticOp}
    {exact : Int → Int → Int}
    (found : exactBinary? op = some exact)
    (leftNormalized : scalar.Normalized left)
    (rightNormalized : scalar.Normalized right) :
    binaryScalar program op (scalar.datum left) (scalar.datum right) =
      pure (scalar.datum (exact left right)) := by
  have notComparison := comparison?_of_exactBinary? found
  rcases integer.datum_cases with ⟨kind, datum⟩ | ⟨kind, datum⟩
  · rw [datum, datum, datum]
    simp only [binaryScalar, notComparison, Option.map_some,
      intOp?_ofInt (integer.signed_bounds kind leftNormalized)
        (integer.signed_bounds kind rightNormalized) found]
  · rw [datum, datum, datum]
    simp only [binaryScalar, notComparison, Option.map_some,
      uintOp?_ofInt (integer.unsigned_bounds kind leftNormalized)
        (integer.unsigned_bounds kind rightNormalized) found]

/-- A comparison tests the order of the integers. -/
theorem comparison?_of_exactRelation?
    {op : ArithmeticOp}
    {exact : Int → Int → Bool}
    (found : exactRelation? op = some exact) :
    ∃ test, comparison? op = some test ∧
      ∀ left right : Int, test (compare left right) = exact left right := by
  have compares (left right : Int) :
      compare left right = if left < right then .lt else if left = right then .eq else .gt := rfl
  cases op <;> cases found <;> refine ⟨_, rfl, fun left right => ?_⟩ <;> rw [compares] <;> grind

theorem binaryScalar_relation
    (integer : scalar.IsInteger)
    (program : Store)
    {op : ArithmeticOp}
    {exact : Int → Int → Bool}
    (found : exactRelation? op = some exact)
    (leftNormalized : scalar.Normalized left)
    (rightNormalized : scalar.Normalized right) :
    binaryScalar program op (scalar.datum left) (scalar.datum right) =
      pure (.bool (exact left right)) := by
  obtain ⟨test, isComparison, agrees⟩ := comparison?_of_exactRelation? found
  rcases integer.datum_cases with ⟨kind, datum⟩ | ⟨kind, datum⟩
  · rw [datum, datum]
    simp only [binaryScalar, isComparison,
      toInt_ofInt_of_bounds (integer.signed_bounds kind leftNormalized),
      toInt_ofInt_of_bounds (integer.signed_bounds kind rightNormalized), agrees]
  · have cast (one other : Nat) : compare one other = compare (one : Int) (other : Int) := by
      simp only [Nat.compare_eq_ite_lt, Int.compare_eq_ite_lt, Int.ofNat_lt]
    rw [datum, datum]
    simp only [binaryScalar, isComparison, cast,
      toNat_ofInt_of_bounds (integer.unsigned_bounds kind leftNormalized),
      toNat_ofInt_of_bounds (integer.unsigned_bounds kind rightNormalized), agrees]

/-- An integer as a signed word, whatever its type. -/
theorem toInteger_datum (integer : scalar.IsInteger) (number : Int) :
    toInteger (scalar.datum number) = pure (Int64.ofInt number) := by
  rcases integer.datum_cases with ⟨-, datum⟩ | ⟨-, datum⟩
  · rw [datum, toInteger]
  · rw [datum, toInteger]
    exact congrArg pure (Int64.toBitVec.inj (toBitVec_ofInt number))

theorem toUInt64_ofInt (number : Int) : (Int64.ofInt number).toUInt64 = UInt64.ofInt number :=
  UInt64.toBitVec_inj.1 (toBitVec_ofInt number).symm

theorem toInt64_ofInt (number : Int) : (UInt64.ofInt number).toInt64 = Int64.ofInt number :=
  Int64.toBitVec.inj (toBitVec_ofInt number)

/-- A conversion by value gives the representative in the target. -/
theorem convert_datum
    (integer : scalar.IsInteger)
    (targetInteger : target.IsInteger)
    (number : Int) :
    convert target (scalar.datum number) =
      pure (target.datum (target.representative number)) := by
  have word := toInteger_datum integer number
  rw [← normalize_datum targetInteger]
  unfold convert
  rcases targetInteger.datum_cases with ⟨kind, datum⟩ | ⟨kind, datum⟩
  · rw [kind, datum]
    simp only [word, pure_bind]
  · rw [kind, datum]
    rcases integer.datum_cases with ⟨-, source⟩ | ⟨-, source⟩ <;>
      · rw [source] at word ⊢
        simp only [word, pure_bind, toUInt64_ofInt]

theorem toBits_datum (integer : scalar.IsInteger) (source : Option Scalar) (number : Int) :
    toBits source (scalar.datum number) = pure (UInt64.ofInt number) := by
  have word := toInteger_datum integer number
  rcases integer.datum_cases with ⟨-, datum⟩ | ⟨-, datum⟩ <;>
    · rw [datum] at word ⊢
      simp only [toBits, word, pure_bind, toUInt64_ofInt]

/-- The bits of an integer stand for its representative in the target. -/
theorem ofBits_ofInt (targetInteger : target.IsInteger) (number : Int) :
    ofBits target (UInt64.ofInt number) = target.datum (target.representative number) := by
  rw [← normalize_datum targetInteger]
  rcases targetInteger.datum_cases with ⟨kind, datum⟩ | ⟨kind, datum⟩
  · rw [ofBits, kind, datum]
    simp only [toInt64_ofInt]
  · rw [ofBits, kind, datum]

/-- The word that the bytes of a payload hold. -/
theorem decodeInt?_encode (integer : scalar.IsInteger) (bits : UInt64) :
    scalar.decodeInt? (scalar.encode bits) =
      some (Int64.ofInt (scalar.representative bits.toNat)) := by
  have width : scalar.readWidth = scalar.width := by
    rcases integer.2 with width | width | width | width <;>
      simp [Scalar.readWidth, width]
  have power : Nat.pow 256 scalar.width = scalar.modulus := by
    rw [Scalar.modulus, pow_mul]
    rfl
  have word : ofLittleEndian ((scalar.encode bits).take scalar.width) =
      bits.toNat % scalar.modulus := by
    rw [List.take_of_length_le (by simp), Scalar.encode, ofLittleEndian_littleEndian, power]
  unfold Scalar.decodeInt?
  rw [width]
  dsimp only
  rw [if_neg (by simp), word, power]
  unfold Scalar.representative
  rcases integer.1 with kind | kind <;> rw [kind]
  · dsimp only
    rw [Int.natCast_mod, Int.emod_bmod]
  · dsimp only
    rw [← Int64.ofInt_eq_ofNat, Int.natCast_mod]

/-- A constant stands for the representative of its bits. -/
theorem scalarDatum?_encode (integer : scalar.IsInteger) (bits : UInt64) :
    scalarDatum? scalar (scalar.encode bits) =
      some (scalar.datum (scalar.representative bits.toNat)) := by
  rcases integer.datum_cases with ⟨kind, datum⟩ | ⟨kind, datum⟩
  · rw [scalarDatum?, kind, datum]
    simp only [decodeInt?_encode integer, Option.map_some]
  · rw [scalarDatum?, kind, datum]
    simp only [decodeInt?_encode integer, Option.map_some, toUInt64_ofInt]

end Scalars

/-! ## Values -/

section Values

variable {scalar target : Scalar} {type : Ty}

theorem normalizeAll_eq_map (scalar : Scalar) (elements : List Datum) :
    normalizeAll scalar elements = elements.map (normalize scalar) := by
  induction elements with
  | nil => rfl
  | cons element rest induction => rw [normalizeAll, induction, List.map_cons]

/-- The results of an operation are brought to the width of its type lane by lane. -/
theorem normalizeTo_lanes
    (integer : scalar.IsInteger)
    (component : type.componentScalar? = some scalar)
    (lanes : Lanes Int) :
    normalizeTo (some type) (lanes.datum scalar.datum) =
      pure ((lanes.map scalar.representative).datum scalar.datum) := by
  unfold normalizeTo
  rw [Exec.demand, pure_bind, component]
  cases lanes with
  | single number => simp only [Lanes.datum, Lanes.map, normalize_datum integer]
  | vector numbers =>
      simp only [Lanes.datum, Lanes.map, normalize, normalizeAll_eq_map, List.map_map,
        Function.comp_def, normalize_datum integer]

/-- Truth values have no width. -/
theorem normalizeTo_bool (type : Ty) (lanes : Lanes Bool) :
    normalizeTo (some type) (lanes.datum .bool) = pure (lanes.datum .bool) := by
  unfold normalizeTo
  rw [Exec.demand, pure_bind]
  split
  · cases lanes with
    | single truth => simp only [Lanes.datum, normalize]
    | vector truths =>
        simp only [Lanes.datum, normalize, normalizeAll_eq_map, List.map_map, Function.comp_def]
  · rfl

/-- The operations on the scalars of one operand. -/
def TakesOne (op : ArithmeticOp) : Prop :=
  op ∈ [.plus, .negate, .logicNot, .bitNot, .abs, .sqrt, .floor]

/-- The operations that choose, take out and put together what there is. -/
def Arranges (op : ArithmeticOp) : Prop :=
  op ∈ [.select, .extract, .insert, .aggregate]

theorem arithmetic_of_takesOne
    {op : ArithmeticOp}
    (takesOne : TakesOne op)
    (program : Store)
    (type : Option Ty)
    (operand : Datum) :
    arithmetic program type op [operand] =
      mapScalars (unaryScalar program op) operand >>= normalizeTo type := by
  cases op <;> first | rfl | simp [TakesOne] at takesOne

theorem arithmetic_of_takesTwo
    {op : ArithmeticOp}
    (takesTwo : ¬TakesOne op)
    (computes : ¬Arranges op)
    (program : Store)
    (type : Option Ty)
    (left right : Datum) :
    arithmetic program type op [left, right] =
      zipScalars (binaryScalar program op) left right >>= normalizeTo type := by
  cases op <;> first | rfl | simp [TakesOne, Arranges] at takesTwo computes

theorem takesOne_of_exactUnary?
    {op : ArithmeticOp}
    {exact : Int → Int}
    (found : exactUnary? op = some exact) : TakesOne op := by
  cases op <;> cases found <;> simp [TakesOne]

theorem takesTwo_of_exactBinary?
    {op : ArithmeticOp}
    {exact : Int → Int → Int}
    (found : exactBinary? op = some exact) : ¬TakesOne op ∧ ¬Arranges op := by
  cases op <;> cases found <;> simp [TakesOne, Arranges]

theorem takesTwo_of_exactRelation?
    {op : ArithmeticOp}
    {exact : Int → Int → Bool}
    (found : exactRelation? op = some exact) : ¬TakesOne op ∧ ¬Arranges op := by
  cases op <;> cases found <;> simp [TakesOne, Arranges]

theorem arithmetic_unary
    (integer : scalar.IsInteger)
    (program : Store)
    (component : type.componentScalar? = some scalar)
    {op : ArithmeticOp}
    {exact : Int → Int}
    (found : exactUnary? op = some exact)
    {lanes : Lanes Int}
    (normalized : ∀ number ∈ lanes.toList, scalar.Normalized number) :
    arithmetic program (some type) op [lanes.datum scalar.datum] =
      pure (((lanes.map exact).map scalar.representative).datum scalar.datum) := by
  have results : mapScalars (unaryScalar program op) (lanes.datum scalar.datum) =
      pure ((lanes.map exact).datum scalar.datum) :=
    mapScalars_lanes (isFlat_datum scalar) fun number member =>
      unaryScalar_datum integer program found (normalized number member)
  rw [arithmetic_of_takesOne (takesOne_of_exactUnary? found), results, pure_bind,
    normalizeTo_lanes integer component]

theorem arithmetic_binary
    (integer : scalar.IsInteger)
    (program : Store)
    (component : type.componentScalar? = some scalar)
    {op : ArithmeticOp}
    {exact : Int → Int → Int}
    (found : exactBinary? op = some exact)
    {lefts rights : Lanes Int}
    (fits : lefts.Fits rights)
    (normalized : ∀ number ∈ lefts.toList, scalar.Normalized number)
    (normalized' : ∀ number ∈ rights.toList, scalar.Normalized number) :
    arithmetic program (some type) op [lefts.datum scalar.datum, rights.datum scalar.datum] =
      pure (((lefts.zipWith exact rights).map scalar.representative).datum scalar.datum) := by
  obtain ⟨takesTwo, computes⟩ := takesTwo_of_exactBinary? found
  have results : zipScalars (binaryScalar program op) (lefts.datum scalar.datum)
      (rights.datum scalar.datum) = pure ((lefts.zipWith exact rights).datum scalar.datum) :=
    zipScalars_lanes (isFlat_datum scalar) (isFlat_datum scalar) fits
      fun left member right member' => binaryScalar_datum integer program found
        (normalized left member) (normalized' right member')
  rw [arithmetic_of_takesTwo takesTwo computes, results, pure_bind,
    normalizeTo_lanes integer component]

theorem arithmetic_relation
    (integer : scalar.IsInteger)
    (program : Store)
    (type : Ty)
    {op : ArithmeticOp}
    {exact : Int → Int → Bool}
    (found : exactRelation? op = some exact)
    {lefts rights : Lanes Int}
    (fits : lefts.Fits rights)
    (normalized : ∀ number ∈ lefts.toList, scalar.Normalized number)
    (normalized' : ∀ number ∈ rights.toList, scalar.Normalized number) :
    arithmetic program (some type) op [lefts.datum scalar.datum, rights.datum scalar.datum] =
      pure ((lefts.zipWith exact rights).datum .bool) := by
  obtain ⟨takesTwo, computes⟩ := takesTwo_of_exactRelation? found
  have results : zipScalars (binaryScalar program op) (lefts.datum scalar.datum)
      (rights.datum scalar.datum) = pure ((lefts.zipWith exact rights).datum .bool) :=
    zipScalars_lanes (isFlat_datum scalar) (isFlat_datum scalar) fits
      fun left member right member' => binaryScalar_relation integer program found
        (normalized left member) (normalized' right member')
  rw [arithmetic_of_takesTwo takesTwo computes, results, pure_bind, normalizeTo_bool]

/-- A shift to the right, a minimum and a maximum stay within the representatives. -/
theorem normalized_of_exactBinary?
    {op : ArithmeticOp}
    {exact : Int → Int → Int}
    (member : op ∈ [.shiftRight, .min, .max])
    (found : exactBinary? op = some exact)
    {left right : Int}
    (leftNormalized : scalar.Normalized left)
    (rightNormalized : scalar.Normalized right) :
    scalar.Normalized (exact left right) := by
  rcases List.mem_cons.1 member with rfl | member
  · cases found
    exact leftNormalized.shiftRight _
  rcases List.mem_cons.1 member with rfl | member
  · cases found
    rcases min_choice left right with least | least <;> rw [least] <;> assumption
  cases List.mem_singleton.1 member
  cases found
  rcases max_choice left right with greatest | greatest <;> rw [greatest] <;> assumption

theorem Lanes.map_representative_map
    (sameWidth : target.width = scalar.width)
    {lanes : Lanes Int}
    (normalized : ∀ number ∈ lanes.toList, scalar.Normalized number) :
    (lanes.map target.representative).map scalar.representative = lanes := by
  have each : ∀ number ∈ lanes.toList,
      scalar.representative (target.representative number) = number := fun number member =>
    (Scalar.representative_representative sameWidth).trans (normalized number member)
  cases lanes with
  | single number => exact congrArg Lanes.single (each number List.mem_cons_self)
  | vector numbers =>
      refine congrArg Lanes.vector ?_
      rw [List.map_map]
      exact (List.map_congr_left each).trans (List.map_id numbers)

/-- Both casts between integers give the representative in the target, lane by lane. -/
theorem cast_lanes
    (integer : scalar.IsInteger)
    (targetInteger : target.IsInteger)
    (component : type.componentScalar? = some target)
    (op : CastOp)
    (source : Ty)
    (lanes : Lanes Int) :
    cast (some type) op (some source) (lanes.datum scalar.datum) =
      pure ((lanes.map target.representative).datum target.datum) := by
  unfold cast
  rw [Exec.demand, pure_bind, component]
  cases op with
  | static =>
      exact mapScalars_lanes (isFlat_datum scalar) fun number _ =>
        convert_datum integer targetInteger number
  | bitwise =>
      refine mapScalars_lanes (isFlat_datum scalar) fun number _ => ?_
      rw [toBits_datum integer, pure_bind, ofBits_ofInt targetInteger]

end Values

/-! ## Getting stuck -/

section NeverStuck

variable {α β : Type}

/-- The computation gives a result or says what it has no meaning for, in every heap. -/
def NeverStuck (work : Exec α) : Prop := ∀ heap, (outcome work heap).1 ≠ .error .stuck

theorem neverStuck_pure (answer : α) : NeverStuck (pure answer : Exec α) := by
  intro heap stuck
  rw [outcome_pure] at stuck
  cases stuck

theorem neverStuck_fail (cause : Unsupported) : NeverStuck (Exec.fail cause : Exec α) := by
  intro heap stuck
  rw [outcome_fail] at stuck
  cases stuck

theorem NeverStuck.bind
    {work : Exec α}
    {next : α → Exec β}
    (first : NeverStuck work)
    (rest : ∀ answer, NeverStuck (next answer)) : NeverStuck (work >>= next) := by
  intro heap
  rw [outcome_bind]
  have safe := first heap
  split
  · exact rest _ _
  · rename_i halt left ended
    intro stuck
    cases stuck
    exact safe (by rw [ended])

theorem NeverStuck.bindPure {work : Exec α} (first : NeverStuck work) (change : α → β) :
    NeverStuck (do return change (← work)) :=
  first.bind fun answer => neverStuck_pure (change answer)

variable {read : α → Datum} {read' : β → Datum}

theorem neverStuck_mapScalarsAll
    {apply : Datum → Exec Datum}
    {lanes : List α}
    (flat : ∀ lane, IsFlat (read lane))
    (safe : ∀ lane, NeverStuck (apply (read lane))) :
    NeverStuck (mapScalarsAll apply (lanes.map read)) := by
  induction lanes with
  | nil => exact neverStuck_pure []
  | cons lane rest induction =>
      rw [List.map_cons, mapScalarsAll, mapScalars_of_isFlat (flat lane)]
      exact (safe lane).bind fun first => induction.bindPure (first :: ·)

theorem neverStuck_mapScalars
    {apply : Datum → Exec Datum}
    {lanes : Lanes α}
    (flat : ∀ lane, IsFlat (read lane))
    (safe : ∀ lane, NeverStuck (apply (read lane))) :
    NeverStuck (mapScalars apply (lanes.datum read)) := by
  cases lanes with
  | single lane =>
      rw [Lanes.datum, mapScalars_of_isFlat (flat lane)]
      exact safe lane
  | vector lanes =>
      rw [Lanes.datum, mapScalars]
      exact (neverStuck_mapScalarsAll flat safe).bindPure Datum.aggregate

theorem neverStuck_zipScalarsAll
    {apply : Datum → Datum → Exec Datum}
    {lefts : List α}
    {rights : List β}
    (flat : ∀ lane, IsFlat (read lane))
    (flat' : ∀ lane, IsFlat (read' lane))
    (sameLength : lefts.length = rights.length)
    (safe : ∀ left right, NeverStuck (apply (read left) (read' right))) :
    NeverStuck (zipScalarsAll apply (lefts.map read) (rights.map read')) := by
  induction lefts generalizing rights with
  | nil =>
      rw [List.map_nil, zipScalarsAll]
      exact neverStuck_pure []
  | cons left lefts induction =>
      cases rights with
      | nil => cases sameLength
      | cons right rights =>
          rw [List.map_cons, List.map_cons, zipScalarsAll, zipScalars_of_isFlat (flat left),
            mapScalars_of_isFlat (flat' right)]
          exact (safe left right).bind fun first =>
            (induction (Nat.succ.inj sameLength)).bindPure (first :: ·)

theorem neverStuck_zipScalars
    {apply : Datum → Datum → Exec Datum}
    {lefts : Lanes α}
    {rights : Lanes β}
    (flat : ∀ lane, IsFlat (read lane))
    (flat' : ∀ lane, IsFlat (read' lane))
    (fits : lefts.Fits rights)
    (safe : ∀ left right, NeverStuck (apply (read left) (read' right))) :
    NeverStuck (zipScalars apply (lefts.datum read) (rights.datum read')) := by
  cases lefts with
  | single left =>
      rw [Lanes.datum, zipScalars_of_isFlat (flat left)]
      exact neverStuck_mapScalars flat' (safe left)
  | vector lefts =>
      cases rights with
      | single right =>
          rw [Lanes.datum, Lanes.datum, zipScalars_aggregate_left (flat' right)]
          have all : NeverStuck (mapScalarsAll (apply · (read' right)) (lefts.map read)) :=
            neverStuck_mapScalarsAll flat fun left => safe left right
          exact all.bindPure Datum.aggregate
      | vector rights =>
          rw [Lanes.datum, Lanes.datum, zipScalars]
          exact (neverStuck_zipScalarsAll flat flat' fits safe).bindPure Datum.aggregate

theorem neverStuck_unaryScalar (program : Store) (op : ArithmeticOp) (datum : Datum) :
    NeverStuck (unaryScalar program op datum) := by
  unfold unaryScalar
  split
  · exact neverStuck_pure _
  · exact neverStuck_fail _

/-- Two integers of one scalar are of one kind, so an operation on them is at worst unsupported. -/
theorem neverStuck_binaryScalar
    {scalar : Scalar}
    (integer : scalar.IsInteger)
    (program : Store)
    (op : ArithmeticOp)
    (left right : Int) :
    NeverStuck (binaryScalar program op (scalar.datum left) (scalar.datum right)) := by
  rcases integer.datum_cases with ⟨-, datum⟩ | ⟨-, datum⟩ <;>
    · rw [datum, datum, binaryScalar]
      split
      · exact neverStuck_pure _
      · dsimp only
        split
        · exact neverStuck_pure _
        · exact neverStuck_fail _

theorem neverStuck_normalizeTo (type : Ty) (result : Datum) :
    NeverStuck (normalizeTo (some type) result) := by
  unfold normalizeTo
  rw [Exec.demand, pure_bind]
  split <;> exact neverStuck_pure _

end NeverStuck

/-! ## The laws of integer evaluation -/

/--
Integer evaluation is modular arithmetic of a fixed width.  Of an integer scalar of one, two,
four or eight bytes, signed or unsigned, and operands that are normalized representatives, lane
by lane:

* unary and binary arithmetic gives the representative of the exact result, where division and
  remainder truncate and are zero for a zero divisor, and shifts take the count modulo 64;
* shifts to the right, minima and maxima are exact;
* comparisons are exact, whatever the type of their result;
* a cast to an integer scalar, by value or by bits, gives the representative in that scalar;
* a cast by bits to an integer scalar of the same width and back changes nothing;
* the payload of any bits is decoded to the word, and to the runtime value, of the
  representative of these bits;
* no operation that computes on scalars gets stuck, whether or not it has a meaning for
  integers.
-/
theorem integers_compute_modulo {scalar : Scalar} (integer : scalar.IsInteger) (program : Store) :
    (∀ type op exact (lanes : Lanes Int), type.componentScalar? = some scalar →
      exactUnary? op = some exact → (∀ number ∈ lanes.toList, scalar.Normalized number) →
      arithmetic program (some type) op [lanes.datum scalar.datum] =
        pure (((lanes.map exact).map scalar.representative).datum scalar.datum)) ∧
    (∀ type op exact (lefts rights : Lanes Int), type.componentScalar? = some scalar →
      exactBinary? op = some exact → lefts.Fits rights →
      (∀ number ∈ lefts.toList, scalar.Normalized number) →
      (∀ number ∈ rights.toList, scalar.Normalized number) →
      arithmetic program (some type) op [lefts.datum scalar.datum, rights.datum scalar.datum] =
        pure (((lefts.zipWith exact rights).map scalar.representative).datum scalar.datum)) ∧
    (∀ op exact left right, op ∈ [.shiftRight, .min, .max] → exactBinary? op = some exact →
      scalar.Normalized left → scalar.Normalized right →
      scalar.representative (exact left right) = exact left right) ∧
    (∀ type op exact (lefts rights : Lanes Int), exactRelation? op = some exact →
      lefts.Fits rights → (∀ number ∈ lefts.toList, scalar.Normalized number) →
      (∀ number ∈ rights.toList, scalar.Normalized number) →
      arithmetic program (some type) op [lefts.datum scalar.datum, rights.datum scalar.datum] =
        pure ((lefts.zipWith exact rights).datum .bool)) ∧
    (∀ target type op source (lanes : Lanes Int), target.IsInteger →
      type.componentScalar? = some target →
      cast (some type) op (some source) (lanes.datum scalar.datum) =
        pure ((lanes.map target.representative).datum target.datum)) ∧
    (∀ target type source (lanes : Lanes Int), target.IsInteger → target.width = scalar.width →
      type.componentScalar? = some target → source.componentScalar? = some scalar →
      (∀ number ∈ lanes.toList, scalar.Normalized number) →
      cast (some type) .bitwise (some source) (lanes.datum scalar.datum) >>=
          cast (some source) .bitwise (some type) =
        pure (lanes.datum scalar.datum)) ∧
    (∀ bits tag,
      scalar.decodeInt? (scalar.encode bits) =
          some (Int64.ofInt (scalar.representative bits.toNat)) ∧
        constantDatum? (.scalar tag scalar) (scalar.encode bits) =
          some (scalar.datum (scalar.representative bits.toNat))) ∧
    ∀ type op (lefts rights : Lanes Int),
      (TakesOne op →
        NeverStuck (arithmetic program (some type) op [lefts.datum scalar.datum])) ∧
      (¬TakesOne op → ¬Arranges op → lefts.Fits rights →
        NeverStuck (arithmetic program (some type) op
          [lefts.datum scalar.datum, rights.datum scalar.datum])) := by
  refine ⟨?unary, ?binary, ?within, ?relation, ?cast, ?back, ?decoded, ?safe⟩
  case unary =>
    intro type op exact lanes component found normalized
    exact arithmetic_unary integer program component found normalized
  case binary =>
    intro type op exact lefts rights component found fits normalized normalized'
    exact arithmetic_binary integer program component found fits normalized normalized'
  case within =>
    intro op exact left right member found normalized normalized'
    exact normalized_of_exactBinary? member found normalized normalized'
  case relation =>
    intro type op exact lefts rights found fits normalized normalized'
    exact arithmetic_relation integer program type found fits normalized normalized'
  case cast =>
    intro target type op source lanes targetInteger component
    exact cast_lanes integer targetInteger component op source lanes
  case back =>
    intro target type source lanes targetInteger sameWidth component component' normalized
    rw [cast_lanes integer targetInteger component, pure_bind,
      cast_lanes targetInteger integer component',
      Lanes.map_representative_map sameWidth normalized]
  case decoded =>
    intro bits tag
    refine ⟨decodeInt?_encode integer bits, ?_⟩
    rw [constantDatum?, Ty.readPayload]
    exact scalarDatum?_encode integer bits
  case safe =>
    intro type op lefts rights
    constructor
    · intro takesOne
      rw [arithmetic_of_takesOne takesOne]
      exact (neverStuck_mapScalars (isFlat_datum scalar) fun _ =>
        neverStuck_unaryScalar program op _).bind (neverStuck_normalizeTo type)
    · intro takesTwo computes fits
      rw [arithmetic_of_takesTwo takesTwo computes]
      exact (neverStuck_zipScalars (isFlat_datum scalar) (isFlat_datum scalar) fits
        (neverStuck_binaryScalar integer program op)).bind (neverStuck_normalizeTo type)

/--
On signed bytes: the most negative byte divided by minus one is itself, shifts by 65 are shifts
by one, and the bits of minus one are 255 in unsigned bytes.
-/
theorem integers_compute_modulo_bytes :
    let byte : Ty := .scalar ⟨0, 0, "i8"⟩ (.signed 1)
    let vector : Ty :=
      .vector ⟨1, 0, "vec2<u8>"⟩ 2 (.unsigned 1) (.scalar ⟨2, 0, "u8"⟩ (.unsigned 1))
    (Scalar.signed 1).IsInteger ∧
    arithmetic {} (some byte) .div [.int (-128), .int (-1)] = pure (.int (-128)) ∧
    arithmetic {} (some byte) .shiftLeft [.int 100, .int 65] = pure (.int (-56)) ∧
    cast (some vector) .bitwise (some byte) (.aggregate [.int (-1), .int 7]) =
      pure (.aggregate [.uint 255, .uint 7]) := by
  intro byte vector
  have integer : (Scalar.signed 1).IsInteger := by decide
  obtain ⟨-, binary, -, -, casts, -⟩ := integers_compute_modulo integer {}
  have divided : (Scalar.signed 1).representative (if (-1 : Int) = 0 then 0 else
      (-128 : Int).tdiv (-1)) = -128 := by decide
  have shifted : (Scalar.signed 1).representative (100 * 2 ^ (65 % 64 : Int).toNat) = -56 := by
    decide
  have flipped : (Scalar.unsigned 1).representative (-1) = 255 := by decide
  have kept : (Scalar.unsigned 1).representative 7 = 7 := by decide
  refine ⟨integer, ?_, ?_, ?_⟩
  · have result := binary byte .div _ (.single (-128)) (.single (-1)) rfl rfl trivial (by decide)
      (by decide)
    simp only [Lanes.zipWith, Lanes.map, divided] at result
    exact result
  · have result := binary byte .shiftLeft _ (.single 100) (.single 65) rfl rfl trivial (by decide)
      (by decide)
    simp only [Lanes.zipWith, Lanes.map, shifted] at result
    exact result
  · have result := casts (.unsigned 1) vector .bitwise byte (.vector [-1, 7]) (by decide) rfl
    simp only [Lanes.map, List.map_cons, flipped, kept] at result
    exact result

end ShaderIR.Machine
