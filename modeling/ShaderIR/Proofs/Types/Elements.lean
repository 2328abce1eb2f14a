import ShaderIR.Build
import ShaderIR.Machine.Datum
import ShaderIR.Proofs.Types.Payload

/-!
# Elements behind indices

A path of indices picks an element type below a type.  A constant index picks the
element at its number, which has to be there; another index may come to any number, so
it is allowed only where all elements are of one type.  The judgement `Store.Picks`
says so, and the walk along the indices that building and validation rely on finds a
type only where it holds.

Values have the shape of a type when they have its elements at every level.  On such a
value a path reaches a value of the shape of the picked type, unless one of the indices
that are not constant is outside the elements it chooses from.
-/

namespace ShaderIR

/-! ## The numbers of constants -/

/-- The integer in the front bytes of a payload; signed kinds have negative ones. -/
def Scalar.number (scalar : Scalar) (data : List UInt8) : Int :=
  let word := ofLittleEndian (data.take scalar.readWidth)
  match scalar.kind with
  | .sint => Int.bmod word (Nat.pow 256 scalar.readWidth)
  | _ => word

theorem ofLittleEndian_lt (data : List UInt8) : ofLittleEndian data < 256 ^ data.length := by
  induction data with
  | nil => exact Nat.one_pos
  | cons byte rest induction =>
      have small := byte.toNat_lt
      rw [ofLittleEndian, List.length_cons, Nat.pow_succ]
      omega

namespace Scalar

variable {scalar : Scalar} {data : List UInt8}

theorem readWidth_cases (scalar : Scalar) :
    scalar.readWidth = 1 ∨ scalar.readWidth = 2 ∨ scalar.readWidth = 4 ∨ scalar.readWidth = 8 := by
  unfold readWidth
  split <;> omega

/-- The numbers of constants are those of signed and of unsigned words. -/
theorem number_bounds (scalar : Scalar) (data : List UInt8) :
    -2 ^ 63 ≤ scalar.number data ∧ scalar.number data < 2 ^ 64 := by
  have fits : Nat.pow 256 scalar.readWidth ≤ 2 ^ 64 := by
    obtain width | width | width | width := scalar.readWidth_cases <;> rw [width] <;> decide
  have word : ofLittleEndian (data.take scalar.readWidth) < Nat.pow 256 scalar.readWidth :=
    Nat.lt_of_lt_of_le (ofLittleEndian_lt _)
      (Nat.pow_le_pow_right (by decide) (List.length_take_le _ _))
  have positive := Nat.zero_lt_of_lt word
  unfold number
  cases scalar.kind with
  | sint =>
      have low := Int.le_bmod (x := ofLittleEndian (data.take scalar.readWidth)) positive
      have high := Int.bmod_lt (x := ofLittleEndian (data.take scalar.readWidth)) positive
      dsimp only
      omega
  | _ =>
      dsimp only
      omega

theorem decodeInt?_eq_some (enough : scalar.readWidth ≤ data.length) :
    scalar.decodeInt? data = some (Int64.ofInt (scalar.number data)) := by
  unfold decodeInt? number
  rw [if_neg (Nat.not_lt.2 enough)]
  cases scalar.kind <;> simp [Int64.ofInt_eq_ofNat]

end Scalar

/-- A word that is not negative is the number it was made of. -/
theorem toInt_ofInt_of_nonneg
    {number : Int}
    (bounds : -2 ^ 63 ≤ number ∧ number < 2 ^ 64)
    (nonnegative : 0 ≤ (Int64.ofInt number).toInt) : (Int64.ofInt number).toInt = number := by
  rw [Int64.toInt_ofInt, show Int64.size = 2 ^ 64 from rfl] at nonnegative ⊢
  have cases := Int.bmod_def number (2 ^ 64)
  split at cases <;> omega

namespace Store

variable {store : Store} {type picked : Ty} {indices : List (Option Ref)} {ref : Ref}

/-- The integer that a constant stands for; a value that cannot be read as one has none. -/
def constantNumber? (store : Store) (ref : Ref) : Option Int := do
  let data ← store.payload? ref
  let scalar ← (← store.typeOf ref).scalar?
  if scalar.readWidth ≤ data.length then some (scalar.number data) else none

theorem constantNumber?_bounds {number : Int} (known : store.constantNumber? ref = some number) :
    -2 ^ 63 ≤ number ∧ number < 2 ^ 64 := by
  obtain ⟨data, -, known⟩ := Option.bind_eq_some_iff.1 known
  obtain ⟨type, -, known⟩ := Option.bind_eq_some_iff.1 known
  obtain ⟨scalar, -, known⟩ := Option.bind_eq_some_iff.1 known
  split at known
  · cases known
    exact scalar.number_bounds data
  · cases known

/-- The word of a constant of integer type is the word of its number. -/
theorem constantInt?_eq_map (integer : (store.typeOf ref).any Ty.isInteger = true) :
    store.constantInt? ref = (store.constantNumber? ref).map Int64.ofInt := by
  unfold constantInt? constantNumber?
  cases store.payload? ref with
  | none => rfl
  | some data =>
      cases typed : store.typeOf ref with
      | none => rfl
      | some type =>
          rw [typed, Option.any_some, Ty.isInteger] at integer
          cases found : type.scalar? with
          | none => simp [found]
          | some scalar =>
              have notFloat : scalar.kind ≠ .float := by
                intro float
                simp [found, float] at integer
              by_cases enough : scalar.readWidth ≤ data.length
              · simp [found, notFloat, enough, Scalar.decodeInt?_eq_some enough]
              · simp [found, notFloat, enough, Scalar.decodeInt?, Nat.not_le.1 enough]

/-! ## Selecting an element type -/

/--
A path of indices picks a type below a type.  Each index is an integer and chooses from
the elements of an aggregate: a constant the one at its number, any other value one of
several elements of the same type, but no member of a record.
-/
inductive Picks (store : Store) : Ty → List (Option Ref) → Ty → Prop
  | here {type : Ty} : Picks store type [] type
  | fixed {type element picked : Ty} {index : Ref} {indices : List (Option Ref)} {number : Int}
      (aggregate : type.isAggregate = true)
      (integer : (store.typeOf index).any Ty.isInteger = true)
      (known : store.constantNumber? index = some number)
      (inside : 0 ≤ number ∧ number < type.elementCount)
      (word : number < 2 ^ 63)
      (addressed : type.elements[number.toNat]? = some element)
      (below : Picks store element indices picked) :
      Picks store type (some index :: indices) picked
  | varying {type element picked : Ty} {index : Ref} {indices : List (Option Ref)}
      (aggregate : type.isAggregate = true)
      (integer : (store.typeOf index).any Ty.isInteger = true)
      (unknown : store.constantNumber? index = none)
      (record : type.isRecord = false)
      (inside : 0 < type.elementCount)
      (uniform : type.elements = List.replicate type.elementCount element)
      (below : Picks store element indices picked) :
      Picks store type (some index :: indices) picked

end Store

namespace Ty

variable {type element : Ty} {position : Int}

theorem length_elements (type : Ty) : type.elements.length = type.elementCount := by
  cases type <;> simp [elements, elementCount]

/-- An element type is found at the positions of elements only, and is that of the element there. -/
theorem element?_eq_some_iff :
    type.element? position = some element ↔
      0 ≤ position ∧ type.elements[position.toNat]? = some element := by
  unfold element?
  split
  · rename_i outside
    constructor
    · rintro ⟨⟩
    · rintro ⟨nonnegative, listed⟩
      have inside := (List.getElem?_eq_some_iff.1 listed).1
      rw [length_elements] at inside
      omega
  · rename_i inside
    have within : position.toNat < type.elementCount := by omega
    cases type <;> simp_all [elements, elementCount]

theorem isAggregate_of_element? (found : type.element? position = some element) :
    type.isAggregate = true ∧ position < type.elementCount := by
  obtain ⟨nonnegative, listed⟩ := element?_eq_some_iff.1 found
  have inside := (List.getElem?_eq_some_iff.1 listed).1
  rw [length_elements] at inside
  refine ⟨?_, by omega⟩
  cases type <;> first | rfl | simp [elementCount] at inside

theorem elements_eq_replicate
    (record : type.isRecord = false)
    (found : type.element? 0 = some element) :
    type.elements = List.replicate type.elementCount element := by
  obtain ⟨-, listed⟩ := element?_eq_some_iff.1 found
  cases type <;> simp_all [elements, elementCount, isRecord, List.getElem?_replicate]

end Ty

namespace Store

variable {store : Store} {type picked : Ty} {indices : List (Option Ref)}

/-- There is no element below an absent type. -/
theorem exists_of_elementType?
    {aggregate : Option Ty}
    (found : store.elementType? aggregate indices = some (some picked)) :
    ∃ type, aggregate = some type := by
  cases aggregate with
  | some type => exact ⟨type, rfl⟩
  | none => cases indices <;> cases found

/-- Only constants have a number. -/
theorem constantNumber?_of_not_isConstant
    {index : Ref}
    (varies : ¬ store.isConstant index = true) :
    store.constantNumber? index = none := by
  have absent : store.payload? index = none := by
    unfold payload?
    split
    · rename_i found
      exact absurd (by simp [isConstant, found]) varies
    · rfl
  simp [constantNumber?, absent]

/-- The walk along the indices finds a type only where the path picks it. -/
theorem picks_of_elementType?
    (found : store.elementType? (some type) indices = some (some picked)) :
    store.Picks type indices picked := by
  induction indices generalizing type with
  | nil =>
      rw [elementType?] at found
      cases found
      exact .here
  | cons index rest induction =>
      cases index with
      | none =>
          rw [elementType?] at found
          cases found
      | some index =>
          rw [elementType?] at found
          split at found
          · rename_i integer
            split at found
            · rw [constantInt?_eq_map integer] at found
              cases known : store.constantNumber? index with
              | some number =>
                  rw [known] at found
                  obtain ⟨element, reached⟩ := exists_of_elementType? found
                  obtain ⟨nonnegative, listed⟩ := Ty.element?_eq_some_iff.1 reached
                  obtain ⟨aggregate, inside⟩ := Ty.isAggregate_of_element? reached
                  have same := toInt_ofInt_of_nonneg (constantNumber?_bounds known) nonnegative
                  have word := Int64.toInt_lt (Int64.ofInt number)
                  rw [same] at nonnegative listed inside word
                  exact .fixed aggregate integer known ⟨nonnegative, inside⟩ word listed
                    (induction (reached ▸ found))
              | none =>
                  rw [known] at found
                  cases found
            · rename_i varies
              split at found
              · cases found
              · rename_i record
                have record := Bool.eq_false_iff.2 record
                obtain ⟨element, reached⟩ := exists_of_elementType? found
                obtain ⟨aggregate, inside⟩ := Ty.isAggregate_of_element? reached
                exact .varying aggregate integer (constantNumber?_of_not_isConstant varies) record
                  (by omega) (Ty.elements_eq_replicate record reached)
                  (induction (reached ▸ found))
          · cases found

/-- There is no element below an absent type. -/
theorem exists_of_elementType
    {aggregate : Option Ty}
    (found : store.elementType aggregate indices = some picked) :
    ∃ type, aggregate = some type :=
  exists_of_elementType? (Option.join_eq_some_iff.1 found)

theorem picks_of_elementType (found : store.elementType (some type) indices = some picked) :
    store.Picks type indices picked :=
  picks_of_elementType? (Option.join_eq_some_iff.1 found)

end Store

/-! ## Values of the shape of a type -/

namespace Machine

/-- A value has the kind of its scalar type, and elements for all elements of its type. -/
inductive Datum.Shaped : Ty → Datum → Prop
  | bool {tag : TypeTag} {scalar : Scalar} {truth : Bool} (kind : scalar.kind = .bool) :
      Shaped (.scalar tag scalar) (.bool truth)
  | int {tag : TypeTag} {scalar : Scalar} {number : Int64} (kind : scalar.kind = .sint) :
      Shaped (.scalar tag scalar) (.int number)
  | uint {tag : TypeTag} {scalar : Scalar} {number : UInt64} (kind : scalar.kind = .uint) :
      Shaped (.scalar tag scalar) (.uint number)
  | float {tag : TypeTag} {scalar : Scalar} {number : Float} (kind : scalar.kind = .float) :
      Shaped (.scalar tag scalar) (.float number)
  | aggregate {type : Ty} {elements : List Datum} (aggregate : type.isAggregate = true)
      (length : elements.length = type.elementCount)
      (each : ∀ {position : Nat} {elementType : Ty} {element : Datum},
        type.elements[position]? = some elementType → elements[position]? = some element →
        Shaped elementType element) :
      Shaped type (.aggregate elements)
  | handle {type : Ty} {datum : Datum}
      (resource : type.isResource = true ∨ type.isRayQuery = true) :
      Shaped type datum

namespace Datum

variable {type : Ty} {datum : Datum}

/-- A value of an aggregate type has as many elements as the type, each of its shape. -/
theorem Shaped.elements (shaped : Shaped type datum) (aggregate : type.isAggregate = true) :
    ∃ elements, datum = .aggregate elements ∧ elements.length = type.elementCount ∧
      ∀ {position : Nat} {elementType : Ty} {element : Datum},
        type.elements[position]? = some elementType → elements[position]? = some element →
        Shaped elementType element := by
  cases shaped with
  | aggregate _ length each => exact ⟨_, rfl, length, each⟩
  | handle resource => cases type <;> simp_all [Ty.isAggregate, Ty.isResource, Ty.isRayQuery]
  | _ => cases aggregate

/-- Replacing an element by one of its shape keeps the shape. -/
theorem Shaped.set
    {elements : List Datum}
    {position : Nat}
    {element : Datum}
    {elementType : Ty}
    (shaped : Shaped type (.aggregate elements))
    (aggregate : type.isAggregate = true)
    (addressed : type.elements[position]? = some elementType)
    (new : Shaped elementType element) :
    Shaped type (.aggregate (elements.set position element)) := by
  obtain ⟨_, same, length, each⟩ := shaped.elements aggregate
  cases same
  refine .aggregate aggregate (by rw [List.length_set, length]) ?_
  intro position' elementType' element' addressed' found
  rw [List.getElem?_set] at found
  split at found
  · rename_i here
    subst here
    split at found
    · cases found
      cases addressed.symm.trans addressed'
      exact new
    · cases found
  · exact each addressed' found

end Datum

/-! Variables start with values of the shape of their type. -/

theorem length_makeRepeated (make : Heap → Datum × Heap) (count : Nat) (heap : Heap) :
    (makeRepeated make count heap).1.length = count := by
  induction count generalizing heap with
  | zero => rfl
  | succ count induction => exact congrArg (· + 1) (induction _)

theorem exists_of_mem_makeRepeated
    {make : Heap → Datum × Heap}
    {count : Nat}
    {heap : Heap}
    {datum : Datum}
    (member : datum ∈ (makeRepeated make count heap).1) :
    ∃ heap, datum = (make heap).1 := by
  induction count generalizing heap with
  | zero => cases member
  | succ count induction =>
      obtain rfl | later := List.mem_cons.1 member
      · exact ⟨heap, rfl⟩
      · exact induction later

theorem shaped_makeRepeated
    {type element : Ty}
    {make : Heap → Datum × Heap}
    {count : Nat}
    (heap : Heap)
    (aggregate : type.isAggregate = true)
    (elements : type.elements = List.replicate count element)
    (shaped : ∀ heap, (make heap).1.Shaped element) :
    (Datum.aggregate (makeRepeated make count heap).1).Shaped type := by
  refine .aggregate aggregate ?_ ?_
  · rw [length_makeRepeated, ← Ty.length_elements, elements, List.length_replicate]
  · intro position elementType datum addressed found
    rw [elements] at addressed
    rw [List.eq_of_mem_replicate (List.mem_of_getElem? addressed)]
    obtain ⟨heap, rfl⟩ := exists_of_mem_makeRepeated (List.mem_of_getElem? found)
    exact shaped heap

mutual

theorem shaped_zero : (type : Ty) → (heap : Heap) → (zero type heap).1.Shaped type
  | .scalar _ scalar, _ => by
      rw [zero, zeroScalar]
      cases kind : scalar.kind with
      | bool => exact .bool kind
      | sint => exact .int kind
      | uint => exact .uint kind
      | float => exact .float kind
  | .vector _ _ _ element, heap => shaped_makeRepeated heap rfl rfl (shaped_zero element)
  | .matrix _ _ _ column, heap => shaped_makeRepeated heap rfl rfl (shaped_zero column)
  | .array _ element _, heap => shaped_makeRepeated heap rfl rfl (shaped_zero element)
  | .record _ members, heap => by
      obtain ⟨length, each⟩ := shaped_zeroAll members heap
      exact .aggregate rfl length each
  | .resource .., _ => .handle (.inl rfl)
  | .rayQuery .., _ => .handle (.inr rfl)

theorem shaped_zeroAll : (types : List Ty) → (heap : Heap) →
    (zeroAll types heap).1.length = types.length ∧
      ∀ {position : Nat} {type : Ty} {datum : Datum}, types[position]? = some type →
        (zeroAll types heap).1[position]? = some datum → datum.Shaped type
  | [], _ => ⟨rfl, fun found => by cases found⟩
  | type :: rest, heap => by
      obtain ⟨length, each⟩ := shaped_zeroAll rest (zero type heap).2
      refine ⟨congrArg (· + 1) length, fun {position} _ _ listed found => ?_⟩
      cases position with
      | zero =>
          cases listed
          cases found
          exact shaped_zero type heap
      | succ position => exact each listed found

end

end Machine

namespace Store

variable {store : Store} {type picked : Ty} {indices : List (Option Ref)} {path : List Int}

/-- A position at which an index may stand: a constant stands at its number. -/
def Positions (store : Store) (index : Option Ref) (position : Int) : Prop :=
  ∀ ref number, index = some ref → store.constantNumber? ref = some number →
    position = (Int64.ofInt number).toInt

/-- On the way along a path, an index that is no constant stands outside the elements. -/
inductive Strays (store : Store) : Ty → List (Option Ref) → List Int → Prop
  | here {type : Ty} {index : Ref} {indices : List (Option Ref)} {position : Int} {path : List Int}
      (unknown : store.constantNumber? index = none)
      (outside : ¬(0 ≤ position ∧ position < type.elementCount)) :
      Strays store type (some index :: indices) (position :: path)
  | later {type element : Ty} {index : Option Ref} {indices : List (Option Ref)} {position : Int}
      {path : List Int}
      (addressed : type.element? position = some element)
      (strays : Strays store element indices path) :
      Strays store type (index :: indices) (position :: path)

theorem Picks.integers (picks : store.Picks type indices picked) :
    ∀ operand ∈ indices,
      ∃ index, operand = some index ∧ (store.typeOf index).any Ty.isInteger = true := by
  induction picks with
  | here => exact fun _ member => absurd member List.not_mem_nil
  | fixed _ integer _ _ _ _ _ induction | varying _ integer _ _ _ _ _ induction =>
      exact List.forall_mem_cons.2 ⟨⟨_, rfl, integer⟩, induction⟩

/-- The first step of a path leads to an element, unless the index strays. -/
theorem Picks.step
    {index : Option Ref}
    {position : Int}
    (picks : store.Picks type (index :: indices) picked)
    (stands : store.Positions index position)
    (inside : ¬store.Strays type (index :: indices) (position :: path)) :
    ∃ element, type.isAggregate = true ∧ 0 ≤ position ∧
      type.elements[position.toNat]? = some element ∧ store.Picks element indices picked ∧
      ¬store.Strays element indices path := by
  have further {element : Ty} (nonnegative : 0 ≤ position)
      (addressed : type.elements[position.toNat]? = some element) :
      ¬store.Strays element indices path :=
    fun strays => inside (.later (Ty.element?_eq_some_iff.2 ⟨nonnegative, addressed⟩) strays)
  cases picks with
  | fixed aggregate integer known within word addressed below =>
      have same : position = _ :=
        (stands _ _ rfl known).trans (Int64.toInt_ofInt_of_le (by omega) word)
      rw [← same] at within addressed
      exact ⟨_, aggregate, within.1, addressed, below, further within.1 addressed⟩
  | @varying _ element _ _ _ aggregate integer unknown record within uniform below =>
      have within : 0 ≤ position ∧ position < type.elementCount := by
        by_contra outside
        exact inside (.here unknown outside)
      have addressed : type.elements[position.toNat]? = some element := by
        rw [uniform, List.getElem?_replicate_of_lt (by omega)]
      exact ⟨_, aggregate, within.1, addressed, below, further within.1 addressed⟩

/--
On a value of the shape of a type, a path that the type admits leads to a part of the
shape of the picked type, which can be read and replaced.
-/
theorem Picks.reaches
    (picks : store.Picks type indices picked)
    (stand : List.Forall₂ store.Positions indices path)
    (inside : ¬store.Strays type indices path)
    {datum : Machine.Datum}
    (shaped : datum.Shaped type) :
    (∃ element, datum.read? path = some element ∧ element.Shaped picked) ∧
    ∀ new, ∃ written, datum.write? path new = some written ∧
      (new.Shaped picked → written.Shaped type) := by
  induction stand generalizing type datum with
  | nil =>
      cases picks
      exact ⟨⟨datum, by simp [Machine.Datum.read?], shaped⟩,
        fun new => ⟨new, by simp [Machine.Datum.write?], id⟩⟩
  | @cons index position indices path stands others induction =>
      obtain ⟨elementType, aggregate, nonnegative, addressed, below, further⟩ :=
        picks.step stands inside
      obtain ⟨elements, rfl, length, each⟩ := shaped.elements aggregate
      have within := (List.getElem?_eq_some_iff.1 addressed).1
      rw [Ty.length_elements, ← length] at within
      have found : Machine.Datum.elementAt? elements position = some elements[position.toNat] := by
        rw [Machine.Datum.elementAt?, if_neg (by omega), List.getElem?_eq_getElem within]
      obtain ⟨⟨part, read, partShaped⟩, writes⟩ :=
        induction below further (each addressed (List.getElem?_eq_getElem within))
      refine ⟨⟨part, ?_, partShaped⟩, fun new => ?_⟩
      · rw [Machine.Datum.read?, found, Option.bind_some, read]
      · obtain ⟨written, write, kept⟩ := writes new
        refine ⟨.aggregate (elements.set position.toNat written), ?_, fun new =>
          shaped.set aggregate addressed (kept new)⟩
        simp [Machine.Datum.write?, found, write]

end Store

end ShaderIR
