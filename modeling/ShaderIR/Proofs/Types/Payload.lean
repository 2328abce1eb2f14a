import Mathlib.Algebra.Order.Ring.Int
import ShaderIR.Machine.Datum
import ShaderIR.Printer
import ShaderIR.Proofs.Edit.Outcome
import ShaderIR.Proofs.Store.Update
import ShaderIR.Proofs.Types.Interning

/-!
# Payloads of constants

A constant is accepted with as many bytes as its type has.  Evaluation and printing
both hand these bytes to the scalars of the type, one slice after the other, and
neither fails on a type that a registry makes of readable scalars.  Floats of two
bytes are not readable: both readers take four bytes of every float that has not
eight.  Zero bytes are read as the zero of the type.

A type has a size in a signed word, so the number of bytes is taken to fit into one.
-/

namespace ShaderIR

/-! ## Types made of readable scalars -/

/-- The scalars that both readers can read: the named ones without the float of two bytes. -/
def Scalar.Readable (scalar : Scalar) : Prop :=
  scalar ∈ table ∧ scalar ≠ floating 2

instance (scalar : Scalar) : Decidable scalar.Readable :=
  inferInstanceAs (Decidable (_ ∧ _))

/-- A request for a readable scalar, or for a vector, a matrix, an array or a record. -/
def TypeForm.Plain : TypeForm → Prop
  | scalar description | vector _ description | matrix _ description => description.Readable
  | array .. | record .. => True
  | resource .. | rayQuery .. => False

/-- The types that are made of readable scalars only. -/
inductive Ty.Plain : Ty → Prop
  | scalar {tag : TypeTag} {description : Scalar} (readable : description.Readable) :
      Plain (.scalar tag description)
  | vector {tag : TypeTag} {size : Nat} {description : Scalar} {element : Ty}
      (plain : Plain element) :
      Plain (.vector tag size description element)
  | matrix {tag : TypeTag} {columns : Nat} {description : Scalar} {column : Ty}
      (plain : Plain column) :
      Plain (.matrix tag columns description column)
  | array {tag : TypeTag} {element : Ty} {count : Nat} (plain : Plain element) :
      Plain (.array tag element count)
  | record {tag : TypeTag} {members : List Ty} (plain : ∀ member ∈ members, Plain member) :
      Plain (.record tag members)

namespace Ty

/-- A type of a plain form is plain when its components are. -/
theorem plain_of_components
    {type : Ty}
    (form : type.form.Plain)
    (components : ∀ component ∈ type.components, component.Plain) : type.Plain := by
  cases type with
  | scalar => exact .scalar form
  | vector => exact .vector (components _ List.mem_cons_self)
  | matrix => exact .matrix (components _ List.mem_cons_self)
  | array => exact .array (components _ List.mem_cons_self)
  | record => exact .record components
  | resource | rayQuery => exact form.elim

end Ty

theorem TypeForm.Plain.stages {form : TypeForm} (plain : form.Plain) :
    ∀ stage ∈ form.stages, stage.Plain := by
  cases form <;> simp_all [TypeForm.stages, TypeForm.Plain]

namespace Registry

/-- Plain requests lead to plain types; the induction is on the handle of the type. -/
theorem Serves.plain
    {owner : Nat}
    {requests : List (String × TypeForm)}
    {types : List Ty}
    {registry : Registry}
    (serves : Serves { owner } requests types registry)
    (plain : ∀ request ∈ requests, request.2.Plain)
    {type : Ty}
    (listed : type ∈ registry.types) :
    type.Plain := by
  have served := serves.served (canonical_empty owner)
  generalize position : type.handle = handle
  induction handle using Nat.strongRecOn generalizing type with
  | _ handle induction =>
      refine Ty.plain_of_components ?_ fun component part => ?_
      · obtain old | ⟨request, asked, stage⟩ := served.added listed
        · simp at old
        · exact (plain request asked).stages _ stage
      · obtain ⟨known, smaller⟩ := served.canonical.registered listed component part
        exact induction component.handle (position ▸ smaller) known rfl

end Registry

/-! ## Splitting a payload -/

mutual

/--
A payload of a type is split into a slice for each scalar, and reading the slices
comes to a value.  The slices of the elements of an aggregate stand one after the
other and are all of its payload.
-/
inductive Ty.Splits {α : Type} (scalarValue : Scalar → List UInt8 → Option α)
    (aggregateValue : List α → α) : Ty → List UInt8 → α → Prop
  | scalar {tag : TypeTag} {description : Scalar} {slice : List UInt8} {value : α}
      (width : slice.length = description.width)
      (read : scalarValue description slice = some value) :
      Splits scalarValue aggregateValue (.scalar tag description) slice value
  | aggregate {type : Ty} {slices : List (List UInt8)} {values : List α}
      (composed : type.isAggregate = true)
      (elements : SplitsAll scalarValue aggregateValue type.elements slices values) :
      Splits scalarValue aggregateValue type slices.flatten (aggregateValue values)

/-- Each type has a slice of its own, which comes to the value at the same position. -/
inductive Ty.SplitsAll {α : Type} (scalarValue : Scalar → List UInt8 → Option α)
    (aggregateValue : List α → α) : List Ty → List (List UInt8) → List α → Prop
  | nil : SplitsAll scalarValue aggregateValue [] [] []
  | cons {type : Ty} {slice : List UInt8} {value : α} {types : List Ty}
      {slices : List (List UInt8)} {values : List α}
      (first : Splits scalarValue aggregateValue type slice value)
      (rest : SplitsAll scalarValue aggregateValue types slices values) :
      SplitsAll scalarValue aggregateValue (type :: types) (slice :: slices) (value :: values)

end

section Reading

variable {α : Type} {scalarValue : Scalar → List UInt8 → Option α} {aggregateValue : List α → α}

/-- A reader that never fails on the payloads of a type reads them by splitting them. -/
def Ty.ReadsBySplitting
    (scalarValue : Scalar → List UInt8 → Option α)
    (aggregateValue : List α → α)
    (type : Ty) : Prop :=
  ∀ data : List UInt8, data.length = type.extent →
    ∃ value, type.readPayload scalarValue aggregateValue data = some value ∧
      type.Splits scalarValue aggregateValue data value

theorem readRepeated_splits
    {element : Ty}
    (reads : element.ReadsBySplitting scalarValue aggregateValue)
    (count : Nat)
    (data : List UInt8)
    (length : data.length = count * element.extent) :
    ∃ slices values,
      readRepeated (element.readPayload scalarValue aggregateValue) element.extent count data =
        some values ∧
      slices.flatten = data ∧
      Ty.SplitsAll scalarValue aggregateValue (List.replicate count element) slices values := by
  induction count generalizing data with
  | zero =>
      have empty : data = [] := List.length_eq_zero_iff.1 (by simpa using length)
      exact ⟨[], [], rfl, empty.symm, .nil⟩
  | succ count induction =>
      rw [Nat.succ_mul] at length
      obtain ⟨value, read, splits⟩ := reads (data.take element.extent) (by simp; omega)
      obtain ⟨slices, values, readRest, covered, splitsRest⟩ :=
        induction (data.drop element.extent) (by simp; omega)
      refine ⟨_ :: slices, value :: values, ?_, ?_, .cons splits splitsRest⟩
      · simp [readRepeated, read, readRest]
      · rw [List.flatten_cons, covered, List.take_append_drop]

theorem readMembers_splits
    {members : List Ty}
    (reads : ∀ member ∈ members, member.ReadsBySplitting scalarValue aggregateValue)
    (data : List UInt8)
    (length : data.length = Ty.extentAll members) :
    ∃ slices values,
      Ty.readMembers scalarValue aggregateValue members data = some values ∧
      slices.flatten = data ∧
      Ty.SplitsAll scalarValue aggregateValue members slices values := by
  induction members generalizing data with
  | nil => exact ⟨[], [], rfl, (List.length_eq_zero_iff.1 length).symm, .nil⟩
  | cons member rest induction =>
      obtain ⟨readsMember, readsRest⟩ := List.forall_mem_cons.1 reads
      rw [Ty.extentAll] at length
      obtain ⟨value, read, splits⟩ := readsMember (data.take member.extent) (by simp; omega)
      obtain ⟨slices, values, readRest, covered, splitsRest⟩ :=
        induction readsRest (data.drop member.extent) (by simp; omega)
      refine ⟨_ :: slices, value :: values, ?_, ?_, .cons splits splitsRest⟩
      · simp [Ty.readMembers, read, readRest]
      · rw [List.flatten_cons, covered, List.take_append_drop]

/-- A reader that reads every readable scalar reads every type that is made of them. -/
theorem Ty.Plain.readsBySplitting
    (readsScalar : ∀ {description : Scalar} {data : List UInt8}, description.Readable →
      data.length = description.width → ∃ value, scalarValue description data = some value)
    {type : Ty}
    (plain : type.Plain) :
    type.ReadsBySplitting scalarValue aggregateValue := by
  induction plain with
  | scalar readable =>
      intro data width
      obtain ⟨value, read⟩ := readsScalar readable width
      exact ⟨value, read, .scalar width read⟩
  | vector _ reads | matrix _ reads | array _ reads =>
      intro data length
      obtain ⟨slices, values, read, rfl, splits⟩ := readRepeated_splits reads _ data length
      exact ⟨aggregateValue values, by simp [Ty.readPayload, read], .aggregate rfl splits⟩
  | record _ reads =>
      intro data length
      obtain ⟨slices, values, read, rfl, splits⟩ := readMembers_splits reads data length
      exact ⟨aggregateValue values, by simp [Ty.readPayload, read], .aggregate rfl splits⟩

end Reading

/-! ## The two readers -/

/-- What makes a scalar readable: each kind of it is read with the width it has. -/
theorem Scalar.Readable.widths {scalar : Scalar} (readable : scalar.Readable) :
    0 < scalar.width ∧ scalar.readWidth = scalar.width ∧
      (scalar.kind = .float → scalar.width = 8 ∨ scalar.width = 4) := by
  have widths : ∀ scalar ∈ Scalar.table, scalar ≠ Scalar.floating 2 →
      0 < scalar.width ∧ scalar.readWidth = scalar.width ∧
        (scalar.kind = .float → scalar.width = 8 ∨ scalar.width = 4) := by
    decide
  exact widths scalar readable.1 readable.2

theorem Scalar.decodeInt?_isSome
    {scalar : Scalar}
    {data : List UInt8}
    (enough : scalar.readWidth ≤ data.length) : (scalar.decodeInt? data).isSome := by
  rw [decodeInt?, if_neg (Nat.not_lt.2 enough)]
  cases scalar.kind <;> rfl

section Readers

variable {scalar : Scalar} {data : List UInt8}

theorem Machine.exists_scalarDatum?
    (readable : scalar.Readable)
    (length : data.length = scalar.width) : ∃ datum, scalarDatum? scalar data = some datum := by
  obtain ⟨positive, readWidth, float⟩ := readable.widths
  rw [← Option.isSome_iff_exists]
  have integer := Scalar.decodeInt?_isSome (Nat.le_of_eq (readWidth.trans length.symm))
  unfold scalarDatum?
  cases kind : scalar.kind with
  | bool =>
      rw [← length] at positive
      simpa using List.ne_nil_of_length_pos positive
  | sint | uint => simpa using integer
  | float => obtain width | width := float kind <;> simp [Scalar.decodeFloat?, width, length]

theorem Printer.exists_scalarText?
    (readable : scalar.Readable)
    (length : data.length = scalar.width) : ∃ text, scalarText? scalar data = some text := by
  obtain ⟨positive, readWidth, float⟩ := readable.widths
  rw [← Option.isSome_iff_exists]
  have integer := Scalar.decodeInt?_isSome (Nat.le_of_eq (readWidth.trans length.symm))
  unfold scalarText?
  cases kind : scalar.kind with
  | bool =>
      rw [← length] at positive
      simpa using List.ne_nil_of_length_pos positive
  | sint | uint => simpa using integer
  | float => obtain width | width := float kind <;> simp [width, length]

end Readers

/-! ## Zero bytes -/

namespace Machine

theorem scalarDatum?_zero {scalar : Scalar} (readable : scalar.Readable) :
    scalarDatum? scalar (List.replicate scalar.width 0) = some (zeroScalar scalar) := by
  have zeros : ∀ scalar ∈ Scalar.table, scalar ≠ Scalar.floating 2 →
      scalarDatum? scalar (List.replicate scalar.width 0) = some (zeroScalar scalar) := by
    simp only [Scalar.table, List.forall_mem_cons]
    exact ⟨fun _ => rfl, fun _ => rfl, fun _ => rfl, fun _ => rfl, fun _ => rfl,
      fun excluded => absurd rfl excluded, fun _ => rfl, fun _ => rfl, fun _ => rfl, fun _ => rfl,
      fun _ => rfl, fun _ => rfl, fun _ member => absurd member List.not_mem_nil⟩
  exact zeros scalar readable.1 readable.2

/-- The zero bytes of a type are read as its zero, which needs no new object. -/
def ReadsZero (type : Ty) : Prop :=
  ∀ heap, constantDatum? type (List.replicate type.extent 0) = some (zero type heap).1 ∧
    (zero type heap).2 = heap

theorem readRepeated_zero {element : Ty} (reads : ReadsZero element) (count : Nat) (heap : Heap) :
    readRepeated (element.readPayload scalarDatum? .aggregate) element.extent count
        (List.replicate (count * element.extent) 0) =
      some (makeRepeated (zero element) count heap).1 ∧
    (makeRepeated (zero element) count heap).2 = heap := by
  induction count with
  | zero => exact ⟨rfl, rfl⟩
  | succ count induction =>
      obtain ⟨read, kept⟩ := reads heap
      obtain ⟨readRest, keptRest⟩ := induction
      rw [constantDatum?] at read
      have taken : min element.extent ((count + 1) * element.extent) = element.extent :=
        Nat.min_eq_left (Nat.le_mul_of_pos_left _ (Nat.succ_pos count))
      have dropped : (count + 1) * element.extent - element.extent = count * element.extent := by
        rw [Nat.succ_mul, Nat.add_sub_cancel]
      simp [readRepeated, makeRepeated, List.take_replicate, List.drop_replicate, taken, dropped,
        read, kept, readRest, keptRest]

theorem readMembers_zero
    {members : List Ty}
    (reads : ∀ member ∈ members, ReadsZero member)
    (heap : Heap) :
    Ty.readMembers scalarDatum? .aggregate members (List.replicate (Ty.extentAll members) 0) =
      some (zeroAll members heap).1 ∧
    (zeroAll members heap).2 = heap := by
  induction members with
  | nil => exact ⟨rfl, rfl⟩
  | cons member rest induction =>
      obtain ⟨readsMember, readsRest⟩ := List.forall_mem_cons.1 reads
      obtain ⟨read, kept⟩ := readsMember heap
      obtain ⟨readRest, keptRest⟩ := induction readsRest
      rw [constantDatum?] at read
      simp [Ty.readMembers, Ty.extentAll, zeroAll, List.take_replicate, List.drop_replicate, read,
        kept, readRest, keptRest]

end Machine

theorem Ty.Plain.readsZero {type : Ty} (plain : type.Plain) : Machine.ReadsZero type := by
  induction plain with
  | scalar readable => exact fun heap => ⟨Machine.scalarDatum?_zero readable, rfl⟩
  | vector _ reads | matrix _ reads | array _ reads =>
      intro heap
      have elements count := Machine.readRepeated_zero reads count heap
      simp [Machine.constantDatum?, readPayload, extent, Machine.zero, elements]
  | record _ reads =>
      intro heap
      have elements := Machine.readMembers_zero reads heap
      simp [Machine.constantDatum?, readPayload, extent, Machine.zero, elements]

/-! ## Accepted constants -/

namespace Edit

variable {module : Nat} {type : Ty} {data : List UInt8} {store left : Store} {ref : Ref}

/-- An interned constant has the type and the payload it is looked for with. -/
theorem constant_of_constantWith?
    {digest : Ty → List UInt8 → UInt64}
    (found : store.constantWith? digest module type data = some ref) :
    store.payload? ref = some data ∧ store.typeOf ref = some type := by
  unfold Store.constantWith? at found
  have same := List.find?_some found
  rw [Store.payload?, Store.content?, Store.typeOf]
  split at same
  · rename_i data' digest' type' _ _ _ held
    simp only [Bool.and_eq_true, beq_iff_eq] at same
    obtain ⟨⟨-, rfl⟩, rfl⟩ := same
    rw [held]
    exact ⟨rfl, rfl⟩
  · cases same

/-- A constant that is found or made has the type and the payload it was requested with. -/
theorem constant_of_gives (gives : Gives (constant module (some type) data) store ref left) :
    type.size = data.length ∧ left.payload? ref = some data ∧ left.typeOf ref = some type := by
  rw [constant, constantWith] at gives
  obtain ⟨_, between, required, interned⟩ := gives_bind_iff.1 gives
  obtain ⟨size, rfl⟩ := gives_require_iff.1 required
  refine ⟨beq_iff_eq.1 size, ?_⟩
  replace interned := gives_see_bind_iff.1 interned
  cases found : between.constantWith? contentHash module type data with
  | some held =>
      rw [found] at interned
      obtain ⟨rfl, rfl⟩ := gives_pure_iff.1 interned
      exact constant_of_constantWith? found
  | none =>
      rw [found] at interned
      obtain ⟨made, _, allocated, listing⟩ := gives_bind_iff.1 interned
      obtain ⟨_, _, listed, answer⟩ := gives_bind_iff.1 listing
      rw [Gives, outcome_allocate] at allocated
      simp only [Prod.mk.injEq, Except.ok.injEq] at allocated
      obtain ⟨rfl, rfl⟩ := allocated
      obtain ⟨rfl, rfl⟩ := gives_pure_iff.1 answer
      rw [gives_modify_iff.1 listed]
      simp [Store.payload?, Store.content?, Store.typeOf, Store.value?_allocate]

/-- A constant is refused for its number of bytes only. -/
theorem gives_constant_iff :
    (∃ ref left, Gives (constant module (some type) data) store ref left) ↔
      type.size = data.length := by
  constructor
  · rintro ⟨ref, left, gives⟩
    exact (constant_of_gives gives).1
  · intro size
    unfold Gives constant constantWith
    cases found : store.constantWith? contentHash module type data with
    | some held => simp [outcome_bind, outcome_require, size, found]
    | none =>
        simp only [outcome_bind, outcome_require, size, beq_self_eq_true, if_true, outcome_see,
          found]
        exact ⟨_, _, rfl⟩

end Edit

theorem Ty.size_eq_iff {type : Ty} (small : type.extent < 2 ^ 64) {bytes : Nat} :
    type.size = bytes ↔ bytes = type.extent ∧ bytes < 2 ^ 63 := by
  unfold size
  have fits := Int.bmod_def (type.extent : Int) 0x10000000000000000
  split at fits <;> omega

/--
A type made of readable scalars, smaller than all addressable bytes, takes a constant exactly
of as many bytes as it has.  Evaluation and printing then both find a value in the payload,
each by splitting it into consecutive slices that are all of it.  A zero constant is evaluated
to the zero of its type.

Being plain is a matter of the type alone, whatever else its registry serves; when all requests
are plain, so are all types of the registry (`Registry.Serves.plain`).
-/
theorem Ty.Plain.constants_split
    {type : Ty}
    (plain : type.Plain)
    (small : type.extent < 2 ^ 64)
    (module : Nat)
    (store : Store) :
    (∀ data, (∃ ref left, Edit.Gives (Edit.constant module (some type) data) store ref left) ↔
      data.length = type.extent ∧ data.length < 2 ^ 63) ∧
    (∀ data ref left, Edit.Gives (Edit.constant module (some type) data) store ref left →
      left.payload? ref = some data ∧ left.typeOf ref = some type ∧
      (∃ datum, Machine.constantDatum? type data = some datum ∧
        type.Splits Machine.scalarDatum? .aggregate data datum) ∧
      ∃ text, Printer.constantText? type data = some text ∧
        type.Splits Printer.scalarText? Printer.aggregateText data text) ∧
    (∀ ref left, Edit.Gives (Edit.constantZero module (some type)) store ref left →
      left.typeOf ref = some type ∧
      ∃ data, left.payload? ref = some data ∧ ∀ heap,
        Machine.constantDatum? type data = some (Machine.zero type heap).1 ∧
        (Machine.zero type heap).2 = heap) := by
  refine ⟨fun data => ?_, fun data ref left gives => ?_, fun ref left gives => ?_⟩
  · rw [Edit.gives_constant_iff, Ty.size_eq_iff small]
  · obtain ⟨size, payload, typed⟩ := Edit.constant_of_gives gives
    have length := ((Ty.size_eq_iff small).1 size).1
    exact ⟨payload, typed, plain.readsBySplitting Machine.exists_scalarDatum? data length,
      plain.readsBySplitting Printer.exists_scalarText? data length⟩
  · rw [Edit.constantZero] at gives
    split at gives
    · exact (Edit.not_gives_stuck gives).elim
    · obtain ⟨size, payload, typed⟩ := Edit.constant_of_gives gives
      have length := ((Ty.size_eq_iff small).1 size).1
      rw [List.length_replicate] at length
      rw [length] at payload
      exact ⟨typed, _, payload, plain.readsZero⟩

/-- A direction and whether it is switched on. -/
def lightType : Ty :=
  .record ⟨0, 3, "light"⟩
    [.vector ⟨0, 1, ""⟩ 3 (.floating 4) (.scalar ⟨0, 0, ""⟩ (.floating 4)),
      .scalar ⟨0, 2, "bool"⟩ .boolean]

/-- The members of the record are requested before it; the vector brings its elements along. -/
def lightRequests : List (String × TypeForm) :=
  [("", .vector 3 (.floating 4)), ("bool", .scalar .boolean), ("light", lightType.form)]

/-- The direction (1, 2, 3), switched on. -/
def lightPayload : List UInt8 := [0, 0, 128, 63, 0, 0, 0, 64, 0, 0, 64, 64, 1]

theorem Ty.Plain.constants_split_light :
    ∃ types registry, Registry.Serves { owner := 0 } lightRequests types registry ∧
      lightType ∈ registry.types ∧
      ∃ ref left, Edit.Gives (Edit.constant 0 (some lightType) lightPayload)
          (({} : Store).addModule "lights").2 ref left ∧
        ∃ datum, Machine.constantDatum? lightType lightPayload = some datum := by
  have serves : ∃ types registry, Registry.Serves { owner := 0 } lightRequests types registry ∧
      lightType ∈ registry.types := by
    refine ⟨_, _, .cons ?_ (.cons ?_ (.cons ?_ (.nil _))), ?_⟩
    all_goals decide +kernel
  obtain ⟨types, registry, serves, listed⟩ := serves
  have plain : ∀ request ∈ lightRequests, request.2.Plain := by
    simp only [lightRequests, List.forall_mem_cons]
    exact ⟨(by decide : (Scalar.floating 4).Readable), (by decide : Scalar.boolean.Readable),
      trivial, fun _ member => absurd member List.not_mem_nil⟩
  have small : lightType.extent < 2 ^ 64 := by decide
  obtain ⟨accepted, read, -⟩ := (serves.plain plain listed).constants_split small 0 _
  obtain ⟨ref, left, gives⟩ := (accepted lightPayload).2 ⟨by decide, by decide⟩
  obtain ⟨-, -, ⟨datum, evaluated, -⟩, -⟩ := read _ ref left gives
  exact ⟨types, registry, serves, listed, ref, left, gives, datum, evaluated⟩

end ShaderIR
