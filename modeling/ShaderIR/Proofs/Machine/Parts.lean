import ShaderIR.Proofs.Machine.Accessing

/-!
# Laws of parts

Values are read and replaced in parts, at paths below them, and so are variables through
references.  Where the indices of a path pick a type, both succeed, and they obey the
laws of places: what was written is read, writing what was read changes nothing, a part
elsewhere is not affected, and a path may be followed in steps.

The laws say nothing about a path on which an index that is no constant strays from the
elements; there reading and writing fail.
-/

namespace ShaderIR.Machine

open Exec

/-- Two paths go on at different indices after what they have in common. -/
inductive Diverges : List Int → List Int → Prop
  | here {position other : Int} {path path' : List Int} (different : position ≠ other) :
      Diverges (position :: path) (other :: path')
  | later {position : Int} {path path' : List Int} (diverges : Diverges path path') :
      Diverges (position :: path) (position :: path')

/--
The part of a whole at a path is of the shape of a type, and it is a place of its own.
Reading it succeeds, and replacing it by a value of the shape keeps the shape of the
whole; what is read there is what was written last, and reading elsewhere is the same as
before.
-/
structure Lawful {Whole : Type} (read : Whole → List Int → Option Datum)
    (write : Whole → List Int → Datum → Option Whole) (shaped : Whole → Prop) (picked : Ty)
    (whole : Whole) (path : List Int) : Prop where
  reads : ∃ part, read whole path = some part ∧ part.Shaped picked
  writes : ∀ new, new.Shaped picked → ∃ written, write whole path new = some written ∧
    shaped written
  read_written : ∀ {new : Datum} {written : Whole}, write whole path new = some written →
    read written path = some new
  write_read : ∀ {part : Datum}, read whole path = some part → write whole path part = some whole
  elsewhere : ∀ {other : List Int} {new : Datum} {written : Whole}, Diverges path other →
    write whole path new = some written → read written other = read whole other
  steps : ∀ front back : List Int,
    read whole (front ++ back) = (read whole front).bind (·.read? back)

/-! ## Parts of values -/

namespace Datum

variable {datum written part new : Datum} {elements : List Datum} {path other : List Int}
  {position index : Int}

theorem elementAt?_eq_some {element : Datum} :
    elementAt? elements position = some element ↔
      0 ≤ position ∧ elements[position.toNat]? = some element := by
  unfold elementAt?
  split
  · exact ⟨nofun, fun held => by omega⟩
  · exact ⟨fun held => ⟨by omega, held⟩, fun held => held.2⟩

theorem elementAt?_set_of_ne
    {element : Datum}
    (found : elementAt? elements position = some element)
    (different : position ≠ index) :
    elementAt? (elements.set position.toNat new) index = elementAt? elements index := by
  have inside := (elementAt?_eq_some.1 found).1
  unfold elementAt?
  split
  · rfl
  · exact List.getElem?_set_ne (by omega)

/-- A part is replaced inside an element of an aggregate. -/
theorem exists_of_write?_cons (write : datum.write? (position :: path) new = some written) :
    ∃ elements element changed, datum = .aggregate elements ∧
      elementAt? elements position = some element ∧ element.write? path new = some changed ∧
      written = .aggregate (elements.set position.toNat changed) := by
  cases datum with
  | aggregate elements =>
      rw [write?] at write
      obtain ⟨element, found, write⟩ := Option.bind_eq_some_iff.1 write
      obtain ⟨changed, wrote, write⟩ := Option.bind_eq_some_iff.1 write
      cases write
      exact ⟨elements, element, changed, rfl, found, wrote, rfl⟩
  | _ => cases write

theorem read?_nil (datum : Datum) : datum.read? [] = some datum := by
  rw [read?]

theorem write?_nil (datum new : Datum) : datum.write? [] new = some new := by
  rw [write?]

theorem read?_write? (write : datum.write? path new = some written) :
    written.read? path = some new := by
  induction path generalizing datum written with
  | nil =>
      rw [write?_nil] at write
      cases write
      exact read?_nil new
  | cons position path induction =>
      obtain ⟨elements, element, changed, rfl, found, wrote, rfl⟩ := exists_of_write?_cons write
      rw [read?, elementAt?_set found, Option.bind_some, induction wrote]

theorem write?_read? (read : datum.read? path = some part) :
    datum.write? path part = some datum := by
  induction path generalizing datum with
  | nil =>
      rw [read?_nil] at read
      rw [write?_nil, read]
  | cons position path induction =>
      cases datum with
      | aggregate elements =>
          rw [read?] at read
          obtain ⟨element, found, read⟩ := Option.bind_eq_some_iff.1 read
          obtain ⟨inside, held⟩ := List.getElem?_eq_some_iff.1 (elementAt?_eq_some.1 found).2
          have same : elements.set position.toNat element = elements := by
            rw [← held, List.set_getElem_self]
          simp [write?, found, induction read, same]
      | _ => cases read

theorem read?_write?_of_diverges
    (diverges : Diverges path other)
    (write : datum.write? path new = some written) : written.read? other = datum.read? other := by
  induction diverges generalizing datum written with
  | here different =>
      obtain ⟨elements, element, changed, rfl, found, -, rfl⟩ := exists_of_write?_cons write
      rw [read?, read?, elementAt?_set_of_ne found different]
  | later _ induction =>
      obtain ⟨elements, element, changed, rfl, found, wrote, rfl⟩ := exists_of_write?_cons write
      rw [read?, read?, elementAt?_set found, found, Option.bind_some, Option.bind_some,
        induction wrote]

/-- A path that leads to a part of a shape, and can be written, is a lawful place. -/
theorem lawful
    {type picked : Ty}
    (reads : ∃ part, datum.read? path = some part ∧ part.Shaped picked)
    (writes : ∀ new, ∃ written, datum.write? path new = some written ∧
      (new.Shaped picked → written.Shaped type)) :
    Lawful Datum.read? Datum.write? (·.Shaped type) picked datum path where
  reads := reads
  writes new shaped := (writes new).imp fun _ wrote => ⟨wrote.1, wrote.2 shaped⟩
  read_written := read?_write?
  write_read := write?_read?
  elsewhere := read?_write?_of_diverges
  steps := datum.read?_append

end Datum

/-! ## Parts of variables -/

namespace Heap

variable {heap left : Heap} {cell : Nat} {path other : List Int} {new : Datum}

/-- Storing at a place replaces the part of what its cell holds. -/
theorem exists_of_store? (stores : heap.store? cell path new = some left) :
    ∃ content changed, heap.cells[cell]? = some content ∧ content.write? path new = some changed ∧
      ∀ other, left.load? cell other = changed.read? other := by
  obtain ⟨content, held, stores⟩ := Option.bind_eq_some_iff.1 stores
  obtain ⟨changed, wrote, stores⟩ := Option.bind_eq_some_iff.1 stores
  cases stores
  have inside := (Array.getElem?_eq_some_iff.1 held).1
  exact ⟨content, changed, held, wrote, fun other => by simp [load?, inside]⟩

theorem load?_store? (stores : heap.store? cell path new = some left) :
    left.load? cell path = some new := by
  obtain ⟨content, changed, -, wrote, loads⟩ := exists_of_store? stores
  rw [loads, Datum.read?_write? wrote]

theorem store?_load? {part : Datum} (loads : heap.load? cell path = some part) :
    heap.store? cell path part = some heap := by
  obtain ⟨content, held, read⟩ := Option.bind_eq_some_iff.1 loads
  have same : heap.cells.setIfInBounds cell content = heap.cells := by
    obtain ⟨inside, held⟩ := Array.getElem?_eq_some_iff.1 held
    rw [← held, Array.setIfInBounds, dif_pos inside, Array.set_getElem_self]
  simp [store?, held, Datum.write?_read? read, same]

theorem load?_store?_of_diverges
    (diverges : Diverges path other)
    (stores : heap.store? cell path new = some left) :
    left.load? cell other = heap.load? cell other := by
  obtain ⟨content, changed, held, wrote, loads⟩ := exists_of_store? stores
  rw [loads, Datum.read?_write?_of_diverges diverges wrote, load?, held, Option.bind_some]

theorem load?_steps (heap : Heap) (cell : Nat) (front back : List Int) :
    heap.load? cell (front ++ back) = (heap.load? cell front).bind (·.read? back) := by
  unfold load?
  cases heap.cells[cell]? with
  | none => rfl
  | some content => exact content.read?_append front back

/-- The content of a cell below a path has the shape of a type. -/
def Holds (heap : Heap) (cell : Nat) (below : List Int) (type : Ty) : Prop :=
  ∃ content, heap.load? cell below = some content ∧ content.Shaped type

/-- A lawful place in the content of a variable is one in the variable, too. -/
theorem lawful
    {type picked : Ty}
    {below : List Int}
    {content : Datum}
    (held : heap.load? cell below = some content)
    (place : Lawful Datum.read? Datum.write? (·.Shaped type) picked content path) :
    Lawful (·.load? cell) (·.store? cell) (·.Holds cell below type) picked heap
      (below ++ path) where
  reads := by
    obtain ⟨part, read, shaped⟩ := place.reads
    exact ⟨part, load?_append held read, shaped⟩
  writes new shaped := by
    obtain ⟨written, wrote, kept⟩ := place.writes new shaped
    obtain ⟨stored, stores, holds⟩ := store?_append held wrote
    exact ⟨stored, stores, written, holds, kept⟩
  read_written := load?_store?
  write_read := store?_load?
  elsewhere := load?_store?_of_diverges
  steps := heap.load?_steps cell

end Heap

/-! ## Places that indices pick -/

section Indices

variable {scene : Scene} {indices : List (Option Ref)} {type picked : Ty} {heap left : Heap}
  {data : List Datum} {path : List Int}

/-- A constant is evaluated to the datum of its payload. -/
theorem outcome_eval_constant
    {ref : Ref}
    {payload : List UInt8}
    {datum : Datum}
    (held : scene.program.payload? ref = some payload)
    (typed : scene.program.typeOf ref = some type)
    (read : constantDatum? type payload = some datum)
    (heap : Heap) :
    outcome (scene.eval ref) heap = (.ok datum, heap) := by
  unfold Store.payload? Store.content? at held
  obtain ⟨value, found, typed⟩ := Option.bind_eq_some_iff.1 typed
  have content : ∃ digest, value.content = .constant payload digest := by
    rw [found] at held
    cases content : value.content <;> simp_all
  obtain ⟨digest, content⟩ := content
  simp only [Scene.eval, found, outcome_bind, outcome_demand, content, typed,
    Option.bind_some, read]

/-- An instruction is evaluated to the datum that its scene has for it. -/
theorem outcome_eval_instruction
    {ref : Ref}
    {datum : Datum}
    (held : (scene.program.instruction? ref).isSome)
    (known : scene.values[ref]? = some datum)
    (heap : Heap) : outcome (scene.eval ref) heap = (.ok datum, heap) := by
  unfold Store.instruction? Store.content? at held
  cases found : scene.program.value? ref with
  | none => simp [found] at held
  | some value =>
      rw [found] at held
      cases content : value.content <;> simp_all [Scene.eval, outcome_bind, outcome_demand]

/-- Where index data come to a path, constant indices stand on it at their numbers. -/
theorem positions_of_indexes
    (integers : ∀ operand ∈ indices,
      ∃ index, operand = some index ∧ (scene.program.typeOf index).any Ty.isInteger = true)
    (evaluated : outcome (scene.evalAll indices) heap = (.ok data, left))
    (indexes : Indexes data path) : List.Forall₂ scene.program.Positions indices path := by
  induction indices generalizing heap data path with
  | nil =>
      cases evaluated
      cases indexes
      exact .nil
  | cons operand indices induction =>
      obtain ⟨⟨index, rfl, integer⟩, others⟩ := List.forall_mem_cons.1 integers
      rw [Scene.evalAll] at evaluated
      obtain ⟨datum, between, evaluatedFirst, evaluated⟩ := outcome_bind_eq_ok.1 evaluated
      obtain ⟨rest, between', evaluatedRest, evaluated⟩ := outcome_bind_eq_ok.1 evaluated
      cases evaluated
      obtain _ | ⟨⟨word, read, rfl⟩, indexes⟩ := indexes
      exact .cons (positions_of_evaluated integer evaluatedFirst read)
        (induction others evaluatedRest indexes)

/-- Extracting and inserting at index data read and write at the path of the data. -/
theorem arithmetic_of_indexes
    (program : Store)
    (declared : Option Ty)
    (indexes : Indexes data path)
    (datum new : Datum) :
    arithmetic program declared .extract (datum :: data) = demand (datum.read? path) ∧
      arithmetic program declared .insert (datum :: new :: data) =
        demand (datum.write? path new) := by
  refine ⟨extract_of_indexes indexes datum, ?_⟩
  simp only [arithmetic, toPath_of_indexes indexes, pure_bind]

end Indices

/--
Where indices pick a type below a type, and no index that is not constant strays from the
elements, the path that they come to is a lawful place in every value of the shape, and in
every variable that holds one, through any reference to it.  Extracting and inserting at
the data of indices are reading and writing at their path.
-/
theorem lawful_of_elementType
    {scene : Scene}
    {indices : List (Option Ref)}
    {type picked : Ty}
    {heap left : Heap}
    {data : List Datum}
    {path : List Int}
    (found : scene.program.elementType (some type) indices = some picked)
    (evaluated : outcome (scene.evalAll indices) heap = (.ok data, left))
    (indexes : Indexes data path)
    (inside : ¬scene.program.Strays type indices path)
    {datum : Datum}
    (shaped : datum.Shaped type) :
    Lawful Datum.read? Datum.write? (·.Shaped type) picked datum path ∧
      (∀ (holder : Heap) (cell : Nat) (below : List Int),
        holder.load? cell below = some datum →
          Lawful (·.load? cell) (·.store? cell) (·.Holds cell below type) picked holder
            (below ++ path)) ∧
      ∀ {data : List Datum} {path : List Int}, Indexes data path →
        ∀ (declared : Option Ty) (datum new : Datum),
          arithmetic scene.program declared .extract (datum :: data) = demand (datum.read? path) ∧
          arithmetic scene.program declared .insert (datum :: new :: data) =
            demand (datum.write? path new) := by
  have picks := Store.picks_of_elementType found
  have positions := positions_of_indexes picks.integers evaluated indexes
  obtain ⟨reads, writes⟩ := picks.reaches positions inside shaped
  have place := Datum.lawful reads writes
  exact ⟨place, fun _ _ _ held => Heap.lawful held place,
    fun indexes declared datum new =>
      arithmetic_of_indexes scene.program declared indexes datum new⟩

/-- The type of records of an integer and three pairs of integers. -/
def pairedType : Ty :=
  .record ⟨0, 3, ""⟩ [.scalar ⟨0, 0, "i32"⟩ (.signed 4),
    .array ⟨0, 2, ""⟩ (.vector ⟨0, 1, ""⟩ 2 (.signed 4) (.scalar ⟨0, 0, "i32"⟩ (.signed 4))) 3]

/-- A kernel with a constant and an integer that is loaded. -/
def indexed : Store :=
  let number : Ty := .scalar ⟨0, 0, "i32"⟩ (.signed 4)
  (Session.after [
    .edit (.addModule "indexed"),
    .edit (.createFunction 0 .kernel none),
    .edit (.createBody ⟨0⟩),
    .edit (.constantInt32 0 1),
    .moveToEnd ⟨1⟩, .alloca (some number) .local, .load (some number) (some ⟨3⟩),
    .emit .ret none [] (.refl true)]).store

theorem lawful_indexed :
    Lawful Datum.read? Datum.write? (·.Shaped pairedType) (.scalar ⟨0, 0, "i32"⟩ (.signed 4))
      (zero pairedType {}).1 [1, 2, 1] := by
  obtain ⟨scene, program, known⟩ :
      ∃ scene : Scene, scene.program = indexed ∧ scene.values[(⟨4⟩ : Ref)]? = some (.int 2) :=
    ⟨{ program := indexed, settings := { limit := 9 },
       values := (∅ : Std.HashMap Ref Datum).insert ⟨4⟩ (.int 2) },
      by dsimp only, Std.HashMap.getElem?_insert_self⟩
  have found : indexed.elementType (some pairedType) [some ⟨2⟩, some ⟨4⟩, some ⟨2⟩] =
      some (.scalar ⟨0, 0, "i32"⟩ (.signed 4)) := by decide +kernel
  have constant : indexed.constantNumber? ⟨2⟩ = some 1 := by decide +kernel
  have payload : indexed.payload? ⟨2⟩ = some [1, 0, 0, 0] := by decide +kernel
  have typed : indexed.typeOf ⟨2⟩ = some (.scalar ⟨0, 0, "i32"⟩ (.signed 4)) := by decide +kernel
  have decoded : Scalar.decodeInt? (.signed 4) [1, 0, 0, 0] = some 1 := by decide +kernel
  have one : outcome (scene.eval ⟨2⟩) {} = (.ok (.int 1), {}) :=
    outcome_eval_constant (program ▸ payload) (program ▸ typed)
      (by rw [constantDatum?, Ty.readPayload, scalarDatum?, decoded]; rfl) {}
  have loaded : (indexed.instruction? ⟨4⟩).isSome := by decide +kernel
  have two : outcome (scene.eval ⟨4⟩) {} = (.ok (.int 2), {}) :=
    outcome_eval_instruction (program ▸ loaded) known {}
  have evaluated : outcome (scene.evalAll [some ⟨2⟩, some ⟨4⟩, some ⟨2⟩]) {} =
      (.ok [.int 1, .int 2, .int 1], {}) := by
    simp only [Scene.evalAll, outcome_bind, one, two, outcome_pure]
  have indexes : Indexes [.int 1, .int 2, .int 1] [1, 2, 1] :=
    .cons ⟨1, rfl, rfl⟩ (.cons ⟨2, rfl, rfl⟩ (.cons ⟨1, rfl, rfl⟩ .nil))
  have inside : ¬indexed.Strays pairedType [some ⟨2⟩, some ⟨4⟩, some ⟨2⟩] [1, 2, 1] := by
    rintro (⟨unknown, -⟩ | ⟨addressed, strays⟩)
    · cases constant.symm.trans unknown
    · cases addressed
      obtain ⟨-, outside⟩ | ⟨addressed, strays⟩ := strays
      · exact outside (by decide)
      · cases addressed
        obtain ⟨unknown, -⟩ | ⟨-, strays⟩ := strays
        · cases constant.symm.trans unknown
        · cases strays
  rw [← program] at found inside
  exact (lawful_of_elementType found evaluated indexes inside (shaped_zero pairedType {})).1

end ShaderIR.Machine
