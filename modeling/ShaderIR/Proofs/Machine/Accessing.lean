import ShaderIR.Proofs.Control.Acceptance
import ShaderIR.Proofs.Elimination.Selection
import ShaderIR.Proofs.Revision.Emitting
import ShaderIR.Proofs.Types.Elements

/-!
# Accesses to elements

An element is extracted from a value, inserted into a value, or referred to inside a
variable.  Building such an instruction, and validating a reference, compares the type
the instruction declares for the element with the type that its indices pick.  The walk
along the indices answers that there is no type where they pick none, so the comparison
tells nothing about an instruction that declares no type.

An accepted access with an element type stays inside the values it meets at run time,
unless an index that is no constant strays from the elements.
-/

namespace ShaderIR

theorem Instruction.operand?_zero
    {entry : Instruction}
    {first : Option Ref}
    {rest : List (Option Ref)}
    (values : entry.values = first :: rest) :
    entry.operand? 0 = some first := by
  rw [operand?, ← List.getElem?_map, ← Instruction.values, values, List.getElem?_cons_zero]

/-- An instruction refers to, extracts or inserts the element at some indices below a base. -/
def Instruction.GetsTo (entry : Instruction) (base : Option Ref) (indices : List (Option Ref)) :
    Prop :=
  (entry.opcode = .gep ∨ entry.opcode = .arithmetic .extract) ∧ entry.values = base :: indices ∨
    entry.opcode = .arithmetic .insert ∧ ∃ inserted, entry.values = base :: inserted :: indices

/-! ## Index data -/

namespace Machine

open Exec

/-- Index data that are integers, each of which comes to a position. -/
def Indexes (data : List Datum) (path : List Int) : Prop :=
  List.Forall₂ (fun datum position =>
    ∃ word : Int64, toInteger datum = pure word ∧ word.toInt = position) data path

variable {data : List Datum} {path : List Int}

theorem toPath_of_indexes (indexes : Indexes data path) : toPath data = pure path := by
  induction indexes with
  | nil => rfl
  | cons first rest induction =>
      obtain ⟨word, integer, rfl⟩ := first
      simp only [toPath, integer, induction, pure_bind]

/-- Extracting reads the part at the path. -/
theorem extract_of_indexes (indexes : Indexes data path) (datum : Datum) :
    extract datum data = demand (datum.read? path) := by
  induction indexes generalizing datum with
  | nil => simp [extract, Datum.read?, demand]
  | cons first rest induction =>
      obtain ⟨word, integer, rfl⟩ := first
      cases datum with
      | aggregate elements =>
          rw [extract, Datum.read?, integer, pure_bind]
          cases Datum.elementAt? elements word.toInt with
          | none => rfl
          | some element => simp only [demand, pure_bind, induction, Option.bind_some]
      | _ => rfl

/-! ## Parts of parts -/

namespace Datum

variable {datum part : Datum} {below : List Int}

theorem read?_append (datum : Datum) (below path : List Int) :
    datum.read? (below ++ path) = (datum.read? below).bind (·.read? path) := by
  induction below generalizing datum with
  | nil => simp [read?]
  | cons index rest induction =>
      cases datum with
      | aggregate elements =>
          rw [List.cons_append, read?, read?]
          cases elementAt? elements index with
          | none => rfl
          | some element => exact induction element
      | _ => rfl

theorem elementAt?_set
    {elements : List Datum}
    {index : Int}
    {element : Datum}
    (found : elementAt? elements index = some element)
    (new : Datum) :
    elementAt? (elements.set index.toNat new) index = some new := by
  unfold elementAt? at found ⊢
  split at found
  · cases found
  · rename_i nonnegative
    rw [if_neg nonnegative, List.getElem?_set_self (List.getElem?_eq_some_iff.1 found).1]

/-- A part that can be replaced is replaced in the whole, too. -/
theorem write?_append
    (held : datum.read? below = some part)
    {path : List Int}
    {new written : Datum}
    (write : part.write? path new = some written) :
    ∃ whole, datum.write? (below ++ path) new = some whole ∧ whole.read? below = some written := by
  induction below generalizing datum with
  | nil =>
      cases datum <;> cases held <;> exact ⟨written, write, by simp [read?]⟩
  | cons index rest induction =>
      cases datum with
      | aggregate elements =>
          rw [read?] at held
          obtain ⟨element, found, held⟩ := Option.bind_eq_some_iff.1 held
          obtain ⟨whole, wrote, kept⟩ := induction held
          refine ⟨.aggregate (elements.set index.toNat whole), ?_, ?_⟩
          · simp [write?, found, wrote]
          · rw [read?, elementAt?_set found, Option.bind_some, kept]
      | _ => cases held

end Datum

namespace Heap

variable {heap : Heap} {cell : Nat} {below : List Int} {content : Datum}

theorem load?_append
    (held : heap.load? cell below = some content)
    {path : List Int}
    {part : Datum}
    (read : content.read? path = some part) :
    heap.load? cell (below ++ path) = some part := by
  obtain ⟨whole, found, held⟩ := Option.bind_eq_some_iff.1 held
  rw [load?, found, Option.bind_some, Datum.read?_append, held, Option.bind_some, read]

theorem store?_append
    (held : heap.load? cell below = some content)
    {path : List Int}
    {new written : Datum}
    (write : content.write? path new = some written) :
    ∃ stored, heap.store? cell (below ++ path) new = some stored ∧
      stored.load? cell below = some written := by
  obtain ⟨whole, found, held⟩ := Option.bind_eq_some_iff.1 held
  obtain ⟨changed, wrote, kept⟩ := Datum.write?_append held write
  refine ⟨{ heap with cells := heap.cells.setIfInBounds cell changed }, ?_, ?_⟩
  · simp [store?, found, wrote]
  · have inside := (Array.getElem?_eq_some_iff.1 found).1
    simp [load?, inside, kept]

end Heap

/-! ## Evaluating indices -/

section Indices

variable {scene : Scene} {indices : List (Option Ref)} {index : Ref} {heap left : Heap}
  {datum : Datum} {type : Ty}

/-- The value of an operand has the shape of the type that the program declares for it. -/
def Scene.Fits (scene : Scene) (operand : Option Ref) (datum : Datum) : Prop :=
  ∀ type, scene.program.typeOfOption operand = some type → datum.Shaped type

/-- Values of integer types can be used as indices. -/
theorem toInteger_of_shaped (integer : type.isInteger = true) (shaped : datum.Shaped type) :
    ∃ word, toInteger datum = pure word := by
  cases shaped with
  | int | uint => exact ⟨_, rfl⟩
  | bool kind | float kind => simp [Ty.isInteger, Ty.scalar?, kind] at integer
  | aggregate aggregate => cases type <;> simp_all [Ty.isInteger, Ty.scalar?, Ty.isAggregate]
  | handle resource =>
      cases type <;> simp_all [Ty.isInteger, Ty.scalar?, Ty.isResource, Ty.isRayQuery]

/-- A constant index is evaluated to the word of its number. -/
theorem toInteger_of_constant
    {number : Int}
    (integer : (scene.program.typeOf index).any Ty.isInteger = true)
    (known : scene.program.constantNumber? index = some number)
    (evaluated : outcome (scene.eval index) heap = (.ok datum, left)) :
    toInteger datum = pure (Int64.ofInt number) := by
  obtain ⟨data, payload, known⟩ := Option.bind_eq_some_iff.1 known
  obtain ⟨type, typed, known⟩ := Option.bind_eq_some_iff.1 known
  obtain ⟨scalar, described, known⟩ := Option.bind_eq_some_iff.1 known
  obtain ⟨type', typed', read, -⟩ := eval_constant payload evaluated
  cases typed.symm.trans typed'
  rw [typed] at integer
  split at known
  · rename_i enough
    cases known
    cases type with
    | scalar tag description =>
        cases described
        rw [constantDatum?, Ty.readPayload, scalarDatum?,
          Scalar.decodeInt?_eq_some enough] at read
        cases kind : scalar.kind <;> simp [Ty.isInteger, Ty.scalar?, kind] at integer read
        all_goals
          subst read
          simp [toInteger]
    | _ => cases described
  · cases known

/-- A constant index comes to the position of its number. -/
theorem positions_of_evaluated
    {word : Int64}
    (integer : (scene.program.typeOf index).any Ty.isInteger = true)
    (evaluated : outcome (scene.eval index) heap = (.ok datum, left))
    (read : toInteger datum = pure word) :
    scene.program.Positions (some index) word.toInt := by
  intro ref number same known
  cases same
  have same := read.symm.trans (toInteger_of_constant integer known evaluated)
  have words := congrArg (outcome · {}) same
  simp only [outcome_pure, Prod.mk.injEq, Except.ok.injEq, and_true] at words
  rw [words]

/-- The value of one index is an integer, at the number of the index where it has one. -/
theorem exists_position
    (integer : (scene.program.typeOf index).any Ty.isInteger = true)
    (evaluated : outcome (scene.eval index) heap = (.ok datum, left))
    (fits : scene.Fits (some index) datum) :
    ∃ word, toInteger datum = pure word ∧ scene.program.Positions (some index) word.toInt := by
  obtain ⟨type, typed, integral⟩ := (Option.any_eq_true _ _).1 integer
  obtain ⟨word, read⟩ := toInteger_of_shaped integral (fits type typed)
  exact ⟨word, read, positions_of_evaluated integer evaluated read⟩

/-- Indices of integer type with fitting values come to a path, on which constants stand. -/
theorem exists_path
    {data : List Datum}
    (integers : ∀ operand ∈ indices,
      ∃ index, operand = some index ∧ (scene.program.typeOf index).any Ty.isInteger = true)
    (evaluated : outcome (scene.evalAll indices) heap = (.ok data, left))
    (fit : List.Forall₂ scene.Fits indices data) :
    ∃ path, Indexes data path ∧ List.Forall₂ scene.program.Positions indices path ∧
      outcome (scene.path indices) heap = (.ok path, left) := by
  induction fit generalizing heap with
  | nil =>
      cases evaluated
      exact ⟨[], .nil, .nil, rfl⟩
  | @cons operand datum indices data first rest induction =>
      obtain ⟨⟨index, rfl, integer⟩, others⟩ := List.forall_mem_cons.1 integers
      rw [Scene.evalAll] at evaluated
      obtain ⟨datum', between, evaluatedFirst, evaluated⟩ := outcome_bind_eq_ok.1 evaluated
      obtain ⟨data', between', evaluatedRest, evaluated⟩ := outcome_bind_eq_ok.1 evaluated
      cases evaluated
      obtain ⟨word, read, position⟩ := exists_position integer evaluatedFirst first
      obtain ⟨path, indexes, positions, followed⟩ := induction others evaluatedRest
      refine ⟨word.toInt :: path, .cons ⟨word, read, rfl⟩ indexes, .cons position positions, ?_⟩
      simp only [Scene.path, Scene.evalPresent, outcome_bind, outcome_demand, evaluatedFirst, read,
        outcome_pure, followed]

end Indices

end Machine

/-! ## Accepted accesses -/

namespace Store

variable {store left : Store} {ref : Ref} {base : Option Ref} {indices : List (Option Ref)}
  {element : Option Ty}

/--
An instruction that gets to an element by indices below a base is accepted, with the type
that is declared for the element: it was just built, or it is a reference in a reached block
of a validated module.  An insertion declares the type of the value that it inserts.
-/
inductive Accepts (store : Store) (ref : Ref) : Option Ref → List (Option Ref) → Option Ty → Prop
  | gep {type : Option Ty} {base : Option Ref} {indices : List (Option Ref)}
      {cursor moved : Cursor} {earlier : Store}
      (yields : Build.Yields (Build.gep type base indices) cursor earlier ref moved store) :
      Accepts store ref base indices type
  | extract {type : Option Ty} {aggregate : Option Ref} {indices : List (Option Ref)}
      {cursor moved : Cursor} {earlier : Store}
      (yields : Build.Yields (Build.extract type aggregate indices) cursor earlier ref moved
        store) :
      Accepts store ref aggregate indices type
  | insert {aggregate element : Option Ref} {indices : List (Option Ref)}
      {cursor moved : Cursor} {earlier : Store}
      (yields : Build.Yields (Build.insert aggregate element indices) cursor earlier ref moved
        store) :
      Accepts store ref aggregate indices (earlier.typeOfOption element)
  | arithmeticExtract {type : Option Ty} {aggregate : Option Ref} {indices : List (Option Ref)}
      {cursor moved : Cursor} {earlier : Store}
      (yields : Build.Yields (Build.arithmetic type .extract (aggregate :: indices)) cursor earlier
        ref moved store) :
      Accepts store ref aggregate indices type
  | arithmeticInsert {type : Option Ty} {aggregate element : Option Ref}
      {indices : List (Option Ref)} {cursor moved : Cursor} {earlier : Store}
      (yields : Build.Yields (Build.arithmetic type .insert (aggregate :: element :: indices))
        cursor earlier ref moved store) :
      Accepts store ref aggregate indices (earlier.typeOfOption element)
  | validated {module : Nat} {function block : Ref} {entry : Instruction} {base : Option Ref}
      {indices : List (Option Ref)} (coherent : store.Coherent)
      (accepted : store.validate? module = some []) (listed : function ∈ store.functions module)
      (reached : store.Reached function block) (member : ref ∈ store.instructions block)
      (found : store.instruction? ref = some entry) (opcode : entry.opcode = .gep)
      (values : entry.values = base :: indices) :
      Accepts store ref base indices (store.typeOf ref)

variable {picked type : Ty}

theorem value?_isSome_of_typeOf (typed : store.typeOf ref = some type) :
    (store.value? ref).isSome := by
  obtain ⟨value, found, -⟩ := Option.bind_eq_some_iff.1 typed
  exact Option.isSome_of_eq_some found

theorem Ages.isInteger
    (ages : store.Ages left)
    (integer : (store.typeOf ref).any Ty.isInteger = true) :
    (left.typeOf ref).any Ty.isInteger = true ∧
      left.constantNumber? ref = store.constantNumber? ref := by
  obtain ⟨type, typed, -⟩ := (Option.any_eq_true _ _).1 integer
  unfold constantNumber?
  rw [ages.payload?, ages.typeOf (value?_isSome_of_typeOf typed)]
  exact ⟨integer, rfl⟩

/-- What indices pick, they pick as long as nothing is forgotten. -/
theorem Ages.picks (ages : store.Ages left) (picks : store.Picks type indices picked) :
    left.Picks type indices picked := by
  induction picks with
  | here => exact .here
  | fixed aggregate integer known inside word addressed _ induction =>
      obtain ⟨integer, same⟩ := ages.isInteger integer
      exact .fixed aggregate integer (same.trans known) inside word addressed induction
  | varying aggregate integer unknown record inside uniform _ induction =>
      obtain ⟨integer, same⟩ := ages.isInteger integer
      exact .varying aggregate integer (same.trans unknown) record inside uniform induction

theorem Ages.exists_picks
    (ages : store.Ages left)
    (found : store.elementType (store.typeOfOption base) indices = some picked) :
    ∃ aggregate, left.typeOfOption base = some aggregate ∧
      left.Picks aggregate indices picked := by
  obtain ⟨aggregate, typed⟩ := exists_of_elementType found
  rw [typed] at found
  refine ⟨aggregate, ?_, ages.picks (picks_of_elementType found)⟩
  obtain ⟨ref, rfl, typed'⟩ := Option.bind_eq_some_iff.1 typed
  exact (ages.typeOf (value?_isSome_of_typeOf typed')).trans typed'

/-- A reference of which validation has nothing to say has the type that its indices pick. -/
theorem elementType_of_admitted
    {place : Validation.Place}
    {entry : Instruction}
    {before rest : List Ref}
    (admitted : Validation.Admitted store place entry before rest)
    (opcode : entry.opcode = .gep)
    (values : entry.values = base :: indices) :
    store.elementType (store.typeOfOption base) indices = store.typeOf place.instruction := by
  obtain ⟨base', held, -, reaches⟩ := Validation.reached_of_kindMessages admitted.kind opcode
  obtain rfl : base = base' :=
    Option.some.inj ((Instruction.operand?_zero values).symm.trans held)
  rw [elementType, ← show (base :: indices).drop 1 = indices from rfl, ← values, reaches]
  rfl

/-- The base has a type below which the indices pick, and the instruction has them as operands. -/
def PicksBy
    (store : Store)
    (ref : Ref)
    (base : Option Ref)
    (indices : List (Option Ref))
    (picked : Ty) : Prop :=
  (∃ type, store.typeOfOption base = some type ∧ store.Picks type indices picked) ∧
    ∃ entry, store.instruction? ref = some entry ∧ entry.GetsTo base indices

section Built

variable {declared : Option Ty} {inserted : Option Ref} {earlier : Store} {cursor moved : Cursor}

theorem picksBy_of_extract
    (yields : Build.Yields (Build.arithmetic declared .extract (base :: indices)) cursor earlier ref
      moved store)
    (declares : declared = some picked) :
    store.PicksBy ref base indices picked := by
  obtain ⟨checked, built⟩ := Build.yields_arithmetic yields
  obtain ⟨ages, entry, found, opcode, values⟩ := Build.ages_emit built
  exact ⟨ages.exists_picks (Eq.trans checked declares), entry, found,
    .inl ⟨.inr opcode, values⟩⟩

theorem picksBy_of_insert
    (yields : Build.Yields (Build.arithmetic declared .insert (base :: inserted :: indices)) cursor
      earlier ref moved store)
    (declares : earlier.typeOfOption inserted = some picked) :
    store.PicksBy ref base indices picked := by
  obtain ⟨⟨same, checked⟩, built⟩ := Build.yields_arithmetic yields
  obtain ⟨ages, entry, found, opcode, values⟩ := Build.ages_emit built
  rw [← same] at checked
  exact ⟨ages.exists_picks (checked.trans declares), entry, found,
    .inr ⟨opcode, inserted, values⟩⟩

end Built

/-- The element type that an accepted access declares is what its indices pick below its base. -/
theorem Accepts.picksBy
    (accepts : store.Accepts ref base indices element)
    (declares : element = some picked) :
    store.PicksBy ref base indices picked := by
  cases accepts with
  | gep yields =>
      obtain ⟨checked, built⟩ := Build.yields_gep yields
      obtain ⟨ages, entry, found, opcode, values⟩ := Build.ages_emit built
      exact ⟨ages.exists_picks (checked.trans declares), entry, found, .inl ⟨.inl opcode, values⟩⟩
  | extract yields | arithmeticExtract yields => exact picksBy_of_extract yields declares
  | insert yields => exact picksBy_of_insert (Build.yields_insert yields) declares
  | arithmeticInsert yields => exact picksBy_of_insert yields declares
  | validated coherent accepted listed reached member found opcode values =>
      obtain ⟨before, rest, split⟩ := List.append_of_mem member
      obtain ⟨_, admitted⟩ := (Validation.admittedBlock_of_validate coherent accepted listed
        reached).instruction split
      cases admitted.found.symm.trans found
      have checked := elementType_of_admitted admitted opcode values
      exact ⟨(Edit.Lasting.refl store : store.Ages store).exists_picks (checked.trans declares),
        _, found, .inl ⟨.inl opcode, values⟩⟩

end Store

/-! ## Running accesses -/

namespace Machine

open Exec

/--
At run time an access stays inside the values that it meets, or one of its indices that is
no constant strays from the elements.  Its indices have values of their types, and come to
a path.  From a value of the shape of its type the element is extracted, and inserting one
keeps the shape.  A reference leads to the element for as long as what it was made from
holds a value of the shape.
-/
structure Scene.Confines (scene : Scene) (ref : Ref) (entry : Instruction) (base : Option Ref)
    (indices : List (Option Ref)) (type picked : Ty) : Prop where
  extract : ∀ {steps : Nat} {heap left : Heap} {datum : Datum}
    {data : List Datum},
    entry.opcode = .arithmetic .extract → entry.values = base :: indices →
    outcome (scene.evalAll entry.values) heap = (.ok (datum :: data), left) →
    datum.Shaped type → List.Forall₂ scene.Fits indices data →
    ∃ path, Indexes data path ∧ (scene.program.Strays type indices path ∨
      ∃ element, datum.read? path = some element ∧ element.Shaped picked ∧
        outcome (scene.execute ref entry steps) heap = (.ok (some element), left))
  insert : ∀ {steps : Nat} {heap left : Heap} {datum new : Datum}
    {data : List Datum} {inserted : Option Ref},
    entry.opcode = .arithmetic .insert → entry.values = base :: inserted :: indices →
    outcome (scene.evalAll entry.values) heap = (.ok (datum :: new :: data), left) →
    datum.Shaped type → List.Forall₂ scene.Fits indices data →
    ∃ path, Indexes data path ∧ (scene.program.Strays type indices path ∨
      ∃ written, datum.write? path new = some written ∧ (new.Shaped picked → written.Shaped type) ∧
        outcome (scene.execute ref entry steps) heap = (.ok (some written), left))
  gep : ∀ {steps : Nat} {heap between left : Heap} {cell : Nat}
    {below : List Int} {data : List Datum},
    entry.opcode = .gep → entry.values = base :: indices →
    outcome (scene.evalAll indices) heap = (.ok data, between) →
    List.Forall₂ scene.Fits indices data →
    outcome (scene.reference base) between = (.ok (cell, below), left) →
    ∃ path serial last, Indexes data path ∧
      outcome (scene.execute ref entry steps) heap =
        (.ok (some (.reference serial cell (below ++ path))), last) ∧
      (scene.program.Strays type indices path ∨
        ∀ (later : Heap) (content : Datum), later.load? cell below = some content →
          content.Shaped type →
          (∃ element, later.load? cell (below ++ path) = some element ∧ element.Shaped picked) ∧
          ∀ new, ∃ stored, later.store? cell (below ++ path) new = some stored ∧
            (new.Shaped picked →
              ∃ changed, stored.load? cell below = some changed ∧ changed.Shaped type))

variable {scene : Scene} {ref : Ref} {entry : Instruction} {base : Option Ref}
  {indices : List (Option Ref)} {type picked : Ty} {heap left : Heap}

theorem evalAll_cons
    {operand : Option Ref}
    {operands : List (Option Ref)}
    {datum : Datum}
    {data : List Datum}
    (evaluated : outcome (scene.evalAll (operand :: operands)) heap = (.ok (datum :: data), left)) :
    ∃ between, outcome (scene.evalAll operands) between = (.ok data, left) := by
  cases operand with
  | none =>
      rw [Scene.evalAll] at evaluated
      obtain ⟨rest, between, evaluated, answer⟩ := outcome_bind_eq_ok.1 evaluated
      cases answer
      exact ⟨heap, evaluated⟩
  | some operand =>
      rw [Scene.evalAll] at evaluated
      obtain ⟨_, between, -, evaluated⟩ := outcome_bind_eq_ok.1 evaluated
      obtain ⟨rest, _, evaluated, answer⟩ := outcome_bind_eq_ok.1 evaluated
      cases answer
      exact ⟨between, evaluated⟩

/-- Where indices pick a type, their values lead to a part of that type, or one strays. -/
theorem exists_part
    (picks : scene.program.Picks type indices picked)
    {data : List Datum}
    (evaluated : outcome (scene.evalAll indices) heap = (.ok data, left))
    (fit : List.Forall₂ scene.Fits indices data) :
    ∃ path, Indexes data path ∧ outcome (scene.path indices) heap = (.ok path, left) ∧
      (scene.program.Strays type indices path ∨ ∀ datum : Datum, datum.Shaped type →
        (∃ element, datum.read? path = some element ∧ element.Shaped picked) ∧
        ∀ new, ∃ written, datum.write? path new = some written ∧
          (new.Shaped picked → written.Shaped type)) := by
  obtain ⟨path, indexes, positions, followed⟩ := exists_path picks.integers evaluated fit
  refine ⟨path, indexes, followed, ?_⟩
  by_cases strays : scene.program.Strays type indices path
  · exact .inl strays
  · exact .inr fun datum shaped => picks.reaches positions strays shaped

/-- Where indices pick a type, running the access is confined to its elements. -/
theorem confines_of_picks (picks : scene.program.Picks type indices picked) :
    scene.Confines ref entry base indices type picked where
  extract := by
    intro steps heap left datum data opcode values evaluated shaped fit
    have evaluated' := evaluated
    rw [values] at evaluated'
    obtain ⟨between, evaluated'⟩ := evalAll_cons evaluated'
    obtain ⟨path, indexes, -, reaches⟩ := exists_part picks evaluated' fit
    refine ⟨path, indexes, reaches.imp_right fun reaches => ?_⟩
    obtain ⟨⟨element, read, shaped⟩, -⟩ := reaches datum shaped
    refine ⟨element, read, shaped, ?_⟩
    unfold Scene.execute
    rw [opcode]
    simp only [outcome_bind, evaluated, arithmetic, extract_of_indexes indexes,
      outcome_demand, read, outcome_pure]
  insert := by
    intro steps heap left datum new data inserted opcode values evaluated shaped fit
    have evaluated' := evaluated
    rw [values] at evaluated'
    obtain ⟨_, evaluated'⟩ := evalAll_cons evaluated'
    obtain ⟨_, evaluated'⟩ := evalAll_cons evaluated'
    obtain ⟨path, indexes, -, reaches⟩ := exists_part picks evaluated' fit
    refine ⟨path, indexes, reaches.imp_right fun reaches => ?_⟩
    obtain ⟨written, write, kept⟩ := (reaches datum shaped).2 new
    refine ⟨written, write, kept, ?_⟩
    unfold Scene.execute
    rw [opcode]
    simp only [outcome_bind, evaluated, arithmetic, toPath_of_indexes indexes,
      outcome_demand, write, outcome_pure]
  gep := by
    intro steps heap between left cell below data opcode values evaluated fit referred
    obtain ⟨path, indexes, followed, reaches⟩ := exists_part picks evaluated fit
    have operand : outcome (Scene.operand entry 0) heap = (.ok base, heap) :=
      outcome_demand_eq_ok.2 ⟨Instruction.operand?_zero values, rfl⟩
    refine ⟨path, left.serial, (left.newReference cell (below ++ path)).2, indexes, ?_,
      reaches.imp_right fun reaches later content held shaped => ?_⟩
    · unfold Scene.execute
      rw [opcode]
      simp only [outcome_bind, operand, values, List.drop_succ_cons, List.drop_zero, followed,
        referred, outcome_make, outcome_pure, Heap.newReference]
    · obtain ⟨⟨element, read, shapedElement⟩, writes⟩ := reaches content shaped
      refine ⟨⟨element, Heap.load?_append held read, shapedElement⟩, fun new => ?_⟩
      obtain ⟨written, write, kept⟩ := writes new
      obtain ⟨stored, store, changed⟩ := Heap.store?_append held write
      exact ⟨stored, store, fun new => ⟨written, changed, kept new⟩⟩

end Machine

/--
An accepted access whose declared element type is not void has a base of a type below which
its indices pick the element type: each prefix of them leads to an aggregate, constants are
below the number of its elements and not negative, and only constants choose from records.
When it is run on values of the shapes of their types, it is confined to the elements there
are, unless an index that is no constant strays from them.
-/
theorem Store.Accepts.access_confined
    {program : Store}
    {ref : Ref}
    {base : Option Ref}
    {indices : List (Option Ref)}
    {element : Option Ty}
    {picked : Ty}
    (accepts : program.Accepts ref base indices element)
    (declares : element = some picked) :
    ∃ type entry, program.typeOfOption base = some type ∧
      program.Picks type indices picked ∧
      program.instruction? ref = some entry ∧ entry.GetsTo base indices ∧
      ∀ scene : Machine.Scene, scene.program = program →
        scene.Confines ref entry base indices type picked := by
  obtain ⟨⟨type, typed, picks⟩, entry, found, gets⟩ := accepts.picksBy declares
  refine ⟨type, entry, typed, picks, found, gets, ?_⟩
  rintro scene rfl
  exact Machine.confines_of_picks picks

/-- A reference to the last of three integers. -/
def pointing : Store :=
  let number : Ty := .scalar ⟨0, 0, "i32"⟩ (.signed 4)
  let row : Ty := .array ⟨0, 1, ""⟩ number 3
  (Session.after [
    .edit (.addModule "pointing"),
    .edit (.createFunction 0 .kernel none),
    .edit (.createBody ⟨0⟩),
    .edit (.constantInt32 0 2),
    .edit (.arrayType 0 (some number) 3),
    .moveToEnd ⟨1⟩, .alloca (some row) .local, .gep (some number) (some ⟨3⟩) [some ⟨2⟩],
    .load (some number) (some ⟨4⟩), .emit .ret none [] (.refl true)]).store

theorem Store.access_confined_pointing :
    ∃ type picked entry, pointing.Picks type [some ⟨2⟩] picked ∧
      pointing.instruction? ⟨4⟩ = some entry ∧
      ({ program := pointing, settings := { limit := 9 }, values := ∅ } :
        Machine.Scene).Confines ⟨4⟩ entry
        (some ⟨3⟩) [some ⟨2⟩] type picked := by
  have coherent : pointing.Coherent := (Session.after_coherent _).store
  have body : pointing.body? ⟨0⟩ = some ⟨1⟩ := by decide +kernel
  have reached : pointing.Reached ⟨0⟩ ⟨1⟩ := ⟨⟨1⟩, body, .refl⟩
  have accepted : pointing.validate? 0 = some [] := by decide +kernel
  have listed : ⟨0⟩ ∈ pointing.functions 0 := by decide +kernel
  have gep : pointing.opcode? ⟨4⟩ = some .gep := by decide +kernel
  obtain ⟨entry, found, opcode⟩ := Option.map_eq_some_iff.1 gep
  have values : (pointing.instruction? ⟨4⟩).map Instruction.values =
      some [some ⟨3⟩, some ⟨2⟩] := by
    decide +kernel
  rw [found, Option.map_some, Option.some.injEq] at values
  have accepts : pointing.Accepts ⟨4⟩ (some ⟨3⟩) [some ⟨2⟩] (pointing.typeOf ⟨4⟩) :=
    .validated coherent accepted listed reached (by decide +kernel) found opcode values
  have declares : pointing.typeOf ⟨4⟩ = some (.scalar ⟨0, 0, "i32"⟩ (.signed 4)) := by
    decide +kernel
  obtain ⟨type, entry, -, picks, found, -, confines⟩ := accepts.access_confined declares
  exact ⟨type, _, entry, picks, found, confines _ (by dsimp only)⟩

end ShaderIR
