import Mathlib.Data.List.Forall2
import Mathlib.Order.Defs.PartialOrder
import ShaderIR.Machine.Run

/-!
# Heaps that stand for each other

Two runs of one program that allocate different things have different numbers
for the cells, ray queries and references they share.  A link says which number
of the first heap stands for which number of the second one.  Linked data have
the same shape and the same scalars, and their handles are linked.

Links only grow while the two runs go on, so everything stated here is kept by
larger links.
-/

namespace ShaderIR.Machine

/--
Which cells, ray queries and references of two heaps stand for each other.  A
reference is known by its serial number; the link also knows the places of the
references of the second heap, so that one serial number has one place.  An exact
link tells references apart.  The first heap may have cells of its own, which stand for
nothing for ever.
-/
structure Link where
  cells : Nat → Nat → Prop
  queries : Nat → Nat → Prop
  references : Nat → Nat → Prop
  places : Nat → Nat × List Int → Prop
  own : Nat → Prop
  exact : Prop

/-- What stands for each other does so in another link as well. -/
structure Link.Within (link larger : Link) : Prop where
  cells : ∀ {cell cell'}, link.cells cell cell' → larger.cells cell cell'
  queries : ∀ {query query'}, link.queries query query' → larger.queries query query'
  references : ∀ {serial serial'}, link.references serial serial' →
    larger.references serial serial'
  places : ∀ {serial place}, link.places serial place → larger.places serial place
  own : ∀ {cell}, link.own cell → larger.own cell

namespace Link

instance : Preorder Link where
  le link larger := link.Within larger ∧ (link.exact → larger.exact)
  le_refl link := ⟨⟨id, id, id, id, id⟩, id⟩
  le_trans first second third step step' :=
    ⟨⟨step'.1.cells ∘ step.1.cells, step'.1.queries ∘ step.1.queries,
      step'.1.references ∘ step.1.references, step'.1.places ∘ step.1.places,
      step'.1.own ∘ step.1.own⟩, step'.2 ∘ step.2⟩

/-- A link that also pairs two cells. -/
def addCell (link : Link) (cell cell' : Nat) : Link :=
  { link with
    cells := fun other other' => link.cells other other' ∨ (other = cell ∧ other' = cell') }

/-- A link that also pairs two ray queries. -/
def addQuery (link : Link) (query query' : Nat) : Link :=
  { link with
    queries := fun other other' => link.queries other other' ∨ (other = query ∧ other' = query') }

/-- A link that also pairs two references, the second one of which leads to a place. -/
def addReference (link : Link) (serial serial' : Nat) (place : Nat × List Int) : Link :=
  { link with
    references := fun other other' =>
      link.references other other' ∨ (other = serial ∧ other' = serial')
    places := fun other' place' => link.places other' place' ∨ (other' = serial' ∧ place' = place) }

/-- A link that also leaves a cell to the first heap. -/
def addOwn (link : Link) (cell : Nat) : Link :=
  { link with own := fun other => link.own other ∨ other = cell }

theorem le_addCell (link : Link) (cell cell' : Nat) : link ≤ link.addCell cell cell' :=
  ⟨⟨.inl, id, id, id, id⟩, id⟩

theorem le_addQuery (link : Link) (query query' : Nat) : link ≤ link.addQuery query query' :=
  ⟨⟨id, .inl, id, id, id⟩, id⟩

theorem le_addReference (link : Link) (serial serial' : Nat) (place : Nat × List Int) :
    link ≤ link.addReference serial serial' place :=
  ⟨⟨id, id, .inl, .inl, id⟩, id⟩

theorem le_addOwn (link : Link) (cell : Nat) : link ≤ link.addOwn cell :=
  ⟨⟨id, id, id, id, .inl⟩, id⟩

end Link

/-- Two data are the same up to a link. -/
inductive Linked (link : Link) : Datum → Datum → Prop
  | absent : Linked link .absent .absent
  | bool (truth : Bool) : Linked link (.bool truth) (.bool truth)
  | int (number : Int64) : Linked link (.int number) (.int number)
  | uint (number : UInt64) : Linked link (.uint number) (.uint number)
  | float (number : Float) : Linked link (.float number) (.float number)
  | aggregate {elements elements' : List Datum} :
      List.Forall₂ (Linked link) elements elements' →
        Linked link (.aggregate elements) (.aggregate elements')
  | reference {serial serial' cell cell' : Nat} {path : List Int} :
      link.cells cell cell' → link.references serial serial' → link.places serial' (cell', path) →
        Linked link (.reference serial cell path) (.reference serial' cell' path)
  | buffer (address : Nat) : Linked link (.buffer address) (.buffer address)
  | rayQuery {address address' : Nat} :
      link.queries address address' → Linked link (.rayQuery address) (.rayQuery address')
  | entity (ref : Ref) : Linked link (.entity ref) (.entity ref)

/-- Two lists of data are the same up to a link, one by one. -/
abbrev AllLinked (link : Link) : List Datum → List Datum → Prop :=
  List.Forall₂ (Linked link)

mutual

theorem Linked.within
    {link larger : Link}
    (inside : link.Within larger)
    {left right : Datum}
    (linked : Linked link left right) :
    Linked larger left right := by
  cases linked with
  | absent => exact .absent
  | bool truth => exact .bool truth
  | int number => exact .int number
  | uint number => exact .uint number
  | float number => exact .float number
  | aggregate elements => exact .aggregate (AllLinked.within inside elements)
  | reference cells references places =>
      exact .reference (inside.cells cells) (inside.references references) (inside.places places)
  | buffer address => exact .buffer address
  | rayQuery queries => exact .rayQuery (inside.queries queries)
  | entity ref => exact .entity ref

theorem AllLinked.within
    {link larger : Link}
    (inside : link.Within larger)
    {lefts rights : List Datum}
    (linked : AllLinked link lefts rights) :
    AllLinked larger lefts rights := by
  cases linked with
  | nil => exact .nil
  | cons first rest => exact .cons (Linked.within inside first) (AllLinked.within inside rest)

end

theorem Linked.mono
    {link larger : Link}
    (grows : link ≤ larger)
    {left right : Datum}
    (linked : Linked link left right) :
    Linked larger left right :=
  linked.within grows.1

theorem AllLinked.mono
    {link larger : Link}
    (grows : link ≤ larger)
    {lefts rights : List Datum}
    (linked : AllLinked link lefts rights) :
    AllLinked larger lefts rights :=
  AllLinked.within grows.1 linked

/-! ## Parts of linked data -/

theorem forall₂_getElem?
    {α β : Type}
    {related : α → β → Prop}
    {lefts : List α}
    {rights : List β}
    (all : List.Forall₂ related lefts rights)
    {index : Nat}
    {left : α}
    (found : lefts[index]? = some left) :
    ∃ right, rights[index]? = some right ∧ related left right := by
  induction all generalizing index with
  | nil => simp at found
  | cons first rest induction =>
      cases index with
      | zero =>
          cases found
          exact ⟨_, rfl, first⟩
      | succ index => exact induction found

theorem forall₂_set
    {α β : Type}
    {related : α → β → Prop}
    {lefts : List α}
    {rights : List β}
    (all : List.Forall₂ related lefts rights)
    (index : Nat)
    {left : α}
    {right : β}
    (new : related left right) :
    List.Forall₂ related (lefts.set index left) (rights.set index right) := by
  induction all generalizing index with
  | nil => exact .nil
  | cons first rest induction =>
      cases index with
      | zero => exact .cons new rest
      | succ index => exact .cons first (induction index)

theorem AllLinked.elementAt?
    {link : Link}
    {lefts rights : List Datum}
    (linked : AllLinked link lefts rights)
    {index : Int}
    {left : Datum}
    (found : Datum.elementAt? lefts index = some left) :
    ∃ right, Datum.elementAt? rights index = some right ∧ Linked link left right := by
  unfold Datum.elementAt? at found ⊢
  split at found
  · cases found
  · rename_i inside
    rw [if_neg inside]
    exact forall₂_getElem? linked found

theorem Linked.read?
    {link : Link}
    {left right : Datum}
    (linked : Linked link left right)
    {path : List Int}
    {part : Datum}
    (found : left.read? path = some part) :
    ∃ part', right.read? path = some part' ∧ Linked link part part' := by
  induction path generalizing left right with
  | nil =>
      rw [Datum.read?] at found
      cases found
      exact ⟨right, by rw [Datum.read?], linked⟩
  | cons index path induction =>
      cases linked with
      | aggregate elements =>
          rw [Datum.read?] at found
          rcases Option.bind_eq_some_iff.1 found with ⟨element, elementFound, rest⟩
          rcases AllLinked.elementAt? elements elementFound with ⟨element', elementFound', linked⟩
          rcases induction linked rest with ⟨part', rest', linked'⟩
          exact ⟨part', by rw [Datum.read?, elementFound']; exact rest', linked'⟩
      | _ => simp [Datum.read?] at found

theorem Linked.write?
    {link : Link}
    {left right new new' : Datum}
    (linked : Linked link left right)
    (linkedNew : Linked link new new')
    {path : List Int}
    {written : Datum}
    (found : left.write? path new = some written) :
    ∃ written', right.write? path new' = some written' ∧ Linked link written written' := by
  induction path generalizing left right written with
  | nil =>
      rw [Datum.write?] at found
      cases found
      exact ⟨new', by rw [Datum.write?], linkedNew⟩
  | cons index path induction =>
      cases linked with
      | aggregate elements =>
          rw [Datum.write?] at found
          rcases Option.bind_eq_some_iff.1 found with ⟨element, elementFound, rest⟩
          rcases Option.bind_eq_some_iff.1 rest with ⟨changed, changedFound, equal⟩
          cases equal
          rcases AllLinked.elementAt? elements elementFound with ⟨element', elementFound', linked⟩
          rcases induction linked changedFound with ⟨changed', changedFound', linked'⟩
          refine ⟨_, ?_, .aggregate (forall₂_set elements index.toNat linked')⟩
          rw [Datum.write?, elementFound']
          simp [changedFound']
      | _ => simp [Datum.write?] at found

/-! ## Growing heaps -/

/-- A heap got new cells, ray queries and references, and is otherwise as it was. -/
structure Heap.Grows (heap grown : Heap) : Prop where
  cells : ∀ {cell : Nat} {content : Datum}, heap.cells[cell]? = some content →
    grown.cells[cell]? = some content
  queries : ∀ {query : Nat} {state : RayQuery}, heap.rayQueries[query]? = some state →
    grown.rayQueries[query]? = some state
  buffers : grown.buffers = heap.buffers
  serial : heap.serial ≤ grown.serial
  size_le : heap.cells.size ≤ grown.cells.size

namespace Heap.Grows

theorem refl (heap : Heap) : heap.Grows heap :=
  ⟨fun held => held, fun held => held, rfl, Nat.le_refl _, Nat.le_refl _⟩

theorem trans
    {heap middle grown : Heap}
    (first : heap.Grows middle)
    (second : middle.Grows grown) :
    heap.Grows grown :=
  ⟨fun held => second.cells (first.cells held), fun held => second.queries (first.queries held),
    second.buffers.trans first.buffers, Nat.le_trans first.serial second.serial,
    Nat.le_trans first.size_le second.size_le⟩

theorem newVariable (heap : Heap) (content : Datum) :
    heap.Grows (heap.newVariable content).2 where
  cells := by
    intro cell old held
    have inside := (Array.getElem?_eq_some_iff.1 held).1
    simp only [Heap.newVariable]
    rw [Array.getElem?_push, if_neg (Nat.ne_of_lt inside)]
    exact held
  queries := fun held => held
  buffers := rfl
  serial := Nat.le_succ _
  size_le := by simp [Heap.newVariable]

theorem newReference (heap : Heap) (cell : Nat) (path : List Int) :
    heap.Grows (heap.newReference cell path).2 :=
  ⟨fun held => held, fun held => held, rfl, Nat.le_succ _, Nat.le_refl _⟩

theorem newRayQuery (heap : Heap) (state : RayQuery) :
    heap.Grows (heap.newRayQuery state).2 where
  cells := fun held => held
  queries := by
    intro query old held
    have inside := (Array.getElem?_eq_some_iff.1 held).1
    simp only [Heap.newRayQuery]
    rw [Array.getElem?_push, if_neg (Nat.ne_of_lt inside)]
    exact held
  buffers := rfl
  serial := Nat.le_refl _
  size_le := Nat.le_refl _

end Heap.Grows

/-! ## Linked heaps -/

/-- The serial numbers of references below some bounds stand for each other one-to-one. -/
structure TellsApart (references : Nat → Nat → Prop) (bound bound' : Nat) : Prop where
  inside : ∀ {serial serial'}, references serial serial' → serial < bound ∧ serial' < bound'
  right : ∀ {serial serial' other'}, references serial serial' → references serial other' →
    serial' = other'
  left : ∀ {serial other serial'}, references serial serial' → references other serial' →
    serial = other

/--
The linked parts of two heaps hold linked data.  The link is one-to-one, except for
references that it does not tell apart.
-/
structure Link.Heaps (link : Link) (heap heap' : Heap) : Prop where
  cell : ∀ {cell cell'}, link.cells cell cell' →
    ∃ content content', heap.cells[cell]? = some content ∧
      heap'.cells[cell']? = some content' ∧ Linked link content content'
  cellRight : ∀ {cell cell' other'}, link.cells cell cell' → link.cells cell other' →
    cell' = other'
  cellLeft : ∀ {cell cell' other}, link.cells cell cell' → link.cells other cell' → cell = other
  query : ∀ {query query'}, link.queries query query' →
    ∃ state, heap.rayQueries[query]? = some state ∧ heap'.rayQueries[query']? = some state
  queryRight : ∀ {query query' other'}, link.queries query query' →
    link.queries query other' → query' = other'
  queryLeft : ∀ {query query' other}, link.queries query query' → link.queries other query' →
    query = other
  buffers : List.Forall₂ (AllLinked link) heap.buffers.toList heap'.buffers.toList
  serial : ∀ {serial place}, link.places serial place → serial < heap'.serial
  place : ∀ {serial place place'}, link.places serial place → link.places serial place' →
    place = place'
  own : ∀ {cell}, link.own cell → cell < heap.cells.size ∧ ∀ cell', ¬link.cells cell cell'
  apart : link.exact → TellsApart link.references heap.serial heap'.serial

namespace TellsApart

variable {references : Nat → Nat → Prop} {bound bound' : Nat}

theorem push (apart : TellsApart references bound bound') :
    TellsApart (fun serial serial' => references serial serial' ∨
      (serial = bound ∧ serial' = bound'))
      (bound + 1) (bound' + 1) where
  inside := by
    rintro serial serial' (old | ⟨rfl, rfl⟩)
    · have inside := apart.inside old
      exact ⟨Nat.lt_succ_of_lt inside.1, Nat.lt_succ_of_lt inside.2⟩
    · exact ⟨Nat.lt_succ_self _, Nat.lt_succ_self _⟩
  right := by
    rintro serial serial' other' (old | ⟨rfl, rfl⟩) (old' | ⟨same, rfl⟩)
    · exact apart.right old old'
    · exact absurd same (Nat.ne_of_lt (apart.inside old).1)
    · exact absurd (apart.inside old').1 (Nat.lt_irrefl _)
    · rfl
  left := by
    rintro serial other serial' (old | ⟨rfl, rfl⟩) (old' | ⟨rfl, same⟩)
    · exact apart.left old old'
    · exact absurd same (Nat.ne_of_lt (apart.inside old).2)
    · exact absurd (apart.inside old').2 (Nat.lt_irrefl _)
    · rfl

theorem growLeft
    (apart : TellsApart references bound bound')
    {larger : Nat}
    (more : bound ≤ larger) :
    TellsApart references larger bound' where
  inside := fun linked =>
    ⟨Nat.lt_of_lt_of_le (apart.inside linked).1 more, (apart.inside linked).2⟩
  right := apart.right
  left := apart.left

end TellsApart

namespace Link.Heaps

variable {link : Link} {heap heap' : Heap}

theorem load?
    (heaps : link.Heaps heap heap')
    {cell cell' : Nat}
    {path : List Int}
    (linked : link.cells cell cell')
    {content : Datum}
    (found : heap.load? cell path = some content) :
    ∃ content', heap'.load? cell' path = some content' ∧ Linked link content content' := by
  rcases heaps.cell linked with ⟨whole, whole', held, held', linkedWhole⟩
  rw [Heap.load?, held] at found
  rcases linkedWhole.read? found with ⟨content', found', linkedContent⟩
  refine ⟨content', ?_, linkedContent⟩
  rw [Heap.load?, held']
  exact found'

/-- Replacing the contents of linked cells by linked data keeps heaps linked. -/
theorem setCell
    (heaps : link.Heaps heap heap')
    {cell cell' : Nat}
    (linked : link.cells cell cell')
    {content content' : Datum}
    (linkedContent : Linked link content content') :
    link.Heaps { heap with cells := heap.cells.setIfInBounds cell content }
      { heap' with cells := heap'.cells.setIfInBounds cell' content' } where
  cell := by
    intro other other' linkedOther
    rcases heaps.cell linkedOther with ⟨old, old', held, held', linkedOld⟩
    by_cases same : cell = other
    · subst same
      have same' : cell' = other' := heaps.cellRight linked linkedOther
      subst same'
      have inside : cell < heap.cells.size := (Array.getElem?_eq_some_iff.1 held).1
      have inside' : cell' < heap'.cells.size := (Array.getElem?_eq_some_iff.1 held').1
      exact ⟨content, content', by simp [inside], by simp [inside'], linkedContent⟩
    · have different : cell' ≠ other' := by
        rintro rfl
        exact same (heaps.cellLeft linked linkedOther)
      exact ⟨old, old', by simp [same, held],
        by simp [different, held'], linkedOld⟩
  cellRight := heaps.cellRight
  cellLeft := heaps.cellLeft
  query := heaps.query
  queryRight := heaps.queryRight
  queryLeft := heaps.queryLeft
  buffers := heaps.buffers
  serial := heaps.serial
  place := heaps.place
  own := fun isOwn => by simpa using heaps.own isOwn
  apart := heaps.apart

theorem store?
    (heaps : link.Heaps heap heap')
    {cell cell' : Nat}
    {path : List Int}
    (linked : link.cells cell cell')
    {new new' : Datum}
    (linkedNew : Linked link new new')
    {left : Heap}
    (found : heap.store? cell path new = some left) :
    ∃ left', heap'.store? cell' path new' = some left' ∧ link.Heaps left left' := by
  rcases heaps.cell linked with ⟨whole, whole', held, held', linkedWhole⟩
  rcases Option.bind_eq_some_iff.1 found with ⟨content, contentFound, rest⟩
  rcases Option.bind_eq_some_iff.1 rest with ⟨written, writtenFound, equal⟩
  cases equal
  cases held.symm.trans contentFound
  rcases linkedWhole.write? linkedNew writtenFound with ⟨written', writtenFound', linkedWritten⟩
  refine ⟨_, ?_, heaps.setCell linked linkedWritten⟩
  simp [Heap.store?, held', writtenFound']

theorem cell_lt
    (heaps : link.Heaps heap heap')
    {cell cell' : Nat}
    (linked : link.cells cell cell') :
    cell < heap.cells.size ∧ cell' < heap'.cells.size := by
  rcases heaps.cell linked with ⟨content, content', held, held', -⟩
  exact ⟨(Array.getElem?_eq_some_iff.1 held).1, (Array.getElem?_eq_some_iff.1 held').1⟩

theorem query_lt
    (heaps : link.Heaps heap heap')
    {query query' : Nat}
    (linked : link.queries query query') :
    query < heap.rayQueries.size ∧ query' < heap'.rayQueries.size := by
  rcases heaps.query linked with ⟨state, held, held'⟩
  exact ⟨(Array.getElem?_eq_some_iff.1 held).1, (Array.getElem?_eq_some_iff.1 held').1⟩

theorem buffers_mono {larger : Link} (heaps : link.Heaps heap heap') (grows : link ≤ larger) :
    List.Forall₂ (AllLinked larger) heap.buffers.toList heap'.buffers.toList :=
  heaps.buffers.imp fun _ _ linked => AllLinked.mono grows linked

/-- New cells with linked contents can be linked. -/
theorem pushCell
    (heaps : link.Heaps heap heap')
    {content content' : Datum}
    (linked : Linked link content content') :
    (link.addCell heap.cells.size heap'.cells.size).Heaps
      { heap with cells := heap.cells.push content }
      { heap' with cells := heap'.cells.push content' } := by
  have grows := link.le_addCell heap.cells.size heap'.cells.size
  constructor
  case cell =>
    rintro cell cell' (old | ⟨rfl, rfl⟩)
    · rcases heaps.cell old with ⟨held, held', found, found', linkedOld⟩
      have inside := heaps.cell_lt old
      refine ⟨held, held', ?_, ?_, linkedOld.mono grows⟩
      · rw [Array.getElem?_push, if_neg (Nat.ne_of_lt inside.1)]
        exact found
      · rw [Array.getElem?_push, if_neg (Nat.ne_of_lt inside.2)]
        exact found'
    · exact ⟨content, content', by simp, by simp, linked.mono grows⟩
  case cellRight =>
    rintro cell cell' other' (old | ⟨rfl, rfl⟩) (old' | ⟨same, rfl⟩)
    · exact heaps.cellRight old old'
    · exact absurd same (Nat.ne_of_lt (heaps.cell_lt old).1)
    · exact absurd (heaps.cell_lt old').1 (Nat.lt_irrefl _)
    · rfl
  case cellLeft =>
    rintro cell cell' other (old | ⟨rfl, rfl⟩) (old' | ⟨rfl, same⟩)
    · exact heaps.cellLeft old old'
    · exact absurd same (Nat.ne_of_lt (heaps.cell_lt old).2)
    · exact absurd (heaps.cell_lt old').2 (Nat.lt_irrefl _)
    · rfl
  case query => exact heaps.query
  case queryRight => exact heaps.queryRight
  case queryLeft => exact heaps.queryLeft
  case buffers => exact heaps.buffers_mono grows
  case serial => exact heaps.serial
  case place => exact heaps.place
  case own =>
    intro cell isOwn
    obtain ⟨inside, alone⟩ := heaps.own isOwn
    refine ⟨by simpa using Nat.lt_succ_of_lt inside, ?_⟩
    rintro cell' (old | ⟨rfl, -⟩)
    · exact alone cell' old
    · exact absurd inside (Nat.lt_irrefl _)
  case apart => exact heaps.apart

/-- New ray queries in the same state can be linked. -/
theorem pushQuery (heaps : link.Heaps heap heap') (state : RayQuery) :
    (link.addQuery heap.rayQueries.size heap'.rayQueries.size).Heaps
      { heap with rayQueries := heap.rayQueries.push state }
      { heap' with rayQueries := heap'.rayQueries.push state } := by
  have grows := link.le_addQuery heap.rayQueries.size heap'.rayQueries.size
  constructor
  case cell =>
    intro cell cell' old
    rcases heaps.cell old with ⟨held, held', found, found', linkedOld⟩
    exact ⟨held, held', found, found', linkedOld.mono grows⟩
  case cellRight => exact heaps.cellRight
  case cellLeft => exact heaps.cellLeft
  case query =>
    rintro query query' (old | ⟨rfl, rfl⟩)
    · rcases heaps.query old with ⟨held, found, found'⟩
      have inside := heaps.query_lt old
      refine ⟨held, ?_, ?_⟩
      · rw [Array.getElem?_push, if_neg (Nat.ne_of_lt inside.1)]
        exact found
      · rw [Array.getElem?_push, if_neg (Nat.ne_of_lt inside.2)]
        exact found'
    · exact ⟨state, by simp, by simp⟩
  case queryRight =>
    rintro query query' other' (old | ⟨rfl, rfl⟩) (old' | ⟨same, rfl⟩)
    · exact heaps.queryRight old old'
    · exact absurd same (Nat.ne_of_lt (heaps.query_lt old).1)
    · exact absurd (heaps.query_lt old').1 (Nat.lt_irrefl _)
    · rfl
  case queryLeft =>
    rintro query query' other (old | ⟨rfl, rfl⟩) (old' | ⟨rfl, same⟩)
    · exact heaps.queryLeft old old'
    · exact absurd same (Nat.ne_of_lt (heaps.query_lt old).2)
    · exact absurd (heaps.query_lt old').2 (Nat.lt_irrefl _)
    · rfl
  case buffers => exact heaps.buffers_mono grows
  case serial => exact heaps.serial
  case place => exact heaps.place
  case own => exact heaps.own
  case apart => exact heaps.apart

/-- New references to linked places can be linked. -/
theorem pushReference (heaps : link.Heaps heap heap') (place : Nat × List Int) :
    (link.addReference heap.serial heap'.serial place).Heaps
      { heap with serial := heap.serial + 1 } { heap' with serial := heap'.serial + 1 } := by
  have grows := link.le_addReference heap.serial heap'.serial place
  constructor
  case cell =>
    intro cell cell' old
    rcases heaps.cell old with ⟨held, held', found, found', linkedOld⟩
    exact ⟨held, held', found, found', linkedOld.mono grows⟩
  case cellRight => exact heaps.cellRight
  case cellLeft => exact heaps.cellLeft
  case query => exact heaps.query
  case queryRight => exact heaps.queryRight
  case queryLeft => exact heaps.queryLeft
  case buffers => exact heaps.buffers_mono grows
  case serial =>
    rintro serial place' (old | ⟨rfl, -⟩)
    · exact Nat.lt_succ_of_lt (heaps.serial old)
    · exact Nat.lt_succ_self _
  case place =>
    rintro serial place' place'' (old | ⟨rfl, rfl⟩) (old' | ⟨same, rfl⟩)
    · exact heaps.place old old'
    · exact absurd same (Nat.ne_of_lt (heaps.serial old))
    · exact absurd (heaps.serial old') (Nat.lt_irrefl _)
    · rfl
  case own => exact heaps.own
  case apart => exact fun exact => (heaps.apart exact).push

/-- Making variables with linked contents in both heaps gives linked references. -/
theorem newVariable
    (heaps : link.Heaps heap heap')
    {content content' : Datum}
    (linked : Linked link content content') :
    ∃ larger, link ≤ larger ∧
      larger.Heaps (heap.newVariable content).2 (heap'.newVariable content').2 ∧
      Linked larger (heap.newVariable content).1 (heap'.newVariable content').1 := by
  have pushed := (heaps.pushCell linked).pushReference (heap'.cells.size, [])
  have grows := le_trans (link.le_addCell heap.cells.size heap'.cells.size)
    (Link.le_addReference _ heap.serial heap'.serial (heap'.cells.size, []))
  exact ⟨_, grows, pushed,
    .reference (.inr ⟨rfl, rfl⟩) (.inr ⟨rfl, rfl⟩) (.inr ⟨rfl, rfl⟩)⟩

/-- Making references to linked places in both heaps gives linked references. -/
theorem newReference
    (heaps : link.Heaps heap heap')
    {cell cell' : Nat}
    (linked : link.cells cell cell')
    (path : List Int) :
    ∃ larger, link ≤ larger ∧
      larger.Heaps (heap.newReference cell path).2 (heap'.newReference cell' path).2 ∧
      Linked larger (heap.newReference cell path).1 (heap'.newReference cell' path).1 := by
  have grows := link.le_addReference heap.serial heap'.serial (cell', path)
  exact ⟨_, grows, heaps.pushReference (cell', path),
    .reference (grows.1.cells linked) (.inr ⟨rfl, rfl⟩) (.inr ⟨rfl, rfl⟩)⟩

/-- Making ray queries in the same state in both heaps gives linked handles. -/
theorem newRayQuery (heaps : link.Heaps heap heap') (state : RayQuery) :
    ∃ larger, link ≤ larger ∧
      larger.Heaps (heap.newRayQuery state).2 (heap'.newRayQuery state).2 ∧
      Linked larger (heap.newRayQuery state).1 (heap'.newRayQuery state).1 :=
  ⟨_, link.le_addQuery _ _, heaps.pushQuery state, .rayQuery (.inr ⟨rfl, rfl⟩)⟩

/-- Replacing the states of linked ray queries by the same state keeps heaps linked. -/
theorem setQuery
    (heaps : link.Heaps heap heap')
    {query query' : Nat}
    (linked : link.queries query query')
    (state : RayQuery) :
    link.Heaps { heap with rayQueries := heap.rayQueries.setIfInBounds query state }
      { heap' with rayQueries := heap'.rayQueries.setIfInBounds query' state } := by
  constructor
  case cell => exact heaps.cell
  case cellRight => exact heaps.cellRight
  case cellLeft => exact heaps.cellLeft
  case query =>
    intro other other' linkedOther
    rcases heaps.query linkedOther with ⟨old, held, held'⟩
    by_cases same : query = other
    · subst same
      have same' : query' = other' := heaps.queryRight linked linkedOther
      subst same'
      have inside := heaps.query_lt linked
      exact ⟨state, by simp [inside.1], by simp [inside.2]⟩
    · have different : query' ≠ other' := by
        rintro rfl
        exact same (heaps.queryLeft linked linkedOther)
      exact ⟨old, by simp [same, held], by simp [different, held']⟩
  case queryRight => exact heaps.queryRight
  case queryLeft => exact heaps.queryLeft
  case buffers => exact heaps.buffers
  case serial => exact heaps.serial
  case place => exact heaps.place
  case own => exact heaps.own
  case apart => exact heaps.apart

theorem buffer
    (heaps : link.Heaps heap heap')
    {address : Nat}
    {elements : List Datum}
    (found : heap.buffers[address]? = some elements) :
    ∃ elements', heap'.buffers[address]? = some elements' ∧
      AllLinked link elements elements' := by
  rw [← Array.getElem?_toList] at found
  rcases forall₂_getElem? heaps.buffers found with ⟨elements', found', linked⟩
  exact ⟨elements', by rw [← Array.getElem?_toList]; exact found', linked⟩

/-- Replacing the elements of a buffer by linked elements keeps heaps linked. -/
theorem setBuffer
    (heaps : link.Heaps heap heap')
    (address : Nat)
    {elements elements' : List Datum}
    (linked : AllLinked link elements elements') :
    link.Heaps { heap with buffers := heap.buffers.setIfInBounds address elements }
      { heap' with buffers := heap'.buffers.setIfInBounds address elements' } where
  cell := heaps.cell
  cellRight := heaps.cellRight
  cellLeft := heaps.cellLeft
  query := heaps.query
  queryRight := heaps.queryRight
  queryLeft := heaps.queryLeft
  buffers := by
    simpa using forall₂_set heaps.buffers address linked
  serial := heaps.serial
  place := heaps.place
  own := heaps.own
  apart := heaps.apart

/-! ## What only the first heap has -/

/-- What the first heap gains by itself stands for nothing, so heaps stay linked. -/
theorem growLeft (heaps : link.Heaps heap heap') {grown : Heap} (grows : heap.Grows grown) :
    link.Heaps grown heap' where
  cell := by
    intro cell cell' linked
    rcases heaps.cell linked with ⟨content, content', held, held', linkedContent⟩
    exact ⟨content, content', grows.cells held, held', linkedContent⟩
  cellRight := heaps.cellRight
  cellLeft := heaps.cellLeft
  query := by
    intro query query' linked
    rcases heaps.query linked with ⟨state, held, held'⟩
    exact ⟨state, grows.queries held, held'⟩
  queryRight := heaps.queryRight
  queryLeft := heaps.queryLeft
  buffers := by
    rw [grows.buffers]
    exact heaps.buffers
  serial := heaps.serial
  place := heaps.place
  own := fun isOwn => (heaps.own isOwn).imp_left fun inside =>
    Nat.lt_of_lt_of_le inside grows.size_le
  apart := fun exact => (heaps.apart exact).growLeft grows.serial

/-- A new cell can be left to the first heap. -/
theorem addOwn
    (heaps : link.Heaps heap heap')
    {cell : Nat}
    (inside : cell < heap.cells.size)
    (alone : ∀ cell', ¬link.cells cell cell') :
    (link.addOwn cell).Heaps heap heap' := by
  have grows := link.le_addOwn cell
  constructor
  case cell =>
    intro other other' linked
    obtain ⟨content, content', held, held', linkedContent⟩ := heaps.cell linked
    exact ⟨content, content', held, held', linkedContent.mono grows⟩
  case cellRight => exact heaps.cellRight
  case cellLeft => exact heaps.cellLeft
  case query => exact heaps.query
  case queryRight => exact heaps.queryRight
  case queryLeft => exact heaps.queryLeft
  case buffers => exact heaps.buffers_mono grows
  case serial => exact heaps.serial
  case place => exact heaps.place
  case own =>
    rintro other (isOwn | rfl)
    · exact heaps.own isOwn
    · exact ⟨inside, alone⟩
  case apart => exact heaps.apart

/-- What the first heap writes to a cell of its own stands for nothing, either. -/
theorem storeOwn
    (heaps : link.Heaps heap heap')
    {cell : Nat}
    (isOwn : link.own cell)
    {path : List Int}
    {new : Datum}
    {left : Heap}
    (stores : heap.store? cell path new = some left) :
    link.Heaps left heap' := by
  obtain ⟨content, -, stores⟩ := Option.bind_eq_some_iff.1 stores
  obtain ⟨written, -, equal⟩ := Option.bind_eq_some_iff.1 stores
  cases equal
  have alone := (heaps.own isOwn).2
  constructor
  case cell =>
    intro other other' linked
    obtain ⟨content, content', held, held', linkedContent⟩ := heaps.cell linked
    have different : cell ≠ other := by
      rintro rfl
      exact alone other' linked
    exact ⟨content, content', by simp [different, held], held', linkedContent⟩
  case cellRight => exact heaps.cellRight
  case cellLeft => exact heaps.cellLeft
  case query => exact heaps.query
  case queryRight => exact heaps.queryRight
  case queryLeft => exact heaps.queryLeft
  case buffers => exact heaps.buffers
  case serial => exact heaps.serial
  case place => exact heaps.place
  case own => exact fun isOwn => by simpa using heaps.own isOwn
  case apart => exact heaps.apart

end Link.Heaps

end ShaderIR.Machine
