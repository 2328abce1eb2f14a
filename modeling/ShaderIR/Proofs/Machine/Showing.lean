import Mathlib.Data.Finset.Card
import Mathlib.Logic.Relation
import ShaderIR.Proofs.Machine.Format

/-!
# Showing values without a bound

A value is shown by showing what it is made of and what its references refer to, one after
another.  Nothing bounds that in itself: a reference that leads back to itself would be followed
for ever.  The judgement of this module says what showing a value comes to when it comes to an
end, with no bound on how far references are followed.

Whatever the bounded search for a text finds is what showing comes to.  Showing a value comes to
an end unless a chain of references leads from the value back into itself, since without such a
circle each reference on a chain leaves fewer places that can still be come to.
-/

namespace ShaderIR.Machine

mutual

/-- What showing a value comes to: a text, or none when something cannot be shown. -/
inductive Shows (heap : Heap) : Datum → Option Line → Prop
  | aggregate {elements : List Datum} {parts : Option (List Line)} :
      ShowsAll heap elements parts →
      Shows heap (.aggregate elements) (parts.map fun parts =>
        .ofString "(" ++ Line.joined ", " parts ++ .ofString ")")
  | follow {serial cell : Nat} {path : List Int} {content : Datum} {text : Option Line} :
      heap.load? cell path = some content → Shows heap content text →
      Shows heap (.reference serial cell path) text
  | dangling {serial cell : Nat} {path : List Int} :
      heap.load? cell path = none → Shows heap (.reference serial cell path) none
  | plain {datum : Datum} :
      (∀ elements, datum ≠ .aggregate elements) →
      (∀ serial cell path, datum ≠ .reference serial cell path) →
      Shows heap datum (plainText? heap datum)

/-- What showing several values comes to; the first one that cannot be shown is the last one. -/
inductive ShowsAll (heap : Heap) : List Datum → Option (List Line) → Prop
  | nil : ShowsAll heap [] (some [])
  | fails {first : Datum} {rest : List Datum} :
      Shows heap first none → ShowsAll heap (first :: rest) none
  | cons {first : Datum} {rest : List Datum} {text : Line} {texts : Option (List Line)} :
      Shows heap first (some text) → ShowsAll heap rest texts →
      ShowsAll heap (first :: rest) (texts.map (text :: ·))

end

/-! ## Showing comes to one thing -/

section Unique

variable {heap : Heap}

mutual

/-- Showing a value comes to one thing at most. -/
theorem Shows.unique {datum : Datum} {text text' : Option Line} :
    Shows heap datum text → Shows heap datum text' → text' = text
  | .aggregate shown, .aggregate shown' => by rw [shown.unique shown']
  | .aggregate _, .plain noAggregate _ => absurd rfl (noAggregate _)
  | .follow held shown, .follow held' shown' => by
      cases held.symm.trans held'
      exact shown.unique shown'
  | .follow held _, .dangling missing => nomatch held.symm.trans missing
  | .follow _ _, .plain _ noReference => absurd rfl (noReference _ _ _)
  | .dangling missing, .follow held _ => nomatch held.symm.trans missing
  | .dangling _, .dangling _ => rfl
  | .dangling _, .plain _ noReference => absurd rfl (noReference _ _ _)
  | .plain noAggregate _, .aggregate _ => absurd rfl (noAggregate _)
  | .plain _ noReference, .follow _ _ => absurd rfl (noReference _ _ _)
  | .plain _ noReference, .dangling _ => absurd rfl (noReference _ _ _)
  | .plain _ _, .plain _ _ => rfl

theorem ShowsAll.unique {data : List Datum} {texts texts' : Option (List Line)} :
    ShowsAll heap data texts → ShowsAll heap data texts' → texts' = texts
  | .nil, .nil => rfl
  | .fails _, .fails _ => rfl
  | .fails fails, .cons shown _ => nomatch fails.unique shown
  | .cons shown _, .fails fails => nomatch shown.unique fails
  | .cons shown rest, .cons shown' rest' => by
      cases shown.unique shown'
      rw [rest.unique rest']

end

end Unique

/-! ## What the bounded search finds -/

section Search

variable {heap : Heap} {follow : Datum → Option Line}

mutual

theorem shows_of_formatWith?
    (follows : ∀ serial cell path text, follow (.reference serial cell path) = some text →
      Shows heap (.reference serial cell path) (some text))
    (datum : Datum)
    {text : Line}
    (found : formatWith? heap follow datum = some text) :
    Shows heap datum (some text) := by
  cases datum with
  | aggregate elements =>
      rw [formatWith?] at found
      rcases Option.bind_eq_some_iff.1 found with ⟨parts, partsFound, equal⟩
      cases equal
      exact .aggregate (showsAll_of_formatAllWith? follows elements partsFound)
  | reference serial cell path =>
      rw [formatWith?] at found
      exact follows serial cell path text found
  | _ =>
      rw [formatWith?] at found
      rw [← found]
      exact .plain (fun _ => Datum.noConfusion) fun _ _ _ => Datum.noConfusion

theorem showsAll_of_formatAllWith?
    (follows : ∀ serial cell path text, follow (.reference serial cell path) = some text →
      Shows heap (.reference serial cell path) (some text))
    (data : List Datum)
    {texts : List Line}
    (found : formatAllWith? heap follow data = some texts) :
    ShowsAll heap data (some texts) := by
  cases data with
  | nil =>
      rw [formatAllWith?] at found
      cases found
      exact .nil
  | cons first rest =>
      rw [formatAllWith?] at found
      rcases Option.bind_eq_some_iff.1 found with ⟨text, textFound, found⟩
      rcases Option.bind_eq_some_iff.1 found with ⟨others, othersFound, equal⟩
      cases equal
      exact .cons (shows_of_formatWith? follows first textFound)
        (showsAll_of_formatAllWith? follows rest othersFound)

end

/-- A text that is found within a depth is what showing comes to. -/
theorem shows_of_formatTo?
    {depth : Nat}
    {datum : Datum}
    {text : Line}
    (found : formatTo? heap depth datum = some text) : Shows heap datum (some text) := by
  induction depth generalizing datum text with
  | zero =>
      rw [formatTo?] at found
      cases found
  | succ depth induction =>
      rw [formatTo?_succ] at found
      refine shows_of_formatWith? (fun serial cell path text followed => ?_) datum found
      rw [followTo?] at followed
      rcases Option.bind_eq_some_iff.1 followed with ⟨content, held, shown⟩
      exact .follow held (induction shown)

end Search

/-! ## Chains of references -/

mutual

/-- The places that the references in a value refer to. -/
def Datum.places : Datum → List (Nat × List Int)
  | .aggregate elements => Datum.placesAll elements
  | .reference _ cell path => [(cell, path)]
  | _ => []

/-- The places that the references in several values refer to. -/
def Datum.placesAll : List Datum → List (Nat × List Int)
  | [] => []
  | first :: rest => first.places ++ Datum.placesAll rest

end

theorem Datum.mem_placesAll {data : List Datum} {place : Nat × List Int} :
    place ∈ Datum.placesAll data ↔ ∃ datum ∈ data, place ∈ datum.places := by
  induction data with
  | nil => simp [Datum.placesAll]
  | cons first rest induction => simp [Datum.placesAll, induction]

/-- What is at a place of a value refers to nothing that the value does not refer to. -/
theorem Datum.places_subset_of_read?
    {datum part : Datum}
    {path : List Int}
    (found : datum.read? path = some part) : part.places ⊆ datum.places := by
  induction path generalizing datum with
  | nil =>
      rw [Datum.read?] at found
      cases found
      exact fun _ member => member
  | cons index path induction =>
      cases datum with
      | aggregate elements =>
          rw [Datum.read?] at found
          rcases Option.bind_eq_some_iff.1 found with ⟨element, elementFound, rest⟩
          have member : element ∈ elements := by
            unfold Datum.elementAt? at elementFound
            split at elementFound
            · cases elementFound
            · exact List.mem_of_getElem? elementFound
          intro place inside
          rw [Datum.places]
          exact Datum.mem_placesAll.2 ⟨element, member, induction rest inside⟩
      | _ => simp [Datum.read?] at found

namespace Heap

/-- All places that references in cells refer to. -/
def places (heap : Heap) : List (Nat × List Int) :=
  heap.cells.toList.flatMap Datum.places

/-- The content of the first place refers to the second place. -/
def LeadsTo (heap : Heap) (place next : Nat × List Int) : Prop :=
  ∃ content, heap.load? place.1 place.2 = some content ∧ next ∈ content.places

/-- A chain of references leads from a value to a place from where it leads back to that place. -/
def Circular (heap : Heap) (datum : Datum) : Prop :=
  ∃ start ∈ datum.places, ∃ place,
    Relation.ReflTransGen heap.LeadsTo start place ∧ Relation.TransGen heap.LeadsTo place place

variable {heap : Heap} {place next : Nat × List Int}

theorem LeadsTo.mem_places (leads : heap.LeadsTo place next) : next ∈ heap.places := by
  obtain ⟨content, held, member⟩ := leads
  unfold Heap.load? at held
  rcases Option.bind_eq_some_iff.1 held with ⟨whole, wholeHeld, read⟩
  have inside : whole ∈ heap.cells.toList :=
    Array.mem_toList_iff.2 (Array.mem_of_getElem? wholeHeld)
  exact List.mem_flatMap.2 ⟨whole, inside, Datum.places_subset_of_read? read member⟩

open Classical in
/-- The places that chains of references lead to from a place. -/
noncomputable def onward (heap : Heap) (place : Nat × List Int) : Finset (Nat × List Int) :=
  heap.places.toFinset.filter (Relation.TransGen heap.LeadsTo place)

open Classical in
theorem mem_onward : next ∈ heap.onward place ↔ Relation.TransGen heap.LeadsTo place next := by
  constructor
  · intro member
    exact (Finset.mem_filter.1 member).2
  · intro chain
    obtain ⟨_, _, leads⟩ := Relation.TransGen.tail'_iff.1 chain
    exact Finset.mem_filter.2 ⟨List.mem_toFinset.2 leads.mem_places, chain⟩

/-- Without a circle, going on from a place leaves fewer places that can still be come to. -/
theorem LeadsTo.onward_ssubset
    (leads : heap.LeadsTo place next)
    (noCircle : ¬Relation.TransGen heap.LeadsTo next next) :
    heap.onward next ⊂ heap.onward place := by
  refine Finset.ssubset_iff_subset_ne.2 ⟨fun other member => ?_, fun same => ?_⟩
  · exact mem_onward.2 (.head leads (mem_onward.1 member))
  · have back : next ∈ heap.onward next := by
      rw [same]
      exact mem_onward.2 (.single leads)
    exact noCircle (mem_onward.1 back)

end Heap

/-! ## Showing comes to an end -/

section Ending

variable {heap : Heap}

mutual

/-- Showing a value comes to an end when showing what it refers to does. -/
theorem exists_shows_of_places
    (datum : Datum)
    (contents : ∀ place ∈ datum.places, ∀ content, heap.load? place.1 place.2 = some content →
      ∃ text, Shows heap content text) :
    ∃ text, Shows heap datum text := by
  cases datum with
  | aggregate elements =>
      rw [Datum.places] at contents
      obtain ⟨parts, shown⟩ := exists_showsAll_of_places elements contents
      exact ⟨_, .aggregate shown⟩
  | reference serial cell path =>
      cases held : heap.load? cell path with
      | none => exact ⟨none, .dangling held⟩
      | some content =>
          obtain ⟨text, shown⟩ :=
            contents (cell, path) (by simp [Datum.places]) content held
          exact ⟨text, .follow held shown⟩
  | _ => exact ⟨_, .plain (fun _ => Datum.noConfusion) fun _ _ _ => Datum.noConfusion⟩

theorem exists_showsAll_of_places
    (data : List Datum)
    (contents : ∀ place ∈ Datum.placesAll data, ∀ content,
      heap.load? place.1 place.2 = some content → ∃ text, Shows heap content text) :
    ∃ texts, ShowsAll heap data texts := by
  cases data with
  | nil => exact ⟨some [], .nil⟩
  | cons first rest =>
      rw [Datum.placesAll] at contents
      obtain ⟨text, shown⟩ := exists_shows_of_places first fun place member =>
        contents place (List.mem_append_left _ member)
      obtain ⟨texts, shownRest⟩ := exists_showsAll_of_places rest fun place member =>
        contents place (List.mem_append_right _ member)
      cases text with
      | none => exact ⟨none, .fails shown⟩
      | some text => exact ⟨_, .cons shown shownRest⟩

end

/-- What is at a place can be shown to the end when no chain of references comes to a circle. -/
theorem exists_shows_of_load?
    {place : Nat × List Int}
    (noCircle : ∀ other, Relation.ReflTransGen heap.LeadsTo place other →
      ¬Relation.TransGen heap.LeadsTo other other)
    {content : Datum}
    (held : heap.load? place.1 place.2 = some content) :
    ∃ text, Shows heap content text := by
  -- the places that can still be come to become fewer with each reference on a chain
  induction size : (heap.onward place).card using Nat.strong_induction_on
    generalizing place content with
  | _ count induction =>
      refine exists_shows_of_places content fun next member content' held' => ?_
      have leads : heap.LeadsTo place next := ⟨content, held, member⟩
      have noCircle' : ∀ other, Relation.ReflTransGen heap.LeadsTo next other →
          ¬Relation.TransGen heap.LeadsTo other other :=
        fun other chain => noCircle other (.head leads chain)
      have fewer := Finset.card_lt_card (leads.onward_ssubset (noCircle' next .refl))
      exact induction _ (by omega) noCircle' held' rfl

/-- Showing a value comes to an end unless references lead from it into a circle. -/
theorem exists_shows_of_not_circular {datum : Datum} (notCircular : ¬heap.Circular datum) :
    ∃ text, Shows heap datum text := by
  refine exists_shows_of_places datum fun place member content held => ?_
  refine exists_shows_of_load? (fun other chain circle => ?_) held
  exact notCircular ⟨place, member, other, chain, circle⟩

theorem exists_showsAll_of_not_circular
    {data : List Datum}
    (notCircular : ∀ datum ∈ data, ¬heap.Circular datum) :
    ∃ texts, ShowsAll heap data texts := by
  induction data with
  | nil => exact ⟨some [], .nil⟩
  | cons first rest induction =>
      obtain ⟨text, shown⟩ := exists_shows_of_not_circular (notCircular first List.mem_cons_self)
      cases text with
      | none => exact ⟨none, .fails shown⟩
      | some text =>
          obtain ⟨texts, shownRest⟩ := induction fun datum member =>
            notCircular datum (List.mem_cons_of_mem _ member)
          exact ⟨_, .cons shown shownRest⟩

end Ending

/-! ## Showing that never ends -/

section Endless

variable {heap : Heap}

/-- A reference to a place that holds a reference to that place is never shown to the end. -/
theorem not_shows_of_self
    {cell : Nat}
    {path : List Int}
    (holdsItself : ∀ content, heap.load? cell path = some content →
      ∃ serial, content = .reference serial cell path)
    (dangles : heap.load? cell path ≠ none) :
    ∀ {datum : Datum} {text : Option Line}, Shows heap datum text →
      ∀ serial, datum ≠ .reference serial cell path
  | _, _, .follow held shown, serial, equal => by
      cases equal
      obtain ⟨serial', same⟩ := holdsItself _ held
      exact not_shows_of_self holdsItself dangles shown serial' same
  | _, _, .dangling missing, serial, equal => by
      cases equal
      exact dangles missing
  | _, _, .plain _ noReference, serial, equal => noReference serial cell path equal
  | _, _, .aggregate _, serial, equal => Datum.noConfusion equal

end Endless

end ShaderIR.Machine
