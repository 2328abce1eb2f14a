import ShaderIR.Proofs.Types.Keys

/-!
# Interned types

A registry serves requests one after the other.  Each request names its elements
and members by types that the registry has handed out before.  The registry then
holds every structure at most once: two of its types are the same exactly when
their structures agree, whatever they were first called.

The invariant `Registry.Canonical` is kept by adding a type of a new key whose
parts are known.  A vector or a matrix request adds up to three types one after
the other; the key that was looked up is still new when its own type is added,
since the types before it have other forms.
-/

namespace ShaderIR

/-! ## The structure of a type -/

/-- The tag of a type whose origin is forgotten. -/
def TypeTag.blank : TypeTag := ⟨0, 0, ""⟩

namespace Ty

mutual

/-- The structure of a type: the same tree with every tag forgotten, and so with every name. -/
def untagged : Ty → Ty
  | scalar _ description => scalar .blank description
  | vector _ size description element => vector .blank size description element.untagged
  | matrix _ columns description column => matrix .blank columns description column.untagged
  | array _ element count => array .blank element.untagged count
  | record _ members => record .blank (untaggedAll members)
  | resource _ kind none => resource .blank kind none
  | resource _ kind (some element) => resource .blank kind (some element.untagged)
  | rayQuery _ anyHit => rayQuery .blank anyHit

/-- The structures of several types. -/
def untaggedAll : List Ty → List Ty
  | [] => []
  | type :: rest => type.untagged :: untaggedAll rest

end

theorem untaggedAll_eq_map (types : List Ty) : untaggedAll types = types.map untagged := by
  induction types with
  | nil => rfl
  | cons type rest induction => rw [untaggedAll, induction, List.map_cons]

theorem untagged_resource (tag : TypeTag) (kind : ResourceClass) (element : Option Ty) :
    (resource tag kind element).untagged = resource .blank kind (element.map untagged) := by
  cases element <;> rfl

/-- The types that a type is directly made of. -/
def components : Ty → List Ty
  | scalar .. | rayQuery .. => []
  | vector _ _ _ element => [element]
  | matrix _ _ _ column => [column]
  | array _ element _ => [element]
  | record _ members => members
  | resource _ _ element => element.toList

/-- The elements of a vector are scalars of its kind, the columns of a matrix vectors
of its size. -/
def Composed : Ty → Prop
  | vector _ _ description element => element.form = .scalar description
  | matrix _ columns description column => column.form = .vector columns description
  | _ => True

theorem mem_components_of_form {type component : Ty} (member : component ∈ type.form.components) :
    component ∈ type.components := by
  cases type <;> first | exact member | cases member

/-- Types of one structure have one form when parts of one structure are the same. -/
theorem form_eq_of_untagged
    {type other : Ty}
    (same : type.untagged = other.untagged)
    (told : ∀ component ∈ type.components, ∀ component' ∈ other.components,
      component.untagged = component'.untagged → component = component') :
    type.form = other.form := by
  cases type <;> cases other
  case array.array element count _ element' count' =>
    simp only [untagged, array.injEq, true_and] at same
    rw [form, form, told element (by simp [components]) element' (by simp [components]) same.1,
      same.2]
  case record.record members _ members' =>
    simp only [untagged, untaggedAll_eq_map, record.injEq, true_and] at same
    rw [form, form, eq_of_map_eq same told]
  case resource.resource kind element _ kind' element' =>
    simp only [untagged_resource, resource.injEq, true_and] at same
    have equal : element = element' := by
      cases element with
      | none => exact (Option.map_eq_none_iff.1 same.2.symm).symm
      | some element =>
          obtain ⟨part, rfl, alike⟩ := Option.map_eq_some_iff.1 same.2.symm
          rw [told element (by simp [components]) part (by simp [components]) alike.symm]
    rw [form, form, same.1, equal]
  -- The other structures hold all that their forms say, and differ in kind from those above.
  all_goals simp_all [untagged, untagged_resource, form]

end Ty

/-! ## The invariant of a registry -/

namespace Registry

/-- The types that a form names are registered. -/
def Knows (registry : Registry) (form : TypeForm) : Prop :=
  ∀ component ∈ form.components, component ∈ registry.types

instance (registry : Registry) (form : TypeForm) : Decidable (registry.Knows form) :=
  inferInstanceAs (Decidable (∀ component ∈ form.components, component ∈ registry.types))

/-- Every structure is registered at most once, after its parts and under its position. -/
structure Canonical (registry : Registry) : Prop where
  handle : ∀ {position : Nat} {type : Ty}, registry.types[position]? = some type →
    type.handle = position
  composed : ∀ {type : Ty}, type ∈ registry.types → type.Composed
  registered : ∀ {type : Ty}, type ∈ registry.types → ∀ component ∈ type.components,
    component ∈ registry.types ∧ component.handle < type.handle
  keyed : ∀ {type other : Ty}, type ∈ registry.types → other ∈ registry.types →
    type.form.key = other.form.key → type = other

/-- A registry without types has nothing twice. -/
theorem canonical_empty (owner : Nat) : ({ owner } : Registry).Canonical where
  handle := fun found => by simp at found
  composed := fun member => by simp at member
  registered := fun member => by simp at member
  keyed := fun member => by simp at member

namespace Canonical

variable {registry : Registry} {type other : Ty} {form form' : TypeForm}

theorem lookup?_handle (canonical : registry.Canonical) (member : type ∈ registry.types) :
    registry.lookup? type.handle = some type := by
  obtain ⟨position, found⟩ := Array.getElem?_of_mem member
  rw [lookup?, canonical.handle found, found]

/-- Looking a handle up finds the type that has it. -/
theorem lookup?_eq_some_iff (canonical : registry.Canonical) {handle : Nat} :
    registry.lookup? handle = some type ↔ type ∈ registry.types ∧ type.handle = handle := by
  constructor
  · intro found
    exact ⟨Array.mem_of_getElem? found, canonical.handle found⟩
  · rintro ⟨member, rfl⟩
    exact canonical.lookup?_handle member

theorem eq_of_handle
    (canonical : registry.Canonical)
    (member : type ∈ registry.types)
    (member' : other ∈ registry.types)
    (same : type.handle = other.handle) :
    type = other := by
  have found := canonical.lookup?_handle member
  rw [same, canonical.lookup?_handle member'] at found
  exact (Option.some.inj found).symm

/-- Forms over registered types have different keys. -/
theorem form_eq_of_key
    (canonical : registry.Canonical)
    (known : registry.Knows form)
    (known' : registry.Knows form')
    (same : form.key = form'.key) :
    form = form' :=
  TypeForm.eq_of_key same fun component here component' there =>
    canonical.eq_of_handle (known component here) (known' component' there)

theorem knows_form (canonical : registry.Canonical) (member : type ∈ registry.types) :
    registry.Knows type.form :=
  fun component part =>
    (canonical.registered member component (Ty.mem_components_of_form part)).1

/-- The induction is on the handle: parts of types have smaller handles. -/
theorem eq_of_untagged
    (canonical : registry.Canonical)
    (member : type ∈ registry.types)
    (member' : other ∈ registry.types)
    (same : type.untagged = other.untagged) :
    type = other := by
  generalize bound : type.handle = handle
  induction handle using Nat.strongRecOn generalizing type other with
  | _ handle induction =>
      have form : type.form = other.form := by
        refine Ty.form_eq_of_untagged same fun component part component' part' same => ?_
        obtain ⟨known, smaller⟩ := canonical.registered member component part
        obtain ⟨known', -⟩ := canonical.registered member' component' part'
        exact induction component.handle (bound ▸ smaller) known known' same rfl
      exact canonical.keyed member member' (congrArg TypeForm.key form)

end Canonical

/-! ## Serving a request -/

end Registry

/-- The forms that a request registers where they are new, its own form last. -/
def TypeForm.stages : TypeForm → List TypeForm
  | vector size description => [.scalar description, .vector size description]
  | matrix columns description =>
    [.scalar description, .vector columns description, .matrix columns description]
  | form => [form]

namespace Registry

/-- A registry answers a request: its types stay, and the answer is registered with the form. -/
structure Answers (registry : Registry) (form : TypeForm) (type : Ty) (left : Registry) :
    Prop where
  canonical : left.Canonical
  listed : type ∈ left.types
  formed : type.form = form
  lookup? : ∀ {handle : Nat} {known : Ty}, registry.lookup? handle = some known →
    left.lookup? handle = some known
  added : ∀ {known : Ty}, known ∈ left.types → known ∈ registry.types ∨ known.form ∈ form.stages

variable {registry : Registry} {form : TypeForm} {type : Ty}

/-- A known key leads to the type that was registered for the form. -/
theorem answers_of_find?
    (canonical : registry.Canonical)
    (knows : registry.Knows form)
    (found : registry.find? form.key = some type) :
    registry.Answers form type registry where
  canonical := canonical
  listed := Array.mem_of_find?_eq_some found
  formed := by
    have member := Array.mem_of_find?_eq_some found
    unfold find? at found
    have same : type.form.key = form.key := by simpa using Array.find?_some found
    exact canonical.form_eq_of_key (canonical.knows_form member) knows same
  lookup? := id
  added := .inl

/-- A type of a new key is added under the next handle. -/
theorem answers_add
    (canonical : registry.Canonical)
    (name : String)
    {build : TypeTag → Ty}
    (tag : ∀ tag, (build tag).tag = tag)
    (hasForm : ∀ tag, (build tag).form = form)
    (composed : ∀ tag, (build tag).Composed)
    (registered : ∀ tag, ∀ component ∈ (build tag).components, component ∈ registry.types)
    (fresh : ∀ known ∈ registry.types, known.form.key ≠ form.key) :
    registry.Answers form (registry.add name build).1 (registry.add name build).2 := by
  have inside {known : Ty} (member : known ∈ registry.types) :
      known.handle < registry.types.size := by
    have found := canonical.lookup?_handle member
    rw [Registry.lookup?] at found
    exact (Array.getElem?_eq_some_iff.1 found).1
  have handle : (registry.add name build).1.handle = registry.types.size :=
    congrArg TypeTag.handle (tag _)
  refine ⟨⟨?_, ?_, ?_, ?_⟩, Array.mem_push_self, hasForm _, ?_, ?_⟩
  · intro position type found
    rw [add, Array.getElem?_push] at found
    split at found
    · cases found
      rw [‹position = _›]
      exact handle
    · exact canonical.handle found
  · intro type member
    obtain old | rfl := Array.mem_push.1 member
    · exact canonical.composed old
    · exact composed _
  · intro type member component part
    obtain old | rfl := Array.mem_push.1 member
    · obtain ⟨known, smaller⟩ := canonical.registered old component part
      exact ⟨Array.mem_push_of_mem _ known, smaller⟩
    · have known := registered _ component part
      exact ⟨Array.mem_push_of_mem _ known, Nat.lt_of_lt_of_eq (inside known) handle.symm⟩
  · intro type other member member' same
    obtain old | rfl := Array.mem_push.1 member <;> obtain old' | rfl := Array.mem_push.1 member'
    · exact canonical.keyed old old' same
    · exact absurd (same.trans (congrArg TypeForm.key (hasForm _))) (fresh _ old)
    · exact absurd (same.symm.trans (congrArg TypeForm.key (hasForm _))) (fresh _ old')
    · rfl
  · intro position known found
    have within : position < registry.types.size := (Array.getElem?_eq_some_iff.1 found).1
    rw [Registry.lookup?, add, Array.getElem?_push, if_neg (Nat.ne_of_lt within)]
    exact found
  · intro known member
    obtain old | rfl := Array.mem_push.1 member
    · exact .inl old
    · refine .inr ?_
      rw [hasForm]
      cases form <;> simp [TypeForm.stages]

theorem fresh_of_find? (absent : registry.find? form.key = none) :
    ∀ known ∈ registry.types, known.form.key ≠ form.key := by
  intro known member same
  exact Array.find?_eq_none.1 absent known member (beq_iff_eq.2 same)

/-- A form without parts is different from another form when their keys are looked at. -/
theorem Answers.fresh
    {inner : TypeForm}
    {left : Registry}
    (answers : registry.Answers inner type left)
    (fresh : ∀ known ∈ registry.types, known.form.key ≠ form.key)
    (plain : form.components = [])
    (apart : form ∉ inner.stages) :
    ∀ known ∈ left.types, known.form.key ≠ form.key := by
  intro known member same
  obtain old | new := answers.added member
  · exact fresh known old same
  · have equal : known.form = form := TypeForm.eq_of_key_of_components same plain
    exact apart (equal ▸ new)

theorem Answers.stages
    {inner : TypeForm}
    {between left : Registry}
    {part : Ty}
    (first : registry.Answers inner part between)
    (second : between.Answers form type left)
    (stages : inner.stages ⊆ form.stages) :
    registry.Answers form type left :=
  { second with
    lookup? := fun found => second.lookup? (first.lookup? found)
    added := fun member => (second.added member).elim
      (fun old => (first.added old).imp_right fun new => stages new) .inr }

theorem answers_internScalar
    (canonical : registry.Canonical)
    (name : String)
    (description : Scalar) :
    registry.Answers (.scalar description) (registry.internScalar name description).1
      (registry.internScalar name description).2 := by
  unfold internScalar
  cases found : registry.find? (TypeForm.scalar description).key with
  | some type => exact answers_of_find? canonical (fun _ part => by cases part) found
  | none =>
      exact answers_add canonical name (fun _ => rfl) (fun _ => rfl) (fun _ => trivial)
        (fun _ _ part => by cases part) (fresh_of_find? found)

theorem answers_internVector
    (canonical : registry.Canonical)
    (name : String)
    (size : Nat)
    (description : Scalar) :
    registry.Answers (.vector size description) (registry.internVector name size description).1
      (registry.internVector name size description).2 := by
  unfold internVector
  cases found : registry.find? (TypeForm.vector size description).key with
  | some type => exact answers_of_find? canonical (fun _ part => by cases part) found
  | none =>
      have element := answers_internScalar canonical "" description
      refine element.stages (answers_add element.canonical name (fun _ => rfl) (fun _ => rfl)
        (fun _ => element.formed) (fun _ _ part => ?_) ?_) ?_
      · rw [List.mem_singleton.1 part]
        exact element.listed
      · exact element.fresh (fresh_of_find? found) rfl (by simp [TypeForm.stages])
      · simp [TypeForm.stages]

theorem answers_internMatrix
    (canonical : registry.Canonical)
    (name : String)
    (columns : Nat)
    (description : Scalar) :
    registry.Answers (.matrix columns description)
      (registry.internMatrix name columns description).1
      (registry.internMatrix name columns description).2 := by
  unfold internMatrix
  cases found : registry.find? (TypeForm.matrix columns description).key with
  | some type => exact answers_of_find? canonical (fun _ part => by cases part) found
  | none =>
      have column := answers_internVector canonical "" columns description
      refine column.stages (answers_add column.canonical name (fun _ => rfl) (fun _ => rfl)
        (fun _ => column.formed) (fun _ _ part => ?_) ?_) ?_
      · rw [List.mem_singleton.1 part]
        exact column.listed
      · exact column.fresh (fresh_of_find? found) rfl (by simp [TypeForm.stages])
      · simp [TypeForm.stages]

/-- A request that asks for no other types finds its type or adds it. -/
theorem answers_plain
    (canonical : registry.Canonical)
    (name : String)
    (knows : registry.Knows form)
    (build : TypeTag → Ty)
    (tag : ∀ tag, (build tag).tag = tag)
    (hasForm : ∀ tag, (build tag).form = form)
    (composed : ∀ tag, (build tag).Composed)
    (parts : ∀ tag, (build tag).components = form.components)
    {answer : Ty × Registry}
    (answered : answer = match registry.find? form.key with
      | some type => (type, registry)
      | none => registry.add name build) :
    registry.Answers form answer.1 answer.2 := by
  rw [answered]
  cases found : registry.find? form.key with
  | some type => exact answers_of_find? canonical knows found
  | none =>
      exact answers_add canonical name tag hasForm composed
        (fun tag component part => knows component (parts tag ▸ part)) (fresh_of_find? found)

/-- A request over registered types is answered by a type of its form. -/
theorem answers_intern
    (canonical : registry.Canonical)
    (name : String)
    (knows : registry.Knows form) :
    registry.Answers form (registry.intern name form).1 (registry.intern name form).2 := by
  cases form with
  | scalar description => exact answers_internScalar canonical name description
  | vector size description => exact answers_internVector canonical name size description
  | matrix columns description => exact answers_internMatrix canonical name columns description
  | array element count =>
      exact answers_plain canonical name knows (.array · element count) (fun _ => rfl)
        (fun _ => rfl) (fun _ => trivial) (fun _ => rfl) rfl
  | record members =>
      exact answers_plain canonical name knows (.record · members) (fun _ => rfl)
        (fun _ => rfl) (fun _ => trivial) (fun _ => rfl) rfl
  | resource kind element =>
      exact answers_plain canonical name knows (.resource · kind element) (fun _ => rfl)
        (fun _ => rfl) (fun _ => trivial) (fun _ => rfl) rfl
  | rayQuery anyHit =>
      exact answers_plain canonical name knows (.rayQuery · anyHit) (fun _ => rfl)
        (fun _ => rfl) (fun _ => trivial) (fun _ => rfl) rfl

/-! ## Any registry, and any requests -/

/-- Vectors are made of scalars of their kind, and matrices of vectors of their size. -/
def Composes (registry : Registry) : Prop :=
  ∀ type ∈ registry.types, type.Composed

/-- A key of a form that is made of no types leads to a type of this form. -/
theorem form_of_find?
    (plain : form.components = [])
    (found : registry.find? form.key = some type) :
    type.form = form := by
  have keyed := Array.find?_some found
  exact TypeForm.eq_of_key_of_components (beq_iff_eq.1 keyed) plain

theorem form_internScalar (registry : Registry) (name : String) (description : Scalar) :
    (registry.internScalar name description).1.form = .scalar description := by
  rw [internScalar]
  cases found : registry.find? (TypeForm.scalar description).key with
  | some type => exact form_of_find? rfl found
  | none => rfl

/-- Whatever a registry holds, it answers the request for a scalar with that scalar. -/
theorem scalar?_internScalar (registry : Registry) (name : String) (description : Scalar) :
    (registry.internScalar name description).1.scalar? = some description := by
  have form := registry.form_internScalar name description
  cases answer : (registry.internScalar name description).1 with
  | scalar tag other =>
      rw [answer] at form
      exact congrArg some (TypeForm.scalar.inj form)
  | _ =>
      rw [answer] at form
      cases form

/-- A request for a vector is answered by a registered type of this form. -/
theorem listed_internVector
    (registry : Registry)
    (name : String)
    (size : Nat)
    (description : Scalar) :
    (registry.internVector name size description).1 ∈
        (registry.internVector name size description).2.types ∧
      (registry.internVector name size description).1.form = .vector size description := by
  rw [internVector]
  cases found : registry.find? (TypeForm.vector size description).key with
  | some type => exact ⟨Array.mem_of_find?_eq_some found, form_of_find? rfl found⟩
  | none => exact ⟨Array.mem_push_self, rfl⟩

namespace Composes

theorem add
    (composes : registry.Composes)
    (name : String)
    {build : TypeTag → Ty}
    (composed : ∀ tag, (build tag).Composed) :
    (registry.add name build).2.Composes := by
  intro type member
  obtain old | rfl := Array.mem_push.1 member
  · exact composes type old
  · exact composed _

theorem internScalar (composes : registry.Composes) (name : String) (description : Scalar) :
    (registry.internScalar name description).2.Composes := by
  rw [Registry.internScalar]
  split
  · exact composes
  · exact composes.add name fun _ => trivial

theorem internVector
    (composes : registry.Composes)
    (name : String)
    (size : Nat)
    (description : Scalar) :
    (registry.internVector name size description).2.Composes := by
  rw [Registry.internVector]
  split
  · exact composes
  · exact (composes.internScalar "" description).add name fun _ =>
      registry.form_internScalar "" description

/-- Whatever is requested of a registry, its vectors and matrices are composed as before. -/
theorem intern (composes : registry.Composes) (name : String) (form : TypeForm) :
    (registry.intern name form).2.Composes := by
  cases form with
  | scalar description => exact composes.internScalar name description
  | vector size description => exact composes.internVector name size description
  | matrix columns description =>
      rw [Registry.intern, Registry.internMatrix]
      split
      · exact composes
      · exact (composes.internVector "" columns description).add name fun _ =>
          (registry.listed_internVector "" columns description).2
  | array | record | resource | rayQuery =>
      rw [Registry.intern]
      split
      · exact composes
      · exact composes.add name fun _ => trivial

end Composes

/-! ## Serving requests one after the other -/

/--
From a registry, some requests, each for a form under a name, are answered by
some types and leave a registry.  A request is made of types that are registered
by then.
-/
inductive Serves : Registry → List (String × TypeForm) → List Ty → Registry → Prop
  | nil (registry : Registry) : Serves registry [] [] registry
  | cons {registry left : Registry} {name : String} {form : TypeForm}
      {requests : List (String × TypeForm)} {types : List Ty}
      (knows : registry.Knows form)
      (rest : Serves (registry.intern name form).2 requests types left) :
      Serves registry ((name, form) :: requests) ((registry.intern name form).1 :: types) left

/-- What serving requests leaves behind. -/
structure Served (registry : Registry) (requests : List (String × TypeForm)) (types : List Ty)
    (left : Registry) : Prop where
  canonical : left.Canonical
  lookup? : ∀ {handle : Nat} {known : Ty}, registry.lookup? handle = some known →
    left.lookup? handle = some known
  answered : types.map Ty.form = requests.map Prod.snd
  listed : ∀ type ∈ types, type ∈ left.types
  added : ∀ {known : Ty}, known ∈ left.types →
    known ∈ registry.types ∨ ∃ request ∈ requests, known.form ∈ request.2.stages

/-- The invariant is kept by each request, and so by all of them. -/
theorem Serves.served
    {requests : List (String × TypeForm)}
    {types : List Ty}
    {left : Registry}
    (serves : Serves registry requests types left)
    (canonical : registry.Canonical) :
    registry.Served requests types left := by
  induction serves with
  | nil registry =>
      exact ⟨canonical, id, rfl, fun _ member => absurd member List.not_mem_nil, .inl⟩
  | @cons registry left name form requests types knows rest induction =>
      have first := answers_intern canonical name knows
      have later := induction first.canonical
      have kept : (registry.intern name form).1 ∈ left.types :=
        (later.canonical.lookup?_eq_some_iff.1
          (later.lookup? (first.canonical.lookup?_handle first.listed))).1
      refine ⟨later.canonical, fun found => later.lookup? (first.lookup? found), ?_,
        List.forall_mem_cons.2 ⟨kept, later.listed⟩, fun member => ?_⟩
      · rw [List.map_cons, List.map_cons, first.formed, later.answered]
      obtain between | ⟨request, listed, new⟩ := later.added member
      · obtain old | new := first.added between
        · exact .inl old
        · exact .inr ⟨_, List.mem_cons_self, new⟩
      · exact .inr ⟨request, List.mem_cons_of_mem _ listed, new⟩

/--
Whatever requests a registry has served, each was answered by a type of the form
asked for, and types of the registry are the same exactly when their structures
are.  The types have the handles from zero on, looking a handle up finds the type
that has it, then and after any further requests, and the parts of a type have
smaller handles.  Different forms over registered types have different keys.
-/
theorem interned_types
    {owner : Nat}
    {requests : List (String × TypeForm)}
    {types : List Ty}
    {registry : Registry}
    (serves : Serves { owner } requests types registry) :
    types.map Ty.form = requests.map Prod.snd ∧
    (∀ type ∈ types, type ∈ registry.types) ∧
    (∀ type ∈ registry.types, ∀ other ∈ registry.types,
      type = other ↔ type.untagged = other.untagged) ∧
    (∀ handle type, registry.lookup? handle = some type ↔
      type ∈ registry.types ∧ type.handle = handle) ∧
    (∀ handle, (registry.lookup? handle).isSome ↔ handle < registry.types.size) ∧
    (∀ {more answers later}, Serves registry more answers later →
      ∀ handle type, registry.lookup? handle = some type → later.lookup? handle = some type) ∧
    (∀ type ∈ registry.types, ∀ component ∈ type.components,
      component.handle < type.handle ∧ registry.lookup? component.handle = some component) ∧
    (∀ form form', registry.Knows form → registry.Knows form' →
      (form.key = form'.key ↔ form = form')) := by
  have served := serves.served (canonical_empty owner)
  have canonical := served.canonical
  refine ⟨served.answered, served.listed, ?_, ?_, ?_, ?_, ?_, ?_⟩
  · exact fun type member other member' =>
      ⟨congrArg Ty.untagged, canonical.eq_of_untagged member member'⟩
  · exact fun handle type => canonical.lookup?_eq_some_iff
  · intro handle
    simp [Registry.lookup?]
  · exact fun more handle type found => (more.served canonical).lookup? found
  · intro type member component part
    obtain ⟨known, smaller⟩ := canonical.registered member component part
    exact ⟨smaller, canonical.lookup?_handle known⟩
  · exact fun form form' knows knows' =>
      ⟨canonical.form_eq_of_key knows knows', congrArg TypeForm.key⟩

/-- A matrix brings its columns along; the two records differ in name only. -/
def pointRequests : List (String × TypeForm) :=
  let real : Ty := .scalar ⟨0, 0, "f32"⟩ (.floating 4)
  let column : Ty := .vector ⟨0, 1, ""⟩ 3 (.floating 4) real
  [("f32", .scalar (.floating 4)), ("", .matrix 3 (.floating 4)),
    ("point", .record [column, real]), ("", .record [column, real]), ("", .array column 2)]

theorem interned_types_point :
    ∃ types registry, Serves { owner := 0 } pointRequests types registry ∧
      types.map Ty.handle = [0, 2, 3, 3, 4] ∧
      registry.types.size = 5 ∧
      ∀ type ∈ types, registry.lookup? type.handle = some type := by
  have serves : ∃ types registry, Serves { owner := 0 } pointRequests types registry ∧
      types.map Ty.handle = [0, 2, 3, 3, 4] ∧
      registry.types.size = 5 := by
    refine ⟨_, _, .cons ?_ (.cons ?_ (.cons ?_ (.cons ?_ (.cons ?_ (.nil _))))), ?_⟩
    all_goals decide +kernel
  obtain ⟨types, registry, serves, handles, size⟩ := serves
  obtain ⟨-, registered, -, found, -⟩ := interned_types serves
  exact ⟨types, registry, serves, handles, size, fun type member =>
    (found _ _).2 ⟨registered type member, rfl⟩⟩

end Registry

end ShaderIR
