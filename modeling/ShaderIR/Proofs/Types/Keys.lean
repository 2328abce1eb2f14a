import Mathlib.Data.List.Basic
import ShaderIR.Ty.Registry

/-!
# Text keys of types

The key of a form is a sequence of fields between colons: words, numbers and the
handles of the types that the form is made of.  No field has a colon in it, so
the fields can be read back from the key, and two forms with one key differ at
most in the types behind equal handles.
-/

namespace ShaderIR

/-- The types that a form is made of. -/
def TypeForm.components : TypeForm → List Ty
  | array element _ => [element]
  | record members => members
  | resource _ element => element.toList
  | _ => []

/-- The fields of the key of a scalar. -/
def Scalar.keyFields (scalar : Scalar) : List String :=
  ["scalar", scalar.kind.code.repr, scalar.width.repr]

namespace TypeForm

/-- The fields of the key of a form. -/
def keyFields : TypeForm → List String
  | scalar description => description.keyFields
  | vector size description => "vec" :: size.repr :: description.keyFields
  | matrix columns description => "mat" :: columns.repr :: description.keyFields
  | array element count => ["array", element.handle.repr, count.repr]
  | record members => "struct" :: members.length.repr :: members.map (·.handle.repr)
  | resource kind element =>
    ["resource", kind.code.repr, (element.map (·.handle.repr)).getD "none"]
  | rayQuery anyHit => ["rayquery", if anyHit then "any" else "all"]

end TypeForm

/-! ## Reading the fields of a key back -/

/-- A text between colons. -/
def IsField (text : String) : Prop := ':' ∉ text.toList

theorem isField_repr (number : Nat) : IsField number.repr := by
  intro colon
  rw [Nat.toList_repr] at colon
  have digit := Nat.isDigit_of_mem_toDigits (by decide) (by decide) colon
  exact absurd digit (by decide)

/-- A number can be read back from its digits. -/
theorem repr_eq_repr_iff {number other : Nat} : number.repr = other.repr ↔ number = other := by
  refine ⟨fun same => ?_, congrArg Nat.repr⟩
  rw [← Nat.ofDigitChars_ten_toDigits (n := number), ← Nat.ofDigitChars_ten_toDigits (n := other),
    ← Nat.toList_repr, ← Nat.toList_repr, same]

/-- The words of keys have no colon in them. -/
theorem isField_words :
    ∀ word ∈ ["scalar", "vec", "mat", "array", "struct", "resource", "none", "rayquery", "any",
      "all"], IsField word := by
  unfold IsField
  decide

namespace TypeForm

theorem isField_keyFields (form : TypeForm) :
    ∀ field ∈ form.keyFields, IsField field := by
  obtain ⟨scalar, vec, mat, array, struct, resource, none, rayquery, any, all, -⟩ := by
    simpa only [List.forall_mem_cons] using isField_words
  cases form with
  | resource kind element => cases element <;> simp [keyFields, isField_repr, *]
  | rayQuery anyHit => cases anyHit <;> simp [keyFields, *]
  | _ => simp [keyFields, Scalar.keyFields, isField_repr, *]

/-- A key is its fields with colons between them. -/
theorem key_eq_intercalate (form : TypeForm) : form.key = ":".intercalate form.keyFields := by
  have handles (first : String) (members : List Ty) :
      ":".intercalate (first :: members.map (·.handle.repr)) =
        first ++ String.join (members.map fun member => ":" ++ member.handle.repr) := by
    induction members generalizing first with
    | nil => simp
    | cons member rest induction =>
        simp only [List.map_cons, String.intercalate_cons_cons, String.join_cons, induction,
          String.append_assoc]
  cases form with
  | record members =>
      simp only [key, keyFields, String.intercalate_cons_cons, handles, toString,
        String.append_assoc]
      rfl
  | resource kind element =>
      cases element <;>
        simp [key, keyFields, String.intercalate_cons_cons, toString, String.append_assoc]
  | rayQuery anyHit => cases anyHit <;> decide
  | _ =>
      simp [key, Scalar.key, keyFields, Scalar.keyFields, String.intercalate_cons_cons, toString,
        String.append_assoc]

theorem keyFields_ne_nil (form : TypeForm) : form.keyFields ≠ [] := by
  cases form <;> simp [keyFields, Scalar.keyFields]

/-- The fields can be read back from a key. -/
theorem keyFields_of_key {form other : TypeForm} (same : form.key = other.key) :
    form.keyFields = other.keyFields := by
  have split (form : TypeForm) :
      form.key.toList.splitOn ':' = form.keyFields.map String.toList := by
    rw [key_eq_intercalate, String.toList_intercalate]
    refine List.splitOn_intercalate ':' ?_ (by simp [form.keyFields_ne_nil])
    intro field member
    obtain ⟨text, listed, rfl⟩ := List.mem_map.1 member
    exact form.isField_keyFields text listed
  have fields : form.keyFields.map String.toList = other.keyFields.map String.toList := by
    rw [← split, ← split, same]
  exact List.map_injective_iff.2 (fun _ _ => String.toList_inj.1) fields

end TypeForm

/-! ## What the fields tell -/

theorem ScalarKind.code_injective {kind other : ScalarKind} (same : kind.code = other.code) :
    kind = other := by
  cases kind <;> cases other <;> first | rfl | cases same

theorem ResourceClass.code_injective {kind other : ResourceClass} (same : kind.code = other.code) :
    kind = other := by
  cases kind <;> cases other <;> first | rfl | cases same

theorem Scalar.keyFields_injective
    {scalar other : Scalar}
    (same : scalar.keyFields = other.keyFields) :
    scalar = other := by
  obtain ⟨kind, width⟩ := scalar
  obtain ⟨otherKind, otherWidth⟩ := other
  simp only [keyFields, List.cons.injEq, repr_eq_repr_iff, true_and, and_true] at same
  rw [ScalarKind.code_injective same.1, same.2]

/-- Lists that read alike are the same when elements that read alike are. -/
theorem eq_of_map_eq
    {α β : Type}
    {read : α → β}
    {elements others : List α}
    (same : elements.map read = others.map read)
    (told : ∀ element ∈ elements, ∀ other ∈ others, read element = read other →
      element = other) :
    elements = others := by
  induction elements generalizing others with
  | nil => exact (List.map_eq_nil_iff.1 same.symm).symm
  | cons element rest induction =>
      cases others with
      | nil => cases same
      | cons other others =>
          obtain ⟨first, later⟩ := List.cons.inj same
          rw [told element List.mem_cons_self other List.mem_cons_self first,
            induction later fun element here other there =>
              told element (List.mem_cons_of_mem _ here) other (List.mem_cons_of_mem _ there)]

theorem not_repr_eq_none (number : Nat) : number.repr ≠ "none" := by
  intro same
  have digit : 'n'.isDigit = true := by
    have listed : 'n' ∈ Nat.toDigits 10 number := by
      rw [← Nat.toList_repr, same]
      decide
    exact Nat.isDigit_of_mem_toDigits (by decide) (by decide) listed
  exact absurd digit (by decide)

/-- Possibly absent types with the same field are the same when equal handles mean equal types. -/
theorem Ty.eq_of_field_eq
    {element other : Option Ty}
    (same : (element.map (·.handle.repr)).getD "none" = (other.map (·.handle.repr)).getD "none")
    (told : ∀ member ∈ element.toList, ∀ member' ∈ other.toList,
      member.handle = member'.handle → member = member') :
    element = other := by
  cases element with
  | none =>
      cases other with
      | none => rfl
      | some other => exact absurd same.symm (not_repr_eq_none _)
  | some element =>
      cases other with
      | none => exact absurd same (not_repr_eq_none _)
      | some other =>
          rw [told element (by simp) other (by simp) (repr_eq_repr_iff.1 same)]

/-- Two forms with one key are the same when equal handles mean equal types. -/
theorem TypeForm.eq_of_key
    {form other : TypeForm}
    (same : form.key = other.key)
    (told : ∀ component ∈ form.components, ∀ component' ∈ other.components,
      component.handle = component'.handle → component = component') :
    form = other := by
  have fields := keyFields_of_key same
  cases form <;> cases other
  case scalar.scalar description description' =>
    rw [Scalar.keyFields_injective fields]
  case vector.vector size description size' description' =>
    simp only [keyFields, List.cons.injEq, repr_eq_repr_iff, true_and] at fields
    rw [fields.1, Scalar.keyFields_injective fields.2]
  case matrix.matrix columns description columns' description' =>
    simp only [keyFields, List.cons.injEq, repr_eq_repr_iff, true_and] at fields
    rw [fields.1, Scalar.keyFields_injective fields.2]
  case array.array element count element' count' =>
    simp only [keyFields, List.cons.injEq, repr_eq_repr_iff, true_and, and_true] at fields
    rw [told element (by simp [components]) element' (by simp [components]) fields.1, fields.2]
  case record.record members members' =>
    simp only [keyFields, List.cons.injEq, true_and] at fields
    rw [eq_of_map_eq fields.2 fun member here other there same =>
      told member here other there (repr_eq_repr_iff.1 same)]
  case resource.resource kind element kind' element' =>
    simp only [keyFields, List.cons.injEq, repr_eq_repr_iff, true_and, and_true] at fields
    rw [ResourceClass.code_injective fields.1, Ty.eq_of_field_eq fields.2 told]
  case rayQuery.rayQuery anyHit anyHit' =>
    cases anyHit <;> cases anyHit' <;> simp [keyFields] at fields ⊢
  -- Forms of different kinds start with different words.
  all_goals simp [keyFields, Scalar.keyFields] at fields

/-- A form that is made of no types is told from every other form by its key. -/
theorem TypeForm.eq_of_key_of_components
    {form other : TypeForm}
    (same : form.key = other.key)
    (plain : other.components = []) :
    form = other :=
  TypeForm.eq_of_key same fun _ _ _ part => by
    rw [plain] at part
    cases part

end ShaderIR
