import Mathlib.Data.List.Perm.Subperm
import Mathlib.Logic.Relation
import ShaderIR.Proofs.Edit.Ending
import ShaderIR.Proofs.Revision.Trimming

/-!
# Following the bases of element references

Bases are followed from a pointer until something else than an element reference
comes up.  That happens within as many steps as there are values unless an element
reference comes back to itself by its bases.

Trimming sheds bases: whenever an element reference gets another base, that is no
element reference.  So where following bases ends at first, it still does later.
-/

namespace ShaderIR

namespace Store

/-- An element reference whose base is an element reference, too. -/
def BasedOn (store : Store) (gep base : Ref) : Prop :=
  store.isGep gep = true ∧ store.isGep base = true ∧
    (store.operands gep).head? = some (some base)

/-- No element reference of a module comes back to itself by its bases. -/
def BasesEnd (store : Store) (module : Nat) : Prop :=
  ∀ gep, store.moduleOf? gep = some module → ¬Relation.TransGen store.BasedOn gep gep

/-- No element reference has another one as its new base. -/
def Sheds (store left : Store) : Prop :=
  ∀ gep base, left.BasedOn gep base → store.BasedOn gep base

variable {origin store left : Store} {ref block : Ref} {module : Nat}

theorem value?_isSome_of_isGep (isGep : store.isGep ref = true) : (store.value? ref).isSome :=
  value?_isSome_of_opcode? (isGep_iff.1 isGep)

theorem isInstruction_of_isGep (isGep : store.isGep ref = true) :
    store.isInstruction ref = true := by
  obtain ⟨entry, found, -⟩ := Option.map_eq_some_iff.1 (isGep_iff.1 isGep)
  exact Option.isSome_of_eq_some found

theorem BasesEnd.sheds
    (ends : origin.BasesEnd module)
    (ages : origin.Ages store)
    (sheds : origin.Sheds store) :
    store.BasesEnd module := by
  intro gep pool circle
  have circle := Relation.TransGen.mono sheds _ _ circle
  obtain ⟨base, based, -⟩ := Relation.TransGen.head'_iff.1 circle
  rw [ages.moduleOf? (value?_isSome_of_isGep based.1)] at pool
  exact ends gep pool circle

theorem Coherent.moduleOf?_operand
    (coherent : store.Coherent)
    {user value : Ref}
    (operand : some value ∈ store.operands user) :
    store.moduleOf? value = store.moduleOf? user := by
  obtain ⟨entry, found, slot, member, holds⟩ := some_mem_operands_iff.1 operand
  exact coherent.operandPool found slot member value holds

/-! ## Shedding bases -/

theorem Trims.of_isGep (trims : store.Trims left) (isGep : left.isGep ref = true) :
    store.isGep ref = true :=
  isGep_iff.2 (trims.of_isLValue (isGep_iff.1 isGep) rfl)

namespace Sheds

theorem repoints
    (sheds : origin.Sheds store)
    {change : Ref → List (Option Ref) → List (Option Ref)}
    (repoints : store.Repoints change left)
    (heads : ∀ {gep base}, store.isGep base = true →
      (change gep (store.operands gep)).head? = some (some base) →
      (store.operands gep).head? = some (some base)) :
    origin.Sheds left := by
  rintro gep base ⟨isGep, isBase, head⟩
  rw [repoints.operands] at head
  have isBase := repoints.trims.of_isGep isBase
  exact sheds _ _ ⟨repoints.trims.of_isGep isGep, isBase, heads isBase head⟩

theorem takes
    (sheds : origin.Sheds store)
    {gone : List Ref}
    (takes : store.Takes gone left)
    (trims : store.Trims left) :
    origin.Sheds left := by
  rintro gep base ⟨isGep, isBase, head⟩
  rw [takes.operands] at head
  exact sheds _ _ ⟨trims.of_isGep isGep, trims.of_isGep isBase, head⟩

theorem receives
    (sheds : origin.Sheds store)
    {new : Ref}
    {after : Option Ref}
    {entry : Instruction}
    (receives : store.Receives block after new entry left)
    (trims : store.Trims left) :
    origin.Sheds left := by
  rintro gep base ⟨isGep, isBase, head⟩
  have isGep := trims.of_isGep isGep
  rw [receives.operands_old (receives.ne_new (value?_isSome_of_isGep isGep))] at head
  exact sheds _ _ ⟨isGep, trims.of_isGep isBase, head⟩

end Sheds

end Store

namespace Edit

open Store

variable {store : Store} {module : Nat}

/-- Bases are followed to a root that is no element reference. -/
theorem ensures_followBases
    {bound : Nat}
    {seen : List Ref}
    {pointer : Option Ref}
    {indices : List (Option Ref)}
    (coherent : store.Coherent)
    (ends : store.BasesEnd module)
    (pool : ∀ ref, pointer = some ref → store.moduleOf? ref = some module)
    (enough : store.values.size < seen.length + bound)
    (distinct : seen.Nodup)
    (leads : ∀ ref ∈ seen, (store.value? ref).isSome ∧
      ∀ next, pointer = some next → store.isGep next = true →
        Relation.TransGen store.BasedOn ref next) :
    Ensures (followBases bound pointer indices) store fun path left =>
      left = store ∧ ∀ root, path.base = some root → store.isGep root = false := by
  induction bound generalizing seen pointer indices with
  | zero =>
      have few := length_le_size distinct fun ref member => (leads ref member).1
      omega
  | succ bound induction =>
      unfold followBases
      cases pointer with
      | none => exact .pure ⟨rfl, fun _ none => by cases none⟩
      | some ref =>
          refine .seeBind ?_
          split
          · rename_i isGep
            have isGep : store.isGep ref = true := isGep
            refine .seeBind (.demandBind fun base head => ?_)
            have based : ∀ next, base = some next → store.isGep next = true →
                store.BasedOn ref next := by
              rintro next rfl isGep'
              exact ⟨isGep, isGep', head⟩
            have distinct : (ref :: seen).Nodup := by
              refine List.nodup_cons.2 ⟨fun member => ?_, distinct⟩
              exact ends ref (pool ref rfl) ((leads ref member).2 ref rfl isGep)
            refine induction ?_ ?_ distinct ?_
            · rintro next rfl
              rw [coherent.moduleOf?_operand (List.mem_of_mem_head? head)]
              exact pool ref rfl
            · rw [List.length_cons]
              omega
            · intro other member
              rcases List.mem_cons.1 member with rfl | member
              · exact ⟨value?_isSome_of_isGep isGep, fun next equal isGep' =>
                  .single (based next equal isGep')⟩
              · exact ⟨(leads other member).1, fun next equal isGep' =>
                  ((leads other member).2 ref rfl isGep).tail (based next equal isGep')⟩
          · rename_i notGep
            refine .pure ⟨rfl, ?_⟩
            rintro _ ⟨⟩
            simpa using notGep

variable {pointer : Option Ref}

theorem ensures_elementPath
    (coherent : store.Coherent)
    (ends : store.BasesEnd module)
    (pool : ∀ ref, pointer = some ref → store.moduleOf? ref = some module) :
    Ensures (elementPath pointer) store fun path left =>
      left = store ∧ ∀ root, path.base = some root → store.isGep root = false :=
  .seeBind (ensures_followBases coherent ends pool (by simp) List.nodup_nil (by simp))

theorem ensures_pointerRoot
    (coherent : store.Coherent)
    (ends : store.BasesEnd module)
    (pool : ∀ ref, pointer = some ref → store.moduleOf? ref = some module) :
    Ensures (pointerRoot pointer) store fun _ left => left = store := by
  refine (ensures_elementPath coherent ends pool).bind ?_
  rintro path left ⟨rfl, -⟩
  exact .pure rfl

theorem ensures_pointerVariable?
    (coherent : store.Coherent)
    (ends : store.BasesEnd module)
    (pool : ∀ ref, pointer = some ref → store.moduleOf? ref = some module) :
    Ensures (pointerVariable? pointer) store fun answer left =>
      left = store ∧ ∀ root, answer = some root → store.isLocalVariable root = true := by
  refine (ensures_pointerRoot coherent ends pool).bind ?_
  rintro root left rfl
  refine .of_ends (Ends.see _) fun answer left' gives => ?_
  obtain ⟨rfl, rfl⟩ := gives_see_iff.1 gives
  exact ⟨rfl, fun root found => (Option.filter_eq_some_iff.1 found).2⟩

end Edit

end ShaderIR

/-!
## Pointers to a variable

A pointer to a variable is the variable itself or an element reference whose base is a
pointer to it.  Bases lead from a pointer to at most one variable, and following them
comes to that variable.
-/

namespace ShaderIR

open Store Edit

namespace Store

/-- An element reference and its base. -/
structure Leads (store : Store) (gep base : Ref) : Prop where
  isGep : store.isGep gep = true
  head : (store.operands gep).head? = some (some base)

/-- Bases lead from a pointer to an address. -/
def PointsTo (store : Store) (address pointer : Ref) : Prop :=
  Relation.ReflTransGen store.Leads pointer address

variable {store left : Store} {address pointer gep base root : Ref}

theorem PointsTo.refl (store : Store) (address : Ref) : store.PointsTo address address :=
  Relation.ReflTransGen.refl

theorem PointsTo.head (leads : store.Leads gep base) (points : store.PointsTo address base) :
    store.PointsTo address gep :=
  Relation.ReflTransGen.head leads points

theorem PointsTo.trans
    (points : store.PointsTo address base)
    (points' : store.PointsTo base pointer) :
    store.PointsTo address pointer :=
  Relation.ReflTransGen.trans points' points

theorem Leads.mem (leads : store.Leads gep base) : some base ∈ store.operands gep :=
  List.mem_of_mem_head? leads.head

theorem Leads.unique (leads : store.Leads gep base) (leads' : store.Leads gep root) :
    base = root :=
  Option.some.inj (Option.some.inj (leads.head.symm.trans leads'.head))

/-- A pointer that is not the variable itself is an element reference into a pointer. -/
theorem PointsTo.cases (points : store.PointsTo address pointer) :
    pointer = address ∨ ∃ base, store.Leads pointer base ∧ store.PointsTo address base := by
  rcases Relation.ReflTransGen.cases_head points with same | ⟨base, leads, points⟩
  · exact .inl same
  · exact .inr ⟨base, leads, points⟩

theorem PointsTo.isGep (points : store.PointsTo address pointer) (different : pointer ≠ address) :
    store.isGep pointer = true := by
  rcases points.cases with same | ⟨base, leads, -⟩
  · exact absurd same different
  · exact leads.isGep

/-- Where bases come to an end, they have come to the variable. -/
theorem PointsTo.eq_root
    (points : store.PointsTo address pointer)
    (notGep : store.isGep address = false)
    (points' : store.PointsTo root pointer)
    (notGep' : store.isGep root = false) :
    root = address := by
  induction points using Relation.ReflTransGen.head_induction_on with
  | refl =>
      rcases points'.cases with same | ⟨base, leads, -⟩
      · exact same.symm
      · rw [leads.isGep] at notGep
        cases notGep
  | head leads _ induction =>
      rcases points'.cases with rfl | ⟨base, leads', points'⟩
      · rw [leads.isGep] at notGep'
        cases notGep'
      · exact induction (leads.unique leads' ▸ points')

/-- Pointers are the same where bases are. -/
theorem pointsTo_congr (leads : ∀ gep base, left.Leads gep base ↔ store.Leads gep base) :
    left.PointsTo address pointer ↔ store.PointsTo address pointer := by
  rw [PointsTo, PointsTo, show left.Leads = store.Leads from
    funext fun gep => funext fun base => propext (leads gep base)]

end Store

namespace Edit

variable {store left : Store} {address ref : Ref} {pointer : Option Ref} {path : ElementPath}

/-- What following bases tells of the root it came to and of the indices it gathered. -/
theorem gives_followBases
    {bound : Nat}
    {indices : List (Option Ref)}
    (gives : Gives (followBases bound pointer indices) store path left) :
    left = store ∧
      (∀ root, path.base = some root → store.isGep root = false ∧
        ∃ ref, pointer = some ref ∧ store.PointsTo root ref) ∧
      ∀ index ∈ path.indices, index ∈ indices ∨
        ∃ ref gep, pointer = some ref ∧ store.PointsTo gep ref ∧ store.isGep gep = true ∧
          index ∈ (store.operands gep).tail := by
  induction bound generalizing pointer indices with
  | zero => exact absurd gives not_gives_endless
  | succ bound induction =>
      unfold followBases at gives
      cases pointer with
      | none =>
          obtain ⟨rfl, rfl⟩ := gives_pure_iff.1 gives
          refine ⟨rfl, ?_, fun index member => .inl member⟩
          rintro root ⟨⟩
      | some ref =>
          replace gives := gives_see_bind_iff.1 gives
          split at gives
          · rename_i isGep
            replace gives := gives_see_bind_iff.1 gives
            obtain ⟨operand, head, gives⟩ := gives_demand_bind_iff.1 gives
            obtain ⟨unchanged, roots, gathered⟩ := induction gives
            have leads {base : Ref} (same : operand = some base) : store.Leads ref base :=
              ⟨isGep, same ▸ head⟩
            refine ⟨unchanged, fun root found => ?_, fun index member => ?_⟩
            · obtain ⟨notGep, base, same, points⟩ := roots root found
              exact ⟨notGep, ref, rfl, .head (leads same) points⟩
            · rcases gathered index member with member | ⟨base, gep, same, points, isGep', member⟩
              · rcases List.mem_append.1 member with member | member
                · exact .inr ⟨ref, ref, rfl, .refl store ref, isGep, member⟩
                · exact .inl member
              · exact .inr ⟨ref, gep, rfl, .head (leads same) points, isGep', member⟩
          · rename_i notGep
            obtain ⟨rfl, rfl⟩ := gives_pure_iff.1 gives
            refine ⟨rfl, fun root found => ?_, fun index member => .inl member⟩
            cases found
            exact ⟨by simpa using notGep, ref, rfl, .refl left ref⟩

/-- Following bases from a pointer to a variable comes to the variable. -/
theorem base_of_followBases
    {bound : Nat}
    {indices : List (Option Ref)}
    (notGep : store.isGep address = false)
    (points : store.PointsTo address ref)
    (gives : Gives (followBases bound (some ref) indices) store path left) :
    path.base = some address := by
  induction bound generalizing ref indices with
  | zero => exact absurd gives not_gives_endless
  | succ bound induction =>
      replace gives := gives_see_bind_iff.1 gives
      split at gives
      · rename_i isGep
        replace gives := gives_see_bind_iff.1 gives
        obtain ⟨operand, head, gives⟩ := gives_demand_bind_iff.1 gives
        rcases points.cases with rfl | ⟨base, leads, points⟩
        · rw [notGep] at isGep
          cases isGep
        · obtain rfl := Option.some.inj (head.symm.trans leads.head)
          exact induction points gives
      · rename_i isRoot
        obtain ⟨rfl, -⟩ := gives_pure_iff.1 gives
        rcases points.cases with rfl | ⟨base, leads, -⟩
        · rfl
        · exact absurd leads.isGep isRoot

theorem gives_elementPath (gives : Gives (elementPath pointer) store path left) :
    left = store ∧
      (∀ root, path.base = some root → store.isGep root = false ∧
        ∃ ref, pointer = some ref ∧ store.PointsTo root ref) ∧
      ∀ index ∈ path.indices,
        ∃ ref gep, pointer = some ref ∧ store.PointsTo gep ref ∧ store.isGep gep = true ∧
          index ∈ (store.operands gep).tail := by
  replace gives := gives_see_bind_iff.1 gives
  obtain ⟨unchanged, roots, gathered⟩ := gives_followBases gives
  exact ⟨unchanged, roots, fun index member => (gathered index member).resolve_left (by simp)⟩

theorem base_of_elementPath
    (notGep : store.isGep address = false)
    (points : store.PointsTo address ref)
    (gives : Gives (elementPath (some ref)) store path left) :
    path.base = some address := by
  replace gives := gives_see_bind_iff.1 gives
  exact base_of_followBases notGep points gives

/-- The variable of a pointer is one that it points to. -/
theorem gives_pointerVariable?
    {answer : Option Ref}
    (gives : Gives (pointerVariable? pointer) store answer left) :
    left = store ∧
      (∀ root, answer = some root →
        store.isLocalVariable root = true ∧ ∃ ref, pointer = some ref ∧ store.PointsTo root ref) ∧
      (∀ address ref, store.isLocalVariable address = true → pointer = some ref →
        store.PointsTo address ref → answer = some address) := by
  obtain ⟨root, between, traced, rest⟩ := gives_bind_iff.1 gives
  obtain ⟨path, middle, followed, returned⟩ := gives_bind_iff.1 traced
  obtain ⟨unchanged, roots, -⟩ := gives_elementPath followed
  rw [unchanged] at returned
  obtain ⟨rfl, unchanged⟩ := gives_pure_iff.1 returned
  rw [unchanged] at rest
  obtain ⟨rfl, unchanged⟩ := gives_see_iff.1 rest
  refine ⟨unchanged, fun root found => ?_, fun address ref isLocal same points => ?_⟩
  · obtain ⟨found, isLocal⟩ := Option.filter_eq_some_iff.1 found
    exact ⟨isLocal, (roots root found).2⟩
  · subst same
    have notGep : store.isGep address = false := by
      rw [isGep, isLocalVariable_iff.1 isLocal]
      rfl
    exact Option.filter_eq_some_iff.2 ⟨base_of_elementPath notGep points followed, isLocal⟩

end Edit

end ShaderIR
