import ShaderIR.Pass.PhiRemoval
import ShaderIR.Proofs.Coherence.Creation

/-!
# What lasts while code is trimmed

Passes that trim code take instructions out of blocks, redirect operands, change
what an instruction holds and add undefined values and instructions.  All values
stay where they are with their types and numbers; blocks stay blocks of their
functions, and constants, arguments and functions do not change at all.
-/

namespace ShaderIR

/-- How a content may change while code is trimmed. -/
def Content.Becomes : Content → Content → Prop
  | .block owner _, .block owner' _ => owner' = owner
  | .instruction _, .instruction _ => True
  | content, content' => content' = content

theorem Content.becomes_refl (content : Content) : content.Becomes content := by
  cases content <;> simp [Becomes]

theorem Content.Becomes.trans
    {first second third : Content}
    (becomes : first.Becomes second)
    (becomes' : second.Becomes third) :
    first.Becomes third := by
  cases first <;> cases second <;> simp only [Becomes, reduceCtorEq] at becomes <;>
    cases third <;> simp_all [Becomes]

/-! What the store shows of a value that is a block, a function or a constant. -/

def Content.ownerOf? : Option Content → Option Ref
  | some (.block owner _) => some owner
  | _ => none

def Content.functionOf? : Option Content → Option Function
  | some (.function entry) => some entry
  | _ => none

def Content.dataOf? : Option Content → Option (List UInt8)
  | some (.constant data _) => some data
  | _ => none

namespace Store

/-- Whatever a store held is still there, and only undefined values and instructions are new. -/
structure Ages (store left : Store) : Prop where
  kept : ∀ {ref value}, store.value? ref = some value →
    ∃ value', left.value? ref = some value' ∧ value'.type = value.type ∧
      value'.module = value.module ∧ value'.id = value.id ∧
      value.content.Becomes value'.content
  added : ∀ {ref content}, store.value? ref = none → left.content? ref = some content →
    content = .undefined ∨ ∃ entry, content = .instruction entry
  functions : ∀ module, left.functions module = store.functions module

instance : Edit.Lasting Ages where
  refl store :=
    { kept := fun {_ value} found => ⟨value, found, rfl, rfl, rfl, value.content.becomes_refl⟩
      added := by
        intro ref content absent found
        simp [content?, absent] at found
      functions := fun _ => rfl }
  trans := by
    intro first second third ages ages'
    constructor
    · intro ref value found
      rcases ages.kept found with ⟨value', found', type, module, id, becomes⟩
      rcases ages'.kept found' with ⟨value'', found'', type', module', id', becomes'⟩
      exact ⟨value'', found'', type'.trans type, module'.trans module, id'.trans id,
        becomes.trans becomes'⟩
    · intro ref content absent found
      cases between : second.value? ref with
      | none => exact ages'.added between found
      | some value =>
          rcases ages'.kept between with ⟨value', found', -, -, -, becomes⟩
          have held : second.content? ref = some value.content := by
            simp [content?, between]
          have new := ages.added absent held
          have equal : value'.content = content := by simpa [content?, found'] using found
          rw [equal] at becomes
          rcases new with undefined | ⟨entry, instruction⟩
          · rw [undefined] at becomes
            cases content <;> simp_all [Content.Becomes]
          · rw [instruction] at becomes
            cases content <;> simp_all [Content.Becomes]
    · exact fun module => (ages'.functions module).trans (ages.functions module)

namespace Ages

variable {store left : Store} {ref : Ref}

theorem content
    (ages : store.Ages left)
    {content : Content}
    (found : store.content? ref = some content) :
    ∃ content', left.content? ref = some content' ∧ content.Becomes content' := by
  simp only [content?, Option.map_eq_some_iff] at found
  rcases found with ⟨value, found, rfl⟩
  rcases ages.kept found with ⟨value', found', -, -, -, becomes⟩
  exact ⟨value'.content, by simp [content?, found'], becomes⟩

theorem value?_isSome (ages : store.Ages left) (present : (store.value? ref).isSome) :
    (left.value? ref).isSome := by
  rcases Option.isSome_iff_exists.1 present with ⟨value, found⟩
  rcases ages.kept found with ⟨value', found', -⟩
  simp [found']

theorem typeOf (ages : store.Ages left) (present : (store.value? ref).isSome) :
    left.typeOf ref = store.typeOf ref := by
  rcases Option.isSome_iff_exists.1 present with ⟨value, found⟩
  rcases ages.kept found with ⟨value', found', type, -⟩
  simp [Store.typeOf, found, found', type]

theorem moduleOf? (ages : store.Ages left) (present : (store.value? ref).isSome) :
    left.moduleOf? ref = store.moduleOf? ref := by
  obtain ⟨value, found⟩ := Option.isSome_iff_exists.1 present
  obtain ⟨value', found', -, pool, -⟩ := ages.kept found
  simp [Store.moduleOf?, found, found', pool]

/-- What shows nothing of instructions and undefined values, and of a block no more than its
function, shows the same as before. -/
theorem view_content?
    {α : Type}
    (view : Option Content → α)
    (ages : store.Ages left)
    (same : ∀ {content content' : Content}, content.Becomes content' →
      view (some content') = view (some content))
    (undefined : view (some .undefined) = view none)
    (instruction : ∀ entry, view (some (.instruction entry)) = view none)
    (ref : Ref) :
    view (left.content? ref) = view (store.content? ref) := by
  cases found : store.content? ref with
  | some content =>
      rcases ages.content found with ⟨content', found', becomes⟩
      rw [found', same becomes]
  | none =>
      have absent : store.value? ref = none := by simpa [content?] using found
      cases found' : left.content? ref with
      | none => rfl
      | some content =>
          rcases ages.added absent found' with rfl | ⟨entry, rfl⟩
          · exact undefined
          · exact instruction entry

theorem blockFunction? (ages : store.Ages left) (ref : Ref) :
    left.blockFunction? ref = store.blockFunction? ref := by
  refine ages.view_content? Content.ownerOf? ?_ rfl (fun _ => rfl) ref
  intro content content' becomes
  cases content <;> cases content' <;> simp_all [Content.Becomes, Content.ownerOf?]

theorem function? (ages : store.Ages left) (ref : Ref) :
    left.function? ref = store.function? ref := by
  refine ages.view_content? Content.functionOf? ?_ rfl (fun _ => rfl) ref
  intro content content' becomes
  cases content <;> cases content' <;> simp_all [Content.Becomes, Content.functionOf?]

/-- A content that nothing turns into, and that is not new, was there before. -/
theorem content?_iff
    (ages : store.Ages left)
    {content : Content}
    (settled : ∀ other, content.Becomes other → other = content)
    (settled' : ∀ other, other.Becomes content → other = content)
    (old : content ≠ .undefined ∧ ∀ entry, content ≠ .instruction entry) :
    left.content? ref = some content ↔ store.content? ref = some content := by
  constructor
  · intro found
    cases former : store.content? ref with
    | none =>
        have absent : store.value? ref = none := by simpa [content?] using former
        rcases ages.added absent found with undefined | ⟨entry, undefined⟩
        · exact absurd undefined old.1
        · exact absurd undefined (old.2 entry)
    | some content' =>
        obtain ⟨content'', found', becomes⟩ := ages.content former
        cases found.symm.trans found'
        rw [settled' content' becomes]
  · intro former
    obtain ⟨content', found, becomes⟩ := ages.content former
    rw [found, settled content' becomes]

/-- Arguments do not change. -/
theorem argument_iff (ages : store.Ages left) {passing : Passing} {owner : Ref} {position : Nat} :
    left.content? ref = some (.argument passing owner position) ↔
      store.content? ref = some (.argument passing owner position) := by
  refine ages.content?_iff (fun other becomes => becomes) (fun other becomes => ?_) (by simp)
  cases other <;> simp_all [Content.Becomes]

/-- Registers do not change. -/
theorem register_iff (ages : store.Ages left) {register : Register} :
    left.content? ref = some (.register register) ↔
      store.content? ref = some (.register register) := by
  refine ages.content?_iff (fun other becomes => becomes) (fun other becomes => ?_) (by simp)
  cases other <;> simp_all [Content.Becomes]

theorem body? (ages : store.Ages left) (ref : Ref) : left.body? ref = store.body? ref := by
  simp only [Store.body?, ages.function? ref]

theorem isBlock (ages : store.Ages left) (ref : Ref) : left.isBlock ref = store.isBlock ref := by
  rw [Bool.eq_iff_iff, isBlock_iff_blockFunction?, isBlock_iff_blockFunction?,
    ages.blockFunction? ref]

theorem isInstruction (ages : store.Ages left) (present : (store.value? ref).isSome) :
    left.isInstruction ref = store.isInstruction ref := by
  obtain ⟨value, found⟩ := Option.isSome_iff_exists.1 present
  obtain ⟨value', found', -, -, -, becomes⟩ := ages.kept found
  simp only [Store.isInstruction, Store.instruction?, content?, found, found', Option.map_some]
  cases content : value.content <;> cases content' : value'.content <;>
    simp_all [Content.Becomes]

theorem asBlock (ages : store.Ages left) (operand : Option Ref) :
    left.asBlock operand = store.asBlock operand := by
  cases operand <;> simp [Store.asBlock, Option.filter, ages.isBlock]

theorem isFunction (ages : store.Ages left) (ref : Ref) :
    left.isFunction ref = store.isFunction ref := by
  simp only [Store.isFunction, ages.function?]

theorem asFunction (ages : store.Ages left) (operand : Option Ref) :
    left.asFunction operand = store.asFunction operand := by
  cases operand <;> simp [Store.asFunction, Option.filter, ages.isFunction]

end Ages

theorem ages_allocate
    (store : Store)
    (module : Nat)
    (type : Option Ty)
    {content : Content}
    (trimmed : content = .undefined ∨ ∃ entry, content = .instruction entry) :
    store.Ages (store.allocate module type content).2 where
  kept := by
    intro other value found
    refine ⟨value, ?_, rfl, rfl, rfl, value.content.becomes_refl⟩
    rw [value?_allocate]
    split
    · rename_i same
      subst same
      rw [value?_allocate_fst] at found
      cases found
    · exact found
  added := by
    intro other content' absent found
    rw [content?, value?_allocate] at found
    split at found
    · cases found
      exact trimmed
    · simp [absent] at found
  functions := by
    intro other
    simp only [Store.functions, modules_allocate, Array.getElem?_modify]
    split <;> simp [Function.comp_def]

end Store

end ShaderIR
