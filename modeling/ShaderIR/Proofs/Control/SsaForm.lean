import Mathlib.Data.List.TakeWhile
import ShaderIR.Proofs.Control.Dominance
import ShaderIR.Proofs.Traversal.Nesting

/-!
# Functions in static single assignment form

In a function in this form, a phi merges one value for each predecessor of its block, and
a value is used only where control has come through its definition: the block of the
definition dominates that of the use, and for an incoming of a phi it dominates the
predecessor.

A value that a phi merges with nothing but itself is therefore there wherever the phi
is.  Control cannot come to the phi without taking one of the incomings, and the phi
itself is not there the first time.
-/

namespace ShaderIR

namespace Store

/-- Where a value is the result of an instruction, the block of the instruction dominates. -/
def AvailableIn (store : Store) (function block value : Ref) : Prop :=
  ∀ home, store.blockOf? value = some home → store.Dominates function home block

/--
A function is in static single assignment form.  Control enters the body without taking an
edge, so no edge leads there.
-/
structure InSsaForm (store : Store) (function : Ref) : Prop where
  entry : ∀ {body}, store.body? function = some body → store.predecessors body = []
  attached : ∀ {user operand}, (store.blockOf? user).isSome →
    some operand ∈ store.operands user → store.isInstruction operand = true →
    (store.blockOf? operand).isSome
  incomings : ∀ {block phi}, store.Reached function block → phi ∈ store.phis block →
    ∃ pairs, store.incomings? phi = some pairs ∧
      (pairs.map Prod.snd).Perm ((store.predecessors block).map some) ∧
      ∀ {incoming source}, (incoming, some source) ∈ pairs →
        ∃ value, incoming = some value ∧ store.typeOf value = store.typeOf phi ∧
          store.AvailableIn function source value
  dominated : ∀ {block before user rest operand}, store.Reached function block →
    store.instructions block = before ++ user :: rest → store.isPhi user = false →
    some operand ∈ store.operands user →
    store.AvailableIn function block operand ∧
      (store.blockOf? operand = some block → operand ∈ before)

variable {store : Store} {function block other dominator body source target : Ref}

/-! ## Dominance along edges -/

/-- What dominates the target of an edge is the target or dominates the source. -/
theorem Dominates.of_edge
    (dominates : store.Dominates function dominator target)
    (different : dominator ≠ target)
    (edge : target ∈ store.successors source) :
    store.Dominates function dominator source := by
  intro body hasBody path leads
  have through := dominates body hasBody _ (leads.concat edge)
  rw [List.mem_append, List.mem_singleton] at through
  exact through.resolve_right different

/-- Of two different blocks that dominate a reached block, one does not dominate the other. -/
theorem Dominates.antisymm
    (dominates : store.Dominates function dominator block)
    (dominates' : store.Dominates function block dominator)
    (reached : store.Reached function block) :
    dominator = block := by
  obtain ⟨body, hasBody, reaches⟩ := reached
  by_contra different
  -- Going back along the edges of a way, both blocks would stay dominators up to the body.
  have apart : ∀ {last}, store.Reaches body last →
      ¬(store.Dominates function dominator last ∧ store.Dominates function block last) := by
    intro last reaches
    induction reaches with
    | refl =>
        rintro ⟨first, second⟩
        exact different ((first.eq_body hasBody).trans (second.eq_body hasBody).symm)
    | @tail source target _ edge induction =>
        rintro ⟨first, second⟩
        by_cases here : dominator = target
        · have later := second.of_edge (fun same => different (here.trans same.symm)) edge
          exact induction ⟨dominates.trans later, later⟩
        · have sooner := first.of_edge here edge
          exact induction ⟨sooner, dominates'.trans sooner⟩
  exact apart reaches ⟨dominates, dominates_self function block⟩

/--
A block that dominates the sources of all edges by which a kind of ways comes to it is not
on such a way, unless it is the body.
-/
theorem not_dominates_of_way
    {step : Ref → Ref → Prop}
    (hasBody : store.body? function = some body)
    (different : dominator ≠ body)
    (edges : ∀ {source target}, step source target → target ∈ store.successors source)
    (back : ∀ {source}, Relation.ReflTransGen step body source → step source dominator →
      store.Dominates function dominator source)
    (way : Relation.ReflTransGen step body block) :
    ¬store.Dominates function dominator block := by
  induction way with
  | refl => exact fun dominates => different (dominates.eq_body hasBody)
  | @tail source target before edge induction =>
      intro dominates
      by_cases here : dominator = target
      · subst here
        exact induction (back before edge)
      · exact induction (dominates.of_edge here (edges edge))

/-- Control comes to a block the first time from one that it does not dominate. -/
theorem Reached.exists_outer_edge
    (reached : store.Reached function block)
    (hasBody : store.body? function = some body)
    (different : block ≠ body) :
    ∃ source, store.Reached function source ∧ block ∈ store.successors source ∧
      ¬store.Dominates function block source := by
  by_contra all
  push Not at all
  obtain ⟨body', hasBody', reaches⟩ := reached
  cases hasBody.symm.trans hasBody'
  refine not_dominates_of_way hasBody different id ?_ reaches (dominates_self function block)
  intro source before edge
  exact all source ⟨body, hasBody, before⟩ edge

/-! ## Phis that merge one value -/

section Phis

variable {phi value home : Ref} {pairs : List (Option Ref × Option Ref)}

theorem mem_instructions_of_mem_phis (member : phi ∈ store.phis block) :
    phi ∈ store.instructions block :=
  List.takeWhile_subset _ member

theorem isPhi_of_mem_phis (member : phi ∈ store.phis block) : store.isPhi phi = true :=
  List.mem_takeWhile_imp member

namespace InSsaForm

section Incomings

variable (inForm : store.InSsaForm function) (coherent : store.Coherent)
  (owner : ∀ {block}, store.Reached function block → store.blockFunction? block = some function)
  (reached : store.Reached function block) (member : phi ∈ store.phis block)
  (paired : store.incomings? phi = some pairs)

include inForm reached member paired in
/-- In the body there is nothing for a phi to merge. -/
theorem ne_body
    {pair : Option Ref × Option Ref}
    (listed : pair ∈ pairs)
    (hasBody : store.body? function = some body) :
    block ≠ body := by
  rintro rfl
  obtain ⟨_, paired', each, -⟩ := inForm.incomings reached member
  cases paired.symm.trans paired'
  rw [inForm.entry hasBody, List.map_nil, List.perm_nil, List.map_eq_nil_iff] at each
  rw [each] at listed
  cases listed

include inForm coherent owner reached member paired

/-- A phi has an incoming for each edge to its block, and it is there where the edge begins. -/
theorem exists_incoming
    (sourceReached : store.Reached function source)
    (edge : block ∈ store.successors source) :
    ∃ value, (some value, some source) ∈ pairs ∧ store.typeOf value = store.typeOf phi ∧
      store.AvailableIn function source value := by
  obtain ⟨_, paired', each, given⟩ := inForm.incomings reached member
  cases paired.symm.trans paired'
  have enters := coherent.mem_predecessors_of_successor edge
    ((owner sourceReached).trans (owner reached).symm)
  obtain ⟨⟨incoming, _⟩, listed, rfl⟩ :=
    List.mem_map.1 (each.mem_iff.2 (List.mem_map_of_mem enters))
  obtain ⟨value, rfl, sameType, available⟩ := given listed
  exact ⟨value, listed, sameType, available⟩

/-- A phi that merges anything merges a value other than itself. -/
theorem exists_other_incoming {pair : Option Ref × Option Ref} (inside : pair ∈ pairs) :
    ∃ value source, (some value, some source) ∈ pairs ∧ value ≠ phi := by
  obtain ⟨body, hasBody, -⟩ := id reached
  obtain ⟨source, sourceReached, edge, outer⟩ :=
    reached.exists_outer_edge hasBody (inForm.ne_body reached member paired inside hasBody)
  obtain ⟨value, listed, -, available⟩ :=
    inForm.exists_incoming coherent owner reached member paired sourceReached edge
  refine ⟨value, source, listed, ?_⟩
  rintro rfl
  exact outer (available block
    ((coherent.mem_members block value).1 (mem_instructions_of_mem_phis member)))

/-- What a phi merges with nothing but itself is defined in another block, which dominates. -/
theorem dominates_of_merged
    {place : Option Ref}
    (inside : (some value, place) ∈ pairs)
    (placed : store.blockOf? value = some home)
    (merges : ∀ pair ∈ pairs, pair.1 = some value ∨ pair.1 = some phi) :
    store.Dominates function home block ∧ home ≠ block := by
  have linked := (coherent.mem_members block phi).1 (mem_instructions_of_mem_phis member)
  obtain ⟨body, hasBody, -⟩ := id reached
  have notBody := inForm.ne_body reached member paired inside hasBody
  -- On each edge to the block comes the value or the phi itself.
  have either : ∀ {source}, store.Reached function source → block ∈ store.successors source →
      store.Dominates function home source ∨ store.Dominates function block source := by
    intro source sourceReached edge
    obtain ⟨incoming, listed, -, available⟩ :=
      inForm.exists_incoming coherent owner reached member paired sourceReached edge
    rcases merges _ listed with same | same
    · obtain rfl := Option.some.inj same
      exact .inl (available home placed)
    · obtain rfl := Option.some.inj same
      exact .inr (available block linked)
  constructor
  · rw [dominates_iff_not_bypasses]
    intro body' hasBody' elsewhere bypasses
    cases hasBody.symm.trans hasBody'
    refine not_dominates_of_way hasBody notBody (fun step => step.1) ?_ bypasses
      (dominates_self function block)
    intro source before edge
    refine (either ⟨body, hasBody, Bypasses.reaches before⟩ edge.1).resolve_left fun dominates => ?_
    exact dominates_iff_not_bypasses.1 dominates body hasBody elsewhere before
  · rintro rfl
    obtain ⟨source, sourceReached, edge, outer⟩ := reached.exists_outer_edge hasBody notBody
    rcases either sourceReached edge with dominates | dominates <;> exact outer dominates

end Incomings

end InSsaForm

end Phis

/-! ## What comes before -/

/-- A result is there before an instruction: its block dominates, or it comes first in the block. -/
def Precedes (store : Store) (function source ref : Ref) : Prop :=
  ∀ {home place}, store.blockOf? ref = some home → store.blockOf? source = some place →
    store.Dominates function place home ∧
      ∀ {before rest}, place = home → store.instructions home = before ++ ref :: rest →
        source ∈ before

section Order

variable {middle ref user operand home : Ref}

theorem Precedes.trans
    (precedes : store.Precedes function source middle)
    (precedes' : store.Precedes function middle ref)
    (linked : store.blockOf? middle = some other)
    (reached : ∀ home, store.blockOf? ref = some home → store.Reached function home) :
    store.Precedes function source ref := by
  intro home place atHome atPlace
  obtain ⟨dominates, order⟩ := precedes linked atPlace
  obtain ⟨dominates', order'⟩ := precedes' atHome linked
  refine ⟨dominates.trans dominates', fun {before rest} same split => ?_⟩
  subst same
  obtain rfl := dominates'.antisymm dominates (reached place atHome)
  obtain ⟨front, behind, rfl⟩ := List.append_of_mem (order' rfl split)
  rw [List.append_assoc] at split
  exact List.mem_append_left _ (order rfl split)

/-- No instruction comes before itself. -/
theorem Precedes.irrefl (coherent : store.Coherent) (linked : store.blockOf? ref = some home) :
    ¬store.Precedes function ref ref := by
  intro precedes
  obtain ⟨before, rest, split⟩ := List.append_of_mem ((coherent.mem_members home ref).2 linked)
  have sooner := (precedes linked linked).2 rfl split
  have distinct := coherent.membersDistinct home
  rw [split] at distinct
  exact List.disjoint_of_nodup_append distinct sooner List.mem_cons_self

/-- The operands of an instruction come before it, unless it is a phi. -/
theorem InSsaForm.precedes
    (inForm : store.InSsaForm function)
    (coherent : store.Coherent)
    (reached : store.Reached function block)
    (member : user ∈ store.instructions block)
    (notPhi : store.isPhi user = false)
    (operandOf : some operand ∈ store.operands user) :
    store.Precedes function operand user := by
  intro home place atHome atPlace
  cases atHome.symm.trans ((coherent.mem_members block user).1 member)
  obtain ⟨before, rest, split⟩ := List.append_of_mem member
  obtain ⟨available, -⟩ := inForm.dominated reached split notPhi operandOf
  refine ⟨available place atPlace, fun same split' => ?_⟩
  exact (inForm.dominated reached split' notPhi operandOf).2 (same ▸ atPlace)

end Order

/-! ## Looking the form up -/

/-- Whether a value is available in a block, which a walk around its own block tells. -/
def isAvailableIn (store : Store) (body block value : Ref) : Bool :=
  (store.blockOf? value).all fun home =>
    !(Traversal.postOrder store (some body) (· == home)).contains block

/-- The form of a function can be looked up in a traversal. -/
theorem InSsaForm.of_traversal
    (coherent : store.Coherent)
    (hasBody : store.body? function = some body)
    (entry : store.predecessors body = [])
    (attached : ∀ index < store.values.size, (store.blockOf? ⟨index⟩).isSome →
      ∀ operand ∈ store.operands ⟨index⟩, ∀ value ∈ operand, store.isInstruction value = true →
        (store.blockOf? value).isSome)
    (incomings : ∀ block ∈ store.reversePostOrder function, ∀ phi ∈ store.phis block,
      (store.incomings? phi).isSome ∧ ∀ pairs ∈ store.incomings? phi,
        (pairs.map Prod.snd).Perm ((store.predecessors block).map some) ∧
        ∀ pair ∈ pairs, ∀ source ∈ pair.2, pair.1.isSome ∧ ∀ value ∈ pair.1,
          store.typeOf value = store.typeOf phi ∧ store.isAvailableIn body source value = true)
    (dominated : ∀ block ∈ store.reversePostOrder function,
      ∀ numbered ∈ (store.instructions block).zipIdx, store.isPhi numbered.1 = false →
        ∀ operand ∈ store.operands numbered.1, ∀ value ∈ operand,
          store.isAvailableIn body block value = true ∧
          (store.blockOf? value = some block →
            value ∈ (store.instructions block).take numbered.2)) :
    store.InSsaForm function := by
  have available {block value : Ref} (isAvailable : store.isAvailableIn body block value = true) :
      store.AvailableIn function block value := by
    intro home placed
    rw [isAvailableIn, placed] at isAvailable
    refine coherent.dominates_iff.2 fun body' hasBody' => ?_
    cases hasBody.symm.trans hasBody'
    simpa using isAvailable
  constructor
  · intro body' hasBody'
    cases hasBody.symm.trans hasBody'
    exact entry
  · intro user operand linked operandOf isInstruction
    refine attached user.index ?_ linked _ operandOf _ rfl isInstruction
    obtain ⟨home, placed⟩ := Option.isSome_iff_exists.1 linked
    obtain ⟨entry, found, -⟩ := Option.bind_eq_some_iff.1 placed
    obtain ⟨value, found, -⟩ := Option.map_eq_some_iff.1 (instruction?_eq_some_iff.1 found)
    exact (Array.getElem?_eq_some_iff.1 found).1
  · intro block phi reached member
    obtain ⟨present, checked⟩ :=
      incomings block ((mem_reversePostOrder_iff_reached coherent).2 reached) phi member
    obtain ⟨pairs, paired⟩ := Option.isSome_iff_exists.1 present
    obtain ⟨each, given⟩ := checked pairs paired
    refine ⟨pairs, paired, each, fun {incoming source} inside => ?_⟩
    obtain ⟨isValue, checked⟩ := given _ inside source rfl
    obtain ⟨value, rfl⟩ := Option.isSome_iff_exists.1 isValue
    obtain ⟨sameType, isAvailable⟩ := checked value rfl
    exact ⟨value, rfl, sameType, available isAvailable⟩
  · intro block before user rest operand reached split notPhi operandOf
    have numbered : (user, before.length) ∈ (store.instructions block).zipIdx := by
      rw [List.mk_mem_zipIdx_iff_getElem?, split, List.getElem?_append_right le_rfl, Nat.sub_self]
      rfl
    obtain ⟨isAvailable, sooner⟩ := dominated block
      ((mem_reversePostOrder_iff_reached coherent).2 reached) _ numbered notPhi _ operandOf _ rfl
    refine ⟨available isAvailable, fun placed => ?_⟩
    have sooner := sooner placed
    rwa [split, List.take_left' rfl] at sooner

end Store

end ShaderIR
