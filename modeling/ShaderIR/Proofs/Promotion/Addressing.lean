import ShaderIR.Proofs.Promotion.Narrowing
import ShaderIR.Proofs.Promotion.Pointing

/-!
# Variables that are only addressed

A local variable can be promoted when every use of it, and of the element references
into it, is the address of a read or a write or the base of an element reference.
Rewriting memory accesses keeps this up, and the pointers to the variable stay the
same ones, as long as no pointer gets to other places than these.
-/

namespace ShaderIR

open Store Edit

namespace Store

/-- An instruction of a reached block reads from a pointer, writes to it or is based on it. -/
structure Addresses (origin : Store) (function : Ref) (store : Store) (pointer user : Ref) :
    Prop where
  reached : ∀ {block}, store.blockOf? user = some block → origin.Reached function block
  kind : store.opcode? user = some .load ∨ store.opcode? user = some .store ∨
    store.opcode? user = some .gep
  head : (store.operands user).head? = some (some pointer)
  only : some pointer ∉ (store.operands user).tail

/--
Pointers to a local variable are the ones that they were, and are only addressed.  Those
in use are linked, apart from the variable itself.
-/
structure Accessible (origin : Store) (function address : Ref) (store : Store) : Prop where
  isLocal : store.opcode? address = some (.alloca .local)
  home : store.blockOf? address = origin.blockOf? address
  pointers : ∀ pointer, store.PointsTo address pointer ↔ origin.PointsTo address pointer
  used : ∀ {pointer user}, store.PointsTo address pointer → (store.blockOf? user).isSome →
    some pointer ∈ store.operands user → origin.Addresses function store pointer user
  held : ∀ {pointer user}, store.PointsTo address pointer → (store.blockOf? user).isSome →
    some pointer ∈ store.operands user → pointer = address ∨ (store.blockOf? pointer).isSome

variable {origin store left : Store} {function address pointer user gep : Ref}

/-- Instructions that keep their operands address what they addressed. -/
theorem Addresses.trims
    (addresses : origin.Addresses function store pointer user)
    (trims : store.Trims left)
    (operands : left.operands user = store.operands user) :
    origin.Addresses function left pointer user where
  reached := fun linked => addresses.reached (trims.linked (by
    rcases addresses.kind with found | found | found <;> exact value?_isSome_of_opcode?
      found) linked)
  kind := addresses.kind.imp (trims.opcode?_kept · rfl)
    (Or.imp (trims.opcode?_kept · rfl) (trims.opcode?_kept · rfl))
  head := by rw [operands, addresses.head]
  only := by
    rw [operands]
    exact addresses.only

namespace Accessible

theorem notGep (accessible : origin.Accessible function address store) :
    store.isGep address = false := by
  rw [isGep, accessible.isLocal]
  rfl

variable (accessible : origin.Accessible function address store)

include accessible

theorem step
    (trims : store.Trims left)
    (home : left.blockOf? address = store.blockOf? address)
    (pointers : ∀ pointer, left.PointsTo address pointer ↔ store.PointsTo address pointer)
    (used : ∀ {pointer user}, store.PointsTo address pointer → (left.blockOf? user).isSome →
      some pointer ∈ left.operands user →
      origin.Addresses function left pointer user ∧
        (pointer = address ∨ (left.blockOf? pointer).isSome)) :
    origin.Accessible function address left where
  isLocal := trims.opcode?_kept accessible.isLocal rfl
  home := home.trans accessible.home
  pointers := fun pointer => (pointers pointer).trans (accessible.pointers pointer)
  used := fun points linked operand => (used ((pointers _).1 points) linked operand).1
  held := fun points linked operand => (used ((pointers _).1 points) linked operand).2

/-- Taking out instructions, but no pointer that is still used. -/
theorem takes
    {gone : List Ref}
    (takes : store.Takes gone left)
    (trims : store.Trims left)
    (kept : address ∉ gone)
    (unused : ∀ pointer ∈ gone, store.PointsTo address pointer → ∀ {user},
      (left.blockOf? user).isSome → some pointer ∉ store.operands user) :
    origin.Accessible function address left := by
  refine accessible.step trims (takes.blockOf?_kept kept) ?_ ?_
  · refine fun pointer => pointsTo_congr fun gep base => ?_
    constructor
    · rintro ⟨isGep, head⟩
      rw [Store.isGep, takes.opcode?] at isGep
      rw [takes.operands] at head
      exact ⟨isGep, head⟩
    · rintro ⟨isGep, head⟩
      refine ⟨?_, ?_⟩
      · rwa [Store.isGep, takes.opcode?]
      · rwa [takes.operands]
  · intro pointer user points linked operand
    rw [takes.operands] at operand
    obtain ⟨block, atBlock⟩ := Option.isSome_iff_exists.1 linked
    have linked' := Option.isSome_of_eq_some (takes.blockOf?_eq_some_iff.1 atBlock).1
    refine ⟨(accessible.used points linked' operand).trims trims (takes.operands user), ?_⟩
    by_cases same : pointer = address
    · exact .inl same
    · have stays : pointer ∉ gone := fun taken =>
        unused pointer taken points linked operand
      rw [takes.blockOf?_kept stays]
      exact .inr ((accessible.held points linked' operand).resolve_left same)

/-- Building a read or a write of the variable, or what has no pointer to it. -/
theorem receives
    {block new : Ref}
    {after : Option Ref}
    {entry : Instruction}
    (receives : store.Receives block after new entry left)
    (notTerminator : entry.opcode.isTerminator = false)
    (notLValue : entry.opcode.isLValue = false)
    (clean : ∀ {pointer}, store.PointsTo address pointer → some pointer ∈ entry.values →
      pointer = address ∧ origin.Reached function block ∧
        (entry.opcode = .load ∨ entry.opcode = .store) ∧
        entry.values.head? = some (some address) ∧ some address ∉ entry.values.tail) :
    origin.Accessible function address left := by
  have trims := receives.trims notTerminator notLValue
  have old := receives.ne_new (value?_isSome_of_opcode? accessible.isLocal)
  refine accessible.step trims (receives.blockOf?_old old) ?_ ?_
  · refine fun pointer => pointsTo_congr fun gep base => ?_
    have different {store' : Store} (isGep : store'.isGep gep = true)
        (case : store' = store ∨ store' = left) : gep ≠ new := by
      rintro rfl
      rcases case with rfl | rfl
      · exact receives.ne_new (value?_isSome_of_opcode? (isGep_iff.1 isGep)) rfl
      · have isGep := isGep_iff.1 isGep
        rw [receives.opcode?_new] at isGep
        rw [Option.some.inj isGep] at notLValue
        cases notLValue
    constructor
    · rintro ⟨isGep, head⟩
      have different := different isGep (.inr rfl)
      rw [Store.isGep, receives.opcode?_old different] at isGep
      rw [receives.operands_old different] at head
      exact ⟨isGep, head⟩
    · rintro ⟨isGep, head⟩
      have different := different isGep (.inl rfl)
      refine ⟨?_, ?_⟩
      · rwa [Store.isGep, receives.opcode?_old different]
      · rwa [receives.operands_old different]
  · intro pointer user points linked operand
    by_cases atNew : user = new
    · subst atNew
      rw [receives.operands_new] at operand
      obtain ⟨rfl, reached, kind, head, only⟩ := clean points operand
      refine ⟨⟨fun {other} atBlock => ?_, ?_, ?_, ?_⟩, .inl rfl⟩
      · rw [Store.blockOf?, receives.instruction?_new, Option.bind_some, receives.linked] at atBlock
        exact Option.some.inj atBlock ▸ reached
      · rw [receives.opcode?_new]
        exact kind.imp (congrArg some) fun isStore => .inl (congrArg some isStore)
      · rw [receives.operands_new, head]
      · rwa [receives.operands_new]
    · rw [receives.operands_old atNew] at operand
      rw [receives.blockOf?_old atNew] at linked
      refine ⟨(accessible.used points linked operand).trims trims (receives.operands_old atNew),
        (accessible.held points linked operand).imp_right fun linked => ?_⟩
      rwa [receives.blockOf?_old (receives.ne_new (value?_isSome_of_blockOf? linked))]

/-- Replacing no pointer by none, or an element reference by the variable it is based on. -/
theorem replaces
    {old new : Ref}
    (repoints : store.Repoints
      (fun ref operands =>
        if (store.blockOf? ref).isSome then operands.map (replaced old new) else operands) left)
    (based : store.PointsTo address new ∨ store.PointsTo address old →
      store.Leads old new ∧ new = address) :
    origin.Accessible function address left := by
  have trims := repoints.trims
  have isGep {gep : Ref} (isGep : store.isGep gep = true) : left.isGep gep = true :=
    isGep_iff.2 (trims.opcode?_kept (isGep_iff.1 isGep) rfl)
  refine accessible.step trims (repoints.blockOf? address) (fun pointer => ⟨?_, ?_⟩) ?_
  · intro points
    induction points using Relation.ReflTransGen.head_induction_on with
    | refl => exact .refl store address
    | @head gep base leads _ points =>
        have head := leads.head
        have isGep := trims.of_isGep leads.isGep
        rw [repoints.operands] at head
        split at head
        · rw [List.head?_map] at head
          obtain ⟨operand, first, equal⟩ := Option.map_eq_some_iff.1 head
          unfold replaced at equal
          split at equal
          · rename_i isOld
            obtain rfl := Option.some.inj equal
            obtain ⟨leads', -⟩ := based (.inl points)
            exact .head ⟨isGep, isOld ▸ first⟩ (.head leads' points)
          · exact .head ⟨isGep, equal ▸ first⟩ points
        · exact .head ⟨isGep, head⟩ points
  · intro points
    induction points using Relation.ReflTransGen.head_induction_on with
    | refl => exact .refl left address
    | @head gep base leads points later =>
        by_cases linked : (store.blockOf? gep).isSome
        · have head : (left.operands gep).head? = some (replaced old new (some base)) := by
            rw [repoints.operands, if_pos linked, List.head?_map, leads.head, Option.map_some]
          by_cases isOld : base = old
          · subst isOld
            obtain ⟨-, rfl⟩ := based (.inr points)
            refine .head ⟨isGep leads.isGep, ?_⟩ (.refl left _)
            rw [head, replaced, if_pos rfl]
          · refine .head ⟨isGep leads.isGep, ?_⟩ later
            rw [head, replaced, if_neg fun same => isOld (Option.some.inj same)]
        · refine .head ⟨isGep leads.isGep, ?_⟩ later
          rw [repoints.operands, if_neg linked, leads.head]
  · intro pointer user points linked operand
    rw [repoints.blockOf?] at linked
    have changed : left.operands user = (store.operands user).map (replaced old new) := by
      rw [repoints.operands, if_pos linked]
    have apart {other : Ref} (points : store.PointsTo address other)
        (operand : some other ∈ store.operands user) :
        some other ∉ (store.operands user).tail :=
      (accessible.used points linked operand).only
    have only (points : store.PointsTo address pointer)
        (mine : some pointer ∉ (store.operands user).tail)
        (theirs : store.PointsTo address old → some old ∉ (store.operands user).tail) :
        some pointer ∉ (left.operands user).tail := by
      rw [changed, ← List.map_tail, some_mem_map_replaced]
      rintro (⟨member, -⟩ | ⟨member, rfl⟩)
      · exact mine member
      · obtain ⟨leads, -⟩ := based (.inl points)
        exact theirs (.head leads points) member
    rw [changed, some_mem_map_replaced] at operand
    rcases operand with ⟨operand, different⟩ | ⟨operand, rfl⟩
    · have addresses := accessible.used points linked operand
      refine ⟨⟨?_, ?_, ?_, ?_⟩, ?_⟩
      · intro block atBlock
        exact addresses.reached ((repoints.blockOf? user).symm.trans atBlock)
      · exact addresses.kind.imp (trims.opcode?_kept · rfl)
          (Or.imp (trims.opcode?_kept · rfl) (trims.opcode?_kept · rfl))
      · rw [changed, List.head?_map, addresses.head, Option.map_some, replaced,
          if_neg fun same => different (Option.some.inj same)]
      · exact only points addresses.only fun points' member =>
          apart points' (List.mem_of_mem_tail member) member
      · rw [repoints.blockOf?]
        exact accessible.held points linked operand
    · obtain ⟨leads, isAddress⟩ := based (.inl points)
      have addresses := accessible.used (.head leads points) linked operand
      refine ⟨⟨?_, ?_, ?_, ?_⟩, .inl isAddress⟩
      · intro block atBlock
        exact addresses.reached ((repoints.blockOf? user).symm.trans atBlock)
      · exact addresses.kind.imp (trims.opcode?_kept · rfl)
          (Or.imp (trims.opcode?_kept · rfl) (trims.opcode?_kept · rfl))
      · rw [changed, List.head?_map, addresses.head, Option.map_some, replaced, if_pos rfl]
      · exact only points (fun member => apart points (List.mem_of_mem_tail member) member)
          fun _ => addresses.only

/-- Basing an element reference on its root. -/
theorem rebases
    {root : Ref}
    {indices : List (Option Ref)}
    (repoints : store.Repoints
      (fun ref operands => if gep = ref then some root :: indices else operands) left)
    (isGep : store.isGep gep = true)
    (reached : ∀ {block}, store.blockOf? gep = some block → origin.Reached function block)
    (notGep : store.isGep root = false)
    (points : store.PointsTo root gep)
    (clean : ∀ {pointer}, store.PointsTo address pointer → some pointer ∉ indices) :
    origin.Accessible function address left := by
  have trims := repoints.trims
  have leadsHere : left.Leads gep root := by
    refine ⟨isGep_iff.2 (trims.opcode?_kept (isGep_iff.1 isGep) rfl), ?_⟩
    rw [repoints.operands, if_pos rfl]
    rfl
  have others {ref : Ref} (different : gep ≠ ref) : left.operands ref = store.operands ref := by
    rw [repoints.operands, if_neg different]
  refine accessible.step trims (repoints.blockOf? address) (fun pointer => ⟨?_, ?_⟩) ?_
  · intro points'
    induction points' using Relation.ReflTransGen.head_induction_on with
    | refl => exact .refl store address
    | @head ref base leads _ points' =>
        by_cases same : gep = ref
        · subst same
          obtain rfl := leads.unique leadsHere
          exact points'.trans points
        · refine .head ⟨trims.of_isGep leads.isGep, ?_⟩ points'
          rw [← others same, leads.head]
  · intro points'
    induction points' using Relation.ReflTransGen.head_induction_on with
    | refl => exact .refl left address
    | @head ref base leads points' later =>
        by_cases same : gep = ref
        · subst same
          obtain rfl := (PointsTo.head leads points').eq_root accessible.notGep points notGep
          exact .head leadsHere (.refl left _)
        · refine .head ⟨isGep_iff.2 (trims.opcode?_kept (isGep_iff.1 leads.isGep) rfl), ?_⟩ later
          rw [others same, leads.head]
  · intro pointer user points' linked operand
    rw [repoints.blockOf?] at linked
    by_cases same : gep = user
    · subst same
      rw [repoints.operands, if_pos rfl, List.mem_cons] at operand
      have isRoot : pointer = root :=
        Option.some.inj (operand.resolve_right fun member => clean points' member)
      subst isRoot
      have isAddress : pointer = address := by
        by_contra different
        rw [points'.isGep different] at notGep
        cases notGep
      refine ⟨⟨?_, .inr (.inr (isGep_iff.1 leadsHere.isGep)), leadsHere.head, ?_⟩, .inl isAddress⟩
      · exact fun atBlock => reached ((repoints.blockOf? gep).symm.trans atBlock)
      · rw [repoints.operands, if_pos rfl, List.tail_cons]
        exact clean points'
    · rw [others same] at operand
      rw [repoints.blockOf?]
      exact ⟨(accessible.used points' linked operand).trims trims (others same),
        accessible.held points' linked operand⟩

end Accessible

end Store

end ShaderIR
