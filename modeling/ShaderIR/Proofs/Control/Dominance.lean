import ShaderIR.Proofs.Traversal.Complete

/-!
# Paths and dominance

A block dominates another one in a function when every path from the body to the
other block goes through it.  Nothing is asked of blocks that no path leads to.

A path that does not go through a block is a path around it, and these are
easier to follow step by step than lists of blocks.
-/

namespace ShaderIR

namespace Store

/-- Control can reach a block of a function. -/
def Reached (store : Store) (function block : Ref) : Prop :=
  ∃ body, store.body? function = some body ∧ store.Reaches body block

/-- The blocks that control goes through on the way from one block to another one. -/
def Path (store : Store) (first last : Ref) (blocks : List Ref) : Prop :=
  blocks.head? = some first ∧ blocks.getLast? = some last ∧
    blocks.IsChain fun source target => target ∈ store.successors source

/-- Every path from the body to a block goes through another one. -/
def Dominates (store : Store) (function dominator block : Ref) : Prop :=
  ∀ body, store.body? function = some body →
    ∀ path, store.Path body block path → dominator ∈ path

/-- A path leads from one block to another one without coming to a third one on the way. -/
def Bypasses (store : Store) (avoided : Ref) : Ref → Ref → Prop :=
  Relation.ReflTransGen fun source target => target ∈ store.successors source ∧ target ≠ avoided

variable {store : Store} {function block other dominator body : Ref}

theorem Reached.tail
    (reached : store.Reached function block)
    (edge : other ∈ store.successors block) :
    store.Reached function other := by
  rcases reached with ⟨body, hasBody, reaches⟩
  exact ⟨body, hasBody, reaches.tail edge⟩

theorem mem_reversePostOrder_iff_reached (coherent : store.Coherent) :
    block ∈ store.reversePostOrder function ↔ store.Reached function block := by
  constructor
  · exact reaches_of_mem_reversePostOrder
  · rintro ⟨body, hasBody, reaches⟩
    exact mem_reversePostOrder_of_reaches coherent hasBody reaches

theorem Coherent.mem_traverse_iff {ref : Ref} (coherent : store.Coherent) :
    ref ∈ store.traverse function ↔
      ∃ block, store.Reached function block ∧ ref ∈ store.instructions block := by
  simp only [traverse, List.mem_flatMap, mem_reversePostOrder_iff_reached coherent]

theorem Coherent.blockOf?_isSome_of_mem_traverse
    {ref : Ref}
    (coherent : store.Coherent)
    (member : ref ∈ store.traverse function) :
    (store.blockOf? ref).isSome := by
  obtain ⟨block, -, inside⟩ := coherent.mem_traverse_iff.1 member
  rw [(coherent.mem_members block ref).1 inside]
  rfl

theorem Coherent.nodup_traverse (coherent : store.Coherent) (function : Ref) :
    (store.traverse function).Nodup := by
  refine List.nodup_flatMap.2 ⟨fun block _ => coherent.membersDistinct block, ?_⟩
  refine (nodup_reversePostOrder coherent function).imp fun {block other} different => ?_
  intro ref inBlock inOther
  have linked := (coherent.mem_members block ref).1 inBlock
  have linked' := (coherent.mem_members other ref).1 inOther
  exact different (Option.some.inj (linked.symm.trans linked'))

theorem Bypasses.reaches {avoided : Ref} (bypasses : store.Bypasses avoided body block) :
    store.Reaches body block :=
  Relation.ReflTransGen.mono (fun _ _ step => step.1) _ _ bypasses

theorem Path.concat
    {path : List Ref}
    (leads : store.Path body other path)
    (edge : block ∈ store.successors other) :
    store.Path body block (path ++ [block]) := by
  rcases leads with ⟨starts, ends, moves⟩
  refine ⟨?_, List.getLast?_concat, ?_⟩
  · rw [List.head?_append, starts]
    rfl
  · apply List.isChain_append.2
    refine ⟨moves, List.isChain_singleton block, ?_⟩
    intro source isLast target isFirst
    cases ends.symm.trans isLast
    cases isFirst
    exact edge

/-- Going around a block and taking a path without it are the same. -/
theorem bypasses_iff_exists_path {avoided : Ref} :
    body ≠ avoided ∧ store.Bypasses avoided body block ↔
      ∃ path, store.Path body block path ∧ avoided ∉ path := by
  constructor
  · rintro ⟨different, bypasses⟩
    induction bypasses with
    | refl =>
        exact ⟨[body], ⟨rfl, rfl, List.isChain_singleton body⟩, by simpa using different.symm⟩
    | @tail source target _ step induction =>
        rcases induction with ⟨path, leads, absent⟩
        refine ⟨path ++ [target], leads.concat step.1, ?_⟩
        simpa [absent] using step.2.symm
  · rintro ⟨path, leads, absent⟩
    induction path using List.reverseRecOn generalizing block with
    | nil => cases leads.1
    | append_singleton path last induction =>
        rcases leads with ⟨starts, ends, moves⟩
        rw [List.getLast?_concat] at ends
        cases ends
        rw [List.mem_append, List.mem_singleton, not_or] at absent
        rcases List.isChain_append.1 moves with ⟨before, -, edges⟩
        cases ending : path.getLast? with
        | none =>
            rw [List.getLast?_eq_none_iff.1 ending] at starts
            cases starts
            exact ⟨Ne.symm absent.2, .refl⟩
        | some source =>
            have nonempty : path ≠ [] := by
              rintro rfl
              cases ending
            rw [List.head?_append_of_ne_nil _ nonempty] at starts
            rcases induction ⟨starts, ending, before⟩ absent.1 with ⟨different, bypasses⟩
            exact ⟨different, bypasses.tail ⟨edges source ending last rfl, Ne.symm absent.2⟩⟩

/-- A block dominates another one when there is no way around it. -/
theorem dominates_iff_not_bypasses :
    store.Dominates function dominator block ↔
      ∀ body, store.body? function = some body → body ≠ dominator →
        ¬store.Bypasses dominator body block := by
  constructor
  · intro dominates body hasBody different bypasses
    rcases bypasses_iff_exists_path.1 ⟨different, bypasses⟩ with ⟨path, leads, absent⟩
    exact absent (dominates body hasBody path leads)
  · intro noWay body hasBody path leads
    by_contra absent
    rcases bypasses_iff_exists_path.2 ⟨path, leads, absent⟩ with ⟨different, bypasses⟩
    exact noWay body hasBody different bypasses

theorem dominates_self (function block : Ref) : store.Dominates function block block :=
  fun _ _ _ leads => List.mem_of_getLast? leads.2.1

/-- The body is reached without going anywhere, so only the body dominates it. -/
theorem Dominates.eq_body
    (dominates : store.Dominates function dominator body)
    (hasBody : store.body? function = some body) :
    dominator = body :=
  List.mem_singleton.1
    (dominates body hasBody [body] ⟨rfl, rfl, List.isChain_singleton body⟩)

/-- A path around one block comes to another one, or leads around that one as well. -/
theorem Bypasses.split
    {avoided : Ref}
    (bypasses : store.Bypasses avoided body block)
    (other : Ref) :
    store.Bypasses avoided body other ∨ store.Bypasses other body block := by
  induction bypasses with
  | refl => exact .inr .refl
  | @tail source target path step split =>
      rcases split with arrives | around
      · exact .inl arrives
      · by_cases same : target = other
        · subst same
          exact .inl (Relation.ReflTransGen.tail path step)
        · exact .inr (around.tail ⟨step.1, same⟩)

theorem Dominates.trans
    {last : Ref}
    (dominates : store.Dominates function dominator block)
    (dominates' : store.Dominates function block last) :
    store.Dominates function dominator last := by
  rw [dominates_iff_not_bypasses] at dominates dominates' ⊢
  intro body hasBody different bypasses
  rcases bypasses.split block with arrives | around
  · exact dominates body hasBody different arrives
  · by_cases same : body = block
    · subst same
      exact dominates body hasBody different .refl
    · exact dominates' body hasBody same around

/-- What dominates a reached block is reached. -/
theorem Reached.of_dominates
    (reached : store.Reached function block)
    (dominates : store.Dominates function dominator block) :
    store.Reached function dominator := by
  rw [dominates_iff_not_bypasses] at dominates
  rcases reached with ⟨body, hasBody, reaches⟩
  have general : ∀ {last : Ref}, store.Reaches body last →
      store.Bypasses dominator body last ∨ store.Reaches body dominator := by
    intro last reaches
    induction reaches with
    | refl => exact .inl .refl
    | @tail source target path edge induction =>
        rcases induction with around | arrives
        · by_cases same : target = dominator
          · subst same
            exact .inr (Relation.ReflTransGen.tail path edge)
          · exact .inl (around.tail ⟨edge, same⟩)
        · exact .inr arrives
  rcases general reaches with around | arrives
  · by_cases same : body = dominator
    · subst same
      exact ⟨body, hasBody, .refl⟩
    · exact absurd around (dominates body hasBody same)
  · exact ⟨body, hasBody, arrives⟩

end Store

end ShaderIR
