import Mathlib.Order.WellFounded
import ShaderIR.Proofs.Elimination.Termination
import ShaderIR.Proofs.Layout.Changes

/-!
# Blocks without a way out

A block is futile when control that leaves it for other blocks cannot go on for ever and
only stops at unreachable ends.  That says nothing about the order in which blocks are
looked at, whereas the search for the blocks that lead nowhere goes over them in passes,
relies on what it found before, and looks at the ends of successors that it did not come to
yet.  It finds the futile blocks all the same, whatever the order.
-/

namespace ShaderIR

namespace Store

/--
Control leaves a block for another one along an edge.  Nothing departs from an unreachable
end, which has no operands where instructions have the operands of their kind.
-/
def Departs (store : Store) (block next : Ref) : Prop :=
  store.endsUnreachable block = false ∧ next ∈ store.successors block ∧ next ≠ block

/--
Every path that leaves a block, one block after the other, is finite, and where it cannot
be continued there is an unreachable end.
-/
structure Futile (store : Store) (block : Ref) : Prop where
  finite : ∀ path : Nat → Ref, path 0 = block →
    ¬∀ step, store.Departs (path step) (path (step + 1))
  ends : ∀ last, Relation.ReflTransGen store.Departs block last →
    (∀ next, ¬store.Departs last next) → store.endsUnreachable last = true

variable {store : Store} {function block next : Ref}

/-! ## Paths -/

theorem Reached.departs
    (reached : store.Reached function block)
    (departs : store.Departs block next) :
    store.Reached function next :=
  reached.tail departs.2.1

namespace Futile

/-- Control cannot leave futile blocks for others. -/
theorem departs (futile : store.Futile block) (departs : store.Departs block next) :
    store.Futile next where
  finite := by
    intro path start departing
    refine futile.finite (fun step => Nat.casesOn step block path) rfl fun step => ?_
    cases step with
    | zero =>
        change store.Departs block (path 0)
        rw [start]
        exact departs
    | succ step => exact departing step
  ends := fun last leads => futile.ends last (leads.head departs)

/-- Where control departs to futile blocks only, if at all, it finds no way out. -/
theorem of_departs
    (all : ∀ next, store.Departs block next → store.Futile next)
    (some : store.endsUnreachable block = true ∨ ∃ next, store.Departs block next) :
    store.Futile block where
  finite := by
    intro path start departing
    have first := departing 0
    rw [start] at first
    exact (all _ first).finite (fun step => path (step + 1)) rfl fun step => departing (step + 1)
  ends := by
    intro last leads stuck
    rcases Relation.ReflTransGen.cases_head leads with rfl | ⟨next, departs, leads⟩
    · exact some.resolve_right fun ⟨next, departs⟩ => stuck next departs
    · exact (all next departs).ends last leads stuck

theorem of_endsUnreachable (isEnd : store.endsUnreachable block = true) : store.Futile block :=
  of_departs (fun _ departs => by cases isEnd.symm.trans departs.1) (.inl isEnd)

theorem acc (futile : store.Futile block) :
    Acc (fun next block => store.Departs block next) block :=
  acc_iff_isEmpty_descending_chain.2
    ⟨fun ⟨path, start, departing⟩ => futile.finite path start departing⟩

theorem endsUnreachable_or_departs (futile : store.Futile block) :
    store.endsUnreachable block = true ∨ ∃ next, store.Departs block next := by
  by_cases departing : ∃ next, store.Departs block next
  · exact .inr departing
  · exact .inl (futile.ends block .refl fun next departs => departing ⟨next, departs⟩)

end Futile

end Store

namespace Pass

open Store

variable {store : Store} {function block : Ref} {known blocks : List Ref}

/-! ## The search -/

/-- What a block leads to, except to itself, is known or has an unreachable end. -/
theorem leadsNowhere_eq_true_iff :
    leadsNowhere store known block = true ↔
      store.endsUnreachable block = true ∨ (∃ next, store.Departs block next) ∧
        ∀ next, store.Departs block next → next ∈ known ∨ store.endsUnreachable next = true := by
  unfold leadsNowhere
  cases isEnd : store.endsUnreachable block with
  | true => simp
  | false =>
      simp only [Bool.false_or, Bool.and_eq_true, List.all_eq_true, List.mem_filter, bne_iff_ne,
        Bool.or_eq_true, List.contains_iff_mem, Bool.not_eq_true',
        List.isEmpty_eq_false_iff_exists_mem, Departs, isEnd, true_and, Bool.false_eq_true,
        false_or]

theorem futile_of_leadsNowhere
    (futile : ∀ other ∈ known, store.Futile other)
    (nowhere : leadsNowhere store known block = true) :
    store.Futile block := by
  rcases leadsNowhere_eq_true_iff.1 nowhere with isEnd | ⟨departing, all⟩
  · exact .of_endsUnreachable isEnd
  · refine .of_departs (fun next departs => ?_) (.inr departing)
    exact (all next departs).elim (futile next) .of_endsUnreachable

/-- A pass that finds no more knows all futile blocks. -/
theorem mem_of_collectDoomed_eq
    (closed : collectDoomed store blocks known = known)
    (reached : ∀ {other}, store.Reached function other → other ∈ blocks)
    (inside : store.Reached function block)
    (futile : store.Futile block) :
    block ∈ known := by
  induction futile.acc with
  | intro block _ induction =>
      rw [← closed]
      refine mem_collectDoomed known (reached inside) (leadsNowhere_eq_true_iff.2 ?_)
      refine futile.endsUnreachable_or_departs.imp_right fun departing => ⟨departing, ?_⟩
      exact fun next departs =>
        .inl (induction next departs (inside.departs departs) (futile.departs departs))

/-- In whatever order it looks at the reached blocks, the search finds the futile ones. -/
theorem mem_doomedWithin_iff
    (reached : ∀ {other}, other ∈ blocks ↔ store.Reached function other) :
    block ∈ doomedWithin store blocks (blocks.length + 1) [] ↔
      store.Reached function block ∧ store.Futile block := by
  constructor
  · have sound : ∀ other ∈ doomedWithin store blocks (blocks.length + 1) [],
        store.Reached function other ∧ store.Futile other := by
      refine forall_mem_doomedWithin (fun known other all listed nowhere => ?_) _
      exact ⟨reached.1 listed,
        futile_of_leadsNowhere (fun another member => (all another member).2) nowhere⟩
    exact sound block
  · rintro ⟨inside, futile⟩
    refine mem_of_collectDoomed_eq ?_ reached.2 inside futile
    exact collectDoomed_doomedWithin List.nodup_nil (List.nil_subset blocks) (by simp)

theorem mem_doomed_iff (coherent : store.Coherent) :
    block ∈ doomed store function ↔ store.Reached function block ∧ store.Futile block :=
  mem_doomedWithin_iff (mem_postOrder_iff_reached coherent)

theorem nodup_doomedWithin
    {blocks known : List Ref}
    (rounds : Nat)
    (distinct : known.Nodup)
    (inside : known ⊆ blocks) :
    (doomedWithin store blocks rounds known).Nodup := by
  induction rounds generalizing known with
  | zero => exact distinct
  | succ rounds induction =>
      unfold doomedWithin
      dsimp only
      split
      · exact distinct
      · obtain ⟨distinct', inside'⟩ : (collectDoomed store blocks known).Nodup ∧
            collectDoomed store blocks known ⊆ blocks :=
          inside_collectDoomed (List.Subset.refl blocks) distinct inside
        exact induction distinct' inside'

theorem nodup_doomed : (doomed store function).Nodup :=
  nodup_doomedWithin _ List.nodup_nil (List.nil_subset _)

end Pass

end ShaderIR
