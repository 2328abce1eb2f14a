import Mathlib.Data.Finset.Card
import Mathlib.Data.Finset.Range
import Mathlib.Logic.Relation
import ShaderIR.Closure
import ShaderIR.Proofs.Store.Update

/-!
# Closures are closed

The search for a closure expands a value once.  With at least as many rounds as
there are values it ends by itself, when no work is left, and what it has seen is
closed under the relation.  As it never sees anything else than what the relation
leads to, the closure is exactly that.
-/

namespace ShaderIR

namespace Closure

/-- The number of values that were not seen yet. -/
def unseen (size : Nat) (seen : List Ref) : Nat :=
  ((Finset.range size).filter fun index => (⟨index⟩ : Ref) ∉ seen).card

/-- Seeing new values leaves as many fewer unseen. -/
theorem unseen_append
    {size : Nat}
    {seen new : List Ref}
    (distinct : new.Nodup)
    (inside : ∀ ref ∈ new, ref.index < size)
    (fresh : ∀ ref ∈ new, ref ∉ seen) :
    new.length + unseen size (new ++ seen) = unseen size seen := by
  have indices : (new.map Ref.index).Nodup := distinct.map fun _ _ => Ref.index_injective
  have split : (Finset.range size).filter (fun index => (⟨index⟩ : Ref) ∉ seen) =
      (new.map Ref.index).toFinset ∪
        (Finset.range size).filter fun index => (⟨index⟩ : Ref) ∉ new ++ seen := by
    ext index
    simp only [Finset.mem_filter, Finset.mem_range, Finset.mem_union, List.mem_toFinset,
      List.mem_map, List.mem_append, not_or]
    constructor
    · rintro ⟨below, unseen⟩
      by_cases member : (⟨index⟩ : Ref) ∈ new
      · exact .inl ⟨⟨index⟩, member, rfl⟩
      · exact .inr ⟨below, member, unseen⟩
    · rintro (⟨ref, member, rfl⟩ | ⟨below, -, unseen⟩)
      · exact ⟨inside ref member, fresh ref member⟩
      · exact ⟨below, unseen⟩
  have apart : Disjoint (new.map Ref.index).toFinset
      ((Finset.range size).filter fun index => (⟨index⟩ : Ref) ∉ new ++ seen) := by
    rw [Finset.disjoint_left]
    intro index member other
    rcases List.mem_map.1 (List.mem_toFinset.1 member) with ⟨ref, listed, rfl⟩
    exact (Finset.mem_filter.1 other).2 (List.mem_append_left _ listed)
  unfold unseen
  rw [split, Finset.card_union_of_disjoint apart, List.toFinset_card_of_nodup indices,
    List.length_map]

theorem nodup_eraseDups (refs : List Ref) : refs.eraseDups.Nodup := by
  induction length : refs.length using Nat.strong_induction_on generalizing refs with
  | _ size induction =>
      cases refs with
      | nil => simp
      | cons first rest =>
          rw [List.eraseDups_cons]
          refine List.nodup_cons.2 ⟨?_, induction _ ?_ _ rfl⟩
          · simp [List.mem_eraseDups]
          · have shorter := List.length_filter_le (fun other => !other == first) rest
            rw [List.length_cons] at length
            omega

/-- The new values that a value leads to are as many fewer unseen. -/
theorem unseen_expand
    {size : Nat}
    {next : Ref → List Ref}
    {ref : Ref}
    {seen new : List Ref}
    (inside : ∀ ref, ∀ other ∈ next ref, other.index < size)
    (expanded : (next ref).eraseDups.filter (!seen.contains ·) = new) :
    new.length + unseen size (new ++ seen) = unseen size seen := by
  subst expanded
  refine unseen_append ((nodup_eraseDups _).filter _) (fun other member => ?_)
    fun other member => ?_
  · exact inside ref other (List.mem_eraseDups.1 (List.mem_filter.1 member).1)
  · simpa using (List.mem_filter.1 member).2

/-- Distinct values are as many fewer unseen. -/
theorem length_add_unseen_le
    {size : Nat}
    {start : List Ref}
    (distinct : start.Nodup)
    (within : ∀ ref ∈ start, ref.index < size) :
    start.length + unseen size start ≤ size := by
  have counted := unseen_append distinct within fun ref _ => List.not_mem_nil
  rw [List.append_nil] at counted
  rw [counted]
  calc unseen size []
      ≤ (Finset.range size).card := Finset.card_filter_le _ _
    _ = size := Finset.card_range size

/--
A search that goes on until no work is left: from a work list and the values seen so far it
comes to the values seen in the end.
-/
inductive Searches (next : Ref → List Ref) : List Ref → List Ref → List Ref → Prop
  | done {seen : List Ref} : Searches next [] seen seen
  | expand {ref : Ref} {work seen last : List Ref}
      (rest : Searches next ((next ref).eraseDups.filter (!seen.contains ·) ++ work)
        ((next ref).eraseDups.filter (!seen.contains ·) ++ seen) last) :
      Searches next (ref :: work) seen last

/-- With enough rounds a search comes to its end. -/
theorem searches_expand
    {size : Nat}
    {next : Ref → List Ref}
    (inside : ∀ ref, ∀ other ∈ next ref, other.index < size)
    {bound : Nat}
    {work seen : List Ref}
    (enough : work.length + unseen size seen ≤ bound) :
    Searches next work seen (expand next bound work seen) := by
  induction bound generalizing work seen with
  | zero =>
      obtain rfl : work = [] := List.length_eq_zero_iff.1 (by omega)
      exact .done
  | succ bound induction =>
      cases work with
      | nil => exact .done
      | cons ref work =>
          refine .expand (induction ?_)
          have counted := @unseen_expand size next ref seen _ inside rfl
          simp only [List.length_append, List.length_cons] at enough ⊢
          omega

/-- What a long enough search has seen contains its start and is closed. -/
theorem closed_expand
    {size : Nat}
    {next : Ref → List Ref}
    (inside : ∀ ref, ∀ other ∈ next ref, other.index < size) :
    ∀ (bound : Nat) (work seen : List Ref), work.length + unseen size seen ≤ bound →
      (∀ ref ∈ seen, ref ∈ work ∨ ∀ other ∈ next ref, other ∈ seen) →
      (∀ ref ∈ seen, ref ∈ expand next bound work seen) ∧
        ∀ ref ∈ expand next bound work seen, ∀ other ∈ next ref,
          other ∈ expand next bound work seen := by
  intro bound
  induction bound with
  | zero =>
      intro work seen enough pending
      have done : work = [] := List.length_eq_zero_iff.1 (by omega)
      subst done
      rw [expand]
      exact ⟨fun ref member => member,
        fun ref member => (pending ref member).resolve_left (by simp)⟩
  | succ bound induction =>
      intro work seen enough pending
      cases work with
      | nil =>
          rw [expand]
          exact ⟨fun ref member => member,
            fun ref member => (pending ref member).resolve_left (by simp)⟩
      | cons ref work =>
          rw [expand]
          have counted := @unseen_expand size next ref seen _ inside rfl
          have rest := induction ((next ref).eraseDups.filter (!seen.contains ·) ++ work)
            ((next ref).eraseDups.filter (!seen.contains ·) ++ seen) ?_ ?_
          · exact ⟨fun other member => rest.1 other (List.mem_append_right _ member), rest.2⟩
          · simp only [List.length_append, List.length_cons] at enough ⊢
            omega
          · intro other member
            rcases List.mem_append.1 member with new | old
            · exact .inl (List.mem_append_left _ new)
            · rcases pending other old with waiting | expanded
              · rcases List.mem_cons.1 waiting with rfl | waiting
                · refine .inr fun target related => ?_
                  by_cases known : target ∈ seen
                  · exact List.mem_append_right _ known
                  · refine List.mem_append_left _ (List.mem_filter.2 ⟨?_, by simpa using known⟩)
                    exact List.mem_eraseDups.2 related
                · exact .inl (List.mem_append_right _ waiting)
              · exact .inr fun target related => List.mem_append_right _ (expanded target related)

/-- What holds of the values seen and passes on to next values holds of all that will be seen. -/
theorem forall_mem_expand
    {next : Ref → List Ref}
    (holds : Ref → Prop)
    (step : ∀ ref, holds ref → ∀ other ∈ next ref, holds other) :
    ∀ (bound : Nat) (work seen : List Ref), (∀ ref ∈ work, holds ref) → (∀ ref ∈ seen, holds ref) →
      ∀ ref ∈ expand next bound work seen, holds ref := by
  intro bound
  induction bound with
  | zero => exact fun work seen _ all => by rwa [expand]
  | succ bound induction =>
      intro work seen waiting all
      cases work with
      | nil => rwa [expand]
      | cons ref work =>
          rw [expand]
          have new : ∀ other ∈ (next ref).eraseDups.filter (!seen.contains ·), holds other := by
            intro other member
            have related := List.mem_eraseDups.1 (List.mem_filter.1 member).1
            exact step ref (waiting ref List.mem_cons_self) other related
          refine induction _ _ (fun other member => ?_) (fun other member => ?_)
          · exact (List.mem_append.1 member).elim (new other) fun old =>
              waiting other (List.mem_cons_of_mem _ old)
          · exact (List.mem_append.1 member).elim (new other) (all other)

end Closure

theorem closure_nil (bound : Nat) (next : Ref → List Ref) : closure bound next [] = [] := by
  cases bound <;> rfl

/-- Whatever is in a closure was led to from its start. -/
theorem reaches_of_mem_closure
    {bound : Nat}
    {next : Ref → List Ref}
    {start : List Ref}
    {ref : Ref}
    (member : ref ∈ closure bound next start) :
    ∃ first ∈ start, Relation.ReflTransGen (fun source target => target ∈ next source)
      first ref := by
  refine Closure.forall_mem_expand
    (fun ref => ∃ first ∈ start,
      Relation.ReflTransGen (fun source target => target ∈ next source) first ref)
    ?_ bound start start ?_ ?_ ref member
  · rintro source ⟨first, listed, leads⟩ target edge
    exact ⟨first, listed, leads.tail edge⟩
  · exact fun first listed => ⟨first, listed, .refl⟩
  · exact fun first listed => ⟨first, listed, .refl⟩

/-- The search for the closure of distinct values goes on until no work is left. -/
theorem searches_closure
    {size : Nat}
    {next : Ref → List Ref}
    {start : List Ref}
    (inside : ∀ ref, ∀ other ∈ next ref, other.index < size)
    (distinct : start.Nodup)
    (within : ∀ ref ∈ start, ref.index < size) :
    Closure.Searches next start start (closure size next start) :=
  Closure.searches_expand inside (Closure.length_add_unseen_le distinct within)

/-- The closure of distinct values contains them and is closed. -/
theorem closed_closure
    {size : Nat}
    {next : Ref → List Ref}
    {start : List Ref}
    (inside : ∀ ref, ∀ other ∈ next ref, other.index < size)
    (distinct : start.Nodup)
    (within : ∀ ref ∈ start, ref.index < size) :
    (∀ ref ∈ start, ref ∈ closure size next start) ∧
      ∀ ref ∈ closure size next start, ∀ other ∈ next ref, other ∈ closure size next start :=
  Closure.closed_expand inside size start start
    (Closure.length_add_unseen_le distinct within) fun _ member => .inl member

/-- The closure of distinct values holds what the relation leads to from them. -/
theorem mem_closure_iff
    {size : Nat}
    {next : Ref → List Ref}
    {start : List Ref}
    {ref : Ref}
    (inside : ∀ ref, ∀ other ∈ next ref, other.index < size)
    (distinct : start.Nodup)
    (within : ∀ ref ∈ start, ref.index < size) :
    ref ∈ closure size next start ↔
      ∃ first ∈ start, Relation.ReflTransGen (fun source target => target ∈ next source)
        first ref := by
  refine ⟨reaches_of_mem_closure, ?_⟩
  obtain ⟨starts, closed⟩ := closed_closure inside distinct within
  rintro ⟨first, listed, leads⟩
  induction leads with
  | refl => exact starts first listed
  | tail _ edge member => exact closed _ member _ edge

end ShaderIR
