import ShaderIR.Proofs.Control.SsaForm
import ShaderIR.Proofs.Machine.Control
import ShaderIR.Proofs.Machine.Steady

/-!
# Laws of results

A frame has the result of an instruction where the block of the instruction dominates and
the instruction is not still to come.  A law may tie that result to others which come
before it.  Once it holds, it goes on to hold as long as the frame has the result: none
of the values is computed again before control comes to the instruction another time.
So a law holds throughout a run if it holds whenever the result is made.
-/

namespace ShaderIR

namespace Machine

open Exec

/-- A frame has the result of an instruction unless the instruction is still to come. -/
structure Frame.Has (program : Store) (function ref : Ref) (frame : Frame) : Prop where
  reached : program.Reached function frame.block
  passed : ∃ home, program.blockOf? ref = some home ∧
    program.Dominates function home frame.block ∧ (home = frame.block → ref ∉ frame.rest)

/-- A property of the result of an instruction and of others that come before it. -/
structure Law (program : Store) (function ref : Ref) (sources : List Ref)
    (holds : Std.HashMap Ref Datum → Prop) : Prop where
  plain : ∀ {entry}, program.instruction? ref = some entry → IsPlain entry.opcode
  earlier : ∀ source ∈ sources, program.Precedes function source ref
  congr : ∀ {values values' : Std.HashMap Ref Datum},
    (∀ other, other = ref ∨ other ∈ sources → values'[other]? = values[other]?) →
    holds values → holds values'

variable {program : Store} {settings : Settings} {functions sources : List Ref}
  {function owner block ref source other : Ref} {holds : Std.HashMap Ref Datum → Prop}
  {values values' : Std.HashMap Ref Datum} {frame : Frame}

/-! ## What a frame has -/

/-- Of two instructions of a block, the second one is still to come where the first one is. -/
theorem mem_of_suffix
    {refs before rest behind : List Ref}
    (distinct : refs.Nodup)
    (split : refs = before ++ ref :: rest)
    (member : source ∈ before)
    (suffix : behind <:+ refs)
    (ahead : source ∈ behind) :
    ref ∈ behind := by
  obtain ⟨front, whole⟩ := suffix
  rw [split] at whole distinct
  rcases List.append_eq_append_iff.1 whole with ⟨skipped, -, rfl⟩ | ⟨passed, rfl, equal⟩
  · simp
  · have later : source ∈ ref :: rest := equal ▸ List.mem_append_right passed ahead
    exact absurd later (List.disjoint_of_nodup_append distinct member)

theorem mem_phis_or_mem_afterPhis (member : ref ∈ program.instructions block) :
    ref ∈ program.phis block ∨ ref ∈ program.afterPhis block := by
  rw [← List.mem_append, Store.phis, Store.afterPhis, List.takeWhile_append_dropWhile]
  exact member

/-- A frame had a result also before something else was executed. -/
theorem Frame.Has.ahead
    {rest : List Ref}
    {pending pending' : Pending}
    (has : Frame.Has program function ref ⟨block, values', rest, pending'⟩)
    (different : ref ≠ other) :
    Frame.Has program function ref ⟨block, values, other :: rest, pending⟩ := by
  obtain ⟨home, placed, dominates, passed⟩ := has.passed
  exact ⟨has.reached, home, placed, dominates, fun here => by simp [different, passed here]⟩

/-- What comes before a result that a frame has is not still to come. -/
theorem Frame.Has.not_mem_rest
    (has : frame.Has program function ref)
    (coherent : program.Coherent)
    (inside : frame.rest <:+ program.instructions frame.block)
    (precedes : program.Precedes function source ref) :
    source ∉ frame.rest := by
  intro ahead
  obtain ⟨home, placed, dominates, passed⟩ := has.passed
  have placed' := (coherent.mem_members frame.block source).1 (inside.subset ahead)
  obtain ⟨dominates', order⟩ := precedes placed placed'
  obtain rfl := dominates.antisymm dominates' has.reached
  obtain ⟨before, rest, split⟩ := List.append_of_mem ((coherent.mem_members _ ref).2 placed)
  exact passed rfl (mem_of_suffix (coherent.membersDistinct _) split (order rfl split) inside ahead)

/-- Where a function starts, nothing has a result yet. -/
theorem Frame.Starts.not_has
    (starts : frame.Starts program settings owner)
    (coherent : program.Coherent)
    (ordered : program.Ordered functions)
    (listed : function ∈ functions)
    (listed' : owner ∈ functions) :
    ¬frame.Has program function ref := by
  rintro ⟨reached, home, placed, dominates, passed⟩
  obtain ⟨arguments, heap, left, called⟩ := starts
  obtain ⟨entry, body, values, found, -, hasBody, phis, -, rfl⟩ := callFrame_eq_ok.1 called
  have hasBody : program.body? owner = some body := by
    rw [Store.body?, found]
    exact hasBody
  have owned := ordered.owner listed reached
  cases owned.symm.trans (ordered.owner listed' ⟨body, hasBody, .refl⟩)
  obtain rfl := dominates.eq_body hasBody
  refine passed rfl
    ((mem_phis_or_mem_afterPhis ((coherent.mem_members home ref).2 placed)).resolve_left ?_)
  simp [phis]

theorem Results.getElem?_of_ne (results : Results ref values values') (different : other ≠ ref) :
    values'[other]? = values[other]? := by
  obtain rfl | ⟨datum, rfl⟩ := results
  · rfl
  · simp [Std.HashMap.getElem?_insert, Ne.symm different]

/-! ## Steps -/

/-- A law goes on to hold when something else gets its result that had not come yet. -/
theorem Law.results
    {rest : List Ref}
    {pending : Pending}
    (law : Law program function ref sources holds)
    (coherent : program.Coherent)
    (inside : other :: rest <:+ program.afterPhis block)
    (has : Frame.Has program function ref ⟨block, values, other :: rest, pending⟩)
    (different : ref ≠ other)
    (results : Results other values values')
    (held : holds values) :
    holds values' := by
  refine law.congr ?_ held
  rintro source (rfl | isSource)
  · exact results.getElem?_of_ne different
  · have ahead := has.not_mem_rest coherent (inside.trans (List.dropWhile_suffix _))
      (law.earlier source isSource)
    exact results.getElem?_of_ne fun same => ahead (same ▸ List.mem_cons_self)

/--
A step keeps a law for all frames that have the result if the law holds when the result is
made: by the instruction, or by entering its block in case of a phi.  It has to hold also
where a function starts, and where control comes to the function from outside.
-/
theorem Law.shifts
    {heap : Heap}
    {frames frames' : List Frame}
    (law : Law program function ref sources holds)
    (coherent : program.Coherent)
    (ordered : program.Ordered functions)
    (listed : function ∈ functions)
    (shifts : Frame.Shifts program settings heap frames frames')
    (allInside : Frame.AllInside program frames)
    (started : ∀ {owner frame}, frame ∈ frames' → frame.Starts program settings owner →
      frame.Has program function ref → holds frame.values)
    (arrived : ∀ {block target values values' executed rest pending entry below left left'},
      frames = ⟨block, values, executed :: rest, pending⟩ :: below →
      ¬program.Reached function block → program.Reached function target →
      program.instruction? executed = some entry → entry.opcode.isTerminator = true →
      outcome (Scene.terminate ⟨program, settings, values⟩ entry) heap =
        (.ok (.jump (some target)), left) →
      outcome (Scene.enter ⟨program, settings, values⟩ target (some block)) left =
        (.ok values', left') →
      holds values')
    (made : ∀ {block values values' rest pending below},
      frames = ⟨block, values, ref :: rest, pending⟩ :: below →
      frames' = ⟨block, values', rest, pending⟩ :: below →
      program.Reached function block → holds values')
    (entered : ∀ {block target values values' executed rest pending entry below left left'},
      frames = ⟨block, values, executed :: rest, pending⟩ :: below →
      program.Reached function block → target ∈ program.successors block →
      ref ∈ program.phis target →
      program.instruction? executed = some entry → entry.opcode.isTerminator = true →
      outcome (Scene.terminate ⟨program, settings, values⟩ entry) heap =
        (.ok (.jump (some target)), left) →
      outcome (Scene.enter ⟨program, settings, values⟩ target (some block)) left =
        (.ok values', left') →
      holds values')
    (held : ∀ frame ∈ frames, frame.Has program function ref → holds frame.values) :
    ∀ frame ∈ frames', frame.Has program function ref → holds frame.values := by
  have each := allInside.each
  cases shifts with
  | @next block values values' executed rest pending entry below found continues results =>
      obtain ⟨heldHere, heldBelow⟩ := List.forall_mem_cons.1 held
      refine List.forall_mem_cons.2 ⟨fun has => ?_, heldBelow⟩
      by_cases same : ref = executed
      · subst same
        exact made rfl rfl has.reached
      · have before : Frame.Has program function ref ⟨block, values, executed :: rest, pending⟩ :=
          has.ahead same
        exact law.results coherent (each _ List.mem_cons_self).inside before same results
          (heldHere before)
  | @call block values executed rest pending pending' entry below callee new found continues
      calls leaves starts =>
      obtain ⟨heldHere, heldBelow⟩ := List.forall_mem_cons.1 held
      refine List.forall_mem_cons.2
        ⟨started List.mem_cons_self starts, List.forall_mem_cons.2 ⟨fun has => ?_, heldBelow⟩⟩
      have different : ref ≠ executed := by
        rintro rfl
        exact calls (law.plain found)
      exact heldHere (has.ahead different)
  | @jump block values values' executed rest pending entry below target left left'
      found ends answers
      enters =>
      obtain ⟨heldHere, heldBelow⟩ := List.forall_mem_cons.1 held
      obtain ⟨here, -⟩ := List.forall_mem_cons.1 each
      refine List.forall_mem_cons.2 ⟨fun has => ?_, heldBelow⟩
      by_cases reached : program.Reached function block
      · have edge := mem_successors_of_terminate ordered listed reached here.inside
          found ends answers
        obtain ⟨home, placed, dominates, passed⟩ := has.passed
        by_cases isPhi : ref ∈ program.phis target
        · exact entered rfl reached edge isPhi found ends answers enters
        · -- What is no phi of the block has been there before.
          have elsewhere : home ≠ target := by
            rintro rfl
            exact (mem_phis_or_mem_afterPhis ((coherent.mem_members home ref).2 placed)).elim
              isPhi (passed rfl)
          have last : rest = [] := by
            have inside : executed :: rest <:+ program.instructions block :=
              here.inside.trans (List.dropWhile_suffix _)
            obtain ⟨before, split⟩ := inside
            refine ordered.single listed reached split.symm ?_
            simpa [Store.isTerminator, Store.opcode?, found] using ends
          have different : ref ≠ executed := by
            rintro rfl
            rw [(law.plain found).1] at ends
            cases ends
          have before : Frame.Has program function ref ⟨block, values, executed :: rest, pending⟩ :=
            ⟨reached, home, placed, dominates.of_edge elsewhere edge, fun _ => by
              simp [last, different]⟩
          have distinct : (program.phis target).Nodup :=
            (coherent.membersDistinct target).sublist (List.takeWhile_sublist _)
          obtain ⟨unchanged, -⟩ := Scene.values_of_enter distinct enters
          refine law.congr ?_ (heldHere before)
          rintro other (rfl | source)
          · exact unchanged _ isPhi
          · refine unchanged _ fun member => elsewhere ?_
            have placed' := (coherent.mem_members target other).1
              (Store.mem_instructions_of_mem_phis member)
            exact dominates.antisymm (law.earlier other source placed placed').1 has.reached
      · exact arrived rfl reached has.reached found ends answers enters
  | @back top returned rest block values values' rest' pending below atRef returns resumes =>
      obtain ⟨-, heldBelow⟩ := List.forall_mem_cons.1 held
      obtain ⟨heldHere, heldBelow⟩ := List.forall_mem_cons.1 heldBelow
      obtain ⟨caller, -⟩ := List.forall_mem_cons.1 (List.forall_mem_cons.1 each).2
      refine List.forall_mem_cons.2 ⟨fun has => ?_, heldBelow⟩
      have holdsBefore := heldHere ⟨has.reached, has.passed⟩
      obtain rfl | ⟨result, datum, waits, rfl⟩ := resumes
      · exact holdsBefore
      · obtain ⟨inside, entry, found, calls⟩ := caller.awaited result waits
        have different : ref ≠ result := by
          rintro rfl
          exact calls (law.plain found)
        have before : Frame.Has program function ref ⟨block, values, result :: rest', pending⟩ :=
          has.ahead different
        exact law.results coherent inside before different (.inr ⟨datum, rfl⟩) holdsBefore
  | handler atRef returns hands starts =>
      obtain ⟨-, heldBelow⟩ := List.forall_mem_cons.1 held
      exact List.forall_mem_cons.2 ⟨started List.mem_cons_self starts, heldBelow⟩

/-- Where functions keep to themselves, a law only has to hold when the result is made. -/
theorem Law.shifts_of_arranged
    {heap : Heap}
    {frames frames' : List Frame}
    (law : Law program function ref sources holds)
    (coherent : program.Coherent)
    (arranged : program.Arranged functions)
    (listed : function ∈ functions)
    (shifts : Frame.Shifts program settings heap frames frames')
    (housed : Frame.AllHoused program functions frames)
    (made : ∀ {block values values' rest pending below},
      frames = ⟨block, values, ref :: rest, pending⟩ :: below →
      frames' = ⟨block, values', rest, pending⟩ :: below →
      program.Reached function block → holds values')
    (entered : ∀ {block target values values' executed rest pending entry below left left'},
      frames = ⟨block, values, executed :: rest, pending⟩ :: below →
      program.Reached function block → target ∈ program.successors block →
      ref ∈ program.phis target →
      program.instruction? executed = some entry → entry.opcode.isTerminator = true →
      outcome (Scene.terminate ⟨program, settings, values⟩ entry) heap =
        (.ok (.jump (some target)), left) →
      outcome (Scene.enter ⟨program, settings, values⟩ target (some block)) left =
        (.ok values', left') →
      holds values')
    (held : ∀ frame ∈ frames, frame.Has program function ref → holds frame.values) :
    ∀ frame ∈ frames', frame.Has program function ref → holds frame.values := by
  refine law.shifts coherent arranged.toOrdered listed shifts housed.toAllInside ?_ ?_
    made entered held
  · intro owner frame isFrame starts has
    obtain ⟨home, listed', reached⟩ := ((shifts.housed arranged housed).homes frame isFrame).reached
    -- The function that starts is the one whose block it starts in.
    have owned := arranged.owner listed' reached
    obtain ⟨entry, found, hasBody⟩ := Option.bind_eq_some_iff.1 starts.inside.2.2
    cases owned.symm.trans (coherent.bodyOwner found hasBody)
    exact absurd has (starts.not_has coherent arranged.toOrdered listed listed')
  · intro block target values values' executed rest pending entry below left left' same outside
      reached found ends answers _
    obtain ⟨home, listed', reached'⟩ := (housed.homes _ (same ▸ List.mem_cons_self)).reached
    have top := housed.each _ (same ▸ List.mem_cons_self)
    have edge := mem_successors_of_terminate arranged.toOrdered listed' reached'
      top.inside found ends
      answers
    cases (arranged.owner listed reached).symm.trans (arranged.owner listed' (reached'.tail edge))
    exact absurd reached' outside

end Machine

end ShaderIR
