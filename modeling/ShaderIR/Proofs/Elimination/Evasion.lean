import ShaderIR.Proofs.Elimination.CuttingOff
import ShaderIR.Proofs.Elimination.Futility
import ShaderIR.Proofs.Machine.Places
import ShaderIR.Proofs.Machine.Refinement

/-!
# Runs keep out of futile blocks

Control that is in a futile block stays in futile blocks, apart from the functions that are
called there, until it comes to an unreachable end.  So no run that succeeds gets to one of
them, as long as the function does not return a block: the search counts a block that is
returned among those that control goes to, whereas the run goes back to the caller.

The main statement says what neutralizing does without mentioning the search.
-/

namespace ShaderIR

open Store Edit

/-! ## Runs -/

namespace Store

/-- Returning blocks of a function have no blocks among their operands. -/
def ReturnsData (store : Store) (function : Ref) : Prop :=
  ∀ {block terminator}, store.Reached function block → store.terminator? block = some terminator →
    store.opcode? terminator = some .ret → store.successors block = []

variable {store : Store} {block ref function : Ref} {rest : List Ref}

theorem EndsOnce.terminator?
    (endsOnce : store.EndsOnce block)
    (inside : ref :: rest <:+ store.instructions block)
    (ends : store.isTerminator ref = true) :
    store.terminator? block = some ref := by
  obtain ⟨before, split⟩ := inside
  cases endsOnce _ _ _ split.symm ends
  exact terminator?_eq_some_iff.2 ⟨by rw [← split, List.getLast?_concat], ends⟩

theorem endsUnreachable_eq_of_terminator? (last : store.terminator? block = some ref) :
    store.endsUnreachable block = store.isDeadEnd ref := by
  rw [endsUnreachable, terminatorOpcode?, last]
  rfl

/-- A futile block does not return. -/
theorem Futile.opcode?_ne_ret
    (futile : store.Futile block)
    (reached : store.Reached function block)
    (endsOnce : store.EndsOnce block)
    (returnsData : store.ReturnsData function)
    (inside : ref :: rest <:+ store.instructions block) :
    store.opcode? ref ≠ some .ret := by
  intro returns
  have last := endsOnce.terminator? inside (by rw [isTerminator, returns]; rfl)
  rcases futile.endsUnreachable_or_departs with isEnd | ⟨next, -, edge, -⟩
  · rw [endsUnreachable_eq_of_terminator? last, isDeadEnd, returns] at isEnd
    cases isEnd
  · rw [returnsData reached last returns] at edge
    cases edge

end Store

namespace Machine

/-- A run is inside of blocks, one of which is a reached futile block of a function. -/
structure Caught (program : Store) (function : Ref) (places : List Place) : Prop where
  inside : ∀ place ∈ places, place.rest <:+ program.instructions place.block
  caught : ∃ place ∈ places, program.Reached function place.block ∧ program.Futile place.block

variable {program : Store} {settings : Settings} {function : Ref} {places places' : List Place}

theorem Place.inside_start (program : Store) (block : Ref) :
    (Place.start program block).rest <:+ program.instructions block :=
  List.dropWhile_suffix _

/-- A step stays inside of blocks. -/
theorem Place.Shifts.inside
    (shifts : Place.Shifts program places places')
    (inside : ∀ place ∈ places, place.rest <:+ program.instructions place.block) :
    ∀ place ∈ places', place.rest <:+ program.instructions place.block := by
  cases shifts with
  | next =>
      obtain ⟨top, below⟩ := List.forall_mem_cons.1 inside
      exact List.forall_mem_cons.2 ⟨(List.suffix_cons _ _).trans top, below⟩
  | call body =>
      obtain ⟨top, below⟩ := List.forall_mem_cons.1 inside
      refine List.forall_mem_cons.2 ⟨inside_start program body, ?_⟩
      exact List.forall_mem_cons.2 ⟨(List.suffix_cons _ _).trans top, below⟩
  | jump =>
      obtain ⟨-, below⟩ := List.forall_mem_cons.1 inside
      exact List.forall_mem_cons.2 ⟨inside_start program _, below⟩
  | back => exact (List.forall_mem_cons.1 inside).2
  | handler body =>
      exact List.forall_mem_cons.2 ⟨inside_start program body, (List.forall_mem_cons.1 inside).2⟩

/-- No step of control leaves the futile blocks. -/
theorem Caught.shifts
    (caught : Caught program function places)
    (endsOnce : ∀ block, program.Reached function block → program.EndsOnce block)
    (returnsData : program.ReturnsData function)
    (shifts : Place.Shifts program places places') :
    Caught program function places' := by
  refine ⟨shifts.inside caught.inside, ?_⟩
  have inside := caught.inside
  have held := caught.caught
  cases shifts with
  | next => simpa only [List.exists_mem_cons_iff] using held
  | call body =>
      refine List.exists_mem_cons_of_exists ?_
      simpa only [List.exists_mem_cons_iff] using held
  | @jump block ref rest below target ends alive listed isBlock =>
      rcases (List.exists_mem_cons_iff _ _ _).1 held with ⟨reached, futile⟩ | later
      · have last := (endsOnce block reached).terminator? (inside _ List.mem_cons_self) ends
        have edge := mem_successors_iff.2 ⟨ref, last, listed, isBlock⟩
        refine List.exists_mem_cons_of _ ⟨reached.tail edge, ?_⟩
        by_cases same : target = block
        · exact same ▸ futile
        · refine futile.departs ⟨?_, edge, same⟩
          rw [endsUnreachable_eq_of_terminator? last]
          exact alive
      · exact List.exists_mem_cons_of_exists later
  | back returns =>
      rcases (List.exists_mem_cons_iff _ _ _).1 held with ⟨reached, futile⟩ | later
      · exact absurd returns (futile.opcode?_ne_ret reached (endsOnce _ reached) returnsData
          (inside _ List.mem_cons_self))
      · exact later
  | handler body returns =>
      rcases (List.exists_mem_cons_iff _ _ _).1 held with ⟨reached, futile⟩ | later
      · exact absurd returns (futile.opcode?_ne_ret reached (endsOnce _ reached) returnsData
          (inside _ List.mem_cons_self))
      · exact List.exists_mem_cons_of_exists later

/-- A run that has got to a futile block does not succeed. -/
theorem Caught.not_finishes
    {state : State}
    (caught : Caught program function state.places)
    (endsOnce : ∀ block, program.Reached function block → program.EndsOnce block)
    (returnsData : program.ReturnsData function) :
    ¬Finishes program settings state := by
  refine State.not_finishes_of_places
    (fun _ _ caught shifts => Caught.shifts caught endsOnce returnsData shifts) ?_ caught
  rintro block ref rest returns ⟨inside, place, member, reached, futile⟩
  obtain rfl := List.mem_singleton.1 member
  exact futile.opcode?_ne_ret reached (endsOnce _ reached) returnsData
    (inside _ List.mem_cons_self) returns

/-- A run that succeeds does not get to a futile block. -/
theorem not_futile_of_run_eq_ok
    {heap left : Heap}
    {invoked : Ref}
    {arguments : List Datum}
    {result : Result}
    {frame : Frame}
    {state : State}
    (endsOnce : ∀ block, program.Reached function block → program.EndsOnce block)
    (returnsData : program.ReturnsData function)
    (ran : run program settings heap (some invoked) arguments = .ok result)
    (called : Exec.outcome (callFrame program settings invoked arguments) heap = (.ok frame, left))
    (visited : State.Visits program settings { frame, heap := left } state)
    (reached : program.Reached function state.frame.block) :
    ¬program.Futile state.frame.block := by
  intro futile
  obtain ⟨_, _, _, final, -, -, -, called', finishes, -⟩ := run_eq_ok.1 ran
  cases called.symm.trans called'
  have starts : frame.Starts program settings invoked := ⟨arguments, heap, left, called⟩
  have start : ∀ place ∈ State.places { frame, heap := left },
      place.rest <:+ program.instructions place.block := by
    refine List.forall_mem_cons.2 ⟨?_, by simp⟩
    rw [starts.place]
    exact Place.inside_start program _
  have inside := State.places_of_visits
    (fun _ _ inside shifts => shifts.inside inside) start visited
  have caught : Caught program function state.places :=
    ⟨inside, state.frame.place, List.mem_cons_self, reached, futile⟩
  exact caught.not_finishes endsOnce returnsData
    (State.finishes_of_visits visited ⟨_, _, final, finishes⟩)

end Machine

/-! ## The whole search -/

namespace Pass

variable {store : Store} {function : Ref}

/--
Where the reached blocks of a function end at their only terminators, if at all, the blocks
from which every path ends unreachable can be neutralized.  Afterwards a reached block is a
lone unreachable end just if it was futile, all else is as it was, and the count is that of
the futile blocks that were no lone ends already.  The search finds the reached futile blocks
in whatever order it goes over the blocks; control does not leave them for other blocks; and
no frame of a run that succeeds is in one of them, unless the function returns a block.
-/
theorem neutralizeDoomed_iff_futile
    (coherent : store.Coherent)
    (endsOnce : ∀ block, store.Reached function block → store.EndsOnce block)
    (report : Elimination) :
    (∃ report' left, Gives (neutralizeDoomed function report) store report' left ∧
      (∀ block, store.Reached function block →
        (left.IsNeutral block ↔ store.Futile block)) ∧
      (∀ block, ¬(store.Reached function block ∧ store.Futile block) →
        left.instructions block = store.instructions block) ∧
      ∃ cut : List Ref, cut.Nodup ∧
        (∀ block, block ∈ cut ↔
          (store.Reached function block ∧ store.Futile block) ∧ ¬store.IsNeutral block) ∧
        report'.neutralized = report.neutralized + cut.length) ∧
    (∀ order : List Ref, (∀ block, block ∈ order ↔ store.Reached function block) →
      ∀ block, block ∈ doomedWithin store order (order.length + 1) [] ↔
        store.Reached function block ∧ store.Futile block) ∧
    (∀ block next, store.Reached function block → store.Futile block →
      store.Departs block next → store.Reached function next ∧ store.Futile next) ∧
    (store.ReturnsData function →
      ∀ settings heap invoked arguments result frame middle state,
        Machine.run store settings heap (some invoked) arguments = .ok result →
        Machine.Exec.outcome (Machine.callFrame store settings invoked arguments) heap =
          (.ok frame, middle) →
        Machine.State.Visits store settings { frame, heap := middle } state →
        store.Reached function state.frame.block → ¬store.Futile state.frame.block) := by
  have found : ∀ {block}, block ∈ doomed store function ↔
      store.Reached function block ∧ store.Futile block := mem_doomed_iff coherent
  refine ⟨?_, fun order listed block => mem_doomedWithin_iff (listed _), ?_, ?_⟩
  · obtain ⟨report', left, gives, cutsOff⟩ := exists_cutsOff coherent report nodup_doomed
      (fun block member => (found.1 member).1.isBlock coherent)
      (fun block member => endsOnce block (found.1 member).1)
    refine ⟨report', left, gives_see_bind_iff.2 gives, ?_, ?_, ?_⟩
    · intro block reached
      by_cases futile : store.Futile block
      · exact iff_of_true (cutsOff.neutral block (found.2 ⟨reached, futile⟩)) futile
      · rw [cutsOff.isNeutral block (fun member => futile (found.1 member).2)]
        refine iff_of_false (fun neutral => futile ?_) futile
        exact Futile.of_endsUnreachable neutral.endsUnreachable
    · exact fun block outside => cutsOff.instructions block (fun member => outside (found.1 member))
    · obtain ⟨cut, distinct, members, count⟩ := cutsOff.counted
      exact ⟨cut, distinct, fun block => by rw [members, found], count⟩
  · exact fun block next reached futile departs => ⟨reached.departs departs, futile.departs departs⟩
  · intro returnsData settings heap invoked arguments result frame middle state ran called visited
    exact Machine.not_futile_of_run_eq_ok endsOnce returnsData ran called visited

/--
A branch to two sides.  One of them goes on with itself or with an unreachable end, the
other one returns.
-/
def parting : Store :=
  (Session.after [
    .edit (.addModule "parting"),
    .edit (.createFunction 0 .kernel none),
    .edit (.constantBool 0 false),
    .edit (.createBody ⟨0⟩),
    .edit (.createBlock ⟨0⟩),
    .edit (.createBlock ⟨0⟩),
    .edit (.createBlock ⟨0⟩),
    .moveToEnd ⟨2⟩, .condBranch (some ⟨1⟩) (some ⟨3⟩) (some ⟨5⟩),
    .moveToEnd ⟨3⟩, .condBranch (some ⟨1⟩) (some ⟨3⟩) (some ⟨4⟩),
    .moveToEnd ⟨4⟩, .emit (.unreachable "") none [] (.refl true),
    .moveToEnd ⟨5⟩, .emit .ret none [] (.refl true)]).store

/-- The side that comes to an unreachable end is cut off, and a run that returns avoids it. -/
theorem neutralizeDoomed_parting :
    (∀ block, parting.Reached ⟨0⟩ block → parting.EndsOnce block) ∧ parting.ReturnsData ⟨0⟩ ∧
    (∃ report left, Gives (neutralizeDoomed ⟨0⟩ {}) parting report left ∧
      left.IsNeutral ⟨3⟩ ∧ ¬left.IsNeutral ⟨5⟩ ∧ report.neutralized = 1) ∧
    ∃ frame middle state,
      Machine.Exec.outcome (Machine.callFrame parting { limit := 9 } ⟨0⟩ []) {} =
        (.ok frame, middle) ∧
      Machine.State.Visits parting { limit := 9 } { frame, heap := middle } state ∧
      state.frame.block = ⟨5⟩ ∧ ¬parting.Futile state.frame.block := by
  have coherent : parting.Coherent := (Session.after_coherent _).store
  have listed : ∀ block, block ∈ parting.reversePostOrder ⟨0⟩ ↔ parting.Reached ⟨0⟩ block :=
    fun _ => mem_reversePostOrder_iff_reached coherent
  have endsOnce : ∀ block, parting.Reached ⟨0⟩ block → parting.EndsOnce block := by
    have checked : ∀ block ∈ parting.reversePostOrder ⟨0⟩,
        ∀ ref ∈ (parting.instructions block).dropLast, parting.isTerminator ref = false := by
      decide +kernel
    exact fun block reached => endsOnce_iff.2 (checked block ((listed block).2 reached))
  have returnsData : parting.ReturnsData ⟨0⟩ := by
    have checked : ∀ block ∈ parting.reversePostOrder ⟨0⟩,
        (parting.terminator? block).bind parting.opcode? = some .ret →
          parting.successors block = [] := by
      decide +kernel
    intro block terminator reached last returns
    exact checked block ((listed block).2 reached) (by rw [last, Option.bind_some, returns])
  obtain ⟨⟨report, left, gives, neutral, -, cut, distinct, members, count⟩, order, -, runs⟩ :=
    neutralizeDoomed_iff_futile coherent endsOnce {}
  have all : doomedWithin parting (parting.reversePostOrder ⟨0⟩)
      ((parting.reversePostOrder ⟨0⟩).length + 1) [] = [⟨3⟩, ⟨4⟩] := by
    decide +kernel
  have found : ∀ block, block ∈ [(⟨3⟩ : Ref), ⟨4⟩] ↔
      parting.Reached ⟨0⟩ block ∧ parting.Futile block := by
    intro block
    rw [← all]
    exact order _ listed block
  refine ⟨endsOnce, returnsData, ⟨report, left, gives, ?_, ?_, ?_⟩, ?_⟩
  · obtain ⟨reached, futile⟩ := (found ⟨3⟩).1 (by decide)
    exact (neutral ⟨3⟩ reached).2 futile
  · have reached : parting.Reached ⟨0⟩ ⟨5⟩ := (listed ⟨5⟩).1 (by decide +kernel)
    rw [neutral ⟨5⟩ reached]
    exact fun futile => absurd ((found ⟨5⟩).2 ⟨reached, futile⟩) (by decide)
  · have same : cut.Perm [⟨3⟩] := by
      refine (List.perm_ext_iff_of_nodup distinct (List.nodup_singleton _)).2 fun block => ?_
      have alone : ∀ other ∈ [(⟨3⟩ : Ref), ⟨4⟩], (¬(parting.endsUnreachable other = true ∧
          (parting.instructions other).length = 1) ↔ other ∈ [(⟨3⟩ : Ref)]) := by
        decide +kernel
      rw [members, ← found, isNeutral_iff, and_congr_right (alone block)]
      simp +contextual
    rw [count, same.length_eq]
    rfl
  · have succeeds : (match Machine.run parting { limit := 9 } {} (some ⟨0⟩) [] with
        | .ok _ => true
        | .error _ => false) = true := by
      decide +kernel
    have goes : (match Machine.Exec.outcome
          (Machine.callFrame parting { limit := 9 } ⟨0⟩ []) {} with
        | (.ok frame, middle) =>
            match Machine.State.step parting { limit := 9 } { frame, heap := middle } with
            | .running state => decide (state.frame.block = ⟨5⟩)
            | _ => false
        | _ => false) = true := by
      decide +kernel
    split at succeeds
    · rename_i result ran
      split at goes
      · rename_i frame middle called
        split at goes
        · rename_i state stepped
          have visited : Machine.State.Visits parting { limit := 9 }
              { frame, heap := middle } state :=
            .single stepped
          have block := of_decide_eq_true goes
          refine ⟨frame, middle, state, called, visited, block, ?_⟩
          refine runs returnsData _ _ _ _ _ _ _ _ ran called visited ?_
          rw [block]
          exact (listed ⟨5⟩).1 (by decide +kernel)
        · cases goes
      · cases goes
    · cases succeeds

end Pass

end ShaderIR
