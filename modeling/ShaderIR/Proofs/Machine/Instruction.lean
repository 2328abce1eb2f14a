import ShaderIR.Proofs.Machine.Scene

/-!
# Executing instructions that resemble each other

What a single instruction does, on both sides of a link: results are linked,
conditions are the same, and control goes to the same block.
-/

namespace ShaderIR

theorem Opcode.isTerminator_withMerge (opcode : Opcode) (merge : Option Ref) :
    (opcode.withMerge merge).isTerminator = opcode.isTerminator := by
  cases opcode <;> rfl

theorem Opcode.withMerge_of_not_terminator
    {opcode : Opcode}
    (merge : Option Ref)
    (plain : opcode.isTerminator = false) :
    opcode.withMerge merge = opcode := by
  cases opcode <;> first | rfl | cases plain

/-- Only terminators have merge blocks. -/
theorem Opcode.eq_of_withMerge_eq
    {opcode opcode' : Opcode}
    (same : opcode'.withMerge none = opcode.withMerge none)
    (plain : opcode.isTerminator = false) :
    opcode' = opcode := by
  have plain' : opcode'.isTerminator = false := by
    rw [← Opcode.isTerminator_withMerge opcode' none, same, Opcode.isTerminator_withMerge, plain]
  rw [← Opcode.withMerge_of_not_terminator none plain', same,
    Opcode.withMerge_of_not_terminator none plain]

namespace Machine

open Exec

variable {link larger : Link} {scene scene' : Scene} {instruction instruction' : Instruction}

/-- An answer of the first run that the second one repeats, if it is there. -/
theorem follows_some {work work' : Exec Datum} (follows : Follows Linked link work work') :
    Follows MaybeLinked link (do return some (← work)) (do return some (← work')) := by
  refine Follows.bind follows ?_
  intro larger datum datum' _ linked
  exact Follows.pure (.some linked)

namespace Resembles

theorem threadGroup
    (resembles : Resembles link scene scene' instruction instruction')
    (type : Option Ty)
    (op : ThreadGroupOp) :
    Follows MaybeLinked link (scene.threadGroup type op instruction)
      (scene'.threadGroup type op instruction') := by
  have first := resembles.evalAt 0 (le_refl link)
  cases op with
  | warpActiveSum => exact follows_some first
  | warpReadLaneAt => exact follows_some first
  | warpActiveAllEqual =>
      refine Follows.bind first ?_
      intro larger datum datum' _ linked
      have constantly : OperationsFollow larger (fun _ => pure (.bool true))
          (fun _ => pure (.bool true)) :=
        fun _ _ _ _ _ => Follows.pure (.bool true)
      exact follows_some (follows_mapScalars datum constantly linked)
  | warpFirstActiveLane => exact follows_some (follows_zeroOf link type)
  | _ => exact Follows.pure .none

theorem rayQueryRead
    (resembles : Resembles link scene scene' instruction instruction')
    (type : Option Ty)
    (op : RayQueryReadOp) :
    Follows Linked link (scene.rayQueryRead type op instruction)
      (scene'.rayQueryRead type op instruction') := by
  refine Follows.bind (resembles.follows_operand 0) ?_
  intro first operand operand' grows agrees
  refine Follows.bind (agrees.mono grows).rayQuery ?_
  intro second address address' _ queries
  refine Follows.bind (follows_queryAt queries) ?_
  intro third query _ _ same
  cases same
  cases op with
  | isTriangleCandidate => exact Follows.pure (.bool _)
  | isProceduralCandidate => exact Follows.pure (.bool _)
  | isTerminated => exact Follows.pure (.bool _)
  | _ => exact follows_zeroOf third type

theorem rayQueryWrite
    (resembles : Resembles link scene scene' instruction instruction')
    (op : RayQueryWriteOp) :
    Follows Same link (scene.rayQueryWrite op instruction)
      (scene'.rayQueryWrite op instruction') := by
  refine Follows.bind (resembles.follows_operand 0) ?_
  intro first operand operand' grows agrees
  refine Follows.bind (agrees.mono grows).rayQuery ?_
  intro second address address' _ queries
  refine Follows.bind (follows_queryAt queries) ?_
  intro third query _ grows' same
  cases same
  have queries := grows'.1.queries queries
  cases op with
  | commitTriangle => exact follows_setQuery queries _
  | commitProcedural => exact follows_setQuery queries _
  | terminate => exact follows_setQuery queries _
  | _ => exact Follows.pure rfl

theorem condition (resembles : Resembles link scene scene' instruction instruction') :
    Follows Same link (scene.condition instruction) (scene'.condition instruction') := by
  refine Follows.bind (resembles.evalAt 0 (le_refl link)) ?_
  intro larger datum datum' _ linked
  cases linked with
  | bool truth => exact Follows.pure rfl
  | _ => exact Follows.stuck

/-- The index operands of an instruction. -/
theorem indices
    (resembles : Resembles link scene scene' instruction instruction')
    (grows : link ≤ larger) :
    Follows Same larger (scene.path (instruction.values.drop 1))
      (scene'.path (instruction'.values.drop 1)) :=
  follows_path (List.forall₂_drop 1 resembles.operands) larger grows

theorem gep (resembles : Resembles link scene scene' instruction instruction') :
    Follows MaybeLinked link
      (do
        let base ← Scene.operand instruction 0
        let path ← scene.path (instruction.values.drop 1)
        let (cell, below) ← scene.reference base
        return some (← Exec.make (·.newReference cell (below ++ path))))
      (do
        let base ← Scene.operand instruction' 0
        let path ← scene'.path (instruction'.values.drop 1)
        let (cell, below) ← scene'.reference base
        return some (← Exec.make (·.newReference cell (below ++ path)))) := by
  refine Follows.bind (resembles.follows_operand 0) ?_
  intro first base base' grows agrees
  refine Follows.bind (resembles.indices grows) ?_
  intro second path _ grows' same
  cases same
  refine Follows.bind (agrees.mono (le_trans grows grows')).reference ?_
  rintro third ⟨cell, below⟩ ⟨cell', _⟩ _ ⟨cells, same⟩
  cases same
  refine follows_some ?_
  intro heap heap' heaps _ _ equal
  cases equal
  rcases heaps.newReference cells (below ++ path) with ⟨larger, grows, heaps', linked⟩
  exact ⟨larger, _, _, grows, rfl, heaps', linked⟩

theorem alloca (type : Option Ty) :
    Follows MaybeLinked link
      (do
        let content ← Scene.zeroOf type
        return some (← Exec.make (·.newVariable content)))
      (do
        let content ← Scene.zeroOf type
        return some (← Exec.make (·.newVariable content))) := by
  refine Follows.bind (follows_zeroOf link type) ?_
  intro larger content content' _ linked
  refine follows_some ?_
  intro heap heap' heaps _ _ equal
  cases equal
  rcases heaps.newVariable linked with ⟨last, grows, heaps', linked'⟩
  exact ⟨last, _, _, grows, rfl, heaps', linked'⟩

theorem cast
    (resembles : Resembles link scene scene' instruction instruction')
    (type : Option Ty)
    (op : CastOp) :
    Follows MaybeLinked link
      (do
        let source ← Exec.demand (← Scene.operand instruction 0)
        return some (← Machine.cast type op (scene.program.typeOf source) (← scene.eval source)))
      (do
        let source ← Exec.demand (← Scene.operand instruction' 0)
        return some
          (← Machine.cast type op (scene'.program.typeOf source) (← scene'.eval source))) := by
  refine Follows.bind (resembles.follows_operand 0) ?_
  intro first operand operand' grows agrees
  have evaluated := agrees.eval first grows
  have present := agrees.present
  have sameType := agrees.type
  cases operand with
  | none => exact Follows.stuck
  | some source =>
      cases operand' with
      | none => simp at present
      | some source' =>
          have sameType : scene'.program.typeOf source' = scene.program.typeOf source := sameType
          show Follows MaybeLinked first
            (do return some (← Machine.cast type op _ (← scene.eval source)))
            (do return some (← Machine.cast type op _ (← scene'.eval source')))
          rw [sameType]
          refine Follows.bind evaluated ?_
          intro second datum datum' _ linked
          exact follows_some (follows_cast type op _ linked)

/-! ## Instructions without calls -/

theorem execute
    (resembles : Resembles link scene scene' instruction instruction')
    {ref : Ref}
    {steps steps' : Nat}
    (plain : instruction.opcode.isTerminator = false)
    (timeless : instruction.opcode ≠ .clock)
    (sameType : scene'.program.typeOf ref = scene.program.typeOf ref) :
    Follows MaybeLinked link (scene.execute ref instruction steps)
      (scene'.execute ref instruction' steps') := by
  have sameOpcode := Opcode.eq_of_withMerge_eq resembles.opcode plain
  have atFirst := resembles.evalAt 0 (le_refl link)
  unfold Scene.execute
  rw [sameOpcode, sameType]
  cases found : instruction.opcode with
  | alloca space => exact alloca _
  | load =>
      refine Follows.bind (resembles.follows_operand 0) ?_
      intro first operand operand' grows agrees
      refine Follows.bind (agrees.mono grows).reference ?_
      intro second place place' _ places
      exact follows_some (follows_load places)
  | store =>
      refine Follows.bind (resembles.follows_operand 0) ?_
      intro first operand operand' grows agrees
      refine Follows.bind (agrees.mono grows).reference ?_
      intro second place place' grows' places
      refine Follows.bind (resembles.evalAt 1 (le_trans grows grows')) ?_
      intro third datum datum' grows'' linked
      refine Follows.bind (follows_store (places.mono grows'') linked) ?_
      intro fourth _ _ _ _
      exact Follows.pure .none
  | gep => exact resembles.gep
  | atomic op =>
      exact follows_some (resembles.atomic _ found)
  | arithmetic op =>
      refine Follows.bind (follows_evalAll resembles.operands link (le_refl link)) ?_
      intro first data data' _ linked
      exact follows_some (follows_arithmetic _ _ _ op linked)
  | cast op => exact resembles.cast _ op
  | threadGroup op => exact resembles.threadGroup _ op
  | resourceQuery op =>
      cases op with
      | bufferSize =>
          refine Follows.bind (resembles.follows_operand 0) ?_
          intro first operand operand' grows agrees
          refine Follows.bind (agrees.mono grows).buffer ?_
          rintro second ⟨address, elements⟩ ⟨_, elements'⟩ _ ⟨same, linked⟩
          cases same
          have lengths : elements.length = elements'.length := linked.length_eq
          refine Follows.pure (.some ?_)
          rw [lengths]
          exact .uint _
      | _ => exact Follows.fail
  | resourceRead op =>
      cases op with
      | buffer =>
          refine Follows.bind (resembles.follows_operand 0) ?_
          intro first operand operand' grows agrees
          refine Follows.bind (agrees.mono grows).buffer ?_
          rintro second ⟨address, elements⟩ ⟨_, elements'⟩ grows' ⟨same, linked⟩
          cases same
          refine Follows.bind (resembles.evalAt 1 (le_trans grows grows')) ?_
          intro third index index' grows'' linkedIndex
          refine Follows.bind (follows_toInteger linkedIndex) ?_
          intro fourth position _ growing same
          cases same
          refine follows_some (Follows.demand fun element found => ?_)
          exact AllLinked.elementAt? (AllLinked.mono (le_trans grows'' growing) linked) found
      | _ => exact Follows.fail
  | resourceWrite op =>
      cases op with
      | buffer =>
          refine Follows.bind (resembles.follows_operand 0) ?_
          intro first operand operand' grows agrees
          refine Follows.bind (agrees.mono grows).buffer ?_
          rintro second ⟨address, elements⟩ ⟨_, elements'⟩ grows' ⟨same, -⟩
          cases same
          refine Follows.bind (resembles.evalAt 1 (le_trans grows grows')) ?_
          intro third index index' grows'' linkedIndex
          refine Follows.bind (follows_toInteger linkedIndex) ?_
          intro fourth position _ growing same
          cases same
          have grown : link ≤ fourth :=
            le_trans grows (le_trans grows' (le_trans grows'' growing))
          refine Follows.bind (resembles.evalAt 2 grown) ?_
          intro fifth new new' _ linked
          refine Follows.bind (follows_storeElement address position.toInt linked) ?_
          intro sixth _ _ _ _
          exact Follows.pure .none
      | _ => exact Follows.fail
  | rayQueryRead op => exact follows_some (resembles.rayQueryRead _ op)
  | rayQueryWrite op =>
      refine Follows.bind (resembles.rayQueryWrite op) ?_
      intro first _ _ _ _
      exact Follows.pure .none
  | clock => exact absurd found timeless
  | assertTrue message =>
      refine Follows.bind resembles.condition ?_
      intro first truth _ _ same
      cases same
      cases truth with
      | true => exact Follows.pure .none
      | false => exact Follows.throw
  | assumeTrue message => exact Follows.pure .none
  | autodiff op =>
      cases op with
      | detach => exact follows_some atFirst
      | gradient => exact follows_some (follows_zeroOf link _)
      | _ => exact Follows.pure .none
  | _ => exact Follows.fail

end Resembles

/-! ## Terminators -/

/-- Two transfers of control to the same block, or back with linked results. -/
inductive LinkedTransfer (link : Link) : Scene.Transfer → Scene.Transfer → Prop
  | jump (target : Option Ref) : LinkedTransfer link (.jump target) (.jump target)
  | back {result result' : Datum} :
      Linked link result result' → LinkedTransfer link (.back result) (.back result')

/-- Control does not depend on merge blocks. -/
theorem Scene.terminate_withMerge (scene : Scene) (instruction : Instruction) :
    scene.terminate { instruction with opcode := instruction.opcode.withMerge none } =
      scene.terminate instruction := by
  rcases instruction with ⟨opcode, operands, block⟩
  cases opcode <;> rfl

theorem follows_nextHandler
    {address address' : Nat}
    (queries : link.queries address address')
    (onSurface onProcedural : Option Ref) :
    Follows Same link (Scene.nextHandler address onSurface onProcedural)
      (Scene.nextHandler address' onSurface onProcedural) := by
  refine Follows.bind (follows_queryAt queries) ?_
  intro first query _ grows same
  cases same
  refine Follows.bind (follows_setQuery (grows.1.queries queries) _) ?_
  intro second _ _ _ _
  exact Follows.pure rfl

namespace Resembles

theorem target
    (resembles : Resembles link scene scene' instruction instruction')
    (position : Nat) :
    Follows LinkedTransfer larger (scene.target instruction position)
      (scene'.target instruction' position) := by
  refine Follows.bind (resembles.follows_operand position) ?_
  intro last operand operand' _ agrees
  rw [agrees.block]
  exact Follows.pure (.jump _)

/-- Operands at one position, missing ones included, name the same block. -/
theorem asBlock
    (resembles : Resembles link scene scene' instruction instruction')
    (position : Nat) :
    scene'.program.asBlock (instruction'.operand? position).join =
      scene.program.asBlock (instruction.operand? position).join := by
  cases found : instruction.operand? position with
  | none =>
      rw [resembles.operand?_none found]
      rfl
  | some operand =>
      rcases resembles.operand? found with ⟨operand', found', agrees⟩
      rw [found']
      exact agrees.block

/-- Operands at one position, missing ones included, name the same function. -/
theorem asFunction
    (resembles : Resembles link scene scene' instruction instruction')
    (position : Nat) :
    scene'.program.asFunction (instruction'.operand? position).join =
      scene.program.asFunction (instruction.operand? position).join := by
  cases found : instruction.operand? position with
  | none =>
      rw [resembles.operand?_none found]
      rfl
  | some operand =>
      rcases resembles.operand? found with ⟨operand', found', agrees⟩
      rw [found']
      exact agrees.function

theorem ret (resembles : Resembles link scene scene' instruction instruction') :
    Follows LinkedTransfer link
      (match (instruction.operand? 0).join with
        | some result => do return .back (← scene.eval result)
        | none => return .back .absent)
      (match (instruction'.operand? 0).join with
        | some result => do return .back (← scene'.eval result)
        | none => return .back .absent) := by
  cases found : instruction.operand? 0 with
  | none =>
      rw [resembles.operand?_none found]
      exact Follows.pure (.back .absent)
  | some operand =>
      rcases resembles.operand? found with ⟨operand', found', agrees⟩
      have evaluated := agrees.eval link (le_refl link)
      have present := agrees.present
      rw [found']
      cases operand with
      | none =>
          cases operand' with
          | some result' => simp at present
          | none => exact Follows.pure (.back .absent)
      | some result =>
          cases operand' with
          | none => simp at present
          | some result' =>
              refine Follows.bind evaluated ?_
              intro first datum datum' _ linked
              exact Follows.pure (.back linked)

theorem terminate (resembles : Resembles link scene scene' instruction instruction') :
    Follows LinkedTransfer link (scene.terminate instruction)
      (scene'.terminate instruction') := by
  rw [← scene.terminate_withMerge instruction, ← scene'.terminate_withMerge instruction',
    resembles.opcode]
  have condition := resembles.condition
  have choose : Follows LinkedTransfer link
      (do
        if ← scene.condition instruction then scene.target instruction 1
        else scene.target instruction 2)
      (do
        if ← scene'.condition instruction' then scene'.target instruction' 1
        else scene'.target instruction' 2) := by
    refine Follows.bind condition ?_
    intro first truth _ _ same
    cases same
    cases truth with
    | true => exact resembles.target 1
    | false => exact resembles.target 2
  have direct : Follows LinkedTransfer link (scene.target instruction 0)
      (scene'.target instruction' 0) :=
    resembles.target 0
  cases instruction.opcode with
  | ifElse merge => exact choose
  | condBranch => exact choose
  | switch merge cases =>
      refine Follows.bind (resembles.evalAt 0 (le_refl link)) ?_
      intro first datum datum' _ linked
      refine Follows.bind (follows_toInteger linked) ?_
      intro second selector _ _ same
      cases same
      exact resembles.target _
  | rayQueryDispatch =>
      refine Follows.bind (resembles.follows_operand 0) ?_
      intro first operand operand' grows agrees
      refine Follows.bind (agrees.mono grows).rayQuery ?_
      intro second address address' _ queries
      have onSurface := resembles.asBlock 2
      have onProcedural := resembles.asBlock 3
      dsimp only [Instruction.operand?] at onSurface onProcedural ⊢
      rw [onSurface, onProcedural]
      refine Follows.bind (follows_nextHandler queries _ _) ?_
      intro third handler _ _ same
      cases same
      cases handler with
      | some block => exact Follows.pure (.jump _)
      | none => exact resembles.target 1
  | ret => exact resembles.ret
  | unreachable message =>
      refine Follows.of_not_ok fun heap answer left run => ?_
      rcases outcome_bind_eq_ok.1 run with ⟨_, _, _, rest⟩
      cases rest
  | rasterDiscard => exact Follows.throw
  | loop => exact direct
  | simpleLoop => exact direct
  | branch => exact direct
  | breakTo => exact direct
  | continueTo => exact direct
  | outline => exact direct
  | autodiffScope => exact direct
  | rayQueryLoop => exact direct
  | _ => exact Follows.stuck

/-- Pipelines start with linked queries and arguments. -/
theorem pipelineStart (resembles : Resembles link scene scene' instruction instruction') :
    Follows
      (fun link (start start' : Nat × List Datum) =>
        link.queries start.1 start'.1 ∧ AllLinked link start.2 start'.2)
      link (scene.pipelineStart instruction) (scene'.pipelineStart instruction') := by
  unfold Scene.pipelineStart
  refine Follows.bind (resembles.follows_operand 0) ?_
  intro first query query' grows agrees
  refine Follows.bind (agrees.mono grows).reference ?_
  intro second place place' grows' places
  refine Follows.bind (agrees.eval second (le_trans grows grows')) ?_
  intro third reference reference' growing linkedReference
  refine Follows.bind (follows_load (places.mono growing)) ?_
  intro fourth datum datum' grown linkedDatum
  cases linkedDatum with
  | rayQuery queries =>
      have largest : link ≤ fourth :=
        le_trans grows (le_trans grows' (le_trans growing grown))
      refine Follows.bind (follows_evalAll resembles.operands fourth largest) ?_
      intro fifth data data' last linkedData
      rw [← linkedData.length_eq]
      split
      · exact Follows.stuck
      · exact Follows.pure ⟨last.1.queries queries,
          .cons (linkedReference.mono (le_trans grown last)) (List.forall₂_drop 3 linkedData)⟩
  | _ => exact Follows.fail

end Resembles

end Machine

end ShaderIR
