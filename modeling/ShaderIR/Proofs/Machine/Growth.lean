import ShaderIR.Pass.DeadCode.Liveness
import ShaderIR.Proofs.Machine.Follows

/-!
# Instructions that only make the heap grow

Instructions without an effect besides their result may add cells, ray queries
and references to the heap, but leave everything that is there as it is.
-/

namespace ShaderIR.Machine

namespace Exec

variable {α β : Type}

/-- A computation that leaves what is in the heap as it is. -/
def Growing (work : Exec α) : Prop :=
  ∀ heap answer left, outcome work heap = (.ok answer, left) → heap.Grows left

namespace Growing

theorem pure (answer : α) : Growing (Pure.pure answer : Exec α) := by
  intro heap _ _ equal
  cases equal
  exact .refl heap

theorem bind
    {work : Exec α}
    {next : α → Exec β}
    (first : Growing work)
    (second : ∀ answer, Growing (next answer)) :
    Growing (work >>= next) := by
  intro heap answer left run
  rcases outcome_bind_eq_ok.1 run with ⟨found, between, run, rest⟩
  exact (first heap found between run).trans (second found between answer left rest)

theorem fail (cause : Unsupported) : Growing (Exec.fail cause : Exec α) := by
  intro heap _ _ equal
  cases equal

theorem stuck : Growing (Exec.stuck : Exec α) := by
  intro heap _ _ equal
  cases equal

theorem demand (found : Option α) : Growing (Exec.demand found) := by
  cases found with
  | none => exact stuck
  | some answer => exact pure answer

theorem get : Growing (MonadState.get : Exec Heap) := by
  intro heap _ _ equal
  cases equal
  exact .refl heap

theorem make {build : Heap → α × Heap} (grows : ∀ heap : Heap, heap.Grows (build heap).2) :
    Growing (Exec.make build) := by
  intro heap _ _ equal
  cases equal
  exact grows heap

end Growing

end Exec

open Exec

/-! ## Zeros -/

theorem grows_makeRepeated
    {make : Heap → Datum × Heap}
    (grows : ∀ heap : Heap, heap.Grows (make heap).2)
    (count : Nat)
    (heap : Heap) :
    heap.Grows (makeRepeated make count heap).2 := by
  induction count generalizing heap with
  | zero => exact .refl heap
  | succ count induction => exact (grows heap).trans (induction (make heap).2)

mutual

theorem grows_zero (type : Ty) (heap : Heap) : heap.Grows (zero type heap).2 := by
  cases type with
  | scalar handle scalar => exact .refl heap
  | vector handle size scalar element => exact grows_makeRepeated (grows_zero element) size heap
  | matrix handle columns scalar column =>
      exact grows_makeRepeated (grows_zero column) columns heap
  | array handle element count => exact grows_makeRepeated (grows_zero element) count heap
  | record handle members => exact grows_zeroAll members heap
  | resource handle kind element => exact .refl heap
  | rayQuery handle anyHit => exact .newRayQuery heap {}

theorem grows_zeroAll (types : List Ty) (heap : Heap) : heap.Grows (zeroAll types heap).2 := by
  cases types with
  | nil => exact .refl heap
  | cons type rest =>
      exact (grows_zero type heap).trans (grows_zeroAll rest (zero type heap).2)

end

theorem growing_zeroOf (type : Option Ty) : Growing (Scene.zeroOf type) :=
  .bind (.demand type) fun type => .make (grows_zero type)

/-! ## Arithmetic -/

theorem growing_toInteger (datum : Datum) : Growing (toInteger datum) := by
  cases datum with
  | bool truth => exact .pure _
  | int number => exact .pure _
  | uint number => exact .pure _
  | float number => exact .pure _
  | _ => exact .bind .get fun _ => .fail _

mutual

theorem growing_mapScalars
    {apply : Datum → Exec Datum}
    (grows : ∀ datum, Growing (apply datum))
    (datum : Datum) :
    Growing (mapScalars apply datum) := by
  cases datum with
  | aggregate elements =>
      unfold mapScalars
      exact .bind (growing_mapScalarsAll grows elements) fun _ => .pure _
  | _ =>
      unfold mapScalars
      exact grows _

theorem growing_mapScalarsAll
    {apply : Datum → Exec Datum}
    (grows : ∀ datum, Growing (apply datum))
    (data : List Datum) :
    Growing (mapScalarsAll apply data) := by
  cases data with
  | nil =>
      unfold mapScalarsAll
      exact .pure _
  | cons first rest =>
      unfold mapScalarsAll
      exact .bind (growing_mapScalars grows first) fun _ =>
        .bind (growing_mapScalarsAll grows rest) fun _ => .pure _

end

mutual

theorem growing_zipScalars
    {apply : Datum → Datum → Exec Datum}
    (grows : ∀ left right, Growing (apply left right))
    (left right : Datum) :
    Growing (zipScalars apply left right) := by
  cases left with
  | aggregate lefts =>
      cases right with
      | aggregate rights =>
          unfold zipScalars
          exact .bind (growing_zipScalarsAll grows lefts rights) fun _ => .pure _
      | _ =>
          unfold zipScalars
          exact .bind (growing_mapScalarsAll (fun left => grows left _) lefts) fun _ => .pure _
  | _ =>
      unfold zipScalars
      exact growing_mapScalars (grows _) right

theorem growing_zipScalarsAll
    {apply : Datum → Datum → Exec Datum}
    (grows : ∀ left right, Growing (apply left right))
    (lefts rights : List Datum) :
    Growing (zipScalarsAll apply lefts rights) := by
  cases lefts with
  | nil =>
      unfold zipScalarsAll
      exact .pure _
  | cons left lefts =>
      cases rights with
      | nil =>
          unfold zipScalarsAll
          exact .stuck
      | cons right rights =>
          unfold zipScalarsAll
          exact .bind (growing_zipScalars grows left right) fun _ =>
            .bind (growing_zipScalarsAll grows lefts rights) fun _ => .pure _

end

theorem growing_unaryScalar (program : Store) (op : ArithmeticOp) (datum : Datum) :
    Growing (unaryScalar program op datum) := by
  unfold unaryScalar
  cases unary? op datum with
  | none => exact .fail _
  | some result => exact .pure _

theorem growing_orFail {cause : Unsupported} (result : Option Datum) :
    Growing
      (match result with
        | some result => Pure.pure result
        | none => Exec.fail cause : Exec Datum) := by
  cases result with
  | none => exact .fail _
  | some result => exact .pure _

theorem growing_binaryScalar (program : Store) (op : ArithmeticOp) (left right : Datum) :
    Growing (binaryScalar program op left right) := by
  unfold binaryScalar
  dsimp only
  split
  · exact growing_orFail _
  · split
    · exact .pure _
    · exact growing_orFail _
  · split
    · exact .pure _
    · exact growing_orFail _
  · split
    · exact .pure _
    · exact growing_orFail _
  · exact .stuck
  · exact .stuck
  · exact .stuck
  · exact .stuck
  · exact .fail _

mutual

theorem growing_select (condition left right : Datum) :
    Growing (select condition left right) := by
  cases condition with
  | bool truth =>
      unfold select
      exact .pure _
  | aggregate conditions =>
      cases left with
      | aggregate lefts =>
          cases right with
          | aggregate rights =>
              unfold select
              exact .bind (growing_selectAll conditions lefts rights) fun _ => .pure _
          | _ =>
              unfold select
              exact .stuck
      | _ =>
          unfold select
          exact .stuck
  | _ =>
      unfold select
      exact .stuck

theorem growing_selectAll (conditions lefts rights : List Datum) :
    Growing (selectAll conditions lefts rights) := by
  cases conditions with
  | nil =>
      unfold selectAll
      exact .pure _
  | cons condition conditions =>
      cases lefts with
      | nil =>
          unfold selectAll
          exact .stuck
      | cons left lefts =>
          cases rights with
          | nil =>
              unfold selectAll
              exact .stuck
          | cons right rights =>
              unfold selectAll
              exact .bind (growing_select condition left right) fun _ =>
                .bind (growing_selectAll conditions lefts rights) fun _ => .pure _

end

theorem growing_extract (datum : Datum) (indices : List Datum) :
    Growing (extract datum indices) := by
  induction indices generalizing datum with
  | nil =>
      unfold extract
      exact .pure _
  | cons index rest induction =>
      cases datum with
      | aggregate elements =>
          unfold extract
          exact .bind (growing_toInteger index) fun _ =>
            .bind (.demand _) fun element => induction element
      | _ =>
          unfold extract
          exact .stuck

theorem growing_toPath (indices : List Datum) : Growing (toPath indices) := by
  induction indices with
  | nil => exact .pure _
  | cons index rest induction =>
      exact .bind (growing_toInteger index) fun _ => .bind induction fun _ => .pure _

theorem growing_normalizeTo (type : Option Ty) (result : Datum) :
    Growing (normalizeTo type result) := by
  refine .bind (.demand type) fun type => ?_
  cases type.componentScalar? with
  | none => exact .pure _
  | some scalar => exact .pure _

theorem growing_arithmetic
    (program : Store)
    (type : Option Ty)
    (op : ArithmeticOp)
    (operands : List Datum) :
    Growing (arithmetic program type op operands) := by
  have unary (op : ArithmeticOp) (operand : Datum) :
      Growing (mapScalars (unaryScalar program op) operand >>= normalizeTo type) :=
    .bind (growing_mapScalars (growing_unaryScalar program op) operand) fun result =>
      growing_normalizeTo type result
  have binary (op : ArithmeticOp) (left right : Datum) :
      Growing (zipScalars (binaryScalar program op) left right >>= normalizeTo type) :=
    .bind (growing_zipScalars (growing_binaryScalar program op) left right) fun result =>
      growing_normalizeTo type result
  unfold arithmetic
  split
  all_goals
    first
    | exact unary _ _
    | exact .bind (growing_select _ _ _) fun result => growing_normalizeTo type result
    | exact growing_extract _ _
    | exact .bind (growing_toPath _) fun _ => .demand _
    | exact .pure _
    | exact .stuck
    | exact binary _ _ _

theorem growing_convert (scalar : Scalar) (datum : Datum) : Growing (convert scalar datum) := by
  unfold convert
  split
  all_goals
    first
    | exact .pure _
    | exact .bind (growing_toInteger _) fun _ => .pure _

theorem growing_toBits (source : Option Scalar) (datum : Datum) :
    Growing (toBits source datum) := by
  unfold toBits
  split
  · split
    · exact .pure _
    · exact .pure _
  · exact .bind (growing_toInteger _) fun _ => .pure _

theorem growing_cast (type : Option Ty) (op : CastOp) (source : Option Ty) (datum : Datum) :
    Growing (cast type op source datum) := by
  refine .bind (.demand type) fun type => ?_
  cases type.componentScalar? with
  | none => exact .fail _
  | some scalar =>
      cases op with
      | static => exact growing_mapScalars (growing_convert scalar) datum
      | bitwise =>
          refine .bind (.demand source) fun source => growing_mapScalars (fun element => ?_) datum
          exact .bind (growing_toBits _ element) fun _ => .pure _

/-! ## Instructions -/

namespace Scene

theorem growing_eval (scene : Scene) (ref : Ref) : Growing (scene.eval ref) := by
  refine .bind (.demand _) fun value => ?_
  split
  · exact .demand _
  · exact growing_zeroOf _
  · split
    · exact .pure _
    · exact growing_zeroOf _
  · exact .pure _
  · exact .pure _
  · split
    · exact .pure _
    · exact .fail _

theorem growing_evalPresent (scene : Scene) (operand : Option Ref) :
    Growing (scene.evalPresent operand) :=
  .bind (.demand operand) fun ref => scene.growing_eval ref

theorem growing_evalAll (scene : Scene) (operands : List (Option Ref)) :
    Growing (scene.evalAll operands) := by
  induction operands with
  | nil => exact .pure _
  | cons operand rest induction =>
      cases operand with
      | none => exact .bind induction fun _ => .pure _
      | some ref => exact .bind (scene.growing_eval ref) fun _ => .bind induction fun _ => .pure _

theorem growing_evalAt (scene : Scene) (instruction : Instruction) (position : Nat) :
    Growing (scene.evalAt instruction position) :=
  .bind (.demand _) fun operand => scene.growing_evalPresent operand

theorem growing_path (scene : Scene) (indices : List (Option Ref)) :
    Growing (scene.path indices) := by
  induction indices with
  | nil => exact .pure _
  | cons index rest induction =>
      exact .bind (scene.growing_evalPresent index) fun datum =>
        .bind (growing_toInteger datum) fun _ => .bind induction fun _ => .pure _

theorem growing_reference (scene : Scene) (operand : Option Ref) :
    Growing (scene.reference operand) := by
  refine .bind (scene.growing_evalPresent operand) fun datum => ?_
  split
  · exact .pure _
  · exact .fail _

theorem growing_load (place : Nat × List Int) : Growing (load place) :=
  .bind .get fun _ => .demand _

theorem growing_buffer (scene : Scene) (operand : Option Ref) :
    Growing (scene.buffer operand) := by
  refine .bind (scene.growing_evalPresent operand) fun datum => ?_
  split
  · exact .bind .get fun _ => .bind (.demand _) fun _ => .pure _
  · exact .fail _

theorem growing_rayQueryRead
    (scene : Scene)
    (type : Option Ty)
    (op : RayQueryReadOp)
    (instruction : Instruction) :
    Growing (scene.rayQueryRead type op instruction) := by
  refine .bind (.demand _) fun operand => .bind ?_ fun address => .bind ?_ fun query => ?_
  · refine .bind (scene.growing_reference operand) fun place => .bind (growing_load place) ?_
    intro datum
    split
    · exact .pure _
    · exact .fail _
  · exact .bind .get fun _ => .demand _
  · split
    · exact .pure _
    · exact .pure _
    · exact .pure _
    · exact growing_zeroOf _

/-- An instruction without an effect besides its result leaves the heap as it is. -/
theorem growing_execute
    (scene : Scene)
    (ref : Ref)
    (instruction : Instruction)
    (steps : Nat)
    (isPure : Pass.isPure instruction.opcode = true) :
    Growing (scene.execute ref instruction steps) := by
  unfold execute
  cases found : instruction.opcode with
  | phi blocks => exact .fail _
  | alloca space =>
      exact .bind (growing_zeroOf _) fun content =>
        .bind (.make fun heap => .newVariable heap content) fun _ => .pure _
  | load =>
      exact .bind (.demand _) fun operand =>
        .bind (scene.growing_reference operand) fun place =>
          .bind (growing_load place) fun _ => .pure _
  | gep =>
      exact .bind (.demand _) fun base =>
        .bind (scene.growing_path _) fun path =>
          .bind (scene.growing_reference base) fun place =>
            .bind (.make fun heap => .newReference heap place.1 (place.2 ++ path)) fun _ => .pure _
  | arithmetic op =>
      exact .bind (scene.growing_evalAll _) fun data =>
        .bind (growing_arithmetic _ _ op data) fun _ => .pure _
  | cast op =>
      exact .bind (.demand _) fun operand =>
        .bind (.demand operand) fun source =>
          .bind (scene.growing_eval source) fun datum =>
            .bind (growing_cast _ op _ datum) fun _ => .pure _
  | clock => exact .pure _
  | rayQueryRead op => exact .bind (scene.growing_rayQueryRead _ op instruction) fun _ => .pure _
  | resourceQuery op =>
      cases op with
      | bufferSize =>
          exact .bind (.demand _) fun operand =>
            .bind (scene.growing_buffer operand) fun _ => .pure _
      | _ => exact .fail _
  | resourceRead op =>
      cases op with
      | buffer =>
          exact .bind (.demand _) fun operand =>
            .bind (scene.growing_buffer operand) fun _ =>
              .bind (scene.growing_evalAt instruction 1) fun datum =>
                .bind (growing_toInteger datum) fun _ => .bind (.demand _) fun _ => .pure _
      | _ => exact .fail _
  | autodiff op =>
      cases op with
      | detach => exact .bind (scene.growing_evalAt instruction 0) fun _ => .pure _
      | gradient => exact .bind (growing_zeroOf _) fun _ => .pure _
      | _ => exact .pure _
  | _ =>
      rw [found] at isPure
      cases isPure

end Scene

end ShaderIR.Machine
