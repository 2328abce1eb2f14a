import ShaderIR.Proofs.Machine.Follows

/-!
# Arithmetic on linked data

Arithmetic looks at scalars only.  On linked operands it gives linked results,
or fails on both sides, so the second run can follow the first one through every
arithmetic operation, conversion and selection.
-/

namespace ShaderIR.Machine

open Exec

variable {link : Link}

theorem follows_toInteger {datum datum' : Datum} (linked : Linked link datum datum') :
    Follows Same link (toInteger datum) (toInteger datum') := by
  cases linked with
  | bool truth => exact Follows.pure rfl
  | int number => exact Follows.pure rfl
  | uint number => exact Follows.pure rfl
  | float number => exact Follows.pure rfl
  | _ =>
      refine Follows.of_not_ok fun heap answer left run => ?_
      rcases outcome_bind_eq_ok.1 run with ⟨_, _, _, rest⟩
      cases rest

/-! ## Bringing results to a width -/

mutual

theorem Linked.normalize
    (scalar : Scalar)
    {datum datum' : Datum}
    (linked : Linked link datum datum') :
    Linked link (Machine.normalize scalar datum) (Machine.normalize scalar datum') := by
  cases linked with
  | absent =>
      unfold Machine.normalize
      exact .absent
  | bool truth =>
      unfold Machine.normalize
      exact .bool truth
  | int number =>
      unfold Machine.normalize
      exact .int _
  | uint number =>
      unfold Machine.normalize
      exact .uint _
  | float number =>
      unfold Machine.normalize
      exact .float _
  | aggregate elements =>
      unfold Machine.normalize
      exact .aggregate (AllLinked.normalizeAll scalar elements)
  | reference cells references places =>
      unfold Machine.normalize
      exact .reference cells references places
  | buffer address =>
      unfold Machine.normalize
      exact .buffer address
  | rayQuery queries =>
      unfold Machine.normalize
      exact .rayQuery queries
  | entity ref =>
      unfold Machine.normalize
      exact .entity ref

theorem AllLinked.normalizeAll
    (scalar : Scalar)
    {data data' : List Datum}
    (linked : AllLinked link data data') :
    AllLinked link (Machine.normalizeAll scalar data) (Machine.normalizeAll scalar data') := by
  cases linked with
  | nil =>
      unfold Machine.normalizeAll
      exact .nil
  | cons first rest =>
      unfold Machine.normalizeAll
      exact .cons (Linked.normalize scalar first) (AllLinked.normalizeAll scalar rest)

end

theorem follows_normalizeTo
    (type : Option Ty)
    {datum datum' : Datum}
    (linked : Linked link datum datum') :
    Follows Linked link (normalizeTo type datum) (normalizeTo type datum') := by
  refine Follows.bind (Follows.demandSame type) fun larger type _ grows same => ?_
  cases same
  cases type.componentScalar? with
  | none => exact Follows.pure (linked.mono grows)
  | some scalar => exact Follows.pure ((linked.mono grows).normalize scalar)

/-! ## Element by element -/

/-- Two scalar operations follow each other from a link on. -/
def OperationsFollow (link : Link) (apply apply' : Datum → Exec Datum) : Prop :=
  ∀ larger, link ≤ larger → ∀ datum datum', Linked larger datum datum' →
    Follows Linked larger (apply datum) (apply' datum')

theorem OperationsFollow.mono
    {larger : Link}
    {apply apply' : Datum → Exec Datum}
    (follow : OperationsFollow link apply apply')
    (grows : link ≤ larger) :
    OperationsFollow larger apply apply' :=
  fun largest grows' => follow largest (le_trans grows grows')

mutual

theorem follows_mapScalars {apply apply' : Datum → Exec Datum} (datum : Datum) :
    ∀ {link : Link} {datum' : Datum}, OperationsFollow link apply apply' →
      Linked link datum datum' →
        Follows Linked link (mapScalars apply datum) (mapScalars apply' datum') := by
  intro link datum' follow linked
  have direct := follow link (le_refl link) datum datum' linked
  cases linked with
  | aggregate elements =>
      unfold mapScalars
      refine Follows.bind (follows_mapScalarsAll _ follow elements) ?_
      intro larger results results' _ linked
      exact Follows.pure (.aggregate linked)
  | _ =>
      unfold mapScalars
      exact direct

theorem follows_mapScalarsAll {apply apply' : Datum → Exec Datum} (data : List Datum) :
    ∀ {link : Link} {data' : List Datum}, OperationsFollow link apply apply' →
      AllLinked link data data' →
        Follows AllLinked link (mapScalarsAll apply data) (mapScalarsAll apply' data') := by
  intro link data' follow linked
  cases linked with
  | nil =>
      unfold mapScalarsAll
      exact Follows.pure .nil
  | cons first rest =>
      unfold mapScalarsAll
      refine Follows.bind (follows_mapScalars _ follow first) ?_
      intro middle result result' grows linkedResult
      refine Follows.bind
        (follows_mapScalarsAll _ (follow.mono grows) (AllLinked.mono grows rest)) ?_
      intro larger results results' grows' linkedResults
      exact Follows.pure (.cons (linkedResult.mono grows') linkedResults)

end

/-- Two binary scalar operations follow each other from a link on. -/
def PairsFollow (link : Link) (apply apply' : Datum → Datum → Exec Datum) : Prop :=
  ∀ larger, link ≤ larger → ∀ first first' second second', Linked larger first first' →
    Linked larger second second' →
      Follows Linked larger (apply first second) (apply' first' second')

theorem PairsFollow.mono
    {larger : Link}
    {apply apply' : Datum → Datum → Exec Datum}
    (follow : PairsFollow link apply apply')
    (grows : link ≤ larger) :
    PairsFollow larger apply apply' :=
  fun largest grows' => follow largest (le_trans grows grows')

mutual

theorem follows_zipScalars {apply apply' : Datum → Datum → Exec Datum} (left : Datum) :
    ∀ {link : Link} {right left' right' : Datum}, PairsFollow link apply apply' →
      Linked link left left' → Linked link right right' →
        Follows Linked link (zipScalars apply left right) (zipScalars apply' left' right') := by
  intro link right left' right' follow linkedLeft linkedRight
  have leftOnly : OperationsFollow link (apply left) (apply' left') :=
    fun larger grows _ _ linked => follow larger grows _ _ _ _ (linkedLeft.mono grows) linked
  have rightOnly : OperationsFollow link (apply · right) (apply' · right') :=
    fun larger grows _ _ linked => follow larger grows _ _ _ _ linked (linkedRight.mono grows)
  have spread := follows_mapScalars right leftOnly linkedRight
  cases linkedLeft with
  | aggregate lefts =>
      have gathered := follows_mapScalarsAll _ rightOnly lefts
      cases linkedRight with
      | aggregate rights =>
          unfold zipScalars
          refine Follows.bind (follows_zipScalarsAll _ follow lefts rights) ?_
          intro larger results results' _ linked
          exact Follows.pure (.aggregate linked)
      | _ =>
          unfold zipScalars
          refine Follows.bind gathered ?_
          intro larger results results' _ linked
          exact Follows.pure (.aggregate linked)
  | _ =>
      unfold zipScalars
      exact spread

theorem follows_zipScalarsAll {apply apply' : Datum → Datum → Exec Datum} (lefts : List Datum) :
    ∀ {link : Link} {rights lefts' rights' : List Datum}, PairsFollow link apply apply' →
      AllLinked link lefts lefts' → AllLinked link rights rights' →
        Follows AllLinked link (zipScalarsAll apply lefts rights)
          (zipScalarsAll apply' lefts' rights') := by
  intro link rights lefts' rights' follow linkedLefts linkedRights
  cases linkedLefts with
  | nil =>
      unfold zipScalarsAll
      exact Follows.pure .nil
  | cons firstLeft restLefts =>
      cases linkedRights with
      | nil =>
          unfold zipScalarsAll
          exact Follows.stuck
      | cons firstRight restRights =>
          unfold zipScalarsAll
          refine Follows.bind (follows_zipScalars _ follow firstLeft firstRight) ?_
          intro middle result result' grows linkedResult
          refine Follows.bind (follows_zipScalarsAll _ (follow.mono grows)
            (AllLinked.mono grows restLefts) (AllLinked.mono grows restRights)) ?_
          intro larger results results' grows' linkedResults
          exact Follows.pure (.cons (linkedResult.mono grows') linkedResults)

end

/-! ## Scalar operations -/

/-- Scalars have a single linked partner, themselves, so their results are the same. -/
theorem unary?_linked
    {op : ArithmeticOp}
    {datum datum' result : Datum}
    (linked : Linked link datum datum')
    (found : unary? op datum = some result) :
    unary? op datum' = some result ∧ Linked link result result := by
  unfold unary? at found
  split at found <;> cases found <;> cases linked <;>
    first
    | exact ⟨rfl, .bool _⟩
    | exact ⟨rfl, .int _⟩
    | exact ⟨rfl, .uint _⟩
    | exact ⟨rfl, .float _⟩

theorem follows_unaryScalar
    (program program' : Store)
    (op : ArithmeticOp)
    {datum datum' : Datum}
    (linked : Linked link datum datum') :
    Follows Linked link (unaryScalar program op datum) (unaryScalar program' op datum') := by
  unfold unaryScalar
  cases found : unary? op datum with
  | none => exact Follows.fail
  | some result =>
      have same := unary?_linked linked found
      rw [same.1]
      exact Follows.pure same.2

theorem follows_binaryScalar
    (program program' : Store)
    (op : ArithmeticOp)
    {left left' right right' : Datum}
    (linkedLeft : Linked link left left')
    (linkedRight : Linked link right right') :
    Follows Linked link (binaryScalar program op left right)
      (binaryScalar program' op left' right') := by
  cases linkedLeft with
  | bool truth =>
      cases linkedRight with
      | bool truth' =>
          unfold binaryScalar
          dsimp only
          cases boolOp? op truth truth' with
          | none => exact Follows.fail
          | some result => exact Follows.pure (.bool result)
      | _ => exact Follows.stuck
  | int number =>
      cases linkedRight with
      | int number' =>
          unfold binaryScalar
          dsimp only
          cases comparison? op with
          | some test => exact Follows.pure (.bool _)
          | none =>
              cases intOp? op number number' with
              | none => exact Follows.fail
              | some result => exact Follows.pure (.int result)
      | _ => exact Follows.stuck
  | uint number =>
      cases linkedRight with
      | uint number' =>
          unfold binaryScalar
          dsimp only
          cases comparison? op with
          | some test => exact Follows.pure (.bool _)
          | none =>
              cases uintOp? op number number' with
              | none => exact Follows.fail
              | some result => exact Follows.pure (.uint result)
      | _ => exact Follows.stuck
  | float number =>
      cases linkedRight with
      | float number' =>
          unfold binaryScalar
          dsimp only
          cases comparison? op with
          | some test => exact Follows.pure (.bool _)
          | none =>
              cases floatOp? op number number' with
              | none => exact Follows.fail
              | some result => exact Follows.pure (.float result)
      | _ => exact Follows.stuck
  | _ => exact Follows.fail

/-! ## Operations -/

mutual

theorem follows_select (condition : Datum) :
    ∀ {link : Link} {condition' left left' right right' : Datum},
      Linked link condition condition' → Linked link left left' → Linked link right right' →
        Follows Linked link (select condition left right) (select condition' left' right') := by
  intro link condition' left left' right right' linked linkedLeft linkedRight
  cases linked with
  | bool truth =>
      unfold select
      cases truth with
      | true => exact Follows.pure linkedLeft
      | false => exact Follows.pure linkedRight
  | aggregate conditions =>
      cases linkedLeft with
      | aggregate lefts =>
          cases linkedRight with
          | aggregate rights =>
              unfold select
              refine Follows.bind (follows_selectAll _ conditions lefts rights) ?_
              intro larger results results' _ linked
              exact Follows.pure (.aggregate linked)
          | _ =>
              unfold select
              exact Follows.stuck
      | _ =>
          unfold select
          exact Follows.stuck
  | _ =>
      unfold select
      exact Follows.stuck

theorem follows_selectAll (conditions : List Datum) :
    ∀ {link : Link} {conditions' lefts lefts' rights rights' : List Datum},
      AllLinked link conditions conditions' → AllLinked link lefts lefts' →
        AllLinked link rights rights' →
          Follows AllLinked link (selectAll conditions lefts rights)
            (selectAll conditions' lefts' rights') := by
  intro link conditions' lefts lefts' rights rights' linked linkedLefts linkedRights
  cases linked with
  | nil =>
      unfold selectAll
      exact Follows.pure .nil
  | cons first rest =>
      cases linkedLefts with
      | nil =>
          unfold selectAll
          exact Follows.stuck
      | cons firstLeft restLefts =>
          cases linkedRights with
          | nil =>
              unfold selectAll
              exact Follows.stuck
          | cons firstRight restRights =>
              unfold selectAll
              refine Follows.bind (follows_select _ first firstLeft firstRight) ?_
              intro middle result result' grows linkedResult
              refine Follows.bind (follows_selectAll _ (AllLinked.mono grows rest)
                (AllLinked.mono grows restLefts) (AllLinked.mono grows restRights)) ?_
              intro larger results results' grows' linkedResults
              exact Follows.pure (.cons (linkedResult.mono grows') linkedResults)

end

theorem follows_extract (indices : List Datum) :
    ∀ {link : Link} {datum datum' : Datum} {indices' : List Datum},
      Linked link datum datum' → AllLinked link indices indices' →
        Follows Linked link (extract datum indices) (extract datum' indices') := by
  induction indices with
  | nil =>
      intro link datum datum' indices' linked linkedIndices
      cases linkedIndices
      unfold extract
      exact Follows.pure linked
  | cons index rest induction =>
      intro link datum datum' indices' linked linkedIndices
      cases linkedIndices with
      | cons linkedIndex linkedRest =>
          cases linked with
          | aggregate elements =>
              unfold extract
              refine Follows.bind (follows_toInteger linkedIndex) ?_
              intro middle position _ grows same
              cases same
              refine Follows.bind (Follows.demand fun element found =>
                AllLinked.elementAt? (AllLinked.mono grows elements) found) ?_
              intro larger element element' grows' linkedElement
              exact induction linkedElement
                (AllLinked.mono (le_trans grows grows') linkedRest)
          | _ =>
              unfold extract
              exact Follows.stuck

theorem follows_toPath (indices : List Datum) :
    ∀ {link : Link} {indices' : List Datum}, AllLinked link indices indices' →
      Follows Same link (toPath indices) (toPath indices') := by
  induction indices with
  | nil =>
      intro link indices' linked
      cases linked
      exact Follows.pure rfl
  | cons index rest induction =>
      intro link indices' linked
      cases linked with
      | cons linkedIndex linkedRest =>
          refine Follows.bind (follows_toInteger linkedIndex) ?_
          intro middle position _ grows same
          cases same
          refine Follows.bind (induction (AllLinked.mono grows linkedRest)) ?_
          intro larger path _ _ same
          cases same
          exact Follows.pure rfl

theorem follows_unary
    (program program' : Store)
    (type : Option Ty)
    (op : ArithmeticOp)
    {datum datum' : Datum}
    (linked : Linked link datum datum') :
    Follows Linked link
      (mapScalars (unaryScalar program op) datum >>= normalizeTo type)
      (mapScalars (unaryScalar program' op) datum' >>= normalizeTo type) := by
  have operations : OperationsFollow link (unaryScalar program op) (unaryScalar program' op) :=
    fun _ _ _ _ linked => follows_unaryScalar program program' op linked
  refine Follows.bind (follows_mapScalars datum operations linked) ?_
  intro larger result result' _ linkedResult
  exact follows_normalizeTo type linkedResult

theorem follows_binary
    (program program' : Store)
    (type : Option Ty)
    (op : ArithmeticOp)
    {left left' right right' : Datum}
    (linkedLeft : Linked link left left')
    (linkedRight : Linked link right right') :
    Follows Linked link
      (zipScalars (binaryScalar program op) left right >>= normalizeTo type)
      (zipScalars (binaryScalar program' op) left' right' >>= normalizeTo type) := by
  have pairs : PairsFollow link (binaryScalar program op) (binaryScalar program' op) :=
    fun _ _ _ _ _ _ first second => follows_binaryScalar program program' op first second
  refine Follows.bind (follows_zipScalars left pairs linkedLeft linkedRight) ?_
  intro larger result result' _ linkedResult
  exact follows_normalizeTo type linkedResult

theorem follows_insert
    (datum element : Datum)
    (indices : List Datum)
    {datum' element' : Datum}
    {indices' : List Datum}
    (linked : Linked link datum datum')
    (linkedElement : Linked link element element')
    (linkedIndices : AllLinked link indices indices') :
    Follows Linked link
      (toPath indices >>= fun path => Exec.demand (datum.write? path element))
      (toPath indices' >>= fun path => Exec.demand (datum'.write? path element')) := by
  refine Follows.bind (follows_toPath indices linkedIndices) ?_
  intro larger path _ grows same
  cases same
  exact Follows.demand fun written found =>
    Linked.write? (linked.mono grows) (linkedElement.mono grows) found

theorem follows_arithmetic
    (program program' : Store)
    (type : Option Ty)
    (op : ArithmeticOp)
    {operands operands' : List Datum}
    (linked : AllLinked link operands operands') :
    Follows Linked link (arithmetic program type op operands)
      (arithmetic program' type op operands') := by
  cases linked with
  | nil =>
      cases op with
      | aggregate => exact Follows.pure (.aggregate .nil)
      | _ => exact Follows.stuck
  | cons first rest =>
      cases rest with
      | nil =>
          cases op with
          | aggregate => exact Follows.pure (.aggregate (.cons first .nil))
          | extract => exact follows_extract [] first .nil
          | _ =>
              first
              | exact follows_unary program program' type _ first
              | exact Follows.stuck
      | cons second rest =>
          cases op with
          | aggregate => exact Follows.pure (.aggregate (.cons first (.cons second rest)))
          | extract => exact follows_extract _ first (.cons second rest)
          | insert => exact follows_insert _ _ _ first second rest
          | select =>
              cases rest with
              | nil => exact Follows.stuck
              | cons third rest =>
                  refine Follows.bind (follows_select _ first second third) ?_
                  intro larger result result' _ linkedResult
                  exact follows_normalizeTo type linkedResult
          | _ =>
              first
              | exact follows_unary program program' type _ first
              | exact follows_binary program program' type _ first second

/-! ## Conversions -/

/-- A number read off both data gives linked results when it is wrapped alike. -/
theorem follows_wrapped
    (wrap : Int64 → Datum)
    {datum datum' : Datum}
    (plain : ∀ larger number, Linked larger (wrap number) (wrap number))
    (linked : Linked link datum datum') :
    Follows Linked link (toInteger datum >>= fun number => pure (wrap number))
      (toInteger datum' >>= fun number => pure (wrap number)) := by
  refine Follows.bind (follows_toInteger linked) ?_
  intro larger number _ _ same
  cases same
  exact Follows.pure (plain larger number)

theorem follows_convert
    (scalar : Scalar)
    {datum datum' : Datum}
    (linked : Linked link datum datum') :
    Follows Linked link (convert scalar datum) (convert scalar datum') := by
  have toTruth := follows_wrapped (fun number => .bool (number != 0))
    (fun _ _ => .bool _) linked
  have toFloat := follows_wrapped
    (fun number => normalize scalar (.float number.toFloat))
    (fun _ _ => Linked.normalize scalar (.float _)) linked
  have toInt := follows_wrapped (fun number => normalize scalar (.int number))
    (fun _ _ => Linked.normalize scalar (.int _)) linked
  have toUInt := follows_wrapped (fun number => normalize scalar (.uint number.toUInt64))
    (fun _ _ => Linked.normalize scalar (.uint _)) linked
  unfold convert
  cases scalar.kind with
  | bool =>
      cases linked with
      | bool truth => exact Follows.pure (.bool _)
      | float number => exact Follows.pure (.bool _)
      | _ => exact toTruth
  | float =>
      cases linked with
      | float number => exact Follows.pure (Linked.normalize scalar (.float _))
      | uint number => exact Follows.pure (Linked.normalize scalar (.float _))
      | _ => exact toFloat
  | sint => exact toInt
  | uint =>
      cases linked with
      | float number => exact Follows.pure (Linked.normalize scalar (.uint _))
      | _ => exact toUInt

theorem linked_ofBits (scalar : Scalar) (bits : UInt64) :
    Linked link (ofBits scalar bits) (ofBits scalar bits) := by
  unfold ofBits
  cases scalar.kind with
  | bool => exact .bool _
  | sint => exact Linked.normalize scalar (.int _)
  | uint => exact Linked.normalize scalar (.uint _)
  | float =>
      dsimp only
      split
      · exact .float _
      · exact .float _

theorem follows_toBits
    (source : Option Scalar)
    {datum datum' : Datum}
    (linked : Linked link datum datum') :
    Follows Same link (toBits source datum) (toBits source datum') := by
  have integer : Follows Same link (toInteger datum >>= fun number => pure number.toUInt64)
      (toInteger datum' >>= fun number => pure number.toUInt64) := by
    refine Follows.bind (follows_toInteger linked) ?_
    intro larger number _ _ same
    cases same
    exact Follows.pure rfl
  cases linked with
  | float number =>
      unfold toBits
      dsimp only
      split
      · exact Follows.pure rfl
      · exact Follows.pure rfl
  | _ => exact integer

theorem follows_cast
    (type : Option Ty)
    (op : CastOp)
    (source : Option Ty)
    {datum datum' : Datum}
    (linked : Linked link datum datum') :
    Follows Linked link (cast type op source datum) (cast type op source datum') := by
  refine Follows.bind (Follows.demandSame type) ?_
  intro middle type _ grows same
  cases same
  cases type.componentScalar? with
  | none => exact Follows.fail
  | some scalar =>
      cases op with
      | static =>
          have operations : OperationsFollow middle (convert scalar) (convert scalar) :=
            fun _ _ _ _ linked => follows_convert scalar linked
          exact follows_mapScalars datum operations (linked.mono grows)
      | bitwise =>
          refine Follows.bind (Follows.demandSame source) ?_
          intro larger source _ grows' same
          cases same
          refine follows_mapScalars datum ?_ (linked.mono (le_trans grows grows'))
          intro largest _ element element' linkedElement
          refine Follows.bind (follows_toBits source.componentScalar? linkedElement) ?_
          intro last bits _ _ same
          cases same
          exact Follows.pure (linked_ofBits scalar bits)

end ShaderIR.Machine
