import ShaderIR.Proofs.Machine.Arithmetic

/-!
# Instructions in linked surroundings

Two programs run side by side may give an instruction different operands, as
long as these operands agree: they name the same block or function, or their
data are linked whenever the first one has a datum.  Then the second run follows
the first one through the instruction.
-/

namespace ShaderIR.Machine

open Exec

/-- Two operands that the second run may confuse. -/
structure Agrees (link : Link) (scene scene' : Scene) (operand operand' : Option Ref) :
    Prop where
  eval : ∀ larger, link ≤ larger →
    Follows Linked larger (scene.evalPresent operand) (scene'.evalPresent operand')
  present : operand'.isSome = operand.isSome
  block : scene'.program.asBlock operand' = scene.program.asBlock operand
  function : scene'.program.asFunction operand' = scene.program.asFunction operand
  type : scene'.program.typeOfOption operand' = scene.program.typeOfOption operand

/-- An instruction compares what it finds with a reference. -/
def Scene.ComparesReference (scene : Scene) (instruction : Instruction) : Prop :=
  instruction.opcode = .atomic .compareExchange ∧
    ∃ operand ∈ (instruction.values.drop (instruction.values.length - 2)).head?,
      ∃ heap left serial cell path,
        outcome (scene.evalPresent operand) heap = (.ok (.reference serial cell path), left)

/--
Two instructions that differ in their merge blocks and in operands that agree.  Where they
compare what they find with a reference, the link has to tell references apart.
-/
structure Resembles (link : Link) (scene scene' : Scene) (instruction instruction' : Instruction) :
    Prop where
  opcode : instruction'.opcode.withMerge none = instruction.opcode.withMerge none
  operands : List.Forall₂ (Agrees link scene scene') instruction.values instruction'.values
  compares : scene.ComparesReference instruction → link.exact

variable {link larger : Link} {scene scene' : Scene} {operand operand' : Option Ref}
  {instruction instruction' : Instruction}

theorem Agrees.mono (agrees : Agrees link scene scene' operand operand') (grows : link ≤ larger) :
    Agrees larger scene scene' operand operand' where
  eval := fun largest grows' => agrees.eval largest (le_trans grows grows')
  present := agrees.present
  block := agrees.block
  function := agrees.function
  type := agrees.type

/-! ## Operands -/

theorem follows_evalAll
    {operands operands' : List (Option Ref)}
    (agree : List.Forall₂ (Agrees link scene scene') operands operands') :
    ∀ larger, link ≤ larger →
      Follows AllLinked larger (scene.evalAll operands) (scene'.evalAll operands') := by
  induction agree with
  | nil =>
      intro larger _
      exact Follows.pure .nil
  | @cons operand operand' rest rest' first _ induction =>
      intro larger grows
      have evaluated := first.eval larger grows
      have present := first.present
      cases operand with
      | none =>
          cases operand' with
          | some ref' => simp at present
          | none =>
              refine Follows.bind (induction larger grows) ?_
              intro last data data' _ linked
              exact Follows.pure (.cons .absent linked)
      | some ref =>
          cases operand' with
          | none => simp at present
          | some ref' =>
              refine Follows.bind evaluated ?_
              intro middle datum datum' grows' linked
              refine Follows.bind (induction middle (le_trans grows grows')) ?_
              intro last data data' grows'' linkedData
              exact Follows.pure (.cons (linked.mono grows'') linkedData)

theorem Resembles.operand?
    (resembles : Resembles link scene scene' instruction instruction')
    {position : Nat}
    {operand : Option Ref}
    (found : instruction.operand? position = some operand) :
    ∃ operand', instruction'.operand? position = some operand' ∧
      Agrees link scene scene' operand operand' := by
  have found : instruction.values[position]? = some operand := by
    rw [Instruction.values, List.getElem?_map]
    exact found
  rcases forall₂_getElem? resembles.operands found with ⟨operand', found', agrees⟩
  rw [Instruction.values, List.getElem?_map] at found'
  exact ⟨operand', found', agrees⟩

/-- Operands at positions neither instruction has agree as well: both are missing. -/
theorem Resembles.operand?_none
    (resembles : Resembles link scene scene' instruction instruction')
    {position : Nat}
    (missing : instruction.operand? position = none) :
    instruction'.operand? position = none := by
  have lengths := resembles.operands.length_eq
  simp only [Instruction.operand?, Option.map_eq_none_iff, List.getElem?_eq_none_iff,
    Instruction.values, List.length_map] at missing lengths ⊢
  omega

theorem Resembles.follows_operand
    (resembles : Resembles link scene scene' instruction instruction')
    (position : Nat) :
    Follows (fun _ => Agrees link scene scene') larger
      (Scene.operand instruction position) (Scene.operand instruction' position) :=
  Follows.demand fun _ found => resembles.operand? found

theorem Resembles.evalAt
    (resembles : Resembles link scene scene' instruction instruction')
    (position : Nat)
    (grows : link ≤ larger) :
    Follows Linked larger (scene.evalAt instruction position)
      (scene'.evalAt instruction' position) := by
  refine Follows.bind (resembles.follows_operand position) ?_
  intro last operand operand' grows' agrees
  exact agrees.eval last (le_trans grows grows')

theorem follows_path
    {indices indices' : List (Option Ref)}
    (agree : List.Forall₂ (Agrees link scene scene') indices indices') :
    ∀ larger, link ≤ larger →
      Follows Same larger (scene.path indices) (scene'.path indices') := by
  induction agree with
  | nil =>
      intro larger _
      exact Follows.pure rfl
  | cons first _ induction =>
      intro larger grows
      refine Follows.bind (first.eval larger grows) ?_
      intro middle datum datum' grows' linked
      refine Follows.bind (follows_toInteger linked) ?_
      intro last position _ grows'' same
      cases same
      refine Follows.bind (induction last (le_trans grows (le_trans grows' grows''))) ?_
      intro largest path _ _ same
      cases same
      exact Follows.pure rfl

/-! ## Places -/

/-- Two places that stand for each other. -/
def Link.Places (link : Link) (place place' : Nat × List Int) : Prop :=
  link.cells place.1 place'.1 ∧ place.2 = place'.2

theorem Link.Places.mono
    {place place' : Nat × List Int}
    (places : link.Places place place')
    (grows : link ≤ larger) :
    larger.Places place place' :=
  ⟨grows.1.cells places.1, places.2⟩

theorem Agrees.reference (agrees : Agrees link scene scene' operand operand') :
    Follows Link.Places link (scene.reference operand) (scene'.reference operand') := by
  refine Follows.bind (agrees.eval link (le_refl link)) ?_
  intro larger datum datum' _ linked
  cases linked with
  | reference cells references places => exact Follows.pure ⟨cells, rfl⟩
  | _ => exact Follows.fail

theorem follows_load {place place' : Nat × List Int} (places : link.Places place place') :
    Follows Linked link (Scene.load place) (Scene.load place') := by
  intro heap heap' heaps content left run
  rcases outcome_bind_eq_ok.1 run with ⟨_, _, equal, rest⟩
  cases equal
  rcases outcome_demand_eq_ok.1 rest with ⟨found, rfl⟩
  rcases heaps.load? places.1 found with ⟨content', found', linked⟩
  refine ⟨link, content', heap', le_refl link, ?_, heaps, linked⟩
  refine outcome_bind_eq_ok.2 ⟨heap', heap', rfl, ?_⟩
  rw [outcome_demand, ← places.2, found']

theorem follows_store
    {place place' : Nat × List Int}
    {new new' : Datum}
    (places : link.Places place place')
    (linked : Linked link new new') :
    Follows Same link (Scene.store place new) (Scene.store place' new') := by
  intro heap heap' heaps answer left run
  rcases outcome_bind_eq_ok.1 run with ⟨_, _, equal, rest⟩
  cases equal
  rcases outcome_bind_eq_ok.1 rest with ⟨stored, between, demanded, equal⟩
  cases equal
  rcases outcome_demand_eq_ok.1 demanded with ⟨found, rfl⟩
  rcases heaps.store? places.1 linked found with ⟨left', found', heaps'⟩
  refine ⟨link, _, left', le_refl link, ?_, heaps', rfl⟩
  refine outcome_bind_eq_ok.2 ⟨heap', heap', rfl, ?_⟩
  refine outcome_bind_eq_ok.2 ⟨left', heap', ?_, rfl⟩
  rw [outcome_demand, ← places.2, found']

/-! ## Ray queries and buffers -/

theorem Agrees.rayQuery (agrees : Agrees link scene scene' operand operand') :
    Follows Link.queries link (scene.rayQuery operand) (scene'.rayQuery operand') := by
  refine Follows.bind agrees.reference ?_
  intro middle place place' _ places
  refine Follows.bind (follows_load places) ?_
  intro larger datum datum' _ linked
  cases linked with
  | rayQuery queries => exact Follows.pure queries
  | _ => exact Follows.fail

theorem follows_queryAt {address address' : Nat} (queries : link.queries address address') :
    Follows Same link (Scene.queryAt address) (Scene.queryAt address') := by
  intro heap heap' heaps query left run
  rcases heaps.query queries with ⟨state, held, held'⟩
  rcases outcome_bind_eq_ok.1 run with ⟨_, _, equal, rest⟩
  cases equal
  rw [outcome_demand, held] at rest
  cases rest
  refine ⟨link, query, heap', le_refl link, ?_, heaps, rfl⟩
  refine outcome_bind_eq_ok.2 ⟨heap', heap', rfl, ?_⟩
  rw [outcome_demand, held']

theorem follows_setQuery
    {address address' : Nat}
    (queries : link.queries address address')
    (state : RayQuery) :
    Follows Same link (Scene.setQuery address state) (Scene.setQuery address' state) := by
  intro heap heap' heaps answer left run
  cases run
  exact ⟨link, _, _, le_refl link, rfl, heaps.setQuery queries state, rfl⟩

/-- Two buffers at one address with linked elements. -/
def Link.Buffers (link : Link) (buffer buffer' : Nat × List Datum) : Prop :=
  buffer.1 = buffer'.1 ∧ AllLinked link buffer.2 buffer'.2

/-- Reading a buffer gives linked elements, and leaves the link as it is. -/
theorem follows_elements
    {α β : Type}
    {related : Link → α → β → Prop}
    (address : Nat)
    {next : List Datum → Exec α}
    {next' : List Datum → Exec β}
    (rest : ∀ elements elements', AllLinked link elements elements' →
      Follows related link (next elements) (next' elements')) :
    Follows related link
      (do
        let heap ← get
        let elements ← demand heap.buffers[address]?
        next elements)
      (do
        let heap ← get
        let elements ← demand heap.buffers[address]?
        next' elements) := by
  intro heap heap' heaps answer left run
  rcases outcome_bind_eq_ok.1 run with ⟨_, _, equal, run⟩
  cases equal
  rcases outcome_bind_eq_ok.1 run with ⟨elements, between, demanded, run⟩
  rcases outcome_demand_eq_ok.1 demanded with ⟨found, rfl⟩
  rcases heaps.buffer found with ⟨elements', found', linked⟩
  rcases rest elements elements' linked heap heap' heaps answer left run with
    ⟨larger, answer', left', grows, run', heaps', holds⟩
  refine ⟨larger, answer', left', grows, ?_, heaps', holds⟩
  refine outcome_bind_eq_ok.2 ⟨heap', heap', rfl, ?_⟩
  refine outcome_bind_eq_ok.2 ⟨elements', heap', ?_, run'⟩
  rw [outcome_demand, found']

theorem Agrees.buffer (agrees : Agrees link scene scene' operand operand') :
    Follows Link.Buffers link (scene.buffer operand) (scene'.buffer operand') := by
  refine Follows.bind (agrees.eval link (le_refl link)) ?_
  intro larger datum datum' _ linked
  cases linked with
  | buffer address =>
      refine follows_elements address ?_
      intro elements elements' linked
      exact Follows.pure ⟨rfl, linked⟩
  | _ => exact Follows.fail

theorem follows_storeElement
    (address : Nat)
    (index : Int)
    {new new' : Datum}
    (linked : Linked link new new') :
    Follows Same link (Scene.storeElement address index new)
      (Scene.storeElement address index new') := by
  refine follows_elements address ?_
  intro elements elements' linkedElements heap heap' heaps answer left run
  rcases outcome_bind_eq_ok.1 run with ⟨element, between, demanded, equal⟩
  cases equal
  rcases outcome_demand_eq_ok.1 demanded with ⟨found, rfl⟩
  rcases AllLinked.elementAt? linkedElements found with ⟨element', found', -⟩
  refine ⟨link, _, _, le_refl link, ?_,
    heaps.setBuffer address (forall₂_set linkedElements index.toNat linked), rfl⟩
  refine outcome_bind_eq_ok.2 ⟨element', heap', ?_, rfl⟩
  rw [outcome_demand, found']

/-! ## Atomic operations -/

/--
Where references are told apart, handles are equal on one side when they are on the other
one.  What is no reference equals none on either side.
-/
theorem follows_sameDatum
    {left left' right right' : Datum}
    (compares : (∃ serial cell path, right = .reference serial cell path) → link.exact)
    (linkedLeft : Linked link left left')
    (linkedRight : Linked link right right') :
    Follows Same link (Scene.sameDatum left right) (Scene.sameDatum left' right') := by
  intro heap heap' heaps answer after run
  have same : outcome (Scene.sameDatum left' right') heap' = (.ok answer, heap') ∧
      after = heap := by
    cases linkedLeft with
    | aggregate elements =>
        cases linkedRight <;> cases run
        all_goals exact ⟨rfl, rfl⟩
    | @reference serial serial' cell cell' path cells references places =>
        cases linkedRight with
        | @reference other other' _ _ _ _ references' places' =>
            cases run
            have exact : link.exact := compares ⟨_, _, _, rfl⟩
            refine ⟨?_, rfl⟩
            have equal : (serial' == other') = (serial == other) := by
              by_cases held : serial = other
              · subst held
                rw [(heaps.apart exact).right references references']
                simp
              · have different : serial' ≠ other' := by
                  rintro rfl
                  exact held ((heaps.apart exact).left references references')
                simp [held, different]
            show outcome (pure (serial' == other')) heap' = _
            rw [equal]
            rfl
        | _ =>
            cases run
            exact ⟨rfl, rfl⟩
    | @rayQuery address address' queries =>
        cases linkedRight with
        | @rayQuery other other' queries' =>
            cases run
            refine ⟨?_, rfl⟩
            have equal : (address' == other') = (address == other) := by
              by_cases held : address = other
              · subst held
                rw [heaps.queryRight queries queries']
                simp
              · have different : address' ≠ other' := by
                  rintro rfl
                  exact held (heaps.queryLeft queries queries')
                simp [held, different]
            show outcome (pure (address' == other')) heap' = _
            rw [equal]
            rfl
        | _ =>
            cases run
            exact ⟨rfl, rfl⟩
    | _ =>
        cases linkedRight <;> cases run
        all_goals exact ⟨rfl, rfl⟩
  rcases same with ⟨run', rfl⟩
  exact ⟨link, answer, heap', le_refl link, run', heaps, rfl⟩

/-- Two data that are both missing, or linked. -/
def MaybeLinked (link : Link) : Option Datum → Option Datum → Prop :=
  Option.Rel (Linked link)

theorem follows_updated
    (type : Option Ty)
    (op : AtomicOp)
    {old old' : Datum}
    {values values' : List Datum}
    (compares : op = .compareExchange →
      (∃ serial cell path, values.head? = some (.reference serial cell path)) → link.exact)
    (linkedOld : Linked link old old')
    (linkedValues : AllLinked link values values') :
    Follows MaybeLinked link (scene.updated type op old values)
      (scene'.updated type op old' values') := by
  cases linkedValues with
  | nil =>
      cases op <;> exact Follows.stuck
  | @cons first first' rest rest' linkedFirst linkedRest =>
      have arithmetical : Follows MaybeLinked link
          (do
            let op ← Exec.demand (Scene.updateOp? op)
            return some (← arithmetic scene.program type op [old, first]))
          (do
            let op ← Exec.demand (Scene.updateOp? op)
            return some (← arithmetic scene'.program type op [old', first'])) := by
        refine Follows.bind (Follows.demandSame _) ?_
        intro middle op _ grows same
        cases same
        have operands : AllLinked middle [old, first] [old', first'] :=
          .cons (linkedOld.mono grows) (.cons (linkedFirst.mono grows) .nil)
        refine Follows.bind (follows_arithmetic _ _ type op operands) ?_
        intro larger result result' _ linked
        exact Follows.pure (.some linked)
      cases op with
      | exchange => exact Follows.pure (.some linkedFirst)
      | compareExchange =>
          cases linkedRest with
          | nil => exact arithmetical
          | cons linkedNew _ =>
              have compares : (∃ serial cell path, first = .reference serial cell path) →
                  link.exact := by
                rintro ⟨serial, cell, path, rfl⟩
                exact compares rfl ⟨serial, cell, path, rfl⟩
              refine Follows.bind (follows_sameDatum compares linkedOld linkedFirst) ?_
              intro larger equal _ grows same
              cases same
              cases equal with
              | true => exact Follows.pure (.some (linkedNew.mono grows))
              | false => exact Follows.pure .none
      | _ => exact arithmetical

theorem follows_mapM_evalPresent
    {operands operands' : List (Option Ref)}
    (agree : List.Forall₂ (Agrees link scene scene') operands operands') :
    ∀ larger, link ≤ larger →
      Follows AllLinked larger (operands.mapM scene.evalPresent)
        (operands'.mapM scene'.evalPresent) := by
  induction agree with
  | nil =>
      intro larger _
      exact Follows.pure .nil
  | cons first _ induction =>
      intro larger grows
      rw [List.mapM_cons, List.mapM_cons]
      refine Follows.bind (first.eval larger grows) ?_
      intro middle datum datum' grows' linked
      refine Follows.bind (induction middle (le_trans grows grows')) ?_
      intro last data data' grows'' linkedData
      exact Follows.pure (.cons (linked.mono grows'') linkedData)

/-- Writing what an atomic operation makes of the old content, and answering that content. -/
theorem follows_replace
    {old old' : Datum}
    {work work' : Exec (Option Datum)}
    {write write' : Datum → Exec PUnit}
    (linkedOld : Linked link old old')
    (computes : Follows MaybeLinked link work work')
    (writes : ∀ larger new new', link ≤ larger → Linked larger new new' →
      Follows Same larger (write new) (write' new')) :
    Follows Linked link
      (do
        match ← work with
        | some new => write new
        | none => pure ()
        return old)
      (do
        match ← work' with
        | some new => write' new
        | none => pure ()
        return old') := by
  refine Follows.bind computes ?_
  intro larger answer answer' grows linked
  cases linked with
  | none => exact Follows.pure (linkedOld.mono grows)
  | some linkedNew =>
      refine Follows.bind (writes larger _ _ grows linkedNew) ?_
      intro last _ _ grows' _
      exact Follows.pure (linkedOld.mono (le_trans grows grows'))

/-- A comparand that is a reference is that of the instruction. -/
theorem Scene.comparesReference_of_evalValues
    (scene : Scene)
    {op : AtomicOp}
    {heap left : Heap}
    {values : List Datum}
    (opcode : instruction.opcode = .atomic op)
    (evaluates : outcome (Scene.atomic.evalValues scene op instruction.values) heap =
      (.ok values, left))
    (isCompare : op = .compareExchange)
    (isReference : ∃ serial cell path, values.head? = some (.reference serial cell path)) :
    scene.ComparesReference instruction := by
  subst isCompare
  obtain ⟨serial, cell, path, first⟩ := isReference
  refine ⟨opcode, ?_⟩
  change outcome (List.mapM scene.evalPresent
    (instruction.values.drop (instruction.values.length - 2))) heap = _ at evaluates
  cases compared : instruction.values.drop (instruction.values.length - 2) with
  | nil =>
      rw [compared] at evaluates
      cases evaluates
      cases first
  | cons operand rest =>
      rw [compared, List.mapM_cons] at evaluates
      obtain ⟨datum, between, evaluated, evaluates⟩ := outcome_bind_eq_ok.1 evaluates
      obtain ⟨others, _, -, equal⟩ := outcome_bind_eq_ok.1 evaluates
      cases equal
      cases first
      exact ⟨operand, rfl, heap, between, serial, cell, path, evaluated⟩

theorem Resembles.atomic
    (resembles : Resembles link scene scene' instruction instruction')
    (type : Option Ty)
    {op : AtomicOp}
    (opcode : instruction.opcode = .atomic op) :
    Follows Linked link (scene.atomic type op instruction)
      (scene'.atomic type op instruction') := by
  have lengths := resembles.operands.length_eq
  unfold Scene.atomic
  dsimp only
  rw [← lengths]
  split
  · exact Follows.stuck
  · refine Follows.bind (resembles.follows_operand 0) ?_
    intro first base base' grows agrees
    have indices := List.forall₂_take (instruction.values.length - 1 - op.valueCount)
      (List.forall₂_drop 1 resembles.operands)
    refine Follows.bind (follows_path indices first grows) ?_
    intro second path _ grows' same
    cases same
    refine Follows.bind (agrees.eval second (le_trans grows grows')) ?_
    intro third target target' grows'' linked
    have upTo : link ≤ third := le_trans grows (le_trans grows' grows'')
    have evaluate := follows_mapM_evalPresent
      (List.forall₂_drop (instruction.values.length - op.valueCount) resembles.operands) third upTo
    have evaluate : Follows AllLinked third
        (Scene.atomic.evalValues scene op instruction.values)
        (Scene.atomic.evalValues scene' op instruction'.values) := by
      unfold Scene.atomic.evalValues
      rw [← lengths]
      exact evaluate
    have evaluate := evaluate.and_left fun _ _ _ => scene.comparesReference_of_evalValues opcode
    cases linked with
    | @reference _ _ cell cell' below cells references _ =>
        refine Follows.bind evaluate ?_
        rintro fourth values values' grown ⟨linkedValues, compared⟩
        have places : fourth.Places (cell, below ++ path) (cell', below ++ path) :=
          ⟨grown.1.cells cells, rfl⟩
        refine Follows.bind (follows_load places) ?_
        intro fifth old old' growing linkedOld
        have linkedValues := AllLinked.mono growing linkedValues
        have compares := fun isCompare isReference =>
          (le_trans upTo (le_trans grown growing)).2
            (resembles.compares (compared isCompare isReference))
        exact follows_replace linkedOld (follows_updated type op compares linkedOld linkedValues)
          fun larger new new' grows linkedNew =>
            follows_store (places.mono (le_trans growing grows)) linkedNew
    | buffer address =>
        match path with
        | [] => exact Follows.fail
        | [index] =>
            refine Follows.bind evaluate ?_
            rintro fourth values values' grown ⟨linkedValues, compared⟩
            refine follows_elements address ?_
            intro elements elements' linkedElements
            refine Follows.bind (Follows.demand fun _ found =>
              AllLinked.elementAt? linkedElements found) ?_
            intro fifth old old' growing linkedOld
            have linkedValues := AllLinked.mono growing linkedValues
            have compares := fun isCompare isReference =>
              (le_trans upTo (le_trans grown growing)).2
                (resembles.compares (compared isCompare isReference))
            exact follows_replace linkedOld
              (follows_updated type op compares linkedOld linkedValues)
              fun larger new new' _ linkedNew => follows_storeElement address index linkedNew
        | _ :: _ :: _ => exact Follows.fail
    | _ => exact Follows.fail

end ShaderIR.Machine
