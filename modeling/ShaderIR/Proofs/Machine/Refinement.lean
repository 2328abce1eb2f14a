import ShaderIR.Proofs.Machine.Simulation

/-!
# Programs that refine each other

A program refines another one when every run of the other one that returns can
be repeated: the run returns the same value, prints the same lines and leaves
the cells, buffers and ray queries it was given in the same state.  What the
runs make on their way may have different numbers, so the same means linked by a
link that keeps everything they were given.
-/

namespace ShaderIR.Machine

open Exec

/--
What a heap holds stands for itself; each reference has its place.  Any two references
stand for each other if they are not told apart.
-/
def Link.initial (heap : Heap) (places : Nat → Nat × List Int) (exact : Prop) : Link where
  cells := fun cell cell' => cell < heap.cells.size ∧ cell' = cell
  queries := fun query query' => query < heap.rayQueries.size ∧ query' = query
  references := fun serial serial' => exact → serial < heap.serial ∧ serial' = serial
  places := fun serial place => serial < heap.serial ∧ place = places serial
  own := fun _ => False
  exact := exact

/--
What a run is given is in order: handles denote things that are in the heap, and
references with one serial number are one reference.
-/
def Tidy (settings : Settings) (heap : Heap) (arguments : List Datum) : Prop :=
  ∃ places,
    (∀ content ∈ heap.cells, Linked (.initial heap places True) content content) ∧
    (∀ elements ∈ heap.buffers, ∀ element ∈ elements,
      Linked (.initial heap places True) element element) ∧
    (∀ argument ∈ arguments, Linked (.initial heap places True) argument argument) ∧
    ∀ entry ∈ settings.registers, Linked (.initial heap places True) entry.2 entry.2

/-- Two results are the same as far as the caller, who knows a heap, can tell. -/
def Result.Agrees (heap : Heap) (result result' : Result) : Prop :=
  ∃ link : Link,
    (∀ cell < heap.cells.size, link.cells cell cell) ∧
    (∀ query < heap.rayQueries.size, link.queries query query) ∧
    link.Heaps result.heap result'.heap ∧ Linked link result.value result'.value ∧
    result'.output = result.output

/-- What is asked of the states that a run goes through. -/
abbrev Condition : Type := Store → Settings → State → Prop

/-- The next instruction does not look at the clock. -/
def Timeless : Condition := fun program _ state =>
  ∀ {ref rest}, state.frame.rest = ref :: rest → program.opcode? ref ≠ some .clock

/-- The next instruction compares nothing with a reference. -/
def ComparesNoReference : Condition := fun program settings state =>
  ∀ {ref rest entry}, state.frame.rest = ref :: rest → program.instruction? ref = some entry →
    ¬Scene.ComparesReference ⟨program, settings, state.frame.values⟩ entry

/-- A condition holds wherever a call of a function comes. -/
def RunsUnder
    (condition : Condition)
    (program : Store)
    (settings : Settings)
    (heap : Heap)
    (function : Ref)
    (arguments : List Datum) : Prop :=
  ∀ frame left, outcome (callFrame program settings function arguments) heap = (.ok frame, left) →
    ∀ visited, State.Visits program settings { frame, heap := left } visited →
      condition program settings visited

/-- Runs under a condition are repeated under it by another program. -/
def Refines (condition : Condition) (program program' : Store) : Prop :=
  ∀ {settings heap function arguments result}, Tidy settings heap arguments →
    run program settings heap (some function) arguments = .ok result →
    RunsUnder condition program settings heap function arguments →
    ∀ limit, settings.limit ≤ limit →
      ∃ result', run program' { settings with limit := limit } heap (some function) arguments =
          .ok result' ∧ result.Agrees heap result' ∧
        RunsUnder condition program' { settings with limit := limit } heap function arguments

/-! ## Composition -/

/-- Two links one after the other. -/
def Link.trans (link link' : Link) : Link where
  cells := fun cell cell'' => ∃ cell', link.cells cell cell' ∧ link'.cells cell' cell''
  queries := fun query query'' => ∃ query', link.queries query query' ∧ link'.queries query' query''
  references := fun serial serial'' =>
    ∃ serial', link.references serial serial' ∧ link'.references serial' serial''
  places := link'.places
  own := link.own
  exact := link.exact ∧ link'.exact

mutual

theorem Linked.trans
    {link link' : Link}
    {first second third : Datum}
    (linked : Linked link first second)
    (linked' : Linked link' second third) :
    Linked (link.trans link') first third := by
  cases linked with
  | absent =>
      cases linked'
      exact .absent
  | bool truth =>
      cases linked'
      exact .bool truth
  | int number =>
      cases linked'
      exact .int number
  | uint number =>
      cases linked'
      exact .uint number
  | float number =>
      cases linked'
      exact .float number
  | aggregate elements =>
      cases linked' with
      | aggregate elements' => exact .aggregate (AllLinked.trans elements elements')
  | reference cells references _ =>
      cases linked' with
      | reference cells' references' places =>
          exact .reference ⟨_, cells, cells'⟩ ⟨_, references, references'⟩ places
  | buffer address =>
      cases linked'
      exact .buffer address
  | rayQuery queries =>
      cases linked' with
      | rayQuery queries' => exact .rayQuery ⟨_, queries, queries'⟩
  | entity ref =>
      cases linked'
      exact .entity ref

theorem AllLinked.trans
    {link link' : Link}
    {firsts seconds thirds : List Datum}
    (linked : AllLinked link firsts seconds)
    (linked' : AllLinked link' seconds thirds) :
    AllLinked (link.trans link') firsts thirds := by
  cases linked with
  | nil =>
      cases linked'
      exact .nil
  | cons first rest =>
      cases linked' with
      | cons first' rest' => exact .cons (Linked.trans first first') (AllLinked.trans rest rest')

end

theorem forall₂_trans
    {α β γ : Type}
    {related : α → β → Prop}
    {related' : β → γ → Prop}
    {both : α → γ → Prop}
    {firsts : List α}
    {seconds : List β}
    {thirds : List γ}
    (compose : ∀ first second third, related first second → related' second third →
      both first third)
    (all : List.Forall₂ related firsts seconds)
    (all' : List.Forall₂ related' seconds thirds) :
    List.Forall₂ both firsts thirds := by
  induction all generalizing thirds with
  | nil =>
      cases all'
      exact .nil
  | cons first _ induction =>
      cases all' with
      | cons first' rest' => exact .cons (compose _ _ _ first first') (induction rest')

theorem TellsApart.trans
    {references references' : Nat → Nat → Prop}
    {bound bound' bound'' : Nat}
    (apart : TellsApart references bound bound')
    (apart' : TellsApart references' bound' bound'') :
    TellsApart (fun serial serial'' => ∃ serial', references serial serial' ∧
      references' serial' serial'') bound bound'' where
  inside := by
    rintro serial serial'' ⟨serial', linked, linked'⟩
    exact ⟨(apart.inside linked).1, (apart'.inside linked').2⟩
  right := by
    rintro serial serial'' other'' ⟨serial', linked, linked'⟩ ⟨other', linkedOther, linkedOther'⟩
    cases apart.right linked linkedOther
    exact apart'.right linked' linkedOther'
  left := by
    rintro serial other serial'' ⟨serial', linked, linked'⟩ ⟨other', linkedOther, linkedOther'⟩
    cases apart'.left linked' linkedOther'
    exact apart.left linked linkedOther

theorem Link.Heaps.trans
    {link link' : Link}
    {first second third : Heap}
    (heaps : link.Heaps first second)
    (heaps' : link'.Heaps second third) :
    (link.trans link').Heaps first third where
  cell := by
    rintro cell cell'' ⟨cell', linked, linked'⟩
    rcases heaps.cell linked with ⟨content, content', held, held', linkedContent⟩
    rcases heaps'.cell linked' with ⟨other, content'', otherHeld, held'', linkedContent'⟩
    cases held'.symm.trans otherHeld
    exact ⟨content, content'', held, held'', linkedContent.trans linkedContent'⟩
  cellRight := by
    rintro cell cell'' other'' ⟨cell', linked, linked'⟩ ⟨other', linkedOther, linkedOther'⟩
    cases heaps.cellRight linked linkedOther
    exact heaps'.cellRight linked' linkedOther'
  cellLeft := by
    rintro cell cell'' other ⟨cell', linked, linked'⟩ ⟨other', linkedOther, linkedOther'⟩
    cases heaps'.cellLeft linked' linkedOther'
    exact heaps.cellLeft linked linkedOther
  query := by
    rintro query query'' ⟨query', linked, linked'⟩
    rcases heaps.query linked with ⟨state, held, held'⟩
    rcases heaps'.query linked' with ⟨other, otherHeld, held''⟩
    cases held'.symm.trans otherHeld
    exact ⟨state, held, held''⟩
  queryRight := by
    rintro query query'' other'' ⟨query', linked, linked'⟩ ⟨other', linkedOther, linkedOther'⟩
    cases heaps.queryRight linked linkedOther
    exact heaps'.queryRight linked' linkedOther'
  queryLeft := by
    rintro query query'' other ⟨query', linked, linked'⟩ ⟨other', linkedOther, linkedOther'⟩
    cases heaps'.queryLeft linked' linkedOther'
    exact heaps.queryLeft linked linkedOther
  buffers := by
    refine forall₂_trans ?_ heaps.buffers heaps'.buffers
    intro elements elements' elements'' linked linked'
    exact AllLinked.trans linked linked'
  serial := heaps'.serial
  place := heaps'.place
  own := fun isOwn => (heaps.own isOwn).imp_right fun alone _ linked =>
    linked.elim fun cell' linked => alone cell' linked.1
  apart := fun exact => (heaps.apart exact.1).trans (heaps'.apart exact.2)

theorem Result.Agrees.trans
    {heap : Heap}
    {first second third : Result}
    (agrees : first.Agrees heap second)
    (agrees' : second.Agrees heap third) :
    first.Agrees heap third := by
  rcases agrees with ⟨link, cells, queries, heaps, linked, output⟩
  rcases agrees' with ⟨link', cells', queries', heaps', linked', output'⟩
  refine ⟨link.trans link', ?_, ?_, heaps.trans heaps', linked.trans linked',
    output'.trans output⟩
  · intro cell inside
    exact ⟨cell, cells cell inside, cells' cell inside⟩
  · intro query inside
    exact ⟨query, queries query inside, queries' query inside⟩

theorem Refines.trans
    {condition : Condition}
    {first second third : Store}
    (refines : Refines condition first second)
    (refines' : Refines condition second third) :
    Refines condition first third := by
  intro settings heap function arguments result tidy ran under limit large
  rcases refines tidy ran under settings.limit (Nat.le_refl _) with
    ⟨result', ran', agrees, under'⟩
  rcases refines' tidy ran' under' limit large with ⟨result'', ran'', agrees', under''⟩
  exact ⟨result'', ran'', agrees.trans agrees', under''⟩

/-! ## Runs of shadowing programs -/

section Start

variable {settings : Settings} {heap : Heap} {arguments : List Datum}
  {places : Nat → Nat × List Int} {exact : Prop}

/-- Linked data stay linked where references are not told apart. -/
theorem Link.initial_within : (Link.initial heap places True).Within (.initial heap places exact) :=
  ⟨id, id, fun linked _ => linked trivial, id, id⟩

/-- A heap in order is linked with itself. -/
theorem heaps_initial
    (cells : ∀ content ∈ heap.cells, Linked (.initial heap places exact) content content)
    (buffers : ∀ elements ∈ heap.buffers, ∀ element ∈ elements,
      Linked (.initial heap places exact) element element) :
    (Link.initial heap places exact).Heaps heap heap where
  cell := by
    rintro _ cell ⟨inside, rfl⟩
    refine ⟨heap.cells[cell], heap.cells[cell], by simp [inside], by simp [inside], ?_⟩
    exact cells _ (Array.getElem_mem inside)
  cellRight := by
    rintro cell cell' other' ⟨-, rfl⟩ ⟨-, rfl⟩
    rfl
  cellLeft := by
    rintro cell cell' other ⟨-, rfl⟩ ⟨-, equal⟩
    exact equal
  query := by
    rintro _ query ⟨inside, rfl⟩
    exact ⟨heap.rayQueries[query], by simp [inside], by simp [inside]⟩
  queryRight := by
    rintro query query' other' ⟨-, rfl⟩ ⟨-, rfl⟩
    rfl
  queryLeft := by
    rintro query query' other ⟨-, rfl⟩ ⟨-, equal⟩
    exact equal
  buffers := by
    refine List.forall₂_same.2 fun elements member => List.forall₂_same.2 fun element inside => ?_
    exact buffers elements (Array.mem_toList_iff.1 member) element inside
  serial := fun placed => placed.1
  place := by
    rintro serial place place' ⟨-, rfl⟩ ⟨-, rfl⟩
    rfl
  own := False.elim
  apart := fun isExact => {
    inside := fun linked => by
      obtain ⟨inside, rfl⟩ := linked isExact
      exact ⟨inside, inside⟩
    right := fun linked linked' => (linked isExact).2.trans (linked' isExact).2.symm
    left := fun linked linked' => (linked isExact).2.symm.trans (linked' isExact).2 }

end Start

/-- A run consists of entering the function and of steps that end with a result. -/
theorem run_eq_ok
    {program : Store}
    {settings : Settings}
    {heap : Heap}
    {function : Ref}
    {arguments : List Datum}
    {result : Result} :
    run program settings heap (some function) arguments = .ok result ↔
      ∃ entry frame left final, program.function? function = some entry ∧
        entry.isDefinition = true ∧ arguments.length = entry.arguments.length ∧
        outcome (callFrame program settings function arguments) heap = (.ok frame, left) ∧
        State.run program settings (settings.limit + 1) { frame, heap := left } =
          (.finished result.value, final) ∧
        result = ⟨result.value, final.output.reverse, final.steps, final.heap⟩ := by
  unfold run
  constructor
  · intro ran
    dsimp only at ran
    cases found : program.function? function with
    | none =>
        rw [found] at ran
        cases ran
    | some entry =>
        rw [found] at ran
        dsimp only at ran
        split at ran
        · cases ran
        · rename_i defined
          split at ran
          · cases ran
          · rename_i arity
            unfold runFrom at ran
            cases called : outcome (callFrame program settings function arguments) heap with
            | mk answer left =>
                have called' : (callFrame program settings function arguments).run.run heap =
                    (answer, left) := called
                rw [called'] at ran
                cases answer with
                | error halt => cases ran
                | ok frame =>
                    dsimp only at ran
                    cases stepped : State.run program settings (settings.limit + 1)
                        { frame, heap := left } with
                    | mk ending final =>
                        rw [stepped] at ran
                        cases ending with
                        | halted halt => cases ran
                        | finished value =>
                            cases ran
                            exact ⟨entry, frame, left, final, rfl, by simpa using defined,
                              by simpa using arity, rfl, stepped, rfl⟩
  · rintro ⟨entry, frame, left, final, found, defined, arity, called, stepped, equal⟩
    have called' : (callFrame program settings function arguments).run.run heap =
        (.ok frame, left) := called
    dsimp only
    rw [found]
    dsimp only
    rw [if_neg (by simp [defined]), if_neg (by simp [arity])]
    unfold runFrom
    rw [called']
    dsimp only
    rw [stepped]
    exact congrArg Except.ok equal.symm

/--
A program refines another one that it shadows whatever the runs are given, if the condition
carries over to the states that are matched.
-/
theorem Refines.of_shadows
    {condition : Condition}
    {program program' : Store}
    (exact : Prop)
    (shadows : ∀ settings limit, settings.limit ≤ limit →
      ∀ base : Link, base.exact = exact →
        (¬exact → ∀ serial serial', base.references serial serial') →
      (∀ entry ∈ settings.registers, Linked base entry.2 entry.2) →
      ∃ gone holds,
        Shadows gone base program program' settings { settings with limit := limit } holds ∧
        (∀ {state state' link},
          Shadows.Matches gone base program program' settings holds state' state link →
          condition program' { settings with limit := limit } state') ∧
        ∀ {function arguments heap frame left},
          outcome (callFrame program settings function arguments) heap = (.ok frame, left) →
          Finishes program settings { frame, heap := left } →
          (∀ visited, State.Visits program settings { frame, heap := left } visited →
            condition program settings visited) →
          ∀ {link}, base ≤ link → holds link { frame, heap := left }) :
    Refines condition program program' := by
  intro settings heap function arguments result tidy ran under limit large
  rcases tidy with ⟨places, cells, buffers, argumentsLinked, registers⟩
  rcases shadows settings limit large (.initial heap places exact) rfl
      (fun inexact _ _ isExact => absurd isExact inexact)
      (fun entry member => (registers entry member).within Link.initial_within) with
    ⟨gone, holds, shadows, carries, entered⟩
  rcases run_eq_ok.1 ran with ⟨entry, frame, left, final, found, defined, arity, called, stepped,
    equal⟩
  have held {link : Link} (above : .initial heap places exact ≤ link) :
      holds link { frame, heap := left } :=
    entered called ⟨_, _, _, stepped⟩ (under frame left called) above
  have heaps : (Link.initial heap places exact).Heaps heap heap := heaps_initial
    (fun content member => (cells content member).within Link.initial_within)
    (fun elements member element inside =>
      (buffers elements member element inside).within Link.initial_within)
  have linkedArguments : AllLinked (.initial heap places exact) arguments arguments :=
    List.forall₂_same.2 fun argument member =>
      (argumentsLinked argument member).within Link.initial_within
  rcases shadows.callFrame heaps linkedArguments called (shadows.tracked (held (le_refl _))) with
    ⟨larger, frame', left', grows, called', heaps', frames⟩
  have linked : StatesLinked gone program program' larger { frame, heap := left }
      { frame := frame', heap := left' } :=
    ⟨frames, .nil, heaps', rfl, Nat.le_refl 0⟩
  rcases shadows.run (held grows) grows linked stepped with
    ⟨value', final', last, stepped', grows', finalHeaps, linkedValue, sameOutput, matched⟩
  have stepped' : State.run program' { settings with limit := limit } (limit + 1)
      { frame := frame', heap := left' } = (.finished value', final') :=
    State.run_of_le (Nat.succ_le_succ large) stepped'
  refine ⟨⟨value', final'.output.reverse, final'.steps, final'.heap⟩, ?_,
    ⟨last, ?_, ?_, ?_, linkedValue, ?_⟩, ?_⟩
  · exact run_eq_ok.2 ⟨entry, frame', left', final', (shadows.functions function).trans found,
      defined, arity, called', stepped', rfl⟩
  · intro cell inside
    exact (le_trans grows grows').1.cells ⟨inside, rfl⟩
  · intro query inside
    exact (le_trans grows grows').1.queries ⟨inside, rfl⟩
  · rw [equal]
    exact finalHeaps
  · rw [equal, Result.output, Result.output, List.map_reverse, List.map_reverse, sameOutput]
  · intro other heap' calledAgain visited visits
    cases called'.symm.trans calledAgain
    obtain ⟨_, _, found⟩ := matched visited visits
    exact carries found

end ShaderIR.Machine
