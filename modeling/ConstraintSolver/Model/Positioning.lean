import ConstraintSolver.Model.Parts

/-! # Positioning — the parts next to each other

    The decision variables have to hold the parts in order and next to each
    other somewhere: every part has an index at which it is found, and the
    indices are consecutive. -/

namespace ConstraintSolver

namespace Positioning

/-- The size unless another is asked for. -/
def defaultSize : ModelSize := ⟨300, 300⟩

/-- Declares the index of every part, at which the part is found among the
    variables. -/
def declareIndices (size : ModelSize) (decisions parts : List Variable) :
    Build (List Variable) :=
  ((Parts.numbers size.partCount).zip parts).mapM fun (number, part) => do
    let index ← Build.integer 1 size.variableCount (Parts.partName number ++ ".index")
    Build.impose (.element index decisions part 1)
    return index

/-- Makes neighbouring indices consecutive. -/
def chain : List Variable → Build Unit
  | first :: second :: rest => do
      Build.impose (.linear first 1 .equal second)
      chain (second :: rest)
  | _ => pure ()

/-- Builds the model; the decision variables are its scope. -/
def build (size : ModelSize) : Build (List Variable) := do
  let decisions ← Parts.declareVariables size.variableCount size.partCount
  let parts ← Parts.declareParts size.partCount
  let indices ← declareIndices size decisions parts
  chain indices
  Build.finished
  return decisions

end Positioning

end ConstraintSolver
