import ConstraintSolver.Model.Parts

/-! # Strength — the parts which are strong enough

    The strength of a part grows with its number.  Every decision variable
    has a strength, which is that of the part it holds, and which has to
    reach a threshold. -/

namespace ConstraintSolver

namespace Strength

/-- The size unless another is asked for. -/
def defaultSize : ModelSize := ⟨3, 3⟩

/-- The threshold unless another is asked for. -/
def defaultThreshold : Int := 200

/-- The strength of the first part. -/
def unit : Int := 100

/-- The strength of a part, at most the largest 32-bit integer. -/
def strengthOf (number : Int) : Int := saturate (number * unit)

/-- The facts: declares the strength of a variable and ties it to the part the
    variable holds. -/
def declareStrength (size : ModelSize) (parts : List Variable) (position : Nat) (x : Variable) :
    Build Variable := do
  let strength ← Build.sparse [unit] ("x" ++ toString position ++ ".strength")
  (Parts.numbers size.partCount).tail.forM fun number => Build.extend strength (strengthOf number)
  ((Parts.numbers size.partCount).zip parts).forM fun (number, part) => do
    let holdsPart ← Build.boolean
    Build.impose (.reified (.equality strength .equal (.constant (strengthOf number))) holdsPart)
    Build.impose (.reified (.equality x .equal (.variable part)) holdsPart)
  return strength

/-- The query: whichever part the variable holds, it is strong enough. -/
def requireStrength (threshold : Int) (parts : List Variable) (x strength : Variable) :
    Build Unit :=
  parts.forM fun part =>
    Build.impose
      (.ifThen (.equality x .equal (.variable part))
        (.ordering strength .greaterOrEqual (.constant threshold)))

/-- Builds the model; the decision variables and their strengths are its
    scope. -/
def build (size : ModelSize) (threshold : Option Int) : Build (List Variable) := do
  let decisions ← Parts.declareVariables size.variableCount size.partCount
  let parts ← Parts.declareParts size.partCount
  let strengths ← decisions.zipIdx.mapM fun (x, position) => declareStrength size parts position x
  match threshold with
  | some threshold =>
      (decisions.zip strengths).forM fun (x, strength) =>
        requireStrength threshold parts x strength
  | none => pure ()
  Build.finished
  return decisions ++ strengths

end Strength

end ConstraintSolver
