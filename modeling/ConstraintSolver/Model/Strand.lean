import ConstraintSolver.Model.Parts

/-! # Strand — the parts on the positive strand

    Odd parts are on the positive strand and even parts on the negative.
    Every decision variable has to hold a part on the strand asked for, which
    is the positive one. -/

namespace ConstraintSolver

namespace Strand

/-- The size unless another is asked for. -/
def defaultSize : ModelSize := ⟨18, 380⟩

/-- The positive strand. -/
def positive : Int := 1

/-- The negative strand. -/
def negative : Int := -1

/-- The strand of a part. -/
def strandOf (number : Int) : Int := if number % 2 = 1 then positive else negative

/-- The facts: ties every part to its strand. -/
def declareStrands (size : ModelSize) (parts : List Variable) : Build (List Variable) :=
  ((Parts.numbers size.partCount).zip parts).mapM fun (number, part) => do
    let strand ← Build.sparse [negative, positive] (Parts.partName number ++ ".strand")
    let isPart ← Build.boolean
    Build.impose (.reified (.equality strand .equal (.constant (strandOf number))) isPart)
    Build.impose (.reified (.equality part .equal (.constant number)) isPart)
    return strand

/-- The query: the variable holds one of the parts which are on the strand. -/
def holdsPartOn (strand : Variable) (parts strands : List Variable) (x : Variable) :
    Constraint :=
  .or ((parts.zip strands).map fun (part, partStrand) =>
    .and [.equality partStrand .equal (.variable strand), .equality x .equal (.variable part)])

/-- Builds the model; the decision variables are its scope. -/
def build (size : ModelSize) : Build (List Variable) := do
  let decisions ← Parts.declareVariables size.variableCount size.partCount
  let strand ← Build.sparse [negative] "part.strand"
  Build.extend strand positive
  let parts ← Parts.declareParts size.partCount
  let strands ← declareStrands size parts
  decisions.forM fun x => Build.impose (holdsPartOn strand parts strands x)
  Build.impose (.equality strand .equal (.constant positive))
  Build.finished
  return decisions

end Strand

end ConstraintSolver
