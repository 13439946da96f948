import ConstraintSolver.Cli.Arguments
import ConstraintSolver.Model.Positioning
import ConstraintSolver.Model.Strand
import ConstraintSolver.Model.Strength
import ConstraintSolver.Statistics.Log

/-! # Running the command line

    A run builds a model, searches for its solutions and tells them, with the
    events and statistics that were asked for.  Only the time the search took
    is left open, so that a run is a function of its arguments. -/

namespace ConstraintSolver

namespace Cli

/-- What the version option prints. -/
def versionLine : String := "partcp-solver 0.1.0"

/-- What the help option prints. -/
def usageLines : List String :=
  [versionLine,
    "",
    "Usage: partcp-solver [OPTIONS] <MODEL>",
    "",
    "Arguments:",
    "  <MODEL>  The model to solve: positioning, strand or strength",
    "",
    "Options:",
    "      --num-variables <N>       The number of decision variables",
    "      --num-parts <N>           The number of parts",
    "      --strength-threshold <N>  The minimum strength of the selected parts",
    "      --variable-selection <S>  largest-domain, smallest-domain, most-constrained or input-order",
    "      --value-selection <S>     in-domain-min, in-domain-max or in-domain-random",
    "      --random-seed <N>         The seed of the random value selection",
    "      --first-solution          Stop after the first solution",
    "      --solution-limit <N>      Stop after the given number of solutions",
    "      --record-limit <N>        Only print the first given number of solutions",
    "  -t, --time-limit <N>          The time budget for the search, in milliseconds",
    "  -v, --verbose                 Print log messages",
    "  -s, --log-statistics          Print statistics",
    "      --print-store             Print the store after the model has been built",
    "  -h, --help                    Print help",
    "  -V, --version                 Print version"]

/-- What there is to tell after a search. -/
structure Report where
  /-- The lines which were printed before the search was over. -/
  progress : List String
  solutions : List Solution
  summary : SearchSummary
  logStatistics : Bool

/-- How a run ends. -/
inductive Run where
  /-- The arguments are wrong. -/
  | wrongUsage
  /-- There is nothing to do but to print these lines. -/
  | printed (lines : List String)
  /-- The model cannot be built. -/
  | failed (lines : List String)
  /-- A rule of use is broken. -/
  | aborted (rule : Misuse)
  | solved (report : Report)

/-- The line of an event. -/
def logLine (text : String) : String := "% " ++ text

/-- The lines of the events told so far. -/
def takeLog (s : Store) : List String × Store :=
  match s.takeEvents with
  | (events, s) => (events.map fun e => logLine e.text, s)

/-- Builds the model that the arguments ask for. -/
def buildModel (model : ModelName) (a : Arguments) : Build (List Variable) :=
  let sized := fun (default : ModelSize) =>
    ModelSize.mk (a.numVariables.getD default.variableCount) (a.numParts.getD default.partCount)
  match model with
  | .positioning => Positioning.build (sized Positioning.defaultSize)
  | .strand => Strand.build (sized Strand.defaultSize)
  | .strength =>
      Strength.build (sized Strength.defaultSize)
        (some (a.strengthThreshold.getD Strength.defaultThreshold))

/-- What the user reads when the model cannot be built. -/
def failureLine (e : ModelError) : String :=
  logLine ("Execution failed, error: Failed to build the model, more details: " ++ e.message)

/-- The seed of the random value choice unless another is asked for. -/
def defaultSeed : Nat := 42

/-- Searches for the solutions that the arguments ask for. -/
def search (a : Arguments) (scope : List Variable) (s : Store) :
    Except (Failure ModelError) ((SearchSummary × Recording) × Store) :=
  let goal : SearchGoal := ⟨scope, !a.firstSolution, a.solutionLimit⟩
  let random := Generator.ofSeed (UInt64.ofNat (a.randomSeed.getD defaultSeed))
  let time := match a.timeLimit with | some limit => .present (.time limit) | none => .absent
  match Search.start goal random (Watch.new (.either .cancellation time)) s with
  | .error e => .error e
  | .ok started =>
      let policy :=
        Policy.of (a.variableSelection.getD .largestDomain) (a.valueSelection.getD .inDomainMin)
      let listen := fun solution (heard : Recording × Watch) => (heard.1.hear solution, heard.2)
      match started.label policy Watch.rule listen (Recording.new a.recordLimit) with
      | (.error rule, _) => .error (.misuse rule)
      | (.ok result, ended) => .ok (result, ended.store)

/-- Solves a model. -/
def solve (model : ModelName) (a : Arguments) : Run :=
  let greeting := if a.verbose then [logLine "Logging successfully configured"] else []
  let level := if a.verbose then Level.debug else Level.warn
  match buildModel model a (Store.empty 0 (some level)) with
  | (.error (.misuse rule), _) => .aborted rule
  | (.error (.refused e), s) => .failed (greeting ++ (takeLog s).1 ++ [failureLine e])
  | (.ok scope, s) =>
      match takeLog s with
      | (built, s) =>
          let shown := if a.printStore then [s.text] else []
          match search a scope s with
          | .error (.misuse rule) => .aborted rule
          | .error (.refused e) => .failed (greeting ++ built ++ shown ++ [failureLine e])
          | .ok ((summary, heard), s) =>
              .solved
                { progress := greeting ++ built ++ shown ++ (takeLog s).1
                  solutions := heard.solutions.toList
                  summary := summary
                  logStatistics := a.logStatistics }

/-- A run with the given arguments. -/
def run (args : List String) : Run :=
  match Arguments.read args with
  | .error .usage => .wrongUsage
  | .error .help => .printed usageLines
  | .error .version => .printed [versionLine]
  | .ok (model, a) => solve model a

/-- How the statistics of a run are written. -/
def statisticFormat : StatisticFormat := ⟨"%%%stat:", none, some .camel⟩

/-- The lines of a report, given the seconds that the search took. -/
def Report.lines (r : Report) (seconds : String) : List String :=
  let verdict :=
    if r.summary.isUnsatisfiable then ["UNSATISFIABLE"]
    else if !r.summary.isComplete && r.summary.statistics.solutions == 0 then ["UNKNOWN"]
    else []
  let statistics :=
    if r.logStatistics then
      (r.summary.statistics.write seconds (.new [])
        (StatisticLog.closed.activate statisticFormat)).close.lines
    else []
  r.progress ++ r.solutions.map Solution.text ++ verdict
    ++ [toString r.summary.statistics.solutions ++ " solutions",
      "processing time: " ++ seconds ++ "sec"]
    ++ statistics

/-- The exit code of a run, and what it prints. -/
def Run.result (run : Run) (seconds : String) : UInt8 × List String :=
  match run with
  | wrongUsage => (2, [])
  | printed lines => (0, lines)
  | failed lines => (1, lines)
  | aborted _ => (101, [])
  | solved report => (0, report.lines seconds)

/-- What a run prints on the error channel. -/
def Run.complaint (run : Run) : List String :=
  match run with
  | wrongUsage => usageLines
  | aborted rule => [rule.message]
  | _ => []

end Cli

end ConstraintSolver
