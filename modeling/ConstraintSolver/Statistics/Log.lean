import ConstraintSolver.Search.DepthFirst
import ConstraintSolver.Text.Casing

/-! # The statistics log

    Statistics are written as lines `lead name=value` once the log has been
    opened; until then they are dropped.  A logger qualifies the names it
    logs with the names of the component it belongs to. -/

namespace ConstraintSolver

/-- How statistics are written. -/
structure StatisticFormat where
  /-- Written in front of every statistic. -/
  lead : String
  /-- The line after a block of statistics. -/
  closing : Option String
  /-- The casing of the names. -/
  casing : Option Casing
  deriving DecidableEq, Repr

/-- The lines written so far, if the log is open. -/
structure StatisticLog where
  format : Option StatisticFormat
  lines : List String
  deriving DecidableEq, Repr

namespace StatisticLog

/-- A log which has not been opened. -/
def closed : StatisticLog := ⟨none, []⟩

/-- Opens the log.  A log which is open keeps its format. -/
def activate (log : StatisticLog) (format : StatisticFormat) : StatisticLog :=
  match log.format with
  | some _ => log
  | none => { log with format := some format }

/-- Whether the log is open. -/
def isOpen (log : StatisticLog) : Bool := log.format.isSome

/-- Writes a statistic. -/
def write (log : StatisticLog) (name value : String) : StatisticLog :=
  match log.format with
  | none => log
  | some format =>
      let name := match format.casing with | some casing => casing.apply name | none => name
      { log with lines := log.lines ++ [format.lead ++ " " ++ name ++ "=" ++ value] }

/-- Writes the line after a block of statistics, if there is one. -/
def close (log : StatisticLog) : StatisticLog :=
  match log.format with
  | some { closing := some line, .. } => { log with lines := log.lines ++ [line] }
  | _ => log

/-- The lines written since this was last asked. -/
def takeLines (log : StatisticLog) : List String × StatisticLog :=
  (log.lines, { log with lines := [] })

end StatisticLog

/-- The names of the component whose statistics are logged. -/
structure StatisticLogger where
  component : String
  deriving DecidableEq, Repr

namespace StatisticLogger

/-- The logger of a component, given its names from the outside in. -/
def new (names : List String) : StatisticLogger := ⟨"_".intercalate names⟩

/-- A name as this logger logs it. -/
def qualified (logger : StatisticLogger) (name : String) : String :=
  if logger.component.isEmpty then name else logger.component ++ "_" ++ name

/-- The logger of a part of the component. -/
def attach (logger : StatisticLogger) (name : String) : StatisticLogger :=
  ⟨logger.qualified name⟩

/-- Writes a statistic of the component. -/
def write (logger : StatisticLogger) (log : StatisticLog) (name value : String) : StatisticLog :=
  log.write (logger.qualified name) value

end StatisticLogger

/-- Writes the counters of a search, and the seconds it took. -/
def SearchStatistics.write (statistics : SearchStatistics) (seconds : String)
    (logger : StatisticLogger) (log : StatisticLog) : StatisticLog :=
  [("decisions", toString statistics.decisions),
    ("failures", toString statistics.failures),
    ("solutions", toString statistics.solutions),
    ("peakDepth", toString statistics.peakDepth),
    ("propagations", toString statistics.propagations),
    ("solveTime", seconds)].foldl (fun log (name, value) => logger.write log name value) log

end ConstraintSolver
