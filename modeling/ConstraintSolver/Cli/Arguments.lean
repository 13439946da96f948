import ConstraintSolver.Search.Selection

/-! # Command line arguments

    The first free argument names the model.  Options with a value take it
    after an equals sign or from the next argument, which must not look like
    an option.  Short options can share a dash, and `--` ends the options.
    Arguments are read from left to right; the first that is wrong, or asks
    for help or the version, ends the reading. -/

namespace ConstraintSolver

namespace Cli

/-- The models which can be solved. -/
inductive ModelName where
  | positioning
  | strand
  | strength
  deriving DecidableEq, Repr

/-- Options which need a value. -/
inductive ValueOption where
  | numVariables
  | numParts
  | strengthThreshold
  | variableSelection
  | valueSelection
  | randomSeed
  | solutionLimit
  | recordLimit
  | timeLimit
  deriving DecidableEq, Repr

/-- Options without a value. -/
inductive Flag where
  | firstSolution
  | verbose
  | logStatistics
  | printStore
  | help
  | version
  deriving DecidableEq, Repr

/-- Why reading ends early. -/
inductive Stop where
  /-- The arguments are wrong. -/
  | usage
  | help
  | version
  deriving DecidableEq, Repr

/-- What has been read of the arguments. -/
structure Arguments where
  model : Option ModelName := none
  numVariables : Option Int := none
  numParts : Option Int := none
  strengthThreshold : Option Int := none
  variableSelection : Option VariableChoice := none
  valueSelection : Option ValueChoice := none
  randomSeed : Option Nat := none
  solutionLimit : Option Nat := none
  recordLimit : Option Nat := none
  timeLimit : Option Nat := none
  firstSolution : Bool := false
  verbose : Bool := false
  logStatistics : Bool := false
  printStore : Bool := false
  deriving DecidableEq, Repr

/-! ## Values -/

/-- A natural number in decimal digits. -/
def readDigits (digits : List Char) : Option Nat :=
  if digits.isEmpty || !digits.all Char.isDigit then none
  else some (digits.foldl (fun n c => n * 10 + (c.toNat - '0'.toNat)) 0)

/-- A 32-bit integer, with or without a sign. -/
def readInteger (text : String) : Option Int :=
  let value : Option Int :=
    match text.toList with
    | '-' :: digits => (readDigits digits).map fun n => -(n : Int)
    | '+' :: digits => (readDigits digits).map Int.ofNat
    | digits => (readDigits digits).map Int.ofNat
  value.filter fun v => decide (InRange v)

/-- A natural number of 64 bits, with or without a plus sign. -/
def readNatural (text : String) : Option Nat :=
  let value :=
    match text.toList with
    | '+' :: digits => readDigits digits
    | digits => readDigits digits
  value.filter fun n => decide (n < Xoshiro.wordCount)

/-- The model of a name. -/
def readModel : String → Option ModelName
  | "positioning" => some .positioning
  | "strand" => some .strand
  | "strength" => some .strength
  | _ => none

/-- The variable choice of a name. -/
def readVariableChoice : String → Option VariableChoice
  | "largest-domain" => some .largestDomain
  | "smallest-domain" => some .smallestDomain
  | "most-constrained" => some .mostConstrained
  | "input-order" => some .inputOrder
  | _ => none

/-- The value choice of a name. -/
def readValueChoice : String → Option ValueChoice
  | "in-domain-min" => some .inDomainMin
  | "in-domain-max" => some .inDomainMax
  | "in-domain-random" => some .inDomainRandom
  | _ => none

/-! ## Single arguments -/

/-- A field which is given once; a second time, or without a proper value, the
    arguments are wrong. -/
def once {α : Type} (field value : Option α) : Except Stop (Option α) :=
  match field, value with
  | none, some v => .ok (some v)
  | _, _ => .error .usage

/-- A flag which is given once. -/
def onceFlag (field : Bool) : Except Stop Bool := if field then .error .usage else .ok true

namespace Arguments

/-- The arguments with the model of a name. -/
def setModel (a : Arguments) (name : String) : Except Stop Arguments :=
  (once a.model (readModel name)).map fun model => { a with model := model }

/-- The arguments with the value of an option. -/
def setValue (a : Arguments) (option : ValueOption) (text : String) : Except Stop Arguments :=
  match option with
  | .numVariables =>
      (once a.numVariables (readInteger text)).map fun v => { a with numVariables := v }
  | .numParts => (once a.numParts (readInteger text)).map fun v => { a with numParts := v }
  | .strengthThreshold =>
      (once a.strengthThreshold (readInteger text)).map fun v => { a with strengthThreshold := v }
  | .variableSelection =>
      (once a.variableSelection (readVariableChoice text)).map fun v =>
        { a with variableSelection := v }
  | .valueSelection =>
      (once a.valueSelection (readValueChoice text)).map fun v => { a with valueSelection := v }
  | .randomSeed => (once a.randomSeed (readNatural text)).map fun v => { a with randomSeed := v }
  | .solutionLimit =>
      (once a.solutionLimit (readNatural text)).map fun v => { a with solutionLimit := v }
  | .recordLimit =>
      (once a.recordLimit (readNatural text)).map fun v => { a with recordLimit := v }
  | .timeLimit => (once a.timeLimit (readNatural text)).map fun v => { a with timeLimit := v }

/-- The arguments with a flag. -/
def setFlag (a : Arguments) (flag : Flag) : Except Stop Arguments :=
  match flag with
  | .firstSolution => (onceFlag a.firstSolution).map fun b => { a with firstSolution := b }
  | .verbose => (onceFlag a.verbose).map fun b => { a with verbose := b }
  | .logStatistics => (onceFlag a.logStatistics).map fun b => { a with logStatistics := b }
  | .printStore => (onceFlag a.printStore).map fun b => { a with printStore := b }
  | .help => .error .help
  | .version => .error .version

end Arguments

/-- The option of a long name. -/
def longOption : String → Option (ValueOption ⊕ Flag)
  | "num-variables" => some (.inl .numVariables)
  | "num-parts" => some (.inl .numParts)
  | "strength-threshold" => some (.inl .strengthThreshold)
  | "variable-selection" => some (.inl .variableSelection)
  | "value-selection" => some (.inl .valueSelection)
  | "random-seed" => some (.inl .randomSeed)
  | "solution-limit" => some (.inl .solutionLimit)
  | "record-limit" => some (.inl .recordLimit)
  | "time-limit" => some (.inl .timeLimit)
  | "first-solution" => some (.inr .firstSolution)
  | "verbose" => some (.inr .verbose)
  | "log-statistics" => some (.inr .logStatistics)
  | "print-store" => some (.inr .printStore)
  | "help" => some (.inr .help)
  | "version" => some (.inr .version)
  | _ => none

/-- The option of a letter. -/
def shortOption : Char → Option (ValueOption ⊕ Flag)
  | 't' => some (.inl .timeLimit)
  | 'v' => some (.inr .verbose)
  | 's' => some (.inr .logStatistics)
  | 'h' => some (.inr .help)
  | 'V' => some (.inr .version)
  | _ => none

/-- Reads a long option.  An option which still needs its value is answered
    with the arguments. -/
def readLong (a : Arguments) (text : List Char) : Except Stop (Arguments × Option ValueOption) :=
  let name := text.takeWhile (· != '=')
  let value := (text.drop name.length).tail?
  match longOption (String.ofList name), value with
  | some (.inl option), some value =>
      (a.setValue option (String.ofList value)).map fun a => (a, none)
  | some (.inl option), none => .ok (a, some option)
  | some (.inr flag), none => (a.setFlag flag).map fun a => (a, none)
  | _, _ => .error .usage

/-- Reads letters behind one dash.  What follows the letter of an option with a
    value is its value. -/
def readShort (a : Arguments) : List Char → Except Stop (Arguments × Option ValueOption)
  | [] => .ok (a, none)
  | c :: rest =>
      match shortOption c with
      | none => .error .usage
      | some (.inr flag) =>
          match a.setFlag flag with
          | .error stop => .error stop
          | .ok a => readShort a rest
      | some (.inl option) =>
          match rest with
          | [] => .ok (a, some option)
          | '=' :: value => (a.setValue option (String.ofList value)).map fun a => (a, none)
          | value => (a.setValue option (String.ofList value)).map fun a => (a, none)

/-! ## All arguments -/

/-- Reads free arguments only. -/
def readFree (a : Arguments) : List String → Except Stop Arguments
  | [] => .ok a
  | arg :: rest =>
      match a.setModel arg with
      | .error stop => .error stop
      | .ok a => readFree a rest

/-- Reads arguments; `pending` is an option which needs a value. -/
def readAll (a : Arguments) (pending : Option ValueOption) :
    List String → Except Stop Arguments
  | [] =>
      match pending with
      | some _ => .error .usage
      | none => .ok a
  | arg :: rest =>
      match arg.toList, pending with
      | '-' :: _ :: _, some _ => .error .usage
      | _, some option =>
          match a.setValue option arg with
          | .error stop => .error stop
          | .ok a => readAll a none rest
      | ['-', '-'], none => readFree a rest
      | '-' :: '-' :: text, none =>
          match readLong a text with
          | .error stop => .error stop
          | .ok (a, pending) => readAll a pending rest
      | '-' :: c :: text, none =>
          match readShort a (c :: text) with
          | .error stop => .error stop
          | .ok (a, pending) => readAll a pending rest
      | _, none =>
          match a.setModel arg with
          | .error stop => .error stop
          | .ok a => readAll a none rest

/-- Reads the arguments of the command line, among which a model is needed. -/
def Arguments.read (args : List String) : Except Stop (ModelName × Arguments) :=
  match readAll {} none args with
  | .error stop => .error stop
  | .ok a =>
      match a.model with
      | some model => .ok (model, a)
      | none => .error .usage

end Cli

end ConstraintSolver
