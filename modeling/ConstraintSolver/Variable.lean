/-! # Variables — handles to the integers a model is about

    A variable is known by the store which created it and by its place in
    the order of declaration.  Variables of different stores are never
    equal, so a store can refuse a handle which is not its own. -/

namespace ConstraintSolver

/-- A handle to an integer variable. -/
structure Variable where
  /-- The number of the store which created the variable. -/
  store : Nat
  /-- The position in the order of declaration, counted from 0. -/
  index : Nat
  deriving DecidableEq, Repr

namespace Variable

/-- The number of positions: a position is kept modulo 32 bits.  A store is taken
    to have fewer variables than that, so that no two of them share a handle. -/
def limit : Nat := 4294967296

/-- The handle with the low 32 bits of a position. -/
def ofIndex (store index : Nat) : Variable := ⟨store, index % limit⟩

/-- Below the limit the low bits are the whole position. -/
theorem ofIndex_of_lt {store index : Nat} (h : index < limit) :
    ofIndex store index = ⟨store, index⟩ :=
  congrArg (Variable.mk store) (Nat.mod_eq_of_lt h)

/-- Handles are written by their position alone. -/
def text (v : Variable) : String := "v" ++ toString v.index

end Variable

/-! ## Names -/

/-- The names given to the variables of a store, in order of declaration.  An
    anonymous variable has none. -/
structure Names where
  given : Array (Option String)
  deriving DecidableEq

/-- Why a name cannot be given to a variable. -/
inductive NameError where
  /-- Names of this form belong to anonymous variables. -/
  | reserved (name : String)
  /-- Another variable has this name. -/
  | duplicate (name : String)
  deriving DecidableEq, Repr

/-- What the user reads about a name which is refused. -/
def NameError.message : NameError → String
  | .reserved name => "the name '" ++ name ++ "' is reserved for anonymous variables"
  | .duplicate name => "a variable with the name '" ++ name ++ "' already exists"

namespace Names

/-- No variables yet. -/
def empty : Names := ⟨#[]⟩

/-- An anonymous variable is displayed by its position. -/
def anonymous (index : Nat) : String := "_" ++ toString index

/-- Names made of an underscore and at least one decimal digit could be
    mistaken for those of anonymous variables. -/
def isReserved (name : String) : Bool :=
  match name.toList with
  | '_' :: digits => !digits.isEmpty && digits.all Char.isDigit
  | _ => false

/-- The position of the variable which was declared with this name. -/
def find? (names : Names) (name : String) : Option Nat :=
  names.given.findIdx? (· == some name)

/-- Whether a variable can be declared with this name. -/
def check (names : Names) (name : String) : Except NameError Unit :=
  if isReserved name then .error (.reserved name)
  else if (names.find? name).isSome then .error (.duplicate name)
  else .ok ()

/-- The names with one for the next variable. -/
def add (names : Names) (name : Option String) : Names := ⟨names.given.push name⟩

/-- The name under which the variable at a position is displayed. -/
def get (names : Names) (index : Nat) : String :=
  (names.given[index]?.join).getD (anonymous index)

end Names

end ConstraintSolver
