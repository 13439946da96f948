/-! # Casing — names made of words

    A name is split into words at underscores, hyphens and blanks, and where
    the kind of its letters changes.  The words are then joined again in the
    casing asked for.  Letters are those of ASCII. -/

namespace ConstraintSolver

/-- How the words of a name are joined. -/
inductive Casing where
  /-- Words in lower case with underscores between them. -/
  | snake
  /-- Words without anything between them, all but the first capitalized. -/
  | camel
  deriving DecidableEq, Repr

namespace Casing

/-- The characters which only separate words. -/
def isSeparator (c : Char) : Bool := c == '_' || c == '-' || c == ' '

/-- Whether a word ends between two characters; `after` is what follows them.
    A run of capitals ends before its last one if that starts a word. -/
def isBoundary (c d : Char) (after : List Char) : Bool :=
  (c.isLower && d.isUpper) || (c.isUpper && d.isDigit) || (c.isDigit && d.isUpper)
    || (c.isDigit && d.isLower) || (c.isLower && d.isDigit)
    || (c.isUpper && d.isUpper && (match after with | e :: _ => e.isLower | [] => false))

/-- The words of a text, given the letters of the word it starts in, the last
    letter first.  Words may be empty. -/
def split (word : List Char) : List Char → List (List Char)
  | [] => [word.reverse]
  | c :: rest =>
      if isSeparator c then word.reverse :: split [] rest
      else
        match rest with
        | d :: after =>
            if isBoundary c d after then (c :: word).reverse :: split [] rest
            else split (c :: word) rest
        | [] => split (c :: word) rest

/-- The words of a name. -/
def words (name : String) : List (List Char) :=
  (split [] name.toList).filter fun word => !word.isEmpty

/-- A word in lower case. -/
def lower (word : List Char) : List Char := word.map Char.toLower

/-- A word with a capital first letter and the others in lower case. -/
def capitalized : List Char → List Char
  | [] => []
  | c :: rest => c.toUpper :: lower rest

/-- A name in a casing. -/
def apply (casing : Casing) (name : String) : String :=
  match casing with
  | snake => "_".intercalate ((words name).map fun word => String.ofList (lower word))
  | camel =>
      match words name with
      | [] => ""
      | first :: others => String.ofList (lower first ++ (others.map capitalized).flatten)

end Casing

end ConstraintSolver
